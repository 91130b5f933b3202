import NetBase.Logging.LogLine

/-!
# The names of log files

`logFileNameParse` and `logFileNameGenerate` of `src/logging/logger_filename.cpp`. The entries of a
pattern are folded into the text in front of the date, the text behind it and the format of the
date, and put together again whenever a file is opened. The host, the process and the clock are
parameters, and so is `strftime`.
-/

namespace NetBase.Logging

open Pattern (Item writeAll WellFormed)

structure LogFilenameData where
  prefixText : String := ""
  postfixText : String := ""
  dateTime : String := ""

/-- The variables of the loop. -/
structure FilenameLoop extends LogFilenameData where
  inPre : Bool := true

namespace FilenameLoop

/-- `in_pre ? prefix += text : postfix += text` -/
def add (s : FilenameLoop) (text : String) : FilenameLoop :=
  if s.inPre then { s with prefixText := s.prefixText ++ text }
  else { s with postfixText := s.postfixText ++ text }

/-- One turn of the loop. -/
def addEntry (host : String) (pid : Int) (s : FilenameLoop) (entry : PatternEntry) :
    FilenameLoop :=
  if entry.specifier then
    match entry.str.toList.headD (Char.ofNat 0) with
    | 'd' => { s with dateTime := s.dateTime ++ entry.fmt, inPre := false }
    | 'H' => s.add host
    | 'P' => s.add (toString pid)
    | _ => s.add "_error_pattern_"
  else s.add entry.str

end FilenameLoop

def logFileNameParse (host : String) (pid : Int) (pattern : String) : LogFilenameData :=
  ((logPatternParse pattern).foldl (FilenameLoop.addEntry host pid) {}).toLogFilenameData

/-- `char timebuf[32]`: without room for the text and its zero the contents are indeterminate. -/
def timebuf (text : String) : Option String := if (bytes text).length < 32 then some text else none

def logFileNameGenerate (strftime : Strftime) (now : Int) (data : LogFilenameData) :
    Option String :=
  (timebuf (strftime data.dateTime now)).map fun text =>
    data.prefixText ++ text ++ data.postfixText

/-! ## What an item stands for -/

namespace Pattern.Item

/-- The format of a `%d`. -/
def dateTime : Item → Option String
  | literal _ => none
  | specifier key fmt =>
    if key.headD (Char.ofNat 0) = 'd' then some (String.ofList (fmt.getD [])) else none

def expansion (host : String) (pid : Int) (date : String → String) : Item → String
  | literal text => String.ofList text
  | specifier key fmt =>
    match key.headD (Char.ofNat 0) with
    | 'd' => date (String.ofList (fmt.getD []))
    | 'H' => host
    | 'P' => toString pid
    | _ => "_error_pattern_"

end Pattern.Item

/-- The name a pattern describes. -/
def fileName (host : String) (pid : Int) (date : String → String) (items : List Item) : String :=
  String.join (items.map (Item.expansion host pid date))

/-! ## The loop -/

section

variable (host : String) (pid : Int) (date : String → String)

theorem addEntry_of_dateTime {item : Item} {d : String} (h : item.dateTime = some d)
    (s : FilenameLoop) :
    s.addEntry host pid item.entry = { s with dateTime := s.dateTime ++ d, inPre := false } ∧
      item.expansion host pid date = date d := by
  cases item with
  | literal text => cases h
  | specifier key fmt =>
    simp only [Item.dateTime, Option.ite_none_right_eq_some, Option.some.injEq] at h
    obtain ⟨hkey, rfl⟩ := h
    simp only [FilenameLoop.addEntry, Item.entry, Item.expansion, String.toList_ofList, hkey,
      if_true, and_self]

theorem addEntry_of_text {item : Item} (h : item.dateTime = none) (s : FilenameLoop) :
    s.addEntry host pid item.entry = s.add (item.expansion host pid date) := by
  cases item with
  | literal text => rfl
  | specifier key fmt =>
    have hkey : key.headD (Char.ofNat 0) ≠ 'd' := by simpa [Item.dateTime] using h
    simp only [FilenameLoop.addEntry, Item.entry, Item.expansion, String.toList_ofList, if_true]
    split
    case h_1 heq => exact absurd heq hkey
    all_goals rfl

theorem fileName_cons (item : Item) (items : List Item) :
    fileName host pid date (item :: items) =
      item.expansion host pid date ++ fileName host pid date items :=
  join_cons _ _

/-- Behind the date everything goes to the end. -/
theorem foldl_behind {items : List Item} (h : ∀ item ∈ items, item.dateTime = none)
    (data : LogFilenameData) :
    (items.map Item.entry).foldl (FilenameLoop.addEntry host pid) ⟨data, false⟩ =
      ⟨{ data with postfixText := data.postfixText ++ fileName host pid date items }, false⟩ := by
  induction items generalizing data with
  | nil => simp [fileName, String.join]
  | cons item items ih =>
    obtain ⟨hitem, hitems⟩ := List.forall_mem_cons.1 h
    rw [List.map_cons, List.foldl_cons, addEntry_of_text host pid date hitem, FilenameLoop.add,
      if_neg Bool.false_ne_true, ih hitems, fileName_cons, String.append_assoc]

/-- The three parts, from the beginning: the date stands where its format was read. By induction on
the items up to the date; what is behind it is `foldl_behind`. -/
theorem foldl_front {items : List Item} (h : (items.filterMap Item.dateTime).length ≤ 1)
    (hempty : date "" = "") (pre : String) {data : LogFilenameData}
    (hdata : data = ((items.map Item.entry).foldl (FilenameLoop.addEntry host pid)
      ⟨⟨pre, "", ""⟩, true⟩).toLogFilenameData) :
    data.prefixText ++ date data.dateTime ++ data.postfixText =
        pre ++ fileName host pid date items ∧
      data.dateTime = (items.filterMap Item.dateTime).headD "" := by
  induction items generalizing pre with
  | nil =>
    subst hdata
    simp [fileName, String.join, hempty]
  | cons item items ih =>
    rw [List.map_cons, List.foldl_cons] at hdata
    cases hd : item.dateTime with
    | none =>
      rw [List.filterMap_cons_none hd] at h ⊢
      rw [addEntry_of_text host pid date hd, FilenameLoop.add, if_pos rfl] at hdata
      rw [fileName_cons, ← String.append_assoc]
      exact ih h _ hdata
    | some d =>
      rw [List.filterMap_cons_some hd, List.length_cons] at h
      have hrest : ∀ other ∈ items, other.dateTime = none :=
        List.filterMap_eq_nil_iff.1 (List.length_eq_zero_iff.1 (by omega))
      obtain ⟨hadd, hexp⟩ := addEntry_of_dateTime host pid date hd ⟨⟨pre, "", ""⟩, true⟩
      rw [hadd, foldl_behind host pid date hrest] at hdata
      subst hdata
      rw [fileName_cons, hexp, List.filterMap_cons_some hd]
      simp [String.append_assoc]

end

/-- **File names.** With at most one date, which fits its buffer, a file is named as its pattern
says, item by item. -/
theorem file_name_in_order (host : String) (pid : Int) (strftime : Strftime) (now : Int)
    (hempty : strftime "" now = "") {items : List Item} (hwf : WellFormed items)
    (hone : (items.filterMap Item.dateTime).length ≤ 1)
    (hfit : ∀ d ∈ items.filterMap Item.dateTime, (bytes (strftime d now)).length < 32) :
    logFileNameGenerate strftime now
        (logFileNameParse host pid (String.ofList (writeAll items))) =
      some (fileName host pid (strftime · now) items) := by
  have hparse : logFileNameParse host pid (String.ofList (writeAll items)) =
      ((items.map Item.entry).foldl (FilenameLoop.addEntry host pid)
        ⟨⟨"", "", ""⟩, true⟩).toLogFilenameData := by
    rw [logFileNameParse, logPatternParse, Pattern.parse_written hwf]
  obtain ⟨hname, hdate⟩ := foldl_front host pid (strftime · now) hone hempty "" hparse
  have hroom : (bytes (strftime ((items.filterMap Item.dateTime).headD "") now)).length < 32 := by
    cases hd : items.filterMap Item.dateTime with
    | nil =>
      rw [List.headD_nil, hempty]
      decide
    | cons d ds => exact hfit d (hd ▸ List.mem_cons_self)
  rw [logFileNameGenerate, timebuf, if_pos (hdate ▸ hroom), Option.map_some, hname,
    String.empty_append]

/-- `./logs/%H-%d{%Y}_%P.log`, in the year 2021 on the host `lon`. -/
theorem file_name_of_year :
    logFileNameGenerate (fun d _ => if d = "%Y" then "2021" else "") 0
        (logFileNameParse "lon" 42 (String.ofList (writeAll
          [.literal "./logs/".toList, .specifier ['H'] none, .literal ['-'],
            .specifier ['d'] (some "%Y".toList), .literal ['_'], .specifier ['P'] none,
            .literal ".log".toList]))) =
      some "./logs/lon-2021_42.log" :=
  (file_name_in_order "lon" 42 _ 0 (by decide)
    ⟨by simp [Item.Valid], by simp [Item.Follows]; decide⟩ (by decide) (by decide +kernel)).trans
      (by decide +kernel)

end NetBase.Logging
