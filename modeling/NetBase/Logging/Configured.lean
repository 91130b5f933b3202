import NetBase.Logging.LogLine
import NetBase.Logging.PatternEntries

/-!
# Loggers from a configuration

`_LogManager::initLoggerFromConfig` and what becomes of a use of `LON_LOG` afterwards, with all that
can go wrong on the way: a specifier without a key fails the assertion of `setFormatters`, the
eleventh flusher of a logger is written behind the array, and a maker may throw (those of the file
flushers do where the file cannot be opened) or fail an assertion of its own. On the way of a line
a formatter may be handed what it cannot show, and the buffer of the stream may be too small. All
of these are `none` here.

Nobody passes on the level of an item, so the loggers start at `DEBUG`.
-/

namespace NetBase.Logging

open Function (update update_self update_of_ne)
open Pattern (Keyed openings KeyFollows keyed_iff)

variable {Φ : Type} (strftime : Strftime)

/-! ## Formatters on the stream -/

/-- What a formatter appends to the stream, if it can. -/
abbrev FormatterFunc := LogEvent → Option Append

/-- `LogFormatterFactory::getFormatter` -/
def getFormatterFunc : Char → Option FormatterFunc
  | 'p' => some fun event =>
    -- the assertion of `levelToString`
    if event.level = .SIZE then none else some (.block (bytes (levelToString event.level)))
  | 'd' => some fun event =>
    let buf := bytes (strftime event.datetimePattern event.time)
    if buf.length < 64 then some (.block buf) else none
  | key => (getAppend strftime key).map fun append event => some (append event)

/-- An append that stays in the buffer. -/
def LogSStreamBuf.write (b : LogSStreamBuf) (a : Append) : Option LogSStreamBuf :=
  if ∀ o ∈ b.touched a, o < logBufferMaxLen then some (b.append a) else none

namespace Logger

def addOneFormatter (l : Logger Φ FormatterFunc) (formatter : FormatterFunc) :
    Logger Φ FormatterFunc :=
  { l with formatters := l.formatters ++ [formatter] }

/-- One turn of the loop of `setFormatters`. -/
def addFormatterFunc (l : Logger Φ FormatterFunc) (entry : PatternEntry) :
    Option (Logger Φ FormatterFunc) :=
  if entry.specifier then
    match entry.str.toList with
    -- the assertion
    | [] => none
    | key :: _ =>
      let l :=
        if key = 'd' then
          { l with datetimePattern := if entry.fmt = "" then "%Y-%m-%d %H:%M:%S" else entry.fmt }
        else l
      match getFormatterFunc strftime key with
      | none =>
        some <| l.addOneFormatter fun _ =>
          some (.block (bytes ("<<error_format%" ++ entry.str ++ ">>")))
      | some formatter => some (l.addOneFormatter formatter)
  else some (l.addOneFormatter fun _ => some (.block (bytes entry.str)))

/-- `setFormatters` -/
def setFormatterFuncs (l : Logger Φ FormatterFunc) (pattern : String) :
    Option (Logger Φ FormatterFunc) :=
  (logPatternParse pattern).foldlM (addFormatterFunc strftime) { l with formatters := [] }

/-- The first loop of `log`, on the stream. -/
def renderTo (b : LogSStreamBuf) (formatters : List FormatterFunc) (event : LogEvent) :
    Option LogSStreamBuf :=
  formatters.foldlM (fun ss formatter => (formatter event).bind ss.write) b

/-- `log`: the slices the flushers get, and the buffer behind the destructor of the stream. -/
def logOn (b : LogSStreamBuf) (l : Logger Φ FormatterFunc) (event : LogEvent) :
    Option (List (Φ × List UInt8) × LogSStreamBuf) :=
  let event := { event with loggerName := l.name, datetimePattern := l.datetimePattern }
  (renderTo b l.formatters event).bind fun ss =>
    (l.flush ss.getSlice).map fun flushes => (flushes, ss.free)

end Logger

/-- What a use of `LON_LOG` does, and the buffer of the thread behind it. -/
structure Logged (Φ : Type) where
  flushes : List (Φ × List UInt8)
  aborts : Bool
  buffer : LogSStreamBuf

/-- `LON_LOG(logger, level) << content` -/
def lonLog (b : LogSStreamBuf) (logger : Logger Φ FormatterFunc) (event : LogEvent) :
    Option (Logged Φ) :=
  if logger.level ≤ event.level then
    (logger.logOn b event).map fun r => ⟨r.1, event.level = .FATAL, r.2⟩
  else some ⟨[], false, b⟩

/-! ## The manager of the loggers -/

structure LogManager (Φ : Type) where
  defaultLogger : Option (Logger Φ FormatterFunc) := none
  loggers : String → Option (Logger Φ FormatterFunc) := fun _ => none

namespace LogManager

variable (fm : FlusherManager (Option Φ))

def getLogger (m : LogManager Φ) (key : String) : Option (Logger Φ FormatterFunc) := m.loggers key

/-- The loop over the flushers of an item. -/
def addFlushers (l : Logger Φ FormatterFunc) :
    List LogFlusherConfigData → Option (Logger Φ FormatterFunc)
  | [] => some l
  | flusher :: rest =>
    match fm.getLogFlusher flusher.type flusher.namePattern with
    | some made => made.bind fun φ => (l.addOneFlusher (some φ)).bind fun l => addFlushers l rest
    -- the type is reported
    | none => addFlushers l rest

/-- The logger of an item. -/
def makeLogger (item : LogConfigData) : Option (Logger Φ FormatterFunc) :=
  (Logger.setFormatterFuncs strftime { name := item.name } item.formatter).bind fun ptr =>
    addFlushers fm ptr item.flushers

def initLoggerFromConfig (m : LogManager Φ) : List LogConfigData → Option (LogManager Φ)
  | [] => some m
  | item :: items =>
    (makeLogger strftime fm item).bind fun ptr =>
      initLoggerFromConfig
        { defaultLogger := if item.name = "root" then some ptr else m.defaultLogger
          loggers := update m.loggers item.name (some ptr) } items

/-! ## What a configuration asks for -/

/-- The flushers made for the entries of an item, in order. -/
def made (flushers : List LogFlusherConfigData) : List Φ :=
  flushers.filterMap fun flusher => (fm.getLogFlusher flusher.type flusher.namePattern).join

/-- An event as the item's formatter shows it. -/
def rendered (item : LogConfigData) (event : LogEvent) : String :=
  (Logger.setFormatters strftime ({ name := item.name } : Logger Unit) item.formatter).render event

def Registered (items : List LogConfigData) : Prop :=
  ∀ item ∈ items, ∀ flusher ∈ item.flushers,
    (fm.getLogFlusher flusher.type flusher.namePattern).isSome

/-- The last item with its name. -/
def Last (items : List LogConfigData) (item : LogConfigData) : Prop :=
  ∃ before after, items = before ++ item :: after ∧ ∀ other ∈ after, other.name ≠ item.name

/-- What logging an event must hand to the flushers of an item. -/
def configured (item : LogConfigData) (event : LogEvent) : List (Φ × List UInt8) :=
  if item.level ≤ event.level then
    (made fm item.flushers).map fun φ => (φ, bytes (rendered strftime item event))
  else []

/-- The configuration is taken, and the event then reaches the flushers it should reach; the buffer
is left free. -/
def BehavesAsConfigured (m : LogManager Φ) (items : List LogConfigData) (item : LogConfigData)
    (b : LogSStreamBuf) (event : LogEvent) : Prop :=
  ∃ m' logger logged, m.initLoggerFromConfig strftime fm items = some m' ∧
    m'.getLogger item.name = some logger ∧ lonLog b logger event = some logged ∧
      logged.flushes = configured strftime fm item event ∧ logged.buffer.pos = 0

/-! ## What it takes -/

/-- A logger can be made of an item: there is a key behind every `%` of its pattern that opens a
specifier, the array has room for its flushers, and every maker returns. -/
structure Loadable (item : LogConfigData) : Prop where
  keys : ∀ v ∈ openings item.formatter.toList, KeyFollows v
  room : item.flushers.length ≤ flusherMax
  makers : ∀ flusher ∈ item.flushers,
    fm.getLogFlusher flusher.type flusher.namePattern ≠ some none

/-- The pattern has a specifier with this key. -/
def Mentions (entries : List PatternEntry) (key : Char) : Prop :=
  ∃ entry ∈ entries, entry.specifier = true ∧ entry.str.toList.headD (Char.ofNat 0) = key

/-- The format of the dates in the lines of an item. -/
def dateFormatOf (item : LogConfigData) : String :=
  ((logPatternParse item.formatter).filterMap entryDate).getLast?.getD ""

/-- The event as the formatters of an item get it. -/
def shown (item : LogConfigData) (event : LogEvent) : LogEvent :=
  { event with loggerName := item.name, datetimePattern := dateFormatOf item }

/-- What a line of an item consists of. -/
def appends (item : LogConfigData) (event : LogEvent) : List Append :=
  ((logPatternParse item.formatter).map (entryAppends strftime)).flatMap (· (shown item event))

/-- The line of an event can be made: its level has a name, its date fits the array it is made in,
and the whole line the buffer. -/
structure LineMade (item : LogConfigData) (event : LogEvent) : Prop where
  level : Mentions (logPatternParse item.formatter) 'p' → event.level ≠ .SIZE
  date : Mentions (logPatternParse item.formatter) 'd' →
    (bytes (strftime (dateFormatOf item) event.time)).length < 64
  line : LineFits (appends strftime item event)

end LogManager

/-! ## The loop of `setFormatters` -/

/-- What the formatter of a key takes for granted. -/
def Granted (key : Char) (event : LogEvent) : Prop :=
  (key = 'p' → event.level ≠ .SIZE) ∧
    (key = 'd' → (bytes (strftime event.datetimePattern event.time)).length < 64)

/-- The function an entry becomes. -/
def entryFunc (entry : PatternEntry) : FormatterFunc :=
  if entry.specifier then
    match getFormatterFunc strftime (entry.str.toList.headD (Char.ofNat 0)) with
    | none => fun _ => some (.block (bytes ("<<error_format%" ++ entry.str ++ ">>")))
    | some formatter => formatter
  else fun _ => some (.block (bytes entry.str))

section

variable {strftime}

/-- Both tables have the same keys; the functions append the same where they can. -/
theorem getFormatterFunc_spec (key : Char) :
    (getAppend strftime key = none ∧ getFormatterFunc strftime key = none ∧
        ∀ event, Granted strftime key event) ∨
      ∃ append formatter, getAppend strftime key = some append ∧
        getFormatterFunc strftime key = some formatter ∧
        ∀ event a, formatter event = some a ↔ Granted strftime key event ∧ append event = a := by
  unfold getFormatterFunc
  split
  case h_1 => exact .inr ⟨_, _, rfl, rfl, fun event a => by simp [Granted]⟩
  case h_2 => exact .inr ⟨_, _, rfl, rfl, fun event a => by simp [Granted]⟩
  case h_3 hp hd =>
    have hgranted : ∀ event, Granted strftime key event :=
      fun event => ⟨fun h => absurd h hp, fun h => absurd h hd⟩
    cases hkey : getAppend strftime key with
    | none => exact .inl ⟨rfl, rfl, hgranted⟩
    | some append => exact .inr ⟨append, _, rfl, rfl, fun event a => by simp [hgranted event]⟩

theorem entryFunc_eq_some {entry : PatternEntry} {event : LogEvent} {a : Append} :
    entryFunc strftime entry event = some a ↔
      (entry.specifier = true →
        Granted strftime (entry.str.toList.headD (Char.ofNat 0)) event) ∧
        entryAppends strftime entry event = [a] := by
  unfold entryFunc entryAppends
  cases entry.specifier with
  | false => simp
  | true =>
    generalize entry.str.toList.headD (Char.ofNat 0) = key
    rcases @getFormatterFunc_spec strftime key with
      ⟨ha, hf, hg⟩ | ⟨append, formatter, ha, hf, h⟩
    · simp [ha, hf, hg]
    · simp [ha, hf, h]

theorem entryAppends_singleton (strftime : Strftime) (entry : PatternEntry) (event : LogEvent) :
    ∃ a, entryAppends strftime entry event = [a] := by
  unfold entryAppends
  split
  · split <;> exact ⟨_, rfl⟩
  · exact ⟨_, rfl⟩

theorem addFormatterFunc_eq (l : Logger Φ FormatterFunc) (entry : PatternEntry) :
    l.addFormatterFunc strftime entry =
      if entry.specifier = true ∧ entry.str = "" then none
      else some { l with
        datetimePattern := (entryDate entry).getD l.datetimePattern
        formatters := l.formatters ++ [entryFunc strftime entry] } := by
  unfold Logger.addFormatterFunc entryDate entryFunc dateFormat
  cases entry.specifier with
  | false => rfl
  | true =>
    have hempty : entry.str = "" ↔ entry.str.toList = [] := String.toList_eq_nil_iff.symm
    simp only [hempty, true_and, if_true]
    cases entry.str.toList with
    | nil => rfl
    | cons key rest =>
      rw [if_neg (List.cons_ne_nil key rest)]
      by_cases hd : key = 'd'
      · subst hd
        rfl
      · simp only [hd, if_false, List.headD_cons, Option.getD_none]
        cases getFormatterFunc strftime key with
        | none => rfl
        | some formatter => rfl

/-- The loop goes through where every specifier has a key. -/
theorem addFormatterFuncs_eq_some {entries : List PatternEntry} {l l' : Logger Φ FormatterFunc} :
    entries.foldlM (Logger.addFormatterFunc strftime) l = some l' ↔
      Keyed entries ∧ l' = { l with
        datetimePattern := (entries.filterMap entryDate).getLast?.getD l.datetimePattern
        formatters := l.formatters ++ entries.map (entryFunc strftime) } := by
  induction entries generalizing l with
  | nil =>
    rw [List.foldlM_nil, List.map_nil, List.append_nil]
    exact ⟨fun h => ⟨by simp [Keyed], (Option.some.inj h).symm⟩, fun h => by rw [h.2]; rfl⟩
  | cons entry entries ih =>
    rw [List.foldlM_cons, addFormatterFunc_eq, Pattern.keyed_cons]
    by_cases h : entry.specifier = true ∧ entry.str = ""
    · rw [if_pos h]
      exact ⟨fun hnone => (by cases hnone), fun hk => absurd h.2 (hk.1.1 h.1)⟩
    · rw [if_neg h, and_iff_right fun hs he => h ⟨hs, he⟩]
      refine ih.trans (and_congr_right fun _ => ?_)
      rw [List.filterMap_cons]
      cases entryDate entry with
      | none => simp
      | some d => simp [List.getLast?_cons]

end

/-! ## The loop of `log` -/

section

variable {strftime} {b b' : LogSStreamBuf} {event : LogEvent}

theorem write_eq_some {a : Append} :
    b.write a = some b' ↔ (∀ o ∈ b.touched a, o < logBufferMaxLen) ∧ b' = b.append a := by
  unfold LogSStreamBuf.write
  split
  case isTrue h => exact ⟨fun heq => ⟨h, (Option.some.inj heq).symm⟩, fun heq => by rw [heq.2]⟩
  case isFalse h => exact ⟨fun heq => (nomatch heq), fun heq => absurd heq.1 h⟩

theorem append_pos_le {a : Append} (hb : b.pos ≤ logBufferMaxLen)
    (h : ∀ o ∈ b.touched a, o < logBufferMaxLen) : (b.append a).pos ≤ logBufferMaxLen := by
  have hstores := (touched_lt_iff hb).1 h
  rw [Append.stores_length] at hstores
  have hpos : (b.append a).pos = b.pos + a.text.length := rfl
  omega

theorem renderTo_cons_eq_some {formatter : FormatterFunc} {formatters : List FormatterFunc} :
    Logger.renderTo b (formatter :: formatters) event = some b' ↔
      ∃ a, formatter event = some a ∧ (∀ o ∈ b.touched a, o < logBufferMaxLen) ∧
        Logger.renderTo (b.append a) formatters event = some b' := by
  simp only [Logger.renderTo, List.foldlM_cons, Option.bind_eq_bind, Option.bind_eq_some_iff,
    write_eq_some]
  constructor
  · rintro ⟨_, ⟨a, ha, htouched, rfl⟩, hrest⟩
    exact ⟨a, ha, htouched, hrest⟩
  · rintro ⟨a, ha, htouched, hrest⟩
    exact ⟨_, ⟨a, ha, htouched, rfl⟩, hrest⟩

/-- The functions of some entries: each gets what it takes for granted, and all stay in the
buffer. -/
theorem renderTo_eq_some {entries : List PatternEntry} (hb : b.pos ≤ logBufferMaxLen) :
    Logger.renderTo b (entries.map (entryFunc strftime)) event = some b' ↔
      (∀ entry ∈ entries, entry.specifier = true →
        Granted strftime (entry.str.toList.headD (Char.ofNat 0)) event) ∧
      b.Contained ((entries.map (entryAppends strftime)).flatMap (· event)) ∧
      b' = ((entries.map (entryAppends strftime)).flatMap (· event)).foldl
        LogSStreamBuf.append b := by
  induction entries generalizing b with
  | nil =>
    refine ⟨fun h => ⟨fun _ hmem => (nomatch hmem), trivial, (Option.some.inj h).symm⟩, ?_⟩
    rintro ⟨-, -, rfl⟩
    rfl
  | cons entry entries ih =>
    rw [List.map_cons, renderTo_cons_eq_some, List.forall_mem_cons, List.map_cons,
      List.flatMap_cons]
    constructor
    · rintro ⟨a, ha, htouched, hrest⟩
      obtain ⟨hgranted, happends⟩ := entryFunc_eq_some.1 ha
      have hpos : (b.append a).pos ≤ logBufferMaxLen := append_pos_le hb htouched
      obtain ⟨hgranted', hcontained, hb'⟩ := (ih hpos).1 hrest
      rw [happends]
      exact ⟨⟨hgranted, hgranted'⟩, ⟨htouched, hpos, hcontained⟩, hb'⟩
    · rintro ⟨⟨hgranted, hgranted'⟩, hcontained, hb'⟩
      obtain ⟨a, ha⟩ := entryAppends_singleton strftime entry event
      rw [ha] at hcontained hb'
      obtain ⟨htouched, hpos, hcontained⟩ := hcontained
      exact ⟨a, entryFunc_eq_some.2 ⟨hgranted, ha⟩, htouched,
        (ih hpos).2 ⟨hgranted', hcontained, hb'⟩⟩

end

namespace LogManager

section

variable {strftime} {fm : FlusherManager (Option Φ)} {item : LogConfigData} {event : LogEvent}

/-! ## Making a logger -/

/-- A logger with the formatters of an item and no flusher. -/
def fresh (Φ : Type) (strftime : Strftime) (item : LogConfigData) : Logger Φ FormatterFunc where
  name := item.name
  datetimePattern := dateFormatOf item
  formatters := (logPatternParse item.formatter).map (entryFunc strftime)

theorem holds_fresh : Holds (fresh Φ strftime item) [] :=
  ⟨rfl, List.replicate flusherMax none, rfl, by simp⟩

theorem setFormatterFuncs_eq_some {l : Logger Φ FormatterFunc} :
    Logger.setFormatterFuncs strftime { name := item.name } item.formatter = some l ↔
      (∀ v ∈ openings item.formatter.toList, KeyFollows v) ∧ l = fresh Φ strftime item := by
  rw [Logger.setFormatterFuncs, addFormatterFuncs_eq_some, keyed_iff]
  rfl

variable {l l' : Logger Φ FormatterFunc} {fs : List Φ} {flushers : List LogFlusherConfigData}

theorem made_cons (flusher : LogFlusherConfigData) (flushers : List LogFlusherConfigData) :
    made fm (flusher :: flushers) =
      (fm.getLogFlusher flusher.type flusher.namePattern).join.toList ++ made fm flushers := by
  unfold made
  rw [List.filterMap_cons]
  cases (fm.getLogFlusher flusher.type flusher.namePattern).join <;> rfl

/-- What the loop over the flushers takes, and what it leaves. -/
theorem Holds.addFlushers (h : Holds l fs)
    (hreg : ∀ flusher ∈ flushers, (fm.getLogFlusher flusher.type flusher.namePattern).isSome)
    (hadd : LogManager.addFlushers fm l flushers = some l') :
    (∀ flusher ∈ flushers, fm.getLogFlusher flusher.type flusher.namePattern ≠ some none) ∧
      fs.length + flushers.length ≤ flusherMax ∧ Holds l' (fs ++ made fm flushers) ∧
      SameFormatters l l' := by
  induction flushers generalizing l fs with
  | nil =>
    cases hadd
    obtain ⟨hcount, rest, hfl, hlen⟩ := h
    refine ⟨fun _ hmem => (nomatch hmem), by rw [List.length_nil]; omega, ?_, rfl, rfl, rfl, rfl⟩
    rw [made, List.filterMap_nil, List.append_nil]
    exact ⟨hcount, rest, hfl, hlen⟩
  | cons flusher flushers ih =>
    obtain ⟨r, hr⟩ := Option.isSome_iff_exists.1 (hreg flusher (.head _))
    simp only [LogManager.addFlushers, hr, Option.bind_eq_some_iff] at hadd
    obtain ⟨φ, rfl, l₁, hl₁, hadd⟩ := hadd
    have hlt : fs.length < flusherMax := by
      by_contra hfull
      rw [h.full φ hfull] at hl₁
      cases hl₁
    obtain ⟨l₂, hl₂, hholds, hsame⟩ := h.addOneFlusher φ hlt
    cases hl₁.symm.trans hl₂
    obtain ⟨hmakers, hroom, hholds', hsame'⟩ := ih hholds (fun f hf => hreg f (.tail _ hf)) hadd
    rw [List.length_append, List.length_singleton] at hroom
    refine ⟨List.forall_mem_cons.2 ⟨by rw [hr]; simp, hmakers⟩, ?_, ?_, hsame.trans hsame'⟩
    · rw [List.length_cons]
      omega
    · rw [made_cons, hr, Option.join_some, Option.toList_some]
      rwa [List.append_assoc] at hholds'

theorem Holds.addFlushers_some (h : Holds l fs)
    (hreg : ∀ flusher ∈ flushers, (fm.getLogFlusher flusher.type flusher.namePattern).isSome)
    (hmakers : ∀ flusher ∈ flushers,
      fm.getLogFlusher flusher.type flusher.namePattern ≠ some none)
    (hroom : fs.length + flushers.length ≤ flusherMax) :
    ∃ l', LogManager.addFlushers fm l flushers = some l' := by
  induction flushers generalizing l fs with
  | nil => exact ⟨l, rfl⟩
  | cons flusher flushers ih =>
    rw [List.forall_mem_cons] at hreg hmakers
    rw [List.length_cons] at hroom
    obtain ⟨r, hr⟩ := Option.isSome_iff_exists.1 hreg.1
    cases r with
    | none => exact absurd hr hmakers.1
    | some φ =>
      obtain ⟨l₁, hl₁, hholds, -⟩ := h.addOneFlusher φ (by omega)
      simp only [LogManager.addFlushers, hr, Option.bind_some, hl₁]
      apply ih hholds hreg.2 hmakers.2
      rw [List.length_append, List.length_singleton]
      omega

/-- A logger that was made holds the flushers and formatters of its item. -/
theorem makeLogger_spec
    (hreg : ∀ flusher ∈ item.flushers, (fm.getLogFlusher flusher.type flusher.namePattern).isSome)
    (h : makeLogger strftime fm item = some l) :
    Loadable fm item ∧ Holds l (made fm item.flushers) ∧
      SameFormatters (fresh Φ strftime item) l := by
  obtain ⟨l₁, hset, hadd⟩ := Option.bind_eq_some_iff.1 h
  obtain ⟨hkeys, rfl⟩ := setFormatterFuncs_eq_some.1 hset
  obtain ⟨hmakers, hroom, hholds, hsame⟩ := holds_fresh.addFlushers hreg hadd
  rw [List.length_nil, Nat.zero_add] at hroom
  exact ⟨⟨hkeys, hroom, hmakers⟩, hholds, hsame⟩

theorem Loadable.makeLogger (strftime : Strftime) (h : Loadable fm item)
    (hreg : ∀ flusher ∈ item.flushers,
      (fm.getLogFlusher flusher.type flusher.namePattern).isSome) :
    ∃ l, LogManager.makeLogger strftime fm item = some l := by
  have hroom : ([] : List Φ).length + item.flushers.length ≤ flusherMax := by
    rw [List.length_nil, Nat.zero_add]
    exact h.room
  obtain ⟨l, hl⟩ := (@holds_fresh Φ strftime item).addFlushers_some hreg h.makers hroom
  refine ⟨l, ?_⟩
  rw [LogManager.makeLogger, setFormatterFuncs_eq_some.2 ⟨h.keys, rfl⟩, Option.bind_some, hl]

/-! ## Logging an event -/

theorem granted_iff {entries : List PatternEntry} :
    (∀ entry ∈ entries, entry.specifier = true →
        Granted strftime (entry.str.toList.headD (Char.ofNat 0)) event) ↔
      (Mentions entries 'p' → event.level ≠ .SIZE) ∧
        (Mentions entries 'd' →
          (bytes (strftime event.datetimePattern event.time)).length < 64) := by
  constructor
  · intro h
    constructor
    · rintro ⟨entry, hmem, hspec, hkey⟩
      exact (h entry hmem hspec).1 hkey
    · rintro ⟨entry, hmem, hspec, hkey⟩
      exact (h entry hmem hspec).2 hkey
  · rintro ⟨hp, hd⟩ entry hmem hspec
    exact ⟨fun hkey => hp ⟨entry, hmem, hspec, hkey⟩, fun hkey => hd ⟨entry, hmem, hspec, hkey⟩⟩

/-- The stream takes a line that can be made, and no other one. -/
theorem renderTo_fresh {b : LogSStreamBuf} (hb : b.pos = 0) {ss : LogSStreamBuf} :
    Logger.renderTo b (fresh Φ strftime item).formatters (shown item event) = some ss ↔
      LineMade strftime item event ∧
        ss = (appends strftime item event).foldl LogSStreamBuf.append b := by
  have hgranted := @granted_iff strftime (shown item event) (logPatternParse item.formatter)
  rw [fresh, renderTo_eq_some (by omega), hgranted, contained_iff hb]
  constructor
  · rintro ⟨⟨hlevel, hdate⟩, hline, hss⟩
    exact ⟨⟨hlevel, hdate, hline⟩, hss⟩
  · rintro ⟨⟨hlevel, hdate, hline⟩, hss⟩
    exact ⟨⟨hlevel, hdate⟩, hline, hss⟩

theorem getSlice_appends {b : LogSStreamBuf} (hb : b.pos = 0) :
    ((appends strftime item event).foldl LogSStreamBuf.append b).getSlice =
      bytes (rendered strftime item event) := by
  obtain ⟨mem, pos⟩ := b
  obtain rfl : pos = 0 := hb
  have hdate : (Logger.setFormatters strftime ({ name := item.name } : Logger Unit)
      item.formatter).datetimePattern = dateFormatOf item := by
    rw [Logger.setFormatters, addEntries_eq]
    rfl
  rw [rendered, ← logTo_setFormatters, hdate]
  rfl

/-- Every event that can be shown goes to every flusher. -/
theorem lonLog_eq_some {b : LogSStreamBuf} (hb : b.pos = 0)
    (hholds : Holds l fs) (hsame : SameFormatters (fresh Φ strftime item) l) {logged : Logged Φ} :
    lonLog b l event = some logged ↔
      LineMade strftime item event ∧
        logged = ⟨fs.map fun φ => (φ, bytes (rendered strftime item event)), event.level = .FATAL,
          ((appends strftime item event).foldl LogSStreamBuf.append b).free⟩ := by
  have hlevel : l.level ≤ event.level := by
    rw [hsame.level]
    exact Level.debug_le _
  have hevent : { event with loggerName := l.name, datetimePattern := l.datetimePattern } =
      shown item event := by
    rw [hsame.name, hsame.datetimePattern]
    rfl
  rw [lonLog, if_pos hlevel, Logger.logOn, hevent, hsame.formatters]
  constructor
  · intro h
    simp only [Option.map_eq_some_iff, Option.bind_eq_some_iff, renderTo_fresh hb] at h
    obtain ⟨_, ⟨ss, ⟨hline, rfl⟩, _, hflush, rfl⟩, rfl⟩ := h
    rw [hholds.flush, getSlice_appends hb] at hflush
    cases hflush
    exact ⟨hline, rfl⟩
  · rintro ⟨hline, rfl⟩
    rw [renderTo_fresh hb |>.2 ⟨hline, rfl⟩, Option.bind_some, hholds.flush, getSlice_appends hb]
    rfl

/-! ## The loop over the items -/

theorem last_cons {item other : LogConfigData} {items : List LogConfigData}
    (h : Last (other :: items) item) :
    (item = other ∧ ∀ later ∈ items, later.name ≠ item.name) ∨ Last items item := by
  obtain ⟨before, after, heq, hafter⟩ := h
  cases before with
  | nil =>
    cases heq
    exact .inl ⟨rfl, hafter⟩
  | cons b before =>
    rw [List.cons_append, List.cons.injEq] at heq
    exact .inr ⟨before, after, heq.2, hafter⟩

theorem Last.mem {items : List LogConfigData} (h : Last items item) : item ∈ items := by
  obtain ⟨before, after, rfl, -⟩ := h
  simp

/-- Every item has its logger made, and the last one with its name keeps it; the other names keep
theirs. -/
theorem init_spec {items : List LogConfigData} {m m' : LogManager Φ}
    (h : m.initLoggerFromConfig strftime fm items = some m') :
    (∀ item ∈ items, ∃ l, makeLogger strftime fm item = some l) ∧
      (∀ item, Last items item → m'.loggers item.name = makeLogger strftime fm item) ∧
      ∀ key, (∀ item ∈ items, item.name ≠ key) → m'.loggers key = m.loggers key := by
  induction items generalizing m with
  | nil =>
    cases h
    exact ⟨fun _ hmem => (nomatch hmem), fun _ hlast => (nomatch hlast.mem), fun _ _ => rfl⟩
  | cons item items ih =>
    obtain ⟨l, hl, hrest⟩ := Option.bind_eq_some_iff.1 h
    obtain ⟨hmade, hlast, hkeep⟩ := ih hrest
    refine ⟨List.forall_mem_cons.2 ⟨⟨l, hl⟩, hmade⟩, fun i hi => ?_, fun key hkey => ?_⟩
    · rcases last_cons hi with ⟨rfl, hlater⟩ | hi
      · rw [hkeep _ hlater, hl]
        exact update_self ..
      · exact hlast i hi
    · rw [List.forall_mem_cons] at hkey
      rw [hkeep key hkey.2]
      exact update_of_ne hkey.1.symm _ _

theorem init_some (strftime : Strftime) {items : List LogConfigData}
    (h : ∀ item ∈ items, ∃ l, makeLogger strftime fm item = some l) (m : LogManager Φ) :
    ∃ m', m.initLoggerFromConfig strftime fm items = some m' := by
  induction items generalizing m with
  | nil => exact ⟨m, rfl⟩
  | cons item items ih =>
    rw [List.forall_mem_cons] at h
    obtain ⟨l, hl⟩ := h.1
    rw [initLoggerFromConfig, hl, Option.bind_some]
    exact ih h.2 _

theorem made_eq_nil_iff (hmakers : ∀ flusher ∈ flushers,
      fm.getLogFlusher flusher.type flusher.namePattern ≠ some none)
    (hreg : ∀ flusher ∈ flushers, (fm.getLogFlusher flusher.type flusher.namePattern).isSome) :
    made fm flushers = [] ↔ flushers = [] := by
  cases flushers with
  | nil => exact iff_of_true rfl rfl
  | cons flusher flushers =>
    obtain ⟨r, hr⟩ := Option.isSome_iff_exists.1 (hreg flusher (.head _))
    rw [made_cons, hr]
    cases r with
    | none => exact absurd hr (hmakers flusher (.head _))
    | some φ => simp

/-- An event that arrives as configured is one the loggers can show, for an item that lets it
through: the logger does not keep anything back. -/
theorem BehavesAsConfigured.needs {items : List LogConfigData} (hreg : Registered fm items)
    (hlast : Last items item) {m : LogManager Φ} {b : LogSStreamBuf} (hb : b.pos = 0)
    (h : BehavesAsConfigured strftime fm m items item b event) :
    (∀ other ∈ items, Loadable fm other) ∧ LineMade strftime item event ∧
      (item.level ≤ event.level ∨ item.flushers = []) := by
  have hitem := hreg item hlast.mem
  obtain ⟨m', logger, logged, hinit, hget, hlog, hflushes, -⟩ := h
  obtain ⟨hmade, hloggers, -⟩ := init_spec hinit
  have hload : ∀ other ∈ items, Loadable fm other := by
    intro other hmem
    obtain ⟨l, hl⟩ := hmade other hmem
    exact (makeLogger_spec (hreg other hmem) hl).1
  have hmake := (hloggers item hlast).symm.trans hget
  obtain ⟨-, hholds, hsame⟩ := makeLogger_spec hitem hmake
  obtain ⟨hline, rfl⟩ := (lonLog_eq_some hb hholds hsame).1 hlog
  refine ⟨hload, hline, ?_⟩
  by_contra hno
  obtain ⟨hlevel, hne⟩ := not_or.1 hno
  rw [configured, if_neg hlevel, List.map_eq_nil_iff,
    made_eq_nil_iff (hload item hlast.mem).makers hitem] at hflushes
  exact hne hflushes

/-- **Configured loggers.** With every flusher type registered, an event reaches the flushers of an
item as configured exactly when a logger can be made of every item, the line of the event can be
made, and the level of the item lets the event through or the item has no flusher. -/
theorem behaves_as_configured_iff {items : List LogConfigData} (hreg : Registered fm items)
    (hlast : Last items item) (m : LogManager Φ) (mem : Nat → UInt8) (event : LogEvent) :
    BehavesAsConfigured strftime fm m items item ⟨mem, 0⟩ event ↔
      (∀ other ∈ items, Loadable fm other) ∧ LineMade strftime item event ∧
        (item.level ≤ event.level ∨ item.flushers = []) := by
  refine ⟨BehavesAsConfigured.needs hreg hlast rfl, ?_⟩
  rintro ⟨hload, hline, hlevel⟩
  have hitem := hreg item hlast.mem
  obtain ⟨m', hinit⟩ := init_some strftime
    (fun other hmem => (hload other hmem).makeLogger strftime (hreg other hmem)) m
  obtain ⟨-, hloggers, -⟩ := init_spec hinit
  obtain ⟨logger, hmake⟩ := (hload item hlast.mem).makeLogger strftime hitem
  obtain ⟨-, hholds, hsame⟩ := makeLogger_spec hitem hmake
  refine ⟨m', logger, _, hinit, (hloggers item hlast).trans hmake,
    (lonLog_eq_some rfl hholds hsame).2 ⟨hline, rfl⟩, ?_, rfl⟩
  rw [configured]
  split
  case isTrue => rfl
  case isFalse hlt =>
    rw [made, hlevel.resolve_left hlt]
    rfl

end

/-- Flushers known by their file, where no such file is there yet: the constructor makes a directory
of a name that has none in it, and cannot open that. -/
def byFile : FlusherManager (Option String) :=
  ⟨[("SIMPLEFILEFLUSHER", fun pattern => if '/' ∈ pattern.toList then some pattern else none)]⟩

theorem byFile_getLogFlusher (file : String) :
    byFile.getLogFlusher "SimpleFileFlusher" file =
      some (if '/' ∈ file.toList then some file else none) := by
  have hkey : toUpper "SimpleFileFlusher" = "SIMPLEFILEFLUSHER" := by decide +kernel
  rw [FlusherManager.getLogFlusher, hkey]
  rfl

/-- An item with some flushers to files. -/
def toFiles (name : String) (level : Level) (formatter : String) (files : List String) :
    LogConfigData :=
  ⟨name, level, formatter, files.map fun file => ⟨"SimpleFileFlusher", file⟩⟩

section

variable {name : String} {level : Level} {formatter : String} {files : List String}

theorem toFiles_registered : ∀ flusher ∈ (toFiles name level formatter files).flushers,
    (byFile.getLogFlusher flusher.type flusher.namePattern).isSome := by
  intro flusher hflusher
  obtain ⟨file, -, rfl⟩ := List.mem_map.1 hflusher
  rw [byFile_getLogFlusher]
  rfl

theorem toFiles_loadable (hkeyed : Keyed (logPatternParse formatter))
    (hroom : files.length ≤ flusherMax) (hopen : ∀ file ∈ files, '/' ∈ file.toList) :
    Loadable byFile (toFiles name level formatter files) := by
  refine ⟨(keyed_iff _).1 hkeyed, by simpa [toFiles] using hroom, ?_⟩
  intro flusher hflusher
  obtain ⟨file, hfile, rfl⟩ := List.mem_map.1 hflusher
  rw [byFile_getLogFlusher, if_pos (hopen file hfile)]
  simp

/-- A configuration of one item. -/
theorem not_behaves_of {event : LogEvent}
    (h : Loadable byFile (toFiles name level formatter files) →
      LineMade (fun _ _ => "") (toFiles name level formatter files) event →
        ¬ (level ≤ event.level ∨ files = [])) :
    ¬ BehavesAsConfigured (fun _ _ => "") byFile {} [toFiles name level formatter files]
      (toFiles name level formatter files) ⟨fun _ => 0, 0⟩ event := by
  intro hb
  have hreg : Registered byFile [toFiles name level formatter files] :=
    List.forall_mem_singleton.2 toFiles_registered
  obtain ⟨hload, hline, hlevel⟩ := hb.needs hreg ⟨[], [], rfl, by simp⟩ rfl
  exact h (hload _ (.head _)) hline (hlevel.imp_right List.map_eq_nil_iff.1)

end

/-- An event of the level `INFO` for an item of that level, which replaces another one. -/
theorem behaves_as_configured_info :
    BehavesAsConfigured (fun date _ => date) byFile {}
      [toFiles "root" .WARN "%m%n" ["./a.log"], toFiles "quiet" .ERROR "%m%n" [],
        toFiles "root" .INFO "%d\x7b%H:%M\x7d [%p] %m%T%t%n" ["./b.log", "logs/c.log"]]
      (toFiles "root" .INFO "%d\x7b%H:%M\x7d [%p] %m%T%t%n" ["./b.log", "logs/c.log"])
      ⟨fun _ => 0, 0⟩ (message 2) := by
  refine (behaves_as_configured_iff ?_ ?_ _ _ _).2 ⟨?_, ⟨?_, ?_, ?_⟩, .inl (by decide)⟩
  · simp only [Registered, List.forall_mem_cons]
    exact ⟨toFiles_registered, toFiles_registered, toFiles_registered, by simp⟩
  · exact ⟨[toFiles "root" .WARN "%m%n" ["./a.log"], toFiles "quiet" .ERROR "%m%n" []], [], rfl,
      by simp⟩
  · simp only [List.forall_mem_cons]
    refine ⟨toFiles_loadable ?_ ?_ ?_, toFiles_loadable ?_ ?_ ?_, toFiles_loadable ?_ ?_ ?_,
      by simp⟩
    all_goals decide +kernel
  · exact fun _ => by decide
  · exact fun _ => by decide +kernel
  · decide +kernel

/-- A debug message reaches the flusher of a logger that was to start at `INFO`; eleven flushers do
not fit the array, and 5121 bytes not the buffer; a `%` alone has no key; and the constructor of a
flusher throws. -/
theorem not_as_configured :
    ¬ BehavesAsConfigured (fun _ _ => "") byFile {} [toFiles "root" .INFO "%m%n" ["./a.log"]]
        (toFiles "root" .INFO "%m%n" ["./a.log"]) ⟨fun _ => 0, 0⟩
        { message 2 with level := .DEBUG } ∧
      ¬ BehavesAsConfigured (fun _ _ => "") byFile {}
        [toFiles "root" .DEBUG "%m%n" (List.replicate 11 "./a.log")]
        (toFiles "root" .DEBUG "%m%n" (List.replicate 11 "./a.log")) ⟨fun _ => 0, 0⟩ (message 2) ∧
      ¬ BehavesAsConfigured (fun _ _ => "") byFile {} [toFiles "root" .DEBUG "%m" ["./a.log"]]
        (toFiles "root" .DEBUG "%m" ["./a.log"]) ⟨fun _ => 0, 0⟩ (message 5121) ∧
      ¬ BehavesAsConfigured (fun _ _ => "") byFile {} [toFiles "root" .DEBUG "%" ["./a.log"]]
        (toFiles "root" .DEBUG "%" ["./a.log"]) ⟨fun _ => 0, 0⟩ (message 2) ∧
      ¬ BehavesAsConfigured (fun _ _ => "") byFile {} [toFiles "root" .DEBUG "%m%n" ["a.log"]]
        (toFiles "root" .DEBUG "%m%n" ["a.log"]) ⟨fun _ => 0, 0⟩ (message 2) := by
  refine ⟨not_behaves_of fun _ _ => by decide, not_behaves_of fun hload _ => ?_,
    not_behaves_of fun _ hline => ?_, not_behaves_of fun hload _ => ?_,
    not_behaves_of fun hload _ => ?_⟩
  · exact absurd hload.room (by decide)
  · have hparse : logPatternParse "%m" = [⟨"m", "", true⟩] := by decide +kernel
    have happends : appends (fun _ _ => "") (toFiles "root" .DEBUG "%m" ["./a.log"])
        (message 5121) = [.block (bytes (message 5121).content)] := by
      rw [appends, toFiles, hparse]
      rfl
    have hlength : (bytes (message 5121).content).length = 5121 := by
      rw [message, bytes_replicate, List.length_replicate]
    have hfits := hline.line.line
    rw [happends, lineLength_cons, Append.text, hlength] at hfits
    exact absurd hfits (by decide)
  · have hkeyed := (keyed_iff _).2 hload.keys
    exact absurd (hkeyed ⟨"", "", true⟩ (by decide +kernel) rfl) (by decide)
  · have hmaker := hload.makers ⟨"SimpleFileFlusher", "a.log"⟩ (.head _)
    rw [byFile_getLogFlusher] at hmaker
    exact absurd rfl hmaker

end LogManager

end NetBase.Logging
