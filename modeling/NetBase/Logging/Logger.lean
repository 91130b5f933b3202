import NetBase.Logging.ConfigData
import NetBase.Logging.Pattern
import Mathlib.Logic.Function.Basic

/-!
# Loggers

`Logger` of `include/logger.h` and `src/logger.cpp`, and the table of flushers by their names. `Φ`
is the type of flushers and `F` that of formatters; what a time looks like (`strftime`) is a
parameter. The formatters here are texts, as long as they need to be: what becomes of a line on the
stream, and of a logger that is made from a configuration, is in `NetBase.Logging.Configured`.

The array of flushers has ten places and `addOneFlusher` does not count them; writing behind its
end, and calling a flusher that is not there, is `none` here.
-/

namespace NetBase.Logging

def Level.le (a b : Level) : Prop := a.ctorIdx ≤ b.ctorIdx

instance : LE Level := ⟨Level.le⟩

instance (a b : Level) : Decidable (a ≤ b) :=
  inferInstanceAs (Decidable (a.ctorIdx ≤ b.ctorIdx))

theorem Level.debug_le (a : Level) : .DEBUG ≤ a := Nat.zero_le _

/-- An assertion excludes `SIZE`, which has no name. -/
def levelToString : Level → String
  | .DEBUG => "DEBUG"
  | .INFO => "INFO"
  | .WARN => "WARN"
  | .ERROR => "ERROR"
  | .FATAL => "FATAL"
  | .SIZE => ""

structure LogEvent where
  fileName : String
  line : Int
  level : Level
  threadId : Nat
  elapsedMs : Nat
  executorId : Nat
  time : Int
  /-- Set by the logger. -/
  loggerName : String := ""
  /-- Set by the logger. -/
  datetimePattern : String := ""
  /-- Set by the wrapper. -/
  content : String

/-- What a formatter appends to the stream. -/
abbrev Formatter := LogEvent → String

/-! ## Formatters -/

/-- `strftime` for a pattern and a time, as far as the buffer of 64 bytes takes it. -/
abbrev Strftime := String → Int → String

def getFormatter (strftime : Strftime) : Char → Option Formatter
  | 'm' => some fun event => event.content
  | 'p' => some fun event => levelToString event.level
  | 'r' => some fun event => toString event.elapsedMs
  | 'c' => some fun event => event.loggerName
  | 't' => some fun event => toString event.threadId
  | 'n' => some fun _ => "\r\n"
  | 'd' => some fun event => strftime event.datetimePattern event.time
  | 'f' => some fun event => event.fileName
  | 'l' => some fun event => toString event.line
  | 'E' => some fun event => toString event.executorId
  | 'T' => some fun _ => "\t"
  | _ => none

def flusherMax : Nat := 10

structure Logger (Φ : Type) (F : Type := Formatter) where
  level : Level := .DEBUG
  flusherCount : Nat := 0
  name : String
  datetimePattern : String := ""
  flushers : List (Option Φ) := List.replicate flusherMax none
  formatters : List F := []

namespace Logger

variable {Φ F : Type}

/-- One turn of the loop of `setFormatters`, where the assertion of a key holds
(`addFormatterFunc` has it). -/
def addEntry (strftime : Strftime) (l : Logger Φ) (entry : PatternEntry) : Logger Φ :=
  if entry.specifier then
    -- the first character of an empty string is the zero behind it
    let key := entry.str.toList.headD (Char.ofNat 0)
    let l :=
      if key = 'd' then
        { l with datetimePattern := if entry.fmt = "" then "%Y-%m-%d %H:%M:%S" else entry.fmt }
      else l
    match getFormatter strftime key with
    | none =>
      { l with formatters := l.formatters ++ [fun _ => "<<error_format%" ++ entry.str ++ ">>"] }
    | some formatter => { l with formatters := l.formatters ++ [formatter] }
  else { l with formatters := l.formatters ++ [fun _ => entry.str] }

def setFormatters (strftime : Strftime) (l : Logger Φ) (pattern : String) : Logger Φ :=
  (logPatternParse pattern).foldl (addEntry strftime) { l with formatters := [] }

def addOneFlusher (l : Logger Φ F) : Option Φ → Option (Logger Φ F)
  | none => some l
  | some flusher =>
    if l.flusherCount < flusherMax then
      some { l with flushers := l.flushers.set l.flusherCount (some flusher)
                    flusherCount := l.flusherCount + 1 }
    else none

/-- The text of an event: the first loop of `log`, as if the stream had no end (`logOn` has its
buffer). -/
def render (l : Logger Φ) (event : LogEvent) : String :=
  let event := { event with loggerName := l.name, datetimePattern := l.datetimePattern }
  l.formatters.foldl (fun ss formatter => ss ++ formatter event) ""

/-- The calls of `flush`, in order: the second loop of `log`. -/
def flush {α : Type} (l : Logger Φ F) (text : α) : Option (List (Φ × α)) :=
  (List.range l.flusherCount).mapM fun i =>
    (l.flushers[i]?.join).map fun flusher => (flusher, text)

def log (l : Logger Φ) (event : LogEvent) : Option (List (Φ × String)) := l.flush (l.render event)

end Logger

/-- The registered makers, by their names in upper case. `Φ` is what a call of one comes to: a
flusher, or an option where the constructor may throw. -/
structure FlusherManager (Φ : Type) where
  flushersMaker : List (String × (String → Φ))

def FlusherManager.getLogFlusher {Φ : Type} (m : FlusherManager Φ) (key pattern : String) :
    Option Φ :=
  (m.flushersMaker.lookup (toUpper key)).map fun maker => maker pattern

namespace LogManager

variable {Φ F : Type}

/-! ## What the loops do -/

/-- The first places of the array hold `fs`. -/
def Holds (l : Logger Φ F) (fs : List Φ) : Prop :=
  l.flusherCount = fs.length ∧
    ∃ rest, l.flushers = fs.map some ++ rest ∧ fs.length + rest.length = flusherMax

variable {l : Logger Φ F} {fs : List Φ}

/-- Level and flushers are the same. -/
structure SameFlushers (l l' : Logger Φ F) : Prop where
  level : l'.level = l.level
  count : l'.flusherCount = l.flusherCount
  flushers : l'.flushers = l.flushers

theorem SameFlushers.trans {l₁ l₂ l₃ : Logger Φ F} (h : SameFlushers l₁ l₂)
    (h' : SameFlushers l₂ l₃) : SameFlushers l₁ l₃ :=
  ⟨h'.level.trans h.level, h'.count.trans h.count, h'.flushers.trans h.flushers⟩

/-- Everything but the flushers is the same. -/
structure SameFormatters (l l' : Logger Φ F) : Prop where
  level : l'.level = l.level
  name : l'.name = l.name
  datetimePattern : l'.datetimePattern = l.datetimePattern
  formatters : l'.formatters = l.formatters

theorem SameFormatters.trans {l₁ l₂ l₃ : Logger Φ F} (h : SameFormatters l₁ l₂)
    (h' : SameFormatters l₂ l₃) : SameFormatters l₁ l₃ :=
  ⟨h'.level.trans h.level, h'.name.trans h.name, h'.datetimePattern.trans h.datetimePattern,
    h'.formatters.trans h.formatters⟩

theorem Holds.addOneFlusher (h : Holds l fs) (φ : Φ) (hroom : fs.length < flusherMax) :
    ∃ l', l.addOneFlusher (some φ) = some l' ∧ Holds l' (fs ++ [φ]) ∧ SameFormatters l l' := by
  obtain ⟨hcount, rest, hfl, hlen⟩ := h
  refine ⟨{ l with flushers := l.flushers.set l.flusherCount (some φ)
                   flusherCount := l.flusherCount + 1 }, ?_, ⟨?_, ?_⟩, rfl, rfl, rfl, rfl⟩
  · rw [Logger.addOneFlusher, if_pos (by omega)]
  · simp [hcount]
  · cases rest with
    | nil =>
      rw [List.length_nil] at hlen
      omega
    | cons r rest =>
      refine ⟨rest, by simp [hfl, hcount], ?_⟩
      rw [List.length_cons] at hlen
      rw [List.length_append, List.length_singleton]
      omega

theorem Holds.full (h : Holds l fs) (φ : Φ) (hroom : ¬ fs.length < flusherMax) :
    l.addOneFlusher (some φ) = none := by
  rw [Logger.addOneFlusher, if_neg (by rw [h.1]; exact hroom)]

theorem mapM_range {α β : Type} (get : Nat → Option α) (f : α → β) (fs : List α) (n : Nat)
    (h : ∀ i, (hi : i < fs.length) → get (n + i) = some fs[i]) :
    ((List.range' n fs.length).mapM fun i => (get i).map f) = some (fs.map f) := by
  induction fs generalizing n with
  | nil => rfl
  | cons φ fs ih =>
    have h0 := h 0 (Nat.succ_pos _)
    have hs := ih (n + 1) fun i hi => by
      have := h (i + 1) (Nat.succ_lt_succ hi)
      rwa [show n + (i + 1) = n + 1 + i by omega] at this
    simp only [List.length_cons, List.range'_succ, List.mapM_cons, hs]
    rw [Nat.add_zero] at h0
    simp [h0]

/-- What the array holds is called, in order. -/
theorem Holds.flush {α : Type} (h : Holds l fs) (text : α) :
    l.flush text = some (fs.map fun φ => (φ, text)) := by
  obtain ⟨hcount, rest, hfl, -⟩ := h
  unfold Logger.flush
  rw [hcount, List.range_eq_range']
  refine mapM_range (fun i => l.flushers[i]?.join) _ fs 0 fun i hi => ?_
  have hi' : i < (fs.map some).length := by simpa using hi
  simp only [hfl, Nat.zero_add]
  rw [List.getElem?_append_left hi', List.getElem?_map, List.getElem?_eq_getElem hi]
  rfl

theorem Holds.log {l : Logger Φ} (h : Holds l fs) (event : LogEvent) :
    l.log event = some (fs.map fun φ => (φ, l.render event)) := h.flush _

end LogManager

end NetBase.Logging
