import NetBase.Logging.Logger

/-!
# The stream of a log line

`LogSStream` of `include/logging/LogSStream.h` and `src/logging/LogSStream.cpp`. All streams of a
thread write to one buffer of `LogBufferMaxLen` bytes. Of the four ways to append to it only the
one for a single character looks at the size of the buffer, in an assertion that release builds
leave out; the others write wherever the position points. So the memory here does not end with the
buffer, and `contained_iff` says which lines stay within it.
-/

namespace NetBase.Logging

/-- `LogBufferMaxLen`: `lon::data::K * 5` -/
def logBufferMaxLen : Nat := 1024 * 5

/-- The bytes of a string. -/
def bytes (s : String) : List UInt8 := s.toList.flatMap String.utf8EncodeChar

theorem bytes_append (s t : String) : bytes (s ++ t) = bytes s ++ bytes t := by
  rw [bytes, String.toList_append, List.flatMap_append]
  rfl

/-! ## Integers -/

def digits : List Char := "9876543210123456789".toList

/-- `zero[lsd]`, with `zero = digits + 9` -/
def zeroAt (lsd : Int) : Char := digits.getD (9 + lsd).toNat '0'

/-- The loop of `convert`: division and remainder are those of C++. -/
def convertLoop (i : Int) : List Char :=
  if i.tdiv 10 = 0 then [zeroAt (i.tmod 10)]
  else zeroAt (i.tmod 10) :: convertLoop (i.tdiv 10)
termination_by i.natAbs
decreasing_by
  have : (i.tdiv 10).natAbs = i.natAbs / 10 := Int.natAbs_tdiv i 10
  omega

/-- What `convert` leaves in the buffer in front of the zero. -/
def convert (value : Int) : List Char :=
  (convertLoop value ++ if value < 0 then ['-'] else []).reverse

theorem zeroAt_natAbs (d : Fin 10) :
    zeroAt (d.val : Int) = d.val.digitChar ∧ zeroAt (-(d.val : Int)) = d.val.digitChar := by
  revert d
  decide

theorem zeroAt_tmod (i : Int) : zeroAt (i.tmod 10) = (i.natAbs % 10).digitChar := by
  have habs : (i.tmod 10).natAbs = i.natAbs % 10 := Int.natAbs_tmod i 10
  obtain ⟨hpos, hneg⟩ := zeroAt_natAbs ⟨i.natAbs % 10, Nat.mod_lt _ (by decide)⟩
  rcases Int.natAbs_eq (i.tmod 10) with h | h
  · rw [h, habs, hpos]
  · rw [h, habs, hneg]

/-- The digits of a number and of its negative are the same. -/
theorem convertLoop_eq (i : Int) : convertLoop i = (Nat.toDigits 10 i.natAbs).reverse := by
  fun_induction convertLoop i with
  | case1 i h =>
    have habs : (i.tdiv 10).natAbs = i.natAbs / 10 := Int.natAbs_tdiv i 10
    have hlt : i.natAbs < 10 := by omega
    rw [Nat.toDigits_of_lt_base hlt, zeroAt_tmod, Nat.mod_eq_of_lt hlt]
    rfl
  | case2 i h ih =>
    have habs : (i.tdiv 10).natAbs = i.natAbs / 10 := Int.natAbs_tdiv i 10
    have hle : 10 ≤ i.natAbs := by omega
    rw [Nat.toDigits_of_base_le (by decide) hle, List.reverse_append, ih, zeroAt_tmod, habs]
    rfl

theorem convert_eq_append (n : Int) :
    convert n = (if n < 0 then ['-'] else []) ++ Nat.toDigits 10 n.natAbs := by
  rw [convert, List.reverse_append, convertLoop_eq, List.reverse_reverse]
  split <;> rfl

/-- `convert` writes a number in decimal. -/
theorem convert_eq (n : Int) : String.ofList (convert n) = toString n := by
  rw [convert_eq_append]
  cases n with
  | ofNat m =>
    rw [if_neg (by simp)]
    rfl
  | negSucc m =>
    rw [if_pos (Int.negSucc_lt_zero m)]
    show String.ofList (['-'] ++ Nat.toDigits 10 (m + 1)) =
      "-" ++ String.ofList (Nat.toDigits 10 (m + 1))
    rw [String.ofList_append]

/-! ## The buffer -/

/-- The arguments of `<<`; of a floating-point number, the text `sprintf` makes. -/
inductive Append where
  | char (c : UInt8)
  | block (data : List UInt8)
  | integer (n : Int)
  | double (text : List UInt8)

namespace Append

/-- What becomes part of the line. -/
def text : Append → List UInt8
  | char c => [c]
  | block data => data
  | integer n => bytes (String.ofList (convert n))
  | double text => text

/-- `convert` and `sprintf` put a zero behind the text. -/
def endsInZero : Append → Bool
  | integer _ => true
  | double _ => true
  | _ => false

/-- What is written. -/
def stores (a : Append) : List UInt8 := a.text ++ if a.endsInZero then [0] else []

end Append

/-- The memory from `buf_` on, by the distance from it, and the position. -/
structure LogSStreamBuf where
  mem : Nat → UInt8
  pos : Nat

namespace LogSStreamBuf

variable (b : LogSStreamBuf)

/-- The places an append writes to. -/
def touched (a : Append) : List Nat := List.range' b.pos a.stores.length

def append (a : Append) : LogSStreamBuf where
  mem o := if o < b.pos then b.mem o else a.stores.getD (o - b.pos) (b.mem o)
  pos := b.pos + a.text.length

/-- The destructor of a stream. -/
def free : LogSStreamBuf := { b with pos := 0 }

def getSlice : List UInt8 := (List.range b.pos).map b.mem

/-- Every byte is written to the buffer, and the position does not leave it. -/
def Contained : LogSStreamBuf → List Append → Prop
  | _, [] => True
  | b, a :: as =>
    (∀ o ∈ b.touched a, o < logBufferMaxLen) ∧ (b.append a).pos ≤ logBufferMaxLen ∧
      Contained (b.append a) as

instance instDecidableContained :
    ∀ (b : LogSStreamBuf) (as : List Append), Decidable (b.Contained as)
  | _, [] => isTrue trivial
  | b, a :: as =>
    have := instDecidableContained (b.append a) as
    inferInstanceAs (Decidable (_ ∧ _ ∧ _))

end LogSStreamBuf

/-- A formatter, by what it appends for an event. -/
abbrev StreamFormatter := LogEvent → List Append

/-- `Logger::log` on a thread with the buffer `b`: the slice the flushers get, and the buffer
behind the destructor. -/
def logTo (b : LogSStreamBuf) (formatters : List StreamFormatter) (event : LogEvent) :
    List UInt8 × LogSStreamBuf :=
  let ss := (formatters.flatMap (· event)).foldl LogSStreamBuf.append b
  (ss.getSlice, ss.free)

/-- The calls of `log` on a thread, one after the other: each stays in the buffer, hands on its
own text and leaves the position at the beginning. -/
def KeepsApart : LogSStreamBuf → List (List StreamFormatter × LogEvent) → Prop
  | _, [] => True
  | b, (formatters, event) :: calls =>
    b.Contained (formatters.flatMap (· event)) ∧
      (logTo b formatters event).1 = (formatters.flatMap (· event)).flatMap Append.text ∧
      (logTo b formatters event).2.pos = 0 ∧
      KeepsApart (logTo b formatters event).2 calls

/-- The length of a line. -/
def lineLength (as : List Append) : Nat := (as.flatMap Append.text).length

/-- The line fits the buffer, and every number in it ends before the last byte does. -/
structure LineFits (as : List Append) : Prop where
  line : lineLength as ≤ logBufferMaxLen
  zero : ∀ before a after, as = before ++ a :: after → a.endsInZero = true →
    lineLength (before ++ [a]) < logBufferMaxLen

/-! ## Staying in the buffer -/

section

variable {b : LogSStreamBuf} {a : Append} {as : List Append}

theorem lineLength_cons (a : Append) (as : List Append) :
    lineLength (a :: as) = a.text.length + lineLength as := by
  rw [lineLength, List.flatMap_cons, List.length_append]
  rfl

theorem Append.stores_length (a : Append) :
    a.stores.length = a.text.length + if a.endsInZero then 1 else 0 := by
  rw [stores, List.length_append]
  split <;> rfl

/-- The places of an append, from a position in the buffer. -/
theorem touched_lt_iff (hb : b.pos ≤ logBufferMaxLen) :
    (∀ o ∈ b.touched a, o < logBufferMaxLen) ↔ b.pos + a.stores.length ≤ logBufferMaxLen := by
  unfold LogSStreamBuf.touched
  constructor
  · intro h
    by_cases h0 : a.stores.length = 0
    · omega
    · have := h (b.pos + a.stores.length - 1) (by rw [List.mem_range'_1]; omega)
      omega
  · intro h o ho
    rw [List.mem_range'_1] at ho
    omega

/-- The numbers of a line end before the last byte, counted from `pos`. -/
def ZerosFit (pos : Nat) (as : List Append) : Prop :=
  ∀ before a after, as = before ++ a :: after → a.endsInZero = true →
    pos + lineLength (before ++ [a]) < logBufferMaxLen

theorem zerosFit_cons (pos : Nat) (a : Append) (as : List Append) :
    ZerosFit pos (a :: as) ↔
      (a.endsInZero = true → pos + a.text.length < logBufferMaxLen) ∧
        ZerosFit (pos + a.text.length) as := by
  constructor
  · intro h
    refine ⟨fun ha => by simpa [lineLength] using h [] a as rfl ha, fun before c after heq hc => ?_⟩
    have := h (a :: before) c after (by rw [heq]; rfl) hc
    rwa [List.cons_append, lineLength_cons, ← Nat.add_assoc] at this
  · rintro ⟨ha, hrest⟩ before c after heq hc
    cases before with
    | nil =>
      cases heq
      simpa [lineLength] using ha hc
    | cons d before =>
      obtain ⟨rfl, has⟩ := List.cons.inj heq
      have := hrest before c after has hc
      rwa [List.cons_append, lineLength_cons, ← Nat.add_assoc]

/-- From any position in the buffer; by induction on the appends. -/
theorem contained_from_iff (hb : b.pos ≤ logBufferMaxLen) :
    b.Contained as ↔ b.pos + lineLength as ≤ logBufferMaxLen ∧ ZerosFit b.pos as := by
  induction as generalizing b with
  | nil => simp [LogSStreamBuf.Contained, lineLength, hb, ZerosFit]
  | cons a as ih =>
    have hstep : (b.append a).pos = b.pos + a.text.length := rfl
    rw [LogSStreamBuf.Contained, touched_lt_iff hb, zerosFit_cons, lineLength_cons,
      Append.stores_length, hstep]
    by_cases hle : b.pos + a.text.length ≤ logBufferMaxLen
    · rw [ih (by omega), hstep]
      constructor
      · rintro ⟨hstores, -, hline, hzeros⟩
        refine ⟨by omega, fun hz => ?_, hzeros⟩
        rw [hz, if_pos rfl] at hstores
        omega
      · rintro ⟨hline, hz, hzeros⟩
        refine ⟨?_, hle, by omega, hzeros⟩
        split
        · have := hz (by assumption)
          omega
        · omega
    · constructor <;> intro h <;> omega

/-- A line from the beginning of the buffer. -/
theorem contained_iff (hb : b.pos = 0) : b.Contained as ↔ LineFits as := by
  rw [contained_from_iff (hb ▸ Nat.zero_le _), hb, Nat.zero_add]
  constructor
  · rintro ⟨hline, hzero⟩
    exact ⟨hline, fun before a after heq ha => by simpa using hzero before a after heq ha⟩
  · rintro ⟨hline, hzero⟩
    exact ⟨hline, fun before a after heq ha => by simpa using hzero before a after heq ha⟩

instance (as : List Append) : Decidable (LineFits as) :=
  decidable_of_iff (LogSStreamBuf.Contained ⟨fun _ => 0, 0⟩ as) (contained_iff rfl)

/-! ## The slice -/

/-- An append leaves the slice in front of it alone. -/
theorem getSlice_append : (b.append a).getSlice = b.getSlice ++ a.text := by
  have hlen := a.stores_length
  unfold LogSStreamBuf.getSlice LogSStreamBuf.append
  simp only [List.range_add, List.map_append, List.map_map]
  congr 1
  · apply List.map_congr_left
    intro o ho
    rw [List.mem_range] at ho
    exact if_pos ho
  · apply List.ext_getElem
    · simp
    · intro k hk hk'
      have hs : k < a.stores.length := by omega
      simp only [List.getElem_map, List.getElem_range, Function.comp_apply]
      rw [if_neg (by omega), Nat.add_sub_cancel_left, List.getD_eq_getElem?_getD,
        List.getElem?_eq_getElem hs, Option.getD_some]
      exact List.getElem_append_left hk'

theorem getSlice_foldl (b : LogSStreamBuf) (as : List Append) :
    (as.foldl LogSStreamBuf.append b).getSlice = b.getSlice ++ as.flatMap Append.text := by
  induction as generalizing b with
  | nil => simp
  | cons a as ih =>
    rw [List.foldl_cons, ih, getSlice_append, List.flatMap_cons, List.append_assoc]

end

/-- A call hands on its own text, and the next one starts over. -/
theorem logTo_eq {b : LogSStreamBuf} (hb : b.pos = 0) (formatters : List StreamFormatter)
    (event : LogEvent) :
    (logTo b formatters event).1 = (formatters.flatMap (· event)).flatMap Append.text ∧
      (logTo b formatters event).2.pos = 0 := by
  refine ⟨?_, rfl⟩
  rw [logTo, getSlice_foldl, LogSStreamBuf.getSlice, hb]
  rfl

theorem keepsApart_from_iff {b : LogSStreamBuf} (hb : b.pos = 0)
    (calls : List (List StreamFormatter × LogEvent)) :
    KeepsApart b calls ↔ ∀ call ∈ calls, LineFits (call.1.flatMap (· call.2)) := by
  induction calls generalizing b with
  | nil => simp [KeepsApart]
  | cons call calls ih =>
    obtain ⟨formatters, event⟩ := call
    obtain ⟨hslice, hpos⟩ := logTo_eq hb formatters event
    rw [KeepsApart, contained_iff hb, ih hpos, List.forall_mem_cons]
    exact ⟨fun h => ⟨h.1, h.2.2.2⟩, fun h => ⟨h.1, hslice, hpos, h.2⟩⟩

/-- **The buffer of a thread.** The calls of `log` on a thread stay in the buffer, without seeing
each other's bytes, exactly when each of their lines fits it with the zeros behind its numbers. -/
theorem keeps_apart_iff (mem : Nat → UInt8) (calls : List (List StreamFormatter × LogEvent)) :
    KeepsApart ⟨mem, 0⟩ calls ↔ ∀ call ∈ calls, LineFits (call.1.flatMap (· call.2)) :=
  keepsApart_from_iff rfl calls

theorem bytes_replicate (n : Nat) : bytes (String.ofList (List.replicate n 'a')) =
    List.replicate n 97 := by
  rw [bytes, String.toList_ofList]
  induction n with
  | zero => rfl
  | succ n ih =>
    rw [List.replicate_succ, List.flatMap_cons, ih]
    rfl

/-- An event with a message of `n` letters. -/
def message (n : Nat) : LogEvent where
  fileName := "main.cpp"
  line := 1
  level := .INFO
  threadId := 1
  elapsedMs := 0
  executorId := 0
  time := 0
  content := String.ofList (List.replicate n 'a')

/-- A message of 5121 bytes; and one of 5119 in front of a thread id of one digit, whose zero is
the first byte behind the buffer. -/
theorem not_keeps_apart :
    ¬ KeepsApart ⟨fun _ => 0, 0⟩ [([fun event => [.block (bytes event.content)]], message 5121)] ∧
      ¬ KeepsApart ⟨fun _ => 0, 0⟩
        [([fun event => [.block (bytes event.content)], fun event => [.integer event.threadId]],
          message 5119)] := by
  constructor
  · rintro ⟨hc, -⟩
    have hline := ((contained_iff rfl).1 hc).line
    rw [List.flatMap_cons, List.flatMap_nil, List.append_nil, lineLength_cons] at hline
    have hlen : (Append.block (bytes (message 5121).content)).text.length = 5121 := by
      rw [Append.text, message, bytes_replicate, List.length_replicate]
    rw [hlen] at hline
    exact absurd hline (by decide)
  · rintro ⟨hc, -⟩
    have hzero := ((contained_iff rfl).1 hc).zero [.block (bytes (message 5119).content)]
      (.integer 1) []
      rfl rfl
    have hlen : (Append.block (bytes (message 5119).content)).text.length = 5119 := by
      rw [Append.text, message, bytes_replicate, List.length_replicate]
    rw [List.cons_append, lineLength_cons, hlen] at hzero
    exact absurd hzero (by decide +kernel)

end NetBase.Logging
