import Mathlib
import NetBase.Lib.IntType
import NetBase.Lib.Memory
import NetBase.Logging.LogSStream

/-!
# Integers in a buffer

`convert` of `src/logging/LogSStream.cpp` as it runs: on the bits of the type it is instantiated
with, writing through `p` and turning the digits around in place. The text of a number that
`LogSStream.lean` takes for granted is what this leaves in the buffer (`convert_eq_written`), so
the stream may see a number as one append (`putInteger_eq_append`). `conversion_exact` says what the
text is, for every value of every type.
-/

namespace NetBase.Logging

open Lib (IntType)
open Lib.Memory (Cursor written reverse update_written reverse_written)

/-- The types `operator<<` is instantiated for. -/
inductive Integral where
  | uint8
  | int8
  | uint16
  | int16
  | uint32
  | int32
  | uint64
  | int64

def Integral.type : Integral → IntType
  | uint8 => ⟨8, false⟩
  | int8 => ⟨8, true⟩
  | uint16 => ⟨16, false⟩
  | int16 => ⟨16, true⟩
  | uint32 => ⟨32, false⟩
  | int32 => ⟨32, true⟩
  | uint64 => ⟨64, false⟩
  | int64 => ⟨64, true⟩

namespace Machine

variable (T : IntType)

/-- `static_cast<int>(i % 10)` -/
def lsd (i : BitVec T.width) : Int := IntType.int.value (T.arith.cast IntType.int (T.remInt i 10))

/-- `i /= 10` -/
def next (i : BitVec T.width) : BitVec T.width := T.arith.cast T (T.divInt i 10)

theorem lsd_eq (i : BitVec T.width) : lsd T i = (T.value i).tmod 10 :=
  IntType.value_cast_remInt (by decide) (by decide) i

theorem value_next (i : BitVec T.width) : T.value (next T i) = (T.value i).tdiv 10 :=
  IntType.value_cast_divInt (by decide) (by decide) i

theorem next_eq_zero_iff (i : BitVec T.width) : next T i = 0 ↔ (T.value i).tdiv 10 = 0 := by
  rw [← IntType.value_eq_zero_iff, value_next]

/-- The loop of `convert`. -/
def convertLoop (c : Cursor UInt8) (i : BitVec T.width) : Cursor UInt8 :=
  if _h : next T i = 0 then c.put (zeroAt (lsd T i)).toUInt8
  else convertLoop (c.put (zeroAt (lsd T i)).toUInt8) (next T i)
termination_by (T.value i).natAbs
decreasing_by
  rw [next_eq_zero_iff] at _h
  have habs : ((T.value i).tdiv 10).natAbs = (T.value i).natAbs / 10 :=
    Int.natAbs_tdiv (T.value i) 10
  rw [value_next]
  omega

/-- `convert`: the memory behind it, and what it returns. -/
def convert (mem : Nat → UInt8) (buf : Nat) (value : BitVec T.width) : (Nat → UInt8) × Nat :=
  let c := convertLoop T ⟨mem, buf⟩ value
  let c := if T.ltInt value 0 then c.put '-'.toUInt8 else c
  (reverse (Function.update c.mem c.p 0) buf c.p, c.p - buf)

end Machine

/-- `operator<<` for an integer. -/
def LogSStreamBuf.putInteger (b : LogSStreamBuf) (T : IntType) (n : BitVec T.width) :
    LogSStreamBuf where
  mem := (Machine.convert T b.mem b.pos n).1
  pos := b.pos + (Machine.convert T b.mem b.pos n).2

/-! ## What is written -/

/-- The characters as they are stored. -/
def chars (text : List Char) : List UInt8 := text.map Char.toUInt8

theorem chars_append (s t : List Char) : chars (s ++ t) = chars s ++ chars t := List.map_append

section

variable {T : IntType} {mem : Nat → UInt8} {o : Nat}

/-- The loop appends the digits to what is written. By induction on the number. -/
theorem convertLoop_behind (l : List UInt8) (i : BitVec T.width) :
    Machine.convertLoop T (.behind mem o l) i =
      .behind mem o (l ++ chars (convertLoop (T.value i))) := by
  generalize hv : T.value i = v
  induction v using convertLoop.induct generalizing i l with
  | case1 v h =>
    subst hv
    rw [Machine.convertLoop, dif_pos ((Machine.next_eq_zero_iff T i).2 h), Cursor.put_behind,
      Machine.lsd_eq, convertLoop, if_pos h]
    rfl
  | case2 v h ih =>
    subst hv
    rw [Machine.convertLoop, dif_neg (fun h0 => h ((Machine.next_eq_zero_iff T i).1 h0)),
      Cursor.put_behind, Machine.lsd_eq, convertLoop, if_neg h, ih _ _ (Machine.value_next T i),
      List.append_assoc]
    rfl

/-- Before they are turned around, the digits stand in front of the sign. -/
theorem sign_behind (value : BitVec T.width) :
    (if T.ltInt value 0 then
        (Cursor.behind mem o (chars (convertLoop (T.value value)))).put '-'.toUInt8
      else .behind mem o (chars (convertLoop (T.value value)))) =
      .behind mem o (chars (convert (T.value value)).reverse) := by
  have hlt : T.ltInt value 0 = decide (T.value value < 0) :=
    IntType.ltInt_eq (by decide) (by decide) value
  rw [hlt, convert, List.reverse_reverse, chars_append]
  by_cases hneg : T.value value < 0
  · rw [decide_eq_true hneg, if_pos rfl, if_pos hneg, Cursor.put_behind]
    rfl
  · rw [decide_eq_false hneg, if_neg Bool.false_ne_true, if_neg hneg]
    simp [chars]

/-- `convert` leaves the text of the number and a zero, and nothing else. -/
theorem convert_eq_written (mem : Nat → UInt8) (buf : Nat) (value : BitVec T.width) :
    Machine.convert T mem buf value =
      (written mem buf (chars (convert (T.value value)) ++ [0]),
        (convert (T.value value)).length) := by
  have hloop : Machine.convertLoop T ⟨mem, buf⟩ value =
      .behind mem buf (chars (convertLoop (T.value value))) := by
    rw [← Cursor.behind_nil, convertLoop_behind]
    rfl
  unfold Machine.convert
  rw [hloop]
  simp only [sign_behind]
  rw [Cursor.behind, update_written, reverse_written, Nat.add_sub_cancel_left]
  simp [chars]

end

/-! ## The stream -/

theorem utf8EncodeChar_of_le {c : Char} (h : c.toNat ≤ 127) :
    String.utf8EncodeChar c = [c.toUInt8] := by
  rw [String.utf8EncodeChar]
  exact if_pos h

/-- One byte for each character of a number. -/
theorem bytes_convert (n : Int) : bytes (String.ofList (convert n)) = chars (convert n) := by
  have hascii : ∀ c ∈ convert n, c.toNat ≤ 127 := by
    intro c hc
    rw [convert_eq_append, List.mem_append] at hc
    rcases hc with hc | hc
    · split at hc
      · cases List.mem_singleton.1 hc
        decide
      · cases hc
    · have hd : c.isDigit := Nat.isDigit_of_mem_toDigits (by decide) (by decide) hc
      have hle := (Char.isDigit_iff_toNat.1 hd).2
      exact hle.trans (by decide)
  rw [bytes, String.toList_ofList, chars, List.map_eq_flatMap]
  exact List.flatMap_congr fun c hc => utf8EncodeChar_of_le (hascii c hc)

/-- A number is one append. -/
theorem putInteger_eq_append (b : LogSStreamBuf) (T : IntType) (n : BitVec T.width) :
    b.putInteger T n = b.append (.integer (T.value n)) := by
  have htext : (Append.integer (T.value n)).text = chars (convert (T.value n)) := bytes_convert _
  have hstores : (Append.integer (T.value n)).stores = chars (convert (T.value n)) ++ [0] := by
    rw [Append.stores, htext]
    rfl
  unfold LogSStreamBuf.putInteger LogSStreamBuf.append
  rw [convert_eq_written, hstores, htext, chars, List.length_map]
  rfl

/-! ## Decimal texts -/

/-- Digits with no zero in front of others. -/
structure Numeral (ds : List Char) : Prop where
  nonempty : ds ≠ []
  digits : ∀ c ∈ ds, c.isDigit
  noZero : ds.head? = some '0' → ds = ['0']

/-- A number in decimal: a sign exactly where it is negative, and then a numeral. -/
def Canonical (v : Int) (text : List Char) : Prop :=
  ∃ ds, Numeral ds ∧ text = (if v < 0 then ['-'] else []) ++ ds

theorem head_toDigits_ne {n : Nat} (h : 0 < n) : (Nat.toDigits 10 n).head? ≠ some '0' := by
  induction n using Nat.strongRecOn with
  | ind n ih =>
    rcases Nat.lt_or_ge n 10 with hn | hn
    · rw [Nat.toDigits_of_lt_base hn]
      simpa using by omega
    · rw [Nat.toDigits_of_base_le (by decide) hn, List.head?_append_of_ne_nil _ Nat.toDigits_ne_nil]
      exact ih (n / 10) (by omega) (by omega)

theorem numeral_toDigits (n : Nat) : Numeral (Nat.toDigits 10 n) where
  nonempty := Nat.toDigits_ne_nil
  digits _ hc := Nat.isDigit_of_mem_toDigits (by decide) (by decide) hc
  noZero h := by
    rcases Nat.eq_zero_or_pos n with rfl | hn
    · rfl
    · exact absurd h (head_toDigits_ne hn)

theorem canonical_convert (n : Int) : Canonical n (convert n) :=
  ⟨_, numeral_toDigits n.natAbs, convert_eq_append n⟩

/-- The longest texts are those of the least number with a sign and the greatest without. -/
theorem length_convert_le {n : Int} (hlow : -2 ^ 63 ≤ n) (hup : n < 2 ^ 64) :
    (convert n).length ≤ 20 := by
  rw [convert_eq_append, List.length_append]
  split
  · have := (Nat.length_toDigits_le_iff (b := 10) (n := n.natAbs) (k := 19) (by decide)
      (by decide)).2 (by omega)
    rw [List.length_singleton]
    omega
  · have := (Nat.length_toDigits_le_iff (b := 10) (n := n.natAbs) (k := 20) (by decide)
      (by decide)).2 (by omega)
    rw [List.length_nil]
    omega

theorem Integral.value_bounds (T : Integral) (x : BitVec T.type.width) :
    -2 ^ 63 ≤ T.type.value x ∧ T.type.value x < 2 ^ 64 := by
  have h := IntType.fits_value x
  cases T <;> simp [IntType.Fits, Integral.type] at h ⊢ <;> omega

/-- **Integers.** For every value of every type, `convert` writes the number in decimal and a zero
behind it, and returns how long the text is. -/
theorem conversion_exact (T : Integral) (mem : Nat → UInt8) (buf : Nat)
    (value : BitVec T.type.width) :
    ∃ text : List Char,
      Machine.convert T.type mem buf value = (written mem buf (chars text ++ [0]), text.length) ∧
        text.length ≤ 20 ∧ Canonical (T.type.value value) text ∧
        (String.ofList text).toInt? = some (T.type.value value) := by
  obtain ⟨hlow, hup⟩ := T.value_bounds value
  refine ⟨convert (T.type.value value), convert_eq_written mem buf value,
    length_convert_le hlow hup, canonical_convert _, ?_⟩
  rw [convert_eq]
  exact Int.toInt?_repr _

end NetBase.Logging
