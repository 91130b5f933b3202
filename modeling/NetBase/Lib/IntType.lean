import Mathlib.Algebra.Order.Ring.Int

/-!
# Integer types

The integer types of C++: so many bits, with a sign or without. A value is kept as its bits, and
`value` is the number they stand for. Operations with an `int` on the other side are those of
`int` for a type that is narrower, and of the type itself for any other (`arith`); a conversion
keeps the number modulo a power of two. `value_remInt` and `value_divInt` say that remainder and
quotient by a positive `int` are those of the numbers, rounded towards zero, in every type.
-/

namespace NetBase.Lib

structure IntType where
  width : Nat
  signed : Bool

namespace IntType

variable {T U : IntType} {u v n : Int}

/-- The number some bits stand for. -/
def value (T : IntType) (x : BitVec T.width) : Int := if T.signed then x.toInt else x.toNat

def ofInt (T : IntType) (v : Int) : BitVec T.width := BitVec.ofInt T.width v

/-- `static_cast`, and every conversion the language makes by itself. -/
def cast (T U : IntType) (x : BitVec T.width) : BitVec U.width := U.ofInt (T.value x)

/-- `x / y`, for two operands of one type. -/
def div (T : IntType) (x y : BitVec T.width) : BitVec T.width :=
  if T.signed then x.sdiv y else x.udiv y

/-- `x % y` -/
def rem (T : IntType) (x y : BitVec T.width) : BitVec T.width :=
  if T.signed then x.srem y else x.umod y

/-- `x < y` -/
def lt (T : IntType) (x y : BitVec T.width) : Bool := if T.signed then x.slt y else x.ult y

def int : IntType := ⟨32, true⟩

/-- The type of an operation with an `int` on the other side. -/
def arith (T : IntType) : IntType := if T.width < 32 then int else T

/-- `x / n`, for a literal `n` -/
def divInt (T : IntType) (x : BitVec T.width) (n : Int) : BitVec T.arith.width :=
  T.arith.div (T.cast T.arith x) (int.cast T.arith (int.ofInt n))

/-- `x % n` -/
def remInt (T : IntType) (x : BitVec T.width) (n : Int) : BitVec T.arith.width :=
  T.arith.rem (T.cast T.arith x) (int.cast T.arith (int.ofInt n))

/-- `x < n` -/
def ltInt (T : IntType) (x : BitVec T.width) (n : Int) : Bool :=
  T.arith.lt (T.cast T.arith x) (int.cast T.arith (int.ofInt n))

/-! ## The numbers of a type -/

/-- A number of the type. -/
def Fits (T : IntType) (v : Int) : Prop :=
  if T.signed then -2 ^ T.width ≤ 2 * v ∧ 2 * v < 2 ^ T.width else 0 ≤ v ∧ v < 2 ^ T.width

theorem fits_value (x : BitVec T.width) : T.Fits (T.value x) := by
  unfold Fits value
  split
  · exact ⟨BitVec.le_two_mul_toInt, BitVec.two_mul_toInt_lt⟩
  · have := x.isLt
    exact ⟨Int.natCast_nonneg _, by exact_mod_cast this⟩

theorem value_ofInt (h : T.Fits v) : T.value (T.ofInt v) = v := by
  unfold Fits at h
  unfold value ofInt
  split
  · rename_i hs
    rw [if_pos hs] at h
    rw [BitVec.toInt_ofInt]
    exact Int.bmod_eq_of_le_mul_two (by push_cast; omega) (by push_cast; omega)
  · rename_i hs
    rw [if_neg hs] at h
    rw [BitVec.toNat_ofInt, Int.emod_eq_of_lt h.1 (by exact_mod_cast h.2), Int.toNat_of_nonneg h.1]

/-- A conversion to a type that has the number keeps it. -/
theorem value_cast {x : BitVec T.width} (h : U.Fits (T.value x)) :
    U.value (T.cast U x) = T.value x :=
  value_ofInt h

theorem value_of_signed (hs : T.signed = true) (x : BitVec T.width) : T.value x = x.toInt :=
  if_pos hs

theorem value_of_not_signed (hs : ¬ T.signed = true) (x : BitVec T.width) :
    T.value x = x.toNat :=
  if_neg hs

theorem value_eq_zero_iff {x : BitVec T.width} : T.value x = 0 ↔ x = 0 := by
  by_cases hs : T.signed = true
  · rw [value_of_signed hs, ← BitVec.toInt_inj, BitVec.ofNat_eq_ofNat, BitVec.toInt_zero]
  · rw [value_of_not_signed hs, Int.natCast_eq_zero, ← BitVec.toNat_inj]
    simp

/-! ## Towards zero -/

/-- `u` is between zero and `v`. -/
structure Within (u v : Int) : Prop where
  up : 0 ≤ v → 0 ≤ u ∧ u ≤ v
  down : v ≤ 0 → v ≤ u ∧ u ≤ 0

theorem Fits.within (h : T.Fits v) (hu : Within u v) : T.Fits u := by
  have hup := hu.up
  have hdown := hu.down
  unfold Fits at *
  split
  · rename_i hs
    rw [if_pos hs] at h
    omega
  · rename_i hs
    rw [if_neg hs] at h
    omega

theorem within_tdiv (hn : 0 ≤ n) : Within (v.tdiv n) v where
  up hv := ⟨Int.tdiv_nonneg hv hn, Int.tdiv_le_self n hv⟩
  down hv := by
    have hneg : (-v).tdiv n = -v.tdiv n := Int.neg_tdiv v n
    have h1 := Int.tdiv_nonneg (a := -v) (by omega) hn
    have h2 := Int.tdiv_le_self n (a := -v) (by omega)
    omega

/-! ## Operations -/

theorem value_rem (x y : BitVec T.width) : T.value (T.rem x y) = (T.value x).tmod (T.value y) := by
  by_cases hs : T.signed = true
  · rw [value_of_signed hs, value_of_signed hs, value_of_signed hs, rem, if_pos hs]
    exact BitVec.toInt_srem x y
  · rw [value_of_not_signed hs, value_of_not_signed hs, value_of_not_signed hs, rem, if_neg hs,
      BitVec.umod_eq, BitVec.toNat_umod, Int.ofNat_tmod]

theorem value_div {x y : BitVec T.width} (hy : 0 < T.value y) :
    T.value (T.div x y) = (T.value x).tdiv (T.value y) := by
  by_cases hs : T.signed = true
  · rw [value_of_signed hs] at hy
    rw [value_of_signed hs, value_of_signed hs, value_of_signed hs, div, if_pos hs]
    -- only the least number by -1 leaves the type
    apply BitVec.toInt_sdiv_of_ne_or_ne
    right
    rintro rfl
    rw [BitVec.neg_one_eq_allOnes, BitVec.toInt_allOnes] at hy
    split at hy <;> omega
  · rw [value_of_not_signed hs, value_of_not_signed hs, value_of_not_signed hs, div, if_neg hs,
      BitVec.udiv_eq, BitVec.toNat_udiv, Int.ofNat_tdiv]

theorem lt_eq (x y : BitVec T.width) : T.lt x y = decide (T.value x < T.value y) := by
  unfold value lt
  split
  · exact BitVec.slt_eq_decide
  · simp [BitVec.ult]

/-! ## With an `int` -/

theorem width_arith (T : IntType) : 32 ≤ T.arith.width := by
  unfold arith
  split
  · exact Nat.le_refl 32
  · omega

/-- The numbers of a narrower type are numbers of `int`. -/
theorem Fits.arith (h : T.Fits v) : T.arith.Fits v := by
  unfold IntType.arith
  split
  · rename_i hw
    have hle : (2 : Int) ^ T.width ≤ 2 ^ 31 := pow_le_pow_right₀ (by decide) (by omega)
    unfold Fits at h
    show -2 ^ 32 ≤ 2 * v ∧ 2 * v < 2 ^ 32
    split at h <;> omega
  · exact h

/-- A literal that is not negative keeps its number in every such operation. -/
theorem value_literal (h0 : 0 ≤ n) (hn : n < 2 ^ 31) :
    T.arith.value (int.cast T.arith (int.ofInt n)) = n := by
  have hint : int.value (int.ofInt n) = n := by
    apply value_ofInt
    show -2 ^ 32 ≤ 2 * n ∧ 2 * n < 2 ^ 32
    omega
  rw [value_cast, hint]
  rw [hint]
  have hle : (2 : Int) ^ 32 ≤ 2 ^ T.arith.width := pow_le_pow_right₀ (by decide) (width_arith T)
  unfold Fits
  split <;> omega

theorem value_promote (x : BitVec T.width) : T.arith.value (T.cast T.arith x) = T.value x :=
  value_cast (fits_value x).arith

theorem value_remInt (h0 : 0 ≤ n) (hn : n < 2 ^ 31) (x : BitVec T.width) :
    T.arith.value (T.remInt x n) = (T.value x).tmod n := by
  rw [remInt, value_rem, value_promote, value_literal h0 hn]

theorem value_divInt (h0 : 0 < n) (hn : n < 2 ^ 31) (x : BitVec T.width) :
    T.arith.value (T.divInt x n) = (T.value x).tdiv n := by
  have hlit : T.arith.value (int.cast T.arith (int.ofInt n)) = n := value_literal (by omega) hn
  rw [divInt, value_div (by omega), value_promote, hlit]

theorem ltInt_eq (h0 : 0 ≤ n) (hn : n < 2 ^ 31) (x : BitVec T.width) :
    T.ltInt x n = decide (T.value x < n) := by
  rw [ltInt, lt_eq, value_promote, value_literal h0 hn]

/-- The quotient fits the type it came from. -/
theorem value_cast_divInt (h0 : 0 < n) (hn : n < 2 ^ 31) (x : BitVec T.width) :
    T.value (T.arith.cast T (T.divInt x n)) = (T.value x).tdiv n := by
  rw [value_cast, value_divInt h0 hn]
  rw [value_divInt h0 hn]
  exact (fits_value x).within (within_tdiv (by omega))

/-- A remainder is an `int`. -/
theorem value_cast_remInt (h0 : 0 < n) (hn : n < 2 ^ 31) (x : BitVec T.width) :
    int.value (T.arith.cast int (T.remInt x n)) = (T.value x).tmod n := by
  have hrem : T.arith.value (T.remInt x n) = (T.value x).tmod n := value_remInt (by omega) hn x
  rw [value_cast, hrem]
  rw [hrem]
  have hlow := Int.lt_tmod_of_pos (T.value x) h0
  have hup := Int.tmod_lt_of_pos (T.value x) h0
  show -2 ^ 32 ≤ 2 * _ ∧ 2 * _ < 2 ^ 32
  omega

end IntType

end NetBase.Lib
