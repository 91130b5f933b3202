import Mathlib.Data.List.Lex
import NetBase.Net.Address

/-!
# Addresses as keys

`operator<` compares what two addresses have in common and then their lengths: on the bytes this is
the lexicographic order, in which a proper beginning comes first, and `operator==` is equality.
-/

namespace NetBase.Net.SockAddress

theorem memcmp_cons (a b : Byte) (as bs : List Byte) (n : Nat) :
    memcmp (a :: as) (b :: bs) (n + 1) =
      if a = b then memcmp as bs n else (a.val : Int) - b.val := rfl

/-- The comparison of `operator<` on two byte strings. -/
def Before (as bs : List Byte) : Prop :=
  memcmp as bs (min as.length bs.length) < 0 ∨
    memcmp as bs (min as.length bs.length) = 0 ∧ as.length < bs.length

theorem before_iff_lt (as bs : List Byte) : Before as bs ↔ as < bs := by
  induction as generalizing bs with
  | nil =>
    cases bs with
    | nil => simp [Before, memcmp]
    | cons b bs => simp [Before, memcmp]
  | cons a as ih =>
    cases bs with
    | nil => simp [Before, memcmp]
    | cons b bs =>
      rw [List.cons_lt_cons_iff, ← ih bs, Before, List.length_cons, List.length_cons,
        Nat.succ_min_succ, memcmp_cons]
      by_cases hab : a = b
      · rw [if_pos hab, Nat.succ_lt_succ_iff]
        simp only [hab, lt_irrefl, true_and, false_or, Before]
      · rw [if_neg hab]
        have hne : a.val ≠ b.val := fun h => hab (Fin.ext h)
        simp only [hab, false_and, or_false, Fin.lt_def]
        omega

theorem memcmp_eq_zero_iff {as bs : List Byte} (h : as.length = bs.length) :
    memcmp as bs as.length = 0 ↔ as = bs := by
  induction as generalizing bs with
  | nil =>
    cases bs with
    | nil => simp [memcmp]
    | cons b bs => cases h
  | cons a as ih =>
    cases bs with
    | nil => cases h
    | cons b bs =>
      rw [List.length_cons, memcmp_cons, List.cons.injEq]
      by_cases hab : a = b
      · rw [if_pos hab, ih (Nat.succ.inj h)]
        simp only [hab, true_and]
      · rw [if_neg hab]
        have hne : a.val ≠ b.val := fun h => hab (Fin.ext h)
        simp only [hab, false_and, iff_false]
        omega

/-- `operator<` is the lexicographic order of the bytes. -/
theorem less_iff (a b : SockAddress) : a.less b = true ↔ a.getAddr < b.getAddr := by
  rw [← before_iff_lt, Before, length_getAddr, length_getAddr, less]
  simp only [gt_iff_lt]
  split
  · simp only [true_iff]
    exact .inl ‹_›
  · split
    · constructor
      · intro h
        cases h
      · rintro (h | h) <;> omega
    · split
      · simp only [true_iff]
        exact .inr ⟨by omega, ‹_›⟩
      · constructor
        · intro h
          cases h
        · rintro (h | h) <;> omega

/-- `operator==` is equality of the bytes. -/
theorem equal_iff (a b : SockAddress) : a.equal b = true ↔ a.getAddr = b.getAddr := by
  rw [equal, Bool.and_eq_true, beq_iff_eq, beq_iff_eq, ← length_getAddr a, ← length_getAddr b]
  constructor
  · rintro ⟨hl, hm⟩
    exact (memcmp_eq_zero_iff hl).1 hm
  · intro h
    have hl := congrArg List.length h
    exact ⟨hl, (memcmp_eq_zero_iff hl).2 h⟩

theorem notEqual_iff (a b : SockAddress) : a.notEqual b = true ↔ a.getAddr ≠ b.getAddr := by
  rw [notEqual, Bool.not_eq_true', ← Bool.not_eq_true, equal_iff]

/-- The bytes decide, and `operator<` is a strict total order that respects the equality, over
addresses of all classes. -/
theorem less_strict_total_order :
    (∀ a b : SockAddress, a.less b ↔ a.getAddr < b.getAddr) ∧
    (∀ a b : SockAddress, a.equal b ↔ a.getAddr = b.getAddr) ∧
    (∀ a : SockAddress, ¬a.less a) ∧
    (∀ a b c : SockAddress, a.less b → b.less c → a.less c) ∧
    (∀ a b : SockAddress, (a.less b ∧ ¬b.less a ∧ ¬a.equal b) ∨
      (¬a.less b ∧ b.less a ∧ ¬a.equal b) ∨ (¬a.less b ∧ ¬b.less a ∧ a.equal b)) ∧
    Equivalence (fun a b : SockAddress => a.equal b = true) ∧
    ∀ a a' b b' : SockAddress, a.equal a' → b.equal b' → (a.less b ↔ a'.less b') := by
  refine ⟨less_iff, equal_iff, ?_⟩
  simp only [less_iff, equal_iff]
  refine ⟨fun a => lt_irrefl _, fun a b c => lt_trans, fun a b => ?_, ⟨?_, ?_, ?_⟩, ?_⟩
  · obtain h | h | h := lt_trichotomy a.getAddr b.getAddr
    · exact .inl ⟨h, h.asymm, h.ne⟩
    · exact .inr (.inr ⟨h.not_lt, h.not_gt, h⟩)
    · exact .inr (.inl ⟨h.asymm, h, h.ne'⟩)
  · intro a
    rfl
  · intro a b h
    exact h.symm
  · intro a b c hab hbc
    exact hab.trans hbc
  · intro a a' b b' ha hb
    rw [ha, hb]

example : (SockAddress.ipv4 .init).less (.unix .init) = true := by decide

end NetBase.Net.SockAddress
