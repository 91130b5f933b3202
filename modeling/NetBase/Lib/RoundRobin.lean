import Mathlib.Data.Nat.ModEq

/-!
# Taking turns

`n` places with a load each, and a counter whose remainder says whose turn it is. `Rotates n f c`:
from the place whose turn it is, round to the place before it, the loads `f` do not fall, and
differ by at most one. A turn keeps this, and so does anything that moves the counter by a multiple
of `n`.
-/

namespace NetBase.Lib

variable {n : Nat} {f : Nat → Nat} {c : Nat}

/-- One more at the place `p`. -/
def bump (f : Nat → Nat) (p : Nat) : Nat → Nat := fun q => f q + if q = p then 1 else 0

def Rotates (n : Nat) (f : Nat → Nat) (c : Nat) : Prop :=
  ∀ i j, i ≤ j → j < n → f ((c + i) % n) ≤ f ((c + j) % n) ∧
    f ((c + j) % n) ≤ f ((c + i) % n) + 1

theorem rotates_const (k : Nat) : Rotates n (fun _ => k) c :=
  fun _ _ _ _ => ⟨Nat.le_refl k, Nat.le_succ k⟩

theorem Rotates.congr {c' : Nat} (h : Rotates n f c) (hc : c' ≡ c [MOD n]) : Rotates n f c' := by
  intro i j hij hj
  have hm : ∀ k, (c' + k) % n = (c + k) % n := fun k => hc.add_right k
  rw [hm i, hm j]
  exact h i j hij hj

theorem Rotates.of_eq {g : Nat → Nat} (h : Rotates n f c) (hn : 0 < n)
    (hg : ∀ p < n, g p = f p) : Rotates n g c := by
  intro i j hij hj
  rw [hg _ (Nat.mod_lt _ hn), hg _ (Nat.mod_lt _ hn)]
  exact h i j hij hj

theorem mod_ne_of_lt {k : Nat} (hk : 0 < k) (hkn : k < n) : (c + k) % n ≠ c % n := by
  intro h
  have hz : k ≡ 0 [MOD n] := Nat.ModEq.add_left_cancel' c (show c + k ≡ c + 0 [MOD n] from h)
  have h0 := hz.eq_of_lt_of_lt hkn (by omega)
  omega

/-- The place whose turn it is becomes the last one of the next round. -/
theorem Rotates.step (h : Rotates n f c) : Rotates n (bump f (c % n)) (c + 1) := by
  have hlater : ∀ i, i + 1 < n → bump f (c % n) ((c + 1 + i) % n) = f ((c + (i + 1)) % n) := by
    intro i hi
    rw [Nat.add_right_comm, Nat.add_assoc, bump, if_neg (mod_ne_of_lt (Nat.succ_pos i) hi)]
    rfl
  have hlast : ∀ i, i + 1 = n → bump f (c % n) ((c + 1 + i) % n) = f (c % n) + 1 := by
    intro i hi
    rw [Nat.add_right_comm, Nat.add_assoc, hi, Nat.add_mod_right, bump, if_pos rfl]
  intro i j hij hj
  by_cases hj' : j + 1 < n
  · rw [hlater i (by omega), hlater j hj']
    exact h (i + 1) (j + 1) (by omega) hj'
  · rw [hlast j (by omega)]
    by_cases hi' : i + 1 < n
    · rw [hlater i hi']
      obtain ⟨h1, h2⟩ := h 0 (i + 1) (Nat.zero_le _) hi'
      rw [Nat.add_zero] at h1 h2
      exact ⟨h2, Nat.succ_le_succ h1⟩
    · rw [hlast i (by omega)]
      exact ⟨Nat.le_refl _, Nat.le_succ _⟩

theorem exists_turn (c : Nat) {p : Nat} (hp : p < n) : ∃ i < n, (c + i) % n = p := by
  have hn : 0 < n := by omega
  have hc := Nat.mod_lt c hn
  refine ⟨(n - c % n + p) % n, Nat.mod_lt _ hn, ?_⟩
  rw [Nat.add_mod_mod, ← Nat.mod_add_mod, show c % n + (n - c % n + p) = p + n by omega,
    Nat.add_mod_right, Nat.mod_eq_of_lt hp]

/-- Nobody is ahead of anybody by more than one. -/
theorem Rotates.even (h : Rotates n f c) {p q : Nat} (hp : p < n) (hq : q < n) :
    f p ≤ f q + 1 := by
  obtain ⟨i, hi, rfl⟩ := exists_turn c hp
  obtain ⟨j, hj, rfl⟩ := exists_turn c hq
  obtain hij | hji := Nat.le_total i j
  · exact Nat.le_succ_of_le (h i j hij hj).1
  · exact (h j i hji hi).2

end NetBase.Lib
