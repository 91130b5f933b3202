import Mathlib.Logic.Function.Basic
import Mathlib.Tactic.Common

/-!
# Owners of memory

Blocks of memory that are live or not, and a partial map from holders to blocks. `Owns` is the
state of an allocator whose blocks all have one holder. It is kept when a free block goes to a
holder without one (`give`) and when a holder frees its block (`take`).
-/

namespace NetBase.Lib

/-- Every live block has one holder, and what is held is live. -/
structure Owns {ι α : Type} (held : ι → Option α) (live : α → Bool) : Prop where
  live : ∀ a, live a = true ↔ ∃ i, held i = some a
  own : ∀ i j a, held i = some a → held j = some a → i = j

namespace Owns

variable {ι α : Type} [DecidableEq ι] [DecidableEq α] {held : ι → Option α} {live : α → Bool}
  {i : ι} {a : α}

/-- A block that nobody has is given to one who has none. -/
theorem give (h : Owns held live) (hi : held i = none) (ha : live a = false) :
    Owns (Function.update held i (some a)) (Function.update live a true) := by
  have hfree : ∀ j, held j ≠ some a := fun j hj => by simp [(h.live a).2 ⟨j, hj⟩] at ha
  have hat : ∀ j b, Function.update held i (some a) j = some b →
      j = i ∧ b = a ∨ held j = some b := by
    intro j b hb
    by_cases hj : j = i
    · subst hj
      exact .inl ⟨rfl, by simpa using hb.symm⟩
    · exact .inr (by simpa [Function.update_of_ne hj] using hb)
  constructor
  · intro b
    by_cases hba : b = a
    · subst hba
      simp only [Function.update_self, true_iff]
      exact ⟨i, Function.update_self ..⟩
    rw [Function.update_of_ne hba, h.live b]
    constructor
    · intro ⟨j, hj⟩
      have hji : j ≠ i := fun hji => by simp [hji, hi] at hj
      exact ⟨j, by rwa [Function.update_of_ne hji]⟩
    · intro ⟨j, hj⟩
      obtain ⟨-, hb⟩ | hj := hat j b hj
      · exact absurd hb hba
      · exact ⟨j, hj⟩
  · intro j k b hj hk
    obtain ⟨rfl, rfl⟩ | hj' := hat j b hj <;> obtain ⟨rfl, hb⟩ | hk' := hat k b hk
    · rfl
    · exact absurd hk' (hfree k)
    · exact absurd (hb ▸ hj') (hfree j)
    · exact h.own j k b hj' hk'

/-- The holder goes and the block is freed. -/
theorem take (h : Owns held live) (hi : held i = some a) :
    Owns (Function.update held i none) (Function.update live a false) := by
  have hat : ∀ j b, Function.update held i none j = some b ↔ b ≠ a ∧ held j = some b := by
    intro j b
    by_cases hj : j = i
    · subst hj
      rw [Function.update_self, hi]
      simp [eq_comm]
    · rw [Function.update_of_ne hj]
      refine ⟨fun hb => ⟨?_, hb⟩, And.right⟩
      rintro rfl
      exact hj (h.own j i b hb hi)
  constructor
  · intro b
    simp only [hat, exists_and_left, ← h.live b]
    by_cases hba : b = a
    · simp [hba]
    · simp [hba, Function.update_of_ne]
  · intro j k b hj hk
    exact h.own j k b ((hat j b).1 hj).2 ((hat k b).1 hk).2

end Owns

end NetBase.Lib
