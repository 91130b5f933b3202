import Mathlib.Data.Finset.Insert
import Mathlib.Logic.Function.Basic
import NetBase.Lib.Runs

/-!
# Members that step one at a time

Copies of one step system, one for each key, of which a step moves one. Runs of the whole are runs
of the members, and runs of finitely many members, one after the other, are a run of the whole.
-/

namespace NetBase.Lib

variable {κ σ ι : Type} [DecidableEq κ] {step : σ → ι → Option σ} {s t : κ → σ}

/-- The member of the key steps. -/
def each (step : σ → ι → Option σ) (s : κ → σ) (i : κ × ι) : Option (κ → σ) :=
  (step (s i.1) i.2).map (Function.update s i.1)

theorem each_of {k : κ} {i : ι} {c : σ} (h : step (s k) i = some c) :
    each step s (k, i) = some (Function.update s k c) := by
  rw [each, h]
  rfl

/-- One member runs, the others wait. -/
theorem reach_update {k : κ} {c : σ} (h : Reach step (s k) c) :
    Reach (each step) s (Function.update s k c) := by
  obtain ⟨is, h⟩ := h
  induction is generalizing s with
  | nil =>
    cases h
    rw [Function.update_eq_self]
    exact .refl s
  | cons i is ih =>
    obtain ⟨d, hd, hrun⟩ := run_cons_inv h
    have hrest := ih (s := Function.update s k d) (by rw [Function.update_self]; exact hrun)
    rw [Function.update_idem] at hrest
    exact .cons (each_of hd) hrest

/-- What finitely many members can come to each, they come to together. By induction on the
members. -/
theorem reach_members {P : κ → σ → Prop} (ks : Finset κ)
    (h : ∀ k ∈ ks, ∃ c, Reach step (s k) c ∧ P k c) :
    ∃ t, Reach (each step) s t ∧ (∀ k ∈ ks, P k (t k)) ∧ ∀ k, k ∉ ks → t k = s k := by
  induction ks using Finset.induction_on with
  | empty => exact ⟨s, .refl s, fun _ hk => absurd hk (Finset.notMem_empty _), fun _ _ => rfl⟩
  | insert k ks hk ih =>
    obtain ⟨t, hreach, hP, hrest⟩ := ih fun j hj => h j (Finset.mem_insert_of_mem hj)
    obtain ⟨c, hc, hPc⟩ := h k (Finset.mem_insert_self k ks)
    rw [← hrest k hk] at hc
    refine ⟨Function.update t k c, hreach.trans (reach_update hc), fun j hj => ?_, fun j hj => ?_⟩
    · by_cases hjk : j = k
      · subst hjk
        rw [Function.update_self]
        exact hPc
      · rw [Function.update_of_ne hjk]
        exact hP j ((Finset.mem_insert.1 hj).resolve_left hjk)
    · obtain ⟨hjk, hjs⟩ := not_or.1 (mt Finset.mem_insert.2 hj)
      rw [Function.update_of_ne hjk]
      exact hrest j hjs

end NetBase.Lib
