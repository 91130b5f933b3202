import Mathlib.Tactic.Common

/-!
# Histories

A history is the list of what has happened, oldest first; it grows at its end.
`Each P h` says every event of `h` is right after the events before it.
-/

namespace NetBase.Lib

variable {ε : Type}

def Each (P : List ε → ε → Prop) (h : List ε) : Prop :=
  ∀ before e after, h = before ++ e :: after → P before e

theorem each_nil {P : List ε → ε → Prop} : Each P [] := by
  intro before e after h
  simp at h

/-- Where an event of a history that has grown by `e` sits. -/
theorem split_snoc {h before after : List ε} {e d : ε} (hs : h ++ [e] = before ++ d :: after) :
    (before = h ∧ d = e ∧ after = []) ∨ ∃ rest, after = rest ++ [e] ∧ h = before ++ d :: rest := by
  rcases List.eq_nil_or_concat after with rfl | ⟨rest, x, rfl⟩
  · have h1 := List.append_inj' hs rfl
    exact .inl ⟨h1.1.symm, (List.cons.inj h1.2).1.symm, rfl⟩
  · have hs' : h ++ [e] = (before ++ d :: rest) ++ [x] := by simpa using hs
    have h1 := List.append_inj' hs' rfl
    obtain rfl := (List.cons.inj h1.2).1
    exact .inr ⟨rest, List.concat_eq_append, h1.1⟩

theorem each_snoc {P : List ε → ε → Prop} {h : List ε} {e : ε} :
    Each P (h ++ [e]) ↔ Each P h ∧ P h e := by
  constructor
  · intro he
    refine ⟨fun before d after hs => he before d (after ++ [e]) ?_, he h e [] rfl⟩
    rw [hs, List.append_assoc, List.cons_append]
  · rintro ⟨hh, hp⟩ before d after hs
    rcases split_snoc hs with ⟨rfl, rfl, -⟩ | ⟨rest, -, hr⟩
    · exact hp
    · exact hh before d rest hr

theorem Each.before {P : List ε → ε → Prop} {h k : List ε} (he : Each P (h ++ k)) : Each P h :=
  fun before e after hs => he before e (after ++ k) (by simp [hs])

end NetBase.Lib
