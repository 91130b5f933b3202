import Mathlib.Tactic.Common

/-!
# Two fallible computations side by side

`Tracks p R x y`: under `p` both computations return, with results related by `R`, and without `p`
both fail. The errors need not be of one type. The rules follow the way the computations are put
together, so that two programs of one shape are compared step by step.
-/

namespace NetBase.Lib

variable {ε δ α β α' β' : Type}

def Tracks (p : Prop) (R : α → β → Prop) (x : Except ε α) (y : Except δ β) : Prop :=
  (p ∧ ∃ a b, x = .ok a ∧ y = .ok b ∧ R a b) ∨ (¬ p ∧ (∃ e, x = .error e) ∧ ∃ e, y = .error e)

namespace Tracks

variable {p q : Prop} {R : α → β → Prop} {S : α' → β' → Prop} {x : Except ε α} {y : Except δ β}

protected theorem pure {a : α} {b : β} (h : R a b) :
    Tracks True R (pure a : Except ε α) (pure b : Except δ β) :=
  .inl ⟨trivial, a, b, rfl, rfl, h⟩

protected theorem error (e : ε) (e' : δ) :
    Tracks False R (.error e : Except ε α) (.error e' : Except δ β) :=
  .inr ⟨id, ⟨e, rfl⟩, e', rfl⟩

theorem congr (h : Tracks p R x y) (hpq : p ↔ q) : Tracks q R x y := by
  rcases h with ⟨hp, h⟩ | ⟨hp, h⟩
  · exact .inl ⟨hpq.1 hp, h⟩
  · exact .inr ⟨fun hq => hp (hpq.2 hq), h⟩

protected theorem bind {f : α → Except ε α'} {g : β → Except δ β'} (h : Tracks p R x y)
    (hfg : ∀ a b, R a b → Tracks q S (f a) (g b)) : Tracks (p ∧ q) S (x >>= f) (y >>= g) := by
  rcases h with ⟨hp, a, b, rfl, rfl, hr⟩ | ⟨hp, ⟨e, rfl⟩, e', rfl⟩
  · apply (hfg a b hr).congr
    simp [hp]
  · exact .inr ⟨fun hpq => hp hpq.1, ⟨e, rfl⟩, e', rfl⟩

theorem mono {T : α → β → Prop} (h : Tracks p R x y) (hRT : ∀ a b, R a b → T a b) :
    Tracks p T x y := by
  rcases h with ⟨hp, a, b, hx, hy, hr⟩ | h
  · exact .inl ⟨hp, a, b, hx, hy, hRT a b hr⟩
  · exact .inr h

/-- Over a list: each result of the first is `u` of the second's, which `w` relates to the
element. -/
theorem mapM {γ κ : Type} {p : γ → Prop} {u : β → α} {v : γ → κ} {w : β → κ}
    {f : γ → Except ε α} {g : γ → Except δ β} {l : List γ}
    (h : ∀ d ∈ l, Tracks (p d) (fun a b => a = u b ∧ v d = w b) (f d) (g d)) :
    Tracks (∀ d ∈ l, p d) (fun as bs => as = bs.map u ∧ l.map v = bs.map w)
      (l.mapM f) (l.mapM g) := by
  induction l with
  | nil => exact (Tracks.pure ⟨rfl, rfl⟩).congr (by simp)
  | cons d l ih =>
    rw [List.mapM_cons, List.mapM_cons]
    have htail := ih fun d hd => h d (.tail _ hd)
    refine ((h d (.head _)).bind fun a b hab =>
      htail.bind (q := True) fun as bs hs => ?_).congr ?_
    · refine Tracks.pure ⟨?_, ?_⟩
      · rw [hab.1, hs.1, List.map_cons]
      · rw [List.map_cons, List.map_cons, hab.2, hs.2]
    · simp

end Tracks

end NetBase.Lib
