import Mathlib.Tactic.Common

/-!
# Runs of a labelled step function

`step s i = some t`: input `i` is enabled in `s` and leads to `t`. `run` takes a
list of inputs; `Reach` is reachability. `Meets step C s is` says every input of
the run from `s` meets `C` in the state it is taken in, and `Along step P s is`
that `P` holds in every state the run visits. The rules below carry an invariant
along a run, along the runs whose inputs all meet a condition, and show that a
condition exact for one step is exact for whole runs.
-/

namespace NetBase.Lib

variable {σ ι : Type} (step : σ → ι → Option σ)

/-- The state after the inputs, `none` when one of them is not enabled. -/
def run : σ → List ι → Option σ
  | s, [] => some s
  | s, i :: is => (step s i).bind fun t => run t is

def Reach (s t : σ) : Prop := ∃ is, run step s is = some t

/-- Every input of the run from `s` meets `C` in the state it is taken in. -/
def Meets (C : σ → ι → Prop) : σ → List ι → Prop
  | _, [] => True
  | s, i :: is => C s i ∧ ∀ t, step s i = some t → Meets C t is

/-- `P` holds in every state the run from `s` visits, `s` included. -/
def Along (P : σ → Prop) : σ → List ι → Prop
  | s, [] => P s
  | s, i :: is => P s ∧ ∀ t, step s i = some t → Along P t is

/-- A run can be checked step by step. -/
instance Meets.decidable (C : σ → ι → Prop) [∀ s i, Decidable (C s i)] :
    ∀ (s : σ) (is : List ι), Decidable (Meets step C s is)
  | _, [] => .isTrue trivial
  | s, i :: is =>
    match h : step s i with
    | none => decidable_of_iff (C s i) ⟨fun hc => ⟨hc, fun t ht => by simp [h] at ht⟩, And.left⟩
    | some t =>
      have := Meets.decidable C t is
      decidable_of_iff (C s i ∧ Meets step C t is)
        ⟨fun hm => ⟨hm.1, fun u hu => by cases h.symm.trans hu; exact hm.2⟩,
          fun hm => ⟨hm.1, hm.2 t h⟩⟩

variable {step}

theorem run_cons {s t u : σ} {i : ι} {is : List ι} (h : step s i = some t)
    (h' : run step t is = some u) : run step s (i :: is) = some u := by
  simp [run, h, h']

theorem run_cons_inv {s u : σ} {i : ι} {is : List ι} (h : run step s (i :: is) = some u) :
    ∃ t, step s i = some t ∧ run step t is = some u := by
  simpa [run, Option.bind_eq_some_iff] using h

theorem run_append {s : σ} {is js : List ι} :
    run step s (is ++ js) = (run step s is).bind fun t => run step t js := by
  induction is generalizing s with
  | nil => rfl
  | cons i is ih =>
    simp only [List.cons_append, run]
    cases step s i with
    | none => rfl
    | some t => simpa using ih

/-- What every input with `C` keeps, a run of such inputs keeps. -/
theorem run_inv_of {I : σ → Prop} {C : ι → Prop}
    (hstep : ∀ s i t, I s → C i → step s i = some t → I t) :
    ∀ {is : List ι} {s t : σ}, (∀ i ∈ is, C i) → I s → run step s is = some t → I t
  | [], _, _, _, hs, h => by cases h; exact hs
  | _ :: _, _, _, hc, hs, h => by
    obtain ⟨u, h1, h2⟩ := run_cons_inv h
    exact run_inv_of hstep (fun j hj => hc j (.tail _ hj)) (hstep _ _ _ hs (hc _ (.head _)) h1) h2

/-- **Invariant rule.** What every step keeps, every run keeps. -/
theorem run_inv {I : σ → Prop} (hstep : ∀ s i t, I s → step s i = some t → I t)
    {is : List ι} {s t : σ} (hs : I s) (h : run step s is = some t) : I t :=
  run_inv_of (C := fun _ => True) (fun s i t hs _ => hstep s i t hs) (fun _ _ => trivial) hs h

theorem Reach.inv {I : σ → Prop} {s t : σ} (h : Reach step s t) (hs : I s)
    (hstep : ∀ s i t, I s → step s i = some t → I t) : I t := by
  obtain ⟨is, h⟩ := h
  exact run_inv hstep hs h

theorem Reach.refl (s : σ) : Reach step s s := ⟨[], rfl⟩

theorem Reach.cons {s t u : σ} {i : ι} (h : step s i = some t) (h' : Reach step t u) :
    Reach step s u := by
  obtain ⟨is, h'⟩ := h'
  exact ⟨i :: is, run_cons h h'⟩

theorem Reach.trans {s t u : σ} (h : Reach step s t) (h' : Reach step t u) : Reach step s u := by
  obtain ⟨is, h⟩ := h
  obtain ⟨js, h'⟩ := h'
  exact ⟨is ++ js, by rw [run_append, h]; exact h'⟩

/-- What fewer steps reach, more steps reach. -/
theorem Reach.mono {step' : σ → ι → Option σ}
    (hstep : ∀ s i t, step s i = some t → step' s i = some t) {s t : σ} (h : Reach step s t) :
    Reach step' s t := by
  obtain ⟨is, h⟩ := h
  induction is generalizing s with
  | nil => cases h; exact .refl _
  | cons i is ih =>
    obtain ⟨u, h1, h2⟩ := run_cons_inv h
    exact .cons (hstep s i u h1) (ih h2)

/-- The steps whose inputs are allowed. -/
def only (P : ι → Bool) (step : σ → ι → Option σ) (s : σ) (i : ι) : Option σ :=
  if P i then step s i else none

theorem only_inv {P : ι → Bool} {s t : σ} {i : ι} (h : only P step s i = some t) :
    P i = true ∧ step s i = some t := by
  unfold only at h
  split at h
  · exact ⟨‹_›, h⟩
  · cases h

theorem only_of {P : ι → Bool} {s t : σ} {i : ι} (hi : P i = true) (h : step s i = some t) :
    only P step s i = some t := by
  rw [only, if_pos hi]
  exact h

theorem run_only {P : ι → Bool} :
    ∀ {is : List ι} {s t : σ}, (∀ i ∈ is, P i = true) → run step s is = some t →
      run (only P step) s is = some t
  | [], _, _, _, h => h
  | i :: _, _, _, hP, h => by
    obtain ⟨u, hu, hrun⟩ := run_cons_inv h
    exact run_cons (only_of (hP i (.head _)) hu) (run_only (fun j hj => hP j (.tail _ hj)) hrun)

theorem Reach.of_only {P : ι → Bool} {s t : σ} (h : Reach (only P step) s t) : Reach step s t :=
  h.mono fun _ _ _ h => (only_inv h).2

/-- What follows from the end of a run that is known to go through. -/
theorem run_of_isSome {o : Option σ} {P : Prop} (h : o.isSome = true)
    (hP : ∀ s, o = some s → P) : P := by
  obtain ⟨s, hs⟩ := Option.isSome_iff_exists.1 h
  exact hP s hs

/-- A run known to end in a state with `P`, and what follows from that. -/
theorem run_and {o : Option σ} {P Q : σ → Prop} (h : ∃ s, o = some s ∧ P s)
    (hQ : ∀ s, o = some s → P s → Q s) : ∃ s, o = some s ∧ P s ∧ Q s := by
  obtain ⟨s, ho, hp⟩ := h
  exact ⟨s, ho, hp, hQ s ho hp⟩

/-- **Lockstep rule.** If related states take every input alike, related states run alike. -/
theorem run_lockstep {τ : Type} {step' : τ → ι → Option τ} {R : σ → τ → Prop}
    (hstep : ∀ s t i, R s t → Option.Rel R (step s i) (step' t i)) :
    ∀ {is : List ι} {s : σ} {t : τ}, R s t → Option.Rel R (run step s is) (run step' t is)
  | [], _, _, h => .some h
  | i :: is, s, t, h => by
    have hst := hstep s t i h
    revert hst
    simp only [run]
    cases step s i <;> cases step' t i <;> intro hst <;> cases hst
    · exact .none
    · rename_i hst
      exact run_lockstep hstep hst

/-- The inputs `tr` makes of those of a run, each in the state it is taken in. -/
def translated {ι' : Type} (step : σ → ι → Option σ) (tr : σ → ι → List ι') : σ → List ι → List ι'
  | _, [] => []
  | s, i :: is => tr s i ++ (step s i).elim [] fun t => translated step tr t is

/-- **Simulation rule.** If related states stay related when one takes an input and the other
the inputs it is translated to, a whole run is matched by its translation. -/
theorem run_translated {τ ι' : Type} {step' : τ → ι' → Option τ} {R : σ → τ → Prop}
    {tr : σ → ι → List ι'}
    (hstep : ∀ s i s' t, R s t → step s i = some s' →
      ∃ t', run step' t (tr s i) = some t' ∧ R s' t') :
    ∀ {is : List ι} {s u : σ} {t : τ}, R s t → run step s is = some u →
      ∃ t', run step' t (translated step tr s is) = some t' ∧ R u t'
  | [], _, _, t, h, hr => by cases hr; exact ⟨t, rfl, h⟩
  | i :: is, s, u, t, h, hr => by
    obtain ⟨s', h1, h2⟩ := run_cons_inv hr
    obtain ⟨v, hv, hsv⟩ := hstep s i s' t h h1
    obtain ⟨t', ht', hu⟩ := run_translated hstep hsv h2
    refine ⟨t', ?_, hu⟩
    simp only [translated, h1, Option.elim_some, run_append, hv, Option.bind_some]
    exact ht'

/-- What the inputs of a run cost, each in the state it is taken in. -/
def tally (step : σ → ι → Option σ) (cost : σ → ι → Nat) : σ → List ι → Nat
  | _, [] => 0
  | s, i :: is => cost s i + (step s i).elim 0 fun t => tally step cost t is

theorem tally_add (f g : σ → ι → Nat) (a b : Nat) (s : σ) (is : List ι) :
    tally step (fun s i => a * f s i + b * g s i) s is =
      a * tally step f s is + b * tally step g s is := by
  induction is generalizing s with
  | nil => rfl
  | cons i is ih =>
    simp only [tally]
    cases step s i with
    | none => simp
    | some t =>
      simp only [Option.elim_some, ih, Nat.mul_add]
      omega

/-- **Charging rule.** If every step pays for itself and for what the potential grows by, the
charges of a run cover its costs. -/
theorem tally_le {I : σ → Prop} {f g : σ → ι → Nat} {φ : σ → Nat}
    (hI : ∀ s i t, I s → step s i = some t → I t)
    (hstep : ∀ s i t, I s → step s i = some t → f s i + φ t ≤ φ s + g s i) :
    ∀ {is : List ι} {s u : σ}, I s → run step s is = some u →
      tally step f s is + φ u ≤ φ s + tally step g s is
  | [], _, _, _, hr => by cases hr; simp [tally]
  | i :: is, s, u, hs, hr => by
    obtain ⟨t, h1, h2⟩ := run_cons_inv hr
    have hrest := tally_le hI hstep (hI s i t hs h1) h2
    have hone := hstep s i t hs h1
    simp only [tally, h1, Option.elim_some]
    omega

/-- **Conditional invariant rule.** What every step that meets `C` keeps holds in
every state of a run whose steps all meet `C`. -/
theorem Meets.along {I : σ → Prop} {C : σ → ι → Prop}
    (hstep : ∀ s i t, I s → C s i → step s i = some t → I t) :
    ∀ {is : List ι} {s : σ}, I s → Meets step C s is → Along step I s is
  | [], _, hs, _ => hs
  | _ :: _, _, hs, hm => ⟨hs, fun _ h => (hm.2 _ h).along hstep (hstep _ _ _ hs hm.1 h)⟩

/-- Under an invariant, a condition on the inputs that gives another gives it all along. -/
theorem Meets.imp {I : σ → Prop} {C D : σ → ι → Prop}
    (hI : ∀ s i t, I s → step s i = some t → I t) (hCD : ∀ s i, I s → C s i → D s i) :
    ∀ {is : List ι} {s : σ}, I s → Meets step C s is → Meets step D s is
  | [], _, _, _ => trivial
  | _ :: _, _, hs, hm =>
    ⟨hCD _ _ hs hm.1, fun _ h => (hm.2 _ h).imp hI hCD (hI _ _ _ hs h)⟩

theorem meets_congr {C D : σ → ι → Prop} (h : ∀ s i, C s i ↔ D s i) (s : σ) (is : List ι) :
    Meets step C s is ↔ Meets step D s is :=
  have keep : ∀ s i t, True → step s i = some t → True := fun _ _ _ h _ => h
  ⟨Meets.imp keep (fun s i _ => (h s i).1) trivial, Meets.imp keep (fun s i _ => (h s i).2) trivial⟩

theorem Along.head {P : σ → Prop} {s : σ} {is : List ι} (h : Along step P s is) : P s := by
  cases is with
  | nil => exact h
  | cons i is => exact h.1

theorem Along.last {P : σ → Prop} : ∀ {is : List ι} {s t : σ}, Along step P s is →
    run step s is = some t → P t
  | [], _, _, h, hr => by cases hr; exact h
  | _ :: _, _, _, h, hr => by
    obtain ⟨u, h1, h2⟩ := run_cons_inv hr
    exact (h.2 u h1).last h2

theorem Along.imp {P Q : σ → Prop} (hPQ : ∀ s, P s → Q s) :
    ∀ {is : List ι} {s : σ}, Along step P s is → Along step Q s is
  | [], _, h => hPQ _ h
  | _ :: _, _, h => ⟨hPQ _ h.1, fun _ ht => (h.2 _ ht).imp hPQ⟩

/-- **Exactness rule.** Let `J` be kept by the steps that keep `P`. If, under `J`,
a step keeps `P` exactly when it meets `C`, then `P` holds all along a run exactly
when every step of the run meets `C`. -/
theorem along_iff_meets {J P : σ → Prop} {C : σ → ι → Prop}
    (hJ : ∀ s i t, J s → P s → step s i = some t → P t → J t)
    (hP : ∀ s i t, J s → P s → step s i = some t → (P t ↔ C s i)) :
    ∀ {is : List ι} {s u : σ}, J s → P s → run step s is = some u →
      (Along step P s is ↔ Meets step C s is)
  | [], _, _, _, hp, _ => by simp [Along, Meets, hp]
  | i :: is, s, u, hj, hp, hr => by
    obtain ⟨t, h1, h2⟩ := run_cons_inv hr
    have hto : ∀ {Q : σ → Prop}, (∀ t', step s i = some t' → Q t') ↔ Q t := by
      intro Q
      refine ⟨fun h => h t h1, fun h t' ht' => ?_⟩
      cases h1.symm.trans ht'
      exact h
    simp only [Along, Meets, hto]
    constructor
    · intro ⟨_, ha⟩
      have hpt := ha.head
      exact ⟨(hP s i t hj hp h1).1 hpt,
        (along_iff_meets hJ hP (hJ s i t hj hp h1 hpt) hpt h2).1 ha⟩
    · intro ⟨hc, hm⟩
      have hpt := (hP s i t hj hp h1).2 hc
      exact ⟨hp, (along_iff_meets hJ hP (hJ s i t hj hp h1 hpt) hpt h2).2 hm⟩

end NetBase.Lib
