import NetBase.Lib.Runs

/-!
# Operations under a lock

An `Object` has operations that run in small steps over shared data: `start` is where an operation
begins, `next` its next step, `none` when it has returned, and `env` what may happen to the data
from outside at any moment. `Locked` puts every operation between an acquisition and a release
of one lock. Calls wait for the lock as long as the scheduler likes.

`Locked.inv` is the rule for such an object: what the operations keep one after the other, in the
order they got the lock, holds under every interleaving. `Locked.program_order` says that this
order has every thread's calls in the order it made them.
-/

namespace NetBase.Lib

/-- `σ` is the shared data, `ο` the operations, `π` where an operation stands and `ε` what
happens outside. -/
structure Object (σ ο π ε : Type) where
  start : ο → π
  next : σ → π → Option (σ × π)
  env : σ → ε → Option σ

structure Locked (σ ο π : Type) where
  data : σ
  /-- The thread that has the lock, and where its operation stands. -/
  holder : Option (Nat × π) := none
  /-- The calls that wait for the lock. -/
  waiting : Nat → Option ο := fun _ => none
  /-- The calls in the order they were made. -/
  issued : List (Nat × ο) := []
  /-- The calls in the order they got the lock. -/
  order : List (Nat × ο) := []

inductive LockInput (ο ε : Type)
  | call (thread : Nat) (op : ο)
  | acquire (thread : Nat)
  /-- The next step of the operation that has the lock. -/
  | work
  | release
  | env (e : ε)

namespace Locked

variable {σ ο π ε : Type} (ob : Object σ ο π ε)

def step (s : Locked σ ο π) : LockInput ο ε → Option (Locked σ ο π)
  | .call t op =>
    if s.waiting t = none ∧ ∀ p ∈ s.holder, p.1 ≠ t then
      some { s with waiting := fun u => if u = t then some op else s.waiting u
                    issued := s.issued ++ [(t, op)] }
    else none
  | .acquire t =>
    match s.holder, s.waiting t with
    | none, some op =>
      some { s with holder := some (t, ob.start op)
                    waiting := fun u => if u = t then none else s.waiting u
                    order := s.order ++ [(t, op)] }
    | _, _ => none
  | .work =>
    match s.holder with
    | some (t, p) =>
      (ob.next s.data p).map fun (d, p') => { s with data := d, holder := some (t, p') }
    | none => none
  | .release =>
    match s.holder with
    | some (_, p) => if (ob.next s.data p).isNone then some { s with holder := none } else none
    | none => none
  | .env e => (ob.env s.data e).map fun d => { s with data := d }

/-- The operations in the order they got the lock. -/
def done (s : Locked σ ο π) : List ο := s.order.map Prod.snd

/-- `I` of the data while the lock is free, `M` while an operation stands at some place; both
say what the operations that got the lock so far come to. -/
def Holds (I : List ο → σ → Prop) (M : List ο → σ → π → Prop) (s : Locked σ ο π) : Prop :=
  match s.holder with
  | none => I s.done s.data
  | some (_, p) => M s.done s.data p

/-- What one operation after the other keeps. -/
structure Serial (I : List ο → σ → Prop) (M : List ο → σ → π → Prop) : Prop where
  start : ∀ ops op d, I ops d → M (ops ++ [op]) d (ob.start op)
  next : ∀ ops d p d' p', M ops d p → ob.next d p = some (d', p') → M ops d' p'
  finish : ∀ ops d p, M ops d p → ob.next d p = none → I ops d
  envFree : ∀ ops d e d', I ops d → ob.env d e = some d' → I ops d'
  envHeld : ∀ ops d p e d', M ops d p → ob.env d e = some d' → M ops d' p

variable {ob} {I : List ο → σ → Prop} {M : List ο → σ → π → Prop} {s s' : Locked σ ο π}

theorem step_holds {i : LockInput ο ε} (h : Serial ob I M) (hs : s.Holds I M)
    (hst : step ob s i = some s') : s'.Holds I M := by
  cases i with
  | call t op =>
    simp only [step] at hst
    split at hst <;> cases hst
    exact hs
  | acquire t =>
    simp only [step] at hst
    split at hst <;> cases hst
    rename_i op hh hw
    have hi : I s.done s.data := by simpa [Holds, hh] using hs
    simpa [Holds, done] using h.start s.done op s.data hi
  | work =>
    simp only [step] at hst
    split at hst
    · rename_i t p hh
      obtain ⟨⟨d, p'⟩, hn, hst⟩ := Option.map_eq_some_iff.1 hst
      cases hst
      have hm : M s.done s.data p := by simpa [Holds, hh] using hs
      exact h.next _ _ _ _ _ hm hn
    · cases hst
  | release =>
    simp only [step] at hst
    split at hst
    · rename_i t p hh
      split at hst <;> cases hst
      rename_i hn
      have hm : M s.done s.data p := by simpa [Holds, hh] using hs
      exact h.finish _ _ _ hm (Option.isNone_iff_eq_none.1 hn)
    · cases hst
  | env e =>
    obtain ⟨d, he, hst⟩ := Option.map_eq_some_iff.1 hst
    cases hst
    unfold Holds at hs ⊢
    cases hh : s.holder with
    | none =>
      rw [hh] at hs
      exact h.envFree _ _ _ _ hs he
    | some p =>
      rw [hh] at hs
      exact h.envHeld _ _ _ _ _ hs he

/-- **Lock rule.** -/
theorem inv {d : σ} (h : Serial ob I M) (hd : I [] d) (hr : Reach (step ob) { data := d } s) :
    s.Holds I M :=
  hr.inv hd fun _ _ _ => step_holds h

/-- What a thread has called is what got the lock, and then what waits for it. -/
def InOrder (s : Locked σ ο π) : Prop :=
  ∀ t, s.issued.filter (fun c => c.1 = t) =
    s.order.filter (fun c => c.1 = t) ++ (s.waiting t).toList.map fun op => (t, op)

theorem step_inOrder {i : LockInput ο ε} (hs : s.InOrder) (hst : step ob s i = some s') :
    s'.InOrder := by
  intro u
  have hu := hs u
  cases i with
  | call t op =>
    simp only [step] at hst
    split at hst <;> cases hst
    rename_i hfree
    by_cases htu : u = t
    · subst htu
      simp [List.filter_append, hu, hfree.1]
    · simp [List.filter_append, hu, htu, Ne.symm htu]
  | acquire t =>
    simp only [step] at hst
    split at hst <;> cases hst
    rename_i op hh hw
    by_cases htu : u = t
    · subst htu
      simp [List.filter_append, hu, hw]
    · simp [List.filter_append, hu, htu, Ne.symm htu]
  | work =>
    simp only [step] at hst
    split at hst
    · obtain ⟨_, -, hst⟩ := Option.map_eq_some_iff.1 hst
      cases hst
      exact hu
    · cases hst
  | release =>
    simp only [step] at hst
    split at hst
    · split at hst <;> cases hst
      exact hu
    · cases hst
  | env e =>
    obtain ⟨_, -, hst⟩ := Option.map_eq_some_iff.1 hst
    cases hst
    exact hu

theorem program_order {d : σ} (hr : Reach (step ob) { data := d } s) : s.InOrder :=
  hr.inv (fun _ => rfl) fun _ _ _ => step_inOrder

end Locked

end NetBase.Lib
