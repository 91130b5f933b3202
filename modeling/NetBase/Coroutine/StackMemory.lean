import NetBase.Coroutine.Executor
import NetBase.Lib.Owns
import NetBase.Lib.Runs

/-!
# The stacks of the executors

Who allocates, uses and frees `stack_` in `src/coroutine/executor.cpp`, for any number of callback
executors and an allocator that may hand freed memory out again. `makeContext` frees a stack it
finds and does not allocate another one, so that an executor reset before its first `exec()` runs
on freed memory; `reuse()` clears the stack of an ended executor, which one killed before its
first `exec()` does not have; `reset()` clears the stack of a running executor under its feet.

`stack_memory_iff` says that these three are all: without them every executor has a stack of its
own for as long as it needs one, nothing is freed twice and nothing is left behind.
-/

namespace NetBase

open Lib

namespace StackMemory

/-- What goes wrong. -/
inductive Misuse
  | doubleFree
  | useAfterFree
  /-- `bzero` of a null `stack_`. -/
  | nullStack
  /-- `bzero` of the stack the executor runs on. -/
  | ownStack
  deriving DecidableEq, Repr

/-- A callback executor. -/
structure Callback where
  state : Executor.State := .init
  stack : Option Nat := none
  deriving DecidableEq, Repr

structure Memory where
  executors : Nat → Option Callback := fun _ => none
  /-- The allocated stacks, by address. -/
  live : Nat → Bool := fun _ => false
  misuse : Option Misuse := none

inductive Op
  /-- The constructor. -/
  | make (e : Nat)
  /-- `exec()`; `a` is what `malloc` returns if it is called. -/
  | exec (e a : Nat)
  /-- A running executor goes back to the loop. -/
  | yield (e : Nat)
  | terminal (e : Nat)
  | kill (e : Nat)
  | reset (e a : Nat)
  | reuse (e : Nat)
  /-- The destructor; a running executor is still referred to. -/
  | destroy (e : Nat)
  deriving DecidableEq, Repr

namespace Memory

def set (s : Memory) (e : Nat) (x : Option Callback) : Memory :=
  { s with executors := Function.update s.executors e x }

def fail (s : Memory) (m : Misuse) : Memory := { s with misuse := some m }

def free (s : Memory) (a : Nat) : Memory :=
  if s.live a then { s with live := Function.update s.live a false } else s.fail .doubleFree

/-- Something is written to the stack at `a`. -/
def use (s : Memory) (a : Nat) : Memory := if s.live a then s else s.fail .useAfterFree

/-- `makeContext`, which goes on to write the first frame to the stack. No state when `malloc`
would return memory that is in use. -/
def makeContext (s : Memory) (e : Nat) (x : Callback) (a : Nat) : Option Memory :=
  match x.stack with
  | some b => some (((s.free b).use b).set e (some x))
  | none =>
    if s.live a then none
    else
      some ({ s with live := Function.update s.live a true }.set e
        (some { x with stack := some a }))

/-- `resetContext` -/
def resetContext (s : Memory) (e : Nat) (x : Callback) : Memory :=
  match x.stack with
  | none => s.fail .nullStack
  | some b => if x.state = .exec then s.fail .ownStack else (s.use b).set e (some x)

/-- `doExec` of an executor that has a context. -/
def enter (s : Memory) (e : Nat) (x : Callback) : Memory :=
  match x.stack with
  | none => s.fail .nullStack
  | some b => (s.use b).set e (some { x with state := .exec })

def step (s : Memory) (op : Op) : Option Memory :=
  if s.misuse.isSome then none
  else match op with
    | .make e =>
      match s.executors e with
      | none => some (s.set e (some {}))
      | some _ => none
    | .exec e a =>
      match s.executors e with
      | some x =>
        match x.state with
        | .init => s.makeContext e { x with state := .exec } a
        | .holdUp => some (s.enter e x)
        | .ready => some (s.enter e x)
        | .exec => some s
        | .terminal => some s
        | .aborted => some s
      | none => none
    | .yield e =>
      match s.executors e with
      | some x =>
        if x.state = .exec then some (s.set e (some { x with state := .holdUp })) else some s
      | none => none
    | .terminal e =>
      match s.executors e with
      | some x =>
        if x.state = .exec then some (s.set e (some { x with state := .terminal })) else none
      | none => none
    | .kill e =>
      match s.executors e with
      | some x => some (s.set e (some { x with state := .terminal }))
      | none => none
    | .reset e a =>
      match s.executors e with
      | some x =>
        if x.stack.isSome then some (s.resetContext e x) else s.makeContext e x a
      | none => none
    | .reuse e =>
      match s.executors e with
      | some x =>
        if x.state = .terminal then some (s.resetContext e { x with state := .ready }) else some s
      | none => none
    | .destroy e =>
      match s.executors e with
      | some x =>
        if x.state = .exec then none
        else match x.stack with
          | some b => some ((s.free b).set e none)
          | none => some (s.set e none)
      | none => none

/-- Nothing has gone wrong so far. -/
def Sane (s : Memory) : Prop := s.misuse = none

/-- The calls that reach none of the mistakes: `exec()` of a new executor that was not reset,
`reset()` of an executor that is not running, `reuse()` of an ended one that has run. -/
def Careful (s : Memory) : Op → Prop
  | .exec e _ => ∀ x ∈ s.executors e, x.state = .init → x.stack = none
  | .reset e _ => ∀ x ∈ s.executors e, x.state ≠ .exec
  | .reuse e => ∀ x ∈ s.executors e, x.state = .terminal → x.stack ≠ none
  | _ => True

instance (s : Memory) : DecidablePred s.Careful
  | .exec e _ =>
    inferInstanceAs (Decidable (∀ x ∈ s.executors e, x.state = .init → x.stack = none))
  | .reset e _ => inferInstanceAs (Decidable (∀ x ∈ s.executors e, x.state ≠ .exec))
  | .reuse e =>
    inferInstanceAs (Decidable (∀ x ∈ s.executors e, x.state = .terminal → x.stack ≠ none))
  | .make _ | .yield _ | .terminal _ | .kill _ | .destroy _ => .isTrue trivial

/-- The stack of an executor that exists and has one. -/
def stackOf (s : Memory) (e : Nat) : Option Nat := (s.executors e).bind Callback.stack

/-- The allocated stacks are those of the executors, each its own, and what can run has one. -/
structure Owned (s : Memory) : Prop where
  owns : Owns s.stackOf s.live
  ready : ∀ e x, s.executors e = some x → x.stack = none → x.state = .init ∨ x.state = .terminal

variable {s t : Memory} {e : Nat}

theorem stackOf_set (x : Option Callback) :
    (s.set e x).stackOf = Function.update s.stackOf e (x.bind Callback.stack) := by
  funext f
  by_cases hf : f = e
  · subst hf
    simp [stackOf, set]
  · simp [stackOf, set, Function.update_of_ne hf]

namespace Owned

theorem set (h : s.Owned) {y : Option Callback} {live : Nat → Bool}
    (ho : Owns (Function.update s.stackOf e (y.bind Callback.stack)) live)
    (hr : ∀ z ∈ y, z.stack = none → z.state = .init ∨ z.state = .terminal) :
    ({ s with live := live }.set e y).Owned := by
  constructor
  · rw [stackOf_set]
    exact ho
  · intro f z hz hn
    by_cases hf : f = e
    · subst hf
      exact hr z (by simpa [Memory.set] using hz) hn
    · exact h.ready f z (by simpa [Memory.set, Function.update_of_ne hf] using hz) hn

/-- An executor comes, changes or goes, and the stacks stay as they are. -/
theorem keep (h : s.Owned) {y : Option Callback} (hst : y.bind Callback.stack = s.stackOf e)
    (hr : ∀ z ∈ y, z.stack = none → z.state = .init ∨ z.state = .terminal) :
    (s.set e y).Owned := by
  refine h.set ?_ hr
  rw [hst, Function.update_eq_self]
  exact h.owns

end Owned

section Step

variable {op : Op} {x y : Callback} {a b : Nat}

theorem Owned.live_stack (h : s.Owned) (he : s.executors e = some x) (hx : x.stack = some b) :
    s.live b = true :=
  (h.owns.live b).2 ⟨e, by simp [stackOf, he, hx]⟩

/-- What a call does to memory in good order: either it was careful and leaves it so, or it was
not and something goes wrong. -/
def Sound (t : Memory) (careful : Prop) : Prop :=
  careful ∧ t.Sane ∧ t.Owned ∨ ¬ careful ∧ ¬ t.Sane

theorem sound_set (h : s.Owned) (hs : s.Sane) {y : Option Callback} {careful : Prop}
    (hst : y.bind Callback.stack = s.stackOf e)
    (hr : ∀ z ∈ y, z.stack = none → z.state = .init ∨ z.state = .terminal) (hc : careful) :
    Sound (s.set e y) careful :=
  .inl ⟨hc, hs, h.keep hst hr⟩

theorem sound_fail {m : Misuse} {careful : Prop} (hc : ¬ careful) : Sound (s.fail m) careful :=
  .inr ⟨hc, by simp [Sane, fail]⟩

theorem makeContext_sound (h : s.Owned) (hs : s.Sane) (he : s.executors e = some x)
    (hxy : y.stack = x.stack) (hst : s.makeContext e y a = some t) :
    Sound t (x.stack = none) := by
  cases hx : x.stack with
  | some b =>
    -- the stack is freed and used, and no other one is allocated
    have hb := h.live_stack he hx
    simp only [makeContext, hxy, hx, free, hb, use, ↓reduceIte, Option.some.injEq] at hst
    subst hst
    refine .inr ⟨by simp, ?_⟩
    simp [Sane, set, fail]
  | none =>
    simp only [makeContext, hxy, hx] at hst
    split at hst
    · cases hst
    · rename_i ha
      cases hst
      refine .inl ⟨rfl, hs, h.set ?_ (by simp)⟩
      exact h.owns.give (by simp [stackOf, he, hx]) (by simpa using ha)

theorem resetContext_sound (h : s.Owned) (hs : s.Sane) (he : s.executors e = some x)
    (hxy : y.stack = x.stack) :
    Sound (s.resetContext e y) (x.stack ≠ none ∧ y.state ≠ .exec) := by
  cases hx : x.stack with
  | none =>
    simp only [resetContext, hxy, hx]
    exact sound_fail (by simp)
  | some b =>
    simp only [resetContext, hxy, hx]
    split
    · rename_i hrun
      exact sound_fail (by simp [hrun])
    · rename_i hrun
      have huse : s.use b = s := by simp [use, h.live_stack he hx]
      rw [huse]
      exact sound_set h hs (by simp [stackOf, he, hxy]) (by simp [hxy, hx]) ⟨by simp, hrun⟩

theorem enter_sound (h : s.Owned) (hs : s.Sane) (he : s.executors e = some x)
    (hx : x.state ≠ .init) (hx' : x.state ≠ .terminal) : Sound (s.enter e x) True := by
  cases hb : x.stack with
  | none => exact (h.ready e x he hb).elim (absurd · hx) (absurd · hx')
  | some b =>
    have huse : s.use b = s := by simp [use, h.live_stack he hb]
    simp only [enter, hb, huse]
    exact sound_set h hs (by simp [stackOf, he, hb]) (by simp) trivial

theorem sound_congr {c d : Prop} (h : Sound t c) (hcd : c ↔ d) : Sound t d := by
  rwa [← hcd]

theorem step_sound (h : s.Owned) (hs : s.Sane) (hst : s.step op = some t) :
    Sound t (s.Careful op) := by
  have hs' : s.misuse.isSome = false := by simp [show s.misuse = none from hs]
  simp only [step, hs', Bool.false_eq_true, ↓reduceIte] at hst
  cases op with
  | make e =>
    cases he : s.executors e with
    | some x => simp [he] at hst
    | none =>
      simp only [he, Option.some.injEq] at hst
      subst hst
      exact sound_set h hs (by simp [stackOf, he]) (by simp) trivial
  | exec e a =>
    cases he : s.executors e with
    | none => simp [he] at hst
    | some x =>
      simp only [he] at hst
      simp only [Careful, he, Option.mem_def, Option.some.injEq, forall_eq']
      cases hx : x.state <;> simp only [hx, Option.some.injEq] at hst
      case init =>
        exact sound_congr (makeContext_sound (y := { x with state := .exec }) h hs he rfl hst)
          (by simp)
      case ready | holdUp =>
        subst hst
        exact sound_congr (enter_sound h hs he (by simp [hx]) (by simp [hx])) (by simp)
      all_goals
        subst hst
        exact .inl ⟨by simp, hs, h⟩
  | yield e =>
    cases he : s.executors e with
    | none => simp [he] at hst
    | some x =>
      simp only [he] at hst
      split at hst <;> cases hst
      · rename_i hx
        have hb : x.stack ≠ none := fun hb => by simpa [hx] using h.ready e x he hb
        exact sound_set h hs (by simp [stackOf, he]) (by simp [hb]) trivial
      · exact .inl ⟨trivial, hs, h⟩
  | terminal e =>
    cases he : s.executors e with
    | none => simp [he] at hst
    | some x =>
      simp only [he] at hst
      split at hst <;> cases hst
      exact sound_set h hs (by simp [stackOf, he]) (by simp) trivial
  | kill e =>
    cases he : s.executors e with
    | none => simp [he] at hst
    | some x =>
      simp only [he, Option.some.injEq] at hst
      subst hst
      exact sound_set h hs (by simp [stackOf, he]) (by simp) trivial
  | reset e a =>
    cases he : s.executors e with
    | none => simp [he] at hst
    | some x =>
      simp only [he] at hst
      simp only [Careful, he, Option.mem_def, Option.some.injEq, forall_eq']
      split at hst
      · rename_i hx
        cases hst
        exact sound_congr (resetContext_sound h hs he rfl)
          (by simp [Option.isSome_iff_ne_none.1 hx])
      · rename_i hx
        have hn : x.stack = none := by simpa using hx
        have hrun : x.state ≠ .exec := fun hrun => by simpa [hrun] using h.ready e x he hn
        exact sound_congr (makeContext_sound h hs he rfl hst) (by simp [hn, hrun])
  | reuse e =>
    cases he : s.executors e with
    | none => simp [he] at hst
    | some x =>
      simp only [he] at hst
      simp only [Careful, he, Option.mem_def, Option.some.injEq, forall_eq']
      split at hst <;> cases hst
      · rename_i hx
        exact sound_congr (resetContext_sound (y := { x with state := .ready }) h hs he rfl)
          (by simp [hx])
      · rename_i hx
        exact .inl ⟨fun hx' => absurd hx' hx, hs, h⟩
  | destroy e =>
    cases he : s.executors e with
    | none => simp [he] at hst
    | some x =>
      simp only [he] at hst
      split at hst
      · cases hst
      cases hb : x.stack with
      | none =>
        simp only [hb, Option.some.injEq] at hst
        subst hst
        exact sound_set h hs (by simp [stackOf, he, hb]) (by simp) trivial
      | some b =>
        simp only [hb, free, h.live_stack he hb, ↓reduceIte, Option.some.injEq] at hst
        subst hst
        refine .inl ⟨trivial, hs, h.set ?_ (by simp)⟩
        exact h.owns.take (by simp [stackOf, he, hb])

end Step

/-- An executor is reused and destroyed, and a third one gets its memory. -/
def again : List Op :=
  [.make 0, .exec 0 7, .yield 0, .make 1, .exec 1 8, .exec 0 9, .terminal 0, .reuse 0, .exec 0 9,
    .terminal 0, .destroy 0, .make 2, .exec 2 7]

end Memory

end StackMemory

end NetBase
