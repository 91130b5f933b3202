import NetBase.Base.TimerFire
import NetBase.Lib.PriorityQueue

/-!
# A timer manager used by several threads

The calls of `TimerManager` from any number of threads. `timer_mutex_` makes each locked section
one step; what a call does outside of it is a step of its own. `takeExpiredTimers` reads the
clock before it locks, so its `cur_ms` may be older than what other threads have taken, added or
cancelled meanwhile, and `takeFirstIfExpired` is told the time by its caller. Nothing is assumed
about the clock.

`trace` is the history of the multiset as a queue by target; the manager keeps it right whatever
the interleaving, while nobody cancels a timer whose target is not pending any more.
-/

namespace NetBase

open Lib TimerManager

variable {κ : Type}

structure SharedTimers (κ : Type) where
  mgr : TimerManager κ := {}
  /-- Timer objects some caller holds a pointer to. -/
  objects : List (Timer κ) := []
  /-- Clock readings made so far. -/
  reads : Nat := 0
  /-- `cur_ms` of the threads that wait for the lock in `takeExpiredTimers`. -/
  curMs : Nat → Option Nat := fun _ => none
  /-- What went in and out, with the time the taker went by. -/
  trace : List (Prio.Event (Timer κ) Nat) := []

inductive SharedOp (κ : Type) where
  | newTimer (interval : Nat) (callback : κ) (repeats : Bool)
  | addTimer (t : Timer κ)
  /-- `takeExpiredTimers` up to its lock. -/
  | currentMs (thread : Nat)
  /-- The locked section of `takeExpiredTimers`. -/
  | takeExpiredTimers (thread : Nat)
  | takeFirstIfExpired (curMs : Nat)
  | removeTimer (t : Timer κ) (pick : Nat)

namespace SharedTimers

/-- The timers `result` come out at `now`; `m` is the manager after their repetitions went in. -/
def takes (clock : Nat → Nat) (s : SharedTimers κ) (now : Nat) (result : List (Timer κ))
    (m : TimerManager κ) : SharedTimers κ :=
  let copies := repetitions s.mgr.nextId (fun n => clock (s.reads + n)) result
  { s with
    mgr := m
    objects := s.objects ++ result
    reads := s.reads + copies.length
    trace := s.trace ++ result.map (.out now) ++ copies.map .ins }

/-- The readings of a caller that has made its first one already. -/
def firstly (now : Nat) (clock : Nat → Nat) (n : Nat) : Nat :=
  if n = 0 then now else clock (n - 1)

/-- An assertion of `addTimer` that fails is no step. `removeTimer` is one as long as a timer with
the target of the cancelled one is pending; where the last of them has been taken, by whichever
thread, the call erases `end()` and nothing is said of what follows. -/
def step [DecidableEq κ] (clock : Nat → Nat) (s : SharedTimers κ) :
    SharedOp κ → Option (SharedTimers κ)
  | .newTimer interval callback repeats =>
    let (t, m) := s.mgr.newTimer (clock s.reads) interval (some callback) repeats
    some { s with mgr := m, objects := s.objects ++ [t], reads := s.reads + 1 }
  | .addTimer t =>
    if s.objects.contains t then
      match s.mgr.addTimer t with
      | .ok m => some { s with mgr := m, trace := s.trace ++ [.ins t] }
      | .error _ => none
    else none
  | .currentMs thread =>
    match s.curMs thread with
    | none =>
      some { s with
        curMs := Function.update s.curMs thread (some (clock s.reads))
        reads := s.reads + 1 }
    | some _ => none
  | .takeExpiredTimers thread =>
    match s.curMs thread with
    | none => none
    | some now =>
      let (result, m) := s.mgr.takeExpiredTimers (firstly now fun n => clock (s.reads + n))
      some ({ s with curMs := Function.update s.curMs thread none }.takes clock now result m)
  | .takeFirstIfExpired now =>
    match s.mgr.takeFirstIfExpired now fun n => clock (s.reads + n) with
    | (_, some t, m) => some (s.takes clock now [t] m)
    | (_, none, m) => some { s with mgr := m }
  | .removeTimer t pick =>
    if s.objects.contains t then
      match s.mgr.removeTimer pick (some t) with
      | .ok m =>
        let found := (Multi.find key pick t.targetTimestamp s.mgr.timers).bind (s.mgr.timers[·]?)
        some { s with mgr := m, trace := s.trace ++ found.toList.map .dropped }
      | .error _ => none
    else none

/-- A taker's grounds: the target is not past the time it went by. -/
def due (now : Nat) (t : Timer κ) : Prop := t.targetTimestamp ≤ now

variable [DecidableEq κ] {clock : Nat → Nat} {s s' : SharedTimers κ}

/-- The multiset is what its history leaves waiting, in order, and the history is right. -/
structure Good (s : SharedTimers κ) : Prop where
  ordered : s.mgr.Ordered
  waits : Prio.waiting s.trace = ↑s.mgr.timers
  right : Each (Prio.Right key due) s.trace

omit [DecidableEq κ] in
theorem addRepeats_perm {ts : List (Timer κ)} : ∀ {m : TimerManager κ} {clock : Nat → Nat},
    (m.addRepeats clock ts).timers.Perm (m.timers ++ repetitions m.nextId clock ts) := by
  induction ts with
  | nil => intro m clock; simp [addRepeats, repetitions]
  | cons t ts ih =>
    intro m clock
    unfold addRepeats repetitions
    split
    · refine ih.trans ?_
      refine ((Multi.insert_perm _ m.timers).append_right _).trans ?_
      exact (List.perm_middle).symm
    · exact ih

/-- Both takes hand out the front of the multiset and put the repetitions in afterwards. -/
theorem takes_good {now : Nat} {result rest : List (Timer κ)} (h : Good s)
    (hs : s.mgr.timers = result ++ rest) (hdue : ∀ t ∈ result, t.targetTimestamp ≤ now) :
    Good (s.takes clock now result
      ({ s.mgr with timers := rest }.addRepeats (fun n => clock (s.reads + n)) result)) := by
  have hsorted : (result ++ rest).Pairwise fun a b => key a ≤ key b := hs ▸ h.ordered
  have hdue' : ∀ t ∈ result, due now t := hdue
  have houts := Prio.right_outs h.right (by rw [h.waits, hs]) hsorted hdue'
  have hins := Prio.right_ins houts.1
    (repetitions s.mgr.nextId (fun n => clock (s.reads + n)) result)
  have hrest : ({ s.mgr with timers := rest } : TimerManager κ).Ordered :=
    (List.pairwise_append.1 hsorted).2.1
  have hperm := @addRepeats_perm κ result { s.mgr with timers := rest } fun n => clock (s.reads + n)
  refine ⟨hrest.addRepeats, ?_, hins.1⟩
  refine hins.2.trans ?_
  rw [houts.2, Multiset.coe_add]
  exact Multiset.coe_eq_coe.2 hperm.symm

theorem take_good {thread now : Nat} (h : Good s) :
    Good ({ s with curMs := Function.update s.curMs thread none }.takes clock now
      (s.mgr.takeExpiredTimers (firstly now fun n => clock (s.reads + n))).1
      (s.mgr.takeExpiredTimers (firstly now fun n => clock (s.reads + n))).2) := by
  have hs' : Good { s with curMs := Function.update s.curMs thread none } :=
    ⟨h.ordered, h.waits, h.right⟩
  refine takes_good hs' (List.take_append_drop _ _).symm fun t ht => ?_
  have hdue := (mem_takeExpired h.ordered).1 ht
  exact hdue.2

theorem takeFirst_good {now : Nat} (h : Good s)
    (hs : step clock s (.takeFirstIfExpired now) = some s') : Good s' := by
  unfold step TimerManager.takeFirstIfExpired at hs
  cases hm : s.mgr.timers with
  | nil =>
    simp only [hm] at hs
    cases hs
    exact h
  | cons t rest =>
    simp only [hm] at hs
    by_cases hd : t.targetTimestamp ≤ now
    · simp only [hd, if_true] at hs
      cases hs
      exact takes_good h hm fun x hx => by rwa [List.mem_singleton.1 hx]
    · simp only [hd, if_false] at hs
      cases hs
      exact h

theorem remove_good {t : Timer κ} {pick : Nat} (h : Good s)
    (hs : step clock s (.removeTimer t pick) = some s') : Good s' := by
  unfold step TimerManager.removeTimer at hs
  simp only at hs
  split at hs
  · cases hf : Multi.find key pick t.targetTimestamp s.mgr.timers with
    | none => simp [hf] at hs
    | some i =>
      obtain ⟨-, x, -, -, hx, -⟩ := Multi.find_some h.ordered hf
      simp only [hf, Option.bind_some, hx] at hs
      cases hs
      obtain ⟨hi, hxi⟩ := List.getElem?_eq_some_iff.1 hx
      have hperm : (x :: s.mgr.timers.eraseIdx i).Perm s.mgr.timers := by
        rw [← hxi]
        exact List.getElem_cons_eraseIdx_perm hi
      refine ⟨h.ordered.sublist (List.eraseIdx_sublist _ _), ?_, each_snoc.2 ⟨h.right, ?_⟩⟩
      · show Prio.waiting (s.trace ++ [.dropped x]) = _
        rw [Prio.waiting_snoc, Prio.Event.queue, h.waits, Multiset.coe_erase]
        exact Multiset.coe_eq_coe.2 ((hperm.erase x).symm.trans (by simp))
      · show x ∈ Prio.waiting s.trace
        rw [h.waits]
        exact Multiset.mem_coe.2 (hperm.subset List.mem_cons_self)
  · cases hs

theorem step_good {op : SharedOp κ} (h : Good s) (hs : step clock s op = some s') : Good s' := by
  cases op with
  | newTimer interval callback repeats =>
    cases hs
    exact ⟨h.ordered, h.waits, h.right⟩
  | addTimer t =>
    unfold step TimerManager.addTimer at hs
    simp only at hs
    split at hs
    · by_cases hc : t.callback.isSome = true
      · simp only [hc, if_true] at hs
        cases hs
        refine ⟨h.ordered.insert t, ?_, each_snoc.2 ⟨h.right, trivial⟩⟩
        rw [Prio.waiting_snoc, Prio.Event.queue, h.waits]
        exact Multiset.coe_eq_coe.2 (Multi.insert_perm t s.mgr.timers).symm
      · simp [hc] at hs
    · cases hs
  | currentMs thread =>
    unfold step at hs
    simp only at hs
    split at hs <;> cases hs
    exact ⟨h.ordered, h.waits, h.right⟩
  | takeExpiredTimers thread =>
    unfold step at hs
    simp only at hs
    split at hs <;> cases hs
    exact take_good h
  | takeFirstIfExpired now => exact takeFirst_good h hs
  | removeTimer t pick => exact remove_good h hs

/-- What every interleaving keeps. -/
structure InDeadlineOrder (s : SharedTimers κ) : Prop where
  /-- A timer handed out later has no earlier target, unless it was put in after the other one
  had been handed out. -/
  order : ∀ before now x mid now' y after,
    s.trace = before ++ .out now x :: (mid ++ .out now' y :: after) →
      x.targetTimestamp ≤ y.targetTimestamp ∨ .ins y ∈ mid
  /-- No timer is handed out before its target. -/
  due : ∀ now x, .out now x ∈ s.trace → x.targetTimestamp ≤ now
  /-- What was put in, as often as it was, has been handed out, was cancelled or is pending. -/
  balance : (s.trace.map Prio.Event.inserted).sum =
    (s.trace.map Prio.Event.left).sum + ↑s.mgr.timers

/-- **Deadline order.** However the calls of the threads interleave and whatever the clock reads,
if the target of every timer is still pending when it is cancelled. -/
theorem shared_deadline_order (hr : Reach (step clock) {} s) : InDeadlineOrder s := by
  have h : Good s := hr.inv ⟨List.Pairwise.nil, rfl, each_nil⟩ fun _ _ _ => step_good
  refine ⟨fun before now x mid now' y after hs => Prio.out_order h.right hs,
    fun now x hx => ?_, ?_⟩
  · obtain ⟨before, after, hs⟩ := List.append_of_mem hx
    exact (h.right before _ after hs).2.1
  · rw [← h.waits]
    exact Prio.balance h.right

/-- Two threads read the clock in one order and lock in the other; the one with the older reading
takes what the other one has left it. -/
theorem shared_deadline_order_stale : ∃ s,
    run (step fun n => 10 * n) ({} : SharedTimers Nat)
      [.newTimer 15 7 false, .addTimer (.make 0 0 0 15 (some 7) false),
        .currentMs 1, .currentMs 2, .takeExpiredTimers 2,
        .newTimer 0 8 false, .addTimer (.make 1 1 30 0 (some 8) false),
        .takeExpiredTimers 1, .takeFirstIfExpired 40] = some s ∧
    s.trace.length = 4 ∧ InDeadlineOrder s :=
  run_and ⟨_, rfl, by decide +kernel⟩ fun _ hs _ => shared_deadline_order ⟨_, hs⟩

end SharedTimers

end NetBase
