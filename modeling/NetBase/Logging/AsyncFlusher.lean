import NetBase.Lib.Runs

/-!
# The asynchronous flushers

`AsyncFlusher` of `include/logging/logger_flusher.h` with the worker loop and the destructor
that `AsyncStdoutLogFlusher` and `AsyncFileLogFlusher(const char*)` share word for word; they
differ in where `doFlush` puts a string. `α` is the type of strings, `output` what the
worker has handed on.

Threads interleave at every lock, wait, notification and read of `stop_`. A
notification with no waiter is lost, a wait may end without one. `notifies` counts the
`flush` calls that have pushed and not notified yet; they are all over when the destructor
starts.

The worker waits without asking whether anything is queued or whether it should stop, and tests
`stop_` without asking whether anything is queued. `loses_nothing` says that strings are
lost, and the destructor hangs, at these two places only.
-/

namespace NetBase.Logging

open Lib

/-- Where the worker stands. -/
inductive Worker
  /-- The condition of the loop. -/
  | check
  /-- About to lock the mutex for the wait. -/
  | lock
  /-- With the mutex, about to wait. -/
  | locked
  | waiting
  /-- Notified, about to get the mutex back. -/
  | woken
  | doFlush
  /-- In `doFlush`, with the mutex. -/
  | flushing
  | exited
  deriving DecidableEq, Repr

/-- Where the destructor stands. -/
inductive Destructor
  | notCalled
  /-- `stop_` is set, the notification is to come. -/
  | stopSet
  | joining
  | returned
  deriving DecidableEq, Repr

structure AsyncFlusher (α : Type) where
  stop : Bool := false
  logPool : List α := []
  worker : Worker := .check
  destructor : Destructor := .notCalled
  notifies : Nat := 0
  output : List α := []
  /-- Ghost: the strings pushed, in order. -/
  flushed : List α := []

inductive FlusherInput (α : Type)
  /-- `flush(str)` up to the notification. -/
  | push (str : α)
  /-- A `flush` notifies. -/
  | notify
  | spurious
  /-- The worker's next step. -/
  | work
  | setStop
  | notifyStop
  | join

namespace AsyncFlusher

variable {α : Type}

/-- The mutex is free: everybody else holds it within one step. -/
def mutexFree (s : AsyncFlusher α) : Bool := s.worker ≠ .locked ∧ s.worker ≠ .flushing

def notifyOne (s : AsyncFlusher α) : AsyncFlusher α :=
  if s.worker = .waiting then { s with worker := .woken } else s

def work (s : AsyncFlusher α) : Option (AsyncFlusher α) :=
  match s.worker with
  | .check => some { s with worker := if s.stop then .exited else .lock }
  | .lock => some { s with worker := .locked }
  | .locked => some { s with worker := .waiting }
  | .waiting => none
  | .woken => some { s with worker := .doFlush }
  | .doFlush => some { s with worker := .flushing }
  | .flushing =>
    match s.logPool with
    | [] => some { s with worker := .check }
    | str :: rest => some { s with logPool := rest, output := s.output ++ [str] }
  | .exited => none

def step (s : AsyncFlusher α) : FlusherInput α → Option (AsyncFlusher α)
  | .push str =>
    if s.destructor = .notCalled ∧ s.mutexFree then
      some { s with logPool := s.logPool ++ [str], flushed := s.flushed ++ [str],
                    notifies := s.notifies + 1 }
    else none
  | .notify =>
    if 0 < s.notifies then some { s.notifyOne with notifies := s.notifies - 1 } else none
  | .spurious => if s.worker = .waiting then some { s with worker := .woken } else none
  | .work => s.work
  | .setStop =>
    if s.destructor = .notCalled ∧ s.notifies = 0 ∧ s.mutexFree then
      some { s with stop := true, destructor := .stopSet }
    else none
  | .notifyStop =>
    if s.destructor = .stopSet then some { s.notifyOne with destructor := .joining } else none
  | .join =>
    if s.destructor = .joining ∧ s.worker = .exited then some { s with destructor := .returned }
    else none

/-- The worker waits for a notification nobody will issue, and the destructor for the worker. -/
def Hangs (s : AsyncFlusher α) : Prop :=
  s.worker = .waiting ∧ s.stop = true ∧ s.notifies = 0 ∧ s.destructor ≠ .stopSet

/-- Once the destructor has returned everything flushed has been output, once and in order; and
it never hangs. -/
def LosesNothing (s : AsyncFlusher α) : Prop :=
  (s.destructor = .returned → s.output = s.flushed) ∧ ¬ s.Hangs

/-- The worker reads `stop_` set only with nothing queued, and the destructor does not notify
between the worker's last look at `stop_` and its wait. -/
def Caught (s : AsyncFlusher α) : FlusherInput α → Prop
  | .work => s.worker = .check → s.stop = true → s.logPool = []
  | .notifyStop => s.worker ≠ .lock ∧ s.worker ≠ .locked
  | _ => True

instance [DecidableEq α] (s : AsyncFlusher α) : ∀ i, Decidable (s.Caught i)
  | .work => inferInstanceAs (Decidable (_ → _ → _))
  | .notifyStop => inferInstanceAs (Decidable (_ ∧ _))
  | .push _ | .notify | .spurious | .setStop | .join => .isTrue trivial

/-! ## The invariant -/

structure Inv (s : AsyncFlusher α) : Prop where
  /-- What was pushed has been output or is queued. -/
  ledger : s.output ++ s.logPool = s.flushed
  running : s.destructor = .notCalled → s.stop = false
  stopping : s.destructor ≠ .notCalled → s.stop = true ∧ s.notifies = 0
  /-- A worker that has left has left nothing behind. -/
  left : s.worker = .exited → s.stop = true ∧ s.logPool = []
  /-- After the last notification the worker is on its way out. -/
  last : s.destructor = .joining ∨ s.destructor = .returned →
    s.worker ≠ .lock ∧ s.worker ≠ .locked ∧ s.worker ≠ .waiting
  joined : s.destructor = .returned → s.worker = .exited

variable {s t : AsyncFlusher α}

theorem Inv.losesNothing (h : s.Inv) : s.LosesNothing := by
  constructor
  · intro hr
    rw [← h.ledger, (h.left (h.joined hr)).2, List.append_nil]
  · rintro ⟨hw, hstop, -, hd⟩
    cases hc : s.destructor with
    | notCalled => rw [h.running hc] at hstop; cases hstop
    | stopSet => exact hd hc
    | joining => exact (h.last (.inl hc)).2.2 hw
    | returned => exact (h.last (.inr hc)).2.2 hw

/-- A wake-up moves a waiting worker only. -/
theorem notifyOne_cases (s : AsyncFlusher α) :
    s.notifyOne = { s with worker := if s.worker = .waiting then .woken else s.worker } := by
  unfold notifyOne
  split <;> rfl

theorem Inv.wake (h : s.Inv) :
    Inv { s with worker := if s.worker = .waiting then .woken else s.worker } := by
  refine ⟨h.ledger, h.running, h.stopping, fun hw => ?_, fun hd => ?_, fun hd => ?_⟩
  · simp only at hw
    split at hw
    · cases hw
    · exact h.left hw
  · obtain ⟨h1, h2, h3⟩ := h.last hd
    simp only
    rw [if_neg h3]
    exact ⟨h1, h2, h3⟩
  · have := h.joined hd
    simp [this]

/-- The worker's steps: out of the loop, towards the wait, from the wait to the loop's end, and
the output of one string. -/
theorem work_cases (h : s.work = some t) :
    (s.worker = .check ∧ s.stop = true ∧ t = { s with worker := .exited }) ∨
    (((s.worker = .check ∧ s.stop = false) ∨ s.worker = .lock ∨ s.worker = .locked) ∧
      ∃ w, w ≠ .exited ∧ t = { s with worker := w }) ∨
    (s.worker ≠ .exited ∧ ∃ w, (w = .doFlush ∨ w = .flushing ∨ w = .check) ∧
      t = { s with worker := w }) ∨
    (s.worker = .flushing ∧ ∃ str rest, s.logPool = str :: rest ∧
      t = { s with logPool := rest, output := s.output ++ [str] }) := by
  unfold AsyncFlusher.work at h
  split at h
  · rename_i hw
    cases h
    by_cases hs : s.stop = true
    · exact .inl ⟨hw, hs, by rw [if_pos hs]⟩
    · exact .inr (.inl ⟨.inl ⟨hw, by simpa using hs⟩, .lock, by decide, by rw [if_neg hs]⟩)
  · cases h
    exact .inr (.inl ⟨.inr (.inl ‹_›), .locked, by decide, rfl⟩)
  · cases h
    exact .inr (.inl ⟨.inr (.inr ‹_›), .waiting, by decide, rfl⟩)
  · cases h
  · rename_i hw
    cases h
    exact .inr (.inr (.inl ⟨by rw [hw]; decide, .doFlush, .inl rfl, rfl⟩))
  · rename_i hw
    cases h
    exact .inr (.inr (.inl ⟨by rw [hw]; decide, .flushing, .inr (.inl rfl), rfl⟩))
  · rename_i hw
    split at h
    · cases h
      exact .inr (.inr (.inl ⟨by rw [hw]; decide, .check, .inr (.inr rfl), rfl⟩))
    · rename_i str rest hp
      cases h
      exact .inr (.inr (.inr ⟨hw, str, rest, hp, rfl⟩))
  · cases h

theorem Inv.work (h : s.Inv) (hc : s.Caught .work) (hs : s.work = some t) : t.Inv := by
  rcases work_cases hs with ⟨hw, hst, rfl⟩ | ⟨hw, w, hne, rfl⟩ | ⟨hw, w, hw', rfl⟩ |
    ⟨hw, str, rest, hp, rfl⟩
  · exact ⟨h.ledger, h.running, h.stopping, fun _ => ⟨hst, hc hw hst⟩, fun _ => by simp,
      fun _ => rfl⟩
  · -- on its way to the wait: the last notification is still to come
    have hno : ¬ (s.destructor = .joining ∨ s.destructor = .returned) := by
      intro hd
      obtain ⟨h1, h2, -⟩ := h.last hd
      rcases hw with ⟨-, hst⟩ | hw | hw
      · have hnc : s.destructor ≠ .notCalled := by rcases hd with hd | hd <;> rw [hd] <;> decide
        rw [(h.stopping hnc).1] at hst
        cases hst
      · exact h1 hw
      · exact h2 hw
    exact ⟨h.ledger, h.running, h.stopping, fun he => absurd he hne, fun hd => absurd hd hno,
      fun hd => absurd (.inr hd) hno⟩
  · refine ⟨h.ledger, h.running, h.stopping, fun he => ?_, fun _ => ?_,
      fun hd => absurd (h.joined hd) hw⟩
    · rcases hw' with rfl | rfl | rfl <;> cases he
    · rcases hw' with rfl | rfl | rfl <;> simp
  · have hl := h.ledger
    rw [hp] at hl
    refine ⟨by simpa using hl, h.running, h.stopping, fun he => ?_, h.last, h.joined⟩
    exact absurd (hw.symm.trans he) (by decide)

theorem Inv.push (h : s.Inv) (hd : s.destructor = .notCalled) (str : α) :
    Inv { s with logPool := s.logPool ++ [str], flushed := s.flushed ++ [str],
                 notifies := s.notifies + 1 } := by
  have hstop := h.running hd
  refine ⟨?_, fun _ => hstop, fun hd' => absurd hd hd', fun hw => ?_, h.last, h.joined⟩
  · rw [← h.ledger, List.append_assoc]
  · have := (h.left hw).1
    rw [hstop] at this
    cases this

theorem Inv.notify (h : s.Inv) (hpos : 0 < s.notifies) :
    Inv { s.notifyOne with notifies := s.notifies - 1 } := by
  rw [notifyOne_cases]
  obtain ⟨h1, h2, -, h4, h5, h6⟩ := h.wake
  refine ⟨h1, h2, fun hd => ?_, h4, h5, h6⟩
  obtain ⟨hst, hn⟩ := h.stopping hd
  exact ⟨hst, by omega⟩

theorem Inv.setStop (h : s.Inv) (hn : s.notifies = 0) :
    Inv { s with stop := true, destructor := .stopSet } :=
  ⟨h.ledger, fun hd => (by cases hd), fun _ => ⟨rfl, hn⟩, fun hw => ⟨rfl, (h.left hw).2⟩,
    fun hd => (by simp at hd), fun hd => (by cases hd)⟩

/-- The last notification: with the worker not between its test and the wait it is not lost. -/
theorem Inv.notifyStop (h : s.Inv) (hd : s.destructor = .stopSet)
    (hc : s.worker ≠ .lock ∧ s.worker ≠ .locked) :
    Inv { s.notifyOne with destructor := .joining } := by
  rw [notifyOne_cases]
  obtain ⟨h1, -, -, h4, -, -⟩ := h.wake
  have hst := h.stopping (by rw [hd]; decide)
  refine ⟨h1, fun hd => (by cases hd), fun _ => hst, h4, fun _ => ?_, fun hd => (by cases hd)⟩
  simp only
  split
  · decide
  · rename_i hw
    exact ⟨hc.1, hc.2, hw⟩

theorem Inv.join (h : s.Inv) (hd : s.destructor = .joining) (hw : s.worker = .exited) :
    Inv { s with destructor := .returned } := by
  refine ⟨h.ledger, fun hd => (by cases hd), fun _ => h.stopping (by rw [hd]; decide), h.left,
    fun _ => ?_, fun _ => hw⟩
  simp [hw]

theorem inv_step {i : FlusherInput α} (h : s.Inv) (hc : s.Caught i) (hs : step s i = some t) :
    t.Inv := by
  cases i with
  | push str =>
    obtain ⟨hok, rfl⟩ := Option.ite_some_none_eq_some.1 hs
    exact h.push hok.1 str
  | notify =>
    obtain ⟨hpos, rfl⟩ := Option.ite_some_none_eq_some.1 hs
    exact h.notify hpos
  | spurious =>
    obtain ⟨hw, rfl⟩ := Option.ite_some_none_eq_some.1 hs
    have := h.wake
    rwa [if_pos hw] at this
  | work => exact h.work hc hs
  | setStop =>
    obtain ⟨hok, rfl⟩ := Option.ite_some_none_eq_some.1 hs
    exact h.setStop hok.2.1
  | notifyStop =>
    obtain ⟨hd, rfl⟩ := Option.ite_some_none_eq_some.1 hs
    exact h.notifyStop hd hc
  | join =>
    obtain ⟨hok, rfl⟩ := Option.ite_some_none_eq_some.1 hs
    exact h.join hok.1 hok.2

/-- **Asynchronous logging.** In every interleaving in which the worker reads `stop_` set only
with nothing queued and the destructor does not notify while the worker is between that test and
the wait, nothing is lost and the destructor does not hang. -/
theorem loses_nothing {is : List (FlusherInput α)} (hm : Meets step Caught {} is) :
    Along step LosesNothing ({} : AsyncFlusher α) is :=
  (hm.along (fun _ _ _ h hc hs => inv_step h hc hs)
    ⟨rfl, fun _ => rfl, fun h => absurd rfl h, fun h => (by cases h), fun h => (by simp at h),
      fun h => (by cases h)⟩).imp fun _ h => h.losesNothing

/-- Two strings, the second pushed before the worker has got the mutex back, so that its own
notification is lost; a spurious wake-up; the destructor finds the worker waiting. -/
theorem loses_nothing_two : ∃ s, run step ({} : AsyncFlusher String)
    [.work, .work, .work, .push "a", .notify, .push "b", .work, .work, .work, .work, .work, .notify,
      .work, .work, .work, .spurious, .work, .work, .work, .work, .work, .work, .setStop,
      .notifyStop, .work, .work, .work, .work, .join] = some s ∧
    (s.destructor = .returned ∧ s.output = ["a", "b"]) ∧ s.LosesNothing := by
  refine run_and ⟨_, Option.eq_some_of_isSome (by decide +kernel), by decide +kernel⟩
    fun s hs _ => ?_
  exact (loses_nothing (by decide +kernel)).last hs

/-- A string flushed before the worker first waits: its notification is lost, and the worker
leaves without it. A destructor that notifies between the worker's test and its wait: the
worker waits for ever. -/
theorem loses_a_string :
    (∃ s, run step ({} : AsyncFlusher String)
        [.push "a", .notify, .setStop, .work, .notifyStop, .join] = some s ∧
      (s.destructor = .returned ∧ s.output = [] ∧ s.flushed = ["a"]) ∧ ¬ s.LosesNothing) ∧
    ∃ s, run step ({} : AsyncFlusher String)
        [.work, .setStop, .notifyStop, .work, .work] = some s ∧
      (s.worker = .waiting ∧ s.stop = true ∧ s.notifies = 0 ∧ s.destructor = .joining) ∧
      ¬ s.LosesNothing := by
  refine ⟨?_, ?_⟩
  · refine run_and ⟨_, rfl, by decide⟩ fun s _ hs h => ?_
    have := h.1 hs.1
    rw [hs.2.1, hs.2.2] at this
    cases this
  · refine run_and ⟨_, rfl, by decide⟩ fun s _ hs h => ?_
    exact h.2 ⟨hs.1, hs.2.1, hs.2.2.1, by rw [hs.2.2.2]; decide⟩

end AsyncFlusher

end NetBase.Logging
