import NetBase.Coroutine.Dispatch

/-!
# Stopping at once

A scheduler with `exit_with_tasks_processed = false` should leave its loop at the first check
after `stop()`. The loop's condition is `stop_pending()`, which asks `stop_pending_func_` as
well, and the function the constructor installs answers `false`. So `stopped_` is set and
nothing looks at it: the loop goes on taking executors and is never left.
-/

namespace NetBase.Machine

open Lib

variable {L : Type} {entry : Nat → L} {m m' : Machine L}

/-- The `stop_pending_func_` of the constructor. -/
def stopPendingFunc : Bool := false

/-- What happens to a scheduler as constructed: steps of its thread, and a block function that
calls `stop()`. -/
inductive DefaultInput (L : Type)
  | thread (i : Input L)
  | unblockStop (executors : List (Option Nat))

def stepDefault (entry : Nat → L) (m : Machine L) : DefaultInput L → Option (Machine L)
  | .thread (.round pending remote) =>
    if pending = stopPendingFunc then step entry m (.round pending remote) else none
  | .thread i => step entry m i
  | .unblockStop executors =>
    match m.control with
    | .blocking =>
      let m := m.addExecutors executors
      some ({ m with scheduler := m.scheduler.stop }.goto .loop)
    | _ => none

/-- The check of the loop's condition that leads from `m` to `m'` obeys `stop()`: after one, it
leaves the loop and no executor is taken. -/
def ObeysStop (m m' : Machine L) : Prop :=
  m.scheduler.stopped = true → m'.control = .ran ∧ m'.taken = m.taken

/-- In immediate mode, and in the loop for good. -/
structure Unstopped (m : Machine L) : Prop where
  placed : m.Placed m.control
  immediate : m.scheduler.exitWithTasksProcessed = false
  accepting : m.scheduler.stopping = false
  inside : m.control ≠ .ran

theorem addExecutors_immediate (m : Machine L) (es : List (Option Nat)) :
    (m.addExecutors es).scheduler.exitWithTasksProcessed =
      m.scheduler.exitWithTasksProcessed := by
  induction es generalizing m with
  | nil => rfl
  | cons x es ih => rw [← (m.scheduler.addExecutor_flags x).2.2]; exact ih (m.addExecutor x).2

theorem takeReady_flags (m : Machine L) :
    m.takeReady.2.scheduler.exitWithTasksProcessed = m.scheduler.exitWithTasksProcessed ∧
      m.takeReady.2.scheduler.stopping = m.scheduler.stopping := by
  simp only [takeReady, Scheduler.takeReady]
  split <;> exact ⟨rfl, rfl⟩

theorem stop_immediate {s : Scheduler Nat} (h : s.exitWithTasksProcessed = false) :
    s.stop = { s with stopped := true } := by simp [Scheduler.stop, h]

/-- One round: the condition lets the loop go on, and the oldest entry is taken. -/
theorem Unstopped.round (entry : Nat → L) (h : m.Unstopped) (hc : m.control = .loop)
    (remote : List (Option Nat)) :
    let m' := m.threadScheduleFunc entry stopPendingFunc remote
    m'.Unstopped ∧
      m'.taken = m.taken ++ (m.addExecutors remote).scheduler.readyExecutors.take 1 := by
  intro m'
  have hplaced : m'.Placed m'.control := (threadScheduleFunc_follows h.placed hc).placed
  suffices hq : m'.control ≠ .ran ∧
      m'.toQueue = (m.addExecutors remote).takeReady.2.toQueue by
    obtain ⟨hin, hq⟩ := hq
    obtain ⟨hmode, hstop⟩ := takeReady_flags (m.addExecutors remote)
    refine ⟨⟨hplaced, ?_, ?_, hin⟩, ?_⟩
    · rw [hq, hmode, addExecutors_immediate]
      exact h.immediate
    · rw [hq, hstop, addExecutors_stopping]
      exact h.accepting
    · rw [hq]
      simp only [takeReady, addExecutors_taken]
  have hpend : m.scheduler.stopPending stopPendingFunc = false := by
    simp [Scheduler.stopPending, stopPendingFunc]
  have hm' : m' = m.threadScheduleFunc entry stopPendingFunc remote := rfl
  obtain ⟨x, n, hn⟩ : ∃ x n, (m.addExecutors remote).takeReady = (x, n) := ⟨_, _, rfl⟩
  have hk : n.toStacks = m.toStacks := by
    have := takeReady_stacks (m.addExecutors remote)
    rwa [hn, addExecutors_stacks] at this
  have hst : n.scheduler.stopping = false := by
    have := (takeReady_flags (m.addExecutors remote)).2
    rw [hn, addExecutors_stopping] at this
    exact this.trans h.accepting
  have hp : n.Placed .loop := by rw [hk, ← hc]; exact h.placed
  unfold threadScheduleFunc at hm'
  rw [hpend, if_neg (by simp), hn] at hm'
  rw [hn, hm']
  cases x with
  | none => simp [hst, goto]
  | some e =>
    dsimp only
    split
    · rename_i hlive
      exact ⟨exec_control hp hlive.1, exec_queue _ _ _⟩
    · exact ⟨by simp [goto], rfl⟩

theorem Acts.unstopped {a : Action} {e : Nat} {l : L} (ha : Acts m e l a m') (h : m.Unstopped)
    (hp' : m'.Placed m'.control) : m'.Unstopped := by
  cases ha with
  | compute => exact ⟨hp', h.immediate, h.accepting, by simp [goto]⟩
  | addExecutor x =>
    obtain ⟨hs, -, hm⟩ := m.scheduler.addExecutor_flags x
    exact ⟨hp', hm.trans h.immediate, hs.trans h.accepting, by simp [goto]⟩
  | stop =>
    refine ⟨hp', ?_, ?_, by simp [goto]⟩ <;> simp only [goto, stop_immediate h.immediate]
    · exact h.immediate
    · exact h.accepting
  | ignored => exact ⟨hp', h.immediate, h.accepting, by simp [goto]⟩
  | killed => exact ⟨hp', h.immediate, h.accepting, by simp [goto]⟩
  | left => exact ⟨hp', h.immediate, h.accepting, by simp⟩

theorem step_unstopped {i : Input L} (h : m.Unstopped)
    (hi : ∀ pending remote, i = .round pending remote → pending = stopPendingFunc)
    (hs : step entry m i = some m') : m'.Unstopped := by
  have hp' := (step_follows h.placed hs).placed
  unfold step at hs
  split at hs <;> cases hs <;> rename_i hc
  · obtain ⟨hst, -, hm⟩ := m.scheduler.addExecutor_flags _
    exact ⟨hp', hm.trans h.immediate, hst.trans h.accepting, h.inside⟩
  · refine ⟨hp', ?_, ?_, ?_⟩
    · rw [mainExec, doExec_queue]
      exact h.immediate
    · rw [mainExec, doExec_queue]
      exact h.accepting
    · rw [mainExec_eq (hc ▸ h.placed)]
      simp
  · cases hi _ _ rfl
    exact (h.round entry hc _).1
  · refine ⟨hp', ?_, ?_, by simp [goto]⟩
    · exact (addExecutors_immediate m _).trans h.immediate
    · exact (addExecutors_stopping m _).trans h.accepting
  · rw [checkReturned_eq (hc ▸ h.placed)] at hp' ⊢
    exact ⟨hp', h.immediate, h.accepting, by simp [goto]⟩
  · exact (act_acts (hc ▸ h.placed) _ _).unstopped h hp'

theorem stepDefault_unstopped {i : DefaultInput L} (h : m.Unstopped)
    (hs : stepDefault entry m i = some m') : m'.Unstopped := by
  unfold stepDefault at hs
  split at hs
  · split at hs
    · refine step_unstopped h (fun pending remote hi => ?_) hs
      cases hi
      assumption
    · cases hs
  · rename_i i hi
    exact step_unstopped h (fun pending remote he => (hi pending remote (he ▸ rfl)).elim) hs
  · split at hs
    · rename_i hc
      cases hs
      have hm := addExecutors_immediate m
      refine ⟨⟨?_, ?_, ?_⟩, ?_, ?_, by simp [goto]⟩ <;>
        simp only [goto, stop_immediate ((hm _).trans h.immediate), addExecutors_stacks]
      · exact h.placed.main
      · exact h.placed.base
      · exact (hc ▸ h.placed).pos
      · exact (hm _).trans h.immediate
      · exact (addExecutors_stopping m _).trans h.accepting
    · cases hs

theorem unstopped_init : (init false : Machine L).Unstopped :=
  ⟨placed_init false, rfl, rfl, by simp [init]⟩

/-- **Immediate stop does nothing.** In every run of a scheduler in immediate mode with the
predicate of its constructor, a check of the loop's condition obeys `stop()` only as long as
nobody has called it, neither a coroutine nor the block function. The loop takes the oldest
entry of its queue as if nothing had happened, and is not left at any later point either. -/
theorem obeysStop_iff {is : List (DefaultInput L)}
    (hr : run (stepDefault entry) (init false) is = some m) (hc : m.control = .loop)
    (remote : List (Option Nat)) :
    ∃ m', stepDefault entry m (.thread (.round stopPendingFunc remote)) = some m' ∧
      (ObeysStop m m' ↔ m.scheduler.stopped = false) ∧
      m'.taken = m.taken ++ (m.addExecutors remote).scheduler.readyExecutors.take 1 ∧
      ∀ js m'', run (stepDefault entry) m' js = some m'' → m''.control ≠ .ran := by
  have hu : m.Unstopped := run_inv (fun _ _ _ h hs => stepDefault_unstopped h hs)
    unstopped_init hr
  obtain ⟨hu', htaken⟩ := hu.round entry hc remote
  refine ⟨_, by simp [stepDefault, step, hc], ⟨fun ho => ?_, fun hs hs' => ?_⟩, htaken, ?_⟩
  · by_contra hs
    exact hu'.inside (ho (by simpa using hs)).1
  · rw [hs] at hs'
    cases hs'
  · intro js m'' hr'
    exact (run_inv (fun _ _ _ h hs => stepDefault_unstopped h hs) hu' hr').inside

/-- An executor calls `stop()` and ends; the next check takes the executor queued behind it. -/
theorem obeysStop_second : ∃ m : Machine Nat,
    run (stepDefault fun _ => 0) (init false) [.thread (.submit (some 0)),
      .thread (.submit (some 1)), .thread .run, .thread (.round false []),
      .thread (.act .stop 1), .thread (.act .ret 2), .thread .check] = some m ∧
    (m.control = .loop ∧ m.scheduler.stopped = true ∧
      (m.addExecutors []).scheduler.readyExecutors.take 1 = [some 1]) ∧
    ∃ m', stepDefault (fun _ => 0) m (.thread (.round stopPendingFunc [])) = some m' ∧
      m'.taken = m.taken ++ [some 1] ∧ ¬ ObeysStop m m' := by
  refine run_and ⟨_, rfl, rfl, rfl, rfl⟩ fun m hr hm => ?_
  obtain ⟨hc, hs, hq⟩ := hm
  obtain ⟨m', hm', ho, ht, -⟩ := obeysStop_iff hr hc []
  rw [hq] at ht
  refine ⟨m', hm', ht, fun h => ?_⟩
  rw [ho.1 h] at hs
  cases hs

/-- The block function calls `stop()` as well: nothing is ready and the loop blocks again. -/
theorem not_obeysStop : ∃ m m' : Machine Nat,
    run (stepDefault fun _ => 0) (init false) [.thread .run, .thread (.round false []),
      .unblockStop []] = some m ∧
    stepDefault (fun _ => 0) m (.thread (.round stopPendingFunc [])) = some m' ∧
    m.scheduler.stopped = true ∧ m'.control = .blocking ∧ ¬ ObeysStop m m' := by
  refine ⟨_, _, rfl, rfl, rfl, rfl, fun h => ?_⟩
  cases (h rfl).1

end NetBase.Machine
