import Mathlib.Tactic.Common

/-!
# The ready queue of a scheduler

`Scheduler` of `include/coroutine/scheduler.h`, without its contexts. `α` is the type of
executor pointers: the queue holds `Executor::Ptr`s, `none` being the null one. The code
never looks inside a pointer, so a model may put ghost data into `α`.
-/

namespace NetBase

structure Scheduler (α : Type) where
  stopping : Bool := false
  stopped : Bool := false
  exitWithTasksProcessed : Bool := true
  readyExecutors : List (Option α) := []
  deriving DecidableEq, Repr

namespace Scheduler

variable {α : Type}

/-- `addExecutor`: refused once the scheduler is stopping. -/
def addExecutor (s : Scheduler α) (executor : Option α) : Bool × Scheduler α :=
  if s.stopping then (false, s)
  else (true, { s with readyExecutors := s.readyExecutors ++ [executor] })

def stop (s : Scheduler α) : Scheduler α :=
  if s.exitWithTasksProcessed then { s with stopping := true } else { s with stopped := true }

/-- `stop_pending()`, given what `stop_pending_func_` answers. -/
def stopPending (s : Scheduler α) (stopPendingFunc : Bool) : Bool := s.stopped && stopPendingFunc

/-- The value of the loop's local `executor` after its first `if`, and the queue left. -/
def takeReady (s : Scheduler α) : Option α × Scheduler α :=
  match s.readyExecutors with
  | [] => (none, s)
  | executor :: rest => (executor, { s with readyExecutors := rest })

theorem addExecutor_stopping {s : Scheduler α} (h : s.stopping = true) (e : Option α) :
    s.addExecutor e = (false, s) := by simp [addExecutor, h]

theorem addExecutor_running {s : Scheduler α} (h : s.stopping = false) (e : Option α) :
    s.addExecutor e = (true, { s with readyExecutors := s.readyExecutors ++ [e] }) := by
  simp [addExecutor, h]

@[simp] theorem addExecutor_flags (s : Scheduler α) (e : Option α) :
    (s.addExecutor e).2.stopping = s.stopping ∧ (s.addExecutor e).2.stopped = s.stopped ∧
      (s.addExecutor e).2.exitWithTasksProcessed = s.exitWithTasksProcessed := by
  unfold addExecutor; split <;> simp

theorem mem_of_takeReady {s : Scheduler α} {e : α} (h : s.takeReady.1 = some e) :
    some e ∈ s.readyExecutors := by
  unfold takeReady at h
  split at h
  · cases h
  · rename_i hq
    rw [hq, ← h]
    exact List.mem_cons_self

end Scheduler

end NetBase
