import Mathlib.Logic.Function.Basic
import NetBase.Coroutine.Scheduler

/-!
# Executors and their contexts

`Executor` of `include/coroutine/executor.h` and `src/coroutine/executor.cpp` in its
`COROUTINE_FCONTEXT` form, with the dispatch loop of `src/coroutine/scheduler.cpp`.

`Control` is where the thread stands, and at the same time what a stack does next when it is
jumped to. A context is the entry of `executorMainFunc`, or a stack waiting inside
`swapContext(_, dst)`: `jump_fcontext` hands its caller's continuation to the other side,
which stores it as the code says, `executorMainFunc` into the executor passed as data,
`swapContext` into the `dst` of its own call.

`L` is what a callback's stack and locals amount to; `entry e` is where the callback of the
executor `e` starts.
-/

namespace NetBase

inductive Executor.State
  | init | exec | ready | holdUp | terminal | aborted
  deriving DecidableEq, Repr

/-- The thread's own executor, the scheduler's, and the callback executors of the program. -/
inductive Tid
  | base | scheduler | callback (e : Nat)
  deriving DecidableEq, Repr

/-- What stops the process: the assertions of `executor.cpp` and `scheduler.cpp`, and a jump
through a null context. -/
inductive Assertion
  | execOfMain | noCallback | notExec | unexpectedState | nullContext
  deriving DecidableEq, Repr

inductive Control (L : Type)
  /-- The base executor before `run()`. -/
  | setup
  /-- The base executor after `run()`. -/
  | ran
  /-- The condition of the dispatch loop. -/
  | loop
  /-- Inside `block_pending_func_`. -/
  | blocking
  /-- `executor->exec()` has returned to the loop. -/
  | returned (e : Nat)
  /-- After the `mainYield()` that ends `threadScheduleFunc`. -/
  | leftLoop
  | body (e : Nat) (l : L)
  /-- After the `terminal()` that ends `executorMainFunc`. -/
  | finished
  | failed (a : Assertion)
  deriving DecidableEq, Repr

inductive Context (L : Type)
  | entry
  | swap (dst : Tid) (ret : Control L)
  deriving DecidableEq, Repr

/-- The executors of the thread, and its `t_cur_executor`, `t_main_executor` and
`t_base_executor`. -/
structure Stacks (L : Type) where
  state : Tid → Executor.State
  context : Tid → Option (Context L)
  curExecutor : Tid
  mainExecutor : Tid
  baseExecutor : Tid
  /-- Ghost: where the executor stood after its last `yield()`. -/
  held : Nat → Option L

structure Queue where
  scheduler : Scheduler Nat
  /-- Ghost: the entries accepted by `addExecutor`, and those taken by the loop. -/
  accepted : List (Option Nat) := []
  taken : List (Option Nat) := []

structure Machine (L : Type) extends Stacks L, Queue where
  control : Control L

namespace Machine

variable {L : Type} (entry : Nat → L)

/-- A thread whose `Scheduler` has just been constructed. -/
def init (exitWithTasksProcessed : Bool) : Machine L where
  state
    | .base => .ready
    | _ => .init
  context _ := none
  curExecutor := .base
  mainExecutor := .scheduler
  baseExecutor := .base
  scheduler := { exitWithTasksProcessed }
  control := .setup
  held _ := none

def goto (m : Machine L) (c : Control L) : Machine L := { m with control := c }

def setState (m : Machine L) (t : Tid) (s : Executor.State) : Machine L :=
  { m with state := Function.update m.state t s }

def setContext (m : Machine L) (t : Tid) (c : Context L) : Machine L :=
  { m with context := Function.update m.context t (some c) }

/-- `executorMainFunc`, up to the first line of the callback it runs. -/
def executorMainFunc (m : Machine L) : Machine L :=
  match m.curExecutor with
  | .base => m.goto (.failed .noCallback)
  | .scheduler => m.goto .loop
  | .callback e => m.goto (.body e (entry e))

/-- `swapContext(src, dst)`, called from a stack that goes on at `ret`. -/
def swapContext (m : Machine L) (src dst : Tid) (ret : Control L) : Machine L :=
  match m.context dst with
  | none => m.goto (.failed .nullContext)
  | some .entry => (m.setContext src (.swap dst ret)).executorMainFunc entry
  | some (.swap dst' ret') => (m.setContext dst' (.swap dst ret)).goto ret'

/-- `makeContext`, then the state `Ready`. -/
def initToReady (m : Machine L) (t : Tid) : Machine L :=
  (m.setContext t .entry).setState t .ready

def execInner (m : Machine L) (t : Tid) (ret : Control L) : Machine L :=
  { m with curExecutor := t }.swapContext entry m.mainExecutor t ret

def mainExecInner (m : Machine L) (t : Tid) (ret : Control L) : Machine L :=
  { m with curExecutor := t }.swapContext entry m.baseExecutor t ret

/-- The switch of `yieldInner` and `terminalInner`. -/
def switchToMain (m : Machine L) (t : Tid) (ret : Control L) : Machine L :=
  { m with curExecutor := m.mainExecutor }.swapContext entry t m.mainExecutor ret

def yieldInner (m : Machine L) (t : Tid) (ret : Control L) : Machine L :=
  m.switchToMain entry t ret

def terminalInner (m : Machine L) (t : Tid) (ret : Control L) : Machine L :=
  m.switchToMain entry t ret

def mainYieldInner (m : Machine L) (t : Tid) (ret : Control L) : Machine L :=
  { m with curExecutor := m.baseExecutor }.swapContext entry t m.baseExecutor ret

def doExec (m : Machine L) (t : Tid) (main : Bool) (ret : Control L) : Machine L :=
  let inner := fun m : Machine L =>
    if main then mainExecInner entry (m.setState t .exec) t ret
    else execInner entry (m.setState t .exec) t ret
  match m.state t with
  | .init => inner (m.initToReady t)
  | .holdUp => inner m
  | .ready => inner m
  -- the remaining cases only log
  | .exec => m.goto ret
  | .terminal => m.goto ret
  | .aborted => m.goto ret

def exec (m : Machine L) (t : Tid) (ret : Control L) : Machine L :=
  if t = m.mainExecutor then m.goto (.failed .execOfMain) else m.doExec entry t false ret

def mainExec (m : Machine L) (t : Tid) (ret : Control L) : Machine L := m.doExec entry t true ret

def yield (m : Machine L) (t : Tid) (ret : Control L) : Machine L :=
  if m.state t ≠ .exec then m.goto ret else (m.setState t .holdUp).yieldInner entry t ret

def mainYield (m : Machine L) (t : Tid) (ret : Control L) : Machine L :=
  if m.state t ≠ .exec then m.goto ret else (m.setState t .holdUp).mainYieldInner entry t ret

def kill (m : Machine L) (t : Tid) (ret : Control L) : Machine L :=
  if m.state t = .exec then (m.setState t .terminal).terminalInner entry t ret
  else (m.setState t .terminal).goto ret

def terminal (m : Machine L) (t : Tid) : Machine L :=
  if m.state t = .exec then (m.setState t .terminal).terminalInner entry t .finished
  else m.goto (.failed .notExec)

/-- `Scheduler::addExecutor`. -/
def addExecutor (m : Machine L) (executor : Option Nat) : Bool × Machine L :=
  ((m.scheduler.addExecutor executor).1,
    { m with
      scheduler := (m.scheduler.addExecutor executor).2
      accepted := if (m.scheduler.addExecutor executor).1 then m.accepted ++ [executor]
        else m.accepted })

def addExecutors (m : Machine L) (executors : List (Option Nat)) : Machine L :=
  executors.foldl (fun m executor => (m.addExecutor executor).2) m

def takeReady (m : Machine L) : Option Nat × Machine L :=
  (m.scheduler.takeReady.1,
    { m with
      scheduler := m.scheduler.takeReady.2
      taken := m.taken ++ m.scheduler.readyExecutors.take 1 })

/-- One round of `threadScheduleFunc` up to its next switch. `pending` is the answer of
`stop_pending_func_`, `remote` the tasks `scheduleAll` finds. -/
def threadScheduleFunc (m : Machine L) (pending : Bool) (remote : List (Option Nat)) :
    Machine L :=
  if m.scheduler.stopPending pending then m.mainYield entry .scheduler .leftLoop
  else
    match (m.addExecutors remote).takeReady with
    | (none, m) =>
      if m.scheduler.stopping then m.mainYield entry .scheduler .leftLoop else m.goto .blocking
    | (some e, m) =>
      if m.state (.callback e) ≠ .terminal ∧ m.state (.callback e) ≠ .aborted then
        m.exec entry (.callback e) (.returned e)
      else m.goto .loop

/-- The state check after `executor->exec()`. -/
def checkReturned (m : Machine L) (e : Nat) : Machine L :=
  match m.state (.callback e) with
  | .terminal => m.goto .loop
  | .holdUp => m.goto .loop
  | .aborted => m.goto .loop
  | _ => m.goto (.failed .unexpectedState)

/-- What a coroutine body does next. -/
inductive Action
  | compute
  | addExecutor (executor : Option Nat)
  | stop
  | yield (f : Nat)
  | kill (f : Nat)
  | ret
  | throws
  deriving DecidableEq, Repr

/-- The body of `e` does `a` and stands at `l` after it. An exception ends in the handlers of
`executorMainFunc`, which log it, so that both ways out of a callback reach `terminal()`. -/
def act (m : Machine L) (e : Nat) (a : Action) (l : L) : Machine L :=
  match a with
  | .compute => m.goto (.body e l)
  | .addExecutor executor => (m.addExecutor executor).2.goto (.body e l)
  | .stop => { m with scheduler := m.scheduler.stop }.goto (.body e l)
  | .yield f =>
    { m with held := if f = e then Function.update m.held e (some l) else m.held }.yield entry
      (.callback f) (.body e l)
  | .kill f => m.kill entry (.callback f) (.body e l)
  | .ret => m.terminal entry m.curExecutor
  | .throws => m.terminal entry m.curExecutor

inductive Input (L : Type)
  /-- `addExecutor` before `run()`. -/
  | submit (executor : Option Nat)
  | run
  | round (pending : Bool) (remote : List (Option Nat))
  /-- `block_pending_func_` returns; it has queued `executors`. -/
  | unblock (executors : List (Option Nat))
  | check
  | act (a : Action) (l : L)

def step (m : Machine L) (i : Input L) : Option (Machine L) :=
  match m.control, i with
  | .setup, .submit executor => some (m.addExecutor executor).2
  | .setup, .run => some (m.mainExec entry .scheduler .ran)
  | .loop, .round pending remote => some (m.threadScheduleFunc entry pending remote)
  | .blocking, .unblock executors => some ((m.addExecutors executors).goto .loop)
  | .returned e, .check => some (m.checkReturned e)
  | .body e _, .act a l => some (m.act entry e a l)
  | _, _ => none

end Machine

end NetBase
