import NetBase.Base.Timer
import NetBase.Coroutine.Scheduler
import NetBase.IO.Epoll

/-!
# The IO manager

`IOManager` of `include/io/io_manager.h` and `src/io/io_manager.cpp`, with `FdManager` and the
`co_close` and `co_socket` of `src/io/co_io_function.cpp`. A `World` is the manager, the
kernel's epoll set and the descriptor contexts.

`α` is the type of executors, `κ` that of timer callbacks; `mk k` is the executor
`blockPending` makes of the callback `k`. `read` and `write` are treated alike everywhere, so
the two halves of `blockPending` are one definition with the direction as a parameter.
-/

namespace NetBase

/-- `FdContext`, as far as the wrappers look at it. A time-out of `-1` is the largest
`size_t`. -/
structure FdContext where
  isSocket : Bool := false
  isUserNonBlock : Bool := false
  readTimeout : Nat := 0xFFFFFFFFFFFFFFFF
  writeTimeout : Nat := 0xFFFFFFFFFFFFFFFF
  deriving DecidableEq, Repr

namespace FdContext

/-- The wrappers suspend the coroutine instead of blocking on this descriptor. -/
def suspends (context : FdContext) : Bool := context.isSocket && !context.isUserNonBlock

def timeout (context : FdContext) : EventType → Nat
  | .read => context.readTimeout
  | .write => context.writeTimeout

end FdContext

structure FdManager where
  contexts : List (Option FdContext) := []

namespace FdManager

def setContext (m : FdManager) (fd : Nat) (context : FdContext) : Except Fault FdManager :=
  let contexts := growFor none m.contexts fd
  if fd < contexts.length then .ok { contexts := contexts.set fd (some context) }
  else .error .outOfRange

def getContext (m : FdManager) (fd : Nat) : Option FdContext := m.contexts[fd]?.join

def hasFd (m : FdManager) (fd : Nat) : Bool := (m.getContext fd).isSome

def delContext (m : FdManager) (fd : Nat) : FdManager := { contexts := m.contexts.set fd none }

/-- What `co_setsockopt` does with a time-out option. -/
def setTimeout (m : FdManager) (fd : Nat) (d : EventType) (ms : Nat) : FdManager :=
  match m.getContext fd, d with
  | none, _ => m
  | some context, .read =>
    { contexts := m.contexts.set fd (some { context with readTimeout := ms }) }
  | some context, .write =>
    { contexts := m.contexts.set fd (some { context with writeTimeout := ms }) }

end FdManager

structure FdEvents (α : Type) where
  registeredEvents : BitVec 32 := 0
  readCallOnce : Bool := true
  writeCallOnce : Bool := true
  readExecutor : Option α := none
  writeExecutor : Option α := none

namespace FdEvents

variable {α : Type}

/-- What `resize` fills the table with. -/
def fresh : FdEvents α := {}

def callOnce (f : FdEvents α) : EventType → Bool
  | .read => f.readCallOnce
  | .write => f.writeCallOnce

def executor (f : FdEvents α) : EventType → Option α
  | .read => f.readExecutor
  | .write => f.writeExecutor

def setCallOnce (f : FdEvents α) (b : Bool) : EventType → FdEvents α
  | .read => { f with readCallOnce := b }
  | .write => { f with writeCallOnce := b }

def setExecutor (f : FdEvents α) (x : Option α) : EventType → FdEvents α
  | .read => { f with readExecutor := x }
  | .write => { f with writeExecutor := x }

variable {f : FdEvents α} {x : Option α} {b : Bool} {d d' : EventType}

@[simp] theorem setExecutor_executor :
    (f.setExecutor x d).executor d' = if d' = d then x else f.executor d' := by
  cases d <;> cases d' <;> rfl

@[simp] theorem setExecutor_callOnce : (f.setExecutor x d).callOnce d' = f.callOnce d' := by
  cases d <;> cases d' <;> rfl

@[simp] theorem setExecutor_registered :
    (f.setExecutor x d).registeredEvents = f.registeredEvents := by cases d <;> rfl

@[simp] theorem setCallOnce_callOnce :
    (f.setCallOnce b d).callOnce d' = if d' = d then b else f.callOnce d' := by
  cases d <;> cases d' <;> rfl

@[simp] theorem setCallOnce_executor : (f.setCallOnce b d).executor d' = f.executor d' := by
  cases d <;> cases d' <;> rfl

@[simp] theorem setCallOnce_registered :
    (f.setCallOnce b d).registeredEvents = f.registeredEvents := by cases d <;> rfl

end FdEvents

structure IOManager (α κ : Type) where
  stopped : Bool := false
  /-- The read end of `wakeup_pipe_fd_`. -/
  wakeupPipeFd : Nat
  scheduler : Scheduler α := {}
  timerManager : TimerManager κ := {}
  fdEvents : List (FdEvents α) := []

structure World (α κ : Type) extends IOManager α κ where
  epoll : Epoll
  fds : FdManager := {}
  /-- How the process has stopped, if it has. -/
  fault : Option Fault := none

namespace World

variable {α κ : Type}

/-- A manager just constructed: `initPipe` has added the read end of the pipe. -/
def init (pipe : Nat) : World α κ where
  wakeupPipeFd := pipe
  epoll := { interest := fun fd => if fd = pipe then some epollBoth else none }

/-! ## Registration -/

def registerEvent (w : World α κ) (fd : Nat) (type : BitVec 32) (executor : Option α)
    (callOnce : Bool) : Except Fault (Bool × World α κ) :=
  if w.stopped then .ok (false, w)
  else
    let table := growFor .fresh w.fdEvents fd
    match EventType.ofMask type with
    | none => .ok (false, { w with fdEvents := table })
    | some d => do
      let f ← index table fd
      let dst := f.registeredEvents ||| type
      let epoll ← if f.registeredEvents ≠ 0 then w.epoll.epollMod fd dst
        else w.epoll.epollAdd fd (dst ||| epollEt)
      let f := (f.setExecutor executor d).setCallOnce callOnce d
      return (true, { w with fdEvents := table.set fd { f with registeredEvents := dst }, epoll })

def removeEvent (w : World α κ) (fd : Nat) (events : BitVec 32) : Except Fault (World α κ) :=
  match w.fdEvents[fd]? with
  | none => .ok w
  | some f =>
    if f.registeredEvents &&& events = 0 then .ok w
    else do
      -- the complement is taken of the registered events, and they are not updated
      let dst := ~~~f.registeredEvents &&& events
      let epoll ← if dst ≠ 0 then w.epoll.epollMod fd dst else w.epoll.epollDel fd
      let f := if EventType.read.In dst then f else f.setExecutor none .read
      let f := if EventType.write.In dst then f else f.setExecutor none .write
      return { w with fdEvents := w.fdEvents.set fd f, epoll }

/-- `co_close`. -/
def coClose (w : World α κ) (fd : Nat) : Except Fault (World α κ) := do
  let w ← if w.fds.hasFd fd then
      (w.removeEvent fd epollBoth).map fun w => { w with fds := w.fds.delContext fd }
    else .ok w
  return { w with epoll := w.epoll.close fd }

/-- `co_socket`, the kernel having given the number `fd`. -/
def coSocket (w : World α κ) (fd : Nat) : Except Fault (World α κ) := do
  let fds ← w.fds.setContext fd { isSocket := true }
  return { w with fds }

def addExecutor (w : World α κ) (executor : Option α) : World α κ :=
  { w with scheduler := (w.scheduler.addExecutor executor).2 }

def registerTimer (w : World α κ) (timer : Timer κ) : Except Fault (Bool × World α κ) :=
  if w.stopped then .ok (false, w)
  else do
    let timerManager ← w.timerManager.addTimer timer
    return (true, { w with timerManager })

/-- `cancelTimer`; `pick` says which timer of the same target `find` returns. -/
def cancelTimer (w : World α κ) (pick : Nat) (timer : Timer κ) : Except Fault (World α κ) := do
  let timerManager ← w.timerManager.removeTimer pick (some timer)
  return { w with timerManager }

def stop (w : World α κ) : World α κ := { w with stopped := true, scheduler := w.scheduler.stop }

/-! ## `blockPending` -/

/-- Queue the callbacks of the expired timers. -/
def runTimers (mk : κ → α) (w : World α κ) : List (Timer κ) → Except Fault (World α κ)
  | [] => .ok w
  | t :: ts =>
    match t.callback with
    -- the constructor of `Executor` asserts its callback
    | none => .error .assertFailed
    | some k => (w.addExecutor (some (mk k))).runTimers mk ts

/-- The bit of `left_events` for one direction. The flags looked up are those of `first`, the
first event of the batch: the code reads `epoll_events->data.fd`. -/
def leftEvents (w : World α κ) (first : Nat) (ev : EpollEvent) (left : BitVec 32) (d : EventType) :
    Except Fault (BitVec 32) :=
  if d.In ev.events then do
    let f ← index w.fdEvents first
    if f.callOnce d then return left &&& ~~~d.mask
    else
      match f.executor d with
      | some _ => return left
      | none => .error .nullExecutor
  else return left

/-- Bring the epoll set and the table to `left_events`. -/
def updateEvents (w : World α κ) (fd : Nat) (f : FdEvents α) (left : BitVec 32) :
    Except Fault (World α κ) :=
  if left ≠ f.registeredEvents then do
    let epoll ← if left ≠ 0 then w.epoll.epollMod fd left else w.epoll.epollDel fd
    return { w with fdEvents := w.fdEvents.set fd { f with registeredEvents := left }, epoll }
  else return w

/-- Queue the executor of one direction if the event hits it. -/
def enqueue (w : World α κ) (ev : EpollEvent) (d : EventType) : Except Fault (World α κ) :=
  if ev.Hits d then do
    let f ← index w.fdEvents ev.fd
    let (addRet, scheduler) := w.scheduler.addExecutor (f.executor d)
    let fdEvents := if f.callOnce d then w.fdEvents.set ev.fd (f.setExecutor none d) else w.fdEvents
    if addRet then return { w with scheduler, fdEvents } else .error .assertFailed
  else return w

/-- The body of the loop over the batch. Reading the pipe empty touches nothing here. -/
def handleEvent (w : World α κ) (first : Nat) (ev : EpollEvent) : Except Fault (World α κ) :=
  if ev.fd = w.wakeupPipeFd then return w
  else do
    let f ← index w.fdEvents ev.fd
    let left ← w.leftEvents first ev f.registeredEvents .read
    let left ← w.leftEvents first ev left .write
    let w ← w.updateEvents ev.fd f left
    let w ← w.enqueue ev .read
    w.enqueue ev .write

def handleEvents (w : World α κ) (first : Nat) : List EpollEvent → Except Fault (World α κ)
  | [] => return w
  | ev :: batch => do
    let w ← w.handleEvent first ev
    w.handleEvents first batch

/-- `blockPending` when `epoll_wait` reports `batch`. -/
def blockPending (mk : κ → α) (w : World α κ) (clock : Nat → Nat) (batch : List EpollEvent) :
    Except Fault (World α κ) := do
  let (timers, timerManager) := w.timerManager.takeExpiredTimers clock
  let w ← { w with timerManager }.runTimers mk timers
  match batch with
  | [] => return w
  | first :: _ => w.handleEvents first.fd batch

/-! ## Runs -/

inductive Op (α κ : Type) where
  | registerEvent (fd : Nat) (type : BitVec 32) (executor : α) (callOnce : Bool)
  | removeEvent (fd : Nat) (events : BitVec 32)
  | coClose (fd : Nat)
  | coSocket (fd : Nat)
  | addExecutor (executor : α)
  | registerTimer (curMs interval : Nat) (callback : κ) (repeats : Bool)
  | stop
  /-- The dispatch loop takes an entry from the queue. -/
  | takeReady
  | blockPending (clock : Nat → Nat) (batch : List EpollEvent)

/-- The state after a call: its result, or how it stopped the process. -/
def after (w : World α κ) : Except Fault (World α κ) → World α κ
  | .ok w' => w'
  | .error e => { w with fault := some e }

/-- One call. The pipe's number belongs to the manager: nobody else registers or closes it, and
a new socket gets another one. The dispatch loop only blocks while the scheduler accepts
executors. -/
def step (mk : κ → α) (w : World α κ) (op : Op α κ) : Option (World α κ) :=
  if w.fault.isSome then none
  else match op with
    | .registerEvent fd type executor callOnce =>
      if fd = w.wakeupPipeFd then none
      else some (w.after ((w.registerEvent fd type (some executor) callOnce).map Prod.snd))
    | .removeEvent fd events =>
      if fd = w.wakeupPipeFd then none else some (w.after (w.removeEvent fd events))
    | .coClose fd => if fd = w.wakeupPipeFd then none else some (w.after (w.coClose fd))
    | .coSocket fd =>
      if fd = w.wakeupPipeFd ∨ w.epoll.interest fd ≠ none then none
      else some (w.after (w.coSocket fd))
    | .addExecutor executor => some (w.addExecutor (some executor))
    | .registerTimer curMs interval callback repeats =>
      let (t, timerManager) := w.timerManager.newTimer curMs interval (some callback) repeats
      some (w.after (({ w with timerManager }.registerTimer t).map Prod.snd))
    | .stop => some w.stop
    | .takeReady => some { w with scheduler := w.scheduler.takeReady.2 }
    | .blockPending clock batch =>
      if w.epoll.Reports batch ∧ w.scheduler.stopping = false then
        some (w.after (w.blockPending mk clock batch))
      else none

end World

end NetBase
