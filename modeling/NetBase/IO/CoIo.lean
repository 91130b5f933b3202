import NetBase.IO.IOManager

/-!
# Coroutines that wait

`sleepInner`, `ioInner` and `co_connect` of `src/io/co_io_function.cpp`, run by the dispatch
loop of an `IOManager`. A coroutine is known by a number; a program is whatever its coroutines
do next, so the next action of the running one is an input.

A suspension registers its wake-up sources and yields: a timer for `sleepInner`, an event for
`co_connect`, both for `ioInner`. Executor pointers and closures carry, as ghost data, the
number of the suspension they were made for. `time_out_ptr` of `ioInner` lives in the frame of
the suspended coroutine, so it is a field of its wait, and its weak pointer locks exactly while
the coroutine is in that suspension.
-/

namespace NetBase

/-- The closures given to timers. -/
inductive Callback where
  /-- In `sleepInner`: queue the coroutine. -/
  | wake (c n : Nat)
  /-- In `ioInner`: if the wait is not over, remove the event and set the flag; then queue the
  coroutine. -/
  | timeout (c n fd : Nat) (d : EventType)
  deriving DecidableEq, Repr

/-- The coroutine a closure queues. -/
def Callback.coroutine : Callback → Nat
  | .wake c _ => c
  | .timeout c _ _ _ => c

/-- An executor in the ready queue or in a slot of the table. -/
inductive Entry where
  /-- The coroutine `c`, to end its suspension `n`. -/
  | co (c n : Nat)
  /-- The executor made of a timer's callback. -/
  | run (k : Callback)
  deriving DecidableEq, Repr

/-- The executor objects. -/
inductive ExecutorPtr where
  | co (c : Nat)
  | callback (k : Callback)
  deriving DecidableEq, Repr

/-- The object an entry points to. -/
def Entry.executor : Entry → ExecutorPtr
  | .co c _ => .co c
  | .run k => .callback k

inductive Wait where
  | sleep
  | connect (fd : Nat)
  | io (fd : Nat) (d : EventType) (timer : Timer Callback) (timedOut : Bool)
  deriving DecidableEq, Repr

inductive CoState where
  | unborn
  /-- Queued by its creator, not yet entered. -/
  | start
  | running
  | waiting (wait : Wait)
  | done
  deriving DecidableEq, Repr

structure Coroutine where
  state : CoState := .unborn
  /-- Ghost: the number of its suspensions so far. -/
  suspension : Nat := 0
  deriving DecidableEq, Repr

inductive CoPhase where
  /-- Before `run()`. -/
  | setup
  | loop
  /-- In `block_pending_func_`. -/
  | blocked
  | running (c : Nat)
  /-- `run()` has returned. -/
  | left
  deriving DecidableEq, Repr

/-- Ghost: `c` was entered by an entry issued for its suspension `issued`. -/
structure Resumption where
  c : Nat
  issued : Nat
  suspension : Nat
  deriving DecidableEq, Repr

structure CoSys where
  world : World Entry Callback
  co : Nat → Coroutine := fun _ => {}
  phase : CoPhase := .setup
  resumed : List Resumption := []
  /-- Ghost: the executors `addExecutor` has accepted, and the callbacks that have run. -/
  accepted : List Entry := []
  ran : List Callback := []

namespace CoSys

/-- A manager whose wake-up pipe is `pipe`, and no coroutine yet. -/
def init (pipe : Nat) : CoSys where
  world := World.init pipe

def setCo (s : CoSys) (c : Nat) (x : Coroutine) : CoSys := { s with co := Function.update s.co c x }

/-- The world after a call that may have queued executors. -/
def setWorld (s : CoSys) (w : World Entry Callback) : CoSys :=
  { s with
    world := w
    accepted := s.accepted ++
      (w.scheduler.readyExecutors.drop s.world.scheduler.readyExecutors.length).reduceOption }

def fail (s : CoSys) (e : Fault) : CoSys := { s with world := { s.world with fault := some e } }

def call (s : CoSys) : Except Fault (World Entry Callback) → CoSys
  | .ok w => s.setWorld w
  | .error e => s.fail e

/-! ## The dispatch loop -/

/-- The closure of a timer runs, in an executor of its own. -/
def runCallback (s : CoSys) (k : Callback) : CoSys :=
  let s := { s with ran := s.ran ++ [k] }
  match k with
  | .wake c n => s.setWorld (s.world.addExecutor (some (.co c n)))
  | .timeout c n fd d =>
    match s.co c with
    | ⟨.waiting (.io fd' d' timer false), m⟩ =>
      if m = n then
        match s.world.removeEvent fd d.mask with
        | .ok w => (s.setCo c ⟨.waiting (.io fd' d' timer true), m⟩).setWorld
            (w.addExecutor (some (.co c n)))
        | .error e => s.fail e
      else s.setWorld (s.world.addExecutor (some (.co c n)))
    | _ => s.setWorld (s.world.addExecutor (some (.co c n)))

/-- `exec()` of a coroutine: it starts, or goes on after its `yield()`. -/
def resume (s : CoSys) (c issued pick : Nat) : CoSys :=
  let x := s.co c
  let s := { s.setCo c { x with state := .running } with
    phase := .running c, resumed := s.resumed ++ [⟨c, issued, x.suspension⟩] }
  match x.state with
  | .waiting (.io _ _ timer false) => s.call (s.world.cancelTimer pick timer)
  | _ => s

def dispatch (s : CoSys) (pick : Nat) : CoSys :=
  let executor := s.world.scheduler.takeReady.1
  let s := { s with world := { s.world with scheduler := s.world.scheduler.takeReady.2 } }
  match executor with
  | none => { s with phase := if s.world.scheduler.stopping then .left else .blocked }
  | some (.run k) => s.runCallback k
  | some (.co c n) => if (s.co c).state = .done then s else s.resume c n pick

/-! ## Actions of the running coroutine -/

inductive CoAction where
  /-- The wrapped call returned `EAGAIN`. -/
  | ioInner (fd : Nat) (d : EventType) (curMs : Nat)
  /-- `connect` returned `EINPROGRESS`. -/
  | coConnect (fd : Nat)
  | sleepInner (ms curMs : Nat)
  | spawn (c : Nat)
  | coSocket (fd : Nat)
  | coClose (fd : Nat)
  | removeEvent (fd : Nat) (events : BitVec 32)
  | setTimeout (fd : Nat) (d : EventType) (ms : Nat)
  | stop
  | ret

/-- `yield()` of `c` in its next suspension, `w` being the world with its wake-ups registered. -/
def suspend (s : CoSys) (c : Nat) (wait : Wait) (w : Except Fault (World Entry Callback)) : CoSys :=
  match w with
  | .ok w => { s.setCo c ⟨.waiting wait, (s.co c).suspension + 1⟩ with world := w, phase := .loop }
  | .error e => s.fail e

/-- Register a timer of `ms` milliseconds; the timer object and the world. -/
def startTimer (w : World Entry Callback) (curMs ms : Nat) (k : Callback) :
    Timer Callback × Except Fault (World Entry Callback) :=
  let (timer, timerManager) := w.timerManager.newTimer curMs ms (some k) false
  (timer, ({ w with timerManager }.registerTimer timer).map Prod.snd)

def ioInner (s : CoSys) (c fd : Nat) (d : EventType) (curMs ms : Nat) : CoSys :=
  let n := (s.co c).suspension + 1
  let (timer, w) := startTimer s.world curMs ms (.timeout c n fd d)
  s.suspend c (.io fd d timer false) (do
    let w ← w
    (w.registerEvent fd d.mask (some (.co c n)) true).map Prod.snd)

def coConnect (s : CoSys) (c fd : Nat) : CoSys :=
  s.suspend c (.connect fd)
    ((s.world.registerEvent fd epollOut (some (.co c ((s.co c).suspension + 1))) true).map Prod.snd)

def sleepInner (s : CoSys) (c ms curMs : Nat) : CoSys :=
  s.suspend c .sleep
    (startTimer s.world curMs ms (.wake c ((s.co c).suspension + 1))).2

/-- A new coroutine is queued. -/
def spawn (s : CoSys) (c : Nat) : CoSys :=
  (s.setCo c ⟨.start, 0⟩).setWorld (s.world.addExecutor (some (.co c 0)))

def act (s : CoSys) (c : Nat) : CoAction → Option CoSys
  | .ioInner fd d curMs =>
    match s.world.fds.getContext fd with
    | some context =>
      if context.suspends ∧ fd ≠ s.world.wakeupPipeFd then
        some (s.ioInner c fd d curMs (context.timeout d))
      else none
    | none => none
  | .coConnect fd =>
    match s.world.fds.getContext fd with
    | some context =>
      if context.suspends ∧ fd ≠ s.world.wakeupPipeFd then some (s.coConnect c fd) else none
    | none => none
  | .sleepInner ms curMs => some (s.sleepInner c ms curMs)
  | .spawn c' => if (s.co c').state = .unborn then some (s.spawn c') else none
  | .coSocket fd =>
    if fd = s.world.wakeupPipeFd ∨ s.world.epoll.interest fd ≠ none then none
    else some (s.call (s.world.coSocket fd))
  | .coClose fd =>
    if fd = s.world.wakeupPipeFd then none else some (s.call (s.world.coClose fd))
  | .removeEvent fd events =>
    if fd = s.world.wakeupPipeFd then none else some (s.call (s.world.removeEvent fd events))
  | .setTimeout fd d ms =>
    some { s with world := { s.world with fds := s.world.fds.setTimeout fd d ms } }
  | .stop => some { s with world := s.world.stop }
  | .ret => some { s.setCo c { s.co c with state := .done } with phase := .loop }

inductive CoInput where
  | submit (c : Nat)
  | run
  | dispatch (pick : Nat)
  | act (a : CoAction)
  | blockPending (clock : Nat → Nat) (batch : List EpollEvent)

def step (s : CoSys) (i : CoInput) : Option CoSys :=
  if s.world.fault.isSome then none
  else match s.phase, i with
    | .setup, .submit c => if (s.co c).state = .unborn then some (s.spawn c) else none
    | .setup, .run => some { s with phase := .loop }
    | .loop, .dispatch pick => some (s.dispatch pick)
    | .running c, .act a => s.act c a
    | .blocked, .blockPending clock batch =>
      if s.world.epoll.Reports batch then
        some { s.call (s.world.blockPending .run clock batch) with phase := .loop }
      else none
    | _, _ => none

/-! ## Coroutines and the thread -/

section

variable (s : CoSys)

@[simp] theorem call_co (r : Except Fault (World Entry Callback)) : (s.call r).co = s.co := by
  cases r <;> rfl

@[simp] theorem call_phase (r : Except Fault (World Entry Callback)) :
    (s.call r).phase = s.phase := by
  cases r <;> rfl

@[simp] theorem runCallback_phase (k : Callback) : (s.runCallback k).phase = s.phase := by
  unfold runCallback
  split
  · rfl
  · dsimp only
    repeat' split
    all_goals rfl

@[simp] theorem resume_phase (c n pick : Nat) : (s.resume c n pick).phase = .running c := by
  unfold resume
  dsimp only
  split
  · exact call_phase _ _
  · rfl

theorem resume_co (c n pick : Nat) :
    (s.resume c n pick).co = Function.update s.co c { s.co c with state := .running } := by
  unfold resume
  dsimp only
  split
  · exact call_co _ _
  · rfl

end

/-! ## What a step does -/

/-- The actions of the running coroutine `c` that are possible, with the state after them. -/
inductive ActEffect (s : CoSys) (c : Nat) : CoAction → CoSys → Prop where
  | ioInner (fd : Nat) (d : EventType) (curMs ms : Nat) :
      ActEffect s c (.ioInner fd d curMs) (s.ioInner c fd d curMs ms)
  | coConnect (fd : Nat) : ActEffect s c (.coConnect fd) (s.coConnect c fd)
  | sleepInner (ms curMs : Nat) : ActEffect s c (.sleepInner ms curMs) (s.sleepInner c ms curMs)
  | spawn {c' : Nat} (hu : (s.co c').state = .unborn) : ActEffect s c (.spawn c') (s.spawn c')
  | coSocket (fd : Nat) : ActEffect s c (.coSocket fd) (s.call (s.world.coSocket fd))
  | coClose (fd : Nat) : ActEffect s c (.coClose fd) (s.call (s.world.coClose fd))
  | removeEvent (fd : Nat) (events : BitVec 32) :
      ActEffect s c (.removeEvent fd events) (s.call (s.world.removeEvent fd events))
  | setTimeout (fd : Nat) (d : EventType) (ms : Nat) : ActEffect s c (.setTimeout fd d ms)
      { s with world := { s.world with fds := s.world.fds.setTimeout fd d ms } }
  | stop : ActEffect s c .stop { s with world := s.world.stop }
  | ret : ActEffect s c .ret { s.setCo c { s.co c with state := .done } with phase := .loop }

theorem act_effect {s t : CoSys} {c : Nat} {a : CoAction} (h : s.act c a = some t) :
    ActEffect s c a t := by
  cases a with
  | ioInner fd d curMs =>
    simp only [act] at h
    split at h
    · split at h
      · cases h; exact .ioInner ..
      · cases h
    · cases h
  | coConnect fd =>
    simp only [act] at h
    split at h
    · split at h
      · cases h; exact .coConnect fd
      · cases h
    · cases h
  | sleepInner ms curMs => cases h; exact .sleepInner ms curMs
  | spawn c' =>
    simp only [act] at h
    split at h
    · cases h; exact .spawn ‹_›
    · cases h
  | coSocket fd =>
    simp only [act] at h
    split at h
    · cases h
    · cases h; exact .coSocket fd
  | coClose fd =>
    simp only [act] at h
    split at h
    · cases h
    · cases h; exact .coClose fd
  | removeEvent fd events =>
    simp only [act] at h
    split at h
    · cases h
    · cases h; exact .removeEvent fd events
  | setTimeout fd d ms => cases h; exact .setTimeout fd d ms
  | stop => cases h; exact .stop
  | ret => cases h; exact .ret

inductive StepEffect (s : CoSys) : CoInput → CoSys → Prop where
  | submit {c : Nat} (hp : s.phase = .setup) (hu : (s.co c).state = .unborn) :
      StepEffect s (.submit c) (s.spawn c)
  | run (hp : s.phase = .setup) : StepEffect s .run { s with phase := .loop }
  | dispatch {pick : Nat} (hp : s.phase = .loop) : StepEffect s (.dispatch pick) (s.dispatch pick)
  | act {c : Nat} {a : CoAction} {t : CoSys} (hp : s.phase = .running c)
      (ha : ActEffect s c a t) : StepEffect s (.act a) t
  | blockPending {clock : Nat → Nat} {batch : List EpollEvent} (hp : s.phase = .blocked)
      (hb : s.world.epoll.Reports batch) : StepEffect s (.blockPending clock batch)
      { s.call (s.world.blockPending .run clock batch) with phase := .loop }

theorem step_effect {s t : CoSys} {i : CoInput} (h : s.step i = some t) : StepEffect s i t := by
  unfold step at h
  split at h
  · cases h
  · split at h
    · split at h
      · cases h; exact .submit ‹_› ‹_›
      · cases h
    · cases h; exact .run ‹_›
    · cases h; exact .dispatch ‹_›
    · exact .act ‹_› (act_effect h)
    · split at h
      · cases h; exact .blockPending ‹_› ‹_›
      · cases h
    · cases h

end CoSys

end NetBase
