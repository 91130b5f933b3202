import NetBase.Coroutine.Dispatch
import NetBase.IO.Sync

/-!
# Registrations for more than one call

A registration with `call_once = false` should run its callback from the first line for every
event. `blockPending` calls `reuse()` on the executor before it queues it again. A
`PersistSys` is the manager's tables and the thread's executors, sharing the ready queue;
callbacks run to completion, other coroutines may suspend.

Two things go wrong. `resetContext` drops the context it makes, so that an executor that
has run once is resumed after its `terminal()`; and `blockPending` looks up the flags of
the first event of the batch, so that the registration is cleared, and `reuse()` not called,
behind an event of a call-once registration. `persistent_calls` says that callbacks are called
as registered as long as neither is reached.
-/

namespace NetBase

open Lib

/-- Where a callback stands: on its first line, or further on. -/
inductive Place
  | start | inside
  deriving DecidableEq, Repr

structure Registration where
  fd : Nat
  direction : EventType
  executor : Nat
  deriving DecidableEq, Repr

namespace Machine

variable {L : Type}

/-- `resetContext`: what `make_fcontext` returns is not stored, so `context_` stays the
continuation it was. The stack it lives on has been zeroed besides. -/
def resetContext (m : Machine L) (_t : Tid) : Machine L := m

/-- `reuse`, of an executor made from a callback. -/
def reuse (m : Machine L) (e : Nat) : Machine L :=
  if m.state (.callback e) = .terminal then
    (m.setState (.callback e) .ready).resetContext (.callback e)
  else m

end Machine

namespace World

variable {α κ : Type}

/-- The executors an event calls `reuse()` on: those of `first`, the first event's entry. -/
def reused (w : World α κ) (first : Nat) (ev : EpollEvent) : List α :=
  let half := fun d : EventType =>
    if ev.fd ≠ w.wakeupPipeFd ∧ d.In ev.events ∧ (w.entry first).callOnce d = false then
      ((w.entry first).executor d).toList
    else []
  half .read ++ half .write

def reusedBy (w : World α κ) (first : Nat) : List EpollEvent → List α
  | [] => []
  | ev :: batch =>
    match w.handleEvent first ev with
    | .ok w' => w.reused first ev ++ w'.reusedBy first batch
    | .error _ => w.reused first ev

end World

structure PersistSys where
  machine : Machine Place
  world : World Nat Nat
  /-- The registrations with `call_once = false` in force. -/
  regs : List Registration := []
  /-- How often an event has hit the registration. -/
  reports : Registration → Nat := fun _ => 0
  /-- How often the callback of an executor has been entered on its first line. -/
  starts : Nat → Nat := fun _ => 0

inductive PersistInput where
  /-- `registerEvent`, with a new executor unless `callOnce`. -/
  | register (fd : Nat) (d : EventType) (e : Nat) (callOnce : Bool)
  | run
  | dispatch
  | check
  | compute
  | ret
  | throws
  /-- A coroutine yields. -/
  | suspend
  | blockPending (batch : List EpollEvent)

namespace PersistSys

def init (pipe : Nat) : PersistSys where
  machine := .init true
  world := .init pipe

/-- Nobody has seen the executor yet. -/
def Fresh (s : PersistSys) (e : Nat) : Prop :=
  s.machine.state (.callback e) = .init ∧ some e ∉ s.world.scheduler.readyExecutors ∧
    s.starts e = 0 ∧ ∀ f ∈ s.world.fdEvents, ∀ d : EventType, f.executor d ≠ some e

instance (s : PersistSys) (e : Nat) : Decidable (s.Fresh e) :=
  inferInstanceAs (Decidable (_ ∧ _ ∧ _ ∧ _))

def lasting (s : PersistSys) : List Nat := s.regs.map Registration.executor

/-- The events of the batch that hit the registration. -/
def hits (batch : List EpollEvent) (r : Registration) : Nat :=
  batch.countP fun ev => ev.fd = r.fd ∧ ev.Hits r.direction

/-- The thread does `i`; the ready queue is the manager's too. -/
def thread (s : PersistSys) (i : Machine.Input Place) : Option PersistSys :=
  (s.machine.step (fun _ => .start) i).map fun m =>
    { s with machine := m, world := { s.world with scheduler := m.scheduler } }

/-- The dispatch of `e` may have entered its callback on the first line. -/
def countStart (e : Option Nat) (s : PersistSys) : PersistSys :=
  match e, s.machine.control with
  | some e, .body f .start =>
    if f = e then { s with starts := Function.update s.starts e (s.starts e + 1) } else s
  | _, _ => s

/-- The manager's call leaves `w`. -/
def call (s : PersistSys) (w : World Nat Nat) : PersistSys :=
  { s with world := w, machine := { s.machine with scheduler := w.scheduler } }

def register (s : PersistSys) (fd : Nat) (d : EventType) (e : Nat) (callOnce : Bool) :
    PersistSys :=
  let kept := s.regs.filter fun r => ¬ (r.fd = fd ∧ r.direction = d)
  { s.call (s.world.after ((s.world.registerEvent fd d.mask (some e) callOnce).map Prod.snd)) with
    regs := if callOnce then kept else kept ++ [⟨fd, d, e⟩]
    reports := Function.update s.reports ⟨fd, d, e⟩ 0 }

def blockPending (s : PersistSys) (batch : List EpollEvent) : PersistSys :=
  let reused := match batch with
    | [] => []
    | first :: _ => s.world.reusedBy first.fd batch
  let s' := s.call (s.world.after (s.world.blockPending id (fun _ => 0) batch))
  { s' with
    machine := (reused.foldl Machine.reuse s'.machine).goto .loop
    reports := fun r => s.reports r + hits batch r }

def step (s : PersistSys) (i : PersistInput) : Option PersistSys :=
  if s.world.fault.isSome then none
  else match i with
    | .register fd d e callOnce =>
      if fd ≠ s.world.wakeupPipeFd ∧ e ∉ s.lasting ∧ (callOnce = false → s.Fresh e) then
        some (s.register fd d e callOnce)
      else none
    | .run => s.thread .run
    | .dispatch =>
      (s.thread (.round false [])).map (countStart s.machine.scheduler.takeReady.1)
    | .check => s.thread .check
    | .compute => s.thread (.act .compute .inside)
    | .ret => s.thread (.act .ret .inside)
    | .throws => s.thread (.act .throws .inside)
    | .suspend =>
      match s.machine.control with
      | .body e _ => if e ∈ s.lasting then none else s.thread (.act (.yield e) .inside)
      | _ => none
    | .blockPending batch =>
      match s.machine.control with
      | .blocking =>
        if s.world.epoll.Reports batch ∧ s.world.scheduler.stopping = false then
          some (s.blockPending batch)
        else none
      | _ => none

/-- The registration is in force. -/
def InPlace (s : PersistSys) (r : Registration) : Prop :=
  (s.world.entry r.fd).executor r.direction = some r.executor ∧
    (s.world.entry r.fd).callOnce r.direction = false ∧
    ∃ m, s.world.epoll.interest r.fd = some m ∧ r.direction.In m

/-- The process runs, every lasting registration is in force, and its callback has been entered
on its first line once for every event that hit it, those still queued apart. -/
def CalledBack (s : PersistSys) : Prop :=
  s.world.fault = none ∧ ∀ r ∈ s.regs, s.InPlace r ∧
    s.starts r.executor + s.machine.scheduler.readyExecutors.count (some r.executor) = s.reports r

/-- The calls that reach neither mistake: registered descriptors fit the table; an event that
reports a direction has a first event inside the table; and an event that hits a lasting
registration is the first to do so and, if it reports the direction, has a first event whose
entry is registered for more than one call too. -/
def FirstTime (s : PersistSys) : PersistInput → Prop
  | .register fd _ _ _ => Fits s.world.fdEvents fd
  | .blockPending batch => ∀ first ∈ batch.head?, ∀ ev ∈ batch, ev.fd ≠ s.world.wakeupPipeFd →
    (∀ d : EventType, d.In ev.events → first.fd < s.world.fdEvents.length) ∧
    ∀ r ∈ s.regs, ev.fd = r.fd → ev.Hits r.direction →
      s.reports r = 0 ∧
      (r.direction.In ev.events → (s.world.entry first.fd).callOnce r.direction = false)
  | _ => True

instance (s : PersistSys) : ∀ i, Decidable (s.FirstTime i)
  | .register .. => inferInstanceAs (Decidable (Fits _ _))
  | .blockPending _ => inferInstanceAs (Decidable (∀ _ ∈ _, _))
  | .run | .dispatch | .check | .compute | .ret | .throws | .suspend => .isTrue trivial

end PersistSys

/-! ## The thread -/

namespace Machine

variable {L : Type} {entry : Nat → L} {m m' : Machine L} {e : Nat}

/-- Nothing happened to executors that have not run yet, nor to the queue. -/
structure Quiet (m m' : Machine L) : Prop where
  queue : m'.scheduler = m.scheduler
  main : m'.mainExecutor = m.mainExecutor
  init : ∀ e, m.state (.callback e) = .init → m'.state (.callback e) = .init

theorem Quiet.trans {m'' : Machine L} (h : Quiet m m') (h' : Quiet m' m'') : Quiet m m'' :=
  ⟨h'.queue.trans h.queue, h'.main.trans h.main, fun e he => h'.init e (h.init e he)⟩

theorem quiet_goto (m : Machine L) (c : Control L) : Quiet m (m.goto c) := ⟨rfl, rfl, fun _ h => h⟩

theorem swapContext_state (m : Machine L) (src dst : Tid) (ret : Control L) :
    (m.swapContext entry src dst ret).state = m.state ∧
      (m.swapContext entry src dst ret).mainExecutor = m.mainExecutor := by
  unfold swapContext
  split
  · exact ⟨rfl, rfl⟩
  · unfold executorMainFunc
    split <;> exact ⟨rfl, rfl⟩
  · exact ⟨rfl, rfl⟩

theorem quiet_swapContext (m : Machine L) (src dst : Tid) (ret : Control L) :
    Quiet m (m.swapContext entry src dst ret) := by
  obtain ⟨hs, hm⟩ : (m.swapContext entry src dst ret).state = m.state ∧
      (m.swapContext entry src dst ret).mainExecutor = m.mainExecutor :=
    swapContext_state m src dst ret
  exact ⟨congrArg Queue.scheduler (swapContext_queue m src dst ret), hm, fun _ h => by rw [hs, h]⟩

theorem quiet_switch (m : Machine L) (cur src dst : Tid) (ret : Control L) :
    Quiet m ({ m with curExecutor := cur }.swapContext entry src dst ret) := by
  have h : Quiet { m with curExecutor := cur }
      ({ m with curExecutor := cur }.swapContext entry src dst ret) :=
    quiet_swapContext _ src dst ret
  exact ⟨h.queue, h.main, h.init⟩

/-- A state is only ever changed from `Exec`, or on the way to it. -/
theorem quiet_setState {t : Tid} (x : Executor.State)
    (h : ∀ e, t = .callback e → m.state t ≠ .init) : Quiet m (m.setState t x) := by
  refine ⟨rfl, rfl, fun e he => ?_⟩
  have hne : Tid.callback e ≠ t := fun heq => h e heq.symm (heq ▸ he)
  simpa [setState, hne] using he

theorem quiet_terminal (t : Tid) : Quiet m (m.terminal entry t) := by
  unfold terminal
  split
  · rename_i hs
    have h := quiet_setState (m := m) (t := t) .terminal fun _ _ => by rw [hs]; decide
    exact h.trans (quiet_switch _ _ _ _ _)
  · exact quiet_goto _ _

theorem quiet_yield (t : Tid) (ret : Control L) : Quiet m (m.yield entry t ret) := by
  unfold yield
  split
  · exact quiet_goto _ _
  · rename_i hs
    have h := quiet_setState (m := m) (t := t) .holdUp fun _ _ => by rw [not_not.1 hs]; decide
    exact h.trans (quiet_switch _ _ _ _ _)

theorem quiet_scheduler (x : Executor.State) : Quiet m (m.setState .scheduler x) :=
  quiet_setState x fun _ h => by cases h

theorem quiet_mainYield (ret : Control L) : Quiet m (m.mainYield entry .scheduler ret) := by
  unfold mainYield
  split
  · exact quiet_goto _ _
  · exact (quiet_scheduler .holdUp).trans (quiet_switch _ _ _ _ _)

theorem quiet_mainExec (ret : Control L) : Quiet m (m.mainExec entry .scheduler ret) := by
  have hinner : ∀ n : Machine L, Quiet m n →
      Quiet m (mainExecInner entry (n.setState .scheduler .exec) .scheduler ret) := fun n hn =>
    (hn.trans (quiet_scheduler .exec)).trans (quiet_switch _ _ _ _ _)
  unfold mainExec doExec
  simp only [if_true]
  split
  · have h : Quiet m (m.setContext .scheduler .entry) := ⟨rfl, rfl, fun _ h => h⟩
    exact hinner _ (h.trans (quiet_scheduler .ready))
  · exact hinner m ⟨rfl, rfl, fun _ h => h⟩
  · exact hinner m ⟨rfl, rfl, fun _ h => h⟩
  · exact quiet_goto _ _
  · exact quiet_goto _ _
  · exact quiet_goto _ _

theorem quiet_checkReturned (e : Nat) : Quiet m (m.checkReturned e) := by
  unfold checkReturned
  split <;> exact quiet_goto _ _

/-- `exec()` of an executor that has not run enters its callback. -/
theorem exec_init (hm : m.mainExecutor = .scheduler) (hs : m.state (.callback e) = .init)
    (ret : Control L) : (m.exec entry (.callback e) ret).control = .body e (entry e) := by
  have hne : Tid.callback e ≠ m.mainExecutor := by rw [hm]; simp
  unfold exec doExec
  rw [if_neg hne, hs]
  simp only [Bool.false_eq_true, if_false, execInner, initToReady, swapContext, setState,
    setContext, Function.update_self]
  rfl

/-- What `exec()` does to the queue and to the other executors. -/
structure ExecOf (e : Nat) (m m' : Machine L) : Prop where
  queue : m'.scheduler = m.scheduler
  main : m'.mainExecutor = m.mainExecutor
  init : ∀ f, f ≠ e → m.state (.callback f) = .init → m'.state (.callback f) = .init

theorem Quiet.execOf (h : Quiet m m') (e : Nat) : ExecOf e m m' :=
  ⟨h.queue, h.main, fun f _ => h.init f⟩

theorem ExecOf.quiet {m'' : Machine L} (h : ExecOf e m m') (h' : Quiet m' m'') : ExecOf e m m'' :=
  ⟨h'.queue.trans h.queue, h'.main.trans h.main, fun f hf he => h'.init f (h.init f hf he)⟩

theorem execOf_setState (m : Machine L) (e : Nat) (x : Executor.State) :
    ExecOf e m (m.setState (.callback e) x) :=
  ⟨rfl, rfl, fun f hf he => by simpa [setState, hf] using he⟩

theorem exec_execOf (ret : Control L) : ExecOf e m (m.exec entry (.callback e) ret) := by
  have hinner : ∀ n : Machine L, ExecOf e m n →
      ExecOf e m (execInner entry (n.setState (.callback e) .exec) (.callback e) ret) := by
    intro n hn
    have h : ExecOf e m (n.setState (.callback e) .exec) :=
      ⟨hn.queue, hn.main, fun f hf he => (execOf_setState n e .exec).init f hf (hn.init f hf he)⟩
    exact h.quiet (quiet_switch _ _ _ _ _)
  have hself : ExecOf e m m := (quiet_goto m m.control).execOf e
  unfold exec
  split
  · exact (quiet_goto _ _).execOf e
  · unfold doExec
    simp only [Bool.false_eq_true, if_false]
    split
    · refine hinner _ ⟨rfl, rfl, fun f hf he => ?_⟩
      exact (execOf_setState (m.setContext (.callback e) .entry) e .ready).init f hf he
    · exact hinner m hself
    · exact hinner m hself
    · exact (quiet_goto _ _).execOf e
    · exact (quiet_goto _ _).execOf e
    · exact (quiet_goto _ _).execOf e

/-- `reuse()` leaves alone what has not run. -/
theorem quiet_reuse (m : Machine L) (e : Nat) : Quiet m (m.reuse e) := by
  unfold reuse
  split
  · rename_i hs
    exact quiet_setState _ fun _ _ => by rw [hs]; decide
  · exact ⟨rfl, rfl, fun _ h => h⟩

theorem quiet_reuses (es : List Nat) : ∀ m : Machine L, Quiet m (es.foldl reuse m) := by
  induction es with
  | nil => exact fun m => ⟨rfl, rfl, fun _ h => h⟩
  | cons e es ih => exact fun m => (quiet_reuse m e).trans (ih _)

end Machine

/-! ## The table -/

namespace World

variable {w w' : World Nat Nat} {regs : List Registration} {first : Nat} {ev : EpollEvent}
  {batch : List EpollEvent} {f : FdEvents Nat} {r : Registration}

/-- The entries of the lasting registrations are as they were made, and nobody else's hold
their executors. -/
structure Holds (w : World Nat Nat) (r : Registration) : Prop where
  pipe : r.fd ≠ w.wakeupPipeFd
  slot : (w.entry r.fd).executor r.direction = some r.executor
  flag : (w.entry r.fd).callOnce r.direction = false
  bit : r.direction.In (w.entry r.fd).registeredEvents
  only : ∀ g d, (w.entry g).executor d = some r.executor → g = r.fd ∧ d = r.direction

/-- The flags of the first event's entry do not clear the registration. -/
def Spares (w : World Nat Nat) (first : Nat) (ev : EpollEvent) (r : Registration) : Prop :=
  ev.fd = r.fd → r.direction.In ev.events → (w.entry first).callOnce r.direction = false

theorem handled_flag (hf : w.fdEvents[ev.fd]? = some f) (g : Nat) (d : EventType) :
    ((w.handled first ev).entry g).callOnce d = (w.entry g).callOnce d := by
  rw [handled_entry first hf]
  split
  · rename_i hg
    rw [FdEvents.afterEvent_callOnce, hg, entry_eq hf]
  · rfl

theorem Holds.handled (h : w.Holds r) (hf : w.fdEvents[ev.fd]? = some f)
    (hs : w.Spares first ev r) : (w.handled first ev).Holds r := by
  have hentry := handled_entry first hf
  refine ⟨h.pipe, ?_, ?_, ?_, fun g d hx => h.only g d ?_⟩
  · rw [hentry]
    split
    · rename_i hfd
      have hflag := h.flag
      have hslot := h.slot
      rw [hfd, entry_eq hf] at hflag hslot
      simp [hflag, hslot]
    · exact h.slot
  · rw [handled_flag hf]
    exact h.flag
  · rw [hentry]
    split
    · rename_i hfd
      have hbit := h.bit
      rw [hfd, entry_eq hf] at hbit
      refine FdEvents.in_left.2 ⟨hbit, fun hc => ?_⟩
      rw [hs hfd.symm hc.1] at hc
      cases hc.2
    · exact h.bit
  · rw [hentry] at hx
    split at hx
    · rename_i hfd
      rw [FdEvents.afterEvent_executor] at hx
      split at hx
      · cases hx
      · rw [hfd, entry_eq hf]
        exact hx
    · exact hx

/-- An event queues the executor of a registration it hits, once, and of no other. -/
theorem Holds.count_woken (h : w.Holds r) (hf : w.fdEvents[ev.fd]? = some f) :
    (f.woken ev).count (some r.executor) = if ev.fd = r.fd ∧ ev.Hits r.direction then 1 else 0 := by
  have hiff : ∀ d, f.executor d = some r.executor ↔ ev.fd = r.fd ∧ d = r.direction := by
    intro d
    rw [← entry_eq hf]
    refine ⟨h.only ev.fd d, ?_⟩
    rintro ⟨hfd, rfl⟩
    rw [hfd]
    exact h.slot
  have hhalf : ∀ d : EventType, (if ev.Hits d then [f.executor d] else []).count (some r.executor) =
      if ev.Hits d ∧ ev.fd = r.fd ∧ d = r.direction then 1 else 0 := by
    intro d
    by_cases hh : ev.Hits d
    · simp [hh, List.count_cons, hiff d]
    · simp [hh]
  have hsum := congrArg₂ (· + ·) (hhalf .read) (hhalf .write)
  rw [FdEvents.woken, List.count_append]
  apply hsum.trans
  by_cases hfd : ev.fd = r.fd
  · cases hd : r.direction <;> simp [hfd]
  · simp [hfd]

/-- A batch keeps the registrations it spares and queues the executors of those it hits. -/
theorem handleEvents_holds (first : Nat) (h : w.Ready batch)
    (hlen : ∀ ev ∈ batch, ev.fd ≠ w.wakeupPipeFd → ∀ d : EventType, d.In ev.events →
      first < w.fdEvents.length) :
    ∃ w', w.handleEvents first batch = .ok w' ∧ w'.Regular ∧ w'.InSync ∧
      w'.timerManager = w.timerManager ∧ w'.stopped = w.stopped ∧
      ∀ r, w.Holds r → (∀ ev ∈ batch, ev.fd ≠ w.wakeupPipeFd → w.Spares first ev r) →
        w'.Holds r ∧ w'.scheduler.readyExecutors.count (some r.executor) =
          w.scheduler.readyExecutors.count (some r.executor) + PersistSys.hits batch r := by
  induction batch generalizing w with
  | nil => exact ⟨w, rfl, h.regular, h.inSync, rfl, rfl, fun r hr _ => ⟨hr, rfl⟩⟩
  | cons ev batch ih =>
    by_cases hfd : ev.fd = w.wakeupPipeFd
    · obtain ⟨w', hw, hreg, hsync, ht, hst, hk⟩ :=
        ih h.tail fun e he => hlen e (List.mem_cons_of_mem _ he)
      refine ⟨w', ?_, hreg, hsync, ht, hst, fun r hr hs => ?_⟩
      · simp only [handleEvents, handleEvent, hfd, if_true]
        exact hw
      · obtain ⟨hr', hc⟩ := hk r hr fun e he => hs e (List.mem_cons_of_mem _ he)
        refine ⟨hr', hc.trans ?_⟩
        have hne : ¬ ev.fd = r.fd := fun heq => hr.pipe (heq ▸ hfd)
        simp [PersistSys.hits, hne]
    · obtain ⟨f, m, hf, hm⟩ := (h.inSync.2 _ hfd).present (h.known ev List.mem_cons_self)
      have heq := h.handleEvent first hfd (hlen ev List.mem_cons_self hfd)
      have hready : (w.handled first ev).Ready batch := h.handled hfd
      obtain ⟨w', hw, hreg, hsync, ht, hst, hk⟩ :=
        ih hready fun e he hep d hd => by
          rw [handled_length]
          exact hlen e (List.mem_cons_of_mem _ he) hep d hd
      refine ⟨w', ?_, hreg, hsync, ht, hst, fun r hr hs => ?_⟩
      · simp only [handleEvents, heq]
        exact hw
      · have hs' := hs ev List.mem_cons_self hfd
        obtain ⟨hr', hc⟩ := hk r (hr.handled hf hs') fun e he hep hef hd => by
          rw [handled_flag hf]
          exact hs e (List.mem_cons_of_mem _ he) hep hef hd
        refine ⟨hr', hc.trans ?_⟩
        have hq : (w.handled first ev).scheduler.readyExecutors =
            w.scheduler.readyExecutors ++ f.woken ev := by
          simp only [World.handled, entry_eq hf]
        rw [hq, List.count_append, hr.count_woken hf, PersistSys.hits, PersistSys.hits,
          List.countP_cons]
        simp only [decide_eq_true_eq]
        omega

end World

/-! ## The system -/

namespace PersistSys

variable {s t : PersistSys} {r : Registration} {batch : List EpollEvent}

/-- One lasting registration: its entry, and its executor has not run, is queued, or has run. -/
structure Served (s : PersistSys) (r : Registration) : Prop where
  holds : s.world.Holds r
  count : s.starts r.executor + s.machine.scheduler.readyExecutors.count (some r.executor) =
    s.reports r
  once : s.reports r ≤ 1
  idle : s.starts r.executor = 0 → s.machine.state (.callback r.executor) = .init

structure Good (s : PersistSys) : Prop where
  regular : s.world.Regular
  inSync : s.world.InSync
  shared : s.world.scheduler = s.machine.scheduler
  open' : s.world.stopped = false
  timers : s.world.timerManager.timers = []
  main : s.machine.mainExecutor = .scheduler
  served : ∀ r ∈ s.regs, s.Served r

theorem Good.calledBack (h : s.Good) : s.CalledBack := by
  refine ⟨h.inSync.1, fun r hr => ?_⟩
  obtain ⟨⟨hp, hslot, hflag, hbit, -⟩, hcount, -⟩ := h.served r hr
  refine ⟨⟨hslot, hflag, ?_⟩, hcount⟩
  have hsync := h.inSync.2 r.fd hp
  rw [hsync.mask, World.kernelMask] at hbit
  split at hbit
  · exact absurd hbit (EventType.in_zero _)
  · rename_i m hm
    refine ⟨m, hm, ?_⟩
    rw [EventType.in_iff] at hbit ⊢
    rw [BitVec.getLsbD_and, Bool.and_eq_true] at hbit
    exact hbit.1

/-- The world with another queue. -/
theorem holds_queue {w : World Nat Nat} {q : Scheduler Nat} (h : w.Holds r) :
    ({ w with scheduler := q } : World Nat Nat).Holds r :=
  ⟨h.pipe, h.slot, h.flag, h.bit, h.only⟩

theorem Good.world (h : s.Good) (q : Scheduler Nat) :
    World.Regular { s.world with scheduler := q } ∧ World.InSync { s.world with scheduler := q } :=
  h.regular.frame h.inSync h.regular.timers rfl rfl rfl rfl

/-- The thread goes on without touching the queue or an executor that has not run. -/
theorem Good.quiet {m : Machine Place} (h : s.Good) (hq : Machine.Quiet s.machine m) :
    Good { s with machine := m, world := { s.world with scheduler := m.scheduler } } := by
  obtain ⟨hreg, hsync⟩ := h.world m.scheduler
  refine ⟨hreg, hsync, rfl, h.open', h.timers, hq.main.trans h.main, fun r hr => ?_⟩
  obtain ⟨hh, hc, ho, hi⟩ := h.served r hr
  refine ⟨holds_queue hh, ?_, ho, fun h0 => hq.init _ (hi h0)⟩
  show s.starts _ + m.scheduler.readyExecutors.count _ = _
  rw [hq.queue]
  exact hc

theorem Good.thread {i : Machine.Input Place} (h : s.Good) (hs : s.thread i = some t)
    (hq : ∀ m, s.machine.step (fun _ => .start) i = some m → Machine.Quiet s.machine m) :
    t.Good := by
  obtain ⟨m, hm, rfl⟩ := Option.map_eq_some_iff.1 hs
  exact h.quiet (hq m hm)

/-- What callbacks do here: go on, end, or yield. -/
def Calm : Machine.Action → Prop
  | .compute | .ret | .throws | .yield _ => True
  | _ => False

theorem quiet_act {m m' : Machine Place} {a : Machine.Action} (ha : Calm a)
    (h : m.step (fun _ => .start) (.act a .inside) = some m') : Machine.Quiet m m' := by
  obtain ⟨e, rfl⟩ : ∃ e, m' = m.act (fun _ => .start) e a .inside := by
    cases hc : m.control <;> simp [Machine.step, hc] at h
    exact ⟨_, h.symm⟩
  cases a with
  | compute => exact Machine.quiet_goto _ _
  | ret => exact Machine.quiet_terminal _
  | throws => exact Machine.quiet_terminal _
  | yield f =>
    have hheld : Machine.Quiet m { m with
        held := if f = e then Function.update m.held e (some .inside) else m.held } :=
      ⟨rfl, rfl, fun _ h => h⟩
    exact hheld.trans (Machine.quiet_yield _ _)
  | addExecutor x => exact absurd ha id
  | stop => exact absurd ha id
  | kill f => exact absurd ha id

theorem quiet_run {m m' : Machine Place} (h : m.step (fun _ => .start) .run = some m') :
    Machine.Quiet m m' := by
  cases hc : m.control <;> simp [Machine.step, hc] at h
  exact h ▸ Machine.quiet_mainExec _

theorem quiet_check {m m' : Machine Place} (h : m.step (fun _ => .start) .check = some m') :
    Machine.Quiet m m' := by
  cases hc : m.control <;> simp [Machine.step, hc] at h
  exact h ▸ Machine.quiet_checkReturned _

/-! ### Dispatch -/

/-- What a dispatch does: nothing is queued or only null, and the thread goes on; or the
executor at the front is taken and, unless it has ended, executed. -/
theorem round_cases {m m' : Machine Place}
    (h : m.step (fun _ => .start) (.round false []) = some m') :
    (m.scheduler.takeReady.1 = none ∧ Machine.Quiet m.takeReady.2 m') ∨
    ∃ e, m.scheduler.takeReady.1 = some e ∧ Machine.ExecOf e m.takeReady.2 m' ∧
      (m.mainExecutor = .scheduler → m.state (.callback e) = .init →
        m'.control = .body e .start) := by
  have hm : m' = m.threadScheduleFunc (fun _ => .start) false [] := by
    cases hc : m.control <;> simp [Machine.step, hc] at h
    exact h.symm
  have hno : ¬ m.scheduler.stopPending false = true := by simp [Scheduler.stopPending]
  rw [hm]
  unfold Machine.threadScheduleFunc
  rw [if_neg hno]
  simp only [Machine.addExecutors, List.foldl_nil]
  have hpair : m.takeReady = (m.scheduler.takeReady.1, m.takeReady.2) := rfl
  rw [hpair]
  cases ht : m.scheduler.takeReady.1 with
  | none =>
    refine .inl ⟨rfl, ?_⟩
    simp only
    split
    · exact Machine.quiet_mainYield _
    · exact Machine.quiet_goto _ _
  | some e =>
    refine .inr ⟨e, rfl, ?_⟩
    simp only
    split
    · exact ⟨Machine.exec_execOf _, fun hmain hs =>
        Machine.exec_init (m := m.takeReady.2) hmain hs _⟩
    · rename_i hend
      refine ⟨(Machine.quiet_goto _ _).execOf e, fun _ hs => absurd ?_ hend⟩
      rw [Machine.takeReady_stacks, hs]
      decide

theorem count_takeReady (q : Scheduler Nat) (e : Nat) :
    q.readyExecutors.count (some e) =
      q.takeReady.2.readyExecutors.count (some e) + if q.takeReady.1 = some e then 1 else 0 := by
  unfold Scheduler.takeReady
  cases hq : q.readyExecutors with
  | nil => simp [hq]
  | cons x rest => simp [List.count_cons]

/-- `countStart` counts for the executor dispatched and for no other. -/
theorem countStart_other (e : Option Nat) (s : PersistSys) {f : Nat} (h : e ≠ some f) :
    (countStart e s).starts f = s.starts f := by
  unfold countStart
  split
  · split
    · have hf : f ≠ _ := fun heq => h (congrArg some heq.symm)
      exact Function.update_of_ne hf _ _
    · rfl
  · rfl

theorem countStart_self {e : Nat} (h : s.machine.control = .body e .start) :
    (countStart (some e) s).starts e = s.starts e + 1 := by
  simp [countStart, h]

theorem countStart_same (e : Option Nat) (s : PersistSys) :
    (countStart e s).world = s.world ∧ (countStart e s).machine = s.machine ∧
      (countStart e s).regs = s.regs ∧ (countStart e s).reports = s.reports := by
  unfold countStart
  split
  · split <;> exact ⟨rfl, rfl, rfl, rfl⟩
  · exact ⟨rfl, rfl, rfl, rfl⟩

theorem Good.dispatch (h : s.Good)
    (hs : (s.thread (.round false [])).map (countStart s.machine.scheduler.takeReady.1) = some t) :
    t.Good := by
  obtain ⟨u, hu, rfl⟩ := Option.map_eq_some_iff.1 hs
  obtain ⟨m, hm, rfl⟩ := Option.map_eq_some_iff.1 hu
  obtain ⟨hreg, hsync⟩ := h.world m.scheduler
  set u : PersistSys := { s with machine := m, world := { s.world with scheduler := m.scheduler } }
  obtain ⟨hworld, hmach, hregs, hrep⟩ := countStart_same s.machine.scheduler.takeReady.1 u
  have hmain : m.mainExecutor = .scheduler := by
    rcases round_cases hm with ⟨-, hq⟩ | ⟨e, -, he, -⟩
    · exact hq.main.trans h.main
    · exact he.main.trans h.main
  have hqueue : m.scheduler = s.machine.scheduler.takeReady.2 := by
    rcases round_cases hm with ⟨-, hq⟩ | ⟨e, -, he, -⟩
    · exact hq.queue
    · exact he.queue
  refine ⟨hworld ▸ hreg, hworld ▸ hsync, by rw [hworld, hmach], hworld ▸ h.open', hworld ▸ h.timers,
    by rw [hmach, hmain], fun r hr => ?_⟩
  rw [hregs] at hr
  obtain ⟨hh, hc, ho, hi⟩ := h.served r hr
  rw [count_takeReady] at hc
  refine ⟨hworld ▸ holds_queue hh, ?_, hrep ▸ ho, ?_⟩ <;> rw [hmach]
  · rw [hrep, hqueue]
    rcases round_cases hm with ⟨hnone, -⟩ | ⟨e, he, -, hstart⟩
    · rw [countStart_other _ _ (by rw [hnone]; simp)]
      rw [hnone, if_neg (by simp)] at hc
      exact hc
    · by_cases hre : r.executor = e
      · -- the executor taken is this one's: it has not run yet
        subst hre
        rw [he, if_pos rfl] at hc
        have h0 : s.starts r.executor = 0 := by omega
        rw [he, countStart_self (hstart h.main (hi h0))]
        show s.starts r.executor + 1 +
          s.machine.scheduler.takeReady.2.readyExecutors.count (some r.executor) = s.reports r
        omega
      · have hne : some e ≠ some r.executor := fun heq => hre (Option.some.inj heq).symm
        rw [countStart_other _ _ (by rw [he]; exact hne)]
        rw [he, if_neg hne] at hc
        exact hc
  · intro h0
    rcases round_cases hm with ⟨hnone, hq⟩ | ⟨e, he, hx, hstart⟩
    · rw [countStart_other _ _ (by rw [hnone]; simp)] at h0
      exact hq.init _ (hi h0)
    · by_cases hre : r.executor = e
      · subst hre
        rw [he, if_pos rfl] at hc
        have h0' : s.starts r.executor = 0 := by omega
        rw [he, countStart_self (hstart h.main (hi h0'))] at h0
        omega
      · have hne : some e ≠ some r.executor := fun heq => hre (Option.some.inj heq).symm
        rw [countStart_other _ _ (by rw [he]; exact hne)] at h0
        exact hx.init _ hre (hi h0)

/-! ### Registration and events -/

theorem Fresh.slots {e : Nat} (h : s.Fresh e) (g : Nat) (d : EventType) :
    (s.world.entry g).executor d ≠ some e := by
  unfold World.entry
  cases hg : s.world.fdEvents[g]? with
  | none => cases d <;> simp [FdEvents.fresh, FdEvents.executor]
  | some f => exact h.2.2.2 f (List.mem_of_getElem? hg) d

theorem holds_registered {w : World Nat Nat} {fd e : Nat} {d : EventType} {b : Bool}
    (hfit : Fits w.fdEvents fd) (h : w.Holds r) (hne : ¬ (r.fd = fd ∧ r.direction = d))
    (he : e ≠ r.executor) : (w.registered fd d (some e) b).Holds r := by
  refine ⟨h.pipe, ?_, ?_, ?_, fun g d' hx => ?_⟩
  · rw [World.registered_executor hfit, if_neg hne]
    exact h.slot
  · rw [World.registered_callOnce hfit, if_neg hne]
    exact h.flag
  · exact (World.in_registered hfit _ _).2 (.inl h.bit)
  · rw [World.registered_executor hfit] at hx
    split at hx
    · exact absurd (Option.some.inj hx) he
    · exact h.only g d' hx

theorem holds_new {w : World Nat Nat} {fd e : Nat} {d : EventType} (hfit : Fits w.fdEvents fd)
    (hp : fd ≠ w.wakeupPipeFd) (hx : ∀ g d', (w.entry g).executor d' ≠ some e) :
    (w.registered fd d (some e) false).Holds ⟨fd, d, e⟩ := by
  refine ⟨hp, ?_, ?_, ?_, fun g d' hgd => ?_⟩
  · rw [World.registered_executor hfit, if_pos ⟨rfl, rfl⟩]
  · rw [World.registered_callOnce hfit, if_pos ⟨rfl, rfl⟩]
  · exact (World.in_registered hfit _ _).2 (.inr ⟨rfl, rfl⟩)
  · rw [World.registered_executor hfit] at hgd
    split at hgd
    · assumption
    · exact absurd hgd (hx g d')

theorem Good.register {fd e : Nat} {d : EventType} {callOnce : Bool} (h : s.Good)
    (hp : fd ≠ s.world.wakeupPipeFd) (he : e ∉ s.lasting) (hf : callOnce = false → s.Fresh e)
    (hfit : Fits s.world.fdEvents fd) : (s.register fd d e callOnce).Good := by
  have hexact : World.Exact
      (s.world.after ((s.world.registerEvent fd d.mask (some e) callOnce).map Prod.snd))
      (World.Keeps s.world (.registerEvent fd d.mask e callOnce)) :=
    World.registerEvent_exact h.regular h.inSync hp
  have hkeep := hexact.keeps (.inr (.inr hfit))
  have heq := World.registerEvent_eq (x := some e) (b := callOnce) (d := d) h.open' hfit
    (h.inSync.2 fd hp).absent
  simp only [heq, Except.map, World.after] at hkeep
  have hworld : (s.register fd d e callOnce).world = s.world.registered fd d (some e) callOnce := by
    simp only [PersistSys.register, call, heq, Except.map, World.after]
  have hmach : (s.register fd d e callOnce).machine = s.machine := by
    have : (s.world.registered fd d (some e) callOnce).scheduler = s.machine.scheduler := h.shared
    simp only [PersistSys.register, call, heq, Except.map, World.after, this]
  refine ⟨hworld ▸ hkeep.1, hworld ▸ hkeep.2, ?_, ?_, ?_, by rw [hmach, h.main], fun r hr => ?_⟩
  · rw [hworld, hmach]
    exact h.shared
  · rw [hworld]
    exact h.open'
  · rw [hworld]
    exact h.timers
  · have hold : ∀ r ∈ s.regs.filter (fun r => ¬ (r.fd = fd ∧ r.direction = d)),
        (s.register fd d e callOnce).Served r := by
      intro r hr
      obtain ⟨hr, hne⟩ := List.mem_filter.1 hr
      have her : e ≠ r.executor := fun heq => he (heq ▸ List.mem_map_of_mem hr)
      obtain ⟨hh, hc, ho, hi⟩ := h.served r hr
      have hrep : (s.register fd d e callOnce).reports r = s.reports r :=
        Function.update_of_ne (fun heq => her (by rw [heq])) _ _
      refine ⟨hworld ▸ holds_registered hfit hh (of_decide_eq_true hne) her, ?_, hrep ▸ ho, ?_⟩
      · rw [hmach, hrep]
        exact hc
      · rw [hmach]
        exact hi
    cases callOnce with
    | true => exact hold r hr
    | false =>
      rcases List.mem_append.1 hr with hr | hr
      · exact hold r hr
      · obtain rfl := List.mem_singleton.1 hr
        have hfresh := hf rfl
        have hrep : (s.register fd d e false).reports ⟨fd, d, e⟩ = 0 := Function.update_self _ _ _
        refine ⟨hworld ▸ holds_new hfit hp hfresh.slots, ?_, by rw [hrep]; omega, ?_⟩
        · rw [hmach, hrep, ← h.shared, List.count_eq_zero.2 hfresh.2.1]
          exact hfresh.2.2.1
        · rw [hmach]
          exact fun _ => hfresh.1

theorem hits_le_one (hd : (batch.map EpollEvent.fd).Nodup) (r : Registration) :
    hits batch r ≤ 1 := by
  have hle : hits batch r ≤ (batch.map EpollEvent.fd).count r.fd := by
    rw [hits, List.count_eq_countP, List.countP_map]
    apply List.countP_mono_left
    intro ev _ h
    simp only [decide_eq_true_eq] at h
    simpa using h.1
  exact hle.trans (List.nodup_iff_count_le_one.1 hd r.fd)

theorem takeExpired_none {m : TimerManager Nat} (h : m.timers = []) (clock : Nat → Nat) :
    m.takeExpiredTimers clock = ([], m) := by
  obtain ⟨timers, nextId⟩ := m
  cases h
  rfl

/-- Without timers, taking the expired ones changes nothing the registrations see. -/
theorem expired_holds (h : s.Good) (clock : Nat → Nat) :
    (s.world.expired id clock).timerManager.timers = [] ∧
      (s.world.expired id clock).scheduler.readyExecutors = s.world.scheduler.readyExecutors ∧
      ∀ r, s.world.Holds r → (s.world.expired id clock).Holds r := by
  have ht := takeExpired_none h.timers clock
  refine ⟨?_, ?_, fun r hr => ⟨hr.pipe, hr.slot, hr.flag, hr.bit, hr.only⟩⟩
  · rw [World.expired, ht]
    exact h.timers
  · simp [World.expired, ht, World.called]

/-- What `blockPending` leaves in the manager. -/
theorem blockPending_world (h : s.Good) (hb : s.world.epoll.Reports batch)
    (hst : s.world.scheduler.stopping = false) (hc : s.FirstTime (.blockPending batch)) :
    ∃ w, s.world.blockPending id (fun _ => 0) batch = .ok w ∧ w.Regular ∧ w.InSync ∧
      w.timerManager.timers = [] ∧ w.stopped = false ∧
      ∀ r ∈ s.regs, w.Holds r ∧ w.scheduler.readyExecutors.count (some r.executor) =
        s.world.scheduler.readyExecutors.count (some r.executor) + hits batch r := by
  obtain ⟨htimers, hqueue, hholds⟩ := expired_holds h fun _ => 0
  obtain ⟨hreg, hsync⟩ : (s.world.expired id fun _ => 0).Regular ∧
      (s.world.expired id fun _ => 0).InSync :=
    h.regular.frame h.inSync (World.expired_timers h.regular.timers) rfl rfl rfl rfl
  rw [World.blockPending_eq h.regular.timers hst]
  cases batch with
  | nil =>
    exact ⟨_, rfl, hreg, hsync, htimers, h.open', fun r hr =>
      ⟨hholds r (h.served r hr).holds, by rw [hqueue]; rfl⟩⟩
  | cons first rest =>
    have hready : (s.world.expired id fun _ => 0).Ready (first :: rest) := by
      refine ⟨hreg, hsync, hst, hb.2.1, fun e he => ?_⟩
      obtain ⟨m, hm, -⟩ := hb.interest he
      exact Option.ne_none_iff_exists'.2 ⟨m, hm⟩
    obtain ⟨w, hw, hreg', hsync', ht, hstop, hk⟩ := World.handleEvents_holds first.fd
      hready fun ev he hep => (hc first rfl ev he hep).1
    refine ⟨w, hw, hreg', hsync', ht ▸ htimers, hstop.trans h.open', fun r hr => ?_⟩
    obtain ⟨hr', hcount⟩ := hk r (hholds r (h.served r hr).holds) fun ev he hep hfd hin =>
      ((hc first rfl ev he hep).2 r hr hfd (EpollEvent.hits_iff.2 (.inl hin))).2 hin
    exact ⟨hr', by rw [hcount, hqueue]⟩

theorem Good.blockPending (h : s.Good) (hb : s.world.epoll.Reports batch)
    (hst : s.world.scheduler.stopping = false) (hc : s.FirstTime (.blockPending batch)) :
    (s.blockPending batch).Good := by
  obtain ⟨w, hw, hreg, hsync, ht, hstop, hk⟩ := blockPending_world h hb hst hc
  have hworld : (s.blockPending batch).world = w := by
    simp only [PersistSys.blockPending, call, hw, World.after]
  obtain ⟨es, hmach⟩ : ∃ es : List Nat, (s.blockPending batch).machine =
      (es.foldl Machine.reuse { s.machine with scheduler := w.scheduler }).goto .loop := by
    simp only [PersistSys.blockPending, call, hw, World.after]
    exact ⟨_, rfl⟩
  have hquiet : Machine.Quiet { s.machine with scheduler := w.scheduler }
      (s.blockPending batch).machine :=
    hmach ▸ (Machine.quiet_reuses es _).trans (Machine.quiet_goto _ _)
  refine ⟨hworld ▸ hreg, hworld ▸ hsync, ?_, hworld ▸ hstop, hworld ▸ ht,
    hquiet.main.trans h.main, fun r hr => ?_⟩
  · rw [hworld, hquiet.queue]
  · obtain ⟨-, hcount, ho, hi⟩ := h.served r hr
    obtain ⟨hh, hq⟩ := hk r hr
    have hle := hits_le_one hb.2.1 r
    have hrep : (s.blockPending batch).reports r = s.reports r + hits batch r := rfl
    have hstarts : (s.blockPending batch).starts = s.starts := rfl
    refine ⟨hworld ▸ hh, ?_, ?_, fun h0 => hquiet.init _ (hi h0)⟩
    · rw [hquiet.queue, hrep, hstarts, hq, h.shared]
      omega
    · -- hit now, so not before
      rw [hrep]
      by_cases hz : hits batch r = 0
      · omega
      · obtain ⟨ev, he, hev⟩ := List.countP_pos_iff.1 (Nat.pos_of_ne_zero hz)
        simp only [decide_eq_true_eq] at hev
        obtain ⟨first, rest, rfl⟩ := List.exists_cons_of_ne_nil (List.ne_nil_of_mem he)
        have hpipe := (h.served r hr).holds.pipe
        have := ((hc first rfl ev he (by rw [hev.1]; exact hpipe)).2 r hr hev.1 hev.2).1
        omega

/-! ### Whole runs -/

theorem good_step {i : PersistInput} (h : s.Good) (hc : s.FirstTime i)
    (hs : step s i = some t) : t.Good := by
  unfold step at hs
  split at hs
  · cases hs
  cases i with
  | register fd d e callOnce =>
    simp only at hs
    split at hs
    · rename_i hok
      cases hs
      exact h.register hok.1 hok.2.1 hok.2.2 hc
    · cases hs
  | run => exact h.thread hs fun m => quiet_run
  | dispatch => exact h.dispatch hs
  | check => exact h.thread hs fun m => quiet_check
  | compute => exact h.thread hs fun m => quiet_act trivial
  | ret => exact h.thread hs fun m => quiet_act trivial
  | throws => exact h.thread hs fun m => quiet_act trivial
  | suspend =>
    simp only at hs
    split at hs
    · split at hs
      · cases hs
      · exact h.thread hs fun m => quiet_act trivial
    · cases hs
  | blockPending batch =>
    simp only at hs
    split at hs
    · split at hs
      · rename_i hok
        cases hs
        exact h.blockPending hok.1 hok.2 hc
      · cases hs
    · cases hs

theorem good_init (pipe : Nat) : (init pipe).Good where
  regular := World.init_regular pipe
  inSync := World.init_inSync pipe
  shared := rfl
  open' := rfl
  timers := rfl
  main := rfl
  served r hr := by cases hr

/-- **Registrations for more than one call.** In every run in which every registration is hit
by one event at most, behind a first event registered for more than one call in that direction,
the callbacks are called as registered, in every state. -/
theorem persistent_calls {pipe : Nat} {is : List PersistInput}
    (hm : Meets step FirstTime (init pipe) is) : Along step CalledBack (init pipe) is :=
  (hm.along (fun _ _ _ h hc hs => good_step h hc hs) (good_init pipe)).imp fun _ h => h.calledBack

/-- Two registrations, hit together, the second one's event first. -/
theorem persistent_calls_pair : ∃ s, run step (init 3)
    [.register 5 .read 1 false, .register 6 .read 2 false, .run, .dispatch,
      .blockPending [⟨6, epollIn⟩, ⟨5, epollIn⟩], .dispatch, .compute, .ret, .check, .dispatch,
      .ret, .check, .dispatch] = some s ∧
    (s.starts 1 = 1 ∧ s.starts 2 = 1) ∧ s.CalledBack := by
  refine run_and ⟨_, Option.eq_some_of_isSome (by decide +kernel), by decide +kernel⟩
    fun s hs _ => ?_
  exact (persistent_calls (by decide +kernel)).last hs

/-- The second event of a registration does not call its callback: the thread is where the first
call ended. Behind an event of a call-once registration a registration is gone. -/
theorem persistent_not_called :
    (∃ s, run step (init 3)
        [.register 5 .read 1 false, .run, .dispatch, .blockPending [⟨5, epollIn⟩], .dispatch, .ret,
          .check, .dispatch, .blockPending [⟨5, epollIn⟩], .dispatch] = some s ∧
      (s.machine.control = .finished ∧ s.regs = [⟨5, .read, 1⟩] ∧ s.starts 1 = 1 ∧
        s.reports ⟨5, .read, 1⟩ = 2 ∧ s.machine.scheduler.readyExecutors = []) ∧ ¬ s.CalledBack) ∧
    ∃ s, run step (init 3)
        [.register 5 .read 1 true, .register 6 .read 2 false, .run, .dispatch,
          .blockPending [⟨5, epollIn⟩, ⟨6, epollIn⟩]] = some s ∧
      (s.regs = [⟨6, .read, 2⟩] ∧ s.world.epoll.interest 6 = none) ∧ ¬ s.CalledBack := by
  refine ⟨?_, ?_⟩
  · refine run_and ⟨_, Option.eq_some_of_isSome (by decide +kernel), by decide +kernel⟩
      fun s _ hs h => ?_
    obtain ⟨-, hregs, hstarts, hrep, hq⟩ := hs
    have := (h.2 ⟨5, .read, 1⟩ (by rw [hregs]; exact List.mem_singleton_self _)).2
    rw [hstarts, hrep, hq] at this
    exact absurd this (by decide)
  · refine run_and ⟨_, Option.eq_some_of_isSome (by decide +kernel), by decide +kernel⟩
      fun s _ hs h => ?_
    obtain ⟨hregs, hi⟩ := hs
    obtain ⟨⟨-, -, m, hm, -⟩, -⟩ :=
      h.2 ⟨6, .read, 2⟩ (by rw [hregs]; exact List.mem_singleton_self _)
    cases hi.symm.trans hm

end PersistSys

end NetBase
