import NetBase.IO.GracefulStop

/-!
# The life of a TCP server

`TcpServer` of `src/net/tcp/tcp_server.cpp`, run by the coroutines of `CoIo`. `startServe`
queues an executor for each listening socket, which holds a copy of it and accepts while
`serving_` is set. `stopServe` resets `serving_` and queues one that closes the sockets in
`listen_sockets_`, which stay there with the descriptor -1.

So a server that is started again accepts on -1, and one that is started again before the
sockets are closed accepts on closed ones. `startServe` is safe when every listening socket is
open and none is about to be closed.
-/

namespace NetBase

open Lib

/-- `Socket`; `none` is the descriptor -1. -/
structure Socket where
  fd : Option Nat := none
  deriving DecidableEq, Repr

/-- What an executor runs. -/
inductive Program where
  | user
  /-- The loop of `startServe` on its copy of the listening socket with index `origin`, before the
  test of `serving_` or in `co_accept`. -/
  | acceptLoop (socket : Socket) (origin : Nat) (accepting : Bool)
  /-- The closure of `stopServe`. -/
  | closing
  deriving DecidableEq, Repr

/-- Ghost: an iteration of an accept loop that has begun, with the descriptor of the copy and
whether `stopServe` had closed the original. -/
structure Iteration where
  fd : Option Nat
  closed : Bool
  deriving DecidableEq, Repr

/-- The socket was fit to accept on. -/
def Iteration.Open (x : Iteration) : Prop := x.fd.isSome = true ∧ x.closed = false

instance (x : Iteration) : Decidable x.Open := inferInstanceAs (Decidable (_ ∧ _))

structure TcpSys where
  sys : CoSys
  serving : Bool := false
  listenSockets : List Socket := []
  program : Nat → Program := fun _ => .user
  /-- The executors queued so far. -/
  posted : List Nat := []
  iterations : List Iteration := []

/-- How `bindOne` fares. -/
inductive BindResult where
  | noSocket
  /-- `bind` or `listen` failed; the socket is left open. -/
  | failed (fd : Nat)
  | listening (fd : Nat)

inductive ServerCall where
  | bind (r : BindResult)
  /-- `bind` of a list of addresses. -/
  | bindList (rs : List BindResult)
  | addBindAddr (r : BindResult)
  /-- The new executors are `cs`, in the order of the sockets. -/
  | startServe (cs : List Nat)
  /-- The new executor is `c`. -/
  | stopServe (c : Nat)

/-- What `accept_sys` returns. -/
inductive AcceptResult where
  /-- A connection, for which `onAccept` queues the executor `c`. -/
  | connection (fd c : Nat)
  | interrupted
  | wouldBlock (curMs : Nat)
  | failed

namespace TcpSys

def init (pipe : Nat) : TcpSys where
  sys := CoSys.init pipe

/-- `stopServe` has closed the listening socket with index `i`. -/
def closed (s : TcpSys) (i : Nat) : Bool :=
  match s.listenSockets[i]? with
  | some socket => socket.fd.isNone
  | none => false

/-- A closure of `stopServe` has been queued and has not run. -/
def Pending (s : TcpSys) : Prop :=
  ∃ c ∈ s.posted, s.program c = .closing ∧ (s.sys.co c).state ≠ .done

instance (s : TcpSys) : Decidable s.Pending := inferInstanceAs (Decidable (∃ c ∈ s.posted, _ ∧ _))

/-- `addExecutor` of a new executor `c`; a scheduler that is stopping refuses it. -/
def post (s : TcpSys) (c : Nat) (p : Program) : Option TcpSys :=
  if (s.sys.co c).state ≠ .unborn then none
  else if s.sys.world.scheduler.stopping then some s
  else some { s with
    sys := s.sys.spawn c
    program := Function.update s.program c p
    posted := s.posted ++ [c] }

/-! ## `bind` -/

/-- `co_socket` or `co_accept` with the number `fd`. -/
def openFd (s : TcpSys) (fd : Nat) : Option TcpSys :=
  if fd = s.sys.world.wakeupPipeFd ∨ s.sys.world.epoll.interest fd ≠ none then none
  else some { s with sys := s.sys.call (s.sys.world.coSocket fd) }

def bindOne (s : TcpSys) : BindResult → Option (Bool × TcpSys)
  | .noSocket => some (false, s)
  | .failed fd => (s.openFd fd).map fun s => (false, s)
  | .listening fd =>
    (s.openFd fd).map fun s => (true, { s with listenSockets := s.listenSockets ++ [⟨some fd⟩] })

/-- The loop over the addresses stops at the first one that fails. -/
def bindLoop (s : TcpSys) : List BindResult → Option TcpSys
  | [] => some s
  | r :: rs => do
    let (bound, s) ← s.bindOne r
    if bound then s.bindLoop rs else some s

/-! ## `startServe` and `stopServe` -/

/-- Queue an accept loop for each listening socket, the first of which has index `i`. -/
def startLoops (s : TcpSys) (i : Nat) : List Nat → List Socket → Option TcpSys
  | [], [] => some s
  | c :: cs, socket :: sockets => do
    let s ← s.post c (.acceptLoop socket i false)
    s.startLoops (i + 1) cs sockets
  | _, _ => none

def startServe (s : TcpSys) (cs : List Nat) : Option TcpSys :=
  if s.serving then some s
  else (s.startLoops 0 cs s.listenSockets).map fun s => { s with serving := true }

def stopServe (s : TcpSys) (c : Nat) : Option TcpSys :=
  if !s.serving then some s else { s with serving := false }.post c .closing

def call (s : TcpSys) : ServerCall → Option TcpSys
  | .bind r => if s.listenSockets.isEmpty then (s.bindOne r).map Prod.snd else some s
  | .bindList rs => if s.listenSockets.isEmpty then s.bindLoop rs else some s
  | .addBindAddr r => (s.bindOne r).map Prod.snd
  | .startServe cs => s.startServe cs
  | .stopServe c => s.stopServe c

/-! ## The executors of the server -/

/-- The executor `c` returns. -/
def finish (s : CoSys) (c : Nat) : CoSys :=
  { s.setCo c { s.co c with state := .done } with phase := .loop }

/-- `while (serving_)`. On -1 `Socket::accept` returns at once, and the test is next again. -/
def loopTest (s : TcpSys) (c : Nat) (socket : Socket) (i : Nat) : TcpSys :=
  if s.serving then
    { s with
      program := Function.update s.program c (.acceptLoop socket i socket.fd.isSome)
      iterations := s.iterations ++ [⟨socket.fd, s.closed i⟩] }
  else { s with sys := finish s.sys c }

/-- `sockopt::accept` asserts that `accept` succeeds. -/
def acceptFails (s : TcpSys) : TcpSys := { s with sys := s.sys.fail .assertFailed }

/-- A round of `ioInner` in `co_accept`. -/
def accept (s : TcpSys) (c : Nat) (socket : Socket) (i fd : Nat) : AcceptResult → Option TcpSys
  | .connection fd' c' => do
    let s ← s.openFd fd'
    let s ← s.post c' .user
    some { s with program := Function.update s.program c (.acceptLoop socket i false) }
  | .interrupted =>
    match s.sys.world.fds.getContext fd with
    | some context => some (if context.suspends then s else s.acceptFails)
    | none => some s.acceptFails
  | .wouldBlock curMs =>
    match s.sys.world.fds.getContext fd with
    | some context =>
      if context.suspends then
        if fd = s.sys.world.wakeupPipeFd then none
        else some { s with sys := s.sys.ioInner c fd .read curMs (context.timeout .read) }
      else some s.acceptFails
    | none => some s.acceptFails
  | .failed => some s.acceptFails

/-- The body of the loop in the closure of `stopServe`; `shutdown fd` is whether `shutdown`
succeeds, which is asserted. -/
def closeSocket (shutdown : Nat → Bool) (w : World Entry Callback) (socket : Socket) :
    Except Fault (World Entry Callback) :=
  match socket.fd with
  | none => .error .assertFailed
  | some fd =>
    if shutdown fd then do
      let w ← w.removeEvent fd epollOut
      let w ← w.removeEvent fd epollIn
      w.coClose fd
    else .error .assertFailed

def closeSockets (s : TcpSys) (c : Nat) (shutdown : Nat → Bool) : TcpSys :=
  match s.listenSockets.foldlM (closeSocket shutdown) s.sys.world with
  | .ok w => { s with
      sys := finish (s.sys.setWorld w) c
      listenSockets := s.listenSockets.map fun _ => ⟨none⟩ }
  | .error e => { s with sys := s.sys.fail e }

/-- The loop of the scheduler. A coroutine that is entered after a time-out goes on with
`accept` failing. -/
def dispatch (s : TcpSys) (pick : Nat) : TcpSys :=
  let t := { s with sys := s.sys.dispatch pick }
  match t.sys.phase with
  | .running c =>
    match s.program c, (s.sys.co c).state with
    | .acceptLoop .., .waiting (.io _ _ _ true) => t.acceptFails
    | _, _ => t
  | _ => t

inductive Input where
  /-- The main thread or a user's coroutine calls the server. -/
  | call (f : ServerCall)
  | spawn (c : Nat)
  /-- A user's coroutine does something else. -/
  | act (a : CoSys.CoAction)
  | run
  | dispatch (pick : Nat)
  | blockPending (clock : Nat → Nat) (batch : List EpollEvent)
  | loopTest
  | accept (r : AcceptResult)
  | closeSockets (shutdown : Nat → Bool)

/-- The code that runs is the user's. -/
def mayCall (s : TcpSys) : Bool :=
  match s.sys.phase with
  | .setup | .left => true
  | .running c => s.program c = .user
  | .loop | .blocked => false

def step (s : TcpSys) (i : Input) : Option TcpSys :=
  if s.sys.world.fault.isSome then none
  else match i with
    | .call f => if s.mayCall then s.call f else none
    | .spawn c => if s.mayCall then s.post c .user else none
    | .act a =>
      match s.sys.phase, a with
      | .running _, .spawn _ => none
      | .running c, a =>
        if s.program c = .user then (s.sys.act c a).map fun sys => { s with sys } else none
      | _, _ => none
    | .run =>
      if s.sys.phase = .setup then some { s with sys := { s.sys with phase := .loop } } else none
    | .dispatch pick => if s.sys.phase = .loop then some (s.dispatch pick) else none
    | .blockPending clock batch =>
      if s.sys.phase = .blocked ∧ s.sys.world.epoll.Reports batch then
        some { s with sys :=
          { s.sys.call (s.sys.world.blockPending .run clock batch) with phase := .loop } }
      else none
    | .loopTest =>
      match s.sys.phase with
      | .running c =>
        match s.program c with
        | .acceptLoop socket i false => some (s.loopTest c socket i)
        | _ => none
      | _ => none
    | .accept r =>
      match s.sys.phase with
      | .running c =>
        match s.program c with
        | .acceptLoop ⟨some fd⟩ i true => s.accept c ⟨some fd⟩ i fd r
        | _ => none
      | _ => none
    | .closeSockets shutdown =>
      match s.sys.phase with
      | .running c => if s.program c = .closing then some (s.closeSockets c shutdown) else none
      | _ => none

/-- No accept loop has begun an iteration on -1 or on a socket that `stopServe` had closed. -/
def Fit (s : TcpSys) : Prop := ∀ x ∈ s.iterations, x.Open

instance (s : TcpSys) : Decidable s.Fit := inferInstanceAs (Decidable (∀ x ∈ s.iterations, _))

/-- A server that is started has only open sockets, and none is about to be closed. -/
def StartsClean (s : TcpSys) : Input → Prop
  | .call (.startServe _) => s.serving = false →
      ∀ socket ∈ s.listenSockets, socket.fd.isSome = true ∧ ¬s.Pending
  | _ => True

instance (s : TcpSys) : (i : Input) → Decidable (s.StartsClean i)
  | .call (.startServe _) => inferInstanceAs (Decidable (_ → _))
  | .call (.bind _) | .call (.bindList _) | .call (.addBindAddr _) | .call (.stopServe _) =>
    .isTrue trivial
  | .spawn _ | .act _ | .run | .dispatch _ | .blockPending .. | .loopTest | .accept _ |
    .closeSockets _ => .isTrue trivial

end TcpSys

/-! ## Coroutines -/

namespace CoSys

variable {s t : CoSys} {c : Nat}

/-- The coroutine that runs is in the state it should be in, and what was done stays done. -/
structure Settles (s t : CoSys) : Prop where
  done : ∀ c, (s.co c).state = .done → (t.co c).state = .done
  running : ∀ c, t.phase = .running c → (t.co c).state = .running

/-- The coroutine that runs is in the state it should be in. -/
def Settled (s : CoSys) : Prop := s.Settles s

theorem Settled.of_running (h : ∀ c, s.phase = .running c → (s.co c).state = .running) :
    s.Settled := ⟨fun _ hd => hd, h⟩

theorem Settles.settled (h : s.Settles t) : t.Settled := .of_running h.running

theorem Settled.of_eq (h : s.Settled) (hc : t.co = s.co) (hp : t.phase = s.phase) :
    s.Settles t := by
  refine ⟨fun c hd => ?_, fun c hr => ?_⟩
  · rw [hc]
    exact hd
  · rw [hp] at hr
    rw [hc]
    exact h.running c hr

theorem Settled.fail (h : s.Settled) (e : Fault) : s.Settles (s.fail e) := h.of_eq rfl rfl

theorem Settled.call (h : s.Settled) (r : Except Fault (World Entry Callback)) :
    s.Settles (s.call r) := by
  cases r with
  | ok w => exact h.of_eq rfl rfl
  | error e => exact h.fail e

/-- Nothing runs after the step, and only a coroutine that was not done has changed. -/
theorem Settles.setCo {x : Coroutine} (hc : (s.co c).state ≠ .done)
    (ht : t.co = Function.update s.co c x) (hp : ∀ c', t.phase ≠ .running c') : s.Settles t := by
  refine ⟨fun c' hd => ?_, fun c' hr => absurd hr (hp c')⟩
  rw [ht, Function.update_of_ne]
  · exact hd
  · rintro rfl
    exact hc hd

theorem Settled.ne_done (h : s.Settled) (hp : s.phase = .running c) : (s.co c).state ≠ .done := by
  rw [h.running c hp]
  simp

theorem Settled.suspend {wait : Wait} {r : Except Fault (World Entry Callback)} (h : s.Settled)
    (hp : s.phase = .running c) : s.Settles (s.suspend c wait r) := by
  cases r with
  | ok w => exact .setCo (h.ne_done hp) rfl nofun
  | error e => exact h.fail e

theorem Settled.spawn (h : s.Settled) (hu : (s.co c).state = .unborn) :
    s.Settles (s.spawn c) := by
  have hco : ∀ c', (s.co c').state ≠ .unborn → (s.spawn c).co c' = s.co c' := by
    intro c' hc'
    refine Function.update_of_ne ?_ _ _
    rintro rfl
    exact hc' hu
  refine ⟨fun c' hd => ?_, fun c' hr => ?_⟩
  · rw [hco c' (by simp [hd])]
    exact hd
  · have hr := h.running c' hr
    rw [hco c' (by simp [hr])]
    exact hr

theorem Settled.act {a : CoAction} (h : s.Settled) (hp : s.phase = .running c)
    (ha : ActEffect s c a t) : s.Settles t := by
  cases ha with
  | ioInner => exact h.suspend hp
  | coConnect => exact h.suspend hp
  | sleepInner => exact h.suspend hp
  | spawn hu => exact h.spawn hu
  | coSocket => exact h.call _
  | coClose => exact h.call _
  | removeEvent => exact h.call _
  | setTimeout => exact h.of_eq rfl rfl
  | stop => exact h.of_eq rfl rfl
  | ret => exact .setCo (h.ne_done hp) rfl nofun

theorem Settled.dispatch (pick : Nat) (hp : s.phase = .loop) : s.Settles (s.dispatch pick) := by
  have hidle : ∀ {u : CoSys}, u.co = s.co → (∀ c, u.phase ≠ .running c) → s.Settles u :=
    fun hc hu => ⟨fun c hd => hc ▸ hd, fun c hr => absurd hr (hu c)⟩
  unfold CoSys.dispatch
  dsimp only
  split
  · refine hidle rfl fun c => ?_
    dsimp only
    split <;> simp
  · rename_i k _
    set u : CoSys := { s with world := { s.world with scheduler := s.world.scheduler.takeReady.2 } }
    have hcall := called_runCallback u k
    refine ⟨hcall.done, fun c hr => ?_⟩
    rw [runCallback_phase] at hr
    cases hp.symm.trans hr
  · rename_i c n _
    split
    · exact hidle rfl fun c => hp ▸ nofun
    · rename_i hd
      set u : CoSys :=
        { s with world := { s.world with scheduler := s.world.scheduler.takeReady.2 } }
      have hco : (u.resume c n pick).co = Function.update s.co c _ := resume_co u c n pick
      refine ⟨fun c' hd' => ?_, fun c' hr => ?_⟩
      · have hne : c' ≠ c := by
          rintro rfl
          exact hd hd'
        rw [hco, Function.update_of_ne hne]
        exact hd'
      · rw [resume_phase] at hr
        cases hr
        rw [hco, Function.update_self]

end CoSys

/-! ## What a run keeps -/

namespace TcpSys

variable {s t : TcpSys} {c : Nat} {p : Program}

/-- While the server serves, the original of every copy is open and none will be closed before
`stopServe` is called. -/
structure Served (s : TcpSys) : Prop where
  settled : s.sys.Settled
  posted : ∀ c, s.program c = .closing → c ∈ s.posted
  copies : ∀ c socket i b, s.program c = .acceptLoop socket i b →
    socket.fd.isSome = true ∧ i < s.listenSockets.length
  originals : s.serving = true → ∀ c socket i b, s.program c = .acceptLoop socket i b →
    s.closed i = false ∧ ¬s.Pending
  fit : s.Fit

theorem init_served (pipe : Nat) : (init pipe).Served where
  settled := .of_running nofun
  posted := nofun
  copies := nofun
  originals := nofun
  fit := nofun

/-! ## Executors -/

theorem update_cases (f : Nat → Program) (c : Nat) (p : Program) (c' : Nat) :
    Function.update f c p c' = p ∧ c' = c ∨ Function.update f c p c' = f c' ∧ c' ≠ c := by
  by_cases hc : c' = c
  · subst hc
    exact .inl ⟨Function.update_self .., rfl⟩
  · exact .inr ⟨Function.update_of_ne hc _ _, hc⟩

theorem not_pending_settles {sys : CoSys} (h : ¬s.Pending) (hs : s.sys.Settles sys) :
    ¬({ s with sys } : TcpSys).Pending := by
  rintro ⟨c, hc, hp, hd⟩
  exact h ⟨c, hc, hp, fun hd' => hd (hs.done c hd')⟩

theorem Served.settles {sys : CoSys} (h : s.Served) (hs : s.sys.Settles sys) :
    ({ s with sys } : TcpSys).Served where
  settled := hs.settled
  posted := h.posted
  copies := h.copies
  originals := fun hserve c socket i b hc =>
    (h.originals hserve c socket i b hc).imp_right fun hp => not_pending_settles hp hs
  fit := h.fit

theorem post_cases (h : s.post c p = some t) :
    t = s ∨ (s.sys.co c).state = .unborn ∧ t = { s with
      sys := s.sys.spawn c
      program := Function.update s.program c p
      posted := s.posted ++ [c] } := by
  unfold post at h
  split at h
  · cases h
  · rename_i hu
    split at h
    · exact .inl (Option.some.inj h).symm
    · exact .inr ⟨not_not.1 hu, (Option.some.inj h).symm⟩

theorem post_frame (h : s.post c p = some t) :
    t.serving = s.serving ∧ t.listenSockets = s.listenSockets := by
  rcases post_cases h with rfl | ⟨-, rfl⟩ <;> exact ⟨rfl, rfl⟩

/-- Only a closure of `stopServe` makes one pending. -/
theorem not_pending_post (hs : s.sys.Settled) (h : ¬s.Pending) (hp : s.post c p = some t)
    (hc : p ≠ .closing) : ¬t.Pending := by
  rcases post_cases hp with rfl | ⟨hu, rfl⟩
  · exact h
  · rintro ⟨c', hc', hclosing, hd⟩
    dsimp only at hc' hclosing
    rw [List.mem_append, List.mem_singleton] at hc'
    rcases update_cases s.program c p c' with ⟨heq, -⟩ | ⟨heq, hne⟩
    · exact hc (heq.symm.trans hclosing)
    · exact h ⟨c', hc'.resolve_right hne, heq.symm.trans hclosing,
        fun hd' => hd ((hs.spawn hu).done c' hd')⟩

theorem Served.post (h : s.Served) (hp : s.post c p = some t)
    (hcopy : ∀ socket i b, p = .acceptLoop socket i b →
      socket.fd.isSome = true ∧ i < s.listenSockets.length)
    (huser : s.serving = true → p = .user) : t.Served := by
  have hpending : ¬s.Pending → p ≠ .closing → ¬t.Pending := fun hn hc =>
    not_pending_post h.settled hn hp hc
  rcases post_cases hp with rfl | ⟨hu, rfl⟩
  · exact h
  · refine ⟨(h.settled.spawn hu).settled, fun c' hc' => ?_, fun c' socket i b hc' => ?_,
      fun hserve c' socket i b hc' => ?_, h.fit⟩
    · rw [List.mem_append, List.mem_singleton]
      rcases update_cases s.program c p c' with ⟨-, rfl⟩ | ⟨heq, -⟩
      · exact .inr rfl
      · exact .inl (h.posted c' (heq.symm.trans hc'))
    · rcases update_cases s.program c p c' with ⟨heq, -⟩ | ⟨heq, -⟩
      · exact hcopy socket i b (heq.symm.trans hc')
      · exact h.copies c' socket i b (heq.symm.trans hc')
    · have hne : p ≠ .closing := by
        rw [huser hserve]
        nofun
      rcases update_cases s.program c p c' with ⟨heq, -⟩ | ⟨heq, -⟩
      · cases (huser hserve).symm.trans (heq.symm.trans hc')
      · obtain ⟨hclosed, hnp⟩ := h.originals hserve c' socket i b (heq.symm.trans hc')
        exact ⟨hclosed, hpending hnp hne⟩

/-- The accept loop `c` goes on, on its copy. -/
theorem Served.continues {socket : Socket} {i : Nat} {b : Bool} (h : s.Served)
    (hcopy : socket.fd.isSome = true ∧ i < s.listenSockets.length)
    (hopen : s.serving = true → s.closed i = false ∧ ¬s.Pending) :
    ({ s with program := Function.update s.program c (.acceptLoop socket i b) } :
      TcpSys).Served := by
  have hcases := update_cases s.program c (.acceptLoop socket i b)
  refine ⟨h.settled, fun c' hc' => ?_, fun c' socket' i' b' hc' => ?_,
    fun hserve c' socket' i' b' hc' => ?_, h.fit⟩
  · rcases hcases c' with ⟨heq, -⟩ | ⟨heq, -⟩
    · cases heq.symm.trans hc'
    · exact h.posted c' (heq.symm.trans hc')
  · rcases hcases c' with ⟨heq, -⟩ | ⟨heq, -⟩
    · cases heq.symm.trans hc'
      exact hcopy
    · exact h.copies c' socket' i' b' (heq.symm.trans hc')
  · have hpending : s.closed i' = false ∧ ¬s.Pending := by
      rcases hcases c' with ⟨heq, -⟩ | ⟨heq, -⟩
      · cases heq.symm.trans hc'
        exact hopen hserve
      · exact h.originals hserve c' socket' i' b' (heq.symm.trans hc')
    apply hpending.imp_right
    intro hn
    rintro ⟨d, hd, hclosing, hstate⟩
    rcases hcases d with ⟨heq, -⟩ | ⟨heq, -⟩
    · cases heq.symm.trans hclosing
    · exact hn ⟨d, hd, heq.symm.trans hclosing, hstate⟩

/-! ## `bind` -/

theorem openFd_eq {fd : Nat} (h : s.openFd fd = some t) :
    t = { s with sys := s.sys.call (s.sys.world.coSocket fd) } := by
  unfold openFd at h
  split at h
  · cases h
  · exact (Option.some.inj h).symm

theorem openFd_served {fd : Nat} (h : s.Served) (ho : s.openFd fd = some t) : t.Served := by
  obtain rfl := openFd_eq ho
  exact h.settles (h.settled.call _)

theorem closed_append {i : Nat} {socket : Socket} (hi : i < s.listenSockets.length) :
    ({ s with listenSockets := s.listenSockets ++ [socket] } : TcpSys).closed i = s.closed i := by
  unfold closed
  rw [List.getElem?_append_left hi]

theorem Served.push (h : s.Served) (socket : Socket) :
    ({ s with listenSockets := s.listenSockets ++ [socket] } : TcpSys).Served where
  settled := h.settled
  posted := h.posted
  copies c socket' i b hc := by
    obtain ⟨hfd, hi⟩ := h.copies c socket' i b hc
    rw [List.length_append]
    exact ⟨hfd, Nat.lt_add_right _ hi⟩
  originals hserve c socket' i b hc := by
    rw [closed_append (h.copies c socket' i b hc).2]
    exact h.originals hserve c socket' i b hc
  fit := h.fit

theorem bindOne_served {r : BindResult} {bound : Bool} (h : s.Served)
    (hb : s.bindOne r = some (bound, t)) : t.Served := by
  cases r with
  | noSocket =>
    cases hb
    exact h
  | failed fd =>
    obtain ⟨u, hu, heq⟩ := Option.map_eq_some_iff.1 hb
    cases heq
    exact openFd_served h hu
  | listening fd =>
    obtain ⟨u, hu, heq⟩ := Option.map_eq_some_iff.1 hb
    cases heq
    exact (openFd_served h hu).push _

theorem bindLoop_served {rs : List BindResult} (h : s.Served) (hb : s.bindLoop rs = some t) :
    t.Served := by
  induction rs generalizing s with
  | nil =>
    cases hb
    exact h
  | cons r rs ih =>
    obtain ⟨⟨bound, u⟩, hu, hb⟩ := Option.bind_eq_some_iff.1 hb
    have hu := bindOne_served h hu
    dsimp only at hb
    split at hb
    · exact ih hu hb
    · cases hb
      exact hu

/-! ## `startServe` and `stopServe` -/

theorem startLoops_served {i : Nat} {cs : List Nat} {sockets : List Socket} (h : s.Served)
    (hserve : s.serving = false) (hfd : ∀ socket ∈ sockets, socket.fd.isSome = true)
    (hi : i + sockets.length = s.listenSockets.length)
    (hs : s.startLoops i cs sockets = some t) :
    t.Served ∧ t.listenSockets = s.listenSockets ∧ (¬s.Pending → ¬t.Pending) := by
  induction sockets generalizing s i cs with
  | nil =>
    cases cs with
    | nil =>
      cases hs
      exact ⟨h, rfl, id⟩
    | cons c cs => cases hs
  | cons socket sockets ih =>
    cases cs with
    | nil => cases hs
    | cons c cs =>
      obtain ⟨u, hu, hs⟩ := Option.bind_eq_some_iff.1 hs
      obtain ⟨hserve', hlisten⟩ := post_frame hu
      have hi' : i < s.listenSockets.length := by
        rw [← hi, List.length_cons]
        omega
      have hserved : u.Served := by
        refine h.post hu (fun _ _ _ heq => ?_) fun hserving => ?_
        · cases heq
          exact ⟨hfd socket List.mem_cons_self, hi'⟩
        · cases hserve.symm.trans hserving
      obtain ⟨ht, hlisten', hpending⟩ := ih hserved (hserve'.trans hserve)
        (fun x hx => hfd x (.tail _ hx)) (by rw [hlisten, ← hi, List.length_cons]; omega) hs
      exact ⟨ht, hlisten'.trans hlisten,
        fun hn => hpending (not_pending_post h.settled hn hu nofun)⟩

theorem closed_of_isSome {i : Nat} (h : ∀ socket ∈ s.listenSockets, socket.fd.isSome = true) :
    s.closed i = false := by
  unfold closed
  split
  · rename_i socket hsocket
    have hsome := h socket (List.mem_of_getElem? hsocket)
    rw [Option.isNone_eq_false_iff]
    exact hsome
  · rfl

theorem startServe_served {cs : List Nat} (h : s.Served)
    (hclean : s.StartsClean (.call (.startServe cs))) (hs : s.startServe cs = some t) :
    t.Served := by
  unfold startServe at hs
  split at hs
  · cases hs
    exact h
  · rename_i hserve
    have hserve : s.serving = false := Bool.eq_false_iff.mpr hserve
    obtain ⟨u, hu, rfl⟩ := Option.map_eq_some_iff.1 hs
    have hclean := hclean hserve
    obtain ⟨hserved, hlisten, hpending⟩ := startLoops_served h hserve
      (fun socket hsocket => (hclean socket hsocket).1) (Nat.zero_add _) hu
    refine ⟨hserved.settled, hserved.posted, hserved.copies, fun _ c socket i b hc => ?_,
      hserved.fit⟩
    have hi : i < s.listenSockets.length := hlisten ▸ (hserved.copies c socket i b hc).2
    refine ⟨closed_of_isSome fun x hx => ?_, hpending (hclean _ (List.getElem_mem hi)).2⟩
    exact (hclean x (hlisten ▸ hx)).1

theorem stopServe_served (h : s.Served) (hs : s.stopServe c = some t) : t.Served := by
  unfold stopServe at hs
  split at hs
  · cases hs
    exact h
  · have hstopped : ({ s with serving := false } : TcpSys).Served :=
      ⟨h.settled, h.posted, h.copies, nofun, h.fit⟩
    exact hstopped.post hs nofun nofun

theorem call_served {f : ServerCall} (h : s.Served) (hclean : s.StartsClean (.call f))
    (hs : s.call f = some t) : t.Served := by
  have hone : ∀ {r}, (s.bindOne r).map Prod.snd = some t → t.Served := by
    intro r hr
    obtain ⟨⟨bound, u⟩, hu, rfl⟩ := Option.map_eq_some_iff.1 hr
    exact bindOne_served h hu
  cases f with
  | bind r =>
    simp only [call] at hs
    split at hs
    · exact hone hs
    · cases hs
      exact h
  | bindList rs =>
    simp only [call] at hs
    split at hs
    · exact bindLoop_served h hs
    · cases hs
      exact h
  | addBindAddr r => exact hone hs
  | startServe cs => exact startServe_served h hclean hs
  | stopServe c => exact stopServe_served h hs

/-! ## The executors of the server -/

theorem Served.finish (h : s.Served) (hp : s.sys.phase = .running c) :
    s.sys.Settles (finish s.sys c) := .setCo (h.settled.ne_done hp) rfl nofun

theorem loopTest_served {socket : Socket} {i : Nat} (h : s.Served) (hp : s.sys.phase = .running c)
    (hc : s.program c = .acceptLoop socket i false) : (s.loopTest c socket i).Served := by
  unfold loopTest
  split
  · rename_i hserve
    have hcopy := h.copies c socket i false hc
    have horiginal := h.originals hserve c socket i false hc
    have hnext := h.continues (c := c) (b := socket.fd.isSome) hcopy fun _ => horiginal
    refine ⟨hnext.settled, hnext.posted, hnext.copies, hnext.originals, ?_⟩
    simp only [Fit, List.forall_mem_append, List.forall_mem_singleton]
    exact ⟨h.fit, hcopy.1, horiginal.1⟩
  · exact h.settles (h.finish hp)

/-- A connection is accepted: the loop goes back to its test. -/
theorem connection_served {socket : Socket} {i fd d : Nat} {b : Bool} {u : TcpSys} (h : s.Served)
    (hc : s.program c = .acceptLoop socket i b) (hu : s.openFd fd = some u)
    (ht : u.post d .user = some t) :
    ({ t with program := Function.update t.program c (.acceptLoop socket i false) } :
      TcpSys).Served := by
  have hserved := openFd_served h hu
  obtain ⟨hserve, hlisten⟩ := post_frame ht
  obtain rfl := openFd_eq hu
  refine (hserved.post ht nofun fun _ => rfl).continues ?_ fun hserving => ?_
  · rw [hlisten]
    exact h.copies c socket i b hc
  · obtain ⟨hclosed, hn⟩ := h.originals (hserve.symm.trans hserving) c socket i b hc
    refine ⟨?_, not_pending_post hserved.settled ?_ ht nofun⟩
    · rw [closed, hlisten]
      exact hclosed
    · exact not_pending_settles hn (h.settled.call _)

theorem accept_served {socket : Socket} {i fd : Nat} {r : AcceptResult} (h : s.Served)
    (hp : s.sys.phase = .running c) (hc : s.program c = .acceptLoop socket i true)
    (hs : s.accept c socket i fd r = some t) : t.Served := by
  have hfails : s.acceptFails.Served := h.settles (h.settled.fail _)
  cases r with
  | connection fd' c' =>
    obtain ⟨u, hu, hs⟩ := Option.bind_eq_some_iff.1 hs
    obtain ⟨v, hv, hs⟩ := Option.bind_eq_some_iff.1 hs
    cases hs
    exact connection_served h hc hu hv
  | interrupted =>
    simp only [accept] at hs
    split at hs
    · cases hs
      split
      · exact h
      · exact hfails
    · cases hs
      exact hfails
  | wouldBlock curMs =>
    simp only [accept] at hs
    split at hs
    · split at hs
      · split at hs
        · cases hs
        · cases hs
          exact h.settles (h.settled.suspend hp)
      · cases hs
        exact hfails
    · cases hs
      exact hfails
  | failed =>
    cases hs
    exact hfails

/-- The closure runs only after `stopServe`, or for a server without accept loops. -/
theorem closeSockets_served {shutdown : Nat → Bool} (h : s.Served)
    (hp : s.sys.phase = .running c) (hc : s.program c = .closing) :
    (s.closeSockets c shutdown).Served := by
  unfold closeSockets
  split
  · rename_i w _
    have hset : s.sys.Settles (TcpSys.finish (s.sys.setWorld w) c) :=
      .setCo (h.settled.ne_done hp) rfl nofun
    have hpending : s.Pending := ⟨c, h.posted c hc, hc, h.settled.ne_done hp⟩
    refine ⟨hset.settled, h.posted, fun c' socket i b hc' => ?_,
      fun hserve c' socket i b hc' => ?_, h.fit⟩
    · rw [List.length_map]
      exact h.copies c' socket i b hc'
    · exact absurd hpending (h.originals hserve c' socket i b hc').2
  · exact h.settles (h.settled.fail _)

theorem dispatch_served (pick : Nat) (h : s.Served) (hp : s.sys.phase = .loop) :
    (s.dispatch pick).Served := by
  have ht : ({ s with sys := s.sys.dispatch pick } : TcpSys).Served :=
    h.settles (CoSys.Settled.dispatch pick hp)
  unfold dispatch
  dsimp only
  split
  · split
    · exact ht.settles (ht.settled.fail _)
    · exact ht
  · exact ht

theorem act_served {a : CoSys.CoAction} {sys : CoSys} (h : s.Served)
    (hp : s.sys.phase = .running c) (ha : s.sys.act c a = some sys) :
    ({ s with sys } : TcpSys).Served :=
  h.settles (h.settled.act hp (CoSys.act_effect ha))

theorem step_served {i : Input} (h : s.Served) (hclean : s.StartsClean i)
    (hs : s.step i = some t) : t.Served := by
  unfold step at hs
  split at hs
  · cases hs
  · cases i with
    | call f =>
      dsimp only at hs
      split at hs
      · exact call_served h hclean hs
      · cases hs
    | spawn c =>
      dsimp only at hs
      split at hs
      · exact h.post hs nofun fun _ => rfl
      · cases hs
    | act a =>
      dsimp only at hs
      split at hs
      · cases hs
      · rename_i hp _
        split at hs
        · obtain ⟨sys, ha, rfl⟩ := Option.map_eq_some_iff.1 hs
          exact act_served h hp ha
        · cases hs
      · cases hs
    | run =>
      dsimp only at hs
      split at hs
      · cases hs
        exact h.settles ⟨fun _ hd => hd, nofun⟩
      · cases hs
    | dispatch pick =>
      dsimp only at hs
      split at hs
      · cases hs
        exact dispatch_served pick h ‹_›
      · cases hs
    | blockPending clock batch =>
      dsimp only at hs
      split at hs
      · cases hs
        refine h.settles ⟨fun c hd => ?_, nofun⟩
        rw [CoSys.call_co]
        exact hd
      · cases hs
    | loopTest =>
      dsimp only at hs
      split at hs
      · split at hs
        · cases hs
          exact loopTest_served h ‹_› ‹_›
        · cases hs
      · cases hs
    | accept r =>
      dsimp only at hs
      split at hs
      · split at hs
        · exact accept_served h ‹_› ‹_› hs
        · cases hs
      · cases hs
    | closeSockets shutdown =>
      dsimp only at hs
      split at hs
      · split at hs
        · cases hs
          exact closeSockets_served h ‹_› ‹_›
        · cases hs
      · cases hs

/-- **Accepting on open sockets.** In every run in which `startServe` finds every listening socket
open and none about to be closed, no accept loop ever begins an iteration on the descriptor -1 or
on a socket that `stopServe` has closed. -/
theorem accepts_fit {pipe : Nat} {is : List Input} (hm : Meets step StartsClean (init pipe) is) :
    Along step Fit (init pipe) is := by
  have hserved : Along step Served (init pipe) is :=
    hm.along (fun _ _ _ h hc hs => step_served h hc hs) (init_served pipe)
  exact hserved.imp fun _ h => h.fit

/-- A server accepts a connection and is stopped in the connection's coroutine. -/
def oneConnection : List Input :=
  [.call (.bind (.listening 5)), .call (.startServe [0]), .run, .dispatch 0, .loopTest,
    .accept (.connection 6 1), .loopTest, .accept (.wouldBlock 10), .dispatch 0,
    .call (.stopServe 2), .act .ret]

theorem accepts_fit_oneConnection : (run step (init 3) oneConnection).isSome = true ∧
    Meets step StartsClean (init 3) oneConnection ∧ Along step Fit (init 3) oneConnection :=
  have hm : Meets step StartsClean (init 3) oneConnection := by decide +kernel
  ⟨by decide +kernel, hm, accepts_fit hm⟩

/-- The accept loop `c` is on -1 and about to test `serving_`, which is set. -/
def Spinning (s : TcpSys) (c : Nat) : Prop :=
  s.sys.world.fault.isNone = true ∧ s.sys.phase = .running c ∧ s.serving = true ∧
    s.program c = .acceptLoop ⟨none⟩ 0 false

/-- Such a loop neither yields nor changes anything. -/
theorem Spinning.forever (h : s.Spinning c) (n : Nat) :
    ∃ t, run step s (List.replicate n .loopTest) = some t ∧ t.sys = s.sys := by
  induction n generalizing s with
  | zero => exact ⟨s, rfl, rfl⟩
  | succ n ih =>
    obtain ⟨hf, hp, hserve, hc⟩ := h
    have hstep : s.step .loopTest = some (s.loopTest c ⟨none⟩ 0) := by
      simp [step, hf, hp, hc]
    have hsys : (s.loopTest c ⟨none⟩ 0).sys = s.sys := by simp [loopTest, hserve]
    have hnext : (s.loopTest c ⟨none⟩ 0).Spinning c := by
      refine ⟨hsys ▸ hf, hsys ▸ hp, ?_, ?_⟩ <;> simp [loopTest, hserve]
    obtain ⟨t, ht, hts⟩ := ih hnext
    exact ⟨t, run_cons hstep ht, hts.trans hsys⟩

/-- A server is stopped before it is run, its socket closed, and started again. -/
def restarted : List Input :=
  [.call (.bind (.listening 5)), .call (.startServe [0]), .call (.stopServe 1), .spawn 2, .run,
    .dispatch 0, .loopTest, .dispatch 0, .closeSockets fun _ => true, .dispatch 0,
    .call (.startServe [3]), .act .ret, .dispatch 0, .loopTest]

/-- The accept loop of the second start is on -1, and never leaves it. -/
theorem not_accepts_fit : ∃ s, run step (init 3) restarted = some s ∧
    (s.Spinning 3 ∧ ¬s.Fit) ∧
    ∀ n, ∃ t, run step s (List.replicate n .loopTest) = some t ∧ t.sys = s.sys := by
  refine run_and ⟨_, Option.eq_some_of_isSome (by decide +kernel), ?_, by decide +kernel⟩
    fun s _ hs => hs.1.forever
  exact ⟨by decide +kernel, by decide +kernel, by decide +kernel, by decide +kernel⟩

end TcpSys

end NetBase
