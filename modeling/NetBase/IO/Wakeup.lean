import NetBase.Coroutine.RemoteSafe

/-!
# Waking the manager from other threads

`addRemoteTask` inserts into `remote_tasks_` and then writes one byte to the wake-up pipe;
`blockPending` reads the pipe empty when `epoll_wait` reports it. The two sides take their
steps in opposite orders: a producer inserts before it writes, the scheduler thread drains the
pipe before it drains the list.

`WakeSys` puts the pipe, the producers between their insertion and their write, and the place
of the scheduler thread on top of the lock-free list. The pipe is a byte counter, its read end
non-blocking and level-triggered; its write end blocks while `capacity` bytes are in it.

Executors that other code queues locally are not followed: the loop may run one whenever it
looks at its queue.
-/

namespace NetBase

open Lib RemoteTaskList

/-- Where the scheduler thread is in `threadScheduleFunc` and `blockPending`. -/
inductive SchedulerPhase where
  /-- Before the exchange of `scheduleAll`. -/
  | top
  /-- In `scheduleAll`, walking the list it detached as drain `d`. -/
  | walking (d : Nat)
  /-- About to take an executor from the ready queue. -/
  | choosing
  | running
  /-- In `blockPending`, before `epoll_wait`. -/
  | entering
  | waiting
  /-- After `epoll_wait`; the batch still holds the event of the pipe or not. -/
  | handling (pipe : Bool)
  /-- In the loop that reads the pipe empty. -/
  | draining
  | left
  deriving DecidableEq, Repr

structure WakeSys where
  remote : RemoteSys := {}
  /-- Bytes in the wake-up pipe. -/
  pipe : Nat := 0
  /-- The producers that have inserted and not yet written. -/
  unwritten : Nat → Bool := fun _ => false
  phase : SchedulerPhase := .top

inductive WakeOp where
  | newNode (p : Nat) (addr : Addr) (executor : Nat)
  | load (p : Nat)
  | link (p : Nat)
  | cas (p : Nat)
  | write (p : Nat)
  | exchange
  | walk
  /-- Run the remote task at the front of the queue, or an executor queued locally. -/
  | take
  | runLocal
  | stop
  | yield
  | block
  | leave
  | enter
  | wake (pipe : Bool)
  | drain
  | read
  | finish
  deriving DecidableEq, Repr

namespace WakeSys

def withRemote (s : WakeSys) (op : RemoteOp) : Option WakeSys :=
  (s.remote.step op).map fun remote => { s with remote }

/-- The compare-exchange of `p` succeeds in this state. -/
def inserts (s : WakeSys) (p : Nat) : Bool :=
  match s.remote.producers p with
  | .cas _ oldHead => s.remote.head == oldHead
  | _ => false

def step (capacity : Nat) (s : WakeSys) : WakeOp → Option WakeSys
  | .newNode p addr executor =>
    if s.unwritten p then none else s.withRemote (.newNode p addr executor)
  | .load p => s.withRemote (.load p)
  | .link p => s.withRemote (.link p)
  | .cas p =>
    (s.withRemote (.cas p)).map fun t =>
      if s.inserts p then { t with unwritten := Function.update s.unwritten p true } else t
  | .write p =>
    if s.unwritten p ∧ s.pipe < capacity then
      some { s with pipe := s.pipe + 1, unwritten := Function.update s.unwritten p false }
    else none
  | .exchange =>
    if s.phase = .top then
      (s.withRemote .exchange).map fun t => { t with phase := .walking s.remote.drains.length }
    else none
  | .walk =>
    match s.phase with
    | .walking d =>
      match s.remote.drains[d]? with
      | some D =>
        if D.head = none then some { s with phase := .choosing }
        else s.withRemote (if D.called then .delete d else .addExecutor d)
      | none => none
    | _ => none
  | .take =>
    if s.phase = .choosing then (s.withRemote .take).map fun t => { t with phase := .running }
    else none
  | .runLocal => if s.phase = .choosing then some { s with phase := .running } else none
  | .stop => if s.phase = .running then s.withRemote .stop else none
  | .yield => if s.phase = .running then some { s with phase := .top } else none
  | .block =>
    if s.phase = .choosing ∧ s.remote.scheduler.takeReady.1 = none ∧
        s.remote.scheduler.stopping = false then
      some { s with phase := .entering }
    else none
  | .leave =>
    if s.phase = .choosing ∧ s.remote.scheduler.takeReady.1 = none ∧
        s.remote.scheduler.stopping = true then
      some { s with phase := .left }
    else none
  | .enter => if s.phase = .entering then some { s with phase := .waiting } else none
  | .wake pipe =>
    -- level-triggered: the pipe is reported only while it holds a byte; `false` is a return for
    -- other events, which may fill the batch before the pipe's turn, or for a timer
    if s.phase = .waiting ∧ (pipe = true → 0 < s.pipe) then some { s with phase := .handling pipe }
    else none
  | .drain => if s.phase = .handling true then some { s with phase := .draining } else none
  | .read =>
    -- `read` takes up to eight bytes, and fails with `EAGAIN` on the empty pipe
    if s.phase = .draining then
      some (if s.pipe = 0 then { s with phase := .handling false }
        else { s with pipe := s.pipe - 8 })
    else none
  | .finish => if s.phase = .handling false then some { s with phase := .top } else none

/-- What a step comes to. -/
inductive Effect (s : WakeSys) : WakeOp → WakeSys → Prop
  | newNode {p e : Nat} {a : Addr} {r : RemoteSys} (hr : s.remote.step (.newNode p a e) = some r) :
      Effect s (.newNode p a e) { s with remote := r }
  | load {p : Nat} {r : RemoteSys} (hr : s.remote.step (.load p) = some r) :
      Effect s (.load p) { s with remote := r }
  | link {p : Nat} {r : RemoteSys} (hr : s.remote.step (.link p) = some r) :
      Effect s (.link p) { s with remote := r }
  | insert {p : Nat} {r : RemoteSys} (hi : s.inserts p = true)
      (hr : s.remote.step (.cas p) = some r) :
      Effect s (.cas p) { s with
        remote := r, unwritten := Function.update s.unwritten p true }
  | retry {p : Nat} {r : RemoteSys} (hi : s.inserts p = false)
      (hr : s.remote.step (.cas p) = some r) : Effect s (.cas p) { s with remote := r }
  | write {p : Nat} (hu : s.unwritten p = true) :
      Effect s (.write p) { s with
        pipe := s.pipe + 1, unwritten := Function.update s.unwritten p false }
  | exchange (hp : s.phase = .top) :
      Effect s .exchange { s with
        remote := s.remote.detach, phase := .walking s.remote.drains.length }
  | walk {d : Nat} {rop : RemoteOp} {r : RemoteSys} (hp : s.phase = .walking d)
      (hop : rop = .addExecutor d ∨ rop = .delete d) (hr : s.remote.step rop = some r) :
      Effect s .walk { s with remote := r }
  | walked {d : Nat} {D : RemoteTaskList.Drain} (hp : s.phase = .walking d)
      (hD : s.remote.drains[d]? = some D) (hn : D.head = none) :
      Effect s .walk { s with phase := .choosing }
  | take {r : RemoteSys} (hp : s.phase = .choosing) (hr : s.remote.step .take = some r) :
      Effect s .take { s with remote := r, phase := .running }
  | runLocal (hp : s.phase = .choosing) : Effect s .runLocal { s with phase := .running }
  | stop {r : RemoteSys} (hp : s.phase = .running) (hr : s.remote.step .stop = some r) :
      Effect s .stop { s with remote := r }
  | yield (hp : s.phase = .running) : Effect s .yield { s with phase := .top }
  | block (hp : s.phase = .choosing) (hn : s.remote.scheduler.takeReady.1 = none) :
      Effect s .block { s with phase := .entering }
  | leave (hp : s.phase = .choosing) (hst : s.remote.scheduler.stopping = true) :
      Effect s .leave { s with phase := .left }
  | enter (hp : s.phase = .entering) : Effect s .enter { s with phase := .waiting }
  | wake {pipe : Bool} (hp : s.phase = .waiting) :
      Effect s (.wake pipe) { s with phase := .handling pipe }
  | drain (hp : s.phase = .handling true) : Effect s .drain { s with phase := .draining }
  | read (hp : s.phase = .draining) : Effect s .read { s with pipe := s.pipe - 8 }
  | again (hp : s.phase = .draining) : Effect s .read { s with phase := .handling false }
  | finish (hp : s.phase = .handling false) : Effect s .finish { s with phase := .top }

variable {capacity : Nat} {s t : WakeSys}

theorem withRemote_inv {op : RemoteOp} (h : s.withRemote op = some t) :
    ∃ r, s.remote.step op = some r ∧ t = { s with remote := r } := by
  obtain ⟨r, hr, rfl⟩ := Option.map_eq_some_iff.1 h
  exact ⟨r, hr, rfl⟩

theorem step_effect {op : WakeOp} (hs : step capacity s op = some t) : Effect s op t := by
  cases op with
  | newNode p addr executor =>
    simp only [step] at hs
    split at hs
    · cases hs
    · obtain ⟨r, hr, rfl⟩ := withRemote_inv hs
      exact .newNode hr
  | load p =>
    obtain ⟨r, hr, rfl⟩ := withRemote_inv hs
    exact .load hr
  | link p =>
    obtain ⟨r, hr, rfl⟩ := withRemote_inv hs
    exact .link hr
  | cas p =>
    obtain ⟨u, hu, rfl⟩ := Option.map_eq_some_iff.1 hs
    obtain ⟨r, hr, rfl⟩ := withRemote_inv hu
    cases hi : s.inserts p with
    | true => exact .insert hi hr
    | false => exact .retry hi hr
  | write p =>
    simp only [step] at hs
    split at hs <;> cases hs
    exact .write (by simp_all)
  | exchange =>
    simp only [step] at hs
    split at hs
    · obtain ⟨u, hu, rfl⟩ := Option.map_eq_some_iff.1 hs
      cases hu
      exact .exchange (by assumption)
    · cases hs
  | walk =>
    simp only [step] at hs
    split at hs
    · split at hs
      · rename_i d hp _ D hD
        split at hs
        · cases hs
          exact .walked hp hD (by assumption)
        · obtain ⟨r, hr, rfl⟩ := withRemote_inv hs
          refine .walk hp ?_ hr
          split
          · exact .inr rfl
          · exact .inl rfl
      · cases hs
    · cases hs
  | take =>
    simp only [step] at hs
    split at hs
    · obtain ⟨u, hu, rfl⟩ := Option.map_eq_some_iff.1 hs
      obtain ⟨r, hr, rfl⟩ := withRemote_inv hu
      exact .take (by assumption) hr
    · cases hs
  | stop =>
    simp only [step] at hs
    split at hs
    · obtain ⟨r, hr, rfl⟩ := withRemote_inv hs
      exact .stop (by assumption) hr
    · cases hs
  | block =>
    simp only [step] at hs
    split at hs
    · rename_i hp
      cases hs
      exact .block hp.1 hp.2.1
    · cases hs
  | leave =>
    simp only [step] at hs
    split at hs
    · rename_i hp
      cases hs
      exact .leave hp.1 hp.2.2
    · cases hs
  | wake pipe =>
    simp only [step] at hs
    split at hs
    · rename_i hp
      cases hs
      exact .wake hp.1
    · cases hs
  | read =>
    simp only [step] at hs
    split at hs
    · rename_i hp
      split at hs <;> cases hs
      · exact .again hp
      · exact .read hp
    · cases hs
  | _ =>
    simp only [step] at hs
    split at hs
    · cases hs
      constructor
      assumption
    · cases hs

/-! ## Wake-ups -/

/-- Between the exchange of `scheduleAll` and the return of `epoll_wait`. -/
def Exchanged (s : WakeSys) : Prop :=
  match s.phase with
  | .top | .handling _ | .draining | .left => False
  | _ => True

/-- The invariant: what was inserted since the exchange is announced. -/
structure Announced (s : WakeSys) : Prop where
  good : s.remote.Good
  pending : s.Exchanged → s.remote.head ≠ none → 0 < s.pipe ∨ ∃ p, s.unwritten p = true

/-- A step that inserts nothing and takes no announcement back. -/
theorem Announced.mono (h : s.Announced) (hg : t.remote.Good) (hx : t.Exchanged → s.Exchanged)
    (hh : t.remote.head = s.remote.head) (hp : t.pipe = s.pipe)
    (hu : t.unwritten = s.unwritten) : t.Announced := by
  refine ⟨hg, fun ht hne => ?_⟩
  rw [hp, hu]
  exact h.pending (hx ht) (hh ▸ hne)

/-- Only a compare-exchange and `scheduleAll` write `head`. -/
theorem head_effect {r r' : RemoteSys} {op : RemoteOp} (he : RemoteSys.Effect r op r')
    (hc : ∀ p, op ≠ .cas p) (hx : op ≠ .exchange) : r'.head = r.head := by
  cases he with
  | win _ _ => exact absurd rfl (hc _)
  | lose _ _ => exact absurd rfl (hc _)
  | exchange => exact absurd rfl hx
  | _ => rfl

/-- A step of the list that is no insertion and no exchange. -/
theorem Announced.list (h : s.Announced) {op : RemoteOp} {r : RemoteSys}
    (hr : s.remote.step op = some r) (hc : ∀ p, op ≠ .cas p) (hx : op ≠ .exchange) :
    { s with remote := r }.Announced := by
  obtain ⟨⟨own, hs⟩, -⟩ := h.good
  exact h.mono (RemoteSys.good_step h.good hr) id (head_effect (RemoteSys.step_effect hs hr) hc hx)
    rfl rfl

theorem Announced.phase (h : s.Announced) (ph : SchedulerPhase)
    (hx : { s with phase := ph }.Exchanged → s.Exchanged) : { s with phase := ph }.Announced :=
  h.mono h.good hx rfl rfl rfl

/-- A compare-exchange that fails leaves `head` alone. -/
theorem Announced.retry {p : Nat} {r : RemoteSys} (h : s.Announced) (hi : s.inserts p = false)
    (hr : s.remote.step (.cas p) = some r) : { s with remote := r }.Announced := by
  obtain ⟨⟨own, hs⟩, -⟩ := h.good
  have hg := RemoteSys.good_step h.good hr
  cases RemoteSys.step_effect hs hr with
  | win hp hn => simp [inserts, hp] at hi
  | lose hp hh => exact h.mono hg id rfl rfl rfl

theorem announced_step {op : WakeOp} (h : s.Announced) (hs : step capacity s op = some t) :
    t.Announced := by
  cases step_effect hs with
  | newNode hr | load hr | link hr => exact h.list hr (by simp) (by simp)
  | insert _ hr =>
    -- the producer that inserted has still to write
    exact ⟨RemoteSys.good_step h.good hr, fun _ _ => .inr ⟨_, Function.update_self ..⟩⟩
  | retry hi hr => exact h.retry hi hr
  | write => exact ⟨h.good, fun _ _ => .inl (Nat.succ_pos _)⟩
  | exchange =>
    have hx : s.remote.step .exchange = some s.remote.detach := rfl
    exact ⟨RemoteSys.good_step h.good hx, fun _ hne => absurd rfl hne⟩
  | walk _ hop hr => rcases hop with rfl | rfl <;> exact h.list hr (by simp) (by simp)
  | take hp hr =>
    exact (h.list hr (by simp) (by simp)).phase .running fun _ => by simp [Exchanged, hp]
  | stop _ hr => exact h.list hr (by simp) (by simp)
  | walked hp | runLocal hp | block hp | enter hp =>
    exact h.phase _ fun _ => by simp [Exchanged, hp]
  | yield | leave | wake | drain | again | finish => exact h.phase _ fun hx => hx.elim
  | read hp => exact ⟨h.good, fun hx => by simp [Exchanged, hp] at hx⟩

theorem announced_reach (h : Reach (step capacity) {} s) : s.Announced :=
  h.inv ⟨RemoteSys.good_init, fun hx => hx.elim⟩ fun _ _ _ => announced_step

/-! ## A woken thread comes to the list -/

/-- Reading the pipe empties it. -/
theorem read_empty (capacity n : Nat) (s : WakeSys) (hp : s.pipe ≤ n) (hph : s.phase = .draining) :
    ∃ k, run (step capacity) s (List.replicate k .read) =
      some { s with pipe := 0, phase := .handling false } := by
  induction n generalizing s with
  | zero =>
    obtain hz : s.pipe = 0 := Nat.le_zero.1 hp
    refine ⟨1, run_cons (t := { s with phase := .handling false }) ?_ ?_⟩
    · simp [step, hph, hz]
    · rw [← hz]; rfl
  | succ n ih =>
    by_cases hz : s.pipe = 0
    · exact ih s (by omega) hph
    · obtain ⟨k, hk⟩ := ih { s with pipe := s.pipe - 8 } (by simp only; omega) hph
      refine ⟨k + 1, ?_⟩
      rw [List.replicate_succ]
      exact run_cons (by simp [step, hph, hz]) hk

/-- From `epoll_wait`, with a byte in the pipe, the scheduler thread on its own gets to detach
the list. -/
theorem wake_run (capacity : Nat) (hph : s.phase = .waiting) (hp : 0 < s.pipe) : ∃ k t,
    run (step capacity) s
        (.wake true :: .drain :: (List.replicate k .read ++ [.finish, .exchange])) =
      some t ∧ t.remote = s.remote.detach ∧ t.phase = .walking s.remote.drains.length := by
  obtain ⟨k, hk⟩ := read_empty capacity s.pipe { s with phase := .draining }
    (Nat.le_refl _) rfl
  refine ⟨k, { s with
    remote := s.remote.detach, pipe := 0, phase := .walking s.remote.drains.length }, ?_, rfl, rfl⟩
  apply run_cons (t := { s with phase := .handling true }) (by simp [step, hph, hp])
  apply run_cons (t := { s with phase := .draining }) rfl
  rw [run_append, hk]
  rfl

/-- **No lost wake-up.** In every state any interleaving reaches: while the scheduler thread is
inside `epoll_wait` or about to enter it, a non-empty list means a byte in the pipe or a
producer that has yet to write one. So once every `addRemoteTask` has completed the thread
does not sleep on a task: `epoll_wait` reports the pipe, and the thread's own next steps
detach the list with every task in it. -/
theorem no_lost_wakeup (h : Reach (step capacity) {} s) :
    (s.phase = .entering ∨ s.phase = .waiting → s.remote.head ≠ none →
      0 < s.pipe ∨ ∃ p, s.unwritten p = true) ∧
    (s.phase = .waiting → s.remote.head ≠ none → (∀ p, s.unwritten p = false) →
      ∃ k t, run (step capacity) s
          (.wake true :: .drain :: (List.replicate k .read ++ [.finish, .exchange])) = some t ∧
        ∃ D, t.phase = .walking s.remote.drains.length ∧
          t.remote.drains[s.remote.drains.length]? = some D ∧
          D.batch = s.remote.since.reverse ∧ D.head = s.remote.head) := by
  have ha := announced_reach h
  refine ⟨fun hph hne => ha.pending ?_ hne, fun hph hne hu => ?_⟩
  · rcases hph with hph | hph <;> simp [Exchanged, hph]
  · obtain hp | ⟨p, hp⟩ := ha.pending (by simp [Exchanged, hph]) hne
    · obtain ⟨k, t, hr, ht, hw⟩ := wake_run capacity hph hp
      refine ⟨k, t, hr, { head := s.remote.head, batch := s.remote.since.reverse }, hw, ?_, rfl,
        rfl⟩
      simp [ht, RemoteSys.detach]
    · rw [hu p] at hp
      cases hp

/-- A producer inserts while the thread is about to wait, and writes while it waits. -/
theorem no_lost_wakeup_late : ∃ s, run (step 65536) {} [.exchange, .walk, .block, .newNode 0 7 42,
      .load 0, .link 0, .cas 0, .enter, .write 0] = some s ∧
    (s.phase = .waiting ∧ s.remote.head = some 7) ∧ (0 < s.pipe ∨ ∃ p, s.unwritten p = true) :=
  run_and ⟨_, rfl, rfl, rfl⟩ fun _ hr hs =>
    (no_lost_wakeup ⟨_, hr⟩).1 (.inr hs.1) (by simp [hs.2])

end WakeSys

end NetBase
