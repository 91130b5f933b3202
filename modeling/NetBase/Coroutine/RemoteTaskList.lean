import NetBase.Coroutine.Scheduler
import NetBase.Lib.Chain
import NetBase.Lib.Runs

/-!
# The lock-free remote task list

`Scheduler::RemoteTaskList`: a linked list of nodes behind one atomic `head`. Any number
of producer threads run `insertFront`, any number of `scheduleAll` calls detach the list
and walk it. `RemoteOp` has one label per atomic step, so a list of labels is an
interleaving; `new` may return any free address, also one freed by an earlier drain.

A submission carries a ghost `ticket` that tells it from other submissions of the same
executor. The ghost fields `log`, `since`, `calls` record the successful
compare-exchanges in order, those since the last exchange (newest first) and the calls of
`addExecutor`; a drain records its batch and what it has passed on.

`Good` is the invariant: every address has one owner (the shared list, a producer, or a
drain), the shared chain holds exactly `since`, and each drain holds the rest of its batch.
-/

namespace NetBase

open Lib

abbrev Addr := Nat

structure Submission where
  executor : Nat
  ticket : Nat
  deriving DecidableEq, Repr

namespace RemoteTaskList

structure Node where
  value : Submission
  next : Option Addr
  deriving DecidableEq, Repr

/-- Where a thread is in `insertFront`. -/
inductive Producer where
  | idle
  /-- The node is allocated; `head.load` is next. -/
  | load (node : Addr)
  /-- `new_node->next = old_head` is next. -/
  | link (node : Addr) (oldHead : Option Addr)
  /-- `compare_exchange_strong(old_head, new_node)` is next. -/
  | cas (node : Addr) (oldHead : Option Addr)
  deriving DecidableEq, Repr

def Producer.node : Producer → Option Addr
  | .idle => none
  | .load a | .link a _ | .cas a _ => some a

/-- A `scheduleAll` that has done its exchange: `head` is its local `_head`, `called` says
that `addExecutor(_head->value)` is done and the node not yet deleted. -/
structure Drain where
  head : Option Addr
  called : Bool := false
  /-- Ghost: the tasks detached, in compare-exchange order. -/
  batch : List Submission
  /-- Ghost: the tasks passed to `addExecutor` so far. -/
  passed : List Submission := []
  deriving DecidableEq, Repr

end RemoteTaskList

open RemoteTaskList

structure RemoteSys where
  heap : Addr → Option Node := fun _ => none
  head : Option Addr := none
  producers : Nat → Producer := fun _ => .idle
  drains : List Drain := []
  scheduler : Scheduler Submission := {}
  nextTicket : Nat := 0
  since : List Submission := []
  log : List Submission := []
  /-- The return values of `insertFront`, in the order of the compare-exchanges. -/
  returned : List (Submission × Bool) := []
  calls : List Submission := []
  /-- Entries the scheduler loop has taken off the ready queue. -/
  dispatched : List Submission := []
  useAfterFree : Bool := false

inductive RemoteOp where
  | newNode (p : Nat) (addr : Addr) (executor : Nat)
  | load (p : Nat)
  | link (p : Nat)
  | cas (p : Nat)
  | exchange
  | addExecutor (d : Nat)
  | delete (d : Nat)
  | take
  | stop
  deriving DecidableEq, Repr

namespace RemoteSys

def setProducer (s : RemoteSys) (p : Nat) (st : Producer) : RemoteSys :=
  { s with producers := Function.update s.producers p st }

def setNode (s : RemoteSys) (a : Addr) (n : Option Node) : RemoteSys :=
  { s with heap := Function.update s.heap a n }

/-- `new Node(executor, nullptr)` by producer `p`. -/
def newNode (s : RemoteSys) (p : Nat) (addr : Addr) (executor : Nat) : RemoteSys :=
  { (s.setNode addr (some ⟨⟨executor, s.nextTicket⟩, none⟩)).setProducer p (.load addr) with
    nextTicket := s.nextTicket + 1 }

/-- The compare-exchange of producer `p` succeeded: `insertFront` returns
`old_head == nullptr`, and `old_head` is the head it replaced. -/
def push (s : RemoteSys) (p : Nat) (node : Addr) (v : Submission) : RemoteSys :=
  { s.setProducer p .idle with
    head := some node
    since := v :: s.since
    log := s.log ++ [v]
    returned := s.returned ++ [(v, s.head == none)] }

/-- `head.exchange(nullptr)` by a new `scheduleAll`. -/
def detach (s : RemoteSys) : RemoteSys :=
  { s with
    head := none
    since := []
    drains := s.drains ++ [{ head := s.head, batch := s.since.reverse }] }

/-- `scheduler->addExecutor(_head->value)` in the drain `d`. -/
def passOn (s : RemoteSys) (d : Nat) (D : Drain) (v : Submission) : RemoteSys :=
  { s with
    scheduler := (s.scheduler.addExecutor (some v)).2
    calls := s.calls ++ [v]
    drains := s.drains.set d { D with called := true, passed := D.passed ++ [v] } }

/-- `temp = _head; _head = _head->next; delete temp` in the drain `d`. -/
def deleteNode (s : RemoteSys) (d : Nat) (D : Drain) (a : Addr) (next : Option Addr) : RemoteSys :=
  { s.setNode a none with drains := s.drains.set d { D with head := next, called := false } }

def step (s : RemoteSys) : RemoteOp → Option RemoteSys
  | .newNode p addr executor =>
    match s.producers p, s.heap addr with
    | .idle, none =>
      some (s.newNode p addr executor)
    | _, _ => none
  | .load p =>
    match s.producers p with
    | .load node => some (s.setProducer p (.link node s.head))
    | _ => none
  | .link p =>
    match s.producers p with
    | .link node oldHead =>
      match s.heap node with
      | some n =>
        some ((s.setNode node (some { n with next := oldHead })).setProducer p (.cas node oldHead))
      | none => some { s with useAfterFree := true }
    | _ => none
  | .cas p =>
    match s.producers p with
    | .cas node oldHead =>
      match s.heap node with
      | some n =>
        some (if s.head = oldHead then s.push p node n.value
          else s.setProducer p (.link node s.head))
      | none => some { s with useAfterFree := true }
    | _ => none
  | .exchange => some s.detach
  | .addExecutor d =>
    match s.drains[d]? with
    | some D =>
      match D.head, D.called with
      | some a, false =>
        match s.heap a with
        | some n => some (s.passOn d D n.value)
        | none => some { s with useAfterFree := true }
      | _, _ => none
    | none => none
  | .delete d =>
    match s.drains[d]? with
    | some D =>
      match D.head, D.called with
      | some a, true =>
        match s.heap a with
        | some n => some (s.deleteNode d D a n.next)
        | none => some { s with useAfterFree := true }
      | _, _ => none
    | none => none
  | .take =>
    match s.scheduler.takeReady with
    | (some v, scheduler) => some { s with scheduler, dispatched := s.dispatched ++ [v] }
    | (none, _) => none
  | .stop => some { s with scheduler := s.scheduler.stop }

end RemoteSys

/-! ## Ownership -/

namespace RemoteTaskList

inductive Owner where
  | shared
  | producer (p : Nat)
  | drain (d : Nat)
  deriving DecidableEq, Repr

/-- The values stored at the addresses. -/
def values (heap : Addr → Option Node) (as : List Addr) : List Submission :=
  as.filterMap fun a => (heap a).map Node.value

/-- From `p` runs a chain of nodes of owner `o` that holds `vs`. -/
def Seg (own : Addr → Option Owner) (heap : Addr → Option Node) (o : Owner) (p : Option Addr)
    (vs : List Submission) : Prop :=
  ∃ as, Chain Node.next heap p as ∧ (∀ a ∈ as, own a = some o) ∧ values heap as = vs

variable {own own' : Addr → Option Owner} {heap heap' : Addr → Option Node} {o o' : Owner}
  {p : Option Addr} {vs : List Submission}

theorem values_congr {as : List Addr} (h : ∀ a ∈ as, heap' a = heap a) :
    values heap' as = values heap as := by
  induction as with
  | nil => rfl
  | cons a as ih =>
    have ih := ih fun b hb => h b (List.mem_cons_of_mem _ hb)
    simp only [values, List.filterMap_cons, h a List.mem_cons_self] at ih ⊢
    rw [ih]

/-- Frame rule: a segment depends on the nodes of its owner only. -/
theorem Seg.frame (h : Seg own heap o p vs)
    (hf : ∀ a, own a = some o → own' a = some o' ∧ heap' a = heap a) : Seg own' heap' o' p vs := by
  obtain ⟨as, hc, ho, hv⟩ := h
  exact ⟨as, hc.congr fun a ha => (hf a (ho a ha)).2, fun a ha => (hf a (ho a ha)).1,
    (values_congr fun a ha => (hf a (ho a ha)).2).trans hv⟩

theorem Seg.nil : Seg own heap o none [] := ⟨[], rfl, by simp, rfl⟩

theorem Seg.cons {a : Addr} {n : Node} (hn : heap a = some n) (ha : own a = some o)
    (h : Seg own heap o n.next vs) : Seg own heap o (some a) (n.value :: vs) := by
  obtain ⟨as, hc, ho, hv⟩ := h
  refine ⟨a :: as, ⟨rfl, n, hn, hc⟩, fun b hb => ?_, by simp [values, hn, ← hv]⟩
  rcases List.mem_cons.1 hb with rfl | hb
  · exact ha
  · exact ho b hb

/-- The first node of a segment, which its tail does not visit again. -/
theorem Seg.uncons {a : Addr} (h : Seg own heap o (some a) vs) :
    ∃ n ws, heap a = some n ∧ own a = some o ∧ vs = n.value :: ws ∧
      ∃ as, a ∉ as ∧ Chain Node.next heap n.next as ∧ (∀ b ∈ as, own b = some o) ∧
        values heap as = ws := by
  obtain ⟨as, hc, ho, hv⟩ := h
  have hnd := hc.nodup
  obtain ⟨n, bs, hn, rfl, hc'⟩ := hc.some_inv
  refine ⟨n, _, hn, ho a List.mem_cons_self, ?_, bs, (List.nodup_cons.1 hnd).1, hc',
    fun b hb => ho b (List.mem_cons_of_mem _ hb), rfl⟩
  rw [← hv]
  simp [values, hn]

theorem Seg.of_none (h : Seg own heap o none vs) : vs = [] := by
  obtain ⟨as, hc, -, hv⟩ := h
  rw [hc.nil_inv] at hv
  exact hv.symm

end RemoteTaskList

end NetBase
