import Mathlib.Data.List.Nodup
import NetBase.Coroutine.RemoteShape

/-!
# The remote task list loses and duplicates nothing

`Book` is the bookkeeping invariant of `RemoteSys`: the log of successful compare-exchanges
is the batches of the drains, in the order of their exchanges, and then the present list;
no submission is in two places; and each is passed to `addExecutor` at most once, by the
drain that detached it.
-/

namespace NetBase

open Lib RemoteTaskList

namespace RemoteSys

variable {own : Addr → Option Owner} {s s' : RemoteSys} {p d : Nat} {a : Addr}

/-- The submission producer `p` holds in a node not yet in the list. -/
def inFlight (s : RemoteSys) (p : Nat) : Option Submission :=
  ((s.producers p).node.bind s.heap).map Node.value

structure Book (s : RemoteSys) : Prop where
  log : s.log = (s.drains.map Drain.batch).flatten ++ s.since.reverse
  nodup : s.log.Nodup
  old : ∀ v ∈ s.log, v.ticket < s.nextTicket
  flight : ∀ p v, s.inFlight p = some v → v.ticket < s.nextTicket ∧ v ∉ s.log
  distinct : ∀ p q v, s.inFlight p = some v → s.inFlight q = some v → p = q
  returned : s.returned.map Prod.fst = s.log
  calls_nodup : s.calls.Nodup
  mem_calls : ∀ v, v ∈ s.calls ↔ ∃ (d : Nat) (D : Drain), s.drains[d]? = some D ∧ v ∈ D.passed
  sublist : ∀ (d : Nat) (D : Drain), s.drains[d]? = some D → D.passed.Sublist s.calls
  queue : s.scheduler.stopping = false →
    s.dispatched.map some ++ s.scheduler.readyExecutors = s.calls.map some
  kept : ∀ v, some v ∈ s.scheduler.readyExecutors ∨ v ∈ s.dispatched → v ∈ s.calls
  noNull : none ∉ s.scheduler.readyExecutors

theorem inFlight_congr {q : Nat} (hn : (s'.producers q).node = (s.producers q).node)
    (hh : ∀ b, (s.producers q).node = some b →
      (s'.heap b).map Node.value = (s.heap b).map Node.value) : s'.inFlight q = s.inFlight q := by
  unfold inFlight
  rw [hn]
  cases hb : (s.producers q).node with
  | none => rfl
  | some b => exact hh b hb

theorem inFlight_setProducer (st : Producer) (hst : st.node = (s.producers p).node) (q : Nat) :
    (s.setProducer p st).inFlight q = s.inFlight q := by
  refine inFlight_congr ?_ fun _ _ => rfl
  by_cases hq : q = p
  · subst hq; rw [setProducer_self, hst]
  · rw [setProducer_other st hq]

theorem inFlight_newNode (h : Shape own s) {e : Nat} (ha : s.heap a = none) (q : Nat) :
    (s.newNode p a e).inFlight q = if q = p then some ⟨e, s.nextTicket⟩ else s.inFlight q := by
  split
  · rename_i hq
    subst hq
    simp [inFlight, newNode, setProducer, setNode, Producer.node]
  · rename_i hq
    have hp : (s.newNode p a e).producers q = s.producers q := Function.update_of_ne hq ..
    apply inFlight_congr (by rw [hp])
    intro b hb
    obtain ⟨n, hn⟩ := h.heap_producer hb
    have hba : b ≠ a := by rintro rfl; rw [ha] at hn; cases hn
    show (Function.update s.heap a _ b).map _ = _
    rw [Function.update_of_ne hba]

theorem inFlight_push {v : Submission} (q : Nat) :
    (s.push p a v).inFlight q = if q = p then none else s.inFlight q := by
  split
  · rename_i hq
    subst hq
    simp [inFlight, push, setProducer, Producer.node]
  · rename_i hq
    have hp : (s.push p a v).producers q = s.producers q := Function.update_of_ne hq ..
    exact inFlight_congr (by rw [hp]) fun _ _ => rfl

/-- The steps that neither start nor finish an insertion leave the nodes in flight alone. -/
theorem inFlight_effect {op : RemoteOp} (h : Shape own s) (he : Effect s op s')
    (hnew : ∀ p a e, op ≠ .newNode p a e) (hcas : ∀ p, op ≠ .cas p) (q : Nat) :
    s'.inFlight q = s.inFlight q := by
  cases he with
  | newNode hp ha => exact absurd rfl (hnew _ _ _)
  | load hp => exact inFlight_setProducer _ (by simp [hp, Producer.node]) q
  | @link p a old n hp hn =>
    rw [inFlight_setProducer _ (by simp [setNode, hp, Producer.node])]
    refine inFlight_congr rfl fun b _ => ?_
    by_cases hba : b = a
    · subst hba; simp [setNode, hn]
    · simp [setNode, Function.update_of_ne hba]
  | win hp hn => exact absurd rfl (hcas _)
  | lose hp hh => exact absurd rfl (hcas _)
  | exchange => rfl
  | addExecutor hD hh hc hn => rfl
  | @delete d D a n hD hh hc hn =>
    refine inFlight_congr rfl fun b hb => ?_
    have hba : b ≠ a := by
      rintro rfl
      obtain ⟨vs, hs, -⟩ := h.drain d D hD
      rw [hh] at hs
      obtain ⟨m, ws, -, hown, -⟩ := hs.uncons
      have := h.producer q b hb
      rw [hown] at this
      cases this
    simp [deleteNode, setNode, Function.update_of_ne hba]
  | take hr => rfl
  | stop => rfl

theorem book_init : Book {} where
  log := rfl
  nodup := List.nodup_nil
  old _ h := by cases h
  flight p v h := by simp [inFlight, Producer.node] at h
  distinct p q v h := by simp [inFlight, Producer.node] at h
  returned := rfl
  calls_nodup := List.nodup_nil
  mem_calls := by simp
  sublist := by simp
  queue _ := rfl
  kept := by simp
  noNull := by simp

/-! ### Batches -/

variable {D E : Drain} {e : Nat} {v : Submission}

theorem Book.batches_nodup (hb : Book s) : (s.drains.map Drain.batch).flatten.Nodup :=
  (List.nodup_append.1 (hb.log ▸ hb.nodup)).1

theorem Book.batch_nodup (hb : Book s) (hD : s.drains[d]? = some D) : D.batch.Nodup :=
  (List.nodup_flatten.1 hb.batches_nodup).1 _ (List.mem_map_of_mem (List.mem_of_getElem? hD))

/-- No submission is in the batches of two drains. -/
theorem Book.batch_unique (hb : Book s) (hD : s.drains[d]? = some D) (hE : s.drains[e]? = some E)
    (hvD : v ∈ D.batch) (hvE : v ∈ E.batch) : e = d := by
  have hpw := (List.nodup_flatten.1 hb.batches_nodup).2
  rw [List.pairwise_map, List.pairwise_iff_getElem] at hpw
  obtain ⟨hd, rfl⟩ := List.getElem?_eq_some_iff.1 hD
  obtain ⟨he, rfl⟩ := List.getElem?_eq_some_iff.1 hE
  rcases Nat.lt_trichotomy e d with hlt | heq | hlt
  · exact absurd hvD (hpw e d he hd hlt hvE)
  · exact heq
  · exact absurd hvE (hpw d e hd he hlt hvD)

theorem Book.batch_mem_log (hb : Book s) (hD : s.drains[d]? = some D) (hv : v ∈ D.batch) :
    v ∈ s.log := by
  rw [hb.log]
  exact List.mem_append_left _ (List.mem_flatten.2
    ⟨_, List.mem_map_of_mem (List.mem_of_getElem? hD), hv⟩)

theorem Book.batch_not_since (hb : Book s) (hD : s.drains[d]? = some D) (hv : v ∈ D.batch) :
    v ∉ s.since := by
  intro hs
  exact (List.nodup_append.1 (hb.log ▸ hb.nodup)).2.2 v
    (List.mem_flatten.2 ⟨_, List.mem_map_of_mem (List.mem_of_getElem? hD), hv⟩) v
    (List.mem_reverse.2 hs) rfl

theorem Shape.passed_batch (h : Shape own s) (hD : s.drains[d]? = some D) (hv : v ∈ D.passed) :
    v ∈ D.batch := by
  obtain ⟨us, -, -, hp⟩ := h.drain d D hD
  exact List.mem_reverse.1 (hp ▸ List.mem_append_left _ hv)

/-- The next task of a drain: it is in the drain's batch and no drain has passed it on. -/
theorem next_fresh (h : Shape own s) (hb : Book s) {n : Node} (hD : s.drains[d]? = some D)
    (hh : D.head = some a) (hc : D.called = false) (hn : s.heap a = some n) :
    n.value ∈ D.batch ∧ n.value ∉ s.calls := by
  obtain ⟨vs, hs, -, hp⟩ := h.drain d D hD
  rw [hh] at hs
  obtain ⟨m, ws, hm, -, rfl, -⟩ := hs.uncons
  cases hn.symm.trans hm
  simp only [hc, Bool.false_eq_true, if_false, List.drop_zero] at hp
  have hin : n.value ∈ D.batch := List.mem_reverse.1 (hp ▸ by simp)
  refine ⟨hin, fun hcall => ?_⟩
  obtain ⟨e, E, hE, hv⟩ := (hb.mem_calls n.value).1 hcall
  obtain rfl := hb.batch_unique hD hE hin (h.passed_batch hE hv)
  cases hD.symm.trans hE
  have hnd := List.nodup_reverse.2 (hb.batch_nodup hD)
  rw [← hp, List.nodup_append] at hnd
  exact hnd.2.2 _ hv _ List.mem_cons_self rfl

theorem getElem?_drains_set {D' : Drain} (hD : s.drains[d]? = some D) :
    (s.drains.set d D')[e]? = some E ↔ (e = d ∧ E = D') ∨ (e ≠ d ∧ s.drains[e]? = some E) := by
  have hd : d < s.drains.length := (List.getElem?_eq_some_iff.1 hD).1
  rw [List.getElem?_set]
  by_cases hde : d = e
  · subst hde; simp [hd, eq_comm]
  · simp [hde, Ne.symm hde]

theorem map_batch_set {D' : Drain} (hD : s.drains[d]? = some D) (hb : D'.batch = D.batch) :
    (s.drains.set d D').map Drain.batch = s.drains.map Drain.batch := by
  rw [List.map_set, hb]
  obtain ⟨hd, rfl⟩ := List.getElem?_eq_some_iff.1 hD
  apply List.ext_getElem?
  intro i
  rw [List.getElem?_set]
  split
  · rename_i hi; subst hi; simp [hd]
  · rfl

theorem book_passOn (h : Shape own s) (hb : Book s) {n : Node}
    (hD : s.drains[d]? = some D) (hh : D.head = some a) (hc : D.called = false)
    (hn : s.heap a = some n) : Book (s.passOn d D n.value) := by
  obtain ⟨-, hfresh⟩ := next_fresh h hb hD hh hc hn
  have hq : (s.passOn d D n.value).scheduler = (s.scheduler.addExecutor (some n.value)).2 := rfl
  refine ⟨?_, hb.nodup, hb.old, hb.flight, hb.distinct, hb.returned, ?_, fun v => ?_,
    fun e E hE => ?_, fun hst => ?_, fun v hv => ?_, ?_⟩
  · show s.log = ((s.drains.set d _).map Drain.batch).flatten ++ _
    rw [map_batch_set (D := D) hD (by rfl)]
    exact hb.log
  · exact List.nodup_append.2 ⟨hb.calls_nodup, List.nodup_singleton _,
      fun x hx y hy e => hfresh (by rw [List.mem_singleton.1 hy] at e; exact e ▸ hx)⟩
  · simp only [passOn, List.mem_append, List.mem_singleton, hb.mem_calls, getElem?_drains_set hD]
    constructor
    · rintro (⟨e, E, hE, hv⟩ | rfl)
      · by_cases he : e = d
        · subst he
          cases hD.symm.trans hE
          exact ⟨e, _, .inl ⟨rfl, rfl⟩, by simp [hv]⟩
        · exact ⟨e, E, .inr ⟨he, hE⟩, hv⟩
      · exact ⟨d, _, .inl ⟨rfl, rfl⟩, by simp⟩
    · rintro ⟨e, E, ⟨rfl, rfl⟩ | ⟨-, hE⟩, hv⟩
      · rcases List.mem_append.1 hv with hv | hv
        · exact .inl ⟨e, D, hD, hv⟩
        · exact .inr (List.mem_singleton.1 hv)
      · exact .inl ⟨e, E, hE, hv⟩
  · simp only [passOn, getElem?_drains_set hD] at hE
    rcases hE with ⟨rfl, rfl⟩ | ⟨-, hE⟩
    · exact (hb.sublist e D hD).append (List.Sublist.refl _)
    · exact (hb.sublist e E hE).trans (List.sublist_append_left _ _)
  · rw [hq] at hst ⊢
    have hs : s.scheduler.stopping = false := by simpa using hst
    rw [Scheduler.addExecutor_running hs]
    show s.dispatched.map some ++ (s.scheduler.readyExecutors ++ _) = (s.calls ++ _).map some
    rw [← List.append_assoc, hb.queue hs, List.map_append]
    rfl
  · show v ∈ s.calls ++ [n.value]
    rw [hq] at hv
    unfold Scheduler.addExecutor at hv
    split at hv
    · exact List.mem_append_left _ (hb.kept v hv)
    · rcases hv with hv | hv
      · rcases List.mem_append.1 hv with hv | hv
        · exact List.mem_append_left _ (hb.kept v (.inl hv))
        · simp only [List.mem_singleton, Option.some.injEq] at hv
          exact List.mem_append_right _ (by simp [hv])
      · exact List.mem_append_left _ (hb.kept v (.inr hv))
  · rw [hq]
    unfold Scheduler.addExecutor
    split
    · exact hb.noNull
    · simpa using hb.noNull

/-- A producer that keeps its node changes nothing in the books. -/
theorem Book.frame (hb : Book s) {heap : Addr → Option Node} {producers : Nat → Producer}
    (hfl : ∀ q, ({ s with heap, producers } : RemoteSys).inFlight q = s.inFlight q) :
    Book { s with heap, producers } :=
  ⟨hb.log, hb.nodup, hb.old, fun q v hv => hb.flight q v (hfl q ▸ hv),
    fun q r v hq hr => hb.distinct q r v (hfl q ▸ hq) (hfl r ▸ hr), hb.returned, hb.calls_nodup,
    hb.mem_calls, hb.sublist, hb.queue, hb.kept, hb.noNull⟩

theorem book_newNode (h : Shape own s) (hb : Book s) {p e : Nat} (ha : s.heap a = none) :
    Book (s.newNode p a e) := by
  refine ⟨hb.log, hb.nodup, fun v hv => Nat.lt_succ_of_lt (hb.old v hv), fun q v hv => ?_,
    fun q r v hq hr => ?_, hb.returned, hb.calls_nodup, hb.mem_calls, hb.sublist, hb.queue,
    hb.kept, hb.noNull⟩
  · rw [inFlight_newNode h ha] at hv
    split at hv
    · cases hv
      exact ⟨Nat.lt_succ_self _, fun hl => Nat.lt_irrefl _ (hb.old _ hl)⟩
    · exact ⟨Nat.lt_succ_of_lt (hb.flight q v hv).1, (hb.flight q v hv).2⟩
  · rw [inFlight_newNode h ha] at hq hr
    split at hq <;> split at hr
    · rename_i e1 e2; exact e1.trans e2.symm
    · cases hq; exact absurd (hb.flight r _ hr).1 (Nat.lt_irrefl _)
    · cases hr; exact absurd (hb.flight q _ hq).1 (Nat.lt_irrefl _)
    · exact hb.distinct q r v hq hr

/-- A submission enters the log with its compare-exchange. -/
theorem book_push (hb : Book s) {p : Nat} {n : Node} (hp : s.producers p = .cas a s.head)
    (hn : s.heap a = some n) : Book (s.push p a n.value) := by
  have hfl : s.inFlight p = some n.value := by simp [inFlight, hp, Producer.node, hn]
  obtain ⟨hlt, hnew⟩ := hb.flight p _ hfl
  refine ⟨?_, ?_, ?_, fun q v hv => ?_, fun q r v hq hr => ?_, ?_, hb.calls_nodup, hb.mem_calls,
    hb.sublist, hb.queue, hb.kept, hb.noNull⟩
  · show s.log ++ [n.value] = (s.drains.map Drain.batch).flatten ++ (n.value :: s.since).reverse
    rw [List.reverse_cons, ← List.append_assoc, hb.log]
  · exact List.nodup_append.2 ⟨hb.nodup, List.nodup_singleton _,
      fun x hx y hy e => hnew (by rw [List.mem_singleton.1 hy] at e; exact e ▸ hx)⟩
  · intro v hv
    rcases List.mem_append.1 hv with hv | hv
    · exact hb.old v hv
    · rw [List.mem_singleton.1 hv]; exact hlt
  · rw [inFlight_push] at hv
    split at hv
    · cases hv
    · rename_i hq
      refine ⟨(hb.flight q v hv).1, fun hl => ?_⟩
      rcases List.mem_append.1 hl with hl | hl
      · exact (hb.flight q v hv).2 hl
      · rw [List.mem_singleton.1 hl] at hv
        exact hq (hb.distinct q p _ hv hfl)
  · rw [inFlight_push] at hq hr
    split at hq
    · cases hq
    · split at hr
      · cases hr
      · exact hb.distinct q r v hq hr
  · show (s.returned ++ [_]).map Prod.fst = s.log ++ [n.value]
    rw [List.map_append, hb.returned]
    rfl

/-- The exchange makes one batch of what came since the last one. -/
theorem book_detach (hb : Book s) : Book s.detach := by
  have hget : ∀ (e : Nat) (E : Drain), s.detach.drains[e]? = some E →
      s.drains[e]? = some E ∨ E.passed = [] := by
    intro e E hE
    simp only [detach, List.getElem?_append] at hE
    split at hE
    · exact .inl hE
    · right
      cases hk : e - s.drains.length with
      | zero => rw [hk] at hE; cases hE; rfl
      | succ k => rw [hk] at hE; simp at hE
  refine ⟨?_, hb.nodup, hb.old, hb.flight, hb.distinct, hb.returned, hb.calls_nodup, fun v => ?_,
    fun e E hE => ?_, hb.queue, hb.kept, hb.noNull⟩
  · show s.log = ((s.drains ++ [_]).map Drain.batch).flatten ++ [].reverse
    rw [List.map_append, List.flatten_append, hb.log]
    simp
  · refine (hb.mem_calls v).trans ⟨?_, ?_⟩
    · rintro ⟨e, E, hE, hv⟩
      refine ⟨e, E, ?_, hv⟩
      simp only [detach]
      rw [List.getElem?_append_left (List.getElem?_eq_some_iff.1 hE).1]
      exact hE
    · rintro ⟨e, E, hE, hv⟩
      rcases hget e E hE with hE | hE
      · exact ⟨e, E, hE, hv⟩
      · rw [hE] at hv; cases hv
  · rcases hget e E hE with hE | hE
    · exact hb.sublist e E hE
    · rw [hE]; exact List.nil_sublist _

theorem book_delete (h : Shape own s) (hb : Book s) {n : Node} (hD : s.drains[d]? = some D)
    (hh : D.head = some a) (hc : D.called = true) (hn : s.heap a = some n) :
    Book (s.deleteNode d D a n.next) := by
  have hfl := inFlight_effect h (.delete hD hh hc hn) (by simp) (by simp)
  refine ⟨?_, hb.nodup, hb.old, fun q v hv => hb.flight q v (hfl q ▸ hv),
    fun q r v hq hr => hb.distinct q r v (hfl q ▸ hq) (hfl r ▸ hr), hb.returned, hb.calls_nodup,
    fun v => ?_, fun e E hE => ?_, hb.queue, hb.kept, hb.noNull⟩
  · show s.log = ((s.drains.set d _).map Drain.batch).flatten ++ _
    rw [map_batch_set (D := D) hD (by rfl)]
    exact hb.log
  · refine (hb.mem_calls v).trans ⟨?_, ?_⟩
    · rintro ⟨e, E, hE, hv⟩
      by_cases he : e = d
      · subst he
        cases hD.symm.trans hE
        exact ⟨e, _, (getElem?_drains_set hD).2 (.inl ⟨rfl, rfl⟩), hv⟩
      · exact ⟨e, E, (getElem?_drains_set hD).2 (.inr ⟨he, hE⟩), hv⟩
    · rintro ⟨e, E, hE, hv⟩
      rcases (getElem?_drains_set hD).1 hE with ⟨rfl, rfl⟩ | ⟨-, hE⟩
      · exact ⟨e, D, hD, hv⟩
      · exact ⟨e, E, hE, hv⟩
  · rcases (getElem?_drains_set hD).1 hE with ⟨rfl, rfl⟩ | ⟨-, hE⟩
    · exact hb.sublist e D hD
    · exact hb.sublist e E hE

theorem book_effect {op : RemoteOp} (h : Shape own s) (hb : Book s) (he : Effect s op s') :
    Book s' := by
  cases he with
  | newNode hp ha => exact book_newNode h hb ha
  | load hp => exact hb.frame (inFlight_effect h (.load hp) (by simp) (by simp))
  | link hp hn => exact hb.frame (inFlight_effect h (.link hp hn) (by simp) (by simp))
  | win hp hn => exact book_push hb hp hn
  | lose hp hh => exact hb.frame (inFlight_setProducer _ (by simp [hp, Producer.node]))
  | exchange => exact book_detach hb
  | addExecutor hD hh hc hn => exact book_passOn h hb hD hh hc hn
  | delete hD hh hc hn => exact book_delete h hb hD hh hc hn
  | @take v rest hr =>
    refine ⟨hb.log, hb.nodup, hb.old, hb.flight, hb.distinct, hb.returned, hb.calls_nodup,
      hb.mem_calls, hb.sublist, fun hst => ?_, fun u hu => hb.kept u ?_, fun hnull => ?_⟩
    · have := hb.queue hst
      rw [hr] at this
      simpa using this
    · rw [hr]
      rcases hu with hu | hu
      · exact .inl (List.mem_cons_of_mem _ hu)
      · rcases List.mem_append.1 hu with hu | hu
        · exact .inr hu
        · exact .inl (by rw [List.mem_singleton.1 hu]; exact List.mem_cons_self)
    · exact hb.noNull (by rw [hr]; exact List.mem_cons_of_mem _ hnull)
  | stop =>
    have hr : s.scheduler.stop.readyExecutors = s.scheduler.readyExecutors := by
      unfold Scheduler.stop; split <;> rfl
    have hst : s.scheduler.stop.stopping = false → s.scheduler.stopping = false := by
      unfold Scheduler.stop; split
      · intro h; cases h
      · exact id
    refine ⟨hb.log, hb.nodup, hb.old, hb.flight, hb.distinct, hb.returned, hb.calls_nodup,
      hb.mem_calls, hb.sublist, fun h => ?_, fun u hu => hb.kept u ?_, fun hnull => hb.noNull ?_⟩
    · show s.dispatched.map some ++ s.scheduler.stop.readyExecutors = _
      rw [hr]; exact hb.queue (hst h)
    · rcases hu with hu | hu
      · exact .inl (hr ▸ hu)
      · exact .inr hu
    · exact hr ▸ hnull

/-- The two invariants together. -/
def Good (s : RemoteSys) : Prop := (∃ own, Shape own s) ∧ Book s

theorem good_init : Good {} := ⟨⟨_, shape_init⟩, book_init⟩

theorem good_step {op : RemoteOp} (h : Good s) (hstep : step s op = some s') : Good s' := by
  obtain ⟨⟨own, hs⟩, hb⟩ := h
  have he := step_effect hs hstep
  exact ⟨shape_effect hs he, book_effect hs hb he⟩

theorem good_reach (h : Reach step {} s) : Good s :=
  h.inv good_init fun _ _ _ => good_step

/-- Only `scheduleAll` touches the batches, each call its own. -/
theorem drains_effect {t : RemoteSys} {op : RemoteOp} (he : Effect s op t) :
    (op ≠ .exchange ∧ (∀ d, op ≠ .addExecutor d) ∧ (∀ d, op ≠ .delete d) →
      t.drains = s.drains) ∧
    ∀ d, op = .addExecutor d ∨ op = .delete d →
      t.drains.length = s.drains.length ∧ ∀ e, e ≠ d → t.drains[e]? = s.drains[e]? := by
  cases he with
  | exchange => simp
  | @addExecutor d D a n hD hh hc hn =>
    refine ⟨fun h => absurd rfl (h.2.1 d), fun d' hd' => ?_⟩
    obtain rfl : d = d' := by simpa using hd'
    exact ⟨List.length_set, fun e he => List.getElem?_set_ne (Ne.symm he)⟩
  | @delete d D a n hD hh hc hn =>
    refine ⟨fun h => absurd rfl (h.2.2 d), fun d' hd' => ?_⟩
    obtain rfl : d = d' := by simpa using hd'
    exact ⟨List.length_set, fun e he => List.getElem?_set_ne (Ne.symm he)⟩
  | _ => exact ⟨fun _ => rfl, fun d hd => by simp at hd⟩

/-- Nobody else touches the batch of a `scheduleAll`. -/
theorem drain_kept {t : RemoteSys} {op : RemoteOp} (he : Effect s op t)
    (hD : s.drains[d]? = some D) (hop : op ≠ .addExecutor d ∧ op ≠ .delete d) :
    t.drains[d]? = some D := by
  cases he with
  | exchange =>
    have hd : d < s.drains.length := (List.getElem?_eq_some_iff.1 hD).1
    simp [detach, List.getElem?_append_left hd, hD]
  | @addExecutor e E a n hE hh hc hn =>
    have hne : e ≠ d := fun h => hop.1 (h ▸ rfl)
    exact (List.getElem?_set_ne hne).trans hD
  | @delete e E a n hE hh hc hn =>
    have hne : e ≠ d := fun h => hop.2 (h ▸ rfl)
    exact (List.getElem?_set_ne hne).trans hD
  | _ => exact hD

/-- What a `scheduleAll` has still to do. -/
def work (D : Drain) : Nat := 2 * (D.batch.length - D.passed.length) + if D.called then 1 else 0

/-- The next step of a `scheduleAll` that has not come to its end. -/
theorem walk_step (h : Shape own s) (hD : s.drains[d]? = some D) (hh : D.head ≠ none) :
    ∃ r D', s.step (if D.called then .delete d else .addExecutor d) = some r ∧
      r.drains[d]? = some D' ∧ D'.batch = D.batch ∧ work D' + 1 = work D := by
  obtain ⟨a, ha⟩ := Option.ne_none_iff_exists'.1 hh
  obtain ⟨n, hn⟩ := h.heap_drain hD ha
  have hd : d < s.drains.length := (List.getElem?_eq_some_iff.1 hD).1
  cases hc : D.called with
  | false =>
    obtain ⟨vs, hseg, -, hpass⟩ := h.drain d D hD
    rw [ha] at hseg
    obtain ⟨m, ws, -, -, rfl, -⟩ := hseg.uncons
    have hlen := congrArg List.length hpass
    simp only [hc, Bool.false_eq_true, if_false, List.drop_zero, List.length_append,
      List.length_cons, List.length_reverse] at hlen
    refine ⟨s.passOn d D n.value, { D with called := true, passed := D.passed ++ [n.value] },
      by simp [step, hD, ha, hc, hn], by simp [passOn, hd], rfl, ?_⟩
    simp only [work, hc, List.length_append, List.length_singleton, if_true, Bool.false_eq_true,
      if_false]
    omega
  | true =>
    refine ⟨s.deleteNode d D a n.next, { D with head := n.next, called := false },
      by simp [step, hD, ha, hc, hn], by simp [deleteNode, setNode, hd], rfl, ?_⟩
    simp [work, hc]

/-- A `scheduleAll` that has come to its end has passed its batch, and has nothing to do. -/
theorem Shape.walked (h : Shape own s) (hD : s.drains[d]? = some D) (hh : D.head = none) :
    D.passed = D.batch.reverse ∧ work D = 0 := by
  obtain ⟨vs, hseg, hcalled, hpass⟩ := h.drain d D hD
  rw [hh] at hseg
  obtain rfl := hseg.of_none
  have hpassed : D.passed = D.batch.reverse := by simpa using hpass
  have hc : D.called = false := by
    cases hc : D.called with
    | false => rfl
    | true => exact absurd rfl (hcalled hc)
  exact ⟨hpassed, by simp [work, hc, hpassed]⟩

/-- What the steps of the `scheduleAll` with the batch `d` leave alone. -/
structure Apart (d : Nat) (s t : RemoteSys) : Prop where
  good : Good t
  log : t.log = s.log
  since : t.since = s.since
  length : t.drains.length = s.drains.length
  others : ∀ e, e ≠ d → t.drains[e]? = s.drains[e]?

theorem apart_step {t : RemoteSys} {op : RemoteOp} (h : Good s) (hs : step s op = some t)
    (hop : op = .addExecutor d ∨ op = .delete d) : Apart d s t := by
  have he := step_effect h.1.choose_spec hs
  obtain ⟨hlen, hothers⟩ := (drains_effect he).2 d hop
  have hkept : t.log = s.log ∧ t.since = s.since := by
    cases he with
    | addExecutor => exact ⟨rfl, rfl⟩
    | delete => exact ⟨rfl, rfl⟩
    | _ => rcases hop with hop | hop <;> cases hop
  exact ⟨good_step h hs, hkept.1, hkept.2, hlen, hothers⟩

theorem Apart.trans {t u : RemoteSys} (h : Apart d s t) (h' : Apart d t u) : Apart d s u :=
  ⟨h'.good, h'.log.trans h.log, h'.since.trans h.since, h'.length.trans h.length,
    fun e he => (h'.others e he).trans (h.others e he)⟩

/-- On its own a `scheduleAll` comes to its end. By induction on what it has still to do. -/
theorem walk_out (n : Nat) (h : Good s) (hD : s.drains[d]? = some D) (hn : work D = n) :
    ∃ ops t D', run step s ops = some t ∧ ops.length = n ∧
      (∀ op ∈ ops, op = .addExecutor d ∨ op = .delete d) ∧ t.drains[d]? = some D' ∧
      D'.head = none ∧ D'.batch = D.batch ∧ Apart d s t := by
  induction n generalizing s D with
  | zero =>
    have hh : D.head = none := by
      by_contra hh
      obtain ⟨r, D', -, -, -, hw⟩ := walk_step h.1.choose_spec hD hh
      omega
    exact ⟨[], s, D, rfl, rfl, by simp, hD, hh, rfl, h, rfl, rfl, rfl, fun _ _ => rfl⟩
  | succ n ih =>
    have hh : D.head ≠ none := by
      intro hh
      have := (h.1.choose_spec.walked hD hh).2
      omega
    obtain ⟨r, D', hr, hD', hbatch, hw⟩ := walk_step h.1.choose_spec hD hh
    have hop : (if D.called then RemoteOp.delete d else .addExecutor d) = .addExecutor d ∨
        (if D.called then RemoteOp.delete d else .addExecutor d) = .delete d := by
      cases D.called <;> simp
    have hapart := apart_step h hr hop
    obtain ⟨ops, t, E, hrun, hlen, hops, hE, hend, hE', hrest⟩ := ih hapart.good hD' (by omega)
    refine ⟨_ :: ops, t, E, run_cons hr hrun, by simp [hlen], fun op hmem => ?_, hE, hend,
      hE'.trans hbatch, hapart.trans hrest⟩
    rcases List.mem_cons.1 hmem with rfl | hmem
    · exact hop
    · exact hops op hmem

/-- The steps of the `scheduleAll` calls. -/
def byScheduleAll : RemoteOp → Bool
  | .exchange => true
  | .addExecutor _ => true
  | .delete _ => true
  | _ => false

/-- One `scheduleAll` after the other comes to its end. By induction on how many there are. -/
theorem walk_all (n : Nat) (h : Good s) : ∃ t, Reach (only byScheduleAll step) s t ∧ Good t ∧
    t.log = s.log ∧ t.since = s.since ∧ t.drains.length = s.drains.length ∧
    ∀ d D, d < n → t.drains[d]? = some D → D.head = none := by
  induction n with
  | zero => exact ⟨s, .refl s, h, rfl, rfl, rfl, fun _ _ hd => absurd hd (Nat.not_lt_zero _)⟩
  | succ n ih =>
    obtain ⟨u, hreach, hu, hlog, hsince, hlen, hwalked⟩ := ih
    cases hD : u.drains[n]? with
    | none =>
      refine ⟨u, hreach, hu, hlog, hsince, hlen, fun d D hd hdD => ?_⟩
      rcases Nat.lt_succ_iff_lt_or_eq.1 hd with hd | rfl
      · exact hwalked d D hd hdD
      · cases hD.symm.trans hdD
    | some E =>
      obtain ⟨ops, t, E', hrun, -, hops, hE', hend, -, hapart⟩ := walk_out _ hu hD rfl
      have hreach' : Reach (only byScheduleAll step) u t := by
        refine ⟨ops, run_only (fun op hop => ?_) hrun⟩
        rcases hops op hop with rfl | rfl <;> rfl
      refine ⟨t, hreach.trans hreach', hapart.good, hapart.log.trans hlog,
        hapart.since.trans hsince, hapart.length.trans hlen, fun d D hd hdD => ?_⟩
      by_cases hdn : d = n
      · subst hdn
        cases hE'.symm.trans hdD
        exact hend
      · rw [hapart.others d hdn] at hdD
        exact hwalked d D (by omega) hdD

theorem book_exactly_once (hs : Shape own s) (hb : Book s) (hv : v ∈ s.log) :
    s.calls.count v = 1 ∨ s.calls.count v = 0 ∧
      (v ∈ s.since ∨ ∃ (d : Nat) (D : Drain), s.drains[d]? = some D ∧
        v ∈ D.batch ∧ D.head ≠ none) := by
  rw [hb.log, List.mem_append, List.mem_flatten] at hv
  by_cases hc : v ∈ s.calls
  · exact .inl (List.count_eq_one_of_mem hb.calls_nodup hc)
  · refine .inr ⟨List.count_eq_zero.2 hc, ?_⟩
    rcases hv with ⟨l, hl, hv⟩ | hv
    · obtain ⟨D, hD, rfl⟩ := List.mem_map.1 hl
      obtain ⟨d, hd⟩ := List.mem_iff_getElem?.1 hD
      refine .inr ⟨d, D, hd, hv, fun hh => hc ?_⟩
      obtain ⟨vs, hseg, -, hp⟩ := hs.drain d D hd
      rw [hh] at hseg
      rw [hseg.of_none, List.drop_nil, List.append_nil] at hp
      exact (hb.mem_calls v).2 ⟨d, D, hd, hp ▸ List.mem_reverse.2 hv⟩
    · exact .inl (List.mem_reverse.1 hv)

/-- **The remote task list is exact.** In every reachable state of any interleaving:

* the chain from `head` is acyclic and holds exactly the tasks whose compare-exchange
  succeeded after the last exchange, newest first;
* the log of successful compare-exchanges, each a different submission, is the batches of
  the exchanges in their order and then that chain, oldest first;
* each `scheduleAll` has passed a prefix of its batch in reverse compare-exchange order,
  all of it once its `_head` is null; nobody else touches its part of the list, and the steps it
  has still to take bring it to the end, every task of its batch passed once;
* every inserted task is passed to `addExecutor` exactly once, or not yet and then it is
  in the chain or in the batch of an unfinished `scheduleAll`, and the steps of `scheduleAll`
  calls lead to a state in which every one has been passed exactly once;
* while the scheduler is not stopping, what it took off its queue and what is still there
  are the calls of `addExecutor` in their order. -/
theorem remote_list_exact (h : Reach step {} s) :
    (∃ as, Chain Node.next s.heap s.head as ∧ as.Nodup ∧ values s.heap as = s.since) ∧
    s.log = (s.drains.map Drain.batch).flatten ++ s.since.reverse ∧ s.log.Nodup ∧
    (∀ (d : Nat) (D : Drain), s.drains[d]? = some D → D.passed.Sublist s.calls ∧
      (∃ rest, D.passed ++ rest = D.batch.reverse ∧ (D.head = none → rest = [])) ∧
      (∀ op t, step s op = some t → op ≠ .addExecutor d ∧ op ≠ .delete d →
        t.drains[d]? = some D) ∧
      ∃ ops t D', run step s ops = some t ∧ ops.length = work D ∧
        (∀ op ∈ ops, op = .addExecutor d ∨ op = .delete d) ∧ t.drains[d]? = some D' ∧
        D'.head = none ∧ D'.passed = D.batch.reverse ∧ ∀ v ∈ D.batch, t.calls.count v = 1) ∧
    (∀ v ∈ s.log, s.calls.count v = 1 ∨ s.calls.count v = 0 ∧
      (v ∈ s.since ∨ ∃ (d : Nat) (D : Drain), s.drains[d]? = some D ∧
        v ∈ D.batch ∧ D.head ≠ none)) ∧
    (∃ t, Reach (only byScheduleAll step) s t ∧ t.log = s.log ∧
      ∀ v ∈ s.log, t.calls.count v = 1) ∧
    (s.scheduler.stopping = false →
      s.dispatched.map some ++ s.scheduler.readyExecutors = s.calls.map some) ∧
    s.useAfterFree = false := by
  have hgood := good_reach h
  obtain ⟨⟨own, hs⟩, hb⟩ := good_reach h
  refine ⟨?_, hb.log, hb.nodup, fun d D hD => ⟨hb.sublist d D hD, ?_, fun op t ht hop => ?_, ?_⟩,
    fun v => book_exactly_once hs hb, ?_, hb.queue, hs.safe⟩
  · obtain ⟨as, hc, -, hv⟩ := hs.shared
    exact ⟨as, hc, hc.nodup, hv⟩
  · obtain ⟨vs, hseg, -, hp⟩ := hs.drain d D hD
    refine ⟨_, hp, fun hh => ?_⟩
    rw [hh] at hseg
    rw [hseg.of_none, List.drop_nil]
  · exact drain_kept (step_effect hs ht) hD hop
  · obtain ⟨ops, t, D', hrun, hlen, hops, hD', hend, hbatch, hapart⟩ := walk_out _ hgood hD rfl
    have hpassed := (hapart.good.1.choose_spec.walked hD' hend).1
    rw [hbatch] at hpassed
    refine ⟨ops, t, D', hrun, hlen, hops, hD', hend, hpassed,
      fun v hv => ?_⟩
    have hcall := (hapart.good.2.mem_calls v).2 ⟨d, D', hD', by simp [hpassed, hv]⟩
    exact List.count_eq_one_of_mem hapart.good.2.calls_nodup hcall
  · -- what is still in the list is detached first
    have hx : step s .exchange = some s.detach := rfl
    obtain ⟨t, hreach, ht, hlog, hsince, hlen, hwalked⟩ :=
      walk_all s.detach.drains.length (good_step hgood hx)
    refine ⟨t, .cons (only_of rfl hx) hreach, hlog, fun v hv => ?_⟩
    have hmem : v ∈ t.log := hlog ▸ hv
    rcases book_exactly_once ht.1.choose_spec ht.2 hmem with h1 | ⟨-, h0 | ⟨d, D, hD, -, hh⟩⟩
    · exact h1
    · rw [hsince] at h0
      cases h0
    · exact absurd (hwalked d D (hlen ▸ (List.getElem?_eq_some_iff.1 hD).1) hD) hh

/-- Two producers race, the second retries; the first of the two tasks has been passed when the
other steps of the drain pass the second one. -/
theorem remote_list_exact_retry :
    ∃ s, run step {} [.newNode 0 7 42, .newNode 1 8 43, .load 0, .load 1, .link 0, .link 1,
        .cas 1, .cas 0, .link 0, .cas 0, .exchange, .addExecutor 0, .delete 0] = some s ∧
      s.log = [⟨43, 1⟩, ⟨42, 0⟩] ∧ s.calls = [⟨42, 0⟩] ∧
      ∃ ops t, run step s ops = some t ∧ (∀ op ∈ ops, op = .addExecutor 0 ∨ op = .delete 0) ∧
        ∀ v ∈ s.log, t.calls.count v = 1 := by
  have hr : run step {} [.newNode 0 7 42, .newNode 1 8 43, .load 0, .load 1, .link 0, .link 1,
    .cas 1, .cas 0, .link 0, .cas 0, .exchange, .addExecutor 0, .delete 0] = some _ := rfl
  obtain ⟨-, -, -, hdrain, -⟩ := remote_list_exact ⟨_, hr⟩
  obtain ⟨-, -, -, ops, t, D', hrun, -, hops, -, -, -, hcount⟩ := hdrain 0 _ rfl
  exact ⟨_, hr, rfl, rfl, ops, t, hrun, hops, hcount⟩

end RemoteSys

end NetBase
