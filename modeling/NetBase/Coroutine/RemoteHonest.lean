import NetBase.Coroutine.RemoteSafe

/-!
# What `addRemoteExecutor` promises

`addRemoteExecutor` returns what `insertFront` returns: whether the head it replaced was
null. The documentation reads the result as "added". `Honest` is that reading, together
with the promise that an executor reported as added is never dropped: it stays in
`remote_tasks_` (or in the batch a running `scheduleAll` has detached and not yet passed
on), in the ready queue, or has been dispatched.

`honest_iff` gives the runs that keep the promise: those in which every insertion that
succeeds finds the list empty, and no `scheduleAll` passes a task to a stopping scheduler.
-/

namespace NetBase

open Lib RemoteTaskList

/-- The tasks of the batch not yet passed to `addExecutor`. -/
def RemoteTaskList.Drain.rest (D : Drain) : List Submission := D.batch.reverse.drop D.passed.length

namespace RemoteSys

variable {own : Addr → Option Owner} {s s' : RemoteSys} {d e : Nat} {D E : Drain} {v : Submission}

def Held (s : RemoteSys) (v : Submission) : Prop :=
  v ∈ s.since ∨ (∃ (d : Nat) (D : Drain), s.drains[d]? = some D ∧ v ∈ D.rest) ∨
    some v ∈ s.scheduler.readyExecutors ∨ v ∈ s.dispatched

/-- Every call that added its executor returned true, and every executor a call returned
true for is still held or was dispatched. -/
def Honest (s : RemoteSys) : Prop :=
  (∀ r ∈ s.returned, r.2 = true) ∧ ∀ r ∈ s.returned, r.2 = true → s.Held r.1

/-- The steps that keep the promise. -/
def Clear (s : RemoteSys) : RemoteOp → Prop
  | .cas p => ∀ a, s.producers p = .cas a s.head → s.head = none
  | .addExecutor _ => s.scheduler.stopping = false
  | _ => True

theorem Shape.drain_rest (h : Shape own s) (hD : s.drains[d]? = some D) :
    D.passed ++ D.rest = D.batch.reverse := by
  obtain ⟨vs, -, -, hp⟩ := h.drain d D hD
  rw [Drain.rest, ← hp]
  simp

theorem Shape.rest_batch (h : Shape own s) (hD : s.drains[d]? = some D) (hv : v ∈ D.rest) :
    v ∈ D.batch :=
  List.mem_reverse.1 (h.drain_rest hD ▸ List.mem_append_right _ hv)

/-- A task passed to `addExecutor` waits nowhere in the remote list any more. -/
theorem called_not_waiting (h : Shape own s) (hb : Book s) (hv : v ∈ s.calls) :
    v ∉ s.since ∧ ∀ (d : Nat) (D : Drain), s.drains[d]? = some D → v ∉ D.rest := by
  obtain ⟨e, E, hE, hvE⟩ := (hb.mem_calls v).1 hv
  have hbatch := h.passed_batch hE hvE
  refine ⟨hb.batch_not_since hE hbatch, fun d D hD hr => ?_⟩
  obtain rfl := hb.batch_unique hD hE (h.rest_batch hD hr) hbatch
  cases hD.symm.trans hE
  have hnd := List.nodup_reverse.2 (hb.batch_nodup hD)
  rw [← h.drain_rest hD, List.nodup_append] at hnd
  exact hnd.2.2 v hvE v hr rfl

/-- `Honest` only looks at the results and at what is held. -/
theorem Honest.mono (h : Honest s) (hr : s'.returned = s.returned)
    (hh : ∀ v, s.Held v → s'.Held v) : Honest s' :=
  ⟨hr ▸ h.1, fun r hm ht => hh _ (h.2 r (hr ▸ hm) ht)⟩

theorem held_passOn {n : Node} {a : Addr} (h : Shape own s) (hD : s.drains[d]? = some D)
    (hh : D.head = some a) (hc : D.called = false) (hn : s.heap a = some n)
    (hst : s.scheduler.stopping = false) (hv : s.Held v) : (s.passOn d D n.value).Held v := by
  obtain ⟨vs, hs, -, hp⟩ := h.drain d D hD
  rw [hh] at hs
  obtain ⟨m, ws, hm, -, rfl, -⟩ := hs.uncons
  cases hn.symm.trans hm
  simp only [hc, Bool.false_eq_true, if_false, List.drop_zero] at hp
  have hq : (s.passOn d D n.value).scheduler.readyExecutors =
      s.scheduler.readyExecutors ++ [some n.value] := by
    simp [passOn, Scheduler.addExecutor_running hst]
  rcases hv with hv | ⟨e, E, hE, hv⟩ | hv | hv
  · exact .inl hv
  · by_cases he : e = d
    · subst he
      cases hD.symm.trans hE
      have hrest : D.rest = n.value :: ws := by simp [Drain.rest, ← hp]
      rw [hrest] at hv
      rcases List.mem_cons.1 hv with rfl | hv
      · exact .inr (.inr (.inl (by rw [hq]; simp)))
      · refine .inr (.inl ⟨e, _, (getElem?_drains_set hD).2 (.inl ⟨rfl, rfl⟩), ?_⟩)
        simpa [Drain.rest, ← hp] using hv
    · exact .inr (.inl ⟨e, E, (getElem?_drains_set hD).2 (.inr ⟨he, hE⟩), hv⟩)
  · exact .inr (.inr (.inl (by rw [hq]; exact List.mem_append_left _ hv)))
  · exact .inr (.inr (.inr hv))

/-- A task passed to a stopping scheduler is gone. -/
theorem lost_passOn {n : Node} {a : Addr} (h : Shape own s) (hb : Book s)
    (hD : s.drains[d]? = some D) (hh : D.head = some a) (hc : D.called = false)
    (hn : s.heap a = some n) (hst : s.scheduler.stopping = true) :
    ¬ (s.passOn d D n.value).Held n.value := by
  obtain ⟨-, hnc⟩ := next_fresh h hb hD hh hc hn
  have hnew := called_not_waiting (v := n.value) (h.passOn hD hh hc hn)
    (book_passOn h hb hD hh hc hn) (by simp [passOn])
  have hq : (s.passOn d D n.value).scheduler = s.scheduler := by
    simp [passOn, Scheduler.addExecutor_stopping hst]
  rintro (hv | ⟨e, E, hE, hv⟩ | hv | hv)
  · exact hnew.1 hv
  · exact hnew.2 e E hE hv
  · exact hnc (hb.kept _ (.inl (hq ▸ hv)))
  · exact hnc (hb.kept _ (.inr hv))

theorem held_push {p : Nat} {a : Addr} {u : Submission} (hv : s.Held v) :
    (s.push p a u).Held v := by
  rcases hv with hv | hv
  · exact .inl (List.mem_cons_of_mem _ hv)
  · exact .inr hv

/-- What was waiting in the list waits in the new batch. -/
theorem held_detach (hv : s.Held v) : s.detach.Held v := by
  rcases hv with hv | ⟨e, E, hE, hv⟩ | hv
  · exact .inr (.inl ⟨s.drains.length, { head := s.head, batch := s.since.reverse },
      by simp [detach], by simpa [Drain.rest] using hv⟩)
  · refine .inr (.inl ⟨e, E, ?_, hv⟩)
    simp only [detach]
    rw [List.getElem?_append_left (List.getElem?_eq_some_iff.1 hE).1]
    exact hE
  · exact .inr (.inr hv)

theorem held_deleteNode {a : Addr} {next : Option Addr} (hD : s.drains[d]? = some D)
    (hv : s.Held v) : (s.deleteNode d D a next).Held v := by
  rcases hv with hv | ⟨e, E, hE, hv⟩ | hv
  · exact .inl hv
  · by_cases he : e = d
    · subst he
      cases hD.symm.trans hE
      exact .inr (.inl ⟨e, _, (getElem?_drains_set hD).2 (.inl ⟨rfl, rfl⟩), hv⟩)
    · exact .inr (.inl ⟨e, E, (getElem?_drains_set hD).2 (.inr ⟨he, hE⟩), hv⟩)
  · exact .inr (.inr hv)

theorem held_take {u : Submission} {rest : List (Option Submission)}
    (hr : s.scheduler.readyExecutors = some u :: rest) (hv : s.Held v) :
    Held { s with scheduler := { s.scheduler with readyExecutors := rest },
                  dispatched := s.dispatched ++ [u] } v := by
  rcases hv with hv | hv | hv | hv
  · exact .inl hv
  · exact .inr (.inl hv)
  · rw [hr] at hv
    rcases List.mem_cons.1 hv with hv | hv
    · cases hv
      exact .inr (.inr (.inr (by simp)))
    · exact .inr (.inr (.inl hv))
  · exact .inr (.inr (.inr (List.mem_append_left _ hv)))

theorem held_stop (hv : s.Held v) : Held { s with scheduler := s.scheduler.stop } v := by
  have hr : s.scheduler.stop.readyExecutors = s.scheduler.readyExecutors := by
    unfold Scheduler.stop
    split <;> rfl
  rcases hv with hv | hv | hv | hv
  · exact .inl hv
  · exact .inr (.inl hv)
  · exact .inr (.inr (.inl (hr.symm ▸ hv)))
  · exact .inr (.inr (.inr hv))

/-- An insertion reports that it found the list empty. -/
theorem honest_push_iff (hp : Honest s) {p : Nat} {a : Addr} {u : Submission} :
    Honest (s.push p a u) ↔ s.head = none := by
  constructor
  · intro ht
    have := ht.1 (u, s.head == none) (by simp [push])
    simpa using this
  · intro hnull
    refine ⟨fun r hr => ?_, fun r hr ht => ?_⟩
    · rcases List.mem_append.1 hr with hr | hr
      · exact hp.1 r hr
      · rw [List.mem_singleton.1 hr]
        simp [hnull]
    · rcases List.mem_append.1 hr with hr | hr
      · exact held_push (hp.2 r hr ht)
      · rw [List.mem_singleton.1 hr]
        exact .inl List.mem_cons_self

theorem honest_passOn_iff {n : Node} {a : Addr} (h : Shape own s) (hb : Book s) (hp : Honest s)
    (hD : s.drains[d]? = some D) (hh : D.head = some a) (hc : D.called = false)
    (hn : s.heap a = some n) :
    Honest (s.passOn d D n.value) ↔ s.scheduler.stopping = false := by
  constructor
  · intro ht
    rw [← Bool.not_eq_true]
    intro hst
    -- a call returned true for the task, which a stopping scheduler drops
    have hlog := hb.batch_mem_log hD (next_fresh h hb hD hh hc hn).1
    rw [← hb.returned] at hlog
    obtain ⟨r, hr, hrv⟩ := List.mem_map.1 hlog
    exact lost_passOn h hb hD hh hc hn hst (hrv ▸ ht.2 r hr (hp.1 r hr))
  · intro hst
    exact hp.mono rfl fun v hv => held_passOn h hD hh hc hn hst hv

theorem honest_effect {op : RemoteOp} (h : Shape own s) (hb : Book s) (hp : Honest s)
    (he : Effect s op s') : Honest s' ↔ Clear s op := by
  cases he with
  | newNode _ _ => exact iff_of_true (hp.mono rfl fun _ hv => hv) trivial
  | load _ => exact iff_of_true (hp.mono rfl fun _ hv => hv) trivial
  | link _ _ => exact iff_of_true (hp.mono rfl fun _ hv => hv) trivial
  | @win p a n hpc hn =>
    rw [honest_push_iff hp]
    exact ⟨fun hnull _ _ => hnull, fun hc => hc a hpc⟩
  | @lose p a old hpc hh =>
    refine iff_of_true (hp.mono rfl fun _ hv => hv) fun b hb' => ?_
    rw [hpc] at hb'
    cases hb'
    exact absurd rfl hh
  | exchange => exact iff_of_true (hp.mono rfl fun _ => held_detach) trivial
  | addExecutor hD hh hc hn => exact honest_passOn_iff h hb hp hD hh hc hn
  | delete hD _ _ _ => exact iff_of_true (hp.mono rfl fun _ => held_deleteNode hD) trivial
  | take hr => exact iff_of_true (hp.mono rfl fun _ => held_take hr) trivial
  | stop => exact iff_of_true (hp.mono rfl fun _ => held_stop) trivial

/-- **When remote submission is honest.** For every interleaving: the promise holds in
every state of the run exactly when every insertion that succeeds finds the list empty and
no task is passed on while the scheduler is stopping. -/
theorem honest_iff {ops : List RemoteOp} (hr : run step {} ops = some s) :
    Along step Honest {} ops ↔ Meets step Clear {} ops := by
  refine along_iff_meets (J := Good) (fun _ _ _ hg _ hs _ => good_step hg hs)
    (fun s i t hg hp hs => ?_) good_init ⟨by simp, by simp⟩ hr
  obtain ⟨⟨own, hshape⟩, hb⟩ := hg
  exact honest_effect hshape hb hp (step_effect hshape hs)

/-- One submission, drained and dispatched before the scheduler stops. -/
theorem honest_single : Along step Honest {} [.newNode 0 7 42, .load 0, .link 0, .cas 0,
    .exchange, .addExecutor 0, .delete 0, .take, .stop] := by
  apply (honest_iff rfl).2
  simp [Meets, Clear, step, newNode, setNode, setProducer, push, detach, passOn,
    Scheduler.addExecutor, deleteNode, Scheduler.takeReady]

/-- The second of two submissions is added and returns false; and a submission that
returned true is dropped when its drain meets a stopping scheduler. -/
theorem not_honest :
    (∃ s, run step {} [.newNode 0 7 42, .load 0, .link 0, .cas 0, .newNode 1 8 43, .load 1,
        .link 1, .cas 1] = some s ∧ s.returned = [(⟨42, 0⟩, true), (⟨43, 1⟩, false)] ∧
      s.since = [⟨43, 1⟩, ⟨42, 0⟩] ∧ ¬ Honest s) ∧
    ∃ s, run step {} [.newNode 0 7 42, .load 0, .link 0, .cas 0, .stop, .exchange,
        .addExecutor 0, .delete 0] = some s ∧ s.returned = [(⟨42, 0⟩, true)] ∧ ¬ Honest s := by
  refine ⟨⟨_, rfl, rfl, rfl, fun h => ?_⟩, ⟨_, rfl, rfl, fun h => ?_⟩⟩
  · exact absurd (h.1 (⟨43, 1⟩, false) (.tail _ (.head _))) (by decide)
  · rcases h.2 (⟨42, 0⟩, true) (.head _) rfl with hv | ⟨d, D, hD, hv⟩ | hv | hv
    · cases hv
    · cases d with
      | zero => cases hD; cases hv
      | succ d => cases hD
    · cases hv
    · cases hv

end RemoteSys

end NetBase
