import NetBase.Balancer.Even
import NetBase.IO.WakeProgress
import NetBase.Lib.Members

/-!
# Pools of managers

A balancer with the managers it hands executors to, each with its own list of remote tasks, its
wake-up pipe and its thread. `schedule` comes to `addRemoteTask` of the manager it picks, of which
the first step is the allocation of the node; the caller's other steps and those of the manager's
thread are steps at that manager. `p` numbers the calls under way at a manager.

Nobody else hands tasks to the managers of a pool. The loop of a manager may run before its worker
has registered it: there is nothing to do in it until then.
-/

namespace NetBase

open Lib RemoteTaskList

/-! ## What one manager was sent -/

namespace RemoteSys

variable {own : Addr → Option Owner} {s t : RemoteSys} {op : RemoteOp} {l : List Submission}

/-- The tasks handed over so far, in the order of their tickets. -/
structure Sent (l : List Submission) (s : RemoteSys) : Prop where
  length : l.length = s.nextTicket
  ticket : ∀ k (v : Submission), l[k]? = some v → v.ticket = k
  logged : ∀ v ∈ s.log, v ∈ l
  flying : ∀ p v, s.inFlight p = some v → v ∈ l

theorem Sent.keep (h : s.Sent l) (hk : t.nextTicket = s.nextTicket) (hl : t.log = s.log)
    (hf : ∀ p, t.inFlight p = s.inFlight p) : t.Sent l :=
  ⟨h.length.trans hk.symm, h.ticket, hl ▸ h.logged, fun p v hv => h.flying p v (hf p ▸ hv)⟩

theorem sent_effect (hs : Shape own s) (h : s.Sent l) (he : Effect s op t)
    (hn : ∀ p a e, op ≠ .newNode p a e) : t.Sent l := by
  have hfl := inFlight_effect hs he hn
  cases he with
  | @newNode p a e => exact absurd rfl (hn p a e)
  | @win p a n hp ha =>
    have hval : s.inFlight p = some n.value := by simp [inFlight, hp, Producer.node, ha]
    refine ⟨h.length, h.ticket, fun v hv => ?_, fun q v hv => ?_⟩
    · rcases List.mem_append.1 hv with hv | hv
      · exact h.logged v hv
      · rw [List.mem_singleton.1 hv]
        exact h.flying p _ hval
    · rw [inFlight_push] at hv
      split at hv
      · cases hv
      · exact h.flying q v hv
  | lose hp hh => exact h.keep rfl rfl (inFlight_setProducer _ (by simp [hp, Producer.node]))
  | load => exact h.keep rfl rfl (hfl (by simp))
  | link => exact h.keep rfl rfl (hfl (by simp))
  | exchange => exact h.keep rfl rfl (hfl (by simp))
  | addExecutor => exact h.keep rfl rfl (hfl (by simp))
  | delete => exact h.keep rfl rfl (hfl (by simp))
  | take => exact h.keep rfl rfl (hfl (by simp))
  | stop => exact h.keep rfl rfl (hfl (by simp))

theorem Sent.nodup (h : s.Sent l) : l.Nodup := by
  rw [List.nodup_iff_getElem?_ne_getElem?]
  intro i j hij hj heq
  have hget := List.getElem?_eq_getElem hj
  have hi := h.ticket i _ (heq.trans hget)
  have hj' := h.ticket j _ hget
  omega

/-- While the scheduler is not stopping, what it has dispatched was handed over, and is dispatched
once. -/
theorem Sent.dispatched (h : s.Sent l) (hg : s.Good) (hst : s.scheduler.stopping = false) :
    s.dispatched.Nodup ∧ s.dispatched ⊆ l := by
  obtain ⟨⟨own, hs⟩, hb⟩ := hg
  have hpre : s.dispatched <+: s.calls := by
    have hmap : s.dispatched.map some <+: s.calls.map some := ⟨_, hb.queue hst⟩
    exact (List.prefix_map_iff_of_injective (Option.some_injective _)).1 hmap
  refine ⟨hb.calls_nodup.sublist hpre.sublist, fun v hv => ?_⟩
  obtain ⟨d, D, hD, hp⟩ := (hb.mem_calls v).1 (hpre.subset hv)
  obtain ⟨vs, -, -, hpassed⟩ := hs.drain d D hD
  have hbatch : v ∈ D.batch := List.mem_reverse.1 (hpassed ▸ List.mem_append_left _ hp)
  apply h.logged
  rw [hb.log]
  exact List.mem_append_left _ (List.mem_flatten.2
    ⟨D.batch, List.mem_map_of_mem (List.mem_of_getElem? hD), hbatch⟩)

end RemoteSys

namespace WakeSys

variable {capacity : Nat} {s t : WakeSys} {op : WakeOp} {l : List Submission}

/-- The operation hands a task over. -/
def hands : WakeOp → Bool
  | .newNode _ _ _ => true
  | _ => false

/-- A step is one of the list, or leaves it alone. -/
theorem step_remote (hs : step capacity s op = some t) (hn : hands op = false) :
    t.remote = s.remote ∨
      ∃ rop, s.remote.step rop = some t.remote ∧ ∀ p a e, rop ≠ .newNode p a e := by
  cases step_effect hs with
  | newNode => cases hn
  | load hr | link hr | insert _ hr | retry _ hr | take _ hr | stop _ hr =>
    exact .inr ⟨_, hr, by simp⟩
  | exchange => exact .inr ⟨.exchange, rfl, by simp⟩
  | walk _ hop hr => exact .inr ⟨_, hr, by rcases hop with rfl | rfl <;> simp⟩
  | write | walked | runLocal | yield | block | leave | enter | wake | drain | read | again
  | finish => exact .inl rfl

theorem sent_step (hr : Reach (step capacity) {} s) (h : s.remote.Sent l)
    (hs : step capacity s op = some t) (hn : hands op = false) : t.remote.Sent l := by
  rcases step_remote hs hn with heq | ⟨rop, hrop, hne⟩
  · exact heq ▸ h
  · have hshape := (RemoteSys.good_reach (steady_reach hr).reach).1.choose_spec
    exact RemoteSys.sent_effect hshape h (RemoteSys.step_effect hshape hrop) hne

/-- Once everything has settled, what was handed over has been dispatched, each task once. -/
theorem Settled.dispatched_perm (h : s.Settled) (hs : s.Sound)
    (hst : s.remote.scheduler.stopping = false) (hl : s.remote.Sent l) :
    s.remote.dispatched.Perm l := by
  obtain ⟨hnodup, hsub⟩ := hl.dispatched (RemoteSys.good_reach hs.reach) hst
  rw [List.perm_ext_iff_of_nodup hnodup hl.nodup]
  refine fun v => ⟨fun hv => hsub hv, fun hv => ?_⟩
  obtain ⟨k, hk⟩ := List.mem_iff_getElem?.1 hv
  have hlt : k < s.remote.nextTicket := by
    rw [← hl.length]
    exact (List.getElem?_eq_some_iff.1 hk).1
  obtain ⟨u, hu, huk⟩ := h.dispatched hs hst hlt
  -- the task of that ticket is the one that was sent
  obtain ⟨j, hj⟩ := List.mem_iff_getElem?.1 (hsub hu)
  have hjk : j = k := (hl.ticket j u hj).symm.trans huk
  rw [hjk, hk] at hj
  cases hj
  exact hu

end WakeSys

/-! ## The pool -/

namespace Balancer

/-- A balancer as a pool uses it: its steps, and the manager an executor goes to in one. -/
structure Balancing (σ ε κ : Type) where
  step : σ → ε → Option σ
  target : σ → ε → Option κ

def SequenceIOBalancer.target {ι : Type} (s : Instances ι) : Event ι → Option (ι × Manager)
  | .grow _ _ => none
  | .schedule k => do
    let i ← pick (s.inst k) s.count
    let m ← (s.inst k).managers[i]?
    return (k, m)

/-- A balancer, its managers, and the tasks sent to each of them. -/
structure Pool (σ κ : Type) where
  balancer : σ
  managers : κ → WakeSys := fun _ => {}
  sent : κ → List Submission := fun _ => []

inductive PoolOp (ε κ : Type) where
  /-- An event of the balancer; an executor it hands over comes with the number of the call and
  the address of the node. -/
  | balance (e : ε) (p : Nat) (addr : Addr) (executor : Nat)
  | manager (k : κ) (op : WakeOp)

namespace Pool

variable {σ ε κ : Type} [DecidableEq κ] {B : Balancing σ ε κ} {capacity : Nat} {s t : Pool σ κ}
  {op : PoolOp ε κ}

def step (B : Balancing σ ε κ) (capacity : Nat) (s : Pool σ κ) : PoolOp ε κ → Option (Pool σ κ)
  | .balance e p addr executor =>
    (B.step s.balancer e).bind fun balancer =>
      match B.target s.balancer e with
      | none => some { s with balancer }
      | some k =>
        ((s.managers k).step capacity (.newNode p addr executor)).map fun w => {
          balancer
          managers := Function.update s.managers k w
          sent := Function.update s.sent k
            (s.sent k ++ [⟨executor, (s.managers k).remote.nextTicket⟩]) }
  | .manager k op =>
    if WakeSys.hands op then none
    else ((s.managers k).step capacity op).map fun w =>
      { s with managers := Function.update s.managers k w }

/-- No executor is scheduled, nobody stops a manager, and the managers are woken by their pipes
only. -/
def onward : PoolOp ε κ → Bool
  | .balance _ _ _ _ => false
  | .manager _ op => WakeSys.onward op

/-- What a step of the pool can be. -/
theorem step_cases (h : step B capacity s op = some t) :
    (∃ e p addr executor b, op = .balance e p addr executor ∧ B.step s.balancer e = some b ∧
      B.target s.balancer e = none ∧ t = { s with balancer := b }) ∨
    (∃ e p addr executor b k w, op = .balance e p addr executor ∧
      B.step s.balancer e = some b ∧ B.target s.balancer e = some k ∧
      (s.managers k).step capacity (.newNode p addr executor) = some w ∧
      t = ⟨b, Function.update s.managers k w, Function.update s.sent k
        (s.sent k ++ [⟨executor, (s.managers k).remote.nextTicket⟩])⟩) ∨
    (∃ k o w, op = .manager k o ∧ WakeSys.hands o = false ∧
      (s.managers k).step capacity o = some w ∧
      t = { s with managers := Function.update s.managers k w }) := by
  cases op with
  | balance e p addr executor =>
    obtain ⟨b, hb, hrest⟩ := Option.bind_eq_some_iff.1 h
    split at hrest
    · rename_i ht
      cases hrest
      exact .inl ⟨e, p, addr, executor, b, rfl, hb, ht, rfl⟩
    · rename_i k ht
      obtain ⟨w, hw, rfl⟩ := Option.map_eq_some_iff.1 hrest
      exact .inr (.inl ⟨e, p, addr, executor, b, k, w, rfl, hb, ht, hw, rfl⟩)
  | manager k o =>
    simp only [step] at h
    split at h
    · cases h
    · rename_i hn
      obtain ⟨w, hw, rfl⟩ := Option.map_eq_some_iff.1 h
      exact .inr (.inr ⟨k, o, w, rfl, by simpa using hn, hw, rfl⟩)

/-- Every manager is where an interleaving of its own has brought it, with what it was sent, and
only finitely many have done anything. -/
structure Kept (capacity : Nat) (s : Pool σ κ) : Prop where
  reach : ∀ k, Reach (WakeSys.step capacity) {} (s.managers k)
  sent : ∀ k, (s.managers k).remote.Sent (s.sent k)
  touched : ∃ ks : Finset κ, ∀ k, k ∉ ks → s.managers k = {}

/-- Steps of the managers are steps of the pool. -/
theorem reach_managers {f : κ → WakeSys}
    (h : Reach (each (only WakeSys.onward (WakeSys.step capacity))) s.managers f) :
    Reach (only onward (step B capacity)) s { s with managers := f } := by
  obtain ⟨is, h⟩ := h
  induction is generalizing s with
  | nil =>
    cases h
    exact .refl s
  | cons i is ih =>
    obtain ⟨g, hg, hrun⟩ := run_cons_inv h
    obtain ⟨k, o⟩ := i
    obtain ⟨w, hw, rfl⟩ := Option.map_eq_some_iff.1 hg
    obtain ⟨ho, hw⟩ := only_inv hw
    have hn : WakeSys.hands o = false := by
      cases o with
      | newNode => cases ho
      | _ => rfl
    have hs : step B capacity s (.manager k o) =
        some { s with managers := Function.update s.managers k w } := by
      simp [step, hn, hw]
    have hon : onward (PoolOp.manager (ε := ε) k o) = true := ho
    exact .cons (only_of hon hs)
      (ih (s := { s with managers := Function.update s.managers k w }) hrun)

/-- The managers settle, each with everything it was sent dispatched. -/
theorem Kept.settles (B : Balancing σ ε κ) (hc : 0 < capacity) (h : s.Kept capacity)
    (hst : ∀ k, (s.managers k).remote.scheduler.stopping = false) :
    ∃ t, Reach (only onward (step B capacity)) s t ∧
      ∀ k, (t.managers k).remote.dispatched.Perm (s.sent k) := by
  obtain ⟨ks, hks⟩ := h.touched
  have hrest : ∀ k ∈ ks, ∃ w, Reach (only WakeSys.onward (WakeSys.step capacity)) (s.managers k) w ∧
      w.remote.dispatched.Perm (s.sent k) := by
    intro k _
    obtain ⟨w, hreach, hset, hw, hst', -⟩ :=
      (WakeSys.sound_reach (h.reach k)).settles hc (hst k)
    have hinv : Reach (WakeSys.step capacity) {} w ∧ w.remote.Sent (s.sent k) :=
      hreach.inv (I := fun w => Reach (WakeSys.step capacity) {} w ∧ w.remote.Sent (s.sent k))
        ⟨h.reach k, h.sent k⟩ fun u o v hu hv => by
          obtain ⟨ho, hv⟩ := only_inv hv
          refine ⟨hu.1.trans (.cons hv (.refl v)), WakeSys.sent_step hu.1 hu.2 hv ?_⟩
          cases o with
          | newNode => cases ho
          | _ => rfl
    exact ⟨w, hreach, hset.dispatched_perm hw hst' hinv.2⟩
  obtain ⟨f, hreach, hperm, hsame⟩ := reach_members
    (P := fun k (w : WakeSys) => w.remote.dispatched.Perm (s.sent k)) ks hrest
  refine ⟨{ s with managers := f }, reach_managers hreach, fun k => ?_⟩
  by_cases hk : k ∈ ks
  · exact hperm k hk
  · -- nothing was sent to a manager that has done nothing
    have hempty := hks k hk
    have hlen := (h.sent k).length
    rw [hempty] at hlen
    simp only [hsame k hk, hempty]
    rw [List.length_eq_zero_iff.1 hlen]

end Pool

/-! ## The sequence balancer's -/

namespace SequenceIOBalancer

variable {ι : Type} [DecidableEq ι] {capacity : Nat} {s t : Pool (Instances ι) (ι × Manager)}
  {op : PoolOp (Event ι) (ι × Manager)}

end SequenceIOBalancer

end Balancer

end NetBase
