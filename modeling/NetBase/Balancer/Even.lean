import NetBase.Balancer.Avg
import NetBase.Lib.RoundRobin

/-!
# How even the sequence balancer is

The loads of the managers of one instance. The counter is shared by all instances and its remainder
is taken by the number of threads, so that an instance takes turns only where the others use up
whole rounds in between, and never comes to the manager of the current thread.
-/

namespace NetBase.Balancer

open Lib

namespace AvgBalancer

/-- The constructor has returned, and every worker has registered. -/
structure Registered (b : AvgBalancer) : Prop where
  grown : b.Grown
  returned : b.returned
  pos : 0 < b.threadsCount
  workers : ∀ i < b.threadsCount, .worker i ∈ b.managers

/-- The executors handed to one manager. -/
def load (b : AvgBalancer) (m : Manager) : Nat := b.handed.count m

def Even (b : AvgBalancer) : Prop :=
  ∀ m ∈ b.managers, ∀ m' ∈ b.managers, b.load m ≤ b.load m' + 1

/-- The load of the manager at an index. -/
def loadAt (b : AvgBalancer) (p : Nat) : Nat := (b.managers[p]?).elim 0 b.load

/-- One more executor for `m`. -/
def give (b : AvgBalancer) (m : Manager) : AvgBalancer := { b with handed := m :: b.handed }

theorem load_give (b : AvgBalancer) (m m' : Manager) :
    (b.give m).load m' = b.load m' + if m = m' then 1 else 0 := by
  simp [load, give, List.count_cons]

theorem even_of_handed_nil {b : AvgBalancer} (h : b.handed = []) : b.Even := by
  intro m _ m' _
  simp [load, h]

theorem Registered.give {b : AvgBalancer} (h : b.Registered) (m : Manager) :
    (b.give m).Registered :=
  ⟨⟨h.grown.le, h.grown.eq, h.grown.nodup, h.grown.worker, h.grown.current⟩, h.returned, h.pos,
    h.workers⟩

theorem Registered.threads_eq {b : AvgBalancer} (h : b.Registered) : b.threads = b.threadsCount :=
  h.grown.eq h.returned

/-- Without the current thread there is one manager for each thread. -/
theorem Registered.length_eq {b : AvgBalancer} (h : b.Registered)
    (hu : b.useCurrentThread = false) : b.managers.length = b.threadsCount := by
  have hp : b.managers.Perm ((List.range b.threadsCount).map .worker) := by
    apply (List.perm_ext_iff_of_nodup h.grown.nodup ?_).2
    · intro m
      cases m with
      | current => simp [h.grown.current, hu]
      | worker i =>
        simp only [List.mem_map, List.mem_range, Manager.worker.injEq, exists_eq_right]
        exact ⟨fun hi => h.threads_eq ▸ h.grown.worker i hi, h.workers i⟩
    · exact List.nodup_range.map fun _ _ => Manager.worker.inj
  rw [hp.length_eq, List.length_map, List.length_range]

/-- An executor for the manager at `q` is one more there, since no manager is there twice. -/
theorem loadAt_give {b : AvgBalancer} (hn : b.managers.Nodup) {m : Manager} {q p : Nat}
    (hq : b.managers[q]? = some m) (hp : p < b.managers.length) :
    (b.give m).loadAt p = bump b.loadAt q p := by
  have hm := List.getElem?_eq_getElem hp
  have he : m = b.managers[p] ↔ p = q := by
    obtain ⟨hql, rfl⟩ := List.getElem?_eq_some_iff.1 hq
    exact (hn.getElem_inj_iff).trans eq_comm
  show (b.managers[p]?).elim 0 (b.give m).load = b.loadAt p + _
  rw [loadAt, hm]
  show (b.give m).load b.managers[p] = b.load b.managers[p] + _
  rw [load_give]
  simp only [he]

/-- Even at the indices is even for the managers. -/
theorem even_of_loadAt {b : AvgBalancer}
    (h : ∀ p < b.managers.length, ∀ q < b.managers.length, b.loadAt p ≤ b.loadAt q + 1) :
    b.Even := by
  intro m hm m' hm'
  obtain ⟨p, hp, rfl⟩ := List.getElem_of_mem hm
  obtain ⟨q, hq, rfl⟩ := List.getElem_of_mem hm'
  have hpq := h p hp q hq
  rw [loadAt, loadAt, List.getElem?_eq_getElem hp, List.getElem?_eq_getElem hq] at hpq
  exact hpq

/-- A step keeps the loads even exactly where nobody had less than the one it gives to. -/
theorem even_give_iff {b : AvgBalancer} (h : b.Even) {m : Manager} (hm : m ∈ b.managers) :
    (b.give m).Even ↔ ∀ m' ∈ b.managers, b.load m ≤ b.load m' := by
  constructor
  · intro he m' hm'
    by_cases hmm : m = m'
    · rw [hmm]
    · have h1 := he m hm m' hm'
      rw [load_give, load_give, if_pos rfl, if_neg hmm] at h1
      exact Nat.le_of_succ_le_succ h1
  · intro hl x hx y hy
    have h1 := h x hx y hy
    have h2 := hl y hy
    rw [load_give, load_give]
    by_cases hmx : m = x
    · subst hmx
      rw [if_pos rfl]
      omega
    · rw [if_neg hmx]
      omega

end AvgBalancer

namespace SequenceIOBalancer

variable {ι : Type} [DecidableEq ι]

/-- Every worker of every instance has registered, and no call has been made. -/
def Instances.Start (s : Instances ι) : Prop :=
  ∀ k, (s.inst k).Registered ∧ (s.inst k).handed = [] ∧ s.last k = none

def Instances.Even (s : Instances ι) : Prop := ∀ k, (s.inst k).Even

/-- The instance has no manager of the current thread, the counter does not wrap, and since the last
call on the instance the others were called a multiple of its number of threads. -/
def InTurn (s : Instances ι) : Event ι → Prop
  | .grow _ _ => True
  | .schedule k => (s.inst k).useCurrentThread = false ∧ s.count + 1 < 0x10000000000000000 ∧
      ∀ c, s.last k = some c → (s.inst k).threadsCount ∣ s.count - (c + 1)

/-- No manager of the instance has had fewer executors than the one whose turn it is. -/
def LeastLoaded (s : Instances ι) : Event ι → Prop
  | .grow _ _ => True
  | .schedule k => ∀ m, (s.inst k).managers[s.count % (s.inst k).threads]? = some m →
      ∀ m' ∈ (s.inst k).managers, (s.inst k).load m ≤ (s.inst k).load m'

/-- What holds of one instance between two calls: it has not been called, or it is the turn of the
manager behind the last one. -/
structure InStep (b : AvgBalancer) (last : Option Nat) (count : Nat) : Prop where
  registered : b.Registered
  idle : last = none → b.handed = []
  turns : ∀ c, last = some c → b.useCurrentThread = false ∧ c < count ∧
    Rotates b.threadsCount b.loadAt (c + 1)

theorem InStep.even {b : AvgBalancer} {last : Option Nat} {count : Nat}
    (h : InStep b last count) : b.Even := by
  cases last with
  | none => exact AvgBalancer.even_of_handed_nil (h.idle rfl)
  | some c =>
    obtain ⟨hu, -, hr⟩ := h.turns c rfl
    apply AvgBalancer.even_of_loadAt
    rw [h.registered.length_eq hu]
    exact fun p hp q hq => hr.even hp hq

theorem InStep.later {b : AvgBalancer} {last : Option Nat} {count : Nat}
    (h : InStep b last count) : InStep b last (count + 1) :=
  ⟨h.registered, h.idle, fun c hc =>
    ⟨(h.turns c hc).1, Nat.lt_succ_of_lt (h.turns c hc).2.1, (h.turns c hc).2.2⟩⟩

/-- Where a multiple of the number of threads has passed, it is still the same manager's turn. -/
theorem InStep.rotates {b : AvgBalancer} {last : Option Nat} {count : Nat}
    (h : InStep b last count) (hd : ∀ c, last = some c → b.threadsCount ∣ count - (c + 1)) :
    Rotates b.threadsCount b.loadAt count := by
  cases last with
  | none =>
    have hz : b.loadAt = fun _ => 0 := by
      funext p
      rw [AvgBalancer.loadAt]
      cases b.managers[p]? with
      | none => rfl
      | some m => simp [AvgBalancer.load, h.idle rfl]
    rw [hz]
    exact rotates_const 0
  | some c =>
    obtain ⟨-, hlt, hr⟩ := h.turns c rfl
    exact hr.congr ((Nat.modEq_iff_dvd' hlt).2 (hd c rfl)).symm

theorem InStep.give {b : AvgBalancer} {last : Option Nat} {count : Nat} {m : Manager}
    (h : InStep b last count) (hu : b.useCurrentThread = false)
    (hd : ∀ c, last = some c → b.threadsCount ∣ count - (c + 1))
    (hm : b.managers[count % b.threads]? = some m) :
    InStep (b.give m) (some count) (count + 1) := by
  refine ⟨h.registered.give m, fun hn => absurd hn (Option.some_ne_none count), fun c hc => ?_⟩
  cases hc
  rw [h.registered.threads_eq] at hm
  refine ⟨hu, Nat.lt_succ_self count, (h.rotates hd).step.of_eq h.registered.pos fun p hp => ?_⟩
  rw [← h.registered.length_eq hu] at hp
  exact AvgBalancer.loadAt_give h.registered.grown.nodup hm hp

/-- An instance that is registered does not grow any more. -/
theorem grow_registered {b : AvgBalancer} (h : b.Registered) (e : Growth) : b.grow e = none := by
  cases e with
  | construct => exact if_pos h.returned
  | register i =>
    refine if_neg fun hi => ?_
    have hmem := h.workers i (h.threads_eq ▸ hi.1)
    exact hi.2 (List.contains_iff_mem.2 hmem)

theorem step_inStep (s : Instances ι) (e : Event ι) (t : Instances ι)
    (h : ∀ k, InStep (s.inst k) (s.last k) s.count) (hc : InTurn s e) (hs : step s e = some t) :
    ∀ k, InStep (t.inst k) (t.last k) t.count := by
  cases e with
  | grow k e =>
    rw [step, grow_registered (h k).registered] at hs
    cases hs
  | schedule k =>
    obtain ⟨hu, hw, hd⟩ := hc
    rw [step, if_pos (h k).registered.returned] at hs
    obtain ⟨m, hm, -, rfl⟩ := schedule_some hs
    have hcount : sizeAdd s.count 1 = s.count + 1 := Nat.mod_eq_of_lt hw
    intro j
    simp only [hcount]
    by_cases hj : j = k
    · subst hj
      rw [Function.update_self, Function.update_self]
      exact (h j).give hu hd hm
    · rw [Function.update_of_ne hj, Function.update_of_ne hj]
      exact (h j).later

/-- A call keeps all instances even exactly where it gives to one with the fewest. -/
theorem step_even_iff (s : Instances ι) (e : Event ι) (t : Instances ι)
    (hr : ∀ k, (s.inst k).Registered) (h : s.Even) (hs : step s e = some t) :
    t.Even ↔ LeastLoaded s e := by
  cases e with
  | grow k e =>
    rw [step, grow_registered (hr k)] at hs
    cases hs
  | schedule k =>
    rw [step, if_pos (hr k).returned] at hs
    obtain ⟨m, hm, -, rfl⟩ := schedule_some hs
    have hgive := AvgBalancer.even_give_iff (h k) (List.mem_of_getElem? hm)
    constructor
    · intro ht m₀ hm₀
      cases hm.symm.trans hm₀
      have htk := ht k
      simp only [Function.update_self] at htk
      exact hgive.1 htk
    · intro hl
      exact (Function.forall_update_iff s.inst fun _ b => b.Even).2
        ⟨hgive.2 (hl m hm), fun j _ => h j⟩

theorem step_registered (s : Instances ι) (e : Event ι) (t : Instances ι)
    (h : ∀ k, (s.inst k).Registered) (hs : step s e = some t) : ∀ k, (t.inst k).Registered := by
  cases e with
  | grow k e =>
    rw [step, grow_registered (h k)] at hs
    cases hs
  | schedule k =>
    rw [step, if_pos (h k).returned] at hs
    obtain ⟨m, -, -, rfl⟩ := schedule_some hs
    exact (Function.forall_update_iff s.inst fun _ b => b.Registered).2
      ⟨(h k).give m, fun j _ => h j⟩

/-- **The instances stay even** along the runs whose calls come in turn. Exactly: along the runs in
which every call gives to a manager that nobody of its instance has had less than. -/
theorem even_along (s : Instances ι) (hs : s.Start) (es : List (Event ι)) :
    (Meets step InTurn s es → Along step Instances.Even s es) ∧
    ∀ u, run step s es = some u →
      (Along step Instances.Even s es ↔ Meets step LeastLoaded s es) := by
  have hstart : ∀ k, InStep (s.inst k) (s.last k) s.count := fun k =>
    ⟨(hs k).1, fun _ => (hs k).2.1, fun c hc => by rw [(hs k).2.2] at hc; cases hc⟩
  have heven : s.Even := fun k => (hstart k).even
  constructor
  · intro hm
    exact (hm.along step_inStep hstart).imp fun t ht k => (ht k).even
  · intro u hu
    exact along_iff_meets (J := fun s => ∀ k, (s.inst k).Registered)
      (fun s e t hj _ ht _ => step_registered s e t hj ht)
      (fun s e t hj hp ht => step_even_iff s e t hj hp ht) (fun k => (hs k).1) heven hu

end SequenceIOBalancer

/-- A balancer all of whose workers have registered, in order. -/
def AvgBalancer.settled (n : Nat) (useCurrentThread : Bool) (h : n < 0x10000000000000000) :
    AvgBalancer :=
  ⟨n, useCurrentThread, h, n, true,
    (List.range n).map .worker ++ if useCurrentThread then [.current] else [], []⟩

theorem AvgBalancer.registered_settled {n : Nat} (hn : 0 < n) (useCurrentThread : Bool)
    (h : n < 0x10000000000000000) : (settled n useCurrentThread h).Registered := by
  refine ⟨⟨Nat.le_refl n, fun _ => rfl, ?_, ?_, ?_⟩, rfl, hn, ?_⟩
  · have hw : ((List.range n).map Manager.worker).Nodup :=
      List.nodup_range.map fun _ _ => Manager.worker.inj
    cases useCurrentThread with
    | false => simpa [settled] using hw
    | true => exact List.Nodup.append hw (List.nodup_singleton _) (by simp)
  · intro i hi
    cases useCurrentThread with
    | false => simpa [settled] using hi
    | true => simpa [settled] using hi
  · cases useCurrentThread with
    | false => simp [settled]
    | true => simp [settled]
  · intro i hi
    exact List.mem_append_left _ (List.mem_map.2 ⟨i, List.mem_range.2 hi, rfl⟩)

namespace SequenceIOBalancer

/-- Instances that have settled alike. -/
def settled (ι : Type) (n : Nat) (useCurrentThread : Bool) (h : n < 0x10000000000000000) :
    Instances ι :=
  ⟨0, fun _ => AvgBalancer.settled n useCurrentThread h, fun _ => none⟩

theorem start_settled {ι : Type} {n : Nat} (hn : 0 < n) (useCurrentThread : Bool)
    (h : n < 0x10000000000000000) : (settled ι n useCurrentThread h).Start :=
  fun _ => ⟨AvgBalancer.registered_settled hn useCurrentThread h, rfl, rfl⟩

/-- Two calls on one instance of two threads, a round of the other one, and a call again. -/
theorem even_along_rounds :
    Along step Instances.Even (settled Bool 2 false (by decide))
      [.schedule true, .schedule true, .schedule false, .schedule false, .schedule true] := by
  apply (even_along _ (start_settled (by decide) false (by decide)) _).1
  refine ⟨⟨rfl, by decide, fun c hc => ?_⟩, fun t ht => ?_⟩
  · cases hc
  cases ht
  refine ⟨⟨rfl, by decide, fun c hc => ?_⟩, fun t ht => ?_⟩
  · cases hc
    decide
  cases ht
  refine ⟨⟨rfl, by decide, fun c hc => ?_⟩, fun t ht => ?_⟩
  · cases hc
  cases ht
  refine ⟨⟨rfl, by decide, fun c hc => ?_⟩, fun t ht => ?_⟩
  · cases hc
    decide
  cases ht
  refine ⟨⟨rfl, by decide, fun c hc => ?_⟩, fun t ht => trivial⟩
  cases hc
  decide

/-- Two instances that are called by turns: both executors of one go to its first manager. With the
current thread, its manager gets none of two. -/
theorem uneven_by_turns :
    ((settled Bool 2 false (by decide)).Start ∧
      ¬Along step Instances.Even (settled Bool 2 false (by decide))
        [.schedule true, .schedule false, .schedule true]) ∧
    (settled Unit 1 true (by decide)).Start ∧
      ¬Along step Instances.Even (settled Unit 1 true (by decide))
        [.schedule (), .schedule ()] := by
  refine ⟨⟨start_settled (by decide) _ _, fun h => ?_⟩, start_settled (by decide) _ _,
    fun h => ?_⟩
  · have he := h.last rfl true (.worker 0) (by decide) (.worker 1) (by decide)
    exact absurd he (by decide)
  · have he := h.last rfl () (.worker 0) (by decide) .current (by decide)
    exact absurd he (by decide)

end SequenceIOBalancer

end NetBase.Balancer
