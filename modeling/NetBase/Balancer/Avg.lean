import Mathlib.Data.List.Nodup
import Mathlib.Data.List.Perm.Subperm
import Mathlib.Logic.Function.Basic
import NetBase.Base.Random
import NetBase.Lib.Runs

/-!
# The average balancers

`RandomIOBalancer` and `SequenceIOBalancer` of `balancer/io/avg_balancer.cpp`. Both spawn
`threads_count` workers that add their managers whenever they come to it, and hand an executor to a
manager whose index they take from the number of threads. The counter of the sequence balancer is
one static variable for all its instances.
-/

namespace NetBase.Balancer

open Lib

/-- `IOManager::getThreadLocal()` in a worker, and in the thread that constructs the balancer. -/
inductive Manager where
  | worker (i : Nat)
  | current
  deriving DecidableEq, Repr

/-- A balancer of either class. `returned` says that the constructor has, and `handed` lists, last
one first, the managers that executors went to. -/
structure AvgBalancer where
  threadsCount : Nat
  useCurrentThread : Bool
  fits : threadsCount < 0x10000000000000000
  threads : Nat
  returned : Bool
  managers : List Manager
  handed : List Manager

/-- What fills the vectors: the thread in the constructor, and each worker. -/
inductive Growth where
  | construct
  | register (i : Nat)
  deriving DecidableEq, Repr

namespace AvgBalancer

/-- A balancer whose constructor is about to run. -/
def init (threadsCount : Nat) (useCurrentThread : Bool)
    (fits : threadsCount < 0x10000000000000000) : AvgBalancer :=
  ⟨threadsCount, useCurrentThread, fits, 0, false, [], []⟩

def IsInit (b : AvgBalancer) : Prop := b = init b.threadsCount b.useCurrentThread b.fits

def grow (b : AvgBalancer) : Growth → Option AvgBalancer
  | .construct =>
    if b.returned then none
    else if b.threads < b.threadsCount then some { b with threads := b.threads + 1 }
    else if b.useCurrentThread then
      some { b with managers := b.managers ++ [.current], returned := true }
    else some { b with returned := true }
  | .register i =>
    if i < b.threads ∧ ¬b.managers.contains (.worker i) then
      some { b with managers := b.managers ++ [.worker i] }
    else none

/-- `managers_[i]->addRemoteTask(executor)` -/
def hand (b : AvgBalancer) (i : Nat) : Option AvgBalancer :=
  (b.managers[i]?).map fun m => { b with handed := m :: b.handed }

end AvgBalancer

/-! ## Random -/

namespace RandomIOBalancer

/-- The index `schedule` draws. -/
def pick (b : AvgBalancer) (g : RandomGen) : Nat := g.gen 0 (sizeSub b.threads 1)

/-- `schedule`; no state where the index is past the end. -/
def schedule (b : AvgBalancer) (g : RandomGen) : Option AvgBalancer := b.hand (pick b g)

inductive Event where
  | grow (e : Growth)
  | schedule (g : RandomGen)

/-- `schedule` can be called once the constructor has returned. -/
def step (b : AvgBalancer) : Event → Option AvgBalancer
  | .grow e => b.grow e
  | .schedule g => if b.returned then schedule b g else none

end RandomIOBalancer

/-! ## In sequence -/

namespace SequenceIOBalancer

variable {ι : Type} [DecidableEq ι]

/-- The index `schedule` computes; none is a remainder modulo zero. -/
def pick (b : AvgBalancer) (count : Nat) : Option Nat :=
  if b.threads = 0 then none else some (count % b.threads)

/-- The instances, the counter they share, and its value at the last call on each of them. -/
structure Instances (ι : Type) where
  count : Nat
  inst : ι → AvgBalancer
  last : ι → Option Nat

def schedule (s : Instances ι) (k : ι) : Option (Instances ι) := do
  let i ← pick (s.inst k) s.count
  let b ← (s.inst k).hand i
  return {
    count := sizeAdd s.count 1
    inst := Function.update s.inst k b
    last := Function.update s.last k (some s.count) }

inductive Event (ι : Type) where
  | grow (k : ι) (e : Growth)
  | schedule (k : ι)
  deriving DecidableEq, Repr

def step (s : Instances ι) : Event ι → Option (Instances ι)
  | .grow k e => ((s.inst k).grow e).map fun b => { s with inst := Function.update s.inst k b }
  | .schedule k => if (s.inst k).returned then schedule s k else none

end SequenceIOBalancer

/-! ## Indices that are there -/

namespace AvgBalancer

/-- The constructor spawns what it was asked for before it returns; every worker registers once, and
the current thread where it takes part. -/
structure Grown (b : AvgBalancer) : Prop where
  le : b.threads ≤ b.threadsCount
  eq : b.returned → b.threads = b.threadsCount
  nodup : b.managers.Nodup
  worker : ∀ i, .worker i ∈ b.managers → i < b.threads
  current : .current ∈ b.managers ↔ b.returned ∧ b.useCurrentThread

/-- There are threads, and as many managers as threads. -/
def Ready (b : AvgBalancer) : Prop := 0 < b.threadsCount ∧ b.threadsCount ≤ b.managers.length

theorem IsInit.grown {b : AvgBalancer} (h : b.IsInit) : b.Grown := by
  rw [h]
  refine ⟨Nat.zero_le _, ?_, List.nodup_nil, ?_, ?_⟩
  · intro hr
    cases hr
  · intro i hi
    cases hi
  · simp [init]

theorem Grown.construct {b b' : AvgBalancer} (h : b.Grown) (hs : b.grow .construct = some b') :
    b'.Grown := by
  rw [AvgBalancer.grow] at hs
  by_cases hr : b.returned
  · rw [if_pos hr] at hs
    cases hs
  have hc : .current ∉ b.managers := fun hm => hr (h.current.1 hm).1
  rw [if_neg hr] at hs
  by_cases hlt : b.threads < b.threadsCount
  · rw [if_pos hlt] at hs
    cases hs
    exact ⟨hlt, fun hr' => absurd hr' hr, h.nodup,
      fun i hi => Nat.lt_succ_of_lt (h.worker i hi), h.current⟩
  have heq : b.threads = b.threadsCount := Nat.le_antisymm h.le (Nat.not_lt.1 hlt)
  rw [if_neg hlt] at hs
  by_cases hu : b.useCurrentThread
  · rw [if_pos hu] at hs
    cases hs
    refine ⟨h.le, fun _ => heq, ?_, ?_, ?_⟩
    · exact List.Nodup.append h.nodup (List.nodup_singleton _) (by simpa using hc)
    · intro i hi
      exact h.worker i (by simpa using hi)
    · simp [hu]
  · rw [if_neg hu] at hs
    cases hs
    refine ⟨h.le, fun _ => heq, h.nodup, h.worker, ?_⟩
    simp [hc, hu]

theorem Grown.register {b b' : AvgBalancer} (h : b.Grown) {i : Nat}
    (hs : b.grow (.register i) = some b') : b'.Grown := by
  rw [AvgBalancer.grow] at hs
  split at hs
  · rename_i hi
    cases hs
    refine ⟨h.le, h.eq, ?_, ?_, ?_⟩
    · exact List.Nodup.append h.nodup (List.nodup_singleton _) (by simpa using hi.2)
    · intro j hj
      obtain hj | rfl := by simpa using hj
      · exact h.worker j hj
      · exact hi.1
    · simpa using h.current
  · cases hs

theorem Grown.grow {b b' : AvgBalancer} (h : b.Grown) {e : Growth} (hs : b.grow e = some b') :
    b'.Grown := by
  cases e with
  | construct => exact h.construct hs
  | register i => exact h.register hs

/-- At most the current thread comes to the workers. -/
theorem Grown.length_le {b : AvgBalancer} (h : b.Grown) : b.managers.length ≤ b.threads + 1 := by
  have hsub : b.managers ⊆ .current :: (List.range b.threads).map .worker := by
    intro m hm
    cases m with
    | current => exact List.mem_cons_self
    | worker i =>
      exact List.mem_cons_of_mem _ (List.mem_map.2 ⟨i, List.mem_range.2 (h.worker i hm), rfl⟩)
  have hle := (h.nodup.subperm hsub).length_le
  simpa using hle

theorem hand_some {b b' : AvgBalancer} {i : Nat} (h : b.hand i = some b') :
    ∃ m, b.managers[i]? = some m ∧ b' = { b with handed := m :: b.handed } := by
  obtain ⟨m, hm, hb⟩ := Option.map_eq_some_iff.1 h
  exact ⟨m, hm, hb.symm⟩

theorem Grown.hand {b b' : AvgBalancer} (h : b.Grown) {i : Nat} (hs : b.hand i = some b') :
    b'.Grown := by
  obtain ⟨m, -, rfl⟩ := hand_some hs
  exact ⟨h.le, h.eq, h.nodup, h.worker, h.current⟩

end AvgBalancer

namespace RandomIOBalancer

/-- A call draws an index of the vector, whatever it draws. -/
def Valid (b : AvgBalancer) : Event → Prop
  | .grow _ => True
  | .schedule _ => b.returned → ∀ g, pick b g < b.managers.length

def CallReady (b : AvgBalancer) : Event → Prop
  | .grow _ => True
  | .schedule _ => b.returned → b.Ready

theorem step_grown (b : AvgBalancer) (e : Event) (b' : AvgBalancer) (h : b.Grown)
    (hs : step b e = some b') : b'.Grown := by
  cases e with
  | grow e => exact h.grow hs
  | schedule g =>
    rw [step] at hs
    split at hs
    · exact h.hand hs
    · cases hs

theorem pick_lt_iff {b : AvgBalancer} (h : b.Grown) (hr : b.returned) :
    (∀ g, pick b g < b.managers.length) ↔ b.Ready := by
  have hf := b.fits
  have ht := h.eq hr
  constructor
  · intro hg
    -- the largest number that can be drawn
    have hd := hg (.drawing (sizeSub b.threads 1))
    rw [pick, RandomGen.gen_drawing (Nat.le_refl _)] at hd
    have hl := h.length_le
    rw [AvgBalancer.Ready]
    unfold sizeSub at hd
    omega
  · intro hb g
    have hg := g.gen_lt (n := b.threads) (by rw [ht]; exact hb.1) (by rw [ht]; exact hf)
    rw [pick]
    exact Nat.lt_of_lt_of_le hg (ht ▸ hb.2)

theorem valid_iff_callReady (b : AvgBalancer) (e : Event) (h : b.Grown) :
    Valid b e ↔ CallReady b e := by
  cases e with
  | grow e => exact Iff.rfl
  | schedule g =>
    constructor
    · intro hv hr
      exact (pick_lt_iff h hr).1 (hv hr)
    · intro hc hr
      exact (pick_lt_iff h hr).2 (hc hr)

end RandomIOBalancer

namespace SequenceIOBalancer

variable {ι : Type}

/-- A call computes an index of its instance's vector. -/
def Valid (s : Instances ι) : Event ι → Prop
  | .grow _ _ => True
  | .schedule k => (s.inst k).returned →
      ∃ i, pick (s.inst k) s.count = some i ∧ i < (s.inst k).managers.length

def CallReady (s : Instances ι) : Event ι → Prop
  | .grow _ _ => True
  | .schedule k => (s.inst k).returned → (s.inst k).Ready

theorem pick_lt {b : AvgBalancer} (h : b.Grown) (hr : b.returned) (hb : b.Ready) (count : Nat) :
    ∃ i, pick b count = some i ∧ i < b.managers.length := by
  have ht := h.eq hr
  have hpos : 0 < b.threads := ht ▸ hb.1
  refine ⟨count % b.threads, if_neg (Nat.pos_iff_ne_zero.1 hpos), ?_⟩
  exact Nat.lt_of_lt_of_le (Nat.mod_lt count hpos) (ht ▸ hb.2)

theorem CallReady.valid (s : Instances ι) (e : Event ι) (h : ∀ k, (s.inst k).Grown)
    (hc : CallReady s e) : Valid s e := by
  cases e with
  | grow k e => trivial
  | schedule k => exact fun hr => pick_lt (h k) hr (hc hr) s.count

/-- A counter for which an instance that is not ready leaves its vector, or divides by zero. -/
theorem exists_bad_count {b : AvgBalancer} (h : b.Grown) (hr : b.returned) (hb : ¬b.Ready) :
    ∃ count, ∀ i, pick b count = some i → b.managers.length ≤ i := by
  have ht := h.eq hr
  refine ⟨b.managers.length, fun i hi => ?_⟩
  rw [pick] at hi
  split at hi
  · cases hi
  · rename_i h0
    cases hi
    have hlt : b.managers.length < b.threads := by
      rw [AvgBalancer.Ready] at hb
      omega
    exact Nat.le_of_eq (Nat.mod_eq_of_lt hlt).symm

variable [DecidableEq ι]

/-- One call: the counter is used as it was, and only the instance that was called changes. -/
theorem schedule_some {s t : Instances ι} {k : ι} (h : schedule s k = some t) :
    ∃ m, (s.inst k).managers[s.count % (s.inst k).threads]? = some m ∧ (s.inst k).threads ≠ 0 ∧
      t = { count := sizeAdd s.count 1
            inst := Function.update s.inst k { s.inst k with handed := m :: (s.inst k).handed }
            last := Function.update s.last k (some s.count) } := by
  obtain ⟨i, hi, h1⟩ := Option.bind_eq_some_iff.1 h
  obtain ⟨b, hb, ht⟩ := Option.bind_eq_some_iff.1 h1
  obtain ⟨m, hm, rfl⟩ := AvgBalancer.hand_some hb
  cases ht
  rw [pick] at hi
  split at hi
  · cases hi
  · rename_i h0
    cases hi
    exact ⟨m, hm, h0, rfl⟩

theorem step_grown (s : Instances ι) (e : Event ι) (t : Instances ι)
    (h : ∀ k, (s.inst k).Grown) (hs : step s e = some t) : ∀ k, (t.inst k).Grown := by
  cases e with
  | grow k e =>
    obtain ⟨b, hb, rfl⟩ := Option.map_eq_some_iff.1 hs
    exact (Function.forall_update_iff s.inst fun _ b => b.Grown).2 ⟨(h k).grow hb, fun j _ => h j⟩
  | schedule k =>
    rw [step] at hs
    split at hs
    · obtain ⟨m, hm, -, rfl⟩ := schedule_some hs
      have hk := h k
      exact (Function.forall_update_iff s.inst fun _ b => b.Grown).2
        ⟨⟨hk.le, hk.eq, hk.nodup, hk.worker, hk.current⟩, fun j _ => h j⟩
    · cases hs

end SequenceIOBalancer

/-- **Every call picks a manager that is there** along the runs in which every call finds a
balancer that has threads, and as many managers as threads. For the random balancer there are no
others; an instance of the sequence balancer that is called earlier goes wrong for some value of the
counter. -/
theorem pick_valid_along {ι : Type} [DecidableEq ι] (b : AvgBalancer) (hb : b.IsInit)
    (es : List RandomIOBalancer.Event) (s : SequenceIOBalancer.Instances ι)
    (hs : ∀ k, (s.inst k).IsInit) (es' : List (SequenceIOBalancer.Event ι)) :
    (Meets RandomIOBalancer.step RandomIOBalancer.Valid b es ↔
      Meets RandomIOBalancer.step RandomIOBalancer.CallReady b es) ∧
    (Meets SequenceIOBalancer.step SequenceIOBalancer.CallReady s es' →
      Meets SequenceIOBalancer.step SequenceIOBalancer.Valid s es') ∧
    ∀ c : AvgBalancer, c.Grown → c.returned → ¬c.Ready →
      ∃ count, ∀ i, SequenceIOBalancer.pick c count = some i → c.managers.length ≤ i := by
  refine ⟨⟨?_, ?_⟩, ?_, fun c => ?_⟩
  · apply Meets.imp RandomIOBalancer.step_grown _ hb.grown
    exact fun b e hg => (RandomIOBalancer.valid_iff_callReady b e hg).1
  · apply Meets.imp RandomIOBalancer.step_grown _ hb.grown
    exact fun b e hg => (RandomIOBalancer.valid_iff_callReady b e hg).2
  · apply Meets.imp SequenceIOBalancer.step_grown SequenceIOBalancer.CallReady.valid
    exact fun k => (hs k).grown
  · exact SequenceIOBalancer.exists_bad_count

/-- One worker that registers before the constructor has returned, and a call on either balancer. -/
theorem pick_valid_registered :
    Meets RandomIOBalancer.step RandomIOBalancer.Valid (AvgBalancer.init 1 false (by decide))
      [.grow .construct, .grow (.register 0), .grow .construct, .schedule (.drawing 0)] ∧
    Meets SequenceIOBalancer.step SequenceIOBalancer.Valid
      ⟨7, fun _ : Unit => AvgBalancer.init 1 false (by decide), fun _ => none⟩
      [.grow () .construct, .grow () (.register 0), .grow () .construct, .schedule ()] := by
  have h := pick_valid_along (AvgBalancer.init 1 false (by decide)) rfl
    [.grow .construct, .grow (.register 0), .grow .construct, .schedule (.drawing 0)]
    ⟨7, fun _ : Unit => AvgBalancer.init 1 false (by decide), fun _ => none⟩ (fun _ => rfl)
    [.grow () .construct, .grow () (.register 0), .grow () .construct, .schedule ()]
  refine ⟨h.1.2 ⟨trivial, fun t ht => ?_⟩, h.2.1 ⟨trivial, fun t ht => ?_⟩⟩
  · cases ht
    refine ⟨trivial, fun t ht => ?_⟩
    cases ht
    refine ⟨trivial, fun t ht => ?_⟩
    cases ht
    exact ⟨fun _ => ⟨Nat.one_pos, Nat.le_refl 1⟩, fun t ht => trivial⟩
  · cases ht
    refine ⟨trivial, fun t ht => ?_⟩
    cases ht
    refine ⟨trivial, fun t ht => ?_⟩
    cases ht
    exact ⟨fun _ => ⟨Nat.one_pos, Nat.le_refl 1⟩, fun t ht => trivial⟩

/-- A call before the only worker has registered draws 0 from an empty vector; with no worker and
the current thread, the sequence balancer divides by zero. -/
theorem schedule_too_early :
    ¬Meets RandomIOBalancer.step RandomIOBalancer.Valid (AvgBalancer.init 1 false (by decide))
      [.grow .construct, .grow .construct, .schedule (.drawing 0)] ∧
    ¬Meets SequenceIOBalancer.step SequenceIOBalancer.Valid
      ⟨0, fun _ : Unit => AvgBalancer.init 0 true (by decide), fun _ => none⟩
      [.grow () .construct, .schedule ()] := by
  constructor
  · intro h
    have hv := ((h.2 _ rfl).2 _ rfl).1 rfl (.drawing 0)
    exact Nat.not_lt_zero _ hv
  · intro h
    obtain ⟨i, hi, -⟩ := (h.2 _ rfl).1 rfl
    cases hi

end NetBase.Balancer
