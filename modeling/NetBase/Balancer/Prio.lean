import Mathlib.Order.Bounds.Defs
import NetBase.Base.Random
import NetBase.IO.Deadline

/-!
# The priority balancer

`PrioBlancer` of `balancer/io/prio_balancer.cpp`: groups of workers by priority, and `schedule`,
which degrades the priority it is asked for to the highest level that has a worker. The search
reads a level before it looks whether the priority is still one, so that it leaves the vector where
there is none to find; `schedule_degrades_iff` says for which groups and priorities it does what it
is for.
-/

namespace NetBase.Balancer

/-- The argument of `schedule`, by the type it holds. -/
inductive Any where
  | int (v : Int)
  | other
  deriving DecidableEq, Repr

/-- `prio_workers[level][slot]` -/
structure Worker where
  level : Nat
  slot : Nat
  deriving DecidableEq, Repr

/-- What a call did: the executors it handed out, and the errors it logged. -/
structure Handed (E : Type) where
  tasks : List (Worker × E)
  errors : List String
  deriving DecidableEq, Repr

/-- The groups of workers; `size()` of a vector fits `size_t`. -/
structure PrioBlancer (M : Type) where
  prioWorkers : List (List M)
  fits : prioWorkers.length < 0x10000000000000000
  sizes : ∀ l ∈ prioWorkers, l.length < 0x10000000000000000

namespace PrioBlancer

variable {M E : Type}

/-- `prio_workers[prio]`: a negative `int` converts to an index past every vector. -/
def workersAt (ws : List (List M)) (prio : Int) : Except Fault (List M) :=
  if prio < 0 then .error .outOfRange else index ws prio.toNat

/-- The loop that lowers the priority. -/
def degrade (ws : List (List M)) (prio : Int) : Except Fault Int :=
  match workersAt ws prio with
  | .error e => .error e
  | .ok workers =>
    if workers.length = 0 ∧ prio ≥ 0 then degrade ws (prio - 1) else .ok prio
termination_by (prio + 1).toNat
decreasing_by omega

variable (s : PrioBlancer M)

/-- The largest priority, as an `int`. -/
def top : Int := castInt (sizeSub s.prioWorkers.length 1)

/-- Beyond the largest priority the largest one is meant. -/
def clamp (prio : Int) : Int := if prio > s.top then s.top else prio

/-- Behind the search: some worker of the level it ended on takes the executor. -/
def handOut (g : RandomGen) (executor : E) (prio : Int) : Except Fault (Handed E) :=
  if prio = -1 then .ok ⟨[], ["no valid IOManager to exec."]⟩
  else do
    let workers ← workersAt s.prioWorkers prio
    let slot := g.gen 0 (sizeSub workers.length 1)
    let _manager ← index workers slot
    return ⟨[(⟨prio.toNat, slot⟩, executor)], []⟩

def schedule (g : RandomGen) (executor : E) (arg : Any) : Except Fault (Handed E) :=
  match arg with
  | .other => .ok ⟨[], ["convert from arg to size_t failed in PrioBalancer"]⟩
  | .int prio => do
    let prio ← degrade s.prioWorkers (s.clamp prio)
    s.handOut g executor prio

/-! ## What it is for -/

/-- The levels that can take an executor of priority `prio`. -/
def levels (ws : List (List M)) (prio : Int) : Set Nat :=
  {q | (q : Int) ≤ prio ∧ ∃ l, ws[q]? = some l ∧ l ≠ []}

/-- The executor goes to one worker of the highest level that can take it, or to none, with the
error reported. -/
def Degrades (prio : Int) (executor : E) (r : Except Fault (Handed E)) : Prop :=
  (∃ q, IsGreatest (levels s.prioWorkers prio) q ∧ ∃ l slot, s.prioWorkers[q]? = some l ∧
    slot < l.length ∧ r = .ok ⟨[(⟨q, slot⟩, executor)], []⟩) ∨
  (levels s.prioWorkers prio = ∅ ∧ r = .ok ⟨[], ["no valid IOManager to exec."]⟩)

/-! ## The search -/

section

variable {ws : List (List M)}

theorem degrade_neg {prio : Int} (h : prio < 0) : degrade ws prio = .error .outOfRange := by
  rw [degrade, workersAt, if_pos h]

theorem workersAt_nat {p : Nat} {l : List M} (h : ws[p]? = some l) : workersAt ws p = .ok l := by
  rw [workersAt, if_neg (by omega), Int.toNat_natCast]
  exact index_ok.2 h

theorem levels_of_neg {prio : Int} (h : prio < 0) : levels ws prio = ∅ := by
  ext q
  simp only [levels, Set.mem_ofPred_eq, Set.mem_empty_iff_false, iff_false, not_and]
  intro hq
  omega

/-- An empty level can take nothing. -/
theorem levels_of_empty {p : Nat} (h : ws[p]? = some []) :
    levels ws p = levels ws ((p : Int) - 1) := by
  ext q
  simp only [levels, Set.mem_ofPred_eq]
  constructor
  · rintro ⟨hq, l, hl, hne⟩
    have hqp : q ≠ p := by
      rintro rfl
      rw [h] at hl
      cases hl
      exact hne rfl
    exact ⟨by omega, l, hl, hne⟩
  · rintro ⟨hq, l, hl, hne⟩
    exact ⟨by omega, l, hl, hne⟩

theorem degrade_empty {p : Nat} (h : ws[p]? = some []) :
    degrade ws p = degrade ws ((p : Int) - 1) := by
  rw [degrade, workersAt_nat h]
  exact if_pos ⟨rfl, Int.natCast_nonneg p⟩

theorem degrade_here {p : Nat} {l : List M} (h : ws[p]? = some l) (hl : l ≠ []) :
    IsGreatest (levels ws p) p ∧ degrade ws p = .ok (p : Int) := by
  refine ⟨⟨⟨Int.le_refl _, l, h, hl⟩, ?_⟩, ?_⟩
  · rintro q ⟨hq, -⟩
    exact Int.ofNat_le.1 hq
  · rw [degrade, workersAt_nat h]
    exact if_neg fun he => hl (List.length_eq_zero_iff.1 he.1)

/-- The search from a level that exists finds the highest one that can take the executor, and runs
off the bottom where there is none. -/
theorem degrade_nat {p : Nat} (hp : p < ws.length) :
    (∃ q : Nat, IsGreatest (levels ws p) q ∧ degrade ws p = .ok (q : Int)) ∨
      (levels ws p = ∅ ∧ degrade ws p = .error .outOfRange) := by
  induction p with
  | zero =>
    have hl := List.getElem?_eq_getElem hp
    by_cases hne : ws[0] = []
    · rw [hne] at hl
      rw [levels_of_empty hl, degrade_empty hl]
      exact .inr ⟨levels_of_neg (by decide), degrade_neg (by decide)⟩
    · exact .inl ⟨0, degrade_here hl hne⟩
  | succ p ih =>
    have hl := List.getElem?_eq_getElem hp
    by_cases hne : ws[p + 1] = []
    · rw [hne] at hl
      rw [levels_of_empty hl, degrade_empty hl, show ((p + 1 : Nat) : Int) - 1 = p by omega]
      exact ih (by omega)
    · exact .inl ⟨p + 1, degrade_here hl hne⟩

end

/-! ## A call -/

theorem top_lt (h : 0 ≤ s.top) : s.top < s.prioWorkers.length := by
  have hf := s.fits
  unfold top castInt sizeSub at h ⊢
  simp only at h ⊢
  split at h <;> omega

theorem le_clamp {prio q : Int} : q ≤ s.clamp prio ↔ q ≤ prio ∧ q ≤ s.top := by
  unfold clamp
  split <;> omega

theorem levels_clamp {prio : Int} {q : Nat} : q ∈ levels s.prioWorkers (s.clamp prio) ↔
    q ∈ levels s.prioWorkers prio ∧ (q : Int) ≤ s.top := by
  simp only [levels, Set.mem_ofPred_eq, le_clamp]
  exact and_right_comm

theorem schedule_of_error (g : RandomGen) (executor : E) {prio : Int}
    (hd : degrade s.prioWorkers (s.clamp prio) = .error .outOfRange) :
    s.schedule g executor (.int prio) = .error .outOfRange := by
  rw [schedule, hd]
  rfl

theorem not_degrades_error {prio : Int} {executor : E} {e : Fault} :
    ¬s.Degrades prio executor (.error e) := by
  rintro (⟨q, -, l, slot, -, -, h⟩ | ⟨-, h⟩)
  · cases h
  · cases h

/-- From the level where the search ends, some worker of it takes the executor. -/
theorem schedule_of_ok (g : RandomGen) (executor : E) {prio : Int} {q : Nat} {l : List M}
    (hd : degrade s.prioWorkers (s.clamp prio) = .ok (q : Int))
    (hl : s.prioWorkers[q]? = some l) (hne : l ≠ []) :
    ∃ slot < l.length, s.schedule g executor (.int prio) = .ok ⟨[(⟨q, slot⟩, executor)], []⟩ := by
  have hs := g.gen_lt (List.length_pos_of_ne_nil hne) (s.sizes l (List.mem_of_getElem? hl))
  have hi := index_ok.2 (List.getElem?_eq_getElem hs)
  refine ⟨_, hs, ?_⟩
  rw [schedule, hd]
  show s.handOut g executor q = _
  rw [handOut, if_neg (by omega), workersAt_nat hl]
  show (index l _ >>= _) = _
  rw [hi]
  rfl

/-- `schedule` does what it is for exactly where some level can take the executor, and the highest
such level is not above the number of levels less one as an `int`, which it cannot be with at most
`2 ^ 31` levels. -/
theorem schedule_degrades_iff (g : RandomGen) (executor : E) (prio : Int) :
    s.Degrades prio executor (s.schedule g executor (.int prio)) ↔
      ∃ q, IsGreatest (levels s.prioWorkers prio) q ∧ (q : Int) ≤ s.top := by
  by_cases h0 : s.clamp prio < 0
  · rw [schedule_of_error s g executor (degrade_neg h0)]
    constructor
    · intro h
      exact absurd h s.not_degrades_error
    · rintro ⟨q, hq, ht⟩
      have := s.le_clamp.2 ⟨hq.1.1, ht⟩
      omega
  · obtain ⟨p, hp⟩ := Int.eq_ofNat_of_zero_le (Int.not_lt.1 h0)
    have htop := s.le_clamp.1 (Int.le_refl (s.clamp prio))
    have hlt := s.top_lt (by omega)
    have hpl : p < s.prioWorkers.length := by omega
    obtain ⟨q', hq', hd⟩ | ⟨he, hd⟩ := degrade_nat hpl
    · rw [← hp] at hq' hd
      obtain ⟨-, l, hl, hne⟩ := hq'.1
      obtain ⟨slot, hs, hr⟩ := schedule_of_ok s g executor hd hl hne
      have hm := s.levels_clamp.1 hq'.1
      rw [hr]
      constructor
      · rintro (⟨q, hq, l', slot', -, -, hr'⟩ | ⟨-, hr'⟩)
        · cases hr'
          exact ⟨q', hq, hm.2⟩
        · cases hr'
      · rintro ⟨q, hq, ht⟩
        have hqq : q = q' := Nat.le_antisymm (hq'.2 (s.levels_clamp.2 ⟨hq.1, ht⟩)) (hq.2 hm.1)
        subst hqq
        exact .inl ⟨q, hq, l, slot, hl, hs, rfl⟩
    · rw [← hp] at he hd
      rw [schedule_of_error s g executor hd]
      constructor
      · intro h
        exact absurd h s.not_degrades_error
      · rintro ⟨q, hq, ht⟩
        have := s.levels_clamp.2 ⟨hq.1, ht⟩
        rw [he] at this
        exact absurd this (Set.notMem_empty q)

/-- Two levels without a worker: the search reads below the lowest one. -/
theorem schedule_all_empty :
    let s : PrioBlancer Nat := ⟨[[], []], by decide, by decide⟩
    s.schedule (.drawing 0) "task" (.int 1) = .error .outOfRange ∧
      ¬s.Degrades 1 "task" (s.schedule (.drawing 0) "task" (.int 1)) := by
  intro s
  have hd : degrade s.prioWorkers (s.clamp 1) = .error .outOfRange := by
    have hc : s.clamp 1 = ((1 : Nat) : Int) := by decide
    rw [hc, degrade_empty rfl]
    show degrade [[], []] ((0 : Nat) : Int) = _
    rw [degrade_empty rfl]
    exact degrade_neg (by decide)
  have hr := schedule_of_error s (.drawing 0) "task" hd
  refine ⟨hr, ?_⟩
  rw [hr]
  exact s.not_degrades_error

end PrioBlancer

end NetBase.Balancer
