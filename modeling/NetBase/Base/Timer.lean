import NetBase.Base.Vector
import NetBase.Lib.OrderedMultiset

/-!
# Timers

`include/base/timer.h`. A `Timer` is a shared object: `id` is its identity and
`origin` the identity of the first timer of its chain of repetitions (both ghost;
the code compares `targetTimestamp` only). `κ` is the type of callbacks. Time stamps
are 64-bit milliseconds, `maxStamp` is `static_cast<MsStampType>(-1)`.

`TimerManager` keeps the pending timers in a multiset ordered by target. A call
that reads the clock several times takes `clock`, its `n`-th reading being `clock n`.
-/

namespace NetBase

open Lib

def maxStamp : Nat := 0xFFFFFFFFFFFFFFFF

structure Timer (κ : Type) where
  id : Nat
  origin : Nat
  repeats : Bool
  targetTimestamp : Nat
  interval : Nat
  callback : Option κ
  deriving DecidableEq, Repr

variable {κ : Type}

/-- `Timer::Timer(interval, callback, repeat)` when the clock reads `curMs`; a target
past the largest stamp saturates. -/
def Timer.make (id origin curMs interval : Nat) (callback : Option κ) (repeats : Bool) :
    Timer κ where
  id := id
  origin := origin
  repeats := repeats
  targetTimestamp := if interval > maxStamp - curMs then maxStamp else interval + curMs
  interval := interval
  callback := callback

structure TimerManager (κ : Type) where
  timers : List (Timer κ) := []
  /-- Identity of the next timer object allocated. -/
  nextId : Nat := 0

namespace TimerManager

/-- `Timer::Comparator` orders by this key. -/
abbrev key : Timer κ → Nat := Timer.targetTimestamp

def insert (m : TimerManager κ) (t : Timer κ) : TimerManager κ :=
  { m with timers := Multi.insert key t m.timers }

/-- `std::make_shared<Timer>(interval, callback, repeat)` by a user of the manager. -/
def newTimer (m : TimerManager κ) (curMs interval : Nat) (callback : Option κ) (repeats : Bool) :
    Timer κ × TimerManager κ :=
  (.make m.nextId m.nextId curMs interval callback repeats, { m with nextId := m.nextId + 1 })

def addTimer (m : TimerManager κ) (t : Timer κ) : Except Fault (TimerManager κ) :=
  if t.callback.isSome then .ok (m.insert t) else .error .assertFailed

/-- The repetition of `t`: a new object with its own clock reading. -/
def addRepeat (m : TimerManager κ) (curMs : Nat) (t : Timer κ) : TimerManager κ :=
  { m.insert (.make m.nextId t.origin curMs t.interval t.callback true) with
    nextId := m.nextId + 1 }

def addRepeats (m : TimerManager κ) (clock : Nat → Nat) : List (Timer κ) → TimerManager κ
  | [] => m
  | t :: ts =>
    if t.repeats then (m.addRepeat (clock 0) t).addRepeats (fun n => clock (n + 1)) ts
    else m.addRepeats clock ts

/-- The iterator `takeExpiredTimers` computes: `lower_bound`, then past the timers due
exactly now. -/
def expiredEnd (curMs : Nat) (l : List (Timer κ)) : Nat :=
  let iter := Multi.lowerBound key curMs l
  iter + ((l.drop iter).takeWhile fun t => t.targetTimestamp == curMs).length

def takeExpiredTimers (m : TimerManager κ) (clock : Nat → Nat) : List (Timer κ) × TimerManager κ :=
  let iter := expiredEnd (clock 0) m.timers
  let result := m.timers.take iter
  (result, { m with timers := m.timers.drop iter }.addRepeats (fun n => clock (n + 1)) result)

/-- `getNextInterval`, which reads the clock for the test and again for the difference; the
difference is a 64-bit one. -/
def getNextInterval (m : TimerManager κ) (clock : Nat → Nat) : Nat :=
  match m.timers with
  | [] => maxStamp
  | t :: _ =>
    if t.targetTimestamp < clock 0 then 0
    else (t.targetTimestamp + 0x10000000000000000 - clock 1) % 0x10000000000000000

/-- `takeFirstIfExpired`: the return value, the timer it hands out if any, the manager.
`clock 0` is the reading of a repetition's constructor. -/
def takeFirstIfExpired (m : TimerManager κ) (curMs : Nat) (clock : Nat → Nat) :
    Bool × Option (Timer κ) × TimerManager κ :=
  match m.timers with
  | [] => (false, none, m)
  | t :: rest =>
    if t.targetTimestamp ≤ curMs then
      (t.callback.isSome, some t, { m with timers := rest }.addRepeats clock [t])
    else (false, none, m)

/-- `removeTimer`. `find` may return any timer with the same target; `pick` says which. -/
def removeTimer (m : TimerManager κ) (pick : Nat) : Option (Timer κ) →
    Except Fault (TimerManager κ)
  | none => .ok m
  | some t =>
    match Multi.find key pick t.targetTimestamp m.timers with
    | some iter => .ok { m with timers := m.timers.eraseIdx iter }
    | none => .error .eraseEnd

/-- The pending timers are in comparator order. -/
def Ordered (m : TimerManager κ) : Prop := Multi.Sorted key m.timers

theorem Ordered.insert {m : TimerManager κ} (h : m.Ordered) (t : Timer κ) : (m.insert t).Ordered :=
  Multi.insert_sorted t h

theorem Ordered.addRepeats {ts : List (Timer κ)} :
    ∀ {m : TimerManager κ} {clock : Nat → Nat}, m.Ordered → (m.addRepeats clock ts).Ordered := by
  induction ts with
  | nil => exact fun h => h
  | cons t ts ih =>
    intro m clock h
    unfold TimerManager.addRepeats
    split
    · exact ih (m := m.addRepeat (clock 0) t) (h.insert _)
    · exact ih h

/-- A pending timer after the repetitions of `ts` went in is an old one or repeats one of `ts`. -/
theorem mem_addRepeats {ts : List (Timer κ)} {x : Timer κ} :
    ∀ {m : TimerManager κ} {clock : Nat → Nat}, x ∈ (m.addRepeats clock ts).timers →
      x ∈ m.timers ∨
        ∃ t ∈ ts, t.repeats = true ∧ x.origin = t.origin ∧ x.callback = t.callback := by
  induction ts with
  | nil => exact fun h => .inl h
  | cons t ts ih =>
    intro m clock h
    unfold TimerManager.addRepeats at h
    split at h
    · rename_i hr
      rcases ih h with h | ⟨u, hu, hru⟩
      · rcases Multi.mem_insert.1 h with rfl | h
        · exact .inr ⟨t, List.mem_cons_self, hr, rfl, rfl⟩
        · exact .inl h
      · exact .inr ⟨u, List.mem_cons_of_mem _ hu, hru⟩
    · rcases ih h with h | ⟨u, hu, hru⟩
      · exact .inl h
      · exact .inr ⟨u, List.mem_cons_of_mem _ hu, hru⟩

theorem addRepeats_of_once {ts : List (Timer κ)} (h : ∀ t ∈ ts, t.repeats = false) :
    ∀ {m : TimerManager κ} {clock : Nat → Nat}, m.addRepeats clock ts = m := by
  induction ts with
  | nil => exact rfl
  | cons t ts ih =>
    intro m clock
    simp only [TimerManager.addRepeats, h t List.mem_cons_self, Bool.false_eq_true, if_false]
    exact ih fun u hu => h u (List.mem_cons_of_mem _ hu)

/-- `takeExpiredTimers` cuts the pending timers at the ones due by `curMs`. -/
theorem expiredEnd_spec {curMs : Nat} {l : List (Timer κ)} (h : Multi.Sorted key l) :
    l.take (expiredEnd curMs l) = (l.filter fun t => t.targetTimestamp ≤ curMs) ∧
      l.drop (expiredEnd curMs l) = l.filter fun t => curMs < t.targetTimestamp := by
  set A := l.filter fun t => t.targetTimestamp < curMs with hA
  set E := Multi.equalRange key curMs l with hE
  set B := l.filter fun t => curMs < t.targetTimestamp with hB
  have hl : l = A ++ (E ++ B) := h.split curMs
  have hlb : Multi.lowerBound key curMs l = A.length := Multi.lowerBound_eq h curMs
  have hdrop : l.drop A.length = E ++ B :=
    (congrArg (List.drop A.length) hl).trans (by simp)
  have hEk : ∀ t ∈ E, (t.targetTimestamp == curMs) = true := fun t ht => by
    simpa [hE, Multi.equalRange] using (List.mem_filter.1 ht).2
  have hBk : B.takeWhile (fun t => t.targetTimestamp == curMs) = [] := by
    cases hb : B with
    | nil => rfl
    | cons b bs =>
      have hm : b ∈ B := by rw [hb]; exact List.mem_cons_self
      have : curMs < b.targetTimestamp := by simpa [hB] using (List.mem_filter.1 hm).2
      exact List.takeWhile_cons_of_neg (by simp; omega)
  have hend : expiredEnd curMs l = (A ++ E).length := by
    simp only [expiredEnd, hlb, hdrop, List.takeWhile_append_of_pos hEk, hBk, List.append_nil,
      List.length_append]
  have hfilter : (l.filter fun t => t.targetTimestamp ≤ curMs) = A ++ E := by
    conv_lhs => rw [hl]
    rw [List.filter_append, List.filter_append,
      List.filter_eq_self.2 (fun t ht => ?_), List.filter_eq_self.2 (fun t ht => ?_),
      List.filter_eq_nil_iff.2 (fun t ht => ?_), List.append_nil]
    · have := (List.mem_filter.1 ht).2; simp at this ⊢; omega
    · have := hEk t ht; simp at this ⊢; omega
    · have := (List.mem_filter.1 ht).2; simp at this ⊢; omega
  have hl' : l = (A ++ E) ++ B := by rw [List.append_assoc]; exact hl
  refine ⟨?_, ?_⟩
  · rw [hend, hfilter]
    exact (congrArg (List.take _) hl').trans List.take_left
  · rw [hend]
    exact (congrArg (List.drop _) hl').trans List.drop_left

theorem Ordered.takeExpiredTimers {m : TimerManager κ} (h : m.Ordered) (clock : Nat → Nat) :
    (m.takeExpiredTimers clock).2.Ordered := by
  apply Ordered.addRepeats (m := { m with timers := _ })
  show Multi.Sorted key (m.timers.drop _)
  rw [(expiredEnd_spec h).2]
  exact h.filter _

/-- What `takeExpiredTimers` hands out is exactly what was due. -/
theorem mem_takeExpired {m : TimerManager κ} (h : m.Ordered) {clock : Nat → Nat} {t : Timer κ} :
    t ∈ (m.takeExpiredTimers clock).1 ↔ t ∈ m.timers ∧ t.targetTimestamp ≤ clock 0 := by
  show t ∈ m.timers.take _ ↔ _
  rw [(expiredEnd_spec h).1, List.mem_filter]
  simp

theorem mem_takeExpired_pending {m : TimerManager κ} {clock : Nat → Nat} {t : Timer κ}
    (ht : t ∈ (m.takeExpiredTimers clock).1) : t ∈ m.timers := List.mem_of_mem_take ht

/-- A timer pending after a take was pending before or repeats one handed out. -/
theorem pending_after_take {m : TimerManager κ} {clock : Nat → Nat} {x : Timer κ}
    (hx : x ∈ (m.takeExpiredTimers clock).2.timers) : x ∈ m.timers ∨
      ∃ t ∈ (m.takeExpiredTimers clock).1, t.repeats = true ∧ x.origin = t.origin ∧
        x.callback = t.callback := by
  rcases mem_addRepeats hx with h | h
  · exact .inl (List.mem_of_mem_drop h)
  · exact .inr h

end TimerManager

end NetBase
