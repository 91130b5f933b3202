import NetBase.Base.Timer

/-!
# Taking expired timers one at a time

`takeFirstIfExpired`, called until it returns `false`, against one `takeExpiredTimers`, the
clock reading `curMs` throughout. The batch cuts the multiset first and puts the repetitions
in afterwards; one at a time, every repetition goes in before the next timer comes out. It is
due later than `curMs`, so the two agree.

At the largest stamp there is no later: the target of a repetition saturates, it is due at
once, and the calls do not end.
-/

namespace NetBase.TimerManager

open Lib

variable {κ : Type}

/-- `while (takeFirstIfExpired(timer, curMs))`, for at most `fuel` calls: the timers handed out
and the manager after the call that returns `false`, `none` when there was no such call. -/
def takeWhileExpired (m : TimerManager κ) (curMs : Nat) :
    Nat → Option (List (Timer κ) × TimerManager κ)
  | 0 => none
  | fuel + 1 =>
    match m.takeFirstIfExpired curMs fun _ => curMs with
    | (true, some t, m') => (m'.takeWhileExpired curMs fuel).map fun r => (t :: r.1, r.2)
    | (_, _, m') => some ([], m')

/-- What holds of the pending timers: they are ordered, have callbacks (`addTimer` asserts
it), and repetitions are due later. -/
structure Drains (m : TimerManager κ) (curMs : Nat) : Prop where
  ordered : m.Ordered
  callback : ∀ t ∈ m.timers, t.callback.isSome
  later : ∀ t ∈ m.timers, t.repeats = true → ∀ id,
    curMs < (Timer.make id t.origin curMs t.interval t.callback true).targetTimestamp

variable {m : TimerManager κ} {curMs : Nat}

/-- The batch in terms of what is due and what is not. -/
theorem takeExpiredTimers_eq (h : m.Ordered) :
    m.takeExpiredTimers (fun _ => curMs) =
      (m.timers.filter fun t => t.targetTimestamp ≤ curMs,
        { m with timers := m.timers.filter fun t => curMs < t.targetTimestamp }.addRepeats
          (fun _ => curMs) (m.timers.filter fun t => t.targetTimestamp ≤ curMs)) := by
  simp only [takeExpiredTimers, expiredEnd_spec h]

/-- The manager after the first timer has been taken. -/
def afterFirst (m : TimerManager κ) (curMs : Nat) (t : Timer κ) (rest : List (Timer κ)) :
    TimerManager κ :=
  { m with timers := rest }.addRepeats (fun _ => curMs) [t]

theorem afterFirst_once {t : Timer κ} {rest : List (Timer κ)} (hr : t.repeats = false) :
    m.afterFirst curMs t rest = { m with timers := rest } := by
  simp [afterFirst, addRepeats, hr]

theorem afterFirst_repeats {t : Timer κ} {rest : List (Timer κ)} (hr : t.repeats = true) :
    m.afterFirst curMs t rest = { m with timers := rest }.addRepeat curMs t := by
  simp [afterFirst, addRepeats, hr]

theorem Drains.tail {t : Timer κ} {rest : List (Timer κ)} (h : m.Drains curMs)
    (hm : m.timers = t :: rest) : ({ m with timers := rest } : TimerManager κ).Drains curMs where
  ordered := by
    have := h.ordered
    rw [Ordered, hm] at this
    exact (List.pairwise_cons.1 this).2
  callback u hu := h.callback u (hm ▸ List.mem_cons_of_mem _ hu)
  later u hu := h.later u (hm ▸ List.mem_cons_of_mem _ hu)

theorem Drains.afterFirst {t : Timer κ} {rest : List (Timer κ)} (h : m.Drains curMs)
    (hm : m.timers = t :: rest) : (m.afterFirst curMs t rest).Drains curMs := by
  have ht : t ∈ m.timers := hm ▸ List.mem_cons_self
  have hrest := h.tail hm
  cases hr : t.repeats with
  | false => rw [afterFirst_once hr]; exact hrest
  | true =>
    rw [afterFirst_repeats hr]
    refine ⟨hrest.ordered.insert _, fun u hu => ?_, fun u hu hru => ?_⟩
    · rcases Multi.mem_insert.1 hu with rfl | hu
      · exact h.callback t ht
      · exact hrest.callback u hu
    · rcases Multi.mem_insert.1 hu with rfl | hu
      · exact h.later t ht hr
      · exact hrest.later u hu hru

/-- Taking the first timer by itself leaves the rest of the batch to take. -/
theorem takeExpiredTimers_cons {t : Timer κ} {rest : List (Timer κ)} (h : m.Drains curMs)
    (hm : m.timers = t :: rest) (hdue : t.targetTimestamp ≤ curMs) :
    m.takeExpiredTimers (fun _ => curMs) =
      (t :: ((m.afterFirst curMs t rest).takeExpiredTimers fun _ => curMs).1,
        ((m.afterFirst curMs t rest).takeExpiredTimers fun _ => curMs).2) := by
  have ht : t ∈ m.timers := hm ▸ List.mem_cons_self
  have hrest : Multi.Sorted key rest := (h.tail hm).ordered
  rw [takeExpiredTimers_eq h.ordered, takeExpiredTimers_eq (h.afterFirst hm).ordered, hm,
    List.filter_cons_of_pos (by simpa using hdue), List.filter_cons_of_neg (by simpa using hdue)]
  cases hr : t.repeats with
  | false => simp [afterFirst_once hr, addRepeats, hr]
  | true =>
    -- the repetition is not among what is due, and is put in among the later ones
    have hlater := h.later t ht hr m.nextId
    have hdue' : ((m.afterFirst curMs t rest).timers.filter fun u => u.targetTimestamp ≤ curMs) =
        rest.filter fun u => u.targetTimestamp ≤ curMs := by
      rw [afterFirst_repeats hr]
      exact Multi.filter_insert_of_neg (decide_eq_false (Nat.not_le.2 hlater))
    have hleft : ((m.afterFirst curMs t rest).timers.filter fun u => curMs < u.targetTimestamp) =
        Multi.insert key (.make m.nextId t.origin curMs t.interval t.callback true)
          (rest.filter fun u => curMs < u.targetTimestamp) := by
      rw [afterFirst_repeats hr]
      exact Multi.filter_insert_of_pos hrest (decide_eq_true hlater)
    rw [hdue', hleft]
    simp [afterFirst_repeats hr, addRepeats, addRepeat, insert, hr]

theorem takeFirst_due {t : Timer κ} {rest : List (Timer κ)} (h : m.Drains curMs)
    (hm : m.timers = t :: rest) (hdue : t.targetTimestamp ≤ curMs) :
    m.takeFirstIfExpired curMs (fun _ => curMs) =
      (true, some t, m.afterFirst curMs t rest) := by
  simp [takeFirstIfExpired, hm, hdue, h.callback t (hm ▸ List.mem_cons_self), afterFirst]

/-- Nothing is due: the first call returns `false`, and the batch is empty. -/
theorem takeFirst_none (h : m.Ordered) (hn : ∀ t ∈ m.timers, curMs < t.targetTimestamp) :
    m.takeFirstIfExpired curMs (fun _ => curMs) = (false, none, m) ∧
      m.takeExpiredTimers (fun _ => curMs) = ([], m) := by
  constructor
  · unfold takeFirstIfExpired
    cases hm : m.timers with
    | nil => rfl
    | cons t rest =>
      have := hn t (hm ▸ List.mem_cons_self)
      simp [Nat.not_le.2 this]
  · rw [takeExpiredTimers_eq h, List.filter_eq_nil_iff.2 (fun t ht => by simpa using hn t ht),
      List.filter_eq_self.2 (fun t ht => by simpa using hn t ht)]
    rfl

/-- By induction on the number of timers due. -/
theorem takeWhileExpired_eq (h : m.Drains curMs) {fuel : Nat}
    (hf : (m.timers.filter fun t => t.targetTimestamp ≤ curMs).length < fuel) :
    m.takeWhileExpired curMs fuel = some (m.takeExpiredTimers fun _ => curMs) := by
  induction fuel generalizing m with
  | zero => omega
  | succ fuel ih =>
    unfold takeWhileExpired
    cases hm : m.timers with
    | nil =>
      have hlate : ∀ t ∈ m.timers, curMs < t.targetTimestamp := by simp [hm]
      obtain ⟨h1, h2⟩ := takeFirst_none h.ordered hlate
      rw [h1, h2]
    | cons t rest =>
      by_cases hdue : t.targetTimestamp ≤ curMs
      · rw [takeFirst_due h hm hdue, takeExpiredTimers_cons h hm hdue]
        have hlen := congrArg (fun r => r.1.length) (takeExpiredTimers_cons h hm hdue)
        simp only [takeExpiredTimers_eq h.ordered,
          takeExpiredTimers_eq (h.afterFirst hm).ordered, List.length_cons] at hlen
        simp only [ih (h.afterFirst hm) (by omega), Option.map_some]
      · have hall : ∀ u ∈ m.timers, curMs < u.targetTimestamp := by
          intro u hu
          have hs := h.ordered
          rw [Ordered, hm] at hs
          rw [hm] at hu
          rcases List.mem_cons.1 hu with rfl | hu
          · exact Nat.lt_of_not_le hdue
          · exact (Nat.lt_of_not_le hdue).trans_le ((List.pairwise_cons.1 hs).1 u hu)
        obtain ⟨h1, h2⟩ := takeFirst_none h.ordered hall
        rw [h1, h2]

/-- **The two ways of taking agree.** In every ordered set of pending timers with callbacks in
which repeating timers have an interval of at least one: repeated calls of
`takeFirstIfExpired` end, hand out what one `takeExpiredTimers` hands out, in that order, and
leave the same timers pending, for every reading below the largest stamp, and for that one too
if no timer repeats. -/
theorem takes_agree (h : m.Ordered) (hc : ∀ t ∈ m.timers, t.callback.isSome)
    (hi : ∀ t ∈ m.timers, t.repeats = true → 1 ≤ t.interval)
    (ht : curMs < maxStamp ∨ ∀ t ∈ m.timers, t.repeats = false) :
    ∃ n, ∀ fuel, n ≤ fuel →
      m.takeWhileExpired curMs fuel = some (m.takeExpiredTimers fun _ => curMs) := by
  have hd : m.Drains curMs := by
    refine ⟨h, hc, fun t htm hr id => ?_⟩
    rcases ht with ht | ht
    · have := hi t htm hr
      simp only [Timer.make]
      split <;> omega
    · rw [ht t htm] at hr
      cases hr
  exact ⟨_, fun fuel hf => takeWhileExpired_eq hd (Nat.lt_of_succ_le hf)⟩

/-- A repeating timer and one that is due at the same moment. -/
def pair : TimerManager Nat where
  timers := [⟨0, 0, true, 5, 3, some 7⟩, ⟨1, 1, false, 5, 2, some 8⟩]
  nextId := 2

theorem takes_agree_pair : ∃ n, ∀ fuel, n ≤ fuel →
    pair.takeWhileExpired 6 fuel = some ([⟨0, 0, true, 5, 3, some 7⟩, ⟨1, 1, false, 5, 2, some 8⟩],
      { timers := [⟨2, 0, true, 9, 3, some 7⟩], nextId := 3 }) :=
  takes_agree (by simp [Ordered, Multi.Sorted, pair]) (by decide) (by decide) (.inl (by decide))

/-- At the largest stamp a repeating timer comes out of every call. -/
theorem takeWhileExpired_saturated {t : Timer κ} (ht : t.repeats = true) (hi : 1 ≤ t.interval)
    (hc : t.callback.isSome) (hdue : t.targetTimestamp ≤ maxStamp) (fuel nextId : Nat) :
    ({ timers := [t], nextId } : TimerManager κ).takeWhileExpired maxStamp fuel = none := by
  induction fuel generalizing t nextId with
  | zero => rfl
  | succ fuel ih =>
    have hnext : ({ timers := [t], nextId } : TimerManager κ).takeFirstIfExpired maxStamp
        (fun _ => maxStamp) = (true, some t,
          { timers := [.make nextId t.origin maxStamp t.interval t.callback true],
            nextId := nextId + 1 }) := by
      simp [takeFirstIfExpired, hdue, hc, addRepeats, ht, addRepeat, insert, Multi.insert]
    unfold takeWhileExpired
    rw [hnext]
    have htarget : (Timer.make nextId t.origin maxStamp t.interval t.callback
        true).targetTimestamp ≤ maxStamp := by
      simp only [Timer.make]
      split <;> omega
    have hrest := ih (t := .make nextId t.origin maxStamp t.interval t.callback true) rfl hi hc
      htarget (nextId + 1)
    simp only [hrest, Option.map_none]

/-- A timer repeating every millisecond is pending and the clock reads the largest stamp. -/
theorem takes_disagree : let m : TimerManager Nat := { timers := [⟨0, 0, true, 5, 1, some 7⟩] }
    m.Ordered ∧ (∀ t ∈ m.timers, t.callback.isSome) ∧
      (∀ t ∈ m.timers, t.repeats = true → 1 ≤ t.interval) ∧
      (∀ fuel, m.takeWhileExpired maxStamp fuel = none) ∧
      (m.takeExpiredTimers fun _ => maxStamp).1 = m.timers := by
  refine ⟨List.pairwise_singleton _ _, by decide, by decide, fun fuel => ?_, by decide⟩
  exact takeWhileExpired_saturated rfl (by decide) rfl (by decide) fuel 0

end NetBase.TimerManager
