import NetBase.Base.Timer

/-!
# How long the event loop sleeps

`blockPending` hands `epoll_wait` the manager's next interval as an `int`, and
`epoll_wait` takes a negative time-out for ever. The interval comes from two clock
readings and a 64-bit difference, and the cast keeps its low 32 bits, so a clock that
ticks past the target between the readings and a target far away both go wrong.
`timeout_kept_iff` says for which targets and readings the time-out is one that does
not sleep past the deadline.
-/

namespace NetBase

open Lib TimerManager

variable {κ : Type}

/-- `static_cast<int>` of an unsigned value. -/
def castInt (n : Nat) : Int :=
  let low := n % 0x100000000
  if low < 0x80000000 then low else (low : Int) - 0x100000000

namespace TimerManager

/-- `next_interval` of `blockPending`. -/
def epollTimeout (m : TimerManager κ) (clock : Nat → Nat) : Int := castInt (m.getNextInterval clock)

def earliest (m : TimerManager κ) : Option Nat := (m.timers.map key).min?

/-- The time-out sleeps no longer than to the earliest target, counted from the first clock
reading; it is infinite only when nothing has to be waited for. -/
def TimeoutKept (m : TimerManager κ) (clock : Nat → Nat) : Prop :=
  (m.epollTimeout clock < 0 → m.earliest = none ∨ m.earliest = some maxStamp) ∧
    ∀ e, m.earliest = some e → 0 ≤ m.epollTimeout clock →
      m.epollTimeout clock ≤ max 0 ((e : Int) - clock 0)

/-- The earliest target `e` is overdue at the first reading, or saturated; or the second
reading `r₁` has not passed it and the low 32 bits of the distance are below `2 ^ 31`; or it
has passed it, by so much that the negated overshoot has come round, modulo `2 ^ 32`, to
at most the distance at the first reading. -/
def Timely (e r₀ r₁ : Nat) : Prop :=
  e < r₀ ∨ e = maxStamp ∨ (r₁ ≤ e ∧ (e - r₁) % 0x100000000 < 0x80000000) ∨
    (e < r₁ ∧ ∃ v ≤ e - r₀, v < 0x80000000 ∧ (r₁ - e + v) % 0x100000000 = 0)

theorem earliest_eq {m : TimerManager κ} (h : m.Ordered) :
    m.earliest = m.timers.head?.map key := by
  unfold earliest
  unfold Ordered at h
  cases hl : m.timers with
  | nil => rfl
  | cons t l =>
    rw [hl] at h
    refine List.min?_eq_some_iff.2 ⟨by simp, fun b hb => ?_⟩
    obtain ⟨u, hu, rfl⟩ := List.mem_map.1 hb
    rcases List.mem_cons.1 hu with rfl | hu
    · exact Nat.le_refl _
    · exact (List.pairwise_cons.1 h).1 u hu

theorem castInt_nonneg_iff {n : Nat} : 0 ≤ castInt n ↔ n % 0x100000000 < 0x80000000 := by
  unfold castInt
  simp only
  split <;> omega

theorem castInt_eq_low {n : Nat} (h : 0 ≤ castInt n) : castInt n = (n % 0x100000000 : Nat) :=
  if_pos (castInt_nonneg_iff.1 h)

/-- The pure part: a target `e` not past at `r₀`, and the 64-bit difference to `r₁`. -/
theorem timely_iff {e r₀ r₁ : Nat} (he : e < maxStamp) (h₀ : r₀ ≤ e) (h₀₁ : r₀ ≤ r₁)
    (h₁ : r₁ ≤ maxStamp) :
    Timely e r₀ r₁ ↔
      (e + 0x10000000000000000 - r₁) % 0x10000000000000000 % 0x100000000 < 0x80000000 ∧
      (e + 0x10000000000000000 - r₁) % 0x10000000000000000 % 0x100000000 ≤ e - r₀ := by
  unfold Timely
  unfold maxStamp at *
  constructor
  · rintro (h | h | h | ⟨h, v, hv, hv', hd⟩)
    · omega
    · omega
    · omega
    · omega
  · intro h
    by_cases hr : r₁ ≤ e
    · exact .inr (.inr (.inl ⟨hr, by omega⟩))
    · refine .inr (.inr (.inr ⟨by omega, _, h.2, h.1, ?_⟩))
      omega

/-- **The loop does not oversleep.** For every set of pending timers and every two readings of
a clock that does not run backwards, exactly when the earliest target is timely. -/
theorem timeout_kept_iff {m : TimerManager κ} (ho : m.Ordered)
    (ht : ∀ t ∈ m.timers, t.targetTimestamp ≤ maxStamp) {clock : Nat → Nat}
    (h₀₁ : clock 0 ≤ clock 1) (h₁ : clock 1 ≤ maxStamp) :
    TimeoutKept m clock ↔ ∀ e, m.earliest = some e → Timely e (clock 0) (clock 1) := by
  unfold TimeoutKept epollTimeout
  rw [earliest_eq ho]
  cases hl : m.timers with
  | nil => simp
  | cons t l =>
    have hle := ht t (by simp [hl])
    simp only [List.head?_cons, Option.map_some, Option.some.injEq, forall_eq', reduceCtorEq,
      false_or, getNextInterval, hl]
    change (_ → t.targetTimestamp = maxStamp) ∧
      (_ → _ ≤ max 0 ((t.targetTimestamp : Int) - clock 0)) ↔
      Timely t.targetTimestamp (clock 0) (clock 1)
    set e := t.targetTimestamp
    by_cases hd : e < clock 0
    · -- overdue: the time-out is 0
      rw [if_pos hd]
      refine iff_of_true ⟨fun h => absurd h (by decide), fun _ => le_max_left _ _⟩ (.inl hd)
    rw [if_neg hd]
    set n := (e + 0x10000000000000000 - clock 1) % 0x10000000000000000 with hn
    have hcast := @castInt_nonneg_iff n
    have hlow := @castInt_eq_low n
    by_cases hm : e = maxStamp
    · refine iff_of_true ⟨fun _ => hm, fun h => ?_⟩ (.inr (.inl hm))
      have := hlow h
      unfold maxStamp at hm h₁
      omega
    · rw [timely_iff (by omega) (by omega) h₀₁ h₁, ← hn]
      constructor
      · rintro ⟨hneg, hpos⟩
        have h0 : 0 ≤ castInt n := by
          by_contra h
          exact hm (hneg (by omega))
        have := hpos h0
        have := hlow h0
        omega
      · rintro ⟨h31, hle⟩
        have h0 := hcast.2 h31
        have := hlow h0
        refine ⟨fun h => by omega, fun _ => ?_⟩
        omega

/-- A timer three seconds away. -/
theorem timeout_kept_near :
    TimeoutKept ({ timers := [.make 0 0 1000 3000 (some 7) false] } : TimerManager Nat)
      (fun n => 1000 + n) := by
  refine (timeout_kept_iff ?_ ?_ (by decide) (by decide)).2 ?_
  · exact List.pairwise_singleton _ _
  · simp [Timer.make, maxStamp]
  · rintro e he
    obtain rfl : 4000 = e := Option.some.inj he
    exact .inr (.inr (.inl (by decide)))

/-- The clock ticks from 1000 to 1001 between the readings and the timer due at 1000 makes the
loop sleep for ever; so does one `2 ^ 31` ms away. -/
theorem timeout_not_kept :
    ¬ TimeoutKept ({ timers := [.make 0 0 900 100 (some 7) false] } : TimerManager Nat)
        (fun n => 1000 + n) ∧
      ¬ TimeoutKept ({ timers := [.make 0 0 1000 0x80000000 (some 7) false] } : TimerManager Nat)
        (fun _ => 1000) := by
  refine ⟨fun h => ?_, fun h => ?_⟩
  · exact absurd (h.1 (by decide)) (by decide)
  · exact absurd (h.1 (by decide)) (by decide)

end TimerManager

end NetBase
