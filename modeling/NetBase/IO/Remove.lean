import NetBase.Lib.Runs
import NetBase.IO.Events

/-!
# What `removeEvent` removes

A direction of a descriptor is in three places: the executor slot, the bit of
`registered_events` and the kernel's mask. `RemovesExactly` is what `removeEvent(fd, events)`
should do to them. The code gives the kernel the events that are *not* registered, clears the
slots outside that mask and leaves `registered_events` as it was; so it is exact only where
there is nothing to remove, and a coroutine waiting in the other direction loses its slot.
-/

namespace NetBase.World

open Lib

variable {α κ : Type} {w w' : World α κ} {fd : Nat} {events : BitVec 32}

/-- The kernel's mask has the direction. -/
def Watched (w : World α κ) (fd : Nat) (d : EventType) : Prop :=
  ∃ m, w.epoll.interest fd = some m ∧ d.In m

/-- The direction is in none of the three places. -/
def Clear (w : World α κ) (fd : Nat) (d : EventType) : Prop :=
  (w.entry fd).executor d = none ∧ ¬ d.In (w.entry fd).registeredEvents ∧ ¬ w.Watched fd d

/-- `w'` is `w` with the directions of `events` removed from `fd`. -/
structure RemovesExactly (w : World α κ) (fd : Nat) (events : BitVec 32) (w' : World α κ) :
    Prop where
  cleared : ∀ d : EventType, d.In events → w'.Clear fd d
  executor : ∀ d : EventType, ¬ d.In events → d.In (w.entry fd).registeredEvents →
    (w'.entry fd).executor d = (w.entry fd).executor d
  callOnce : ∀ d : EventType, ¬ d.In events → d.In (w.entry fd).registeredEvents →
    (w'.entry fd).callOnce d = (w.entry fd).callOnce d
  registered : ∀ d : EventType, ¬ d.In events → d.In (w.entry fd).registeredEvents →
    d.In (w'.entry fd).registeredEvents
  watched : ∀ d : EventType, ¬ d.In events → d.In (w.entry fd).registeredEvents →
    (w'.Watched fd d ↔ w.Watched fd d)
  others : ∀ g, g ≠ fd →
    w'.fdEvents[g]? = w.fdEvents[g]? ∧ w'.epoll.interest g = w.epoll.interest g

theorem RemovesExactly.refl (h : ∀ d : EventType, d.In events → w.Clear fd d) :
    RemovesExactly w fd events w where
  cleared := h
  executor _ _ _ := rfl
  callOnce _ _ _ := rfl
  registered _ _ hd := hd
  watched _ _ _ := Iff.rfl
  others _ _ := ⟨rfl, rfl⟩

/-- Masks over the two directions meet in one of them. -/
theorem exists_in_of_and_ne_zero {x y : BitVec 32} (hy : y &&& ~~~epollBoth = 0)
    (h : x &&& y ≠ 0) : ∃ d : EventType, d.In x ∧ d.In y := by
  by_contra hn
  simp only [EventType.in_iff, not_exists, not_and] at hn
  refine h (BitVec.eq_of_getLsbD_eq fun i hi => ?_)
  have hyi := congrArg (fun z : BitVec 32 => z.getLsbD i) hy
  simp only [BitVec.getLsbD_and, BitVec.getLsbD_not, hi, decide_true, Bool.true_and] at hyi ⊢
  by_cases hx : x.getLsbD i = true ∧ y.getLsbD i = true
  · -- a bit of `y` is one of the two
    have hb : epollBoth.getLsbD i = true := by simpa [hx.2] using hyi
    have hb' : i = EventType.read.bit ∨ i = EventType.write.bit := by
      rw [epollBoth, show epollIn = EventType.read.mask from rfl,
        show epollOut = EventType.write.mask from rfl, EventType.mask_eq, EventType.mask_eq,
        BitVec.getLsbD_or, BitVec.getLsbD_twoPow, BitVec.getLsbD_twoPow] at hb
      simp only [Bool.or_eq_true, Bool.and_eq_true, decide_eq_true_eq] at hb
      omega
    rcases hb' with rfl | rfl
    · exact absurd hx.2 (hn .read hx.1)
    · exact absurd hx.2 (hn .write hx.1)
  · simpa using hx

/-- A call that finds a direction registered leaves it registered. -/
theorem not_removes_of_registered {d : EventType} (hr : d.In (w.entry fd).registeredEvents)
    (he : d.In events) (h : w.removeEvent fd events = .ok w') :
    ¬ RemovesExactly w fd events w' := by
  intro hx
  apply (hx.cleared d he).2.1
  rcases removeEvent_inv h with ⟨-, rfl⟩ | ⟨f, hf, -, k, rfl⟩
  · exact hr
  · rw [entry_eq hf] at hr
    simp only [entry]
    rw [getD_set hf, if_pos rfl, FdEvents.removed_registered]
    exact hr

/-- **When `removeEvent` is exact.** For every state of the manager, every descriptor and every
mask over the two directions: the call returns and removes exactly the directions of the mask if
and only if there is nothing of them to remove. -/
theorem removeEvent_exact_iff (he : events &&& ~~~epollBoth = 0) :
    (∃ w', w.removeEvent fd events = .ok w' ∧ RemovesExactly w fd events w') ↔
      ∀ d : EventType, d.In events → w.Clear fd d := by
  constructor
  · rintro ⟨w', hw, hx⟩
    by_cases h0 : (w.entry fd).registeredEvents &&& events = 0
    · rw [removeEvent_eq_self h0] at hw
      cases hw
      exact hx.cleared
    · obtain ⟨d, hr, hd⟩ := exists_in_of_and_ne_zero he h0
      exact absurd hx (not_removes_of_registered hr hd hw)
  · intro hc
    refine ⟨w, removeEvent_eq_self ?_, .refl hc⟩
    by_contra h0
    obtain ⟨d, hr, hd⟩ := exists_in_of_and_ne_zero he h0
    exact (hc d hd).2.1 hr

/-- `removeEvent(5, Read)` when only a writer waits. -/
theorem removeEvent_exact_writer : ∃ w, run (step id) (init 3 : World Nat Nat)
    [.coSocket 5, .registerEvent 5 epollOut 8 true] = some w ∧
      ∃ w', w.removeEvent 5 epollIn = .ok w' ∧ RemovesExactly w 5 epollIn w' := by
  refine ⟨_, rfl, (removeEvent_exact_iff (by decide)).2 fun d hd => ?_⟩
  cases d with
  | write => exact absurd hd (by decide)
  | read =>
    refine ⟨rfl, by decide, ?_⟩
    rintro ⟨m, hm, hd⟩
    cases hm
    exact absurd hd (by decide)

/-- A reader and a writer wait; the reader's time-out, or `stopRead`, takes both slots and the
descriptor from the kernel's set, and `registered_events` still has both directions. -/
theorem removeEvent_not_exact : ∃ w w', run (step id) (init 3 : World Nat Nat)
    [.coSocket 5, .registerEvent 5 epollIn 7 true, .registerEvent 5 epollOut 8 true] = some w ∧
      w.removeEvent 5 epollIn = .ok w' ∧ (w.entry 5).executor .write = some 8 ∧
      (w'.entry 5).executor .write = none ∧ w'.epoll.interest 5 = none ∧
      (w'.entry 5).registeredEvents = epollBoth ∧ ¬ RemovesExactly w 5 epollIn w' := by
  refine ⟨_, _, rfl, rfl, rfl, rfl, rfl, by decide, fun h => ?_⟩
  cases h.executor .write (by decide) (by decide)

end NetBase.World
