import Mathlib.Logic.Function.Basic
import NetBase.Base.Vector

/-!
# The kernel's epoll set

A partial map from descriptors to event masks. `EPOLL_CTL_ADD` needs the descriptor absent,
`EPOLL_CTL_MOD` and `EPOLL_CTL_DEL` need it present; `epollAdd`, `epollMod` and `epollDel` of
the manager assert that the call succeeded. Closing a descriptor removes it.

Masks are the `uint32_t` of `epoll_event`. The manager only ever registers `EPOLLIN`,
`EPOLLOUT` and `EPOLLET`.
-/

namespace NetBase

def epollIn : BitVec 32 := 0x001
def epollOut : BitVec 32 := 0x004
def epollErr : BitVec 32 := 0x008
def epollHup : BitVec 32 := 0x010
def epollEt : BitVec 32 := 0x80000000

/-- `IOManager::EventType`. -/
inductive EventType where
  | read | write
  deriving DecidableEq, Repr

namespace EventType

def mask : EventType → BitVec 32
  | .read => epollIn
  | .write => epollOut

/-- The enumerator a value of the enumeration type stands for; it may be any `uint32_t`. -/
def ofMask (type : BitVec 32) : Option EventType :=
  if type = epollIn then some .read else if type = epollOut then some .write else none

/-- The position of the one bit of `mask`. -/
def bit : EventType → Nat
  | .read => 0
  | .write => 2

theorem mask_eq (d : EventType) : d.mask = BitVec.twoPow 32 d.bit := by cases d <;> decide

theorem ofMask_some {type : BitVec 32} {d : EventType} (h : ofMask type = some d) :
    type = d.mask := by
  unfold ofMask at h
  split at h
  · cases h; assumption
  · split at h
    · cases h; assumption
    · cases h

/-- The mask has the bit of `d`. -/
def In (d : EventType) (x : BitVec 32) : Prop := x &&& d.mask ≠ 0

instance (d : EventType) (x : BitVec 32) : Decidable (d.In x) := inferInstanceAs (Decidable (_ ≠ _))

instance {p : EventType → Prop} [DecidablePred p] : Decidable (∀ d, p d) :=
  decidable_of_iff (p .read ∧ p .write)
    ⟨fun h d => by cases d with | read => exact h.1 | write => exact h.2, fun h => ⟨h _, h _⟩⟩

theorem in_iff {d : EventType} {x : BitVec 32} : d.In x ↔ x.getLsbD d.bit = true := by
  rw [In, mask_eq, BitVec.and_twoPow]
  cases d <;> cases x.getLsbD _ <;> simp [bit] <;> decide

@[simp] theorem in_zero (d : EventType) : ¬ d.In 0 := by simp [In]

theorem in_or_mask {d d' : EventType} {x : BitVec 32} :
    d'.In (x ||| d.mask) ↔ d'.In x ∨ d' = d := by
  rw [in_iff, in_iff, mask_eq, BitVec.getLsbD_or, BitVec.getLsbD_twoPow, Bool.or_eq_true]
  cases d <;> cases d' <;> simp [bit]

theorem in_sub_mask {d d' : EventType} {x : BitVec 32} :
    d'.In (x &&& ~~~d.mask) ↔ d'.In x ∧ d' ≠ d := by
  rw [in_iff, in_iff, mask_eq, BitVec.getLsbD_and, BitVec.getLsbD_not, BitVec.getLsbD_twoPow]
  cases d <;> cases d' <;> simp [bit]

end EventType

/-- Both directions, in the order the manager looks at them. -/
def epollBoth : BitVec 32 := epollIn ||| epollOut

structure Epoll where
  interest : Nat → Option (BitVec 32)

namespace Epoll

def put (k : Epoll) (fd : Nat) (m : Option (BitVec 32)) : Epoll where
  interest := Function.update k.interest fd m

def epollAdd (k : Epoll) (fd : Nat) (events : BitVec 32) : Except Fault Epoll :=
  match k.interest fd with
  | none => .ok (k.put fd (some events))
  | some _ => .error .assertFailed

def epollMod (k : Epoll) (fd : Nat) (events : BitVec 32) : Except Fault Epoll :=
  match k.interest fd with
  | some _ => .ok (k.put fd (some events))
  | none => .error .assertFailed

def epollDel (k : Epoll) (fd : Nat) : Except Fault Epoll :=
  match k.interest fd with
  | some _ => .ok (k.put fd none)
  | none => .error .assertFailed

/-- What `close` does to the set. -/
def close (k : Epoll) (fd : Nat) : Epoll := k.put fd none

@[simp] theorem put_self (k : Epoll) (fd : Nat) (m : Option (BitVec 32)) :
    (k.put fd m).interest fd = m := by simp [put]

@[simp] theorem put_other (k : Epoll) {fd g : Nat} (m : Option (BitVec 32)) (h : g ≠ fd) :
    (k.put fd m).interest g = k.interest g := by simp [put, h]

end Epoll

/-- One `epoll_event`, its `data` being the descriptor. -/
structure EpollEvent where
  fd : Nat
  events : BitVec 32
  deriving DecidableEq, Repr

namespace EpollEvent

/-- An error or a hang-up. -/
def Fails (ev : EpollEvent) : Prop := ev.events &&& (epollErr ||| epollHup) ≠ 0

/-- The event queues the executor of the direction. -/
def Hits (ev : EpollEvent) (d : EventType) : Prop :=
  ev.events &&& (d.mask ||| epollErr ||| epollHup) ≠ 0

instance (ev : EpollEvent) : Decidable ev.Fails := inferInstanceAs (Decidable (_ ≠ _))

instance (ev : EpollEvent) (d : EventType) : Decidable (ev.Hits d) :=
  inferInstanceAs (Decidable (_ ≠ _))

theorem hits_iff {ev : EpollEvent} {d : EventType} : ev.Hits d ↔ d.In ev.events ∨ ev.Fails := by
  have hor : ∀ x y : BitVec 32, x ||| y = 0 ↔ x = 0 ∧ y = 0 := fun x y => BitVec.or_eq_zero_iff
  have hsplit : ev.events &&& (d.mask ||| epollErr ||| epollHup) =
      (ev.events &&& d.mask) ||| (ev.events &&& (epollErr ||| epollHup)) := by
    rw [BitVec.or_assoc, BitVec.and_or_distrib_left]
  rw [Hits, Fails, EventType.In, hsplit, ne_eq, hor]
  exact not_and_or

end EpollEvent

/-- What `epoll_wait` may report: at most `epoll_wait_max_size` descriptors, none twice, each
with bits of its interest mask or an error or a hang-up. -/
def Epoll.Reports (k : Epoll) (batch : List EpollEvent) : Prop :=
  batch.length ≤ 64 ∧ (batch.map EpollEvent.fd).Nodup ∧
    ∀ ev ∈ batch, (k.interest ev.fd).any fun m =>
      ev.events &&& ~~~((m &&& ~~~epollEt) ||| epollErr ||| epollHup) = 0

instance (k : Epoll) (batch : List EpollEvent) : Decidable (k.Reports batch) :=
  inferInstanceAs (Decidable (_ ∧ _ ∧ _))

theorem Epoll.Reports.interest {k : Epoll} {batch : List EpollEvent} (h : k.Reports batch)
    {ev : EpollEvent} (he : ev ∈ batch) : ∃ m, k.interest ev.fd = some m ∧
      ev.events &&& ~~~((m &&& ~~~epollEt) ||| epollErr ||| epollHup) = 0 := by
  obtain ⟨m, hm, h0⟩ := (Option.any_eq_true _ _).1 (h.2.2 ev he)
  exact ⟨m, hm, of_decide_eq_true h0⟩

end NetBase
