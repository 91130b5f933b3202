import Mathlib.Algebra.Order.Group.Multiset
import Mathlib.Data.List.Induction
import Mathlib.Order.Defs.LinearOrder
import NetBase.Lib.History

/-!
# Priority queues by their history

What went into a queue and what came out, oldest event first. `waiting h` is what the history `h`
leaves in the queue. A history is right (`Each (Right key due) h`) when everything that came out
was waiting, was due for the reason noted with it, and had the least key of all that waited.

Then elements come out in key order, but for those put in late (`out_order`), and nothing is lost
or duplicated (`balance`).
-/

namespace NetBase.Lib.Prio

variable {α β ω : Type}

inductive Event (α ω : Type)
  | ins (a : α)
  /-- The least element came out, on the grounds of `note`. -/
  | out (note : ω) (a : α)
  /-- Some element was withdrawn. -/
  | dropped (a : α)
  deriving DecidableEq

variable [DecidableEq α]

def Event.queue (w : Multiset α) : Event α ω → Multiset α
  | .ins a => a ::ₘ w
  | .out _ a => w.erase a
  | .dropped a => w.erase a

def waiting (h : List (Event α ω)) : Multiset α := h.foldl Event.queue 0

def Event.inserted : Event α ω → Multiset α
  | .ins a => {a}
  | .out _ _ => 0
  | .dropped _ => 0

def Event.left : Event α ω → Multiset α
  | .ins _ => 0
  | .out _ a => {a}
  | .dropped a => {a}

/-- What may be recorded after `before`. -/
def Right [LE β] (key : α → β) (due : ω → α → Prop) (before : List (Event α ω)) :
    Event α ω → Prop
  | .ins _ => True
  | .out note a => a ∈ waiting before ∧ due note a ∧ ∀ b ∈ waiting before, key a ≤ key b
  | .dropped a => a ∈ waiting before

@[simp] theorem waiting_nil : waiting ([] : List (Event α ω)) = 0 := rfl

@[simp] theorem waiting_snoc (h : List (Event α ω)) (e : Event α ω) :
    waiting (h ++ [e]) = e.queue (waiting h) := by
  simp [waiting]

theorem mem_queue {w : Multiset α} {e : Event α ω} {b : α} (hb : b ∈ e.queue w) :
    b ∈ w ∨ e = .ins b := by
  cases e with
  | ins a =>
    rcases Multiset.mem_cons.1 hb with rfl | hb
    · exact .inr rfl
    · exact .inl hb
  | out note a => exact .inl (Multiset.mem_of_mem_erase hb)
  | dropped a => exact .inl (Multiset.mem_of_mem_erase hb)

/-- What waits now waited before or has been put in since. -/
theorem mem_waiting_append {h k : List (Event α ω)} {b : α} (hb : b ∈ waiting (h ++ k)) :
    b ∈ waiting h ∨ .ins b ∈ k := by
  induction k using List.reverseRecOn with
  | nil => exact .inl (by simpa using hb)
  | append_singleton k e ih =>
    rw [← List.append_assoc, waiting_snoc] at hb
    rcases mem_queue hb with hb | rfl
    · exact (ih hb).imp id fun hk => List.mem_append_left _ hk
    · exact .inr (by simp)

variable [LinearOrder β] {key : α → β} {due : ω → α → Prop} {h : List (Event α ω)}

/-- **Order.** What comes out later has no smaller key, unless it was put in in between. -/
theorem out_order (hr : Each (Right key due) h) {before mid after : List (Event α ω)} {n n' : ω}
    {a b : α} (hs : h = before ++ .out n a :: (mid ++ .out n' b :: after)) :
    key a ≤ key b ∨ .ins b ∈ mid := by
  have ha := hr before _ _ hs
  have hb := hr (before ++ .out n a :: mid) (.out n' b) after (by simp [hs])
  have hw : b ∈ waiting ((before ++ [.out n a]) ++ mid) := by simpa using hb.1
  rcases mem_waiting_append hw with hw | hw
  · rw [waiting_snoc] at hw
    exact .inl (ha.2.2 b (Multiset.mem_of_mem_erase hw))
  · exact .inr hw

/-- **Balance.** What was put in has come out, was withdrawn or waits. -/
theorem balance (hr : Each (Right key due) h) :
    (h.map Event.inserted).sum = (h.map Event.left).sum + waiting h := by
  induction h using List.reverseRecOn with
  | nil => rfl
  | append_singleton h e ih =>
    obtain ⟨hh, he⟩ := each_snoc.1 hr
    rw [List.map_append, List.sum_append, List.map_append, List.sum_append, ih hh, waiting_snoc]
    cases e with
    | ins a =>
      simp only [List.map_singleton, List.sum_singleton, Event.inserted, Event.left, Event.queue,
        add_zero, ← Multiset.singleton_add]
      rw [add_comm ({a} : Multiset α), add_assoc]
    | out note a =>
      simp only [List.map_singleton, List.sum_singleton, Event.inserted, Event.left, Event.queue,
        add_zero, add_assoc, Multiset.singleton_add, Multiset.cons_erase he.1]
    | dropped a =>
      have hmem : a ∈ waiting h := he
      simp only [List.map_singleton, List.sum_singleton, Event.inserted, Event.left, Event.queue,
        add_zero, add_assoc, Multiset.singleton_add, Multiset.cons_erase hmem]

theorem right_ins (hr : Each (Right key due) h) (r : List α) :
    Each (Right key due) (h ++ r.map .ins) ∧
      waiting (h ++ r.map .ins) = waiting h + (↑r : Multiset α) := by
  induction r using List.reverseRecOn with
  | nil => simpa using hr
  | append_singleton r a ih =>
    rw [List.map_append, ← List.append_assoc, List.map_singleton]
    refine ⟨each_snoc.2 ⟨ih.1, trivial⟩, ?_⟩
    rw [waiting_snoc, Event.queue, ih.2, ← Multiset.coe_add, Multiset.coe_singleton,
      ← Multiset.add_cons, ← Multiset.singleton_add, add_comm ({a} : Multiset α)]

/-- The front of the queue, taken in order. -/
theorem right_outs {note : ω} {r rest : List α} (hr : Each (Right key due) h)
    (hw : waiting h = ↑(r ++ rest)) (hsorted : (r ++ rest).Pairwise fun a b => key a ≤ key b)
    (hdue : ∀ a ∈ r, due note a) :
    Each (Right key due) (h ++ r.map (.out note)) ∧ waiting (h ++ r.map (.out note)) = ↑rest := by
  induction r generalizing h with
  | nil => simpa using ⟨hr, hw⟩
  | cons a r ih =>
    rw [List.cons_append, List.pairwise_cons] at hsorted
    have hmem : ∀ b, b ∈ waiting h ↔ b ∈ a :: (r ++ rest) := fun b => by simp [hw]
    have hone : Each (Right key due) (h ++ [.out note a]) := by
      refine each_snoc.2 ⟨hr, (hmem a).2 List.mem_cons_self, hdue a List.mem_cons_self, ?_⟩
      intro b hb
      rcases List.mem_cons.1 ((hmem b).1 hb) with rfl | hb
      · exact le_refl _
      · exact hsorted.1 b hb
    have hleft : waiting (h ++ [.out note a]) = ↑(r ++ rest) := by
      rw [waiting_snoc, Event.queue, hw, List.cons_append, Multiset.coe_erase, List.erase_cons_head]
    have := ih hone hleft hsorted.2 fun b hb => hdue b (List.mem_cons_of_mem _ hb)
    simpa using this

end NetBase.Lib.Prio
