import Mathlib.Tactic.Common

/-!
# Singly linked chains in a heap

`Chain next heap p as`: following `next` from the pointer `p` through `heap` visits
the addresses `as` in order and ends at null. Such a chain is determined by its
start, has no cycle, and depends on the heap at its own addresses only.
-/

namespace NetBase.Lib

variable {A N : Type} (next : N → Option A)

def Chain (heap : A → Option N) : Option A → List A → Prop
  | p, [] => p = none
  | p, a :: as => p = some a ∧ ∃ n, heap a = some n ∧ Chain heap (next n) as

variable {next} {heap heap' : A → Option N}

theorem Chain.nil_inv {as : List A} (h : Chain next heap none as) : as = [] := by
  cases as with
  | nil => rfl
  | cons a as => cases h.1

theorem Chain.some_inv {a : A} {as : List A} (h : Chain next heap (some a) as) :
    ∃ n bs, heap a = some n ∧ as = a :: bs ∧ Chain next heap (next n) bs := by
  cases as with
  | nil => cases h
  | cons b bs =>
    obtain ⟨hb, n, hn, hc⟩ := h
    cases hb
    exact ⟨n, bs, hn, rfl, hc⟩

/-- Frame rule: a chain only reads its own addresses. -/
theorem Chain.congr : ∀ {as : List A} {p : Option A}, Chain next heap p as →
    (∀ a ∈ as, heap' a = heap a) → Chain next heap' p as
  | [], _, h, _ => h
  | a :: _, _, ⟨hp, n, hn, hc⟩, he =>
    ⟨hp, n, (he a List.mem_cons_self).trans hn,
      hc.congr fun b hb => he b (List.mem_cons_of_mem _ hb)⟩

theorem Chain.unique : ∀ {as bs : List A} {p : Option A}, Chain next heap p as →
    Chain next heap p bs → as = bs
  | [], _, _, h, h' => by
    cases h
    exact h'.nil_inv.symm
  | a :: as, bs, _, ⟨hp, n, hn, hc⟩, h' => by
    subst hp
    obtain ⟨m, cs, hm, rfl, hc'⟩ := h'.some_inv
    cases hn.symm.trans hm
    rw [hc.unique hc']

theorem Chain.suffix : ∀ (as : List A) {bs : List A} {p : Option A} {b : A},
    Chain next heap p (as ++ b :: bs) → Chain next heap (some b) (b :: bs)
  | [], _, _, _, h => ⟨rfl, h.2⟩
  | _ :: as, _, _, _, ⟨_, _, _, hc⟩ => Chain.suffix as hc

/-- A chain that reaches null has no cycle. -/
theorem Chain.nodup : ∀ {as : List A} {p : Option A}, Chain next heap p as → as.Nodup
  | [], _, _ => List.nodup_nil
  | a :: as, _, h => by
    refine List.nodup_cons.2 ⟨fun ha => ?_, h.2.choose_spec.2.nodup⟩
    obtain ⟨s, t, rfl⟩ := List.append_of_mem ha
    have h1 : Chain next heap (some a) (a :: (s ++ a :: t)) := ⟨rfl, h.2⟩
    have h2 : Chain next heap (some a) (a :: t) := Chain.suffix (a :: s) h
    have hlen := congrArg List.length (h1.unique h2)
    simp only [List.length_cons, List.length_append] at hlen
    omega

end NetBase.Lib
