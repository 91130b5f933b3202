import Mathlib.Data.List.GetD
import Mathlib.Logic.Function.Basic

/-!
# Memory by place

Memory as a function from places to what they hold, and a range of it that is written from the
left: `written mem o l` has the list `l` from `o` on and is `mem` elsewhere. A store behind the
range makes it longer, and `reverse`, which swaps from both ends as `std::reverse` does, turns the
list around. A `Cursor` is a pointer that moves as it writes.
-/

namespace NetBase.Lib.Memory

variable {α : Type} {mem : Nat → α} {o k : Nat} {l r : List α}

def written (mem : Nat → α) (o : Nat) (l : List α) : Nat → α :=
  fun k => if k < o then mem k else l.getD (k - o) (mem k)

/-- A pointer into memory that is written through. -/
structure Cursor (α : Type) where
  mem : Nat → α
  p : Nat

namespace Cursor

/-- `*p++ = b` -/
def put (c : Cursor α) (b : α) : Cursor α := ⟨Function.update c.mem c.p b, c.p + 1⟩

/-- The pointer behind a list that is written from `o` on. -/
def behind (mem : Nat → α) (o : Nat) (l : List α) : Cursor α := ⟨written mem o l, o + l.length⟩

end Cursor

/-- `std::iter_swap` -/
def swap (mem : Nat → α) (a b : Nat) : Nat → α :=
  Function.update (Function.update mem a (mem b)) b (mem a)

/-- `std::reverse` of the range from `first` to in front of `last` -/
def reverse (mem : Nat → α) (first last : Nat) : Nat → α :=
  if first + 1 < last then reverse (swap mem first (last - 1)) (first + 1) (last - 1) else mem
termination_by last - first

theorem written_nil : written mem o [] = mem := by
  funext k
  simp [written]

theorem written_of_lt (hk : k < o) : written mem o l k = mem k := if_pos hk

theorem written_of_ge (hk : o + l.length ≤ k) : written mem o l k = mem k := by
  rw [written, if_neg (by omega), List.getD_eq_default _ _ (by omega)]

theorem written_add (hk : k < l.length) : written mem o l (o + k) = l[k] := by
  rw [written, if_neg (by omega), Nat.add_sub_cancel_left, List.getD_eq_getElem _ _ hk]

/-- A store right behind the range. -/
theorem update_written (b : α) :
    Function.update (written mem o l) (o + l.length) b = written mem o (l ++ [b]) := by
  funext k
  by_cases hk : k = o + l.length
  · subst hk
    rw [Function.update_self, written_add (by simp), List.getElem_concat_length rfl]
  · rw [Function.update_of_ne hk]
    rcases Nat.lt_or_ge k o with hlt | hge
    · rw [written_of_lt hlt, written_of_lt hlt]
    · obtain ⟨j, rfl⟩ := Nat.exists_eq_add_of_le hge
      rcases Nat.lt_or_ge j l.length with hj | hj
      · rw [written_add hj, written_add (by simp; omega), List.getElem_append_left hj]
      · rw [written_of_ge (by omega), written_of_ge (by simp; omega)]

theorem Cursor.behind_nil : behind mem o [] = ⟨mem, o⟩ := by
  rw [behind, written_nil]
  rfl

theorem Cursor.put_behind (b : α) : (behind mem o l).put b = behind mem o (l ++ [b]) := by
  rw [put, behind, behind, update_written, List.length_append, Nat.add_assoc]
  rfl

/-! ## Turning a range around -/

theorem swap_apply (a b : Nat) :
    swap mem a b k = if k = b then mem a else if k = a then mem b else mem k := by
  unfold swap
  by_cases hb : k = b
  · rw [hb, Function.update_self, if_pos rfl]
  · rw [Function.update_of_ne hb, if_neg hb]
    by_cases ha : k = a
    · rw [ha, Function.update_self, if_pos rfl]
    · rw [Function.update_of_ne ha, if_neg ha]

/-- Every place of the range gets what its mirror image held. By induction on the swaps. -/
theorem reverse_apply (first last : Nat) :
    reverse mem first last k =
      if first ≤ k ∧ k < last then mem (first + last - 1 - k) else mem k := by
  fun_induction reverse mem first last with
  | case1 mem first last h ih =>
    rw [ih]
    by_cases hin : first + 1 ≤ k ∧ k < last - 1
    · rw [if_pos hin, if_pos (by omega), swap_apply, if_neg (by omega), if_neg (by omega)]
      congr 1
      omega
    · rw [if_neg hin, swap_apply]
      split
      · rename_i hk
        rw [if_pos (by omega)]
        congr 1
        omega
      · split
        · rename_i hk
          rw [if_pos (by omega)]
          congr 1
          omega
        · rw [if_neg (by omega)]
  | case2 mem first last h =>
    split
    · congr 1
      omega
    · rfl

/-- The first part of what was written. -/
theorem reverse_written :
    reverse (written mem o (l ++ r)) o (o + l.length) = written mem o (l.reverse ++ r) := by
  funext k
  rw [reverse_apply]
  split
  · rename_i hk
    obtain ⟨j, rfl⟩ := Nat.exists_eq_add_of_le hk.1
    have hj : j < l.length := by omega
    rw [show o + (o + l.length) - 1 - (o + j) = o + (l.length - 1 - j) by omega,
      written_add (by simp; omega), written_add (by simp; omega),
      List.getElem_append_left (by omega), List.getElem_append_left (by simpa using hj),
      List.getElem_reverse]
  · rename_i hk
    unfold written
    split
    · rfl
    · have hge : l.length ≤ k - o := by omega
      rw [List.getD_append_right _ _ _ _ hge, List.getD_append_right _ _ _ _ (by simpa using hge),
        List.length_reverse]

end NetBase.Lib.Memory
