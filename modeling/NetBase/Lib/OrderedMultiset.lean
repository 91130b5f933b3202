import Mathlib.Data.List.Sort
import Mathlib.Tactic.Common

/-!
# Ordered multisets as sorted lists

The behaviour of `std::multiset` with a comparator that looks at a key only.
`insert` puts an element after the elements with the same key. `lowerBound` is the
index of the first element whose key is not below `k`; `equalRange` the elements
whose key is `k`, which sit together in a sorted list. The standard lets `find`
return any of them: `find pick` takes the choice as an argument.
-/

namespace NetBase.Lib.Multi

variable {α β : Type} [LinearOrder β] (key : α → β)

def Sorted (l : List α) : Prop := l.Pairwise fun a b => key a ≤ key b

def insert (a : α) (l : List α) : List α := l.orderedInsert (fun x y => key x < key y) a

def lowerBound (k : β) (l : List α) : Nat := (l.takeWhile fun x => key x < k).length

def equalRange (k : β) (l : List α) : List α := l.filter fun x => key x = k

/-- An index of the equal range of `k`, the `pick`-th one; `none` is `end()`. -/
def find (pick : Nat) (k : β) (l : List α) : Option Nat :=
  let n := (equalRange key k l).length
  if n = 0 then none else some (lowerBound key k l + pick % n)

variable {key}

theorem mem_insert {a b : α} {l : List α} : b ∈ insert key a l ↔ b = a ∨ b ∈ l :=
  List.mem_orderedInsert _

theorem insert_perm (a : α) (l : List α) : (insert key a l).Perm (a :: l) :=
  List.perm_orderedInsert _ a l

theorem insert_sorted (a : α) {l : List α} (h : Sorted key l) : Sorted key (insert key a l) := by
  induction l with
  | nil => simp [insert, Sorted]
  | cons b l ih =>
    obtain ⟨hb, hl⟩ := List.pairwise_cons.1 h
    simp only [insert, List.orderedInsert_cons]
    split
    · rename_i hab
      refine List.pairwise_cons.2 ⟨fun c hc => ?_, h⟩
      rcases List.mem_cons.1 hc with rfl | hc
      · exact hab.le
      · exact hab.le.trans (hb c hc)
    · rename_i hab
      refine List.pairwise_cons.2 ⟨fun c hc => ?_, ih hl⟩
      rcases mem_insert.1 hc with rfl | hc
      · exact not_lt.1 hab
      · exact hb c hc

/-- In a sorted list the elements a downward closed test accepts come first. -/
theorem takeWhile_eq_filter {p : α → Bool} {l : List α} (h : Sorted key l)
    (hp : ∀ a b, key a ≤ key b → p b = true → p a = true) : l.takeWhile p = l.filter p := by
  induction l with
  | nil => rfl
  | cons a l ih =>
    obtain ⟨ha, hl⟩ := List.pairwise_cons.1 h
    by_cases hpa : p a = true
    · rw [List.takeWhile_cons_of_pos hpa, List.filter_cons_of_pos hpa, ih hl]
    · rw [List.takeWhile_cons_of_neg hpa, List.filter_cons_of_neg hpa, eq_comm,
        List.filter_eq_nil_iff]
      exact fun b hb hpb => hpa (hp a b (ha b hb) hpb)

theorem dropWhile_eq_filter {p : α → Bool} {l : List α} (h : Sorted key l)
    (hp : ∀ a b, key a ≤ key b → p b = true → p a = true) :
    l.dropWhile p = l.filter fun a => !p a := by
  induction l with
  | nil => rfl
  | cons a l ih =>
    obtain ⟨ha, hl⟩ := List.pairwise_cons.1 h
    by_cases hpa : p a = true
    · rw [List.dropWhile_cons_of_pos hpa, List.filter_cons_of_neg (by simp [hpa]), ih hl]
    · rw [List.dropWhile_cons_of_neg hpa, eq_comm, List.filter_eq_self]
      rintro b hb
      rcases List.mem_cons.1 hb with rfl | hb
      · simpa using hpa
      · simpa using fun hpb => hpa (hp a b (ha b hb) hpb)

theorem Sorted.filter {l : List α} (h : Sorted key l) (p : α → Bool) : Sorted key (l.filter p) :=
  List.Pairwise.filter p h

theorem lt_closed (k : β) (a b : α) (hab : key a ≤ key b) (hb : decide (key b < k) = true) :
    decide (key a < k) = true := by
  simp only [decide_eq_true_eq] at hb ⊢
  exact hab.trans_lt hb

theorem le_closed (k : β) (a b : α) (hab : key a ≤ key b) (hb : decide (key b ≤ k) = true) :
    decide (key a ≤ k) = true := by
  simp only [decide_eq_true_eq] at hb ⊢
  exact hab.trans hb

/-- A sorted list is the elements below `k`, the equal range of `k`, the elements above `k`. -/
theorem Sorted.split {l : List α} (h : Sorted key l) (k : β) :
    l = (l.filter fun x => key x < k) ++ (equalRange key k l ++ l.filter fun x => k < key x) := by
  have h1 : l = (l.takeWhile fun x => key x < k) ++ l.dropWhile fun x => key x < k :=
    List.takeWhile_append_dropWhile.symm
  rw [takeWhile_eq_filter h (lt_closed k), dropWhile_eq_filter h (lt_closed k)] at h1
  have h2 : (l.filter fun x => !decide (key x < k)) =
      equalRange key k l ++ l.filter fun x => k < key x := by
    set m := l.filter fun x => !decide (key x < k) with hm
    have hs : Sorted key m := h.filter _
    have h3 : m = (m.takeWhile fun x => key x ≤ k) ++ m.dropWhile fun x => key x ≤ k :=
      List.takeWhile_append_dropWhile.symm
    rw [takeWhile_eq_filter hs (le_closed k), dropWhile_eq_filter hs (le_closed k)] at h3
    rw [h3, hm, List.filter_filter, List.filter_filter, equalRange]
    congr 1
    · apply List.filter_congr
      intro x _
      rcases lt_trichotomy (key x) k with hx | hx | hx
      · simp [hx, hx.ne]
      · simp [hx]
      · simp [hx.not_ge, hx.ne']
    · apply List.filter_congr
      intro x _
      by_cases hx : k < key x
      · simp [hx, hx.le]
      · simp [hx, not_lt.1 hx]
  rw [← h2]
  exact h1

/-- `l` is the multiset with the elements of `p` put in in the order of `p`: sorted, and
elements with equal keys in the order they came. -/
structure Stable (key : α → β) (l p : List α) : Prop where
  sorted : Sorted key l
  equal : ∀ k, equalRange key k l = equalRange key k p

theorem stable_nil : Stable key [] [] := ⟨List.Pairwise.nil, fun _ => rfl⟩

theorem equalRange_insert {a : α} {l : List α} (h : Sorted key l) (k : β) :
    equalRange key k (insert key a l) = equalRange key k l ++ equalRange key k [a] := by
  induction l with
  | nil => rfl
  | cons b l ih =>
    obtain ⟨hb, hl⟩ := List.pairwise_cons.1 h
    simp only [insert, List.orderedInsert_cons]
    split
    · rename_i hab
      -- `a` goes in front of larger keys only
      have hnone : key a = k → equalRange key k (b :: l) = [] := by
        rintro rfl
        apply List.filter_eq_nil_iff.2
        intro c hc
        have hbc : key b ≤ key c := by
          rcases List.mem_cons.1 hc with rfl | hc
          · exact le_rfl
          · exact hb c hc
        simpa using (hab.trans_le hbc).ne'
      by_cases hk : key a = k
      · rw [hnone hk]
        simp only [equalRange] at hnone ⊢
        rw [List.filter_cons_of_pos (by simpa using hk), hnone hk]
        simp [hk]
      · simp [equalRange, hk]
    · have hrec := ih hl
      simp only [equalRange, insert] at hrec ⊢
      rw [List.filter_cons, List.filter_cons, hrec]
      split <;> rfl

/-- An element the test rejects does not show among the others. -/
theorem filter_insert_of_neg {p : α → Bool} {a : α} {l : List α} (ha : p a = false) :
    (insert key a l).filter p = l.filter p := by
  induction l with
  | nil => simp [insert, ha]
  | cons b l ih =>
    simp only [insert, List.orderedInsert_cons] at ih ⊢
    split
    · rw [List.filter_cons_of_neg (by simp [ha])]
    · rw [List.filter_cons, List.filter_cons, ih]

theorem filter_insert_of_pos {p : α → Bool} {a : α} {l : List α} (h : Sorted key l)
    (ha : p a = true) : (insert key a l).filter p = insert key a (l.filter p) := by
  induction l with
  | nil => simp [insert, ha]
  | cons b l ih =>
    obtain ⟨hb, hl⟩ := List.pairwise_cons.1 h
    have hrec := ih hl
    simp only [insert, List.orderedInsert_cons] at hrec ⊢
    split
    · rename_i hab
      -- everything from `b` on has a larger key than `a`
      rw [List.filter_cons_of_pos ha]
      cases hf : (b :: l).filter p with
      | nil => rfl
      | cons c cs =>
        have hc : c ∈ b :: l := (List.mem_filter.1 (hf ▸ List.mem_cons_self)).1
        have hbc : key b ≤ key c := by
          rcases List.mem_cons.1 hc with rfl | hc
          · exact le_rfl
          · exact hb c hc
        rw [List.orderedInsert_cons, if_pos (hab.trans_le hbc)]
    · rename_i hab
      by_cases hpb : p b = true
      · rw [List.filter_cons_of_pos hpb, List.filter_cons_of_pos hpb, hrec,
          List.orderedInsert_cons, if_neg hab]
      · rw [List.filter_cons_of_neg hpb, List.filter_cons_of_neg hpb, hrec]

theorem Stable.insert {l p : List α} (h : Stable key l p) (a : α) :
    Stable key (insert key a l) (p ++ [a]) where
  sorted := insert_sorted a h.sorted
  equal k := by
    rw [equalRange_insert h.sorted, h.equal k]
    exact (List.filter_append p [a]).symm

theorem Stable.filter {l p : List α} (h : Stable key l p) (q : α → Bool) :
    Stable key (l.filter q) (p.filter q) where
  sorted := h.sorted.filter q
  equal k := by
    have := congrArg (List.filter q) (h.equal k)
    simp only [equalRange, List.filter_filter] at this ⊢
    rw [List.filter_congr (fun x _ => Bool.and_comm _ _), this]
    exact List.filter_congr fun x _ => Bool.and_comm _ _

theorem Stable.count_eq [DecidableEq α] {l p : List α} (h : Stable key l p) (a : α) :
    l.count a = p.count a := by
  have hc : ∀ m : List α, (equalRange key (key a) m).count a = m.count a := fun m =>
    List.count_filter (by simp)
  rw [← hc l, h.equal, hc p]

theorem lowerBound_eq {l : List α} (h : Sorted key l) (k : β) :
    lowerBound key k l = (l.filter fun x => key x < k).length := by
  rw [lowerBound, takeWhile_eq_filter h (lt_closed k)]

/-- `find` hits an element of the equal range, and erasing it takes that element out of
the equal range only. -/
theorem find_some {l : List α} (h : Sorted key l) {pick : Nat} {k : β} {i : Nat}
    (hf : find key pick k l = some i) :
    ∃ j x, j = pick % (equalRange key k l).length ∧ (equalRange key k l)[j]? = some x ∧
      l[i]? = some x ∧ l.eraseIdx i = (l.filter fun y => key y < k) ++
        ((equalRange key k l).eraseIdx j ++ l.filter fun y => k < key y) := by
  simp only [find] at hf
  split at hf
  · cases hf
  · rename_i hn
    have hj : pick % (equalRange key k l).length < (equalRange key k l).length :=
      Nat.mod_lt _ (Nat.pos_of_ne_zero hn)
    obtain rfl := Option.some.inj hf
    refine ⟨_, _, rfl, List.getElem?_eq_getElem hj, ?_, ?_⟩
    · refine (congrArg (·[_]?) (h.split k)).trans ?_
      rw [lowerBound_eq h, List.getElem?_append_right (by omega), Nat.add_sub_cancel_left,
        List.getElem?_append_left hj, List.getElem?_eq_getElem hj]
    · refine (congrArg (List.eraseIdx · _) (h.split k)).trans ?_
      rw [lowerBound_eq h, List.eraseIdx_append_of_length_le (by omega), Nat.add_sub_cancel_left,
        List.eraseIdx_append_of_lt_length hj]

end NetBase.Lib.Multi
