import NetBase.Base.StringPiece

/-!
# Splitting by a word

`splitStringPiece` against the pieces a string has between the occurrences of a word, each looked
for behind the one before. The loop goes on one character behind an occurrence and takes the length
of the word, less one, from the piece in front of it: both are right for a word of one character.
`split_by_word_iff` says that for a longer one they are wrong wherever it occurs.
-/

namespace NetBase

variable {α : Type} [DecidableEq α]

/-- The pieces between the leftmost occurrences of `world` that do not overlap, from `index` on,
without an empty one at the end. -/
def splitWords (str world : List α) (index : Nat) : List StringPiece :=
  if _h : index < str.length ∧ 0 < world.length then
    match hf : StringPiece.find str world index with
    | some current =>
      have := StringPiece.find_ge hf
      ⟨index, current - index⟩ :: splitWords str world (current + world.length)
    | none => [⟨index, str.length - index⟩]
  else []
termination_by str.length - index

/-- No subtraction of the loop goes below zero: `current - index - world.size()`, turn by turn. -/
def LengthsFit (str world : List α) (index : Nat) : Prop :=
  if index < str.length then
    match hf : StringPiece.find str world index with
    | some current =>
      have := StringPiece.find_ge hf
      world.length ≤ current - index ∧ LengthsFit str world (current + 1)
    | none => True
  else True
termination_by str.length - index

/-- The pieces are those of the string, and lie in it. -/
def SplitsRight (str world : List α) : Prop :=
  splitStringPiece str world = splitWords str world 0 ∧
    ∀ p ∈ splitStringPiece str world, p.data + p.size ≤ str.length

/-! ## Occurrences -/

namespace StringPiece

theorem find_eq_some_iff {s w : List α} {pos i : Nat} :
    find s w pos = some i ↔
      w <+: s.drop i ∧ (pos ≤ i ∧ i ≤ s.length) ∧ ∀ j, pos ≤ j → j < i → ¬ w <+: s.drop j := by
  rw [find, List.find?_range'_eq_some, List.mem_range'_1]
  simp only [List.isPrefixOf_iff_prefix, Bool.not_eq_true', ← Bool.not_eq_true]
  constructor
  · rintro ⟨h1, h2, h3⟩
    exact ⟨h1, ⟨h2.1, by omega⟩, h3⟩
  · rintro ⟨h1, h2, h3⟩
    exact ⟨h1, ⟨h2.1, by omega⟩, h3⟩

theorem find_eq_none_iff {s w : List α} {pos : Nat} :
    find s w pos = none ↔ ∀ i, pos ≤ i → i ≤ s.length → ¬ w <+: s.drop i := by
  rw [find, List.find?_range'_eq_none]
  simp only [← List.isPrefixOf_iff_prefix, Bool.not_eq_true', ← Bool.not_eq_true]
  constructor
  · intro h i h1 h2
    exact h i h1 (by omega)
  · intro h i h1 h2
    exact h i h1 (by omega)

/-- The word is not found from the beginning exactly when it does not occur. -/
theorem find_zero_eq_none_iff {s w : List α} : find s w 0 = none ↔ ¬ w <:+: s := by
  rw [find_eq_none_iff, List.infix_iff_prefix_suffix]
  constructor
  · rintro h ⟨t, hw, ht⟩
    obtain ⟨u, rfl⟩ := ht
    exact h u.length (Nat.zero_le _) (by simp) (by simpa using hw)
  · intro h i _ _ hw
    exact h ⟨s.drop i, hw, List.drop_suffix i s⟩

/-- A word that is there has its length. -/
theorem length_of_find {s w : List α} {pos i : Nat} (h : find s w pos = some i) :
    i + w.length ≤ s.length := by
  obtain ⟨hw, ⟨-, hi⟩, -⟩ := find_eq_some_iff.1 h
  have := hw.length_le
  rw [List.length_drop] at this
  omega

end StringPiece

/-! ## The two loops -/

section

variable {str world : List α} {index current : Nat}

/-- A turn of the loop, by what is found. -/
theorem splitLoop_eq (index : Nat) : splitLoop str world index =
    if index < str.length then
      match StringPiece.find str world index with
      | some current =>
        ⟨index, sizeAdd (sizeSub (sizeSub current index) world.length) 1⟩ ::
          splitLoop str world (current + 1)
      | none => [⟨index, str.length - index⟩]
    else [] := by
  rw [splitLoop]
  split
  · split <;> simp_all
  · rfl

theorem splitLoop_some (h : index < str.length)
    (hf : StringPiece.find str world index = some current) :
    splitLoop str world index =
      ⟨index, sizeAdd (sizeSub (sizeSub current index) world.length) 1⟩ ::
        splitLoop str world (current + 1) := by
  rw [splitLoop_eq, if_pos h, hf]

theorem splitLoop_none (h : index < str.length)
    (hf : StringPiece.find str world index = none) :
    splitLoop str world index = [⟨index, str.length - index⟩] := by
  rw [splitLoop_eq, if_pos h, hf]

theorem splitLoop_end (h : ¬ index < str.length) : splitLoop str world index = [] := by
  rw [splitLoop_eq, if_neg h]

theorem splitWords_eq (hw : 0 < world.length) (index : Nat) : splitWords str world index =
    if index < str.length then
      match StringPiece.find str world index with
      | some current =>
        ⟨index, current - index⟩ :: splitWords str world (current + world.length)
      | none => [⟨index, str.length - index⟩]
    else [] := by
  rw [splitWords]
  by_cases h : index < str.length
  · rw [dif_pos ⟨h, hw⟩, if_pos h]
    split <;> simp_all
  · rw [dif_neg (fun hc => h hc.1), if_neg h]

theorem splitWords_some (h : index < str.length) (hw : 0 < world.length)
    (hf : StringPiece.find str world index = some current) :
    splitWords str world index =
      ⟨index, current - index⟩ :: splitWords str world (current + world.length) := by
  rw [splitWords_eq hw, if_pos h, hf]

theorem splitWords_none (h : index < str.length) (hw : 0 < world.length)
    (hf : StringPiece.find str world index = none) :
    splitWords str world index = [⟨index, str.length - index⟩] := by
  rw [splitWords_eq hw, if_pos h, hf]

theorem splitWords_end (hw : 0 < world.length) (h : ¬ index < str.length) :
    splitWords str world index = [] := by
  rw [splitWords_eq hw, if_neg h]

theorem lengthsFit_eq (index : Nat) : LengthsFit str world index ↔
    (index < str.length → match StringPiece.find str world index with
      | some current => world.length ≤ current - index ∧ LengthsFit str world (current + 1)
      | none => True) := by
  rw [LengthsFit]
  split
  case isTrue h => split <;> simp_all
  case isFalse h => exact iff_of_true trivial fun hlt => absurd hlt h

theorem lengthsFit_some (h : index < str.length)
    (hf : StringPiece.find str world index = some current) :
    LengthsFit str world index ↔
      world.length ≤ current - index ∧ LengthsFit str world (current + 1) := by
  rw [lengthsFit_eq, hf]
  exact forall_prop_of_true h

theorem lengthsFit_none (hf : StringPiece.find str world index = none) :
    LengthsFit str world index := by
  rw [lengthsFit_eq, hf]
  exact fun _ => trivial

theorem lengthsFit_end (h : ¬ index < str.length) : LengthsFit str world index := by
  rw [lengthsFit_eq]
  exact fun hlt => absurd hlt h

/-- The pieces lie in the string. -/
theorem splitWords_within {p : StringPiece} (h : p ∈ splitWords str world index) :
    p.data + p.size ≤ str.length := by
  fun_induction splitWords str world index with
  | case1 index hc current hf hge ih =>
    have := StringPiece.length_of_find hf
    rcases List.mem_cons.1 h with rfl | h
    · show index + (current - index) ≤ str.length
      omega
    · exact ih h
  | case2 index hc hf =>
    cases List.mem_singleton.1 h
    show index + (str.length - index) ≤ str.length
    omega
  | case3 => cases h

/-! ## Words of one character -/

theorem size_of_one (hle : index ≤ current) (hc : current < 0x10000000000000000) :
    sizeAdd (sizeSub (sizeSub current index) 1) 1 = current - index := by
  unfold sizeAdd sizeSub
  omega

theorem splitLoop_one {c : α} (hs : str.length < 0x10000000000000000) :
    splitLoop str [c] index = splitWords str [c] index := by
  fun_induction splitWords str [c] index with
  | case1 index hc current hf hge ih =>
    have hlen := StringPiece.length_of_find hf
    rw [splitLoop_some hc.1 hf, List.length_singleton, size_of_one hge (by omega)]
    exact congrArg (List.cons _) ih
  | case2 index hc hf => exact splitLoop_none hc.1 hf
  | case3 index hc => exact splitLoop_end fun h => hc ⟨h, Nat.one_pos⟩

/-- Below zero it goes where a piece is empty. -/
theorem lengthsFit_one_iff {c : α} :
    LengthsFit str [c] index ↔ ∀ p ∈ splitWords str [c] index, 0 < p.size := by
  fun_induction splitWords str [c] index with
  | case1 index hc current hf hge ih =>
    rw [lengthsFit_some hc.1 hf, List.forall_mem_cons]
    exact and_congr Iff.rfl ih
  | case2 index hc hf =>
    refine iff_of_true (lengthsFit_none hf) fun p hp => ?_
    cases List.mem_singleton.1 hp
    show 0 < str.length - index
    omega
  | case3 index hc =>
    exact iff_of_true (lengthsFit_end fun h => hc ⟨h, Nat.one_pos⟩) (by simp)

end

/-! ## Longer words -/

section

variable {str world : List α}

theorem splitStringPiece_of_ne (hne : world ≠ []) :
    splitStringPiece str world = splitLoop str world 0 :=
  if_neg (by simpa using hne)

/-- A word that does not occur leaves the string whole. -/
theorem splitsRight_of_not_infix (hne : world ≠ []) (h : ¬ world <:+: str) :
    SplitsRight str world ∧ LengthsFit str world 0 := by
  have hf := StringPiece.find_zero_eq_none_iff.2 h
  have hw : 0 < world.length := List.length_pos_iff.2 hne
  have heq : splitStringPiece str world = splitWords str world 0 := by
    rw [splitStringPiece_of_ne hne]
    by_cases hs : 0 < str.length
    · rw [splitLoop_none hs hf, splitWords_none hs hw hf]
    · rw [splitLoop_end hs, splitWords_end hw hs]
  exact ⟨⟨heq, fun p hp => splitWords_within (heq ▸ hp)⟩, lengthsFit_none hf⟩

theorem splitsRight_one {c : α} (hs : str.length < 0x10000000000000000) :
    SplitsRight str [c] := by
  have heq : splitStringPiece str [c] = splitWords str [c] 0 := splitLoop_one hs
  exact ⟨heq, fun p hp => splitWords_within (heq ▸ hp)⟩

/-- In front of the first occurrence the piece is too short, or wraps around. -/
theorem not_splitsRight (hlong : 2 ≤ world.length) (hw : world.length < 0x10000000000000000)
    (hs : str.length < 0x10000000000000000) (h : world <:+: str) : ¬ SplitsRight str world := by
  rintro ⟨heq, -⟩
  have hne : world ≠ [] := List.ne_nil_of_length_pos (by omega)
  obtain ⟨current, hf⟩ : ∃ current, StringPiece.find str world 0 = some current := by
    rw [← Option.ne_none_iff_exists']
    exact fun hnone => StringPiece.find_zero_eq_none_iff.1 hnone h
  have hlen := StringPiece.length_of_find hf
  rw [splitStringPiece_of_ne hne, splitLoop_some (by omega) hf,
    splitWords_some (by omega) (by omega) hf] at heq
  have hsize : sizeAdd (sizeSub (sizeSub current 0) world.length) 1 = current - 0 :=
    congrArg StringPiece.size (List.cons.inj heq).1
  unfold sizeAdd sizeSub at hsize
  omega

/-- **Splitting by a word.** The pieces are right exactly when the word has one character or does
not occur. That no subtraction goes below zero on the way, either, is so exactly when moreover no
piece is empty, or the word does not occur. -/
theorem split_by_word_iff (hne : world ≠ []) (hw : world.length < 0x10000000000000000)
    (hs : str.length < 0x10000000000000000) :
    (SplitsRight str world ↔ world.length = 1 ∨ ¬ world <:+: str) ∧
      (SplitsRight str world ∧ LengthsFit str world 0 ↔
        (world.length = 1 ∧ ∀ p ∈ splitWords str world 0, 0 < p.size) ∨ ¬ world <:+: str) := by
  by_cases h : world <:+: str
  · simp only [h, not_true_eq_false, or_false]
    by_cases hone : world.length = 1
    · obtain ⟨c, rfl⟩ := List.length_eq_one_iff.1 hone
      have hright : SplitsRight str [c] := splitsRight_one hs
      exact ⟨iff_of_true hright hone, by rw [and_iff_right hright, and_iff_right hone,
        lengthsFit_one_iff]⟩
    · have hpos := List.length_pos_iff.2 hne
      have hwrong := not_splitsRight (by omega) hw hs h
      exact ⟨iff_of_false hwrong hone, iff_of_false (fun hr => hwrong hr.1) fun hr => hone hr.1⟩
  · obtain ⟨hright, hfit⟩ := splitsRight_of_not_infix hne h
    exact ⟨iff_of_true hright (.inr h), iff_of_true ⟨hright, hfit⟩ (.inr h)⟩

/-- A character between two others, and a word that is not there. -/
theorem split_by_word_right :
    SplitsRight "a.b".toList ".".toList ∧ SplitsRight "a.b".toList "::".toList ∧
      LengthsFit "a.b".toList "::".toList 0 :=
  ⟨(split_by_word_iff (by decide) (by decide) (by decide)).1.2 (.inl rfl),
    (split_by_word_iff (by decide) (by decide) (by decide)).2.2 (.inr (by decide))⟩

/-- `a::b` by `::`: the first piece is empty and the second begins with a colon. At the beginning
of the string the size of a piece wraps around; for one character only on the way. -/
theorem split_by_word_wrong :
    splitStringPiece "a::b".toList "::".toList = [⟨0, 0⟩, ⟨2, 2⟩] ∧
      splitWords "a::b".toList "::".toList 0 = [⟨0, 1⟩, ⟨3, 1⟩] ∧
      splitStringPiece "::b".toList "::".toList = [⟨0, 0xffffffffffffffff⟩, ⟨1, 2⟩] ∧
      ¬ SplitsRight "a::b".toList "::".toList ∧ ¬ LengthsFit ".b".toList ".".toList 0 := by
  have hfind : StringPiece.find ".b".toList ".".toList 0 = some 0 := by decide
  have hcode : splitStringPiece "a::b".toList "::".toList = [⟨0, 0⟩, ⟨2, 2⟩] := by decide +kernel
  have hspec : splitWords "a::b".toList "::".toList 0 = [⟨0, 1⟩, ⟨3, 1⟩] := by decide +kernel
  refine ⟨hcode, hspec, by decide +kernel, ?_, ?_⟩
  · rintro ⟨heq, -⟩
    rw [hcode, hspec] at heq
    cases heq
  · rw [lengthsFit_some (by decide) hfind]
    exact fun h => absurd h.1 (by decide)

end

/-! ## Joined strings -/

/-- `join` of `include/base/lstring.h`: the break stands behind every element but the last. -/
def join (brk : List α) : List (List α) → List α
  | [] => []
  | [x] => x
  | x :: y :: xs => x ++ brk ++ join brk (y :: xs)

section

variable {s l rest : List α} {c : α} {index : Nat}

theorem drop_ge_of_drop {β : Type} {s l : List β} (h : s.drop index = l) {i : Nat}
    (hi : index ≤ i) : s.drop i = l.drop (i - index) := by
  rw [← h, List.drop_drop, Nat.add_sub_cancel' hi]

/-- The first separator behind a piece that has none. -/
theorem find_one_of_drop (hc : c ∉ l) (h : s.drop index = l ++ c :: rest) :
    StringPiece.find s [c] index = some (index + l.length) := by
  have hlen := congrArg List.length h
  rw [List.length_drop, List.length_append, List.length_cons] at hlen
  rw [StringPiece.find_eq_some_iff]
  refine ⟨?_, ⟨by omega, by omega⟩, fun j hj hlt hpre => hc ?_⟩
  · rw [drop_ge_of_drop h (by omega), Nat.add_sub_cancel_left, List.drop_left]
    exact ⟨rest, rfl⟩
  · rw [drop_ge_of_drop h hj, List.drop_append_of_le_length (by omega)] at hpre
    obtain ⟨d, t, hd⟩ : ∃ d t, l.drop (j - index) = d :: t :=
      List.exists_cons_of_ne_nil (by simp; omega)
    rw [hd, List.cons_append, List.cons_prefix_cons] at hpre
    have hmem : d ∈ l.drop (j - index) := hd ▸ List.mem_cons_self
    exact hpre.1 ▸ List.mem_of_mem_drop hmem

theorem find_one_none_of_drop (hc : c ∉ l) (h : s.drop index = l) :
    StringPiece.find s [c] index = none := by
  rw [StringPiece.find_eq_none_iff]
  intro i hi _ hpre
  rw [drop_ge_of_drop h hi] at hpre
  exact hc (List.mem_of_mem_drop (hpre.subset List.mem_cons_self))

/-- Splitting takes apart what was joined, where no element has the separator or is empty. By
induction on the elements; the rest of the string is what is left to be joined. -/
theorem splitWords_join {ls : List (List α)} (hne : ls ≠ []) (hl : ∀ l ∈ ls, l ≠ [] ∧ c ∉ l)
    (h : s.drop index = join [c] ls) :
    (splitWords s [c] index).map (StringPiece.text s) = ls := by
  have hone : 0 < [c].length := Nat.one_pos
  induction ls generalizing index with
  | nil => exact absurd rfl hne
  | cons l ls ih =>
    obtain ⟨⟨hl0, hlc⟩, hls⟩ := List.forall_mem_cons.1 hl
    have hpos := List.length_pos_iff.2 hl0
    cases ls with
    | nil =>
      have hlen := congrArg List.length h
      rw [join, List.length_drop] at hlen
      rw [splitWords_none (by omega) hone (find_one_none_of_drop hlc h)]
      show [(s.drop index).take (s.length - index)] = [l]
      rw [h, join, hlen, List.take_length]
    | cons l' ls =>
      have h' : s.drop index = l ++ c :: join [c] (l' :: ls) := by
        rw [h, join, List.append_assoc]
        rfl
      have hlen := congrArg List.length h'
      rw [List.length_drop, List.length_append] at hlen
      have hnext : s.drop (index + l.length + 1) = join [c] (l' :: ls) := by
        rw [drop_ge_of_drop h' (by omega),
          show index + l.length + 1 - index = l.length + 1 by omega, ← List.drop_drop,
          List.drop_left]
        rfl
      rw [splitWords_some (by omega) hone (find_one_of_drop hlc h'), List.map_cons]
      show (s.drop index).take (index + l.length - index) :: _ = _
      rw [h', Nat.add_sub_cancel_left, List.take_left]
      exact congrArg (List.cons l) (ih (List.cons_ne_nil _ _) hls hnext)

end

end NetBase
