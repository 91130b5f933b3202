import Mathlib.Data.List.TakeWhile
import NetBase.Logging.PatternWrite

/-!
# What a pattern is read as

`logPatternParse` on every string, well-formed or not. The two loops of the source are told apart:
`lex` cuts the string into characters of text, specifiers and `%` signs whose brace stays open, and
`emit` turns these into entries, keeping a pending literal. `parse_eq` says that the outer loop is
`emit` after `lex`.
-/

namespace NetBase.Logging.Pattern

/-- What the outer loop meets. A doubled `%` is text, one `%` at a time. -/
inductive Token where
  | text (c : Char)
  | specifier (key fmt : List Char) (width : Nat)
  | unclosed
  deriving DecidableEq, Repr

/-- The key and the format behind a `%`, and how far they reach; nothing where a brace stays
open. -/
def specifier? (v : List Char) : Option (List Char × List Char × Nat) :=
  let key := v.takeWhile keyChar
  match v.dropWhile keyChar with
  | [] => some (key, [], key.length)
  | c :: rest =>
    if c ≠ '\x7b' then some (key, [], key.length)
    else if '\x7d' ∈ rest then
      let fmt := rest.takeWhile (· ≠ '\x7d')
      some (key, fmt, key.length + 1 + fmt.length + 1)
    else none

/-- The first token of `c :: v`. -/
def token (c : Char) (v : List Char) : Token :=
  if c ≠ '%' then .text c
  else if v.head? = some '%' then .text '%'
  else
    match specifier? v with
    | some (key, fmt, n) => .specifier key fmt n
    | none => .unclosed

/-- What is left behind the first token. -/
def Token.rest (v : List Char) : Token → List Char
  | specifier _ _ n => v.drop n
  | _ => v

theorem Token.rest_length_le (v : List Char) (t : Token) : (t.rest v).length ≤ v.length := by
  cases t with
  | text c => exact Nat.le_refl _
  | unclosed => exact Nat.le_refl _
  | specifier key fmt n =>
    rw [Token.rest, List.length_drop]
    omega

def lex : List Char → List Token
  | [] => []
  | c :: v =>
    have := Token.rest_length_le v (token c v)
    token c v :: lex ((token c v).rest v)
termination_by s => s.length

/-- The entry of an open brace. -/
def patternError : PatternEntry := ⟨"<<pattern_error>>", "", false⟩

/-- The entries of some tokens, with the text pending in front of them. An open brace does not
end a literal. -/
def emit : List Char → List Token → List PatternEntry
  | nstr, [] => literal nstr
  | nstr, .text c :: ts => emit (nstr ++ [c]) ts
  | nstr, .specifier key fmt _ :: ts =>
    literal nstr ++ ⟨String.ofList key, String.ofList fmt, true⟩ :: emit [] ts
  | nstr, .unclosed :: ts => patternError :: emit nstr ts

/-! ## The inner loop -/

section

variable {s v : List Char} {i n fmtBegin : Nat} {str : List Char}

/-- An open brace is never closed. -/
theorem scan_unclosed {f : List Char} (h : s.drop n = f) (hf : '\x7d' ∉ f) :
    (scan s i n true fmtBegin str []).fmtStatus = true ∧
      (scan s i n true fmtBegin str []).fmt = [] := by
  induction f generalizing n str with
  | nil =>
    have hn : ¬ n < s.length := Nat.not_lt.2 (List.drop_eq_nil_iff.1 h)
    rw [scan, dif_neg hn]
    exact ⟨rfl, rfl⟩
  | cons c f ih =>
    rw [List.mem_cons, not_or] at hf
    have hn := lt_of_drop h
    have hg := get_of_drop h hn
    rw [scan]
    simp only [hn, hg, Ne.symm hf.1, Bool.not_true, Bool.false_eq_true, false_and, and_false,
      ↓reduceDIte, if_false]
    exact ih (drop_succ h) hf.2

/-- The key and the format up to the closing brace, key by key and brace by brace. -/
theorem scan_of_format {key fmt rest : List Char} (hk : ∀ c ∈ key, keyChar c) (hf : '\x7d' ∉ fmt)
    (h : s.drop (i + 1) = key ++ '\x7b' :: (fmt ++ '\x7d' :: rest)) :
    scan s i (i + 1) false 0 [] [] =
      ⟨i + 1 + (key.length + 1 + fmt.length + 1), false, key, fmt⟩ := by
  have h1 := drop_add h
  have h2 := drop_succ h1
  rw [scan_key hk h (List.cons_ne_nil _ _), scan_open h1,
    show i + 1 + key.length - i - 1 = key.length by omega, substr_of_drop h, scan_fmt hf h2,
    show i + 1 + key.length + 1 + fmt.length - (i + 1 + key.length) - 1 = fmt.length by omega,
    substr_of_drop h2]
  congr 1
  omega

/-- A key without braces. -/
theorem scan_of_key {key rest : List Char} (hk : ∀ c ∈ key, keyChar c)
    (hr : ∀ c ∈ rest.head?, Item.EndsKey c) (h : s.drop (i + 1) = key ++ rest) :
    scan s i (i + 1) false 0 [] [] = ⟨i + 1 + key.length, false, key, []⟩ := by
  cases rest with
  | nil =>
    rw [List.append_nil] at h
    by_cases hne : key = []
    · subst hne
      rw [scan, dif_neg (Nat.not_lt.2 (List.drop_eq_nil_iff.1 h))]
      rfl
    · rw [scan_key_end hk h hne, h]
  | cons c rest =>
    rw [scan_key hk h (List.cons_ne_nil c rest), scan_stop (drop_add h) (hr c rfl),
      show i + 1 + key.length - i - 1 = key.length by omega, substr_of_drop h]

theorem takeWhile_keyChar (v : List Char) : ∀ c ∈ v.takeWhile keyChar, keyChar c :=
  fun _ hc => List.mem_takeWhile_imp hc

theorem keyChar_head_dropWhile {c : Char} {rest : List Char}
    (h : v.dropWhile keyChar = c :: rest) : keyChar c = false := by
  have hn := List.head?_dropWhile_not keyChar v
  rw [h] at hn
  simpa using hn

theorem endsKey_of_keyChar {c : Char} (h : keyChar c = false) (hb : c ≠ '\x7b') :
    Item.EndsKey c := by
  rw [keyChar, Bool.or_eq_false_iff, beq_eq_false_iff_ne] at h
  exact ⟨by simp [h.1], hb, h.2⟩

/-- `rest` goes on behind its first closing brace. -/
theorem split_at_brace {rest : List Char} (h : '\x7d' ∈ rest) :
    '\x7d' ∉ rest.takeWhile (· ≠ '\x7d') ∧
      ∃ tail, rest = rest.takeWhile (· ≠ '\x7d') ++ '\x7d' :: tail := by
  constructor
  · intro hm
    simpa using List.mem_takeWhile_imp hm
  · have hsplit := (List.takeWhile_append_dropWhile (p := (· ≠ '\x7d')) (l := rest)).symm
    cases hd : rest.dropWhile (· ≠ '\x7d') with
    | nil => simpa using List.dropWhile_eq_nil_iff.1 hd _ h
    | cons c tail =>
      have hc := List.head?_dropWhile_not (· ≠ '\x7d') rest
      rw [hd] at hc hsplit
      obtain rfl : c = '\x7d' := by simpa using hc
      exact ⟨tail, hsplit⟩

/-- The inner loop reads the specifier behind the `%`, if there is one. -/
theorem scan_eq (h : s.drop (i + 1) = v) :
    match specifier? v with
    | some (key, fmt, k) => scan s i (i + 1) false 0 [] [] = ⟨i + 1 + k, false, key, fmt⟩
    | none => (scan s i (i + 1) false 0 [] []).fmtStatus = true ∧
        (scan s i (i + 1) false 0 [] []).fmt = [] := by
  have hk := takeWhile_keyChar v
  rw [← List.takeWhile_append_dropWhile (p := keyChar) (l := v)] at h
  unfold specifier?
  cases hd : v.dropWhile keyChar with
  | nil =>
    rw [hd] at h
    exact scan_of_key hk (by simp) h
  | cons c rest =>
    rw [hd] at h
    by_cases hb : c = '\x7b'
    · subst hb
      by_cases hm : '\x7d' ∈ rest
      · obtain ⟨hf, tail, hrest⟩ := split_at_brace hm
        simp only [ne_eq, not_true_eq_false, if_false, if_pos hm]
        exact scan_of_format hk hf (h.trans (by rw [← hrest]))
      · simp only [ne_eq, not_true_eq_false, if_false, if_neg hm]
        have h1 := drop_add h
        rw [scan_key hk h (List.cons_ne_nil _ _), scan_open h1]
        exact scan_unclosed (drop_succ h1) hm
    · simp only [ne_eq, hb, not_false_eq_true, if_true]
      refine scan_of_key hk (fun d hd' => ?_) h
      obtain rfl : c = d := by simpa using hd'
      exact endsKey_of_keyChar (keyChar_head_dropWhile hd) hb

end

/-! ## The outer loop -/

section

variable {v : List Char}

theorem token_text {c : Char} (h : c ≠ '%') : token c v = .text c := if_pos h

theorem token_escape (h : v.head? = some '%') : token '%' v = .text '%' := by
  rw [token, if_neg (fun he => he rfl), if_pos h]

theorem token_specifier {key fmt : List Char} {k : Nat} (h : v.head? ≠ some '%')
    (hs : specifier? v = some (key, fmt, k)) : token '%' v = .specifier key fmt k := by
  rw [token, if_neg (fun he => he rfl), if_neg h, hs]

theorem token_unclosed (h : v.head? ≠ some '%') (hs : specifier? v = none) :
    token '%' v = .unclosed := by
  rw [token, if_neg (fun he => he rfl), if_neg h, hs]

end

theorem lex_cons (c : Char) (v : List Char) :
    lex (c :: v) = token c v :: lex ((token c v).rest v) := by
  rw [lex]

/-- The outer loop emits the tokens of what is left of the string. By induction on the length of
that rest; the scan of a specifier is `scan_eq`. -/
theorem parse_eq {s v : List Char} {i : Nat} (h : s.drop i = v) (nstr : List Char)
    (vec : List PatternEntry) : parse s i nstr vec = vec ++ emit nstr (lex v) := by
  induction hl : v.length using Nat.strong_induction_on generalizing v i nstr vec with
  | _ n ih =>
    cases v with
    | nil =>
      rw [parse, dif_neg (Nat.not_lt.2 (List.drop_eq_nil_iff.1 h)), lex]
      rfl
    | cons c v =>
      have hn := lt_of_drop h
      have h1 := drop_succ h
      rw [List.length_cons] at hl
      rw [parse, dif_pos hn, get_of_drop h hn, lex_cons]
      by_cases hc : c = '%'
      · subst hc
        have hnext : s[i + 1]? = v.head? := by rw [← h1, List.head?_drop]
        rw [if_neg (fun he => he rfl), hnext]
        by_cases hp : v.head? = some '%'
        · rw [if_pos hp, ih v.length (by omega) h1 _ _ rfl, token_escape hp]
          rfl
        · have hs := scan_eq h1
          rw [if_neg hp]
          cases hsp : specifier? v with
          | none =>
            rw [hsp] at hs
            simp only [hs.1, hs.2, if_true]
            rw [ih v.length (by omega) h1 _ _ rfl, token_unclosed hp hsp, List.append_assoc]
            rfl
          | some r =>
            obtain ⟨key, fmt, k⟩ := r
            rw [hsp] at hs
            have h2 : s.drop (i + 1 + k) = v.drop k := by rw [← List.drop_drop, h1]
            have hlt : (v.drop k).length < n := by
              rw [List.length_drop]
              omega
            simp only [hs, Bool.false_eq_true, if_false]
            rw [ih _ hlt h2 _ _ rfl, token_specifier hp hsp, List.append_assoc, List.append_assoc]
            rfl
      · rw [if_pos hc, ih v.length (by omega) h1 _ _ rfl, token_text hc]
        rfl

theorem logPatternParse_eq (pattern : String) :
    logPatternParse pattern = emit [] (lex pattern.toList) := by
  rw [logPatternParse, parse_eq rfl, List.drop_zero, List.nil_append]

end NetBase.Logging.Pattern
