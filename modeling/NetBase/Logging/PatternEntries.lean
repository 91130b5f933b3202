import Mathlib.Data.List.Pairwise
import NetBase.Logging.PatternLex

/-!
# The entries of any pattern

What `logPatternParse` makes of patterns nobody checked. Three things one might expect of it do not
hold for every string. A specifier may come without a key, although both loops over the entries
(`Logger::setFormatters` and `logFileNameParse`) assert one; `keyed_iff` says for which patterns.
The second sign of a doubled `%` is read once more (`escape_reads_again`). And a brace that stays
open is reported in front of the text that precedes it; `in_order_iff` says when nothing does.
-/

namespace NetBase.Logging.Pattern

/-! ## Keys -/

/-- The assertion of both loops over the entries: `assert(!str.empty())` at every specifier. -/
def Keyed (entries : List PatternEntry) : Prop :=
  ∀ entry ∈ entries, entry.specifier = true → entry.str ≠ ""

instance (entries : List PatternEntry) : Decidable (Keyed entries) :=
  inferInstanceAs (Decidable (∀ entry ∈ entries, entry.specifier = true → entry.str ≠ ""))

/-- What stands behind the `%` signs that open a specifier: those that are neither in the braces
of another one nor doubled. -/
def openings : List Char → List (List Char)
  | [] => []
  | c :: v =>
    if c ≠ '%' then openings ((token c v).rest v)
    else if v.head? = some '%' then openings ((token c v).rest v)
    else v :: openings ((token c v).rest v)
termination_by s => s.length
decreasing_by all_goals exact Nat.lt_succ_of_le (Token.rest_length_le v (token c v))

/-- A key follows, or a brace that stays open. -/
def KeyFollows : List Char → Prop
  | [] => False
  | c :: rest => keyChar c ∨ (c = '\x7b' ∧ '\x7d' ∉ rest)

/-- The key of a token, where it is a specifier. -/
def Token.HasKey : Token → Prop
  | specifier key _ _ => key ≠ []
  | _ => True

theorem keyed_literal (nstr : List Char) : Keyed (literal nstr) := by
  unfold literal
  split
  · simp [Keyed]
  · simp [Keyed]

theorem keyed_append {es es' : List PatternEntry} :
    Keyed (es ++ es') ↔ Keyed es ∧ Keyed es' := by
  simp only [Keyed, List.forall_mem_append]

theorem keyed_cons {e : PatternEntry} {es : List PatternEntry} :
    Keyed (e :: es) ↔ (e.specifier = true → e.str ≠ "") ∧ Keyed es :=
  List.forall_mem_cons

/-- Only the specifiers matter. -/
theorem keyed_emit (nstr : List Char) (ts : List Token) :
    Keyed (emit nstr ts) ↔ ∀ t ∈ ts, t.HasKey := by
  induction ts generalizing nstr with
  | nil => simp [emit, keyed_literal]
  | cons t ts ih =>
    rw [List.forall_mem_cons]
    cases t with
    | text c =>
      rw [emit, ih]
      simp [Token.HasKey]
    | specifier key fmt n =>
      rw [emit, keyed_append, keyed_cons, ih, and_iff_right (keyed_literal nstr)]
      simp [Token.HasKey]
    | unclosed =>
      rw [emit, keyed_cons, ih]
      simp [Token.HasKey, patternError]

theorem key_of_specifier {v key fmt : List Char} {k : Nat}
    (h : specifier? v = some (key, fmt, k)) : key = v.takeWhile keyChar := by
  unfold specifier? at h
  split at h
  · cases h
    rfl
  · split at h
    · cases h
      rfl
    · split at h
      · cases h
        rfl
      · cases h

/-- A specifier has a key where one follows the `%`. -/
theorem hasKey_iff {v : List Char} (h : v.head? ≠ some '%') :
    (token '%' v).HasKey ↔ KeyFollows v := by
  cases v with
  | nil => simp [token, specifier?, Token.HasKey, KeyFollows]
  | cons c rest =>
    by_cases hc : keyChar c
    · have hk : (token '%' (c :: rest)).HasKey := by
        cases hs : specifier? (c :: rest) with
        | none =>
          rw [token_unclosed h hs]
          trivial
        | some r =>
          obtain ⟨key, fmt, k⟩ := r
          rw [token_specifier h hs, Token.HasKey, key_of_specifier hs,
            List.takeWhile_cons_of_pos hc]
          exact List.cons_ne_nil _ _
      exact iff_of_true hk (.inl hc)
    · have hs : specifier? (c :: rest) =
          if c ≠ '\x7b' then some ([], [], 0)
          else if '\x7d' ∈ rest then
            some ([], rest.takeWhile (· ≠ '\x7d'), 0 + 1 + (rest.takeWhile (· ≠ '\x7d')).length + 1)
          else none := by
        simp only [specifier?, List.takeWhile_cons_of_neg hc, List.dropWhile_cons_of_neg hc]
        rfl
      rw [KeyFollows, or_iff_right hc]
      by_cases hb : c = '\x7b'
      · rw [if_neg (fun he => he hb)] at hs
        by_cases hm : '\x7d' ∈ rest
        · rw [if_pos hm] at hs
          rw [token_specifier h hs]
          exact iff_of_false (fun he => he rfl) (fun he => he.2 hm)
        · rw [if_neg hm] at hs
          rw [token_unclosed h hs]
          exact iff_of_true trivial ⟨hb, hm⟩
      · rw [if_pos hb] at hs
        rw [token_specifier h hs]
        exact iff_of_false (fun he => he rfl) (fun he => hb he.1)

theorem forall_hasKey_iff (s : List Char) :
    (∀ t ∈ lex s, t.HasKey) ↔ ∀ v ∈ openings s, KeyFollows v := by
  induction s using openings.induct with
  | case1 => simp [lex, openings]
  | case2 c v hc ih =>
    have ht : (token c v).HasKey := by
      rw [token_text hc]
      trivial
    rw [lex_cons, openings, if_pos hc, List.forall_mem_cons, ih, and_iff_right ht]
  | case3 c v hc hv ih =>
    obtain rfl : c = '%' := not_not.1 hc
    have ht : (token '%' v).HasKey := by
      rw [token_escape hv]
      trivial
    rw [lex_cons, openings, if_neg hc, if_pos hv, List.forall_mem_cons, ih, and_iff_right ht]
  | case4 c v hc hv ih =>
    obtain rfl : c = '%' := not_not.1 hc
    rw [lex_cons, openings, if_neg hc, if_neg hv, List.forall_mem_cons, List.forall_mem_cons, ih,
      hasKey_iff hv]

/-- **Keys.** Every specifier of a pattern has a key exactly when each `%` that opens one is
followed by a letter or a closing brace, or by an opening one that stays open. -/
theorem keyed_iff (pattern : String) :
    Keyed (logPatternParse pattern) ↔ ∀ v ∈ openings pattern.toList, KeyFollows v := by
  rw [logPatternParse_eq, keyed_emit, forall_hasKey_iff]

/-- A `%` at the end, in front of a space and a digit, and in front of braces. -/
theorem not_keyed :
    ¬ Keyed (logPatternParse "%") ∧ ¬ Keyed (logPatternParse "100% of 5%2") ∧
      ¬ Keyed (logPatternParse "%\x7b%H:%M\x7d") := by
  refine ⟨fun h => ?_, fun h => ?_, fun h => ?_⟩
  · exact h ⟨"", "", true⟩ (by decide +kernel) rfl rfl
  · exact h ⟨"", "", true⟩ (by decide +kernel) rfl rfl
  · exact h ⟨"", "%H:%M", true⟩ (by decide +kernel) rfl rfl

/-! ## Doubled signs -/

/-- A literal in front of some entries, as one with theirs where they begin with one. -/
def putInFront (text : String) : List PatternEntry → List PatternEntry
  | ⟨str, fmt, false⟩ :: entries => ⟨text ++ str, fmt, false⟩ :: entries
  | entries => ⟨text, "", false⟩ :: entries

/-- How much text the entries hold that are not specifiers. -/
def textLength : List PatternEntry → Nat
  | [] => 0
  | e :: es => (if e.specifier then 0 else e.str.length) + textLength es

theorem textLength_append (es es' : List PatternEntry) :
    textLength (es ++ es') = textLength es + textLength es' := by
  induction es with
  | nil => simp [textLength]
  | cons e es ih => rw [List.cons_append, textLength, textLength, ih, Nat.add_assoc]

theorem textLength_literal (nstr : List Char) : textLength (literal nstr) = nstr.length := by
  unfold literal
  split
  · simp_all [textLength]
  · simp [textLength]

/-- Pending text ends up in some literal. -/
theorem textLength_emit (nstr : List Char) (ts : List Token) :
    textLength (emit nstr ts) = nstr.length + textLength (emit [] ts) := by
  induction ts generalizing nstr with
  | nil => simp [emit, textLength_literal]
  | cons t ts ih =>
    cases t with
    | text c =>
      rw [emit, emit, ih, ih ([] ++ [c]), List.length_append, List.nil_append]
      omega
    | specifier key fmt n =>
      rw [emit, emit, textLength_append, textLength_append, textLength_literal, textLength_literal]
      simp
    | unclosed =>
      rw [emit, emit, textLength, textLength, ih]
      omega

theorem textLength_putInFront (text : String) (es : List PatternEntry) :
    textLength (putInFront text es) = text.length + textLength es := by
  match es with
  | [] => rfl
  | ⟨str, fmt, true⟩ :: es => rfl
  | ⟨str, fmt, false⟩ :: es =>
    simp only [putInFront, textLength, Bool.false_eq_true, if_false, String.length_append]
    omega

/-- Behind pending text the first entry is not a specifier, and not empty. -/
theorem emit_pending {nstr : List Char} (h : nstr ≠ []) (ts : List Token) :
    ∃ str fmt es, emit nstr ts = ⟨str, fmt, false⟩ :: es ∧ str ≠ "" := by
  have hlit : literal nstr = [⟨String.ofList nstr, "", false⟩] := if_neg h
  have hne : String.ofList nstr ≠ "" := by simpa using h
  induction ts generalizing nstr with
  | nil => exact ⟨_, _, [], hlit, hne⟩
  | cons t ts ih =>
    cases t with
    | text c =>
      have hc : nstr ++ [c] ≠ [] := by simp
      exact ih hc (if_neg hc) (by simp)
    | specifier key fmt n => exact ⟨_, _, _, by rw [emit, hlit]; rfl, hne⟩
    | unclosed => exact ⟨_, _, _, rfl, by decide⟩

theorem lex_literal {u : List Char} (h : '%' ∉ u) (v : List Char) :
    lex (u ++ v) = u.map Token.text ++ lex v := by
  induction u with
  | nil => rfl
  | cons c u ih =>
    rw [List.mem_cons, not_or] at h
    rw [List.cons_append, lex_cons, token_text (Ne.symm h.1)]
    show Token.text c :: lex (u ++ v) = _
    rw [ih h.2]
    rfl

theorem emit_text (nstr u : List Char) (ts : List Token) :
    emit nstr (u.map Token.text ++ ts) = emit (nstr ++ u) ts := by
  induction u generalizing nstr with
  | nil => rw [List.append_nil]; rfl
  | cons c u ih =>
    rw [List.map_cons, List.cons_append, emit, ih, List.append_assoc]
    rfl

/-- A doubled `%` behind text leaves one of the two signs to be read. -/
theorem logPatternParse_doubled {u : String} (hu : '%' ∉ u.toList) (v : String) :
    logPatternParse (u ++ "%%" ++ v) = emit (u.toList ++ ['%']) (lex ('%' :: v.toList)) := by
  have hl : (u ++ "%%" ++ v).toList = u.toList ++ '%' :: '%' :: v.toList := by
    simp [String.toList_append]
  rw [logPatternParse_eq, hl, lex_literal hu, lex_cons, token_escape rfl, emit_text]
  rfl

/-- The sign that is left opens a specifier: it is not in the entries of `v`, which begin with
text or are not there. -/
theorem specifier_ne_putInFront {w v key fmt : List Char} {es : List PatternEntry}
    (hw : w ≠ []) (hv : v.head? ≠ some '%') :
    literal w ++ ⟨String.ofList key, String.ofList fmt, true⟩ :: es ≠
      putInFront (String.ofList w) (emit [] (lex v)) := by
  have hlit : literal w = [⟨String.ofList w, "", false⟩] := if_neg hw
  rw [hlit]
  cases v with
  | nil =>
    rw [lex]
    simp [emit, literal, putInFront]
  | cons c v =>
    have hc : c ≠ '%' := fun h => hv (by rw [h]; rfl)
    obtain ⟨str, fmt', es', he, hne⟩ := emit_pending (List.cons_ne_nil c [])
      (lex ((token c v).rest v))
    rw [lex_cons, token_text hc] at *
    rw [emit, List.nil_append]
    rw [he, putInFront]
    intro h
    have hstr : String.ofList w = String.ofList w ++ str :=
      congrArg PatternEntry.str (List.cons.inj h).1
    have hl := congrArg String.toList hstr
    rw [String.toList_append, List.self_eq_append_right] at hl
    exact hne (String.toList_inj.1 hl)

/-- **Doubled signs.** A doubled `%` is never an escape: whatever precedes and follows it, the
pattern is not read as the text with one `%` in front of what follows, since the second sign is
read again. -/
theorem escape_reads_again (u v : String) (hu : '%' ∉ u.toList) :
    logPatternParse (u ++ "%%" ++ v) ≠ putInFront (u ++ "%") (logPatternParse v) := by
  have hw : u ++ "%" = String.ofList (u.toList ++ ['%']) := by simp
  rw [logPatternParse_doubled hu, logPatternParse_eq, lex_cons, hw]
  generalize hg : u.toList ++ ['%'] = w
  by_cases hv : v.toList.head? = some '%'
  · rw [token_escape hv]
    intro h
    have hl : textLength (emit w (.text '%' :: lex v.toList)) = _ := congrArg textLength h
    rw [emit, textLength_emit, textLength_putInFront, String.length_ofList, List.length_append,
      List.length_singleton] at hl
    omega
  cases hs : specifier? v.toList with
  | some r =>
    obtain ⟨key, fmt, k⟩ := r
    rw [token_specifier hv hs, emit]
    exact specifier_ne_putInFront (by simp [← hg]) hv
  | none =>
    rw [token_unclosed hv hs]
    intro h
    have hl : textLength (emit w (.unclosed :: lex v.toList)) = _ := congrArg textLength h
    have herr : patternError.str.length = 17 := by decide
    rw [textLength_emit, emit, textLength_putInFront, String.length_ofList, textLength, if_neg,
      herr] at hl
    · omega
    · decide

/-- `100%% done` -/
theorem escape_reads_again_percentage :
    '%' ∉ "100".toList ∧
      logPatternParse ("100" ++ "%%" ++ " done") ≠
        putInFront ("100" ++ "%") (logPatternParse " done") :=
  ⟨by decide, escape_reads_again "100" " done" (by decide)⟩

/-- The second sign takes the letter behind it for a key. -/
theorem escape_opens_specifier :
    logPatternParse ("a" ++ "%%" ++ "w") = [⟨"a%", "", false⟩, ⟨"w", "", true⟩] ∧
      putInFront ("a" ++ "%") (logPatternParse "w") = [⟨"a%w", "", false⟩] ∧
      logPatternParse ("a" ++ "%%" ++ "w") ≠ putInFront ("a" ++ "%") (logPatternParse "w") := by
  decide +kernel

/-! ## Open braces -/

/-- An entry with the places of the pattern it stems from. -/
structure Located where
  entry : PatternEntry
  places : List Nat

/-- A pending literal whose characters know their places. -/
def literalAt (nstr : List (Nat × Char)) : List Located :=
  if nstr = [] then [] else [⟨⟨String.ofList (nstr.map (·.2)), "", false⟩, nstr.map (·.1)⟩]

/-- `emit`, for tokens from the place `i` on. -/
def emitAt : Nat → List (Nat × Char) → List Token → List Located
  | _, nstr, [] => literalAt nstr
  | i, nstr, .text c :: ts => emitAt (i + 1) (nstr ++ [(i, c)]) ts
  | i, nstr, .specifier key fmt n :: ts =>
    literalAt nstr ++
      ⟨⟨String.ofList key, String.ofList fmt, true⟩, List.range' i (n + 1)⟩ ::
        emitAt (i + (n + 1)) [] ts
  | i, nstr, .unclosed :: ts => ⟨patternError, [i]⟩ :: emitAt (i + 1) nstr ts

def located (pattern : String) : List Located := emitAt 0 [] (lex pattern.toList)

/-- The places the entries stem from, in the order of the entries and of their text. -/
def places (ls : List Located) : List Nat := ls.flatMap (·.places)

/-- The places are those of the pattern, in order. No literal can then reach over an error, whose
place would be between two of its own. -/
def InOrder (ls : List Located) : Prop := (places ls).Pairwise (· < ·)

/-- An open brace does not follow text. -/
def BehindNoText (a b : Token) : Prop := b = .unclosed → ∀ c, a ≠ .text c

theorem entry_literalAt (nstr : List (Nat × Char)) :
    (literalAt nstr).map (·.entry) = literal (nstr.map (·.2)) := by
  unfold literalAt literal
  cases nstr with
  | nil => rfl
  | cons c nstr => rfl

theorem entry_emitAt (i : Nat) (nstr : List (Nat × Char)) (ts : List Token) :
    (emitAt i nstr ts).map (·.entry) = emit (nstr.map (·.2)) ts := by
  induction ts generalizing i nstr with
  | nil => exact entry_literalAt nstr
  | cons t ts ih =>
    cases t with
    | text c =>
      rw [emitAt, ih, List.map_append, emit]
      rfl
    | specifier key fmt n =>
      rw [emitAt, List.map_append, List.map_cons, ih, entry_literalAt]
      rfl
    | unclosed =>
      rw [emitAt, List.map_cons, ih]
      rfl

theorem places_literalAt (nstr : List (Nat × Char)) : places (literalAt nstr) = nstr.map (·.1) := by
  unfold literalAt places
  cases nstr with
  | nil => rfl
  | cons c nstr => simp

section

variable {i p : Nat} {nstr : List (Nat × Char)} {ts : List Token}

theorem places_append (ls ls' : List Located) : places (ls ++ ls') = places ls ++ places ls' :=
  List.flatMap_append

theorem places_cons (l : Located) (ls : List Located) : places (l :: ls) = l.places ++ places ls :=
  List.flatMap_cons

/-- An entry stems from pending text or from the tokens. -/
theorem place_pending_or_ge (h : p ∈ places (emitAt i nstr ts)) : p ∈ nstr.map (·.1) ∨ i ≤ p := by
  induction ts generalizing i nstr with
  | nil => exact .inl (places_literalAt nstr ▸ h)
  | cons t ts ih =>
    cases t with
    | text c =>
      rcases ih h with h | h
      · rw [List.map_append, List.mem_append, List.map_singleton, List.mem_singleton] at h
        exact h.imp_right fun he => Nat.le_of_eq he.symm
      · exact .inr (by omega)
    | specifier key fmt n =>
      rw [emitAt, places_append, places_cons, places_literalAt, List.mem_append, List.mem_append,
        List.mem_range'_1] at h
      rcases h with h | h | h
      · exact .inl h
      · exact .inr h.1
      · rcases ih h with h | h
        · cases h
        · exact .inr (by omega)
    | unclosed =>
      rw [emitAt, places_cons, List.mem_append, List.mem_singleton] at h
      rcases h with h | h
      · exact .inr (by omega)
      · exact (ih h).imp_right (by omega)

/-- Pending text is not lost. -/
theorem mem_places_of_pending (h : p ∈ nstr.map (·.1)) : p ∈ places (emitAt i nstr ts) := by
  induction ts generalizing i nstr with
  | nil => exact (places_literalAt nstr).symm ▸ h
  | cons t ts ih =>
    cases t with
    | text c =>
      apply ih
      rw [List.map_append, List.mem_append]
      exact .inl h
    | specifier key fmt n =>
      rw [emitAt, places_append, places_literalAt, List.mem_append]
      exact .inl h
    | unclosed =>
      rw [emitAt, places_cons, List.mem_append]
      exact .inr (ih h)

/-- With nothing pending, every entry stems from the tokens. -/
theorem le_of_mem_places (h : p ∈ places (emitAt i [] ts)) : i ≤ p := by
  rcases place_pending_or_ge h with h | h
  · cases h
  · exact h

/-- The pending text is in order and lies before the place `i`. -/
structure PendingBefore (i : Nat) (nstr : List (Nat × Char)) : Prop where
  sorted : (nstr.map (·.1)).Pairwise (· < ·)
  before : ∀ p ∈ nstr.map (·.1), p < i

theorem pendingBefore_nil : PendingBefore i [] := ⟨List.Pairwise.nil, by simp⟩

theorem PendingBefore.push (h : PendingBefore i nstr) (c : Char) :
    PendingBefore (i + 1) (nstr ++ [(i, c)]) where
  sorted := by
    rw [List.map_append, List.pairwise_append]
    exact ⟨h.sorted, List.pairwise_singleton _ _, by simpa using h.before⟩
  before := by
    intro p hp
    rw [List.map_append, List.mem_append, List.map_singleton, List.mem_singleton] at hp
    rcases hp with hp | hp
    · exact Nat.lt_succ_of_lt (h.before p hp)
    · exact hp ▸ Nat.lt_succ_self i

/-- A specifier ends the pending literal: both come before what follows. -/
theorem inOrder_specifier_iff (h : PendingBefore i nstr) {key fmt : List Char} {n : Nat} :
    InOrder (emitAt i nstr (.specifier key fmt n :: ts)) ↔
      InOrder (emitAt (i + (n + 1)) [] ts) := by
  rw [InOrder, emitAt, places_append, places_cons, places_literalAt, List.pairwise_append,
    List.pairwise_append]
  refine ⟨fun ho => ho.2.1.2.1, fun ho => ⟨h.sorted, ⟨List.pairwise_lt_range', ho, ?_⟩, ?_⟩⟩
  · intro p hp q hq
    have := le_of_mem_places hq
    have := (List.mem_range'_1.1 hp).2
    omega
  · intro p hp q hq
    have := h.before p hp
    rcases List.mem_append.1 hq with hq | hq
    · have := (List.mem_range'_1.1 hq).1
      omega
    · have := le_of_mem_places hq
      omega

theorem inOrder_unclosed_iff :
    InOrder (emitAt i [] (.unclosed :: ts)) ↔ InOrder (emitAt (i + 1) [] ts) := by
  rw [InOrder, emitAt, places_cons, List.singleton_append, List.pairwise_cons]
  exact and_iff_right fun q hq => le_of_mem_places hq

/-- The error comes before the pending text, which stands in front of it. -/
theorem not_inOrder_unclosed (h : PendingBefore i nstr) (hne : nstr ≠ []) :
    ¬ InOrder (emitAt i nstr (.unclosed :: ts)) := by
  intro ho
  rw [InOrder, emitAt, places_cons, List.singleton_append, List.pairwise_cons] at ho
  obtain ⟨a, rest, rfl⟩ := List.exists_cons_of_ne_nil hne
  have ha : a.1 ∈ (a :: rest).map (·.1) := List.mem_cons_self
  have := ho.1 a.1 (mem_places_of_pending ha)
  have := h.before a.1 ha
  omega

theorem behindNoText_text_iff {c : Char} :
    (∀ b ∈ ts.head?, BehindNoText (.text c) b) ↔ ts.head? ≠ some .unclosed := by
  cases ts.head? with
  | none => simp
  | some b => simp [BehindNoText]

/-- In order exactly when no open brace follows text, neither text that is pending nor text among
the tokens. By induction on the tokens, with the pending places in order and behind us. -/
theorem inOrder_emitAt_iff (h : PendingBefore i nstr) :
    InOrder (emitAt i nstr ts) ↔
      (nstr ≠ [] → ts.head? ≠ some .unclosed) ∧ ts.IsChain BehindNoText := by
  induction ts generalizing i nstr with
  | nil =>
    rw [InOrder, emitAt, places_literalAt]
    simp [h.sorted]
  | cons t ts ih =>
    rw [List.isChain_cons, List.head?_cons]
    cases t with
    | text c =>
      rw [emitAt, ih (h.push c), behindNoText_text_iff]
      simp
    | specifier key fmt n =>
      rw [inOrder_specifier_iff h, ih pendingBefore_nil]
      simp [BehindNoText]
    | unclosed =>
      by_cases hne : nstr = []
      · subst hne
        rw [inOrder_unclosed_iff, ih pendingBefore_nil]
        simp [BehindNoText]
      · exact iff_of_false (not_inOrder_unclosed h hne) fun hc => hc.1 hne rfl

end

/-- **Open braces.** The entries of a pattern are in the order of the places they stem from, with
no literal across an error, exactly when no open brace stands right behind text. -/
theorem in_order_iff (pattern : String) :
    (located pattern).map (·.entry) = logPatternParse pattern ∧
      (InOrder (located pattern) ↔ (lex pattern.toList).IsChain BehindNoText) := by
  constructor
  · rw [located, entry_emitAt, logPatternParse_eq]
    rfl
  · rw [located, inOrder_emitAt_iff pendingBefore_nil]
    simp

/-- The text in front of the specifier comes behind its error, as one with the text behind it. -/
theorem not_in_order :
    logPatternParse "at %d\x7b%H" = [patternError, ⟨"at d\x7b", "", false⟩, ⟨"H", "", true⟩] ∧
      ¬ InOrder (located "at %d\x7b%H") := by
  refine ⟨by decide +kernel, ?_⟩
  have hp : places (located "at %d\x7b%H") = [3, 0, 1, 2, 4, 5, 6, 7] := by decide +kernel
  rw [InOrder, hp]
  decide

end NetBase.Logging.Pattern
