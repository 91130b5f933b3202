import Mathlib.Data.List.Chain
import NetBase.Logging.Pattern

/-!
# Writing patterns

The items of a pattern, the text they are written as, and that `logPatternParse` reads that text
back. A position of the scan is described by what is left of the string there (`s.drop n`), so that
no lemma mentions what stands before it.
-/

namespace NetBase.Logging.Pattern

/-- A piece of a pattern: text, or a key with its format where braces are written. -/
inductive Item where
  | literal (text : List Char)
  | specifier (key : List Char) (fmt : Option (List Char))
  deriving DecidableEq, Repr

namespace Item

def write : Item → List Char
  | literal text => text
  | specifier key none => '%' :: key
  | specifier key (some fmt) => '%' :: (key ++ '\x7b' :: (fmt ++ ['\x7d']))

/-- The key, the format and the flag of an item. -/
def entry : Item → PatternEntry
  | literal text => ⟨String.ofList text, "", false⟩
  | specifier key fmt => ⟨String.ofList key, String.ofList (fmt.getD []), true⟩

def Valid : Item → Prop
  | literal text => text ≠ [] ∧ '%' ∉ text
  | specifier key fmt => key ≠ [] ∧ (∀ c ∈ key, c.isAlpha) ∧ ∀ f ∈ fmt, '\x7d' ∉ f

/-- A character that ends a key. -/
def EndsKey (c : Char) : Prop := ¬c.isAlpha ∧ c ≠ '\x7b' ∧ c ≠ '\x7d'

/-- What may stand next to each other. -/
def Follows : Item → Item → Prop
  | literal _, literal _ => False
  | specifier _ none, literal text => ∀ c ∈ text.head?, EndsKey c
  | _, _ => True

instance : DecidablePred EndsKey := fun c =>
  inferInstanceAs (Decidable (¬c.isAlpha ∧ c ≠ '\x7b' ∧ c ≠ '\x7d'))

end Item

def writeAll (items : List Item) : List Char := items.flatMap Item.write

structure WellFormed (items : List Item) : Prop where
  valid : ∀ a ∈ items, a.Valid
  follows : items.IsChain Item.Follows

/-! ## One character -/

section

variable {s rest : List Char} {c : Char} {i n : Nat}

theorem lt_of_drop (h : s.drop n = c :: rest) : n < s.length := by
  apply Nat.lt_of_not_le
  intro hle
  rw [List.drop_eq_nil_of_le hle] at h
  cases h

theorem get_of_drop (h : s.drop n = c :: rest) (hn : n < s.length) : s[n] = c := by
  have h0 := List.drop_eq_getElem_cons hn
  rw [h] at h0
  exact (List.cons.inj h0).1.symm

theorem drop_succ (h : s.drop n = c :: rest) : s.drop (n + 1) = rest := by
  rw [← List.tail_drop, h, List.tail_cons]

theorem drop_add {a : List Char} (h : s.drop n = a ++ rest) : s.drop (n + a.length) = rest := by
  rw [← List.drop_drop, h, List.drop_left]

theorem last_iff (h : s.drop n = c :: rest) : n + 1 = s.length ↔ rest = [] := by
  have hl := congrArg List.length h
  simp only [List.length_drop, List.length_cons] at hl
  rw [← List.length_eq_zero_iff]
  omega

end

/-! ## One specifier -/

section

variable {s rest : List Char} {i n fmtBegin : Nat} {str fmt : List Char}

/-- The characters the scan passes over outside braces: a key may hold closing braces. -/
def keyChar (c : Char) : Bool := c.isAlpha || c == '\x7d'

theorem keyChar_of_isAlpha {c : Char} (h : c.isAlpha) : keyChar c := by
  rw [keyChar, h, Bool.true_or]

theorem ne_of_keyChar {c d : Char} (h : keyChar c) (hd : keyChar d = false) : c ≠ d := by
  rintro rfl
  rw [h] at hd
  cases hd

theorem scan_keyChar {c : Char} (h : s.drop n = c :: rest) (hc : keyChar c) :
    scan s i n false fmtBegin str fmt = scan s i (n + 1) false fmtBegin
      (if rest = [] ∧ str = [] then s.drop (i + 1) else str) fmt := by
  have hn := lt_of_drop h
  have hg := get_of_drop h hn
  have hb : c ≠ '\x7b' := ne_of_keyChar hc (by decide)
  have hkey : c.isAlpha ∨ c = '\x7d' := by simpa [keyChar] using hc
  have hstop : ¬(c.isAlpha = false ∧ c ≠ '\x7b' ∧ c ≠ '\x7d') := by
    rintro ⟨ha, -, hr⟩
    rcases hkey with h | h
    · rw [h] at ha
      cases ha
    · exact hr h
  rw [scan]
  simp only [hn, hg, hb, last_iff h, ↓reduceDIte, Bool.not_false, true_and, Bool.not_eq_true',
    if_neg hstop, Bool.false_eq_true, false_and, if_false]

/-- A key is passed over, where something follows it. -/
theorem scan_key {k : List Char} (hk : ∀ c ∈ k, keyChar c) (h : s.drop n = k ++ rest)
    (hr : rest ≠ []) :
    scan s i n false fmtBegin str fmt = scan s i (n + k.length) false fmtBegin str fmt := by
  induction k generalizing n with
  | nil => rfl
  | cons c k ih =>
    obtain ⟨hc, hk⟩ := List.forall_mem_cons.1 hk
    have hne : k ++ rest ≠ [] := fun he => hr (List.append_eq_nil_iff.1 he).2
    rw [scan_keyChar h hc, if_neg (fun he => hne he.1), ih hk (drop_succ h), List.length_cons]
    congr 1
    omega

/-- At the end of the string the key is everything behind the `%`. -/
theorem scan_key_end {k : List Char} (hk : ∀ c ∈ k, keyChar c) (h : s.drop n = k) (hne : k ≠ []) :
    scan s i n false fmtBegin [] fmt = ⟨n + k.length, false, s.drop (i + 1), fmt⟩ := by
  induction k generalizing n with
  | nil => exact absurd rfl hne
  | cons c k ih =>
    obtain ⟨hc, hk⟩ := List.forall_mem_cons.1 hk
    rw [scan_keyChar h hc]
    cases k with
    | nil =>
      have hl := (last_iff h).2 rfl
      rw [scan, dif_neg (by omega), if_pos ⟨rfl, rfl⟩, List.length_singleton]
    | cons d k =>
      rw [if_neg (fun he => List.cons_ne_nil d k he.1), ih hk (drop_succ h) (List.cons_ne_nil d k)]
      simp only [List.length_cons]
      congr 1
      omega

theorem scan_stop {c : Char} (h : s.drop n = c :: rest) (hc : Item.EndsKey c) :
    scan s i n false fmtBegin str fmt = ⟨n, false, substr s (i + 1) (n - i - 1), fmt⟩ := by
  have hn := lt_of_drop h
  have hg := get_of_drop h hn
  obtain ⟨ha, hl, hr⟩ := hc
  rw [scan]
  simp only [hn, hg, ha, hl, hr, Bool.not_false, ne_eq, not_false_eq_true, and_self, ↓reduceDIte,
    if_true]

theorem scan_open (h : s.drop n = '\x7b' :: rest) :
    scan s i n false fmtBegin str fmt =
      scan s i (n + 1) true n (substr s (i + 1) (n - i - 1)) fmt := by
  have hn := lt_of_drop h
  have hg := get_of_drop h hn
  rw [scan]
  simp only [hn, hg, Bool.not_false, ne_eq, not_true_eq_false, false_and, and_false, and_self,
    ↓reduceDIte, if_true, if_false]

/-- A format runs up to the first closing brace. -/
theorem scan_fmt {f : List Char} (hf : '\x7d' ∉ f) (h : s.drop n = f ++ '\x7d' :: rest) :
    scan s i n true fmtBegin str fmt = ⟨n + f.length + 1, false, str,
      substr s (fmtBegin + 1) (n + f.length - fmtBegin - 1)⟩ := by
  induction f generalizing n with
  | nil =>
    have hn := lt_of_drop h
    have hg := get_of_drop h hn
    rw [scan]
    simp [hn, hg]
  | cons c f ih =>
    rw [List.mem_cons, not_or] at hf
    obtain ⟨hc, hf⟩ := hf
    have hn := lt_of_drop h
    have hg := get_of_drop h hn
    have hlast : n + 1 ≠ s.length := fun he => by simpa using (last_iff h).1 he
    rw [scan]
    simp only [hn, hg, hlast, Ne.symm hc, Bool.not_true, Bool.false_eq_true, false_and, and_false,
      ↓reduceDIte, if_false]
    rw [ih hf (drop_succ h), List.length_cons]
    congr 2 <;> omega

/-- What a specifier may be followed by. -/
def Stops : Option (List Char) → List Char → Prop
  | none, rest => ∀ c ∈ rest.head?, Item.EndsKey c
  | some _, _ => True

theorem substr_of_drop {a : List Char} (h : s.drop n = a ++ rest) : substr s n a.length = a := by
  rw [substr, h, List.take_left]

/-- One specifier is scanned as a whole, whichever way its key ends. -/
theorem scan_specifier {k : List Char} {f : Option (List Char)} (hv : (Item.specifier k f).Valid)
    (h : s.drop i = (Item.specifier k f).write ++ rest) (hr : Stops f rest) :
    scan s i (i + 1) false 0 [] [] =
      ⟨i + (Item.specifier k f).write.length, false, k, f.getD []⟩ := by
  obtain ⟨hne, ha, hf⟩ := hv
  have hk : ∀ c ∈ k, keyChar c := fun c hc => keyChar_of_isAlpha (ha c hc)
  cases f with
  | none =>
    have h1 : s.drop (i + 1) = k ++ rest := drop_succ h
    cases rest with
    | nil =>
      rw [List.append_nil] at h1
      rw [scan_key_end hk h1 hne, h1]
      simp only [Item.write, List.length_cons, Option.getD_none]
      congr 1
      omega
    | cons c rest =>
      rw [scan_key hk h1 (List.cons_ne_nil c rest), scan_stop (drop_add h1) (hr c rfl)]
      have hs := substr_of_drop h1
      rw [show i + 1 + k.length - i - 1 = k.length by omega, hs]
      simp only [Item.write, List.length_cons, Option.getD_none]
      congr 1
      omega
  | some f =>
    have hf := hf f rfl
    have h1 : s.drop (i + 1) = k ++ '\x7b' :: (f ++ '\x7d' :: rest) := by
      rw [drop_succ h]
      simp
    have h2 := drop_add h1
    have h3 := drop_succ h2
    rw [scan_key hk h1 (List.cons_ne_nil _ _), scan_open h2,
      show i + 1 + k.length - i - 1 = k.length by omega, substr_of_drop h1, scan_fmt hf h3,
      show i + 1 + k.length + 1 + f.length - (i + 1 + k.length) - 1 = f.length by omega,
      substr_of_drop h3]
    simp only [Item.write, List.length_cons, List.length_append, List.length_nil, Option.getD_some]
    congr 1
    omega

end

/-! ## The whole pattern -/

section

variable {s rest : List Char} {i : Nat} {nstr : List Char} {vec : List PatternEntry}

theorem parse_literal {t : List Char} (ht : '%' ∉ t) (h : s.drop i = t ++ rest) :
    parse s i nstr vec = parse s (i + t.length) (nstr ++ t) vec := by
  induction t generalizing i nstr with
  | nil => rw [List.append_nil, List.length_nil, Nat.add_zero]
  | cons c t ih =>
    rw [List.mem_cons, not_or] at ht
    have hn := lt_of_drop h
    have hg := get_of_drop h hn
    rw [parse, dif_pos hn, hg, if_pos (Ne.symm ht.1), ih ht.2 (drop_succ h), List.append_assoc,
      List.singleton_append, List.length_cons, Nat.add_assoc, Nat.add_comm 1]

theorem parse_specifier {k : List Char} {f : Option (List Char)}
    (hv : (Item.specifier k f).Valid) (h : s.drop i = (Item.specifier k f).write ++ rest)
    (hr : Stops f rest) :
    parse s i nstr vec = parse s (i + (Item.specifier k f).write.length) []
      (vec ++ literal nstr ++ [(Item.specifier k f).entry]) := by
  obtain ⟨a, t, hw, ha⟩ : ∃ a t, (Item.specifier k f).write = '%' :: a :: t ∧ a.isAlpha := by
    obtain ⟨hne, hk, -⟩ := hv
    obtain ⟨a, t, rfl⟩ := List.exists_cons_of_ne_nil hne
    cases f with
    | none => exact ⟨a, t, rfl, hk a List.mem_cons_self⟩
    | some f => exact ⟨a, _, rfl, hk a List.mem_cons_self⟩
  have h' := h
  rw [hw] at h'
  have hn := lt_of_drop h'
  have h1 := drop_succ h'
  have hnext : s[i + 1]? ≠ some '%' := by
    rw [List.getElem?_eq_getElem (lt_of_drop h1), get_of_drop h1 (lt_of_drop h1)]
    rintro ⟨⟩
    exact absurd ha (by decide)
  rw [parse, dif_pos hn, get_of_drop h' hn, if_neg (fun h => h rfl), if_neg hnext]
  simp only [scan_specifier hv h hr, Bool.false_eq_true, if_false, Item.entry]

theorem write_specifier_head (k : List Char) (f : Option (List Char)) :
    (Item.specifier k f).write.head? = some '%' := by
  cases f with
  | none => rfl
  | some f => rfl

theorem stops_of_follows {k : List Char} {f : Option (List Char)} {items : List Item}
    (hv : ∀ a ∈ items, a.Valid) (hf : (Item.specifier k f :: items).IsChain Item.Follows) :
    Stops f (writeAll items) := by
  cases f with
  | some f => trivial
  | none =>
    intro c hc
    cases items with
    | nil => cases hc
    | cons b items =>
      have hb := (List.isChain_cons_cons.1 hf).1
      rw [writeAll, List.flatMap_cons, List.head?_append, Option.mem_def] at hc
      cases b with
      | literal t =>
        obtain ⟨d, t, rfl⟩ := List.exists_cons_of_ne_nil (hv _ List.mem_cons_self).1
        exact hb c hc
      | specifier k' f' =>
        rw [write_specifier_head] at hc
        cases hc
        decide

/-- By induction on the items: a pending literal is only there in front of a specifier or the
end, since no two literals are adjacent. -/
theorem parse_items {items : List Item} (hv : ∀ a ∈ items, a.Valid)
    (hf : items.IsChain Item.Follows) (h : s.drop i = writeAll items)
    (hn : ∀ t, items.head? = some (.literal t) → nstr = []) :
    parse s i nstr vec = vec ++ literal nstr ++ items.map Item.entry := by
  induction items generalizing i nstr vec with
  | nil =>
    rw [parse, dif_neg (Nat.not_lt.2 (List.drop_eq_nil_iff.1 h)), List.map_nil, List.append_nil]
  | cons a items ih =>
    obtain ⟨ha, hvs⟩ := List.forall_mem_cons.1 hv
    cases a with
    | literal t =>
      have ht : s.drop (i + t.length) = writeAll items := drop_add (a := t) h
      rw [hn t rfl, parse_literal ha.2 h, ih hvs hf.of_cons ht]
      · simp only [literal, if_true, List.nil_append, if_neg ha.1, List.append_nil, List.map_cons,
          List.append_assoc, List.singleton_append]
        rfl
      · intro t' ht'
        cases items with
        | nil => cases ht'
        | cons b items =>
          cases ht'
          exact absurd (List.isChain_cons_cons.1 hf).1 id
    | specifier k f =>
      have hs := stops_of_follows hvs hf
      rw [parse_specifier ha h hs, ih hvs hf.of_cons (drop_add h) (fun _ _ => rfl)]
      simp only [literal, if_true, List.append_nil, List.map_cons, List.append_assoc,
        List.singleton_append]

end

theorem parse_written {items : List Item} (h : WellFormed items) :
    parse (String.ofList (writeAll items)).toList 0 [] [] = items.map Item.entry := by
  rw [String.toList_ofList]
  exact parse_items h.valid h.follows rfl fun _ _ => rfl

/-- Parsing inverts writing. -/
theorem logPatternParse_writeAll {items : List Item} (h : WellFormed items) :
    logPatternParse (String.ofList (writeAll items)) = items.map Item.entry :=
  parse_written h

/-- A key ends at a brace, at a `%`, at a space and at the end. -/
theorem logPatternParse_datetime_level :
    logPatternParse (String.ofList (writeAll
      [.literal ['['], .specifier "datetime".toList (some "%H:%M".toList),
        .literal ['\x7d', ' '], .specifier "level".toList none, .specifier "n".toList none,
        .literal [' '], .specifier "end".toList none])) =
      [⟨"[", "", false⟩, ⟨"datetime", "%H:%M", true⟩, ⟨"\x7d ", "", false⟩, ⟨"level", "", true⟩,
        ⟨"n", "", true⟩, ⟨" ", "", false⟩, ⟨"end", "", true⟩] :=
  (logPatternParse_writeAll ⟨by simp [Item.Valid], by simp [Item.Follows]; decide⟩).trans
    rfl

end NetBase.Logging.Pattern
