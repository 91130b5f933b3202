import NetBase.Net.Address

/-!
# Text of addresses in the C library

What the classes rely on: `inet_pton` reads a dotted quad as its four bytes and inverts
`inet_ntop` (`InetLib.Inverts`). `plainLib` is such a library: dotted quads in full, IPv6 text
without `::`.
-/

namespace NetBase.Net

/-- `inet_pton` reads a dotted quad as its bytes, and what `inet_ntop` writes, which is hexadecimal
digits, colons and points. -/
structure InetLib.Inverts (lib : InetLib) : Prop where
  pton4 : ∀ b, lib.inetPton4 (dottedQuad b) = some b
  pton6 : ∀ b, ∃ t, lib.inetNtop6 b = some t ∧ '[' ∉ t ∧ lib.inetPton6 t = some b

theorem dottedQuad_head (b : Vector Byte 4) : (dottedQuad b).head? ≠ some '[' := by
  have hne : Nat.toDigits 10 (b.get 0).val ≠ [] := Nat.toDigits_ne_nil
  obtain ⟨c, cs, hc⟩ := List.exists_cons_of_ne_nil hne
  rw [dottedQuad, hc]
  rintro ⟨⟩
  have hd : '['.isDigit := Nat.isDigit_of_mem_toDigits (by decide) (by decide)
    (hc ▸ List.mem_cons_self : '[' ∈ Nat.toDigits 10 (b.get 0).val)
  exact absurd hd (by decide)

/-! ## Dotted quads -/

/-- One number of a dotted quad: decimal, at most 255, without leading zeros. -/
def octet (g : List Char) : Option Byte :=
  let v := Nat.ofDigitChars 10 g 0
  if v < 256 ∧ g = Nat.toDigits 10 v then some (lowByte v) else none

/-- `inet_pton(AF_INET)` -/
def inetPton4 (t : List Char) : Option (Vector Byte 4) :=
  match t.splitOn '.' with
  | [a, b, c, d] => do return #v[← octet a, ← octet b, ← octet c, ← octet d]
  | _ => none

theorem lowByte_val (b : Byte) : lowByte b.val = b := Fin.ext (Nat.mod_eq_of_lt b.isLt)

theorem octet_toDigits (b : Byte) : octet (Nat.toDigits 10 b.val) = some b := by
  rw [octet]
  simp only [Nat.ofDigitChars_ten_toDigits, b.isLt, and_self, if_true, lowByte_val]

theorem dot_notMem_toDigits (n : Nat) : '.' ∉ Nat.toDigits 10 n := by
  intro h
  exact absurd (Nat.isDigit_of_mem_toDigits (by decide) (by decide) h) (by decide)

theorem inetPton4_dottedQuad (b : Vector Byte 4) : inetPton4 (dottedQuad b) = some b := by
  have hd : dottedQuad b = ['.'].intercalate
      ([b.get 0, b.get 1, b.get 2, b.get 3].map fun x => Nat.toDigits 10 x.val) := by
    simp [dottedQuad, List.intercalate]
  have hs : (dottedQuad b).splitOn '.' =
      [b.get 0, b.get 1, b.get 2, b.get 3].map fun x => Nat.toDigits 10 x.val := by
    rw [hd]
    apply List.splitOn_intercalate
    · simp [dot_notMem_toDigits]
    · simp
  rw [inetPton4, hs]
  simp only [List.map_cons, List.map_nil, octet_toDigits]
  show some #v[b.get 0, b.get 1, b.get 2, b.get 3] = some b
  congr 1
  apply Vector.ext
  intro i hi
  obtain rfl | rfl | rfl | rfl : i = 0 ∨ i = 1 ∨ i = 2 ∨ i = 3 := by omega
  · rfl
  · rfl
  · rfl
  · rfl

/-! ## Groups of hexadecimal digits -/

def hexDigit (c : Char) : Nat := if c.isDigit then c.toNat - '0'.toNat else c.toNat - 'a'.toNat + 10

theorem hexDigit_digitChar : ∀ d < 16, hexDigit (Nat.digitChar d) = d := by decide

def hexValue (g : List Char) : Nat := g.foldl (fun v c => 16 * v + hexDigit c) 0

theorem hexValue_toDigits (n : Nat) : hexValue (Nat.toDigits 16 n) = n := by
  induction n using Nat.strongRecOn with
  | ind n ih =>
    by_cases h : n < 16
    · rw [Nat.toDigits_of_lt_base h, hexValue, List.foldl_cons, List.foldl_nil,
        hexDigit_digitChar n h, Nat.zero_add]
    · have hd := ih (n / 16) (by omega)
      rw [hexValue] at hd
      rw [Nat.toDigits_of_base_le (by decide) (by omega), hexValue, List.foldl_append, hd,
        List.foldl_cons, List.foldl_nil, hexDigit_digitChar _ (Nat.mod_lt _ (by decide))]
      omega

theorem mem_toDigits_hex {n : Nat} {c : Char} (h : c ∈ Nat.toDigits 16 n) :
    ∃ d < 16, c = Nat.digitChar d := by
  induction n using Nat.strongRecOn with
  | ind n ih =>
    by_cases hn : n < 16
    · rw [Nat.toDigits_of_lt_base hn, List.mem_singleton] at h
      exact ⟨n, hn, h⟩
    · rw [Nat.toDigits_of_base_le (by decide) (by omega), List.mem_append, List.mem_singleton] at h
      obtain h | h := h
      · exact ih (n / 16) (by omega) h
      · exact ⟨n % 16, Nat.mod_lt _ (by decide), h⟩

/-- The numbers that pairs of bytes make. -/
def words : List Byte → List Nat
  | hi :: lo :: bs => (hi.val * 0x100 + lo.val) :: words bs
  | _ => []

def unwords (ws : List Nat) : List Byte := ws.flatMap fun w => [lowByte (w / 0x100), lowByte w]

theorem words_lt (bs : List Byte) : ∀ w ∈ words bs, w < 0x10000 := by
  fun_induction words bs with
  | case1 hi lo bs ih =>
    intro w hw
    obtain rfl | hw := List.mem_cons.1 hw
    · omega
    · exact ih w hw
  | case2 bs h =>
    intro w hw
    cases hw

theorem unwords_words {bs : List Byte} (h : bs.length % 2 = 0) : unwords (words bs) = bs := by
  fun_induction words bs with
  | case1 hi lo bs ih =>
    have h1 : lowByte ((hi.val * 0x100 + lo.val) / 0x100) = hi := Fin.ext (by
      show (hi.val * 0x100 + lo.val) / 0x100 % 256 = hi.val
      omega)
    have h2 : lowByte (hi.val * 0x100 + lo.val) = lo := Fin.ext (by
      show (hi.val * 0x100 + lo.val) % 256 = lo.val
      omega)
    rw [List.length_cons, List.length_cons] at h
    have ih := ih (by omega)
    rw [unwords] at ih ⊢
    rw [List.flatMap_cons, ih, h1, h2]
    rfl
  | case2 bs hbs =>
    cases bs with
    | nil => rfl
    | cons b bs =>
      cases bs with
      | nil => cases h
      | cons c bs => exact absurd rfl (hbs b c bs)

/-- One group: hexadecimal, without leading zeros. -/
def hexGroup (g : List Char) : Option Nat :=
  let v := hexValue g
  if v < 0x10000 ∧ g = Nat.toDigits 16 v then some v else none

/-- `inet_ntop(AF_INET6)` where no two groups in a row are zero. -/
def inetNtop6 (b : Vector Byte 16) : Option (List Char) :=
  some ([':'].intercalate ((words b.toList).map (Nat.toDigits 16)))

/-- `inet_pton(AF_INET6)` on eight groups. -/
def inetPton6 (t : List Char) : Option (Vector Byte 16) := do
  let ws ← (t.splitOn ':').mapM hexGroup
  if h : (unwords ws).length = 16 then some ⟨(unwords ws).toArray, h⟩ else none

theorem mapM_hexGroup {ws : List Nat} (h : ∀ w ∈ ws, w < 0x10000) :
    (ws.map (Nat.toDigits 16)).mapM hexGroup = some ws := by
  induction ws with
  | nil => rfl
  | cons w ws ih =>
    obtain ⟨hw, hws⟩ := List.forall_mem_cons.1 h
    have hg : hexGroup (Nat.toDigits 16 w) = some w := by
      rw [hexGroup]
      simp only [hexValue_toDigits, hw, and_self, if_true]
    rw [List.map_cons, List.mapM_cons, hg, ih hws]
    rfl

theorem notMem_toDigits_hex {c : Char} (hc : ∀ d < 16, c ≠ Nat.digitChar d) (n : Nat) :
    c ∉ Nat.toDigits 16 n := by
  intro h
  obtain ⟨d, hd, he⟩ := mem_toDigits_hex h
  exact hc d hd he

theorem mem_intercalate {c : Char} {sep : List Char} {ls : List (List Char)}
    (h : c ∈ sep.intercalate ls) : c ∈ sep ∨ ∃ l ∈ ls, c ∈ l := by
  induction ls with
  | nil => simp at h
  | cons l ls ih =>
    by_cases hls : ls = []
    · subst hls
      rw [List.intercalate_singleton] at h
      exact .inr ⟨l, List.mem_cons_self, h⟩
    · rw [List.intercalate_cons_of_ne_nil hls, List.mem_append, List.mem_append] at h
      obtain (h | h) | h := h
      · exact .inr ⟨l, List.mem_cons_self, h⟩
      · exact .inl h
      · obtain h | ⟨m, hm, h⟩ := ih h
        · exact .inl h
        · exact .inr ⟨m, List.mem_cons_of_mem l hm, h⟩

theorem inetPton6_inetNtop6 (b : Vector Byte 16) :
    ∃ t, inetNtop6 b = some t ∧ '[' ∉ t ∧ inetPton6 t = some b := by
  refine ⟨_, rfl, ?_, ?_⟩
  · intro h
    obtain h | ⟨l, hl, h⟩ := mem_intercalate h
    · exact absurd h (by decide)
    · obtain ⟨w, -, rfl⟩ := List.mem_map.1 hl
      exact notMem_toDigits_hex (by decide) w h
  · have hlen : b.toList.length = 16 := Vector.length_toList
    have hu : unwords (words b.toList) = b.toList := unwords_words (by rw [hlen])
    rw [inetPton6, List.splitOn_intercalate]
    · rw [mapM_hexGroup (words_lt _)]
      show dite _ _ _ = _
      rw [dif_pos (by rw [hu, hlen])]
      congr 1
      apply Vector.toList_inj.1
      exact hu
    · intro l hl
      obtain ⟨w, -, rfl⟩ := List.mem_map.1 hl
      exact notMem_toDigits_hex (by decide) w
    · intro he
      rw [List.map_eq_nil_iff.1 he] at hu
      rw [← hu] at hlen
      cases hlen

/-- No interface has a name. -/
def plainLib : InetLib := ⟨inetPton4, inetPton6, inetNtop6, fun _ => none⟩

theorem plainLib_inverts : plainLib.Inverts := ⟨inetPton4_dottedQuad, inetPton6_inetNtop6⟩

end NetBase.Net
