import NetBase.Net.AddressOrder
import NetBase.Net.InetText

/-!
# Addresses from text and back

What the three `setByHostAndPort` overloads accept (`Parses`), that a call which throws leaves the
address alone, where the grammar of `host:port` differs from what is accepted, and the round trip
through `toString`. Both classes share the fields these calls write, so every lemma is stated for
those.
-/

namespace NetBase.Net

/-! ## The last colon -/

theorem strrchr_none {s : List Char} {c : Char} (h : c ∉ s) : strrchr s c = none := by
  induction s with
  | nil => rfl
  | cons d ds ih =>
    rw [List.mem_cons, not_or] at h
    rw [strrchr, ih h.2]
    exact if_neg (Ne.symm h.1)

theorem strrchr_append {p : List Char} {c : Char} (hp : c ∉ p) (h : List Char) :
    strrchr (h ++ c :: p) c = some h.length := by
  induction h with
  | nil =>
    rw [List.nil_append, strrchr, strrchr_none hp]
    exact if_pos rfl
  | cons d ds ih => rw [List.cons_append, strrchr, ih, List.length_cons]

theorem exists_last_split {s : List Char} {c : Char} (h : c ∈ s) :
    ∃ a b, s = a ++ c :: b ∧ c ∉ b := by
  obtain ⟨b, a, hs, hb⟩ := List.eq_append_cons_of_mem (List.mem_reverse.2 h)
  refine ⟨a.reverse, b.reverse, ?_, fun hm => hb (List.mem_reverse.1 hm)⟩
  rw [← List.reverse_reverse s, hs]
  simp

theorem last_split_unique {c : Char} {a b p q : List Char} (h : a ++ c :: p = b ++ c :: q)
    (hp : c ∉ p) (hq : c ∉ q) : a = b ∧ p = q := by
  have hl := strrchr_append hp a
  rw [h, strrchr_append hq b] at hl
  obtain ⟨ha, hb⟩ := List.append_inj h (Option.some.inj hl).symm
  exact ⟨ha, (List.cons.inj hb).2⟩

/-- A host without the pair of brackets around it. -/
def unbracket (h : List Char) : List Char :=
  if h.head? = some '[' ∧ h.getLast? = some ']' then h.dropLast.tail else h

theorem unbracket_of_head {h : List Char} (hh : h.head? ≠ some '[') : unbracket h = h :=
  if_neg fun hb => hh hb.1

theorem hostAndPortParser_split (h : List Char) {p : List Char} (hp : ':' ∉ p) :
    hostAndPortParser (h ++ ':' :: p) = .ok ⟨unbracket h, p⟩ := by
  have hd : (h ++ ':' :: p).drop (h.length + 1) = p := by simp
  rw [hostAndPortParser, strrchr_append hp]
  simp only [List.take_left, hd, unbracket]
  split
  · rfl
  · rfl

theorem hostAndPortParser_error {s : List Char} (h : ':' ∉ s) :
    ∃ e, hostAndPortParser s = .error e := by
  rw [hostAndPortParser, strrchr_none h]
  exact ⟨_, rfl⟩

/-! ## The digits of a port -/

/-- A port: at most five decimal digits, of a value that fits. -/
structure PortText (p : List Char) (n : Nat) : Prop where
  digits : ∀ c ∈ p, c.isDigit
  length : p.length ≤ 5
  value : Nat.ofDigitChars 10 p 0 = n
  fits : n ≤ 65535

theorem not_digit_iff (c : Char) : (c > '9' ∨ c < '0') ↔ ¬c.isDigit := by
  rw [Char.isDigit_iff_toNat, gt_iff_lt, Char.lt_def, Char.lt_def, UInt32.lt_iff_toNat_lt,
    UInt32.lt_iff_toNat_lt]
  show ('9'.toNat < c.toNat ∨ c.toNat < '0'.toNat) ↔ _
  omega

theorem le_ofDigitChars (cs : List Char) (m : Nat) : m ≤ Nat.ofDigitChars 10 cs m := by
  induction cs generalizing m with
  | nil => exact Nat.le_of_eq Nat.ofDigitChars_nil.symm
  | cons c cs ih =>
    rw [Nat.ofDigitChars_cons]
    have := ih (10 * m + (c.toNat - '0'.toNat))
    omega

/-- The number read so far only grows, so that the test in the loop is the test of its result. -/
theorem getPortFrom_ok_iff (port : String) (cs : List Char) (m : Nat) (k : UInt16)
    (hm : m < 0x10000) : getPortFrom port cs m = .ok k ↔
      (∀ c ∈ cs, c.isDigit) ∧ Nat.ofDigitChars 10 cs m = k.toNat := by
  induction cs generalizing m with
  | nil =>
    rw [getPortFrom, Nat.ofDigitChars_nil]
    constructor
    · intro h
      cases h
      exact ⟨fun c hc => absurd hc List.not_mem_nil, (UInt16.toNat_ofNat_of_lt' hm).symm⟩
    · intro h
      rw [h.2, UInt16.ofNat_toNat]
  | cons c cs ih =>
    rw [getPortFrom, Nat.ofDigitChars_cons, List.forall_mem_cons]
    by_cases hc : c.isDigit
    · rw [if_neg (fun h => (not_digit_iff c).1 h hc)]
      have hd := Char.isDigit_iff_toNat.1 hc
      have he : m * 10 + c.toNat - '0'.toNat = 10 * m + (c.toNat - '0'.toNat) := by omega
      simp only [he]
      by_cases hlt : 10 * m + (c.toNat - '0'.toNat) < 0x10000
      · rw [if_neg (by omega), ih _ hlt]
        simp only [hc, true_and]
      · rw [if_pos (by omega)]
        have hle := le_ofDigitChars cs (10 * m + (c.toNat - '0'.toNat))
        have hk := k.toNat_lt
        constructor
        · intro h
          cases h
        · intro h
          omega
    · rw [if_pos ((not_digit_iff c).2 hc)]
      constructor
      · intro h
        cases h
      · intro h
        exact absurd h.1.1 hc

theorem getPortFromString_ok_iff (p : List Char) (k : UInt16) :
    getPortFromString p = .ok k ↔ PortText p k.toNat := by
  have hk := k.toNat_lt
  have h5 : "65535".length = 5 := rfl
  rw [getPortFromString]
  by_cases hl : p.length ≤ 5
  · simp only [h5]
    rw [if_neg (by omega), getPortFrom_ok_iff _ _ _ _ (by omega)]
    exact ⟨fun h => ⟨h.1, hl, h.2, by omega⟩, fun h => ⟨h.digits, h.value⟩⟩
  · simp only [h5]
    rw [if_pos (by omega)]
    constructor
    · intro h
      cases h
    · intro h
      exact absurd h.length hl

theorem portText_colon {p : List Char} {n : Nat} (h : PortText p n) : ':' ∉ p := by
  intro hm
  exact absurd (h.digits ':' hm) (by decide)

/-! ## The overloads -/

section

variable {n : Nat} (af : UInt16) (pton : Pton n) (a : SockaddrInet n)

/-- The arguments of an overload stand for the bytes `b` and the port `k`. -/
def Parses : SetArgs → Vector Byte n → UInt16 → Prop
  | .hostAndPort s, b, k =>
    ∃ h p, s = h ++ ':' :: p ∧ PortText p k.toNat ∧ pton (unbracket h) = some b
  | .hostAndStr host port, b, k => PortText port k.toNat ∧ pton host = some b
  | .hostAndNum host port, b, k => port = k ∧ pton host = some b

/-- What a call can do: everything is stored, or it throws and nothing is. -/
inductive SetSpec (args : SetArgs) : Call (SockaddrInet n) → Prop where
  | returned (b : Vector Byte n) (k : UInt16) (h : Parses pton args b k) :
      SetSpec args (.ok (), ⟨af, htons k, b⟩)
  | thrown (e : InvalidArgument) (h : ∀ b k, ¬Parses pton args b k) : SetSpec args (.error e, a)

theorem setByHostAndNum_spec (host : List Char) (port : UInt16) :
    SetSpec af pton a (.hostAndNum host port) (a.setByHostAndNum af pton host port) := by
  rw [SockaddrInet.setByHostAndNum]
  cases hb : pton host with
  | none =>
    apply SetSpec.thrown
    intro b k h
    rw [Parses, hb] at h
    cases h.2
  | some b => exact SetSpec.returned b port ⟨rfl, hb⟩

/-- Arguments that stand for the same thing behave the same way. -/
theorem SetSpec.of_iff {args args' : SetArgs} {r : Call (SockaddrInet n)}
    (hp : ∀ b k, Parses pton args b k ↔ Parses pton args' b k) (h : SetSpec af pton a args r) :
    SetSpec af pton a args' r := by
  cases h with
  | returned b k h => exact .returned b k ((hp b k).1 h)
  | thrown e h => exact .thrown e fun b k hb => h b k ((hp b k).2 hb)

theorem setByHostAndStr_spec (host port : List Char) :
    SetSpec af pton a (.hostAndStr host port) (a.setByHostAndStr af pton host port) := by
  rw [SockaddrInet.setByHostAndStr]
  cases hk : getPortFromString port with
  | error e =>
    apply SetSpec.thrown
    intro b k h
    rw [(getPortFromString_ok_iff port k).2 h.1] at hk
    cases hk
  | ok k =>
    apply SetSpec.of_iff af pton a ?_ (setByHostAndNum_spec af pton a host k)
    intro b k'
    rw [Parses, Parses, ← getPortFromString_ok_iff, hk, Except.ok.injEq]

theorem setByHostAndPort_spec (s : List Char) :
    SetSpec af pton a (.hostAndPort s) (a.setByHostAndPort af pton s) := by
  rw [SockaddrInet.setByHostAndPort]
  by_cases hc : ':' ∈ s
  · obtain ⟨h, p, rfl, hp⟩ := exists_last_split hc
    rw [hostAndPortParser_split h hp]
    apply SetSpec.of_iff af pton a ?_ (setByHostAndStr_spec af pton a (unbracket h) p)
    intro b k
    constructor
    · intro hb
      exact ⟨h, p, rfl, hb.1, hb.2⟩
    · rintro ⟨h', p', he, hp', hb⟩
      obtain ⟨rfl, rfl⟩ := last_split_unique he hp (portText_colon hp')
      exact ⟨hp', hb⟩
  · obtain ⟨e, he⟩ := hostAndPortParser_error hc
    rw [he]
    apply SetSpec.thrown
    rintro b k ⟨h, p, rfl, -, -⟩
    exact hc (List.mem_append_right h List.mem_cons_self)

theorem set_spec (args : SetArgs) : SetSpec af pton a args (a.set af pton args) := by
  cases args with
  | hostAndPort s => exact setByHostAndPort_spec af pton a s
  | hostAndStr host port => exact setByHostAndStr_spec af pton a host port
  | hostAndNum host port => exact setByHostAndNum_spec af pton a host port

end

theorem IPV4Address.set_eq (lib : InetLib) (a : IPV4Address) (args : SetArgs) :
    a.set lib args = a.within (a.toSockaddrInet.set afInet lib.inetPton4 args) := by
  cases args with
  | hostAndPort s => rfl
  | hostAndStr host port => rfl
  | hostAndNum host port => rfl

theorem IPV6Address.set_eq (lib : InetLib) (a : IPV6Address) (args : SetArgs) :
    a.set lib args = a.within (a.toSockaddrInet.set afInet6 lib.inetPton6 args) := by
  cases args with
  | hostAndPort s => rfl
  | hostAndStr host port => rfl
  | hostAndNum host port => rfl

/-- What a call did to the shared fields, by whether it threw. -/
def Atomic {n : Nat} (af : UInt16) (pton : Pton n) (args : SetArgs)
    (before after : SockaddrInet n) : Except InvalidArgument Unit → Prop
  | .error _ => after = before
  | .ok _ => ∃ b k, Parses pton args b k ∧ after = ⟨af, htons k, b⟩

theorem SetSpec.atomic {n : Nat} {af : UInt16} {pton : Pton n} {a : SockaddrInet n}
    {args : SetArgs} {r : Call (SockaddrInet n)} (h : SetSpec af pton a args r) :
    Atomic af pton args a r.2 r.1 := by
  cases h with
  | returned b k h => exact ⟨b, k, h, rfl⟩
  | thrown e h => rfl

/-- A call that throws changes nothing; one that returns stores the family, the port and the
address it parsed, and nothing else. -/
theorem setByHostAndPort_atomic (lib : InetLib) :
    (∀ (a : IPV4Address) (args : SetArgs),
      Atomic afInet lib.inetPton4 args a.toSockaddrInet (a.set lib args).2.toSockaddrInet
        (a.set lib args).1 ∧ (a.set lib args).2.sinZero = a.sinZero) ∧
    ∀ (a : IPV6Address) (args : SetArgs),
      Atomic afInet6 lib.inetPton6 args a.toSockaddrInet (a.set lib args).2.toSockaddrInet
        (a.set lib args).1 ∧ (a.set lib args).2.flowinfo = a.flowinfo ∧
          (a.set lib args).2.scopeId = a.scopeId := by
  constructor
  · intro a args
    rw [a.set_eq lib args]
    exact ⟨(set_spec afInet lib.inetPton4 a.toSockaddrInet args).atomic, rfl⟩
  · intro a args
    rw [a.set_eq lib args]
    exact ⟨(set_spec afInet6 lib.inetPton6 a.toSockaddrInet args).atomic, rfl, rfl⟩

/-! ## The grammar -/

section

variable {n : Nat} (pton : Pton n)

/-- `h ':' p`, split at the last colon, with a port of at least one digit and a host that
`inet_pton` accepts. -/
def Grammar (s : List Char) (k : Nat) : Prop :=
  ∃ h p, s = h ++ ':' :: p ∧ ':' ∉ p ∧ p ≠ [] ∧ PortText p k ∧ (pton (unbracket h)).isSome

/-- The call succeeds exactly on the grammar, and then has stored the port. -/
def FollowsGrammar (s : List Char) (port : UInt16) : Except InvalidArgument Unit → Prop
  | .error _ => ∀ k, ¬Grammar pton s k
  | .ok _ => ∃ k, Grammar pton s k ∧ port = htons (UInt16.ofNat k)

/-- A host that is accepted, a colon, and nothing behind it. -/
def EmptyPort (s : List Char) : Prop := ∃ h, s = h ++ [':'] ∧ (pton (unbracket h)).isSome

variable {pton}

theorem parses_of_grammar {s : List Char} {k : Nat} (h : Grammar pton s k) :
    ∃ b, Parses pton (.hostAndPort s) b (UInt16.ofNat k) := by
  obtain ⟨h, p, hs, -, -, hp, ho⟩ := h
  obtain ⟨b, hb⟩ := Option.isSome_iff_exists.1 ho
  have hf := hp.fits
  refine ⟨b, h, p, hs, ?_, hb⟩
  rwa [UInt16.toNat_ofNat_of_lt' (Nat.lt_succ_of_le hf)]

/-- What is accepted is in the grammar, the empty port apart. -/
theorem grammar_or_emptyPort {s : List Char} {b : Vector Byte n} {k : UInt16}
    (h : Parses pton (.hostAndPort s) b k) : Grammar pton s k.toNat ∨ EmptyPort pton s := by
  obtain ⟨h, p, hs, hp, hb⟩ := h
  have ho : (pton (unbracket h)).isSome := Option.isSome_iff_exists.2 ⟨b, hb⟩
  cases p with
  | nil => exact .inr ⟨h, hs, ho⟩
  | cons c p => exact .inl ⟨h, c :: p, hs, portText_colon hp, List.cons_ne_nil c p, hp, ho⟩

theorem not_grammar_of_emptyPort {s : List Char} (he : EmptyPort pton s) (k : Nat) :
    ¬Grammar pton s k := by
  rintro ⟨h, p, hs, hc, hp, -, -⟩
  obtain ⟨h', rfl, -⟩ := he
  exact hp (last_split_unique hs List.not_mem_nil hc).2.symm

theorem parses_of_emptyPort {s : List Char} (he : EmptyPort pton s) :
    ∃ b, Parses pton (.hostAndPort s) b 0 := by
  obtain ⟨h, rfl, ho⟩ := he
  obtain ⟨b, hb⟩ := Option.isSome_iff_exists.1 ho
  refine ⟨b, h, [], rfl, ⟨?_, ?_, rfl, ?_⟩, hb⟩
  · intro c hc
    cases hc
  · decide
  · decide

theorem SetSpec.followsGrammar_iff {af : UInt16} {a : SockaddrInet n} {s : List Char}
    {r : Call (SockaddrInet n)} (h : SetSpec af pton a (.hostAndPort s) r) :
    FollowsGrammar pton s r.2.port r.1 ↔ ¬EmptyPort pton s := by
  cases h with
  | returned b k h =>
    constructor
    · rintro ⟨k', hg, -⟩ he
      exact not_grammar_of_emptyPort he k' hg
    · intro he
      refine ⟨k.toNat, (grammar_or_emptyPort h).resolve_right he, ?_⟩
      rw [UInt16.ofNat_toNat]
  | thrown e h =>
    constructor
    · intro _ he
      obtain ⟨b, hb⟩ := parses_of_emptyPort he
      exact h b 0 hb
    · intro _ k hg
      obtain ⟨b, hb⟩ := parses_of_grammar hg
      exact h b _ hb

end

/-- The classes accept exactly the grammar, but for an empty port behind a good host. -/
theorem setByHostAndPort_grammar_iff (lib : InetLib) (s : List Char) :
    (∀ a : IPV4Address, FollowsGrammar lib.inetPton4 s (a.setByHostAndPort lib s).2.port
      (a.setByHostAndPort lib s).1 ↔ ¬EmptyPort lib.inetPton4 s) ∧
    ∀ a : IPV6Address, FollowsGrammar lib.inetPton6 s (a.setByHostAndPort lib s).2.port
      (a.setByHostAndPort lib s).1 ↔ ¬EmptyPort lib.inetPton6 s :=
  ⟨fun a => (setByHostAndPort_spec afInet lib.inetPton4 a.toSockaddrInet s).followsGrammar_iff,
    fun a => (setByHostAndPort_spec afInet6 lib.inetPton6 a.toSockaddrInet s).followsGrammar_iff⟩

/-- `1.2.3.4:` is accepted, with port 0. -/
theorem setByHostAndPort_empty_port :
    (IPV4Address.init.setByHostAndPort plainLib "1.2.3.4:".toList).1 = .ok () ∧
    ¬FollowsGrammar plainLib.inetPton4 "1.2.3.4:".toList
      (IPV4Address.init.setByHostAndPort plainLib "1.2.3.4:".toList).2.port
      (IPV4Address.init.setByHostAndPort plainLib "1.2.3.4:".toList).1 := by
  have he : EmptyPort plainLib.inetPton4 "1.2.3.4:".toList :=
    ⟨"1.2.3.4".toList, by decide, by decide⟩
  refine ⟨by decide, fun h => ?_⟩
  exact (setByHostAndPort_spec afInet plainLib.inetPton4 _ _).followsGrammar_iff.1 h he

/-! ## The round trip -/

@[simp] theorem htons_ntohs (x : UInt16) : htons (ntohs x) = x := by
  have hx := x.toNat_lt
  have h1 : (ntohs x).toNat = x.toNat % 0x100 * 0x100 + x.toNat / 0x100 := by
    rw [ntohs, htons, UInt16.toNat_ofNat']
    omega
  have h2 : (ntohs x).toNat % 0x100 = x.toNat / 0x100 := by omega
  have h3 : (ntohs x).toNat / 0x100 = x.toNat % 0x100 := by omega
  apply UInt16.toNat_inj.1
  rw [htons, UInt16.toNat_ofNat', h2, h3]
  omega

/-- The port that was set is read back. -/
theorem getPort_setPort {n : Nat} (a : SockaddrInet n) (port : UInt16) :
    (a.setPort port).getPort = port :=
  htons_ntohs port

theorem getAddressStr_eq (a : IPV4Address) : a.getAddressStr = dottedQuad a.addr := by
  have h0 := (a.addr.get 0).isLt
  have h1 := (a.addr.get 1).isLt
  have h2 := (a.addr.get 2).isLt
  have h3 := (a.addr.get 3).isLt
  have e0 : (ntohl a.addr >>> 24) &&& 0xff = (a.addr.get 0).val := by
    rw [Nat.shiftRight_eq_div_pow, Nat.and_two_pow_sub_one_eq_mod _ 8, ntohl]
    omega
  have e1 : (ntohl a.addr >>> 16) &&& 0xff = (a.addr.get 1).val := by
    rw [Nat.shiftRight_eq_div_pow, Nat.and_two_pow_sub_one_eq_mod _ 8, ntohl]
    omega
  have e2 : (ntohl a.addr >>> 8) &&& 0xff = (a.addr.get 2).val := by
    rw [Nat.shiftRight_eq_div_pow, Nat.and_two_pow_sub_one_eq_mod _ 8, ntohl]
    omega
  have e3 : ntohl a.addr &&& 0xff = (a.addr.get 3).val := by
    rw [Nat.and_two_pow_sub_one_eq_mod _ 8, ntohl]
    omega
  rw [IPV4Address.getAddressStr, dottedQuad]
  simp only [e0, e1, e2, e3]

theorem portText_toDigits (k : UInt16) : PortText (Nat.toDigits 10 k.toNat) k.toNat where
  digits := fun _ hc => Nat.isDigit_of_mem_toDigits (by decide) (by decide) hc
  length := by
    have hk := k.toNat_lt
    rw [Nat.length_toDigits_le_iff (by decide) (by decide)]
    omega
  value := Nat.ofDigitChars_ten_toDigits
  fits := by
    have hk := k.toNat_lt
    omega

/-- Text of the form `toString` writes is read as what it was written from. -/
theorem setByHostAndPort_written {n : Nat} (af : UInt16) {pton : Pton n} (a : SockaddrInet n)
    {t : List Char} {b : Vector Byte n} (ht : t.head? ≠ some '[') (hb : pton t = some b)
    (k : UInt16) : a.setByHostAndPort af pton (t ++ ':' :: Nat.toDigits 10 k.toNat) =
      (.ok (), ⟨af, htons k, b⟩) := by
  have hp := portText_toDigits k
  rw [SockaddrInet.setByHostAndPort, hostAndPortParser_split t (portText_colon hp),
    unbracket_of_head ht]
  show a.setByHostAndStr af pton t (Nat.toDigits 10 k.toNat) = _
  rw [SockaddrInet.setByHostAndStr, (getPortFromString_ok_iff _ k).2 hp]
  show a.setByHostAndNum af pton t k = _
  rw [SockaddrInet.setByHostAndNum, hb]

/-- The calls that change an address. -/
inductive AddrOp where
  | set (args : SetArgs)
  | setPort (port : UInt16)
  deriving DecidableEq, Repr

namespace SockaddrInet

variable {n : Nat} (af : UInt16) (pton : Pton n)

def apply (a : SockaddrInet n) : AddrOp → SockaddrInet n
  | .set args => (a.set af pton args).2
  | .setPort port => a.setPort port

variable {af pton}

theorem family_of_ok {a : SockaddrInet n} {args : SetArgs}
    (h : (a.set af pton args).1 = .ok ()) : (a.set af pton args).2.family = af := by
  have hspec := set_spec af pton a args
  generalize a.set af pton args = r at h hspec
  cases hspec with
  | returned b k hp => rfl
  | thrown e hp => cases h

theorem apply_family {a : SockaddrInet n} (h : a.family = af) (op : AddrOp) :
    (a.apply af pton op).family = af := by
  cases op with
  | set args =>
    have hspec := set_spec af pton a args
    rw [apply]
    generalize a.set af pton args = r at hspec
    cases hspec with
    | returned b k hp => rfl
    | thrown e hp => exact h
  | setPort port => exact h

/-- From a `setByHostAndPort` that returned on, the family is the class's own. -/
theorem foldl_family {a : SockaddrInet n} (before after : List AddrOp) {args : SetArgs}
    (h : ((before.foldl (apply af pton) a).set af pton args).1 = .ok ()) :
    ((before ++ .set args :: after).foldl (apply af pton) a).family = af := by
  rw [List.foldl_append, List.foldl_cons]
  exact List.foldlRecOn (motive := fun b => b.family = af) after (apply af pton)
    (family_of_ok h) fun b hb op _ => apply_family hb op

end SockaddrInet

namespace IPV4Address

variable (lib : InetLib)

def apply (a : IPV4Address) : AddrOp → IPV4Address
  | .set args => (a.set lib args).2
  | .setPort port => a.setPort port

/-- Obtained from the default constructor by calls of which at least one `setByHostAndPort`
returned. -/
def Held (a : IPV4Address) : Prop :=
  ∃ before args after, ((before.foldl (apply lib) init).set lib args).1 = .ok () ∧
    a = (before ++ .set args :: after).foldl (apply lib) init

variable {lib}

/-- The calls work on the shared fields alone. -/
theorem foldl_apply (ops : List AddrOp) (a : IPV4Address) : ops.foldl (apply lib) a =
    { a with toSockaddrInet :=
        ops.foldl (SockaddrInet.apply afInet lib.inetPton4) a.toSockaddrInet } := by
  induction ops generalizing a with
  | nil => rfl
  | cons op ops ih =>
    rw [List.foldl_cons, ih]
    cases op with
    | set args =>
      rw [apply, set_eq]
      rfl
    | setPort port => rfl

theorem Held.fields {a : IPV4Address} (h : a.Held lib) :
    a.family = afInet ∧ a.sinZero = init.sinZero := by
  obtain ⟨before, args, after, hok, rfl⟩ := h
  rw [set_eq, foldl_apply] at hok
  rw [foldl_apply]
  exact ⟨SockaddrInet.foldl_family before after hok, rfl⟩

theorem ofHostAndPort_toString (hl : lib.Inverts) {a : IPV4Address} (h : a.Held lib) :
    ofHostAndPort lib a.toString = .ok a := by
  obtain ⟨hfam, hzero⟩ := h.fields
  have hw := setByHostAndPort_written afInet init.toSockaddrInet (dottedQuad_head a.addr)
    (hl.pton4 a.addr) (ntohs a.port)
  rw [ofHostAndPort, setByHostAndPort, toString, getAddressStr_eq, hw, htons_ntohs, ← hfam]
  show Except.ok (⟨a.toSockaddrInet, init.sinZero⟩ : IPV4Address) = .ok a
  rw [← hzero]

end IPV4Address

namespace IPV6Address

variable (lib : InetLib)

def apply (a : IPV6Address) : AddrOp → IPV6Address
  | .set args => (a.set lib args).2
  | .setPort port => a.setPort port

/-- Obtained from the default constructor by calls of which at least one `setByHostAndPort`
returned. -/
def Held (a : IPV6Address) : Prop :=
  ∃ before args after, ((before.foldl (apply lib) init).set lib args).1 = .ok () ∧
    a = (before ++ .set args :: after).foldl (apply lib) init

variable {lib}

theorem foldl_apply (ops : List AddrOp) (a : IPV6Address) : ops.foldl (apply lib) a =
    { a with toSockaddrInet :=
        ops.foldl (SockaddrInet.apply afInet6 lib.inetPton6) a.toSockaddrInet } := by
  induction ops generalizing a with
  | nil => rfl
  | cons op ops ih =>
    rw [List.foldl_cons, ih]
    cases op with
    | set args =>
      rw [apply, set_eq]
      rfl
    | setPort port => rfl

theorem Held.fields {a : IPV6Address} (h : a.Held lib) :
    a.family = afInet6 ∧ a.flowinfo = 0 ∧ a.scopeId = 0 := by
  obtain ⟨before, args, after, hok, rfl⟩ := h
  rw [set_eq, foldl_apply] at hok
  rw [foldl_apply]
  exact ⟨SockaddrInet.foldl_family before after hok, rfl, rfl⟩

theorem ofHostAndPort_toString (hl : lib.Inverts) {a : IPV6Address} (h : a.Held lib) :
    ofHostAndPort lib (a.toString lib) = .ok a := by
  obtain ⟨t, ht, hb, hp⟩ := hl.pton6 a.addr
  obtain ⟨hfam, hflow, hscope⟩ := h.fields
  have hhead : t.head? ≠ some '[' := fun he => hb (List.mem_of_head? he)
  have hs : a.getAddressStr lib = t := by
    rw [getAddressStr, ht]
    exact if_neg (fun hne => hne hscope)
  have hw := setByHostAndPort_written afInet6 init.toSockaddrInet hhead hp (ntohs a.port)
  rw [ofHostAndPort, setByHostAndPort, toString, hs, hw, htons_ntohs, ← hfam]
  show Except.ok (⟨a.toSockaddrInet, 0, 0⟩ : IPV6Address) = .ok a
  exact congrArg₂ (fun x y => Except.ok (IPV6Address.mk a.toSockaddrInet x y)) hflow.symm
    hscope.symm

end IPV6Address

/-- The text of an address constructs an address that is equal to it. -/
theorem ofHostAndPort_toString_equal {lib : InetLib} (hl : lib.Inverts) :
    (∀ a : IPV4Address, a.Held lib → ∃ a', IPV4Address.ofHostAndPort lib a.toString = .ok a' ∧
      SockAddress.equal (.ipv4 a') (.ipv4 a) = true) ∧
    ∀ a : IPV6Address, a.Held lib → ∃ a',
      IPV6Address.ofHostAndPort lib (a.toString lib) = .ok a' ∧
      SockAddress.equal (.ipv6 a') (.ipv6 a) = true :=
  ⟨fun a h => ⟨a, IPV4Address.ofHostAndPort_toString hl h, (SockAddress.equal_iff _ _).2 rfl⟩,
    fun a h => ⟨a, IPV6Address.ofHostAndPort_toString hl h, (SockAddress.equal_iff _ _).2 rfl⟩⟩

theorem ofHostAndPort_toString_of_plainLib :
    let a : IPV4Address := (IPV4Address.init.set plainLib (.hostAndNum "1.2.3.4".toList 80)).2
    let b : IPV6Address := ((IPV6Address.init.set plainLib
      (.hostAndStr "1:2:3:4:5:6:7:a".toList "8".toList)).2.setPort 9)
    (∃ a', IPV4Address.ofHostAndPort plainLib a.toString = .ok a' ∧
      SockAddress.equal (.ipv4 a') (.ipv4 a) = true) ∧
    ∃ b', IPV6Address.ofHostAndPort plainLib (b.toString plainLib) = .ok b' ∧
      SockAddress.equal (.ipv6 b') (.ipv6 b) = true :=
  ⟨(ofHostAndPort_toString_equal plainLib_inverts).1 _ ⟨[], _, [], by decide, rfl⟩,
    (ofHostAndPort_toString_equal plainLib_inverts).2 _ ⟨[], _, [.setPort 9], by decide, rfl⟩⟩

end NetBase.Net
