import NetBase.Base.StringPiece
import NetBase.Config.Document

/-!
# Looking up a key

`JsonConfig::get` and `YamlConfig::get` of `include/config.h`, up to the conversion of the node
they reach. A node is known by the keys that lead to it from the root.

The first is a loop over the pieces of the key, the second a switch on their number that indexes
the document up to five times. `resolve_alike_iff` says where the two part: no piece at
all, one piece and a dot, more than five pieces, and a scalar on the way.
-/

namespace NetBase.Config

/-- `ConfigBase` with the document loaded. -/
structure ConfigBase where
  root : Doc
  /-- The keys `getIfExists` has remembered a default for. -/
  missMap : List String := []

/-- How far a lookup gets. -/
inductive Lookup
  | memoised
  | node (path : List String) (doc : Doc)
  | keyNotFound
  /-- An exception `get` does not catch. -/
  | escapes (e : YamlError)

/-- `splitStringPiece(key, ".")` -/
def pieces (key : String) : List String :=
  (splitStringPiece key.toList ['.']).map fun p => String.ofList (p.text key.toList)

namespace JsonConfig

/-- The loop of `get`, from the node reached so far. -/
def walk (path : List String) : Doc → List String → Lookup
  | d, [] => .node path d
  | d, key :: keys =>
    match d.find key with
    | some d => walk path d keys
    | none => .keyNotFound

def get (c : ConfigBase) (key : String) : Lookup :=
  if key ∈ c.missMap then .memoised
  else walk (pieces key) c.root (pieces key)

end JsonConfig

namespace YamlConfig

variable (onScalar : YamlError)

/-- The node behind `d[k₀][k₁]…`; a missing key throws at the next index or at the assignment. -/
def chain : Doc → List String → Except YamlError Doc
  | d, [] => .ok d
  | d, key :: keys =>
    match d.index onScalar key with
    | .error e => .error e
    | .ok none => .error .invalidNode
    | .ok (some d) => chain d keys

/-- `node = node_[k₀][k₁]…` and the handler around it. No node of a document is null. -/
def assign (d : Doc) (path : List String) : Lookup :=
  match chain onScalar d path with
  | .ok d => .node path d
  | .error .invalidNode => .keyNotFound
  | .error e => .escapes e

def get (c : ConfigBase) (key : String) : Lookup :=
  if key ∈ c.missMap then .memoised
  else
    match pieces key with
    | [] => .keyNotFound
    | [_] => assign onScalar c.root [key]
    | [k₀, k₁] => assign onScalar c.root [k₀, k₁]
    | [k₀, k₁, k₂] => assign onScalar c.root [k₀, k₁, k₂]
    | [k₀, k₁, k₂, k₃] => assign onScalar c.root [k₀, k₁, k₂, k₃]
    | [k₀, k₁, k₂, k₃, k₄] => assign onScalar c.root [k₀, k₁, k₂, k₃, k₄]
    -- too deep: `node` is still null
    | _ => .keyNotFound

end YamlConfig

/-- Both reach one node, or both throw `KeyNotFound`. -/
def Alike (a b : Lookup) : Prop :=
  (∃ path d, a = .node path d ∧ b = .node path d) ∨ (a = .keyNotFound ∧ b = .keyNotFound)

/-- The key has a piece; a single piece is the whole key, or neither is there to be found; more
than five pieces lead nowhere; and up to five ask no scalar for a member, unless that is reported
like a missing key. -/
structure Resolvable (onScalar : YamlError) (root : Doc) (key : String) : Prop where
  nonempty : key ≠ ""
  single : ∀ k, pieces key = [k] → key ≠ k → root.find key = none ∧ root.find k = none
  deep : 5 < (pieces key).length → root.at? (pieces key) = none
  scalar : (pieces key).length ≤ 5 → onScalar = .invalidNode ∨ ¬ root.AsksScalar (pieces key)

/-! ## The two walks -/

/-- What a lookup says about the node it was after. -/
def found (path : List String) : Option Doc → Lookup
  | some d => .node path d
  | none => .keyNotFound

theorem json_walk (path : List String) (d : Doc) (keys : List String) :
    JsonConfig.walk path d keys = found path (d.at? keys) := by
  induction keys generalizing d with
  | nil => rfl
  | cons key keys ih =>
    simp only [JsonConfig.walk, Doc.at?]
    cases d.find key with
    | none => rfl
    | some d => exact ih d

theorem at?_of_asksScalar {d : Doc} {keys : List String} (h : d.AsksScalar keys) :
    d.at? keys = none := by
  induction keys generalizing d with
  | nil => cases h
  | cons key keys ih =>
    simp only [Doc.at?, Option.bind_eq_none_iff]
    intro d' hd'
    cases d with
    | scalar s => cases hd'
    | list items => cases hd'
    | map entries =>
      simp only [Doc.AsksScalar, hd'] at h
      exact ih h

theorem chain_of_asksScalar (onScalar : YamlError) {d : Doc} {keys : List String}
    (h : d.AsksScalar keys) : YamlConfig.chain onScalar d keys = .error onScalar := by
  induction keys generalizing d with
  | nil => cases h
  | cons key keys ih =>
    cases d with
    | scalar s => rfl
    | list items => simp [Doc.AsksScalar, Doc.find] at h
    | map entries =>
      simp only [Doc.AsksScalar] at h
      cases hd : (Doc.map entries).find key with
      | none => simp [hd] at h
      | some d' =>
        simp only [hd] at h
        simp only [YamlConfig.chain, Doc.index, hd]
        exact ih h

theorem chain_of_not_asksScalar (onScalar : YamlError) {d : Doc} {keys : List String}
    (h : ¬ d.AsksScalar keys) :
    YamlConfig.chain onScalar d keys =
      match d.at? keys with
      | some d => .ok d
      | none => .error .invalidNode := by
  induction keys generalizing d with
  | nil => rfl
  | cons key keys ih =>
    cases d with
    | scalar s => exact absurd trivial h
    | list items => rfl
    | map entries =>
      simp only [Doc.AsksScalar] at h
      cases hd : (Doc.map entries).find key with
      | none => simp [YamlConfig.chain, Doc.index, Doc.at?, hd]
      | some d' =>
        simp only [hd] at h
        simp only [YamlConfig.chain, Doc.index, Doc.at?, hd]
        exact ih h

/-- Where no scalar is asked the chain finds what the document has. -/
theorem assign_eq {onScalar : YamlError} {d : Doc} {path : List String}
    (h : onScalar = .invalidNode ∨ ¬ d.AsksScalar path) :
    YamlConfig.assign onScalar d path = found path (d.at? path) := by
  unfold YamlConfig.assign
  by_cases ha : d.AsksScalar path
  · rw [chain_of_asksScalar onScalar ha, at?_of_asksScalar ha, h.resolve_right (not_not_intro ha)]
    rfl
  · rw [chain_of_not_asksScalar onScalar ha]
    cases d.at? path <;> rfl

theorem assign_escapes {onScalar : YamlError} {d : Doc} {path : List String}
    (hs : onScalar ≠ .invalidNode) (ha : d.AsksScalar path) :
    YamlConfig.assign onScalar d path = .escapes onScalar := by
  unfold YamlConfig.assign
  rw [chain_of_asksScalar onScalar ha]
  cases onScalar with
  | invalidNode => exact absurd rfl hs
  | badSubscript => rfl
  | badConversion => rfl

theorem not_alike_escapes {e : YamlError} {b : Lookup} : ¬ Alike (.escapes e) b := by
  rintro (⟨_, _, h, -⟩ | ⟨h, -⟩) <;> cases h

theorem alike_found_iff {path path' : List String} {o o' : Option Doc} :
    Alike (found path o) (found path' o') ↔
      (o = none ∧ o' = none) ∨ (path = path' ∧ ∃ d, o = some d ∧ o' = some d) := by
  cases o with
  | none =>
    cases o' with
    | none => simp [Alike, found]
    | some d' => simp [Alike, found]
  | some d =>
    cases o' with
    | none => simp [Alike, found]
    | some d' =>
      simp only [Alike, found, Lookup.node.injEq, reduceCtorEq, false_and, or_false, false_or,
        Option.some.injEq]
      constructor
      · rintro ⟨p, e, ⟨h1, h2⟩, h3, h4⟩
        exact ⟨h1.trans h3.symm, e, h2, h4⟩
      · rintro ⟨h, e, h1, h2⟩
        exact ⟨path, e, ⟨rfl, h1⟩, h.symm, h2⟩

/-- The chain against any lookup: both walk, or the chain runs into a scalar. -/
theorem alike_assign_iff (onScalar : YamlError) (d : Doc) (path : List String) (b : Lookup) :
    Alike (YamlConfig.assign onScalar d path) b ↔
      Alike (found path (d.at? path)) b ∧ (onScalar = .invalidNode ∨ ¬ d.AsksScalar path) := by
  by_cases h : onScalar = .invalidNode ∨ ¬ d.AsksScalar path
  · rw [assign_eq h, and_iff_left h]
  · obtain ⟨hs, ha⟩ := not_or.1 h
    rw [assign_escapes hs (not_not.1 ha)]
    exact ⟨fun ha => absurd ha not_alike_escapes, fun hc => absurd hc.2 h⟩

/-- Whether the root is a scalar does not depend on the key. -/
theorem asksScalar_single (d : Doc) (key k : String) : d.AsksScalar [key] ↔ d.AsksScalar [k] := by
  cases d with
  | scalar s => exact Iff.rfl
  | list items => exact Iff.rfl
  | map entries =>
    simp only [Doc.AsksScalar]
    constructor <;> intro h <;> split at h <;> cases h

/-! ## The switch -/

theorem pieces_eq_nil_iff (key : String) : pieces key = [] ↔ key = "" := by
  rw [pieces, List.map_eq_nil_iff, splitStringPiece_eq_nil_iff (List.cons_ne_nil _ _)]
  simp

variable {onScalar : YamlError} {c : ConfigBase} {key : String}

/-- Two to five pieces are indexed one after the other. -/
theorem yaml_get_of_pieces (hm : key ∉ c.missMap) (h2 : 2 ≤ (pieces key).length)
    (h5 : (pieces key).length ≤ 5) :
    YamlConfig.get onScalar c key = YamlConfig.assign onScalar c.root (pieces key) := by
  unfold YamlConfig.get
  rw [if_neg hm]
  match hp : pieces key, h2, h5 with
  | [_, _], _, _ => rfl
  | [_, _, _], _, _ => rfl
  | [_, _, _, _], _, _ => rfl
  | [_, _, _, _, _], _, _ => rfl

theorem yaml_get_of_deep (hm : key ∉ c.missMap) (h : 5 < (pieces key).length) :
    YamlConfig.get onScalar c key = .keyNotFound := by
  unfold YamlConfig.get
  rw [if_neg hm]
  match hp : pieces key, h with
  | _ :: _ :: _ :: _ :: _ :: _ :: _, _ => rfl

/-- What the loop comes to. -/
theorem json_get (hm : key ∉ c.missMap) :
    JsonConfig.get c key = found (pieces key) (c.root.at? (pieces key)) := by
  rw [JsonConfig.get, if_neg hm, json_walk]

section

variable {root : Doc} {ym jm : List String}

/-- No piece: the loop stays at the root. -/
theorem not_alike_empty (hy : "" ∉ ym) (hj : "" ∉ jm) :
    ¬ Alike (YamlConfig.get onScalar ⟨root, ym⟩ "") (JsonConfig.get ⟨root, jm⟩ "") := by
  have hp := (pieces_eq_nil_iff "").2 rfl
  have hyaml : YamlConfig.get onScalar ⟨root, ym⟩ "" = found [] none := by
    simp [YamlConfig.get, hy, hp, found]
  rw [hyaml, json_get hj, hp, alike_found_iff]
  simp [Doc.at?]

/-- More than five pieces. -/
theorem alike_deep_iff (hy : key ∉ ym) (hj : key ∉ jm) (h : 5 < (pieces key).length) :
    Alike (YamlConfig.get onScalar ⟨root, ym⟩ key) (JsonConfig.get ⟨root, jm⟩ key) ↔
      root.at? (pieces key) = none := by
  have hfound := @alike_found_iff (pieces key) (pieces key) none (root.at? (pieces key))
  rw [yaml_get_of_deep hy h, json_get hj]
  exact hfound.trans (by simp)

/-- Two to five pieces. -/
theorem alike_pieces_iff (hy : key ∉ ym) (hj : key ∉ jm) (h2 : 2 ≤ (pieces key).length)
    (h5 : (pieces key).length ≤ 5) :
    Alike (YamlConfig.get onScalar ⟨root, ym⟩ key) (JsonConfig.get ⟨root, jm⟩ key) ↔
      onScalar = .invalidNode ∨ ¬ root.AsksScalar (pieces key) := by
  rw [yaml_get_of_pieces hy h2 h5, json_get hj, alike_assign_iff, alike_found_iff]
  apply and_iff_right
  cases root.at? (pieces key) with
  | none => exact .inl ⟨rfl, rfl⟩
  | some d => exact .inr ⟨rfl, d, rfl, rfl⟩

/-- One piece, which the switch does not use. -/
theorem alike_single_iff {k : String} (hy : key ∉ ym) (hj : key ∉ jm) (hk : pieces key = [k]) :
    Alike (YamlConfig.get onScalar ⟨root, ym⟩ key) (JsonConfig.get ⟨root, jm⟩ key) ↔
      (key ≠ k → root.find key = none ∧ root.find k = none) ∧
        (onScalar = .invalidNode ∨ ¬ root.AsksScalar [k]) := by
  have hyaml : YamlConfig.get onScalar ⟨root, ym⟩ key = YamlConfig.assign onScalar root [key] := by
    simp [YamlConfig.get, hy, hk]
  rw [hyaml, json_get hj, hk, alike_assign_iff, alike_found_iff, asksScalar_single root key k]
  apply and_congr_left
  intro _
  simp only [Doc.at?, Option.bind_fun_some, List.cons.injEq, and_true]
  by_cases hkey : key = k
  · subst hkey
    cases root.find key <;> simp
  · simp [hkey]

end

/-- **Keys in YAML and JSON.** A key the configuration has not remembered a default for resolves
alike in both formats exactly when it is `Resolvable`. -/
theorem resolve_alike_iff (onScalar : YamlError) (root : Doc) {ym jm : List String} {key : String}
    (hy : key ∉ ym) (hj : key ∉ jm) :
    Alike (YamlConfig.get onScalar ⟨root, ym⟩ key) (JsonConfig.get ⟨root, jm⟩ key) ↔
      Resolvable onScalar root key := by
  by_cases hempty : key = ""
  · subst hempty
    exact ⟨fun h => absurd h (not_alike_empty hy hj), fun h => absurd rfl h.nonempty⟩
  have hlen : 0 < (pieces key).length :=
    List.length_pos_iff.2 fun hp => hempty ((pieces_eq_nil_iff key).1 hp)
  by_cases hdeep : 5 < (pieces key).length
  · rw [alike_deep_iff hy hj hdeep]
    refine ⟨fun h => ⟨hempty, fun k hk => ?_, fun _ => h, fun h5 => ?_⟩, fun h => h.deep hdeep⟩
    · rw [hk] at hdeep
      simp at hdeep
    · omega
  by_cases htwo : 2 ≤ (pieces key).length
  · rw [alike_pieces_iff hy hj htwo (by omega)]
    refine ⟨fun h => ⟨hempty, fun k hk => ?_, fun h5 => absurd h5 hdeep, fun _ => h⟩,
      fun h => h.scalar (by omega)⟩
    rw [hk] at htwo
    simp at htwo
  · obtain ⟨k, hk⟩ := List.length_eq_one_iff.1 (show (pieces key).length = 1 by omega)
    rw [alike_single_iff hy hj hk]
    constructor
    · rintro ⟨hsingle, hscalar⟩
      refine ⟨hempty, fun k' hk' => ?_, fun h5 => absurd h5 hdeep, fun _ => hk ▸ hscalar⟩
      cases hk.symm.trans hk'
      exact hsingle
    · intro h
      exact ⟨h.single k hk, hk ▸ h.scalar (by omega)⟩

/-- A value two keys deep, with a default remembered for another key. -/
theorem resolve_alike_port :
    Alike (YamlConfig.get .badSubscript
        ⟨.map [("system", .map [("port", .scalar "9900")])], ["logs"]⟩ "system.port")
      (JsonConfig.get ⟨.map [("system", .map [("port", .scalar "9900")])], []⟩ "system.port") := by
  have hp : pieces "system.port" = ["system", "port"] := by decide +kernel
  refine (resolve_alike_iff .badSubscript _ (by decide) (by decide)).2 ⟨by decide, ?_, ?_, ?_⟩
  · intro k hk
    rw [hp] at hk
    cases hk
  · rw [hp]
    simp
  · rw [hp]
    simp [Doc.AsksScalar, Doc.find]

/-- The empty key, a key with a dot at its end, a key of six pieces and a key that goes on below
a scalar. -/
theorem resolve_not_alike :
    ¬ Alike (YamlConfig.get .badSubscript ⟨.map [("a", .scalar "1")], []⟩ "")
        (JsonConfig.get ⟨.map [("a", .scalar "1")], []⟩ "") ∧
    ¬ Alike (YamlConfig.get .badSubscript ⟨.map [("a", .scalar "1")], []⟩ "a.")
        (JsonConfig.get ⟨.map [("a", .scalar "1")], []⟩ "a.") ∧
    ¬ Alike (YamlConfig.get .badSubscript ⟨.map [("a", .map [("a", .map [("a", .map [("a",
          .map [("a", .map [("a", .scalar "1")])])])])])], []⟩ "a.a.a.a.a.a")
        (JsonConfig.get ⟨.map [("a", .map [("a", .map [("a", .map [("a",
          .map [("a", .map [("a", .scalar "1")])])])])])], []⟩ "a.a.a.a.a.a") ∧
    ¬ Alike (YamlConfig.get .badSubscript ⟨.map [("a", .scalar "1")], []⟩ "a.b")
        (JsonConfig.get ⟨.map [("a", .scalar "1")], []⟩ "a.b") := by
  have h0 : pieces "" = [] := by decide +kernel
  have h1 : pieces "a." = ["a"] := by decide +kernel
  have h6 : pieces "a.a.a.a.a.a" = ["a", "a", "a", "a", "a", "a"] := by decide +kernel
  have h2 : pieces "a.b" = ["a", "b"] := by decide +kernel
  have hdot : [("a", Doc.scalar "1")].lookup "a." = none := rfl
  refine ⟨?_, ?_, ?_, ?_⟩ <;>
    simp [Alike, YamlConfig.get, JsonConfig.get, YamlConfig.assign, YamlConfig.chain,
      JsonConfig.walk, Doc.index, Doc.find, h0, h1, h2, h6, hdot]

end NetBase.Config
