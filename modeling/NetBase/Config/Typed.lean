import NetBase.Base.Split
import NetBase.Config.Lookup
import NetBase.Lib.Runs

/-!
# Values of a configuration

`get<T>` and `getIfExists<T>` of `JsonConfig` and `YamlConfig` in `include/config.h`. `τ` stands
for the types a caller may ask for and `V t` for the values of one. Both classes remember the
default of a key that was not found as a `std::any`, under the key alone, and share the code around
that; what they do for a key without one is `Read`.

The two libraries are parameters: what a conversion throws, and for YAML what a subscript throws and
which nodes are null. `dotted_lookup` is about keys that are joined from names,
`documented_exceptions_iff` about the exceptions of whole sequences of calls.
-/

namespace NetBase.Config

open Lib (Meets)

/-- The exceptions of a conversion by nlohmann. -/
inductive JsonError
  | typeError
  | other
  deriving DecidableEq, Repr

/-- What leaves a call. -/
inductive Thrown
  | keyNotFound
  | convertFailed
  | badAnyCast
  | json (e : JsonError)
  | yaml (e : YamlError)
  deriving DecidableEq, Repr

/-! ## Remembered defaults -/

section

variable {τ : Type} [DecidableEq τ] {V : τ → Type}

/-- `std::any` -/
abbrev Any (V : τ → Type) := (t : τ) × V t

def anyCast (t : τ) (a : Any V) : Except Thrown (V t) :=
  if h : a.1 = t then .ok (h ▸ a.2) else .error .badAnyCast

abbrev MissMap (V : τ → Type) := List (String × Any V)

/-- `get` for a key without a remembered default. -/
abbrev Read (V : τ → Type) := (t : τ) → String → Except Thrown (V t)

variable (read : Read V)

def get (miss : MissMap V) (t : τ) (key : String) : Except Thrown (V t) :=
  match miss.lookup key with
  | some a => anyCast t a
  | none => read t key

/-- The result, and the defaults remembered behind the call. -/
def getIfExists (miss : MissMap V) (t : τ) (key : String) (default : V t) :
    Except Thrown (V t) × MissMap V :=
  match get read miss t key with
  | .error .keyNotFound => (anyCast t ⟨t, default⟩, (key, ⟨t, default⟩) :: miss)
  | result => (result, miss)

/-- A call of one of the two. -/
inductive Call (V : τ → Type)
  | get (t : τ) (key : String)
  | getIfExists (t : τ) (key : String) (default : V t)

namespace Call

def type : Call V → τ
  | get t _ => t
  | getIfExists t _ _ => t

def key : Call V → String
  | get _ key => key
  | getIfExists _ key _ => key

end Call

/-- What is remembered behind a call. -/
def step (miss : MissMap V) : Call V → Option (MissMap V)
  | .get _ _ => some miss
  | .getIfExists t key default => some (getIfExists read miss t key default).2

/-- A call returns a value or throws what its documentation names. -/
def Documented (miss : MissMap V) : Call V → Prop
  | .get t key => ∀ e, get read miss t key = .error e → e = .keyNotFound ∨ e = .convertFailed
  | .getIfExists t key default =>
    ∀ e, (getIfExists read miss t key default).1 = .error e → e = .convertFailed

/-- A remembered default is asked for with its own type. -/
def SameType (miss : MissMap V) (call : Call V) : Prop :=
  ∀ a, miss.lookup call.key = some a → a.1 = call.type

/-- The lookup and the conversion throw what is documented. -/
def ReadsWell (t : τ) (key : String) : Prop :=
  ∀ e, read t key = .error e → e = .keyNotFound ∨ e = .convertFailed

variable {read} {miss : MissMap V} {t : τ} {key : String}

theorem anyCast_self (v : V t) : anyCast t ⟨t, v⟩ = .ok v := dif_pos rfl

theorem anyCast_ok_iff (a : Any V) : (∃ v, anyCast t a = .ok v) ↔ a.1 = t := by
  unfold anyCast
  by_cases h : a.1 = t
  · rw [dif_pos h]
    exact iff_of_true ⟨_, rfl⟩ h
  · rw [dif_neg h]
    exact iff_of_false (fun ⟨_, hv⟩ => by cases hv) h

/-- A cast gives the value back or throws what nobody expects. -/
theorem get_documented_iff :
    (∀ e, get read miss t key = .error e → e = .keyNotFound ∨ e = .convertFailed) ↔
      (∀ a, miss.lookup key = some a → a.1 = t) ∧
        (miss.lookup key = none → ReadsWell read t key) := by
  unfold get ReadsWell
  cases miss.lookup key with
  | none => simp
  | some a =>
    simp only [Option.some.injEq, forall_eq', reduceCtorEq, false_implies, and_true]
    by_cases h : a.1 = t
    · obtain ⟨v, hv⟩ := (anyCast_ok_iff a).2 h
      rw [hv]
      exact iff_of_true (fun e he => by cases he) h
    · rw [anyCast, dif_neg h]
      exact iff_of_false (fun hd => by simpa using hd _ rfl) h

theorem getIfExists_of_missing (h : get read miss t key = .error .keyNotFound) (default : V t) :
    getIfExists read miss t key default = (.ok default, (key, ⟨t, default⟩) :: miss) := by
  unfold getIfExists
  simp only [h, anyCast_self]

/-- `getIfExists` throws what `get` throws, a missing key aside. -/
theorem getIfExists_documented_iff (default : V t) :
    (∀ e, (getIfExists read miss t key default).1 = .error e → e = .convertFailed) ↔
      ∀ e, get read miss t key = .error e → e = .keyNotFound ∨ e = .convertFailed := by
  cases hg : get read miss t key with
  | ok v => simp [getIfExists, hg]
  | error e =>
    cases e with
    | keyNotFound => simp [getIfExists_of_missing hg]
    | convertFailed => simp [getIfExists, hg]
    | badAnyCast => simp [getIfExists, hg]
    | json e => simp [getIfExists, hg]
    | yaml e => simp [getIfExists, hg]

theorem documented_iff (call : Call V) :
    Documented read miss call ↔
      SameType miss call ∧ (miss.lookup call.key = none → ReadsWell read call.type call.key) := by
  cases call with
  | get t key => exact get_documented_iff
  | getIfExists t key default =>
    exact (getIfExists_documented_iff default).trans get_documented_iff

end

/-! ## JSON -/

section

variable {τ : Type} {V : τ → Type}

/-- `get<T>()` of nlohmann. -/
abbrev JsonLib (V : τ → Type) := (t : τ) → Doc → Except JsonError (V t)

variable (lib : JsonLib V) (root : Doc)

def jsonRead : Read V := fun t key =>
  match JsonConfig.get ⟨root, []⟩ key with
  | .node _ d =>
    match lib t d with
    | .ok v => .ok v
    | .error .typeError => .error .convertFailed
    | .error e => .error (.json e)
  | _ => .error .keyNotFound

/-- The conversion of what the key leads to throws a type error or nothing. -/
def JsonConverts (t : τ) (key : String) : Prop :=
  ∀ d, root.at? (pieces key) = some d → ∀ e, lib t d = .error e → e = .typeError

variable {lib root} {t : τ} {key : String}

theorem jsonRead_none (h : root.at? (pieces key) = none) :
    jsonRead lib root t key = .error .keyNotFound := by
  rw [jsonRead, json_get List.not_mem_nil, h]
  rfl

theorem jsonRead_some {d : Doc} (h : root.at? (pieces key) = some d) :
    jsonRead lib root t key =
      match lib t d with
      | .ok v => .ok v
      | .error .typeError => .error .convertFailed
      | .error e => .error (.json e) := by
  rw [jsonRead, json_get List.not_mem_nil, h]
  rfl

theorem jsonRead_readsWell_iff :
    ReadsWell (jsonRead lib root) t key ↔ JsonConverts lib root t key := by
  unfold ReadsWell JsonConverts
  cases hd : root.at? (pieces key) with
  | none =>
    rw [jsonRead_none hd]
    simp
  | some d =>
    rw [jsonRead_some hd]
    cases hl : lib t d with
    | ok v => simp [hl]
    | error e => cases e <;> simp [hl]

end

/-! ## YAML -/

section

variable {τ : Type} {V : τ → Type} {N : Type}

/-- `operator[]`, `IsNull` and `as<T>()` of a `const YAML::Node`; a missing key gives no node. -/
structure YamlLib (N : Type) (V : τ → Type) where
  index : N → String → Except YamlError (Option N)
  isNull : N → Bool
  as : (t : τ) → N → Except YamlError (V t)

/-- The switch over the number of pieces: the keys that are indexed. None at all and more than five
leave the node as it was, which is null. -/
def switchPath (key : String) : Option (List String) :=
  match pieces key with
  | [] => none
  | [_] => some [key]
  | [k₀, k₁] => some [k₀, k₁]
  | [k₀, k₁, k₂] => some [k₀, k₁, k₂]
  | [k₀, k₁, k₂, k₃] => some [k₀, k₁, k₂, k₃]
  | [k₀, k₁, k₂, k₃, k₄] => some [k₀, k₁, k₂, k₃, k₄]
  | _ => none

variable (lib : YamlLib N V)

namespace YamlLib

/-- `node[k₀][k₁]…`; a missing key throws at the next index or at the assignment. -/
def chain : N → List String → Except YamlError N
  | node, [] => .ok node
  | node, key :: keys =>
    match lib.index node key with
    | .error e => .error e
    | .ok none => .error .invalidNode
    | .ok (some node) => chain node keys

/-- No subscript on the way throws anything but `InvalidNode`: no scalar is asked for a member. -/
def Indexable : N → List String → Prop
  | _, [] => True
  | node, key :: keys =>
    match lib.index node key with
    | .error e => e = .invalidNode
    | .ok none => True
    | .ok (some node) => Indexable node keys

end YamlLib

def yamlRead (root : N) : Read V := fun t key =>
  match switchPath key with
  | none => .error .keyNotFound
  | some path =>
    match lib.chain root path with
    | .error .invalidNode => .error .keyNotFound
    | .error e => .error (.yaml e)
    | .ok node =>
      if lib.isNull node then .error .keyNotFound
      else
        match lib.as t node with
        | .ok v => .ok v
        | .error .badConversion => .error .convertFailed
        | .error e => .error (.yaml e)

/-- The keys can be indexed, and the conversion of the node they lead to throws `BadConversion` or
nothing. -/
def YamlConverts (root : N) (t : τ) (key : String) : Prop :=
  ∀ path, switchPath key = some path → lib.Indexable root path ∧
    ∀ node, lib.chain root path = .ok node → lib.isNull node = false →
      ∀ e, lib.as t node = .error e → e = .badConversion

variable {lib} {t : τ} {key : String}

theorem indexable_iff (node : N) (path : List String) :
    lib.Indexable node path ↔ ∀ e, lib.chain node path = .error e → e = .invalidNode := by
  induction path generalizing node with
  | nil => simp [YamlLib.Indexable, YamlLib.chain]
  | cons key path ih =>
    unfold YamlLib.Indexable YamlLib.chain
    cases lib.index node key with
    | error e => simp
    | ok o =>
      cases o with
      | none => simp
      | some node => exact ih node

theorem yamlRead_readsWell_iff (root : N) :
    ReadsWell (yamlRead lib root) t key ↔ YamlConverts lib root t key := by
  unfold ReadsWell YamlConverts yamlRead
  cases switchPath key with
  | none => simp
  | some path =>
    simp only [Option.some.injEq, forall_eq', indexable_iff]
    cases lib.chain root path with
    | error e => cases e <;> simp
    | ok node =>
      cases hn : lib.isNull node with
      | true => simp [hn]
      | false =>
        cases ha : lib.as t node with
        | ok v => simp [hn, ha]
        | error e => cases e <;> simp [hn, ha]

/-- The documents of `Lookup`, which have no null. -/
def docLib (onScalar : YamlError) (as : (t : τ) → Doc → Except YamlError (V t)) : YamlLib Doc V :=
  ⟨Doc.index onScalar, fun _ => false, as⟩

theorem chain_docLib (onScalar : YamlError) (as : (t : τ) → Doc → Except YamlError (V t)) (d : Doc)
    (path : List String) :
    (docLib onScalar as).chain d path = YamlConfig.chain onScalar d path := by
  induction path generalizing d with
  | nil => rfl
  | cons key path ih =>
    have hindex : (docLib onScalar as).index d key = d.index onScalar key := rfl
    unfold YamlLib.chain YamlConfig.chain
    rw [hindex]
    cases Doc.index onScalar d key with
    | error e => rfl
    | ok o =>
      cases o with
      | none => rfl
      | some d => exact ih d

theorem yaml_get_eq_switch (onScalar : YamlError) (root : Doc) (key : String) :
    YamlConfig.get onScalar ⟨root, []⟩ key =
      match switchPath key with
      | none => .keyNotFound
      | some path => YamlConfig.assign onScalar root path := by
  rw [YamlConfig.get, if_neg List.not_mem_nil]
  unfold switchPath
  generalize pieces key = ps
  rcases ps with _ | ⟨_, _ | ⟨_, _ | ⟨_, _ | ⟨_, _ | ⟨_, _ | ⟨_, _⟩⟩⟩⟩⟩⟩ <;> rfl

/-- On these documents the node that is converted is the one of `YamlConfig.get`. -/
theorem yamlRead_docLib (onScalar : YamlError) (as : (t : τ) → Doc → Except YamlError (V t))
    (root : Doc) (t : τ) (key : String) :
    yamlRead (docLib onScalar as) root t key =
      match YamlConfig.get onScalar ⟨root, []⟩ key with
      | .node _ d =>
        match as t d with
        | .ok v => .ok v
        | .error .badConversion => .error .convertFailed
        | .error e => .error (.yaml e)
      | .escapes e => .error (.yaml e)
      | _ => .error .keyNotFound := by
  rw [yaml_get_eq_switch, yamlRead]
  cases switchPath key with
  | none => rfl
  | some path =>
    simp only [chain_docLib, YamlConfig.assign]
    cases YamlConfig.chain onScalar root path with
    | ok d => rfl
    | error e => cases e <;> rfl

end

/-! ## Joined keys -/

/-- `join(".", names)` -/
def joinNames (names : List String) : String :=
  String.ofList (join ['.'] (names.map String.toList))

/-- The pieces of a joined key are its names. -/
theorem pieces_joinNames {names : List String} (hne : names ≠ [])
    (hnames : ∀ name ∈ names, name ≠ "" ∧ '.' ∉ name.toList)
    (hlen : (joinNames names).toList.length < 0x10000000000000000) :
    pieces (joinNames names) = names := by
  have hsplit : (splitWords (joinNames names).toList ['.'] 0).map
      (StringPiece.text (joinNames names).toList) = names.map String.toList := by
    apply splitWords_join (by simpa using hne)
    · intro l hl
      obtain ⟨name, hn, rfl⟩ := List.mem_map.1 hl
      obtain ⟨h0, hdot⟩ := hnames name hn
      exact ⟨fun he => h0 (String.toList_eq_nil_iff.1 he), hdot⟩
    · rw [List.drop_zero, joinNames, String.toList_ofList]
  have hloop : splitStringPiece (joinNames names).toList ['.'] =
      splitWords (joinNames names).toList ['.'] 0 :=
    (splitStringPiece_of_ne (List.cons_ne_nil _ _)).trans (splitLoop_one hlen)
  have hmap : (splitWords (joinNames names).toList ['.'] 0).map
      (fun p => String.ofList (p.text (joinNames names).toList)) =
        (names.map String.toList).map String.ofList := by
    rw [← hsplit, List.map_map]
    rfl
  rw [pieces, hloop, hmap, List.map_map]
  simp [Function.comp_def]

section

variable {τ : Type} [DecidableEq τ] {V : τ → Type}

/-- **Joined keys.** A key that is joined from names leads to the value the names lead to in the
document, one object below the other, and that value is converted; without one the key is not
found. -/
theorem dotted_lookup (lib : JsonLib V) (hlib : ∀ t d e, lib t d = .error e → e = .typeError)
    (root : Doc) (miss : MissMap V) (t : τ) {names : List String} (hne : names ≠ [])
    (hnames : ∀ name ∈ names, name ≠ "" ∧ '.' ∉ name.toList)
    (hlen : (joinNames names).toList.length < 0x10000000000000000)
    (hmiss : miss.lookup (joinNames names) = none) :
    get (jsonRead lib root) miss t (joinNames names) =
      match root.at? names with
      | none => .error .keyNotFound
      | some d =>
        match lib t d with
        | .ok v => .ok v
        | .error _ => .error .convertFailed := by
  have hp := pieces_joinNames hne hnames hlen
  rw [get, hmiss]
  show jsonRead lib root t (joinNames names) = _
  cases hd : root.at? names with
  | none => exact jsonRead_none (by rw [hp, hd])
  | some d =>
    have hread := @jsonRead_some _ _ lib root t (joinNames names) d (by rw [hp, hd])
    rw [hread]
    show _ = match lib t d with
      | .ok v => Except.ok v
      | .error _ => Except.error Thrown.convertFailed
    cases hl : lib t d with
    | ok v => rfl
    | error e =>
      cases hlib t d e hl
      rfl

/-- Two types to ask for. -/
inductive Kind
  | int
  | string
  deriving DecidableEq

def Kind.Value : Kind → Type
  | int => Nat
  | string => String

def number (s : String) : Nat :=
  s.toList.foldl (fun n c => 10 * n + (c.toNat - '0'.toNat)) 0

/-- Only scalars convert, and to a number only digits. -/
def scalarLib : JsonLib Kind.Value
  | .int, .scalar s => if s.toList.all Char.isDigit then .ok (number s) else .error .typeError
  | .string, .scalar s => .ok s
  | _, _ => .error .typeError

theorem scalarLib_error (t : Kind) (d : Doc) (e : JsonError) (h : scalarLib t d = .error e) :
    e = .typeError := by
  cases t <;> cases d <;> simp only [scalarLib] at h
  · split at h <;> cases h
    rfl
  all_goals cases h
  all_goals rfl

/-- A document with a port and a host below one name. -/
def portDoc : Doc :=
  .map [("system", .map [("port", .scalar "9900"), ("host", .scalar "lon")])]

/-- A number, a text that is no number, and a name below a value. -/
theorem dotted_lookup_port :
    get (jsonRead scalarLib portDoc) [] .int (joinNames ["system", "port"]) = .ok (9900 : Nat) ∧
      get (jsonRead scalarLib portDoc) [] .int (joinNames ["system", "host"]) =
        .error .convertFailed ∧
      get (jsonRead scalarLib portDoc) [] .string (joinNames ["system", "port", "tcp"]) =
        .error .keyNotFound := by
  refine ⟨?_, ?_, ?_⟩
  · exact (dotted_lookup scalarLib scalarLib_error portDoc [] .int (by decide) (by decide)
      (by decide) rfl).trans rfl
  · exact (dotted_lookup scalarLib scalarLib_error portDoc [] .int (by decide) (by decide)
      (by decide) rfl).trans rfl
  · exact (dotted_lookup scalarLib scalarLib_error portDoc [] .string (by decide) (by decide)
      (by decide) rfl).trans rfl

/-- **Exceptions.** The calls on a configuration return or throw what is documented exactly when no
default is asked for with another type than its own, conversions report values that do not
convert as such, and, in YAML, no scalar is asked for a member. -/
theorem documented_exceptions_iff (miss : MissMap V) (calls : List (Call V)) :
    (∀ (lib : JsonLib V) (root : Doc),
      Meets (step (jsonRead lib root)) (Documented (jsonRead lib root)) miss calls ↔
        Meets (step (jsonRead lib root)) (fun miss call => SameType miss call ∧
          (miss.lookup call.key = none → JsonConverts lib root call.type call.key)) miss calls) ∧
    (∀ (N : Type) (lib : YamlLib N V) (root : N),
      Meets (step (yamlRead lib root)) (Documented (yamlRead lib root)) miss calls ↔
        Meets (step (yamlRead lib root)) (fun miss call => SameType miss call ∧
          (miss.lookup call.key = none →
            YamlConverts lib root call.type call.key)) miss calls) := by
  constructor
  · intro lib root
    apply Lib.meets_congr
    intro miss call
    rw [documented_iff, jsonRead_readsWell_iff]
  · intro N lib root
    apply Lib.meets_congr
    intro miss call
    rw [documented_iff, yamlRead_readsWell_iff]

/-- A YAML library without conversions, which reports a name below a value as yaml-cpp does. -/
def subscriptLib : YamlLib Doc Kind.Value := docLib .badSubscript fun _ _ => .error .badConversion

/-- A default remembered as a number and asked for as a text; and a name below a value in YAML. -/
theorem undocumented_exceptions :
    ¬ Meets (step (jsonRead scalarLib portDoc)) (Documented (jsonRead scalarLib portDoc)) []
        [.getIfExists .int "retries" (3 : Nat), .get .string "retries"] ∧
      ¬ Meets (step (yamlRead subscriptLib portDoc)) (Documented (yamlRead subscriptLib portDoc)) []
        [.get .string "system.port.tcp"] := by
  constructor
  · rintro ⟨-, h⟩
    have hp : pieces "retries" = ["retries"] := by decide +kernel
    have hread : jsonRead scalarLib portDoc .int "retries" = .error .keyNotFound :=
      jsonRead_none (by rw [hp]; rfl)
    have hmiss : step (jsonRead scalarLib portDoc) [] (.getIfExists .int "retries" (3 : Nat)) =
        some [("retries", ⟨.int, (3 : Nat)⟩)] := by
      have hget : get (jsonRead scalarLib portDoc) [] .int "retries" = .error .keyNotFound := hread
      exact congrArg (fun r => some r.2) (getIfExists_of_missing hget _)
    have hcast := (h _ hmiss).1 .badAnyCast rfl
    exact absurd hcast (by decide)
  · rintro ⟨h, -⟩
    have hpath : switchPath "system.port.tcp" = some ["system", "port", "tcp"] := by decide +kernel
    have hread : yamlRead subscriptLib portDoc .string "system.port.tcp" =
        .error (.yaml .badSubscript) := by
      rw [yamlRead, hpath]
      rfl
    exact absurd (h _ hread) (by decide)

end

end NetBase.Config
