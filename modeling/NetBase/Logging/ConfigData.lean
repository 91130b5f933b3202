import NetBase.Lib.Tracks
import NetBase.Config.Document

/-!
# Decoding the configuration of loggers

`LogConfigData` and its two decoders in `include/logging/logger_data_convert.h`:
`YAML::convert<…>::decode`, called through `as`, and `from_json`.

They differ in one assignment: the YAML decoder of a flusher stores the type in `name_pattern`,
where the pattern then replaces it. So its flushers have no type, and are the JSON decoder's with
the types taken off.
-/

namespace NetBase.Logging

open Lib Config

inductive Level
  | DEBUG
  | INFO
  | WARN
  | ERROR
  | FATAL
  | SIZE
  deriving DecidableEq, Repr

/-- `std::transform(…, ::toupper)` -/
def toUpper (str : String) : String := String.ofList (str.toList.map Char.toUpper)

def levelFromString (str : String) : Level :=
  let strUpper := toUpper str
  if strUpper = "DEBUG" then .DEBUG
  else if strUpper = "INFO" then .INFO
  else if strUpper = "WARN" then .WARN
  else if strUpper = "ERROR" then .ERROR
  else if strUpper = "FATAL" then .FATAL
  else .SIZE

structure LogFlusherConfigData where
  type : String := ""
  namePattern : String := ""
  deriving DecidableEq, Repr

structure LogConfigData where
  name : String := ""
  level : Level := .DEBUG
  formatter : String := ""
  flushers : List LogFlusherConfigData := []
  deriving DecidableEq, Repr

/-- The pattern of a flusher that has none. -/
def defaultPattern : String := "%H-%p.log"

/-! ## YAML -/

namespace Yaml

variable (onScalar : YamlError)

/-- `node.as<T>()`, with `none` for a decoder that returns `false`. -/
def as {T : Type} (decode : Doc → Except YamlError (Option T)) (node : Doc) :
    Except YamlError T := do
  match ← decode node with
  | none => throw .badConversion
  | some rhs => pure rhs

/-- `convert<String>::decode` -/
def decodeString : Doc → Except YamlError (Option String)
  | .scalar s => pure (some s)
  | _ => pure none

/-- `convert<std::vector<T>>::decode` -/
def decodeVector {T : Type} (decode : Doc → Except YamlError (Option T)) :
    Doc → Except YamlError (Option (List T))
  | .list items => do pure (some (← items.mapM (as decode)))
  | _ => pure none

/-- A field that may be absent: what it holds then, and its decoder. -/
def field {T : Type} (node : Doc) (key : String) (absent : T) (as : Doc → Except YamlError T) :
    Except YamlError T := do
  match ← node.index onScalar key with
  | none => pure absent
  | some d => as d

/-- `convert<LogFlusherConfigData>::decode` -/
def decodeFlusher (node : Doc) : Except YamlError (Option LogFlusherConfigData) := do
  let rhs : LogFlusherConfigData := {}
  match ← node.index onScalar "type" with
  | none => pure none
  | some type =>
    -- the type goes to the pattern
    let rhs := { rhs with namePattern := ← as decodeString type }
    let namePattern ← field onScalar node "pattern" defaultPattern (as decodeString)
    pure (some { rhs with namePattern := namePattern })

/-- `convert<LogConfigData>::decode` -/
def decode (node : Doc) : Except YamlError (Option LogConfigData) := do
  let rhs : LogConfigData := {}
  match ← node.index onScalar "name" with
  | none => pure none
  | some name =>
    let name ← as decodeString name
    let level ← field onScalar node "level" .DEBUG fun level => do
      pure (levelFromString (← as decodeString level))
    let formatter ← field onScalar node "formatter" rhs.formatter (as decodeString)
    let flushers ← field onScalar node "flusher" rhs.flushers
      (as (decodeVector (decodeFlusher onScalar)))
    pure (some ⟨name, level, formatter, flushers⟩)

end Yaml

/-! ## JSON -/

/-- The exceptions of nlohmann's library. -/
inductive JsonError
  | typeError
  deriving DecidableEq, Repr

namespace Json

/-- `get<String>()` -/
def getString : Doc → Except JsonError String
  | .scalar s => pure s
  | _ => throw .typeError

/-- `get<std::vector<T>>()` -/
def getVector {T : Type} (fromJson : Doc → Except JsonError T) : Doc → Except JsonError (List T)
  | .list items => items.mapM fromJson
  | _ => throw .typeError

/-- A field that may be absent: what it holds then, and its conversion. -/
def field {T : Type} (j : Doc) (key : String) (absent : T) (get : Doc → Except JsonError T) :
    Except JsonError T :=
  match j.find key with
  | none => pure absent
  | some d => get d

/-- `from_json(j, LogFlusherConfigData&)` -/
def flusherFromJson (j : Doc) : Except JsonError LogFlusherConfigData := do
  let rhs : LogFlusherConfigData := {}
  match j.find "type" with
  | none => pure rhs
  | some type =>
    let rhs := { rhs with type := ← getString type }
    let namePattern ← field j "pattern" defaultPattern getString
    pure { rhs with namePattern := namePattern }

/-- `from_json(j, LogConfigData&)` -/
def fromJson (j : Doc) : Except JsonError LogConfigData := do
  let rhs : LogConfigData := {}
  match j.find "name" with
  | none => pure rhs
  | some name =>
    let name ← getString name
    let level ← field j "level" .DEBUG fun level => do
      pure (levelFromString (← getString level))
    let formatter ← field j "formatter" rhs.formatter getString
    let flushers ← field j "flusher" rhs.flushers (getVector flusherFromJson)
    pure ⟨name, level, formatter, flushers⟩

end Json

/-! ## What the decoders have in common -/

/-- Both decoders return the same data, or both throw. -/
def Agree (onScalar : YamlError) (node : Doc) : Prop :=
  (∃ data, Yaml.as (Yaml.decode onScalar) node = .ok data ∧ Json.fromJson node = .ok data) ∨
    ((∃ e, Yaml.as (Yaml.decode onScalar) node = .error e) ∧ ∃ e, Json.fromJson node = .error e)

def IsString (d : Doc) : Prop := ∃ s, d = .scalar s

/-- The fields of a flusher that are there are strings. -/
def FlusherTyped (node : Doc) : Prop :=
  (∀ d, node.find "type" = some d → IsString d) ∧ (∀ d, node.find "pattern" = some d → IsString d)

/-- The fields of a logger that are there are strings, and a list of flushers. -/
def LoggerTyped (node : Doc) : Prop :=
  (∀ d, node.find "name" = some d → IsString d) ∧
    (∀ d, node.find "level" = some d → IsString d) ∧
    (∀ d, node.find "formatter" = some d → IsString d) ∧
    ∀ d, node.find "flusher" = some d → ∃ items, d = .list items ∧ ∀ f ∈ items, FlusherTyped f

/-- The flushers of a logger. -/
def flusherNodes (node : Doc) : List Doc :=
  match node.find "flusher" with
  | some (.list items) => items
  | _ => []

variable {onScalar : YamlError}

theorem tracks_string (d : Doc) :
    Tracks (IsString d) (fun a b => a = b ∧ d = .scalar b) (Yaml.as Yaml.decodeString d)
      (Json.getString d) := by
  cases d with
  | scalar s => exact (Tracks.pure ⟨rfl, rfl⟩).congr (by simp [IsString])
  | list items => exact (Tracks.error _ _).congr (by simp [IsString])
  | map entries => exact (Tracks.error _ _).congr (by simp [IsString])

/-- A field of a map is absent for both, or decoded from the same node. -/
theorem tracks_field {node : Doc} {key : String} {T T' : Type} {R : T → T' → Prop}
    {p : Doc → Prop} {a : T} {b : T'} {as : Doc → Except YamlError T}
    {get : Doc → Except JsonError T'}
    (hmap : ∀ key, node.index onScalar key = pure (node.find key))
    (hn : node.find key = none → R a b)
    (hs : ∀ d, node.find key = some d → Tracks (p d) R (as d) (get d)) :
    Tracks (∀ d, node.find key = some d → p d) R (Yaml.field onScalar node key a as)
      (Json.field node key b get) := by
  unfold Yaml.field Json.field
  rw [hmap, pure_bind]
  cases hk : node.find key with
  | none => exact (Tracks.pure (hn hk)).congr (by simp)
  | some d => exact (hs d hk).congr (by simp)

/-- The data without the type. -/
def untyped (data : LogFlusherConfigData) : LogFlusherConfigData := { data with type := "" }

theorem tracks_flusher {node : Doc} (h : (node.find "type").isSome) :
    Tracks (FlusherTyped node)
      (fun a b => a = untyped b ∧ node.find "type" = some (.scalar b.type))
      (Yaml.as (Yaml.decodeFlusher onScalar) node) (Json.flusherFromJson node) := by
  obtain ⟨type, ht⟩ := Option.isSome_iff_exists.1 h
  have hmap : ∀ key, node.index onScalar key = pure (node.find key) := fun _ =>
    Doc.index_of_find ht
  rw [Yaml.as]
  unfold Yaml.decodeFlusher Json.flusherFromJson
  simp only [hmap, ht, pure_bind, bind_assoc]
  refine ((tracks_string type).bind fun s s' hs => (tracks_field hmap (R := Eq) (fun _ => rfl)
    fun d _ => (tracks_string d).mono fun a b hab => hab.1).bind (q := True)
      fun pat pat' hpat => ?_).congr ?_
  · refine Tracks.pure ⟨?_, ?_⟩
    · rw [hpat]
      rfl
    · rw [hs.2]
  · simp [FlusherTyped, ht]

theorem tracks_vector {items : List Doc} (h : ∀ f ∈ items, (f.find "type").isSome) :
    Tracks (∀ f ∈ items, FlusherTyped f)
      (fun as bs => as = bs.map untyped ∧
        items.map (·.find "type") = bs.map fun b => some (.scalar b.type))
      (Yaml.as (Yaml.decodeVector (Yaml.decodeFlusher onScalar)) (.list items))
      (Json.getVector Json.flusherFromJson (.list items)) := by
  have hyaml : Yaml.as (Yaml.decodeVector (Yaml.decodeFlusher onScalar)) (.list items) =
      items.mapM (Yaml.as (Yaml.decodeFlusher onScalar)) := by
    rw [Yaml.as]
    simp only [Yaml.decodeVector, bind_assoc, pure_bind, bind_pure]
  rw [hyaml]
  exact Tracks.mapM fun f hf => tracks_flusher (h f hf)

theorem flusherNodes_eq {node : Doc} {items : List Doc}
    (h : node.find "flusher" = some (.list items)) : flusherNodes node = items := by
  simp [flusherNodes, h]

/-- The decoders take the same documents, and the YAML data is the JSON data without the types of
the flushers. -/
theorem tracks_logger (onScalar : YamlError) {node : Doc} (hn : (node.find "name").isSome)
    (ht : ∀ f ∈ flusherNodes node, (f.find "type").isSome) :
    Tracks (LoggerTyped node)
      (fun a b => a = { b with flushers := b.flushers.map untyped } ∧
        (flusherNodes node).map (·.find "type") = b.flushers.map fun b => some (.scalar b.type))
      (Yaml.as (Yaml.decode onScalar) node) (Json.fromJson node) := by
  obtain ⟨name, hname⟩ := Option.isSome_iff_exists.1 hn
  have hmap : ∀ key, node.index onScalar key = pure (node.find key) := fun _ =>
    Doc.index_of_find hname
  have hstring : ∀ d, Tracks (IsString d) (· = ·) (Yaml.as Yaml.decodeString d)
      (Json.getString d) := fun d => (tracks_string d).mono fun a b hab => hab.1
  have hlevel : ∀ d, Tracks (IsString d) (· = ·)
      (do pure (levelFromString (← Yaml.as Yaml.decodeString d)))
      (do pure (levelFromString (← Json.getString d))) := fun d =>
    ((hstring d).bind (q := True) fun a b hab => Tracks.pure (congrArg _ hab)).congr (by simp)
  have hflushers : ∀ d, node.find "flusher" = some d →
      Tracks (∃ items, d = .list items ∧ ∀ f ∈ items, FlusherTyped f)
        (fun as bs => as = bs.map untyped ∧
          (flusherNodes node).map (·.find "type") = bs.map fun b => some (.scalar b.type))
        (Yaml.as (Yaml.decodeVector (Yaml.decodeFlusher onScalar)) d)
        (Json.getVector Json.flusherFromJson d) := by
    intro d hd
    cases d with
    | scalar s => exact (Tracks.error _ _).congr (by simp)
    | map entries => exact (Tracks.error _ _).congr (by simp)
    | list items =>
      rw [flusherNodes_eq hd] at ht ⊢
      exact (tracks_vector ht).congr (by simp)
  rw [Yaml.as]
  unfold Yaml.decode Json.fromJson
  simp only [hmap, hname, pure_bind, bind_assoc]
  refine ((hstring name).bind fun n n' hn =>
    (tracks_field hmap (fun _ => rfl) fun d _ => hlevel d).bind fun l l' hl =>
    (tracks_field hmap (fun _ => rfl) fun d _ => hstring d).bind fun f f' hf =>
    (tracks_field hmap (fun hk => ?_) hflushers).bind (q := True) fun as bs has => ?_).congr ?_
  · simp [flusherNodes, hk]
  · exact Tracks.pure ⟨by rw [hn, hl, hf, has.1], has.2⟩
  · simp [LoggerTyped, hname]

theorem untyped_eq_self_iff {data : LogFlusherConfigData} :
    untyped data = data ↔ data.type = "" := by
  cases data
  simp [untyped, eq_comm]

theorem untyped_data_iff {data : LogConfigData} :
    { data with flushers := data.flushers.map untyped } = data ↔
      ∀ fl ∈ data.flushers, fl.type = "" := by
  have hmap : data.flushers.map untyped = data.flushers ↔ ∀ fl ∈ data.flushers, fl.type = "" := by
    conv_lhs => rhs; rw [← List.map_id data.flushers]
    rw [List.map_inj_left]
    exact forall₂_congr fun fl _ => untyped_eq_self_iff
  rw [← hmap]
  cases data
  simp

/-- **The two decoders.** For a logger with a name whose flushers have a type they agree exactly
when every type is the empty string, or a field is not of its kind, which makes both throw. -/
theorem decoders_agree_iff (onScalar : YamlError) {node : Doc} (hn : (node.find "name").isSome)
    (ht : ∀ f ∈ flusherNodes node, (f.find "type").isSome) :
    Agree onScalar node ↔
      (LoggerTyped node → ∀ f ∈ flusherNodes node, f.find "type" = some (.scalar "")) := by
  rcases tracks_logger onScalar hn ht with
    ⟨htyped, a, b, hy, hj, hab, htypes⟩ | ⟨hno, hy, hj⟩
  · have hempty : (∀ f ∈ flusherNodes node, f.find "type" = some (.scalar "")) ↔
        ∀ fl ∈ b.flushers, fl.type = "" := by
      rw [← List.forall_mem_map (P := fun t => t = some (Doc.scalar "")), htypes]
      simp
    have hsame : Agree onScalar node ↔ a = b := by
      simp [Agree, hy, hj, eq_comm]
    rw [hsame, hab, hempty, untyped_data_iff]
    simp only [htyped, forall_const]
  · exact ⟨fun _ h => absurd h hno, fun _ => .inr ⟨hy, hj⟩⟩

/-- A logger without flushers, and one whose flusher has an empty type. -/
theorem decoders_agree_untyped :
    Agree .badSubscript (.map [("name", .scalar "system"), ("level", .scalar "debug")]) ∧
      Agree .badSubscript (.map [("name", .scalar "root"), ("formatter", .scalar "%m%n"),
        ("flusher", .list [.map [("type", .scalar "")]])]) := by
  constructor
  · have hnone :
        flusherNodes (.map [("name", .scalar "system"), ("level", .scalar "debug")]) = [] := rfl
    refine (decoders_agree_iff _ rfl ?_).2 fun _ => ?_ <;> simp [hnone]
  · have hone : flusherNodes (.map [("name", .scalar "root"), ("formatter", .scalar "%m%n"),
        ("flusher", .list [.map [("type", .scalar "")]])]) = [.map [("type", .scalar "")]] := rfl
    refine (decoders_agree_iff _ rfl ?_).2 fun _ => ?_ <;> simp [hone, Doc.find]

/-- A logger as `bin/conf/test.yml` has them. -/
theorem decoders_disagree : ¬ Agree .badSubscript (.map [("name", .scalar "root"),
    ("level", .scalar "info"), ("formatter", .scalar "%d%T%m%n"),
    ("flusher", .list [.map [("type", .scalar "ProtectedFileFlusher"),
        ("pattern", .scalar "./logs/%H-root-%P.log")],
      .map [("type", .scalar "ProtectedStdoutFlusher")]])]) := by
  rintro (⟨data, hy, hj⟩ | ⟨⟨e, he⟩, -⟩)
  · have hyaml : data.flushers.map (·.type) = ["", ""] := by
      cases hy
      rfl
    have hjson : data.flushers.map (·.type) =
        ["ProtectedFileFlusher", "ProtectedStdoutFlusher"] := by
      cases hj
      rfl
    rw [hyaml] at hjson
    exact absurd hjson (by decide)
  · cases he

end NetBase.Logging
