import Mathlib.Tactic.Common

/-!
# Configuration documents

A document is a tree of maps, lists and strings, as both YAML and JSON have them. The two libraries
that read them are outside the repository: `find` is nlohmann's, which reports nothing for a value
that is not an object, and `index` is the `operator[]` of a `const YAML::Node`. What that throws
for a scalar is a parameter: yaml-cpp has an exception of its own for it, `BadSubscript`.
-/

namespace NetBase.Config

inductive Doc
  | scalar (s : String)
  | list (items : List Doc)
  | map (entries : List (String × Doc))

/-- The exceptions of yaml-cpp. -/
inductive YamlError
  | invalidNode
  | badSubscript
  | badConversion
  deriving DecidableEq, Repr

namespace Doc

def find : Doc → String → Option Doc
  | .map entries, key => entries.lookup key
  | _, _ => none

/-- `none` is the node of a missing key, which throws `InvalidNode` when it is used. -/
def index (onScalar : YamlError) : Doc → String → Except YamlError (Option Doc)
  | .scalar _, _ => .error onScalar
  | d, key => .ok (d.find key)

theorem index_of_find {onScalar : YamlError} {d d' : Doc} {k key : String}
    (h : d.find k = some d') : d.index onScalar key = .ok (d.find key) := by
  cases d with
  | scalar s => cases h
  | list items => rfl
  | map entries => rfl

/-- The node a list of keys leads to. -/
def at? : Doc → List String → Option Doc
  | d, [] => some d
  | d, key :: keys => (d.find key).bind fun d => at? d keys

/-- The keys ask a scalar for a member. -/
def AsksScalar : Doc → List String → Prop
  | _, [] => False
  | .scalar _, _ :: _ => True
  | d, key :: keys =>
    match d.find key with
    | none => False
    | some d => AsksScalar d keys

end Doc

end NetBase.Config
