import TypeAtlas.Yaml.Basic
import TypeAtlas.Yaml.Word

/-!
# Reading structures from YAML

A structure is written as a mapping with one entry a field. Only a plain scalar can be null, a truth
value or a number, or a literal block with a tag that says so; any scalar can be a text. Where
nothing is written, a collection is empty.

## Main definitions

* `Yaml.exactFields?` — the fields of a structure by name.
* `Yaml.fieldOr?`, `Yaml.require?` — one of them, read.
* `Yaml.nullable?`, `Yaml.string?`, `Yaml.strings?`, `Yaml.truth?`, `Yaml.word32?` — values.
-/

namespace TypeAtlas

/-- The names of types that are common to all documents. -/
def YamlScalar.commonTag (name : String) : String :=
  "tag:yaml.org,2002:" ++ name

/-- Whether a scalar can stand for something else than its text, namely for a value of the type. -/
def YamlScalar.isWordOf (type : String) (scalar : YamlScalar) : Bool :=
  scalar.style == .plain
    || (scalar.style == .literal && scalar.tag == some (YamlScalar.commonTag type))

/-- Whether nothing is written. -/
def YamlScalar.isEmpty (scalar : YamlScalar) : Bool :=
  scalar.style == .plain && scalar.text == ""

namespace Yaml

/-- The fields of a structure that has no others than the given ones and none twice. -/
def exactFields? (names : List String) : Yaml → Option (List (String × Yaml))
  | .mapping entries =>
    let found := entries.map (·.1.text)
    if found.all names.contains && found.eraseDups.length == found.length then
      some (entries.map fun (key, v) => (key.text, v))
    else
      none
  | .scalar s => if s.isEmpty then some [] else none
  | .sequence _ => none

/-- A field, or the default for one that is missing. -/
def fieldOr? {α : Type} (fields : List (String × Yaml)) (name : String) (read? : Yaml → Option α)
    (default : α) : Option α :=
  match fields.lookup name with
  | none => some default
  | some v => read? v

/-- A field that must not be missing. -/
def require? {α : Type} (fields : List (String × Yaml)) (name : String)
    (read? : Yaml → Option α) : Option α :=
  (fields.lookup name).bind read?

/-- A value that may be null. One that a tag says to be null has to be. -/
def nullable? {α : Type} (read? : Yaml → Option α) (v : Yaml) : Option (Option α) :=
  match v with
  | .scalar { style := .plain, text, tag := none } =>
    if text == "" || isNull text then some none else (read? v).map some
  | .scalar { style := .plain, text, tag := some tag } =>
    if tag = YamlScalar.commonTag "null" then
      if isNull text then some none else none
    else
      (read? v).map some
  | v => (read? v).map some

/-- A text. -/
def string? (v : Yaml) : Option String :=
  v.scalar?.map (·.text)

/-- A truth value. -/
def truth? (v : Yaml) : Option Bool :=
  (v.scalar?.filter (·.isWordOf "bool")).bind fun s => bool? s.text

/-- A natural number of 32 bits. -/
def word32? (v : Yaml) : Option Nat :=
  ((v.scalar?.filter (·.isWordOf "int")).bind fun s => natural? s.text).filter (· < UInt32.size)

/-- A list of texts. -/
def strings? : Yaml → Option (List String)
  | .sequence items => items.mapM string?
  | .scalar s => if s.isEmpty then some [] else none
  | .mapping _ => none

end Yaml

end TypeAtlas
