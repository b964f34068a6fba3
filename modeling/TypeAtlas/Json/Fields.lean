import TypeAtlas.Json.Basic

/-!
# Reading structures from JSON

A structure is written as an object with one member a field, or as an array of its fields in order,
of which the last ones may be missing. An enumeration without arguments is written as the name of a
case, or as an object whose only member has this name and the value `null`.

## Main definitions

* `Json.fields?`, `Json.exactFields?` — the fields of a structure by name.
* `Json.fieldOr?`, `Json.require?` — one of them, read.
* `Json.caseName?` — the name of a case.
-/

namespace TypeAtlas.Json

/-- The fields of a structure with the given field names; members with other names are kept. -/
def fields? (names : List String) : Json → Option (List (String × Json))
  | .object members => some members
  | .array items => if items.length ≤ names.length then some (names.zip items) else none
  | _ => none

/-- The fields of a structure that has no others and none twice. -/
def exactFields? (names : List String) (v : Json) : Option (List (String × Json)) := do
  let fields ← fields? names v
  let found := fields.map (·.1)
  if found.all names.contains && found.eraseDups.length == found.length then some fields else none

/-- A field, or the default for one that is missing. -/
def fieldOr? {α : Type} (fields : List (String × Json)) (name : String) (read? : Json → Option α)
    (default : α) : Option α :=
  match lastMember? name fields with
  | none => some default
  | some v => read? v

/-- A field that must not be missing. -/
def require? {α : Type} (fields : List (String × Json)) (name : String)
    (read? : Json → Option α) : Option α :=
  (lastMember? name fields).bind read?

/-- A value that may be `null`. -/
def nullable? {α : Type} (read? : Json → Option α) (v : Json) : Option (Option α) :=
  match v with
  | .null => some none
  | v => (read? v).map some

/-- A list of values. -/
def list? {α : Type} (read? : Json → Option α) (v : Json) : Option (List α) :=
  match v with
  | .array items => items.mapM read?
  | _ => none

/-- A list of strings. -/
def strings? (v : Json) : Option (List String) :=
  list? string? v

/-- The name of a case of an enumeration. -/
def caseName? : Json → Option String
  | .string name => some name
  | .object [(name, .null)] => some name
  | _ => none

end TypeAtlas.Json
