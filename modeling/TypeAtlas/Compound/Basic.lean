import TypeAtlas.Compound.Kind
import TypeAtlas.Declaration.Descriptor
import TypeAtlas.Documentation

/-!
# Compounds

A compound is one declared entity of one source: a namespace, a type or a set of overloads. All that
it refers to is still a name.

## Main definitions

* `Compound`, `Member`, `Parameter`, `EnumValue` — an entity and its parts.
* `Compound.empty` — a compound of which only the name and the kind are known.
* `Compound.addChild` — a compound that holds one more entity.
-/

namespace TypeAtlas

/-- A parameter of a member. -/
structure Parameter where
  name : String := ""
  rawType : String := ""
  declaredType : Descriptor := {}
  content : Content := {}
  deriving DecidableEq, Repr

/-- A value of an enumeration. -/
structure EnumValue where
  name : String := ""
  initializer : Option String := none
  content : Content := {}
  deriving DecidableEq, Repr

/-- A member of a compound. -/
structure Member where
  name : String
  kind : MemberKind
  rawType : String := ""
  rawArguments : String := ""
  declaredType : Descriptor := {}
  parameters : List Parameter := []
  content : Content := {}
  isStatic : Bool := false
  deriving DecidableEq, Repr

/-- A declared entity. -/
structure Compound where
  /-- What identifies the entity within its source. -/
  id : String
  source : Source
  /-- The name as the source writes it. -/
  rawName : String
  /-- The dotted name. -/
  fullName : String
  kind : CompoundKind
  language : Language := .cpp
  /-- The name of the entity that holds this one. -/
  parentName : Option String := none
  members : List Member := []
  enumValues : List EnumValue := []
  baseNames : List String := []
  derivedNames : List String := []
  childNames : List String := []
  templateParams : List String := []
  content : Content := {}
  traits : Traits := {}
  deriving DecidableEq, Repr

/-- A name added at the end of a list of names that does not hold it yet. -/
def addName (names : List String) (name : String) : List String :=
  if names.contains name then names else names ++ [name]

theorem mem_foldl_addName {names more : List String} {name : String} :
    name ∈ more.foldl addName names ↔ name ∈ names ∨ name ∈ more := by
  induction more generalizing names with
  | nil => simp
  | cons other more ih =>
    rw [List.foldl_cons, ih, List.mem_cons]
    unfold addName
    split <;> grind

/-- The names that are not blank, without blanks around them. -/
def nonBlankNames (names : List String) : List String :=
  (names.map Text.trimmed).filter (· != "")

namespace Compound

/-- A compound that holds nothing, inside the scope of its name. -/
def empty (id : String) (source : Source) (fullName : String) (kind : CompoundKind) : Compound where
  id
  source
  rawName := fullName
  fullName
  kind
  parentName := Name.scope? fullName

/-- The last segment of the name. -/
def name (c : Compound) : String :=
  Name.short c.fullName

/-- The compound with one more entity that it holds. -/
def addChild (c : Compound) (fullName : String) : Compound :=
  { c with childNames := addName c.childNames fullName }

/-- The members of one kind. -/
def membersOfKind (c : Compound) (kind : MemberKind) : List Member :=
  c.members.filter (·.kind == kind)

end Compound

end TypeAtlas
