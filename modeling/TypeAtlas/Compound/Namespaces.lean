import TypeAtlas.Compound.Basic
import Std.Data.TreeMap.Basic

/-!
# Namespaces of managed compounds

A managed source has no records for its namespaces. They follow from the types that it holds: each
scope that holds a type and is no type itself is a namespace, and so is each scope around it.

## Main definitions

* `NamespaceForest` — namespaces by name, each with the names of what it holds.
* `NamespaceForest.ofTypes` — the namespaces around a list of compounds.
* `synthesizeNamespaces` — the compounds for them, in the order of their names.
-/

namespace TypeAtlas

/-- Namespaces by name, each with the names of what it holds. -/
abbrev NamespaceForest := Std.TreeMap String (List String)

namespace NamespaceForest

/-- The forest with a namespace, which holds nothing if it is new. -/
def ensure (forest : NamespaceForest) (name : String) : NamespaceForest :=
  forest.insertIfNew name []

/-- The forest in which a namespace holds one more entity. -/
def hold (forest : NamespaceForest) (name child : String) : NamespaceForest :=
  forest.insert name (addName (forest.getD name []) child)

/-- The scope of a compound that is a namespace because of it. -/
def scopeOf? (typeNames : List String) (c : Compound) : Option String :=
  if c.kind = .namespace then none
  else c.parentName.filter fun scope => !typeNames.contains scope

/-- The forest with the namespaces around one more compound. -/
def addType (typeNames : List String) (forest : NamespaceForest) (c : Compound) : NamespaceForest :=
  match scopeOf? typeNames c with
  | none => forest
  | some scope => (Name.ancestors scope).foldl ensure (forest.hold scope c.fullName)

/-- The forest in which a namespace is held by the one around it. -/
def nest (forest : NamespaceForest) (name : String) : NamespaceForest :=
  match Name.scope? name with
  | none => forest
  | some scope => forest.hold scope name

/-- The namespaces around a list of compounds. -/
def ofTypes (types : List Compound) : NamespaceForest :=
  let forest := types.foldl (addType (types.map (·.fullName))) ∅
  forest.keys.foldl nest forest

/-- The compound of a namespace. -/
def compound (name : String) (childNames : List String) : Compound :=
  { Compound.empty ("N:" ++ name) .managed name .namespace with
    language := .cSharp
    childNames }

end NamespaceForest

/-- The compounds of the namespaces around a list of compounds, in the order of their names. -/
def synthesizeNamespaces (types : List Compound) : List Compound :=
  (NamespaceForest.ofTypes types).toList.map fun (name, childNames) =>
    NamespaceForest.compound name childNames

end TypeAtlas
