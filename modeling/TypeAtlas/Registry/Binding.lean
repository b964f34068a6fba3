import TypeAtlas.Registry.Basic

/-!
# Binding names to nodes

Names that are written inside a compound are bound to slots of the registry: to a type parameter of
the compound, else to what has the name in one of the scopes around it, innermost first, else to
what the registry knows under the name, or a new facade. Binding works on the registry as it is at
that moment and may add slots to it.

## Main definitions

* `Site` — the place where a name is written.
* `Site.bindName`, `Site.bindType`, `Site.bindMember` — names, types and members bound to slots.
* `Registry.bindCompound` — the node of a compound, before it is linked to those that refer to it.
-/

namespace TypeAtlas

/-- A step that works on the registry. -/
abbrev Binding := StateM Registry

/-- The place where names are written: inside a compound, with its type parameters in sight. -/
structure Site where
  owner : TypeId
  /-- The name of the compound. -/
  scope : String
  generics : List (String × TypeId) := []
  deriving Repr

namespace Site

/-- The scopes in which a name may lie, innermost first. -/
def scopes (site : Site) : List String :=
  if site.scope = "" then [] else site.scope :: Name.enclosing site.scope

/-- What a name means in one of the scopes around it. -/
def findEnclosing? (site : Site) (r : Registry) (name : String) : Option TypeId :=
  site.scopes.findSome? fun scope => r.names[Name.qualify scope name]?

/-- The slot that a name is bound to; the empty name is bound to none. -/
def bindName (site : Site) (name : String) : Binding (Option TypeId) := do
  if name = "" then
    return none
  match site.generics.lookup name with
  | some id => return some id
  | none =>
    match site.findEnclosing? (← get) name with
    | some id => return some id
    | none =>
      let id ← fun r : Registry => r.getOrCreate name
      return some id

mutual

/-- A type with its name and the names of its arguments bound, in this order. -/
def bindType (site : Site) (d : Descriptor) : Binding TypeRef :=
  match d with
  | ⟨form, arguments⟩ => do
    let target ← site.bindName form.fullName
    let bound ← bindTypes site arguments
    return { descriptor := ⟨form, arguments⟩, target, arguments := bound }

/-- Several types with their names bound. -/
def bindTypes (site : Site) (ds : List Descriptor) : Binding (List TypeRef) :=
  match ds with
  | [] => return []
  | d :: ds => do
    let t ← bindType site d
    let ts ← bindTypes site ds
    return t :: ts

end

/-- A parameter with a bound type. -/
def bindParameter (site : Site) (p : Parameter) : Binding BoundParameter := do
  let declaredType ← site.bindType p.declaredType
  return { name := p.name, declaredType, content := p.content }

/-- A member with bound types. -/
def bindMember (site : Site) (m : Member) : Binding BoundMember := do
  let declaredType ← site.bindType m.declaredType
  let parameters ← m.parameters.mapM site.bindParameter
  return {
    name := m.name, kind := m.kind, declaredType, parameters, content := m.content
    isStatic := m.isStatic }

/-- A list of nodes with one more, unless it holds it or it is the owner itself. -/
def addOther (site : Site) (ids : List TypeId) (id : TypeId) : List TypeId :=
  if id = site.owner || ids.contains id then ids else ids ++ [id]

/-- The nodes that written types are bound to, each once and without the owner. -/
def bindNames (site : Site) (rawNames : List String) : Binding (List TypeId) :=
  rawNames.foldlM (fun ids raw => do
    let name := ((← get).parser.parse raw).fullName
    match ← site.bindName name with
    | some id => return site.addOther ids id
    | none => return ids) []

/-- The nodes of the listed children, each once and without the owner and the global namespace. -/
def bindChildren (site : Site) (childNames : List String) : Binding (List TypeId) :=
  childNames.foldlM (fun ids child => do
    let id ← fun r : Registry => r.getOrCreate child
    return if id = .global then ids else site.addOther ids id) []

end Site

namespace Registry

/-- The parent of a compound: the entity it names as such if there is one, else what has the name of
the nearest scope around that, else the global namespace. -/
def parentOf (r : Registry) (id : TypeId) (c : Compound) : TypeId :=
  match c.parentName with
  | none => .global
  | some name =>
    ((name :: Name.enclosing name).findSome? fun candidate =>
      (r.names[candidate]?).filter (· != id)).getD .global

/-- What a compound is made of, with all names bound. -/
def bindVariant (site : Site) (c : Compound) (baseTypes derivedTypes : List TypeId) :
    Binding TypeVariant :=
  let composite (kind : CompositeKind) : Binding TypeVariant := do
    let members ← c.members.mapM site.bindMember
    return .composite kind
      { members, baseTypes, derivedTypes, genericParameters := site.generics.map (·.2)
        traits := c.traits }
  match c.kind with
  | .namespace => return .namespace
  | .classType => composite .classType
  | .interface => composite .interface
  | .struct => composite .struct
  | .enum => return .enum c.enumValues baseTypes
  | .function => return .function (← c.members.mapM site.bindMember)
  | .unknown _ => return .facade

/-- The node of a compound, with the names that it refers to bound in the order: parent, bases,
derived types, children, members. -/
def bindCompound (site : Site) (c : Compound) : Binding TypeNode := do
  let r ← get
  let parent := r.parentOf site.owner c
  let baseTypes ← site.bindNames c.baseNames
  let derivedTypes ← site.bindNames c.derivedNames
  let children ← site.bindChildren c.childNames
  let variant ← bindVariant site c baseTypes derivedTypes
  return {
    id := site.owner
    origin := r.origin
    fullName := c.fullName
    parent := some parent
    children
    content := c.content
    language := c.language
    variant }

end Registry

end TypeAtlas
