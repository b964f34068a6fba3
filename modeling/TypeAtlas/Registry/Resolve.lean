import TypeAtlas.Registry.Binding

/-!
# Resolving a universe

Once all compounds of a universe are defined, its type parameters get slots of their own, the names
in each compound are bound in the order of the slots, every other slot becomes a leaf, and the edges
from child to parent and from type to base are completed by their inverses.

## Main definitions

* `Registry.typeParameters` — the slots of the type parameters of a compound.
* `Registry.leaf` — the node of a slot without a compound.
* `TypeGraph.linkInverse` — the inverse edges.
* `Registry.resolve` — the graph of a universe, and the report on names without a definition.
-/

namespace TypeAtlas

namespace Registry

/-! ## Type parameters -/

/-- The name that a declaration of a type parameter gives: the last word of its type, without what
follows an equals sign. -/
def typeParameterName (r : Registry) (raw : String) : String :=
  let declaration := String.ofList (raw.toList.takeWhile (· != '='))
  let fullName := (r.parser.parse declaration).fullName.toList
  let last := ((Text.cutLast? ' ' fullName).map (·.2)).getD fullName
  String.ofList (last.dropWhile (· == '.'))

/-- The slot of the type parameter at a position of a compound; none if it has no name. -/
def typeParameter (owner : TypeId) (ownerName : String) (declaration : String × Nat) :
    Binding (Option (String × TypeId)) := do
  let r ← get
  let name := r.typeParameterName declaration.1
  if name = "" then
    return none
  let key := Name.qualify ownerName name
  match r.names[key]? with
  | some id => return some (name, id)
  | none =>
    let id ← fun r : Registry => r.push key (.genericParameter owner declaration.2)
    return some (name, id)

/-- The type parameters of a compound by name, with their slots. -/
def typeParameters (owner : TypeId) (c : Compound) : Binding (List (String × TypeId)) := do
  return (← c.templateParams.zipIdx.mapM (typeParameter owner c.fullName)).filterMap id

/-- The slots that hold compounds. -/
def definitions (r : Registry) : List (TypeId × Compound) :=
  r.slots.toList.zipIdx.filterMap fun (slot, index) => slot.compound?.map (⟨index⟩, ·)

/-- The nodes of all compounds. -/
def bindAll : Binding (List TypeNode) := do
  let definitions := (← get).definitions
  let sites ← definitions.mapM fun (owner, c) => do
    let generics ← typeParameters owner c
    return ({ owner, scope := c.fullName, generics } : Site)
  (sites.zip (definitions.map (·.2))).mapM fun (site, c) => bindCompound site c

/-! ## Leaves -/

/-- The language of what no source describes. -/
def defaultLanguage : Universe → Language
  | .managed => .cSharp
  | _ => .cpp

/-- The node of a slot without a compound. -/
def leaf (origin : Universe) (id : TypeId) (slot : Slot) : TypeNode :=
  let node (parent : Option TypeId) (variant : TypeVariant) : TypeNode :=
    { id, origin, fullName := slot.fullName, parent, variant, language := defaultLanguage origin }
  match slot.origin with
  | .globalNamespace => node none .namespace
  | .primitive => node none .primitive
  | .genericParameter owner position => node (some owner) (.genericParameter owner position)
  | .facade => node none .facade
  | .compound _ => node none .facade

end Registry

/-! ## Inverse edges -/

namespace TypeNode

/-- The node with one more child, unless it has it. -/
def addChild (n : TypeNode) (child : TypeId) : TypeNode :=
  if n.children.contains child then n else { n with children := n.children ++ [child] }

/-- The node with one more derived type, unless it has it or is no composite. -/
def addDerived (n : TypeNode) (derived : TypeId) : TypeNode :=
  { n with
    variant := n.variant.mapComposite fun body =>
      if body.derivedTypes.contains derived then body
      else { body with derivedTypes := body.derivedTypes ++ [derived] } }

/-- The node with a parent, if it has none and is not the global namespace. -/
def adoptBy (n : TypeNode) (parent : TypeId) : TypeNode :=
  if n.parent.isNone && !n.isGlobal then { n with parent := some parent } else n

/-- The edge from the parent that a node names to the node. A type parameter is no child. -/
def parentEdge? (n : TypeNode) : Option (TypeId × TypeId) :=
  if n.kind = .genericParameter then none else n.parent.map (·, n.id)

/-- The edges from a node to the children that it lists. -/
def childEdges (n : TypeNode) : List (TypeId × TypeId) :=
  n.children.map (n.id, ·)

/-- The edges from the bases of a node to the node. -/
def derivedEdges (n : TypeNode) : List (TypeId × TypeId) :=
  (n.baseTypes?.getD []).map (·, n.id)

end TypeNode

namespace TypeGraph

/-- The nodes in which one of them is changed. -/
def modifyNode (nodes : Array TypeNode) (id : TypeId) (f : TypeNode → TypeNode) : Array TypeNode :=
  nodes.modify id.index f

/-- The nodes with the inverse edges: a node without a parent gets the first one that lists it, a
parent lists each node that names it, and a base lists each type that is derived from it. -/
def linkInverse (nodes : Array TypeNode) : Array TypeNode :=
  let childEdges := nodes.toList.flatMap TypeNode.childEdges
  let parentEdges := nodes.toList.filterMap TypeNode.parentEdge?
  let derivedEdges := nodes.toList.flatMap TypeNode.derivedEdges
  let adopted := childEdges.foldl
    (fun nodes (parent, child) => modifyNode nodes child (·.adoptBy parent)) nodes
  let listed := parentEdges.foldl
    (fun nodes (parent, child) => modifyNode nodes parent (·.addChild child)) adopted
  derivedEdges.foldl
    (fun nodes (base, derived) => modifyNode nodes base (·.addDerived derived)) listed

end TypeGraph

namespace Registry

/-- The nodes of a registry, given those of its compounds. -/
def arena (r : Registry) (bound : List TypeNode) : Array TypeNode :=
  bound.foldl (fun nodes n => nodes.setIfInBounds n.id.index n)
    (r.slots.mapIdx fun index slot => leaf r.origin ⟨index⟩ slot)

/-- The report on a name without a definition. -/
def reportFacade (origin : Universe) (n : TypeNode) : Diagnostic where
  kind := .unknownReference
  subject := n.fullName
  message := "no definition in the " ++ origin.name ++ " universe; substituted a facade"

/-- The graph of a universe, and the report on its names without a definition. -/
def resolve (r : Registry) : TypeGraph × Diagnostics :=
  let (bound, r) := bindAll.run r
  let graph : TypeGraph :=
    { origin := r.origin
      nodes := TypeGraph.linkInverse (r.arena bound)
      names := r.names
      foldedNames := r.foldedNames
      foldsCase := r.foldsCase }
  (graph, graph.facades.map (reportFacade r.origin))

end Registry

end TypeAtlas
