import TypeAtlas.Graph.Basic

/-!
# Projections

A projection joins a native and a managed universe. Each of its nodes stands for what has one name
in either universe or in both, and the nodes form a tree.

## Main definitions

* `ProjectedType`, `ProjectedMember` — a node, and a member with the universe that it is from.
* `Projection` — the nodes by position and by name.
* `Projection.upsert` — a node stored under its name.
* `Projection.link` — a node placed below another one.
-/

namespace TypeAtlas

/-- The position of a node in a projection. -/
structure ProjectedId where
  index : Nat
  deriving DecidableEq, Repr

/-- The text of a position. -/
def ProjectedId.display (id : ProjectedId) : String :=
  "@" ++ toString id.index

/-- A member of a projected node, with the universe that it is from. -/
structure ProjectedMember where
  member : BoundMember
  origin : Universe
  deriving Repr

/-- A node of a projection. -/
structure ProjectedType where
  id : ProjectedId := ⟨0⟩
  fullName : String
  native : Option TypeId := none
  managed : Option TypeId := none
  kind : TypeKind
  content : Content := {}
  members : List ProjectedMember := []
  enumValues : List EnumValue := []
  children : List ProjectedId := []
  parent : Option ProjectedId := none
  deriving Repr

namespace ProjectedType

/-- The last segment of the name. -/
def name (n : ProjectedType) : String :=
  Name.short n.fullName

/-- Whether the node is from both universes. -/
def isPaired (n : ProjectedType) : Bool :=
  n.native.isSome && n.managed.isSome

/-- Whether the node is a namespace. -/
def isNamespace (n : ProjectedType) : Bool :=
  n.kind == .namespace

/-- The first member with a name, up to letter case. -/
def member? (n : ProjectedType) (name : String) : Option ProjectedMember :=
  n.members.find? fun m => sameName m.member.name name

/-- The node with one more child, unless it has it. -/
def addChild (n : ProjectedType) (child : ProjectedId) : ProjectedType :=
  if n.children.contains child then n else { n with children := n.children ++ [child] }

/-- The node without a child. -/
def removeChild (n : ProjectedType) (child : ProjectedId) : ProjectedType :=
  { n with children := n.children.filter (· != child) }

end ProjectedType

/-- A tree of projected nodes, one for each name. -/
structure Projection where
  nodes : Array ProjectedType := #[]
  /-- The node of each name. -/
  names : Std.TreeMap String ProjectedId := ∅
  deriving Repr

namespace Projection

/-- The node at a position. -/
def get? (p : Projection) (id : ProjectedId) : Option ProjectedType :=
  p.nodes[id.index]?

/-- The position of the node with a name. -/
def lookupId? (p : Projection) (fullName : String) : Option ProjectedId :=
  p.names[fullName]?

/-- The node with a name. -/
def lookup? (p : Projection) (fullName : String) : Option ProjectedType :=
  (p.lookupId? fullName).bind p.get?

/-- The projected global namespace, once it is there. -/
def root? (p : Projection) : Option ProjectedType :=
  p.lookup? ""

/-- The number of nodes. -/
def size (p : Projection) : Nat :=
  p.nodes.size

/-- The number of nodes from both universes. -/
def pairedCount (p : Projection) : Nat :=
  p.nodes.toList.countP (·.isPaired)

/-- The number of nodes from the native universe alone. -/
def nativeOnlyCount (p : Projection) : Nat :=
  p.nodes.toList.countP fun n => n.native.isSome && n.managed.isNone

/-- The number of nodes from the managed universe alone. -/
def managedOnlyCount (p : Projection) : Nat :=
  p.nodes.toList.countP fun n => n.managed.isSome && n.native.isNone

/-- The projection in which a node is changed. -/
def modify (p : Projection) (id : ProjectedId) (f : ProjectedType → ProjectedType) :
    Projection :=
  { p with nodes := p.nodes.modify id.index f }

/-- The projection with a node stored under its name. A node that was there before gives its
position and its place in the tree to it. -/
def upsert (p : Projection) (node : ProjectedType) : ProjectedId × Projection :=
  match p.lookupId? node.fullName with
  | some id =>
    (id, p.modify id fun old => { node with id, parent := old.parent, children := old.children })
  | none =>
    let id : ProjectedId := ⟨p.nodes.size⟩
    (id, { nodes := p.nodes.push { node with id }, names := p.names.insert node.fullName id })

/-- Whether the name of a node is the scope of the name of another one. -/
def isScopeOf (p : Projection) (scope child : ProjectedId) : Bool :=
  match p.get? scope, p.get? child with
  | some s, some c => (Name.scope? c.fullName).getD "" == s.fullName
  | _, _ => false

/-- The projection in which a node is below another one, wherever it was before. -/
def place (p : Projection) (parent child : ProjectedId) : Projection :=
  (p.modify child fun n => { n with parent := some parent }).modify parent (·.addChild child)

/-- The projection in which a node is placed below another one, unless it is placed already. A place
is given up only for the scope of the name. -/
def link (p : Projection) (parent child : ProjectedId) : Projection :=
  if parent = child then p
  else
    match p.get? child with
    | none => p
    | some node =>
      match node.parent with
      | none => p.place parent child
      | some existing =>
        if existing = parent then p.place parent child
        else if p.isScopeOf parent child && !p.isScopeOf existing child then
          (p.modify existing (·.removeChild child)).place parent child
        else
          p

end Projection

end TypeAtlas
