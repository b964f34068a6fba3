import TypeAtlas.Error
import TypeAtlas.Graph.Node
import TypeAtlas.Text.Lowercase
import Std.Data.TreeMap.Basic

/-!
# Type graphs

A resolved universe: its nodes, and the names under which they are found.

## Main definitions

* `NameTable` — nodes by name.
* `TypeGraph`, `TypeGraph.lookup?` — a universe, and its nodes by name.
* `TypeGraph.descendants`, `TypeGraph.ancestors` — what lies below a node, and above it.
* `TypeGraph.require` — a question to a node.
* `TypeGraph.stats` — the number of nodes of each kind.
-/

namespace TypeAtlas

/-- Nodes by name. -/
abbrev NameTable := Std.TreeMap String TypeId

/-- A resolved universe. -/
structure TypeGraph where
  origin : Universe
  nodes : Array TypeNode
  /-- The node of each name. -/
  names : NameTable
  /-- The node of each name in lower case. -/
  foldedNames : NameTable
  /-- Whether a name that is not found is looked up in lower case. -/
  foldsCase : Bool

namespace TypeGraph

/-- The node at a position. -/
def get? (g : TypeGraph) (id : TypeId) : Option TypeNode :=
  g.nodes[id.index]?

/-- The number of nodes. -/
def size (g : TypeGraph) : Nat :=
  g.nodes.size

/-- The position of the node with a name. -/
def lookupId? (g : TypeGraph) (fullName : String) : Option TypeId :=
  match g.names[fullName]? with
  | some id => some id
  | none => if g.foldsCase then g.foldedNames[Text.lowercase fullName]? else none

/-- The node with a name. -/
def lookup? (g : TypeGraph) (fullName : String) : Option TypeNode :=
  (g.lookupId? fullName).bind g.get?

/-- The children of a node. -/
def childrenOf (g : TypeGraph) (id : TypeId) : List TypeId :=
  ((g.get? id).map (·.children)).getD []

/-- The parent of a node. -/
def parentOf? (g : TypeGraph) (id : TypeId) : Option TypeId :=
  (g.get? id).bind (·.parent)

/-- The global namespace. -/
def globalNamespace? (g : TypeGraph) : Option TypeNode :=
  g.get? .global

/-- The nodes directly below the global namespace. -/
def roots (g : TypeGraph) : List TypeNode :=
  (g.childrenOf .global).filterMap g.get?

/-- The nodes that stand in for names without a definition. -/
def facades (g : TypeGraph) : List TypeNode :=
  g.nodes.toList.filter (·.isFacade)

/-- The positions of all nodes. -/
def ids (g : TypeGraph) : List TypeId :=
  (List.range g.nodes.size).map TypeId.mk

/-! ## Below and above -/

/-- What is found from the positions of a stack on, depth first, among those not visited yet. -/
def walk (g : TypeGraph) (unvisited : List TypeId) : List TypeId → List TypeId
  | [] => []
  | current :: stack =>
    if current ∈ unvisited then
      current :: g.walk (unvisited.erase current) (g.childrenOf current ++ stack)
    else
      g.walk unvisited stack
termination_by stack => (unvisited.length, stack.length)
decreasing_by
  · next h =>
    have := List.length_erase_of_mem h
    have := List.length_pos_of_mem h
    exact Prod.Lex.left _ _ (by omega)
  · exact Prod.Lex.right _ (by simp)

/-- All nodes below a node, depth first, each before its children. -/
def descendants (g : TypeGraph) (id : TypeId) : List TypeId :=
  g.walk (g.ids.erase id) (g.childrenOf id)

/-- The chain of parents from a position on, as far as it stays among those not visited yet. -/
def climb (g : TypeGraph) (unvisited : List TypeId) (current : Option TypeId) : List TypeId :=
  match current with
  | none => []
  | some parent =>
    if parent ∈ unvisited then parent :: g.climb (unvisited.erase parent) (g.parentOf? parent)
    else []
termination_by unvisited.length
decreasing_by
  next h =>
    have := List.length_erase_of_mem h
    have := List.length_pos_of_mem h
    omega

/-- The chain of parents of a node, nearest first. -/
def ancestors (g : TypeGraph) (id : TypeId) : List TypeId :=
  g.climb g.ids (g.parentOf? id)

/-! ## Questions -/

/-- The answer of a node to a question, or the error for a node that has none. -/
def require {α : Type} (g : TypeGraph) (id : TypeId) (query : String)
    (answer? : TypeNode → Option α) : Except AtlasError α :=
  match g.get? id with
  | none => .error (.invalidAccess id.display query)
  | some node =>
    match answer? node with
    | none => .error (.invalidAccess node.fullName query)
    | some answer => .ok answer

/-- The numbers of nodes of a universe. -/
structure Stats where
  origin : Option Universe
  total : Nat
  namespaces : Nat
  classes : Nat
  interfaces : Nat
  structs : Nat
  enums : Nat
  functions : Nat
  genericParameters : Nat
  primitives : Nat
  facades : Nat
  deriving DecidableEq, Repr

/-- The number of nodes of a kind. -/
def countKind (g : TypeGraph) (kind : TypeKind) : Nat :=
  g.nodes.toList.countP (·.kind == kind)

/-- The numbers of nodes of a universe. -/
def stats (g : TypeGraph) : Stats where
  origin := some g.origin
  total := g.size
  namespaces := g.countKind .namespace
  classes := g.countKind .classType
  interfaces := g.countKind .interface
  structs := g.countKind .struct
  enums := g.countKind .enum
  functions := g.countKind .function
  genericParameters := g.countKind .genericParameter
  primitives := g.countKind .primitive
  facades := g.countKind .facade

end TypeGraph

end TypeAtlas
