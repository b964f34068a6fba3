import TypeAtlas.Compound.Basic

/-!
# Nodes of a type graph

A resolved universe is an arena of nodes that refer to each other by position. What only some nodes
have stands with their variant.

## Main definitions

* `TypeId`, `Universe` — the position of a node, and the universe that it is a position in.
* `TypeRef`, `BoundMember` — a type and a member whose names are bound to nodes.
* `TypeNode`, `TypeVariant`, `TypeKind` — a node, what it is, and the kind of thing it is.
-/

namespace TypeAtlas

/-- The position of a node in the arena of its universe. -/
structure TypeId where
  index : Nat
  deriving DecidableEq, Repr

namespace TypeId

/-- The position of the global namespace. -/
def global : TypeId := ⟨0⟩

instance : Inhabited TypeId := ⟨global⟩

/-- The text of a position. -/
def display (id : TypeId) : String :=
  "#" ++ toString id.index

end TypeId

/-- The universes of a run. -/
inductive Universe where
  | native | managed | projected
  deriving DecidableEq, Repr

/-- The written name of a universe. -/
def Universe.name : Universe → String
  | native => "native"
  | managed => "managed"
  | projected => "projected"

/-- The universe with a written name. -/
def Universe.ofName? (text : String) : Option Universe :=
  [native, managed, projected].find? (·.name == text)

@[simp] theorem Universe.ofName?_name (origin : Universe) :
    Universe.ofName? origin.name = some origin := by
  cases origin <;> decide

/-! ## References -/

/-- A type whose name, and the names of whose arguments, are bound to nodes. Only what has no name
is bound to none. -/
structure TypeRef where
  descriptor : Descriptor := {}
  target : Option TypeId := none
  arguments : List TypeRef := []
  deriving Repr

namespace TypeRef

instance : Inhabited TypeRef := ⟨{}⟩

mutual

/-- The nodes that a type is bound to, outer levels before their arguments. -/
def targets (t : TypeRef) : List TypeId :=
  match t with
  | ⟨_, target, arguments⟩ => target.toList ++ targetsOf arguments

/-- The nodes that several types are bound to. -/
def targetsOf (ts : List TypeRef) : List TypeId :=
  match ts with
  | [] => []
  | t :: ts => targets t ++ targetsOf ts

end

end TypeRef

/-- A parameter with a bound type. -/
structure BoundParameter where
  name : String := ""
  declaredType : TypeRef := {}
  content : Content := {}
  deriving Repr

/-- A member with bound types. -/
structure BoundMember where
  name : String
  kind : MemberKind
  declaredType : TypeRef := {}
  parameters : List BoundParameter := []
  content : Content := {}
  isStatic : Bool := false
  deriving Repr

/-- Whether two names are the same up to the case of ASCII letters. -/
def sameName (a b : String) : Bool :=
  Text.asciiLowercase a == Text.asciiLowercase b

namespace BoundMember

/-- Whether the member can be called. -/
def isCallable (m : BoundMember) : Bool :=
  m.kind == .method || m.kind == .constructor || m.kind == .destructor

/-- The first parameter with a name, up to letter case. -/
def parameter? (m : BoundMember) (name : String) : Option BoundParameter :=
  m.parameters.find? fun p => sameName p.name name

end BoundMember

/-! ## Nodes -/

/-- The kind of thing that a node is. -/
inductive TypeKind where
  | namespace | classType | interface | struct | enum | function | genericParameter | primitive
  | facade
  deriving DecidableEq, Repr

/-- The written name of a kind. -/
def TypeKind.name : TypeKind → String
  | .namespace => "namespace"
  | .classType => "class"
  | .interface => "interface"
  | .struct => "struct"
  | .enum => "enum"
  | .function => "function"
  | .genericParameter => "generic_parameter"
  | .primitive => "primitive"
  | .facade => "facade"

/-- The kinds of types with members and bases. -/
inductive CompositeKind where
  | classType | interface | struct
  deriving DecidableEq, Repr

/-- The kind of thing that a composite is. -/
def CompositeKind.kind : CompositeKind → TypeKind
  | .classType => .classType
  | .interface => .interface
  | .struct => .struct

/-- What a class, an interface or a struct is made of. -/
structure Composite where
  members : List BoundMember := []
  baseTypes : List TypeId := []
  derivedTypes : List TypeId := []
  /-- The nodes of its type parameters, in order. -/
  genericParameters : List TypeId := []
  traits : Traits := {}
  deriving Repr

/-- What a node is. -/
inductive TypeVariant where
  | namespace
  | composite (kind : CompositeKind) (body : Composite)
  | enum (values : List EnumValue) (baseTypes : List TypeId)
  | function (overloads : List BoundMember)
  | genericParameter (owner : TypeId) (position : Nat)
  | primitive
  /-- A stand-in for a name without a definition. -/
  | facade
  deriving Repr

namespace TypeVariant

/-- The kind of thing that a variant is. -/
def kind : TypeVariant → TypeKind
  | .namespace => .namespace
  | .composite kind _ => kind.kind
  | .enum .. => .enum
  | .function _ => .function
  | .genericParameter .. => .genericParameter
  | .primitive => .primitive
  | .facade => .facade

/-- The variant with a changed body, if it has one. -/
def mapComposite (f : Composite → Composite) : TypeVariant → TypeVariant
  | .composite kind body => .composite kind (f body)
  | variant => variant

end TypeVariant

/-- A node of a resolved universe. -/
structure TypeNode where
  id : TypeId
  origin : Universe
  /-- The dotted name, empty for the global namespace. -/
  fullName : String
  parent : Option TypeId := none
  children : List TypeId := []
  content : Content := {}
  language : Language := .cpp
  variant : TypeVariant := .facade
  deriving Repr

namespace TypeNode

instance : Inhabited TypeNode := ⟨{ id := .global, origin := .native, fullName := "" }⟩

/-- The last segment of the name. -/
def name (n : TypeNode) : String :=
  Name.short n.fullName

/-- The kind of thing that the node is. -/
def kind (n : TypeNode) : TypeKind :=
  n.variant.kind

/-- Whether the node stands in for a name without a definition. -/
def isFacade (n : TypeNode) : Bool :=
  n.kind == .facade

/-- Whether the node is the global namespace. -/
def isGlobal (n : TypeNode) : Bool :=
  n.id == .global

/-! ## Questions

A facade answers none of them. -/

/-- Whether the node is of a kind. -/
def isKind? (n : TypeNode) (kind : TypeKind) : Option Bool :=
  if n.isFacade then none else some (n.kind == kind)

/-- The traits of the node. -/
def traits? (n : TypeNode) : Option Traits :=
  match n.variant with
  | .facade => none
  | .composite _ body => some body.traits
  | _ => some {}

/-- The members of a composite, or the overloads of a function. -/
def members? (n : TypeNode) : Option (List BoundMember) :=
  match n.variant with
  | .facade => none
  | .composite _ body => some body.members
  | .function overloads => some overloads
  | _ => some []

/-- The bases of a composite or an enumeration. -/
def baseTypes? (n : TypeNode) : Option (List TypeId) :=
  match n.variant with
  | .facade => none
  | .composite _ body => some body.baseTypes
  | .enum _ baseTypes => some baseTypes
  | _ => some []

/-- The types that have the node as a base. -/
def derivedTypes? (n : TypeNode) : Option (List TypeId) :=
  match n.variant with
  | .facade => none
  | .composite _ body => some body.derivedTypes
  | _ => some []

/-- The nodes of the type parameters. -/
def genericParameters? (n : TypeNode) : Option (List TypeId) :=
  match n.variant with
  | .facade => none
  | .composite _ body => some body.genericParameters
  | _ => some []

/-- The values of an enumeration. -/
def enumValues? (n : TypeNode) : Option (List EnumValue) :=
  match n.variant with
  | .facade => none
  | .enum values _ => some values
  | _ => some []

/-- The members of one kind. -/
def membersOfKind? (n : TypeNode) (kind : MemberKind) : Option (List BoundMember) :=
  n.members?.map fun members => members.filter (·.kind == kind)

/-- The destructor, if one is declared. -/
def destructor? (n : TypeNode) : Option (Option BoundMember) :=
  n.members?.map fun members => members.find? (·.kind == .destructor)

end TypeNode

end TypeAtlas
