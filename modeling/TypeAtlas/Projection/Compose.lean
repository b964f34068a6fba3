import TypeAtlas.Projection.Basic
import TypeAtlas.Settings.Basic

/-!
# Composing a projected node

The managed side of a pair gives the surface: kind, name and members. Where it has no documentation,
that of the native side is taken.

## Main definitions

* `Sides` — the nodes that one projected node is made of.
* `Sides.compose` — the projected node.
-/

namespace TypeAtlas

/-- The nodes of one name in either universe. -/
structure Sides where
  native : Option TypeNode := none
  managed : Option TypeNode := none
  deriving Repr

namespace ProjectedMember

/-- The member with the documentation of the native member of its family and name, if it has none of
its own. -/
def copyDocs (native : List BoundMember) (m : ProjectedMember) : ProjectedMember :=
  if m.member.content.isEmpty then
    match native.find? fun n =>
        n.kind.family == m.member.kind.family && sameName n.name m.member.name with
    | some source => { m with member := { m.member with content := source.content } }
    | none => m
  else
    m

/-- The member whose parameters without documentation have that of the parameters of `source`. -/
def copyParameterDocs (source : BoundMember) (m : ProjectedMember) : ProjectedMember :=
  { m with
    member := { m.member with
      parameters := m.member.parameters.map fun p =>
        if p.content.isEmpty then
          match source.parameter? p.name with
          | some native => { p with content := native.content }
          | none => p
        else
          p } }

end ProjectedMember

namespace Sides

/-- The native overload that a method stands for: the first one of its name with as many parameters,
else the first one of its name. -/
def matchingMethod? (native : List BoundMember) (m : BoundMember) : Option BoundMember :=
  let overloads := native.filter fun n => n.kind.family == .callable && sameName n.name m.name
  (overloads.find? (·.parameters.length == m.parameters.length)).or overloads.head?

/-- The native constructor that a constructor stands for: among those with as many parameters the
one of the same rank, that is with the same number of constructors with as many parameters before
it. -/
def matchingConstructor? (native : List BoundMember) (rank : Nat) (m : BoundMember) :
    Option BoundMember :=
  (native.filter fun n =>
    n.kind == .constructor && n.parameters.length == m.parameters.length)[rank]?

/-- The members with the documentation of the parameters of native members; `arities` holds the
numbers of parameters of the constructors before them. -/
def copyParameterDocs (native : List BoundMember) (arities : List Nat) :
    List ProjectedMember → List ProjectedMember
  | [] => []
  | m :: rest =>
    let arity := m.member.parameters.length
    match m.member.kind with
    | .constructor =>
      let source := matchingConstructor? native (arities.count arity) m.member
      (source.elim m m.copyParameterDocs) :: copyParameterDocs native (arity :: arities) rest
    | .method =>
      let source := matchingMethod? native m.member
      (source.elim m m.copyParameterDocs) :: copyParameterDocs native arities rest
    | _ => m :: copyParameterDocs native arities rest

/-- The members in which the fields of the native side, if it has any, stand first in place of all
fields. -/
def replaceFields (native : List BoundMember) (members : List ProjectedMember) :
    List ProjectedMember :=
  let fields := native.filter (·.kind == .field)
  if fields.isEmpty then members
  else
    fields.map (fun member => { member, origin := .native })
      ++ members.filter (·.member.kind != .field)

/-- The node that gives kind and name: the managed one, unless it is a facade and there is a native
one. -/
def surface? (sides : Sides) : Option TypeNode :=
  ((sides.managed.filter (!·.isFacade)).or sides.native).or sides.managed

/-- The documentation: that of the managed side, or of the native side if there is none. -/
def content (sides : Sides) : Content :=
  let managed := (sides.managed.map (·.content)).filter (!·.isEmpty)
  (managed.or (sides.native.map (·.content))).getD {}

/-- The members of the native side. -/
def nativeMembers (sides : Sides) : List BoundMember :=
  (sides.native.bind (·.members?)).getD []

/-- The members before any documentation is copied: those of the managed side if it can tell them,
else those of the native side. -/
def ownMembers (sides : Sides) : List ProjectedMember :=
  match sides.managed.bind (·.members?) with
  | some members => members.map fun member => { member, origin := .managed }
  | none => sides.nativeMembers.map fun member => { member, origin := .native }

/-- Whether the values and fields of the native side replace those of the managed side, which has no
documentation. -/
def replacesValues (settings : ProjectionSettings) (sides : Sides) : Bool :=
  settings.copyEnumValues && sides.native.isSome && sides.managed.any (·.content.isEmpty)

/-- The members with all documentation that the settings let them have. -/
def members (settings : ProjectionSettings) (sides : Sides) : List ProjectedMember :=
  match sides.native, sides.managed with
  | some _, some m =>
    let native := sides.nativeMembers
    let own := sides.ownMembers
    let own := if settings.copyMemberDocs && m.kind == .interface then
      own.map (·.copyDocs native) else own
    let own := if settings.copyParameterDocs then copyParameterDocs native [] own else own
    if sides.replacesValues settings then replaceFields native own else own
  | _, _ => sides.ownMembers

/-- The values of an enumeration: those of the managed side, or of the native side if the managed
one cannot tell them or they are replaced. -/
def enumValues (settings : ProjectionSettings) (sides : Sides) : List EnumValue :=
  let native := sides.native.bind (·.enumValues?)
  let own := ((sides.managed.bind (·.enumValues?)).or native).getD []
  if sides.replacesValues settings then (native.filter (!·.isEmpty)).getD own else own

/-- The projected node that a pair makes up, without a place in a tree. -/
def compose (settings : ProjectionSettings) (sides : Sides) : ProjectedType where
  fullName := (sides.surface?.map (·.fullName)).getD ""
  native := sides.native.map (·.id)
  managed := sides.managed.map (·.id)
  kind := (sides.surface?.map (·.kind)).getD .facade
  content := sides.content
  members := sides.members settings
  enumValues := sides.enumValues settings

end Sides

end TypeAtlas
