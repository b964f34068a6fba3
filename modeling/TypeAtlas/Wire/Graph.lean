import TypeAtlas.Graph.Query
import TypeAtlas.Wire.Compound

/-!
# The JSON form of type graphs

The members for what a node is stand in one object with the member `variant`.
-/

namespace TypeAtlas

/-- The JSON form of a position. -/
def TypeId.toJson (id : TypeId) : Json :=
  .nat id.index

/-- The JSON form of several positions. -/
def TypeId.listToJson (ids : List TypeId) : Json :=
  .ofList TypeId.toJson ids

namespace TypeRef

mutual

/-- The JSON form of a bound type. -/
def toJson (t : TypeRef) : Json :=
  match t with
  | ⟨descriptor, target, arguments⟩ =>
    .object
      [("descriptor", descriptor.toJson), ("target", .ofOption TypeId.toJson target),
       ("generic_arguments", .array (listToJson arguments))]

/-- The JSON forms of several bound types. -/
def listToJson (ts : List TypeRef) : List Json :=
  match ts with
  | [] => []
  | t :: ts => toJson t :: listToJson ts

end

end TypeRef

/-- The JSON form of a parameter. -/
def BoundParameter.toJson (p : BoundParameter) : Json :=
  .object
    [("name", .string p.name), ("declared_type", p.declaredType.toJson),
     ("content", p.content.toJson)]

/-- The JSON form of a member. -/
def BoundMember.toJson (m : BoundMember) : Json :=
  .object
    [("name", .string m.name), ("kind", .string m.kind.name),
     ("declared_type", m.declaredType.toJson),
     ("parameters", .ofList BoundParameter.toJson m.parameters),
     ("content", m.content.toJson), ("is_static", .bool m.isStatic)]

/-- The members for the body of a composite. -/
def Composite.jsonMembers (body : Composite) : List (String × Json) :=
  [("members", .ofList BoundMember.toJson body.members),
   ("base_types", TypeId.listToJson body.baseTypes),
   ("derived_types", TypeId.listToJson body.derivedTypes),
   ("generic_parameters", TypeId.listToJson body.genericParameters),
   ("traits", body.traits.toJson)]

/-- The JSON form of what a node is. -/
def TypeVariant.toJson (variant : TypeVariant) : Json :=
  .object (("variant", .string variant.kind.name) ::
    match variant with
    | .composite _ body => body.jsonMembers
    | .enum values baseTypes =>
      [("values", .ofList EnumValue.toJson values),
       ("base_types", TypeId.listToJson baseTypes)]
    | .function overloads => [("overloads", .ofList BoundMember.toJson overloads)]
    | .genericParameter owner position =>
      [("owner", owner.toJson), ("position", .nat position)]
    | _ => [])

/-- The JSON form of a node. -/
def TypeNode.toJson (n : TypeNode) : Json :=
  .object
    [("id", n.id.toJson), ("universe", .string n.origin.name), ("full_name", .string n.fullName),
     ("name", .string n.name), ("parent", .ofOption TypeId.toJson n.parent),
     ("children", TypeId.listToJson n.children), ("content", n.content.toJson),
     ("language", .string n.language.name), ("variant", n.variant.toJson)]

/-- The JSON form of the numbers of a universe. -/
def TypeGraph.Stats.toJson (s : TypeGraph.Stats) : Json :=
  .object
    [("universe", .ofOption (fun origin => .string origin.name) s.origin), ("total", .nat s.total),
     ("namespaces", .nat s.namespaces), ("classes", .nat s.classes),
     ("interfaces", .nat s.interfaces), ("structs", .nat s.structs), ("enums", .nat s.enums),
     ("functions", .nat s.functions), ("generic_parameters", .nat s.genericParameters),
     ("primitives", .nat s.primitives), ("facades", .nat s.facades)]

/-- The JSON form of an answer; members are given by name. -/
def Answer.toJson : Answer → Json
  | .truth value => .bool value
  | .traits t => t.toJson
  | .nodes ids => TypeId.listToJson ids
  | .values vs => .ofList EnumValue.toJson vs
  | .members ms => .strings (ms.map (·.name))
  | .destructor member => .ofOption (fun m : BoundMember => .string m.name) member

end TypeAtlas
