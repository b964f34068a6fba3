import TypeAtlas.Atlas
import TypeAtlas.Wire.Graph

/-!
# The JSON form of projections and of the numbers of a run
-/

namespace TypeAtlas

/-- The JSON form of a position. -/
def ProjectedId.toJson (id : ProjectedId) : Json :=
  .nat id.index

/-- The JSON form of a member. -/
def ProjectedMember.toJson (m : ProjectedMember) : Json :=
  .object [("member", m.member.toJson), ("origin", .string m.origin.name)]

/-- The JSON form of a node. -/
def ProjectedType.toJson (n : ProjectedType) : Json :=
  .object
    [("id", n.id.toJson), ("full_name", .string n.fullName), ("name", .string n.name),
     ("native", .ofOption TypeId.toJson n.native), ("managed", .ofOption TypeId.toJson n.managed),
     ("kind", .string n.kind.name), ("content", n.content.toJson),
     ("members", .ofList ProjectedMember.toJson n.members),
     ("enum_values", .ofList EnumValue.toJson n.enumValues),
     ("children", .ofList ProjectedId.toJson n.children),
     ("parent", .ofOption ProjectedId.toJson n.parent)]

/-- The JSON form of the numbers of a run. -/
def Atlas.Summary.toJson (s : Atlas.Summary) : Json :=
  .object
    [("native", s.native.toJson), ("managed", s.managed.toJson),
     ("projected_total", .nat s.projectedTotal), ("projected_paired", .nat s.projectedPaired),
     ("projected_native_only", .nat s.projectedNativeOnly),
     ("projected_managed_only", .nat s.projectedManagedOnly),
     ("parse_ambiguities", .nat s.parseAmbiguities),
     ("unknown_references", .nat s.unknownReferences),
     ("malformed_inputs", .nat s.malformedInputs),
     ("invalid_accesses", .nat s.invalidAccesses)]

end TypeAtlas
