import TypeAtlas.Compound.Basic
import TypeAtlas.Wire.Declaration
import TypeAtlas.Wire.Documentation

/-!
# The JSON form of compounds
-/

namespace TypeAtlas

/-- The JSON form of the kind of a compound; one outside the vocabulary is named as such. -/
def CompoundKind.toJson : CompoundKind → Json
  | .unknown word => .object [("unknown", .string word)]
  | kind => .string kind.name

/-- The JSON form of traits. -/
def Traits.toJson (traits : Traits) : Json :=
  .object
    [("is_delegate", .bool traits.isDelegate), ("is_attribute", .bool traits.isAttribute),
     ("is_sealed", .bool traits.isSealed), ("is_static", .bool traits.isStatic)]

/-- The kind of a member that a value is the JSON form of. -/
def MemberKind.ofJson? (v : Json) : Option MemberKind := do
  MemberKind.ofName? (← v.caseName?)

/-- The JSON form of a parameter. -/
def Parameter.toJson (p : Parameter) : Json :=
  .object
    [("name", .string p.name), ("raw_type", .string p.rawType),
     ("declared_type", p.declaredType.toJson), ("content", p.content.toJson)]

/-- The JSON form of a value of an enumeration. -/
def EnumValue.toJson (value : EnumValue) : Json :=
  .object
    [("name", .string value.name), ("initializer", .ofOption .string value.initializer),
     ("content", value.content.toJson)]

/-- The JSON form of a member. -/
def Member.toJson (m : Member) : Json :=
  .object
    [("name", .string m.name), ("kind", .string m.kind.name), ("raw_type", .string m.rawType),
     ("raw_args", .string m.rawArguments), ("declared_type", m.declaredType.toJson),
     ("parameters", .ofList Parameter.toJson m.parameters), ("content", m.content.toJson),
     ("is_static", .bool m.isStatic)]

/-- The JSON form of a compound. -/
def Compound.toJson (c : Compound) : Json :=
  .object
    [("id", .string c.id), ("source", .string c.source.name), ("raw_name", .string c.rawName),
     ("full_name", .string c.fullName), ("name", .string c.name), ("kind", c.kind.toJson),
     ("language", .string c.language.name),
     ("parent_raw_name", .ofOption .string c.parentName),
     ("members", .ofList Member.toJson c.members),
     ("enum_values", .ofList EnumValue.toJson c.enumValues),
     ("base_raw_names", .strings c.baseNames), ("derived_raw_names", .strings c.derivedNames),
     ("child_raw_names", .strings c.childNames), ("template_params", .strings c.templateParams),
     ("content", c.content.toJson), ("traits", c.traits.toJson)]

end TypeAtlas
