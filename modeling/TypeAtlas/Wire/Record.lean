import TypeAtlas.Record
import TypeAtlas.Wire.Documentation

/-!
# The JSON form of records

A record that is read may lack any part, and may have parts that it does not know.
-/

namespace TypeAtlas

open Json (fieldOr? nullable? list? strings? string? bool?)

/-! ## Native sources -/

/-- The JSON form of a parameter. -/
def NativeParamRecord.toJson (r : NativeParamRecord) : Json :=
  .object
    [("name", .string r.name), ("raw_type", .string r.rawType),
     ("attributes", .string r.attributes), ("description", r.description.toJson)]

/-- The parameter that a value is the JSON form of. -/
def NativeParamRecord.ofJson? (v : Json) : Option NativeParamRecord := do
  let f ← v.fields? ["name", "raw_type", "attributes", "description"]
  return {
    name := ← fieldOr? f "name" string? ""
    rawType := ← fieldOr? f "raw_type" string? ""
    attributes := ← fieldOr? f "attributes" string? ""
    description := ← fieldOr? f "description" DocText.ofJson? {} }

/-- The JSON form of a value of an enumeration. -/
def EnumValueRecord.toJson (r : EnumValueRecord) : Json :=
  .object
    [("name", .string r.name), ("initializer", .ofOption .string r.initializer),
     ("brief", r.brief.toJson), ("detailed", r.detailed.toJson)]

/-- The value of an enumeration that a value is the JSON form of. -/
def EnumValueRecord.ofJson? (v : Json) : Option EnumValueRecord := do
  let f ← v.fields? ["name", "initializer", "brief", "detailed"]
  return {
    name := ← fieldOr? f "name" string? ""
    initializer := ← fieldOr? f "initializer" (nullable? string?) none
    brief := ← fieldOr? f "brief" DocText.ofJson? {}
    detailed := ← fieldOr? f "detailed" DocText.ofJson? {} }

/-- The JSON form of a member. -/
def NativeMemberRecord.toJson (r : NativeMemberRecord) : Json :=
  .object
    [("kind", .string r.kind), ("name", .string r.name), ("raw_type", .string r.rawType),
     ("raw_args", .string r.rawArguments),
     ("params", .ofList NativeParamRecord.toJson r.params),
     ("enum_values", .ofList EnumValueRecord.toJson r.enumValues),
     ("is_static", .bool r.isStatic),
     ("brief", r.brief.toJson), ("detailed", r.detailed.toJson)]

/-- The member that a value is the JSON form of. -/
def NativeMemberRecord.ofJson? (v : Json) : Option NativeMemberRecord := do
  let f ← v.fields? ["kind", "name", "raw_type", "raw_args", "params", "enum_values", "is_static",
    "brief", "detailed"]
  return {
    kind := ← fieldOr? f "kind" string? ""
    name := ← fieldOr? f "name" string? ""
    rawType := ← fieldOr? f "raw_type" string? ""
    rawArguments := ← fieldOr? f "raw_args" string? ""
    params := ← fieldOr? f "params" (list? NativeParamRecord.ofJson?) []
    enumValues := ← fieldOr? f "enum_values" (list? EnumValueRecord.ofJson?) []
    isStatic := ← fieldOr? f "is_static" bool? false
    brief := ← fieldOr? f "brief" DocText.ofJson? {}
    detailed := ← fieldOr? f "detailed" DocText.ofJson? {} }

/-- The JSON form of a native record. -/
def NativeRecord.toJson (r : NativeRecord) : Json :=
  .object
    [("id", .string r.id), ("kind", .string r.kind), ("name", .ofOption .string r.name),
     ("language", .ofOption .string r.language),
     ("members", .ofList NativeMemberRecord.toJson r.members),
     ("base_names", .strings r.baseNames), ("derived_names", .strings r.derivedNames),
     ("inner_classes", .strings r.innerClasses),
     ("inner_namespaces", .strings r.innerNamespaces),
     ("template_params", .strings r.templateParams),
     ("brief", r.brief.toJson), ("detailed", r.detailed.toJson)]

/-- The native record that a value is the JSON form of. -/
def NativeRecord.ofJson? (v : Json) : Option NativeRecord := do
  let f ← v.fields? ["id", "kind", "name", "language", "members", "base_names", "derived_names",
    "inner_classes", "inner_namespaces", "template_params", "brief", "detailed"]
  return {
    id := ← fieldOr? f "id" string? ""
    kind := ← fieldOr? f "kind" string? ""
    name := ← fieldOr? f "name" (nullable? string?) none
    language := ← fieldOr? f "language" (nullable? string?) none
    members := ← fieldOr? f "members" (list? NativeMemberRecord.ofJson?) []
    baseNames := ← fieldOr? f "base_names" strings? []
    derivedNames := ← fieldOr? f "derived_names" strings? []
    innerClasses := ← fieldOr? f "inner_classes" strings? []
    innerNamespaces := ← fieldOr? f "inner_namespaces" strings? []
    templateParams := ← fieldOr? f "template_params" strings? []
    brief := ← fieldOr? f "brief" DocText.ofJson? {}
    detailed := ← fieldOr? f "detailed" DocText.ofJson? {} }

/-! ## Managed sources -/

/-- The JSON form of a parameter. -/
def ManagedParamRecord.toJson (r : ManagedParamRecord) : Json :=
  .object
    [("name", .string r.name), ("type_name", .string r.typeName), ("is_out", .bool r.isOut),
     ("is_optional", .bool r.isOptional), ("description", r.description.toJson)]

/-- The parameter that a value is the JSON form of. -/
def ManagedParamRecord.ofJson? (v : Json) : Option ManagedParamRecord := do
  let f ← v.fields? ["name", "type_name", "is_out", "is_optional", "description"]
  return {
    name := ← fieldOr? f "name" string? ""
    typeName := ← fieldOr? f "type_name" string? ""
    isOut := ← fieldOr? f "is_out" bool? false
    isOptional := ← fieldOr? f "is_optional" bool? false
    description := ← fieldOr? f "description" DocText.ofJson? {} }

/-- The JSON form of a member. -/
def ManagedMemberRecord.toJson (r : ManagedMemberRecord) : Json :=
  .object
    [("kind", .string r.kind), ("name", .string r.name), ("type_name", .string r.typeName),
     ("params", .ofList ManagedParamRecord.toJson r.params), ("is_static", .bool r.isStatic),
     ("value", .ofOption .string r.value), ("summary", r.summary.toJson),
     ("remarks", r.remarks.toJson)]

/-- The member that a value is the JSON form of. -/
def ManagedMemberRecord.ofJson? (v : Json) : Option ManagedMemberRecord := do
  let f ← v.fields? ["kind", "name", "type_name", "params", "is_static", "value", "summary",
    "remarks"]
  return {
    kind := ← fieldOr? f "kind" string? ""
    name := ← fieldOr? f "name" string? ""
    typeName := ← fieldOr? f "type_name" string? ""
    params := ← fieldOr? f "params" (list? ManagedParamRecord.ofJson?) []
    isStatic := ← fieldOr? f "is_static" bool? false
    value := ← fieldOr? f "value" (nullable? string?) none
    summary := ← fieldOr? f "summary" DocText.ofJson? {}
    remarks := ← fieldOr? f "remarks" DocText.ofJson? {} }

/-- The JSON form of a managed record. -/
def ManagedRecord.toJson (r : ManagedRecord) : Json :=
  .object
    [("name", .ofOption .string r.name), ("namespace", .string r.scope), ("kind", .string r.kind),
     ("base_type", .ofOption .string r.baseType), ("interfaces", .strings r.interfaces),
     ("generic_params", .strings r.genericParams), ("is_sealed", .bool r.isSealed),
     ("is_static", .bool r.isStatic),
     ("members", .ofList ManagedMemberRecord.toJson r.members),
     ("summary", r.summary.toJson), ("remarks", r.remarks.toJson)]

/-- The managed record that a value is the JSON form of. -/
def ManagedRecord.ofJson? (v : Json) : Option ManagedRecord := do
  let f ← v.fields? ["name", "namespace", "kind", "base_type", "interfaces", "generic_params",
    "is_sealed", "is_static", "members", "summary", "remarks"]
  return {
    name := ← fieldOr? f "name" (nullable? string?) none
    scope := ← fieldOr? f "namespace" string? ""
    kind := ← fieldOr? f "kind" string? ""
    baseType := ← fieldOr? f "base_type" (nullable? string?) none
    interfaces := ← fieldOr? f "interfaces" strings? []
    genericParams := ← fieldOr? f "generic_params" strings? []
    isSealed := ← fieldOr? f "is_sealed" bool? false
    isStatic := ← fieldOr? f "is_static" bool? false
    members := ← fieldOr? f "members" (list? ManagedMemberRecord.ofJson?) []
    summary := ← fieldOr? f "summary" DocText.ofJson? {}
    remarks := ← fieldOr? f "remarks" DocText.ofJson? {} }

end TypeAtlas
