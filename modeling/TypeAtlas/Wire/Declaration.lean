import TypeAtlas.Declaration.Descriptor
import TypeAtlas.Json.Fields

/-!
# The JSON form of type descriptors
-/

namespace TypeAtlas.Descriptor

/-- The members for one level of a type, around the JSON form of its arguments. -/
def formMembers (form : TypeForm) (arguments : Json) : List (String × Json) :=
  [("raw_declaration", .string form.raw),
   ("type_name", .string form.typeName),
   ("namespace", .string form.scope),
   ("full_name", .string form.fullName),
   ("is_array", .bool form.isArray),
   ("array_rank", .nat form.arrayRank),
   ("is_pointer", .bool form.isPointer),
   ("pointer_depth", .nat form.pointerDepth),
   ("is_reference", .bool form.isReference),
   ("is_runtime_class_reference", .bool form.isRuntimeClass),
   ("is_const", .bool form.qualifiers.isConst),
   ("is_read_only", .bool form.qualifiers.isReadOnly),
   ("is_nullable", .bool form.isNullable),
   ("is_generic", .bool form.isGeneric),
   ("generic_arguments", arguments),
   ("is_generic_parameter", .bool form.isArgument),
   ("is_in_param", .bool form.marks.isIn),
   ("is_out_param", .bool form.marks.isOut),
   ("is_optional", .bool form.marks.isOptional),
   ("is_event_args", .bool form.isEventArgs),
   ("is_event_token", .bool form.isEventToken),
   ("is_com_ptr", .bool form.marks.isComPointer),
   ("is_typename", .bool form.qualifiers.isTypename),
   ("is_ref", .bool form.qualifiers.isRef),
   ("is_this", .bool form.qualifiers.isThis),
   ("is_ambiguous", .bool form.isAmbiguous)]

mutual

/-- The JSON form of a type. -/
def toJson (d : Descriptor) : Json :=
  match d with
  | ⟨form, arguments⟩ => .object (formMembers form (.array (listToJson arguments)))

/-- The JSON forms of several types. -/
def listToJson (ds : List Descriptor) : List Json :=
  match ds with
  | [] => []
  | d :: ds => toJson d :: listToJson ds

end

end TypeAtlas.Descriptor
