import TypeAtlas.Json.Fields
import TypeAtlas.Json.Parser
import TypeAtlas.Json.Printer
import TypeAtlas.Settings.File

/-!
# Settings files in JSON

A file that is read must have the known fields only, and none of them twice.

## Main definitions

* `SettingsFile.toJson`, `SettingsFile.ofJson?` — a file as a JSON value, and read from one.
* `FileLibrary.json` — a library for JSON.
-/

namespace TypeAtlas

open Json (fieldOr? require? nullable? strings? string? bool?)

/-- A natural number of 32 bits. -/
def Json.word32? (v : Json) : Option Nat :=
  v.nat?.filter (· < UInt32.size)

/-! ## Sections -/

/-- The JSON form of the section. -/
def ParserSettings.toJson (s : ParserSettings) : Json :=
  .object [("extra_annotation_tokens", .strings s.extraAnnotations)]

/-- The section that a value is the JSON form of. -/
def ParserSettings.ofJson? (v : Json) : Option ParserSettings := do
  let f ← v.exactFields? ["extra_annotation_tokens"]
  return { extraAnnotations := ← fieldOr? f "extra_annotation_tokens" strings? [] }

/-- The JSON form of the section. -/
def RegistrySettings.toJson (s : RegistrySettings) : Json :=
  .object
    [("case_insensitive_fallback", .bool s.foldCase), ("upgrade_facades", .bool s.upgradeFacades),
     ("recognize_primitives", .bool s.recognizePrimitives)]

/-- The section that a value is the JSON form of. -/
def RegistrySettings.ofJson? (v : Json) : Option RegistrySettings := do
  let f ← v.exactFields? ["case_insensitive_fallback", "upgrade_facades", "recognize_primitives"]
  return {
    foldCase := ← require? f "case_insensitive_fallback" bool?
    upgradeFacades := ← require? f "upgrade_facades" bool?
    recognizePrimitives := ← require? f "recognize_primitives" bool? }

/-- The JSON form of the section. -/
def ProjectionSettings.toJson (s : ProjectionSettings) : Json :=
  .object
    [("enabled", .bool s.isEnabled), ("copy_member_docs", .bool s.copyMemberDocs),
     ("copy_parameter_docs", .bool s.copyParameterDocs),
     ("copy_enum_values", .bool s.copyEnumValues)]

/-- The section that a value is the JSON form of. -/
def ProjectionSettings.ofJson? (v : Json) : Option ProjectionSettings := do
  let f ← v.exactFields? ["enabled", "copy_member_docs", "copy_parameter_docs", "copy_enum_values"]
  return {
    isEnabled := ← require? f "enabled" bool?
    copyMemberDocs := ← require? f "copy_member_docs" bool?
    copyParameterDocs := ← require? f "copy_parameter_docs" bool?
    copyEnumValues := ← require? f "copy_enum_values" bool? }

/-! ## Files -/

/-- A member for a value that is there. -/
def optionalMember {α : Type} (name : String) (encode : α → Json) (value : Option α) :
    List (String × Json) :=
  value.toList.map fun v => (name, encode v)

/-- The JSON form of overridden sections; one that is not overridden is left out. -/
def Overrides.toJson (o : Overrides) : Json :=
  .object
    (optionalMember "parser" ParserSettings.toJson o.parser
      ++ optionalMember "registry" RegistrySettings.toJson o.registry
      ++ optionalMember "projection" ProjectionSettings.toJson o.projection
      ++ optionalMember "fail_on_malformed" .bool o.failOnMalformed)

/-- The overridden sections that a value is the JSON form of. -/
def Overrides.ofJson? (v : Json) : Option Overrides := do
  let f ← v.exactFields? ["parser", "registry", "projection", "fail_on_malformed"]
  return {
    parser := ← fieldOr? f "parser" (nullable? ParserSettings.ofJson?) none
    registry := ← fieldOr? f "registry" (nullable? RegistrySettings.ofJson?) none
    projection := ← fieldOr? f "projection" (nullable? ProjectionSettings.ofJson?) none
    failOnMalformed := ← fieldOr? f "fail_on_malformed" (nullable? bool?) none }

/-- The JSON form of a settings file. -/
def SettingsFile.toJson (file : SettingsFile) : Json :=
  .object
    ([("version", .ofOption .nat file.version), ("preset", .string file.preset)]
      ++ optionalMember "overrides" Overrides.toJson file.overrides)

/-- The settings file that a value is the JSON form of. -/
def SettingsFile.ofJson? (v : Json) : Option SettingsFile := do
  let f ← v.exactFields? ["version", "preset", "overrides"]
  return {
    version := ← fieldOr? f "version" (nullable? Json.word32?) none
    preset := ← require? f "preset" string?
    overrides := ← fieldOr? f "overrides" (nullable? Overrides.ofJson?) none }

/-- A library that writes a file with one member a line. -/
def FileLibrary.json : FileLibrary where
  write? file := some file.toJson.pretty
  read? text := (Json.parse? text).bind SettingsFile.ofJson?

end TypeAtlas
