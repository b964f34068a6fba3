import TypeAtlas.Settings.File
import TypeAtlas.Yaml.Fields
import TypeAtlas.Yaml.Parser
import TypeAtlas.Yaml.Printer

/-!
# Settings files in YAML

A file that is read must have the known fields only, and none of them twice.

## Main definitions

* `SettingsFile.toYaml`, `SettingsFile.ofYaml?` — a file as a YAML node, and read from one.
* `FileLibrary.yaml` — a library for YAML.
-/

namespace TypeAtlas

/-- An entry with a known name. -/
def Yaml.entry (name : String) (v : Yaml) : YamlScalar × Yaml :=
  ({ style := .plain, text := name }, v)

open Yaml (entry fieldOr? require? nullable? strings? string? truth? word32?)

/-- A truth value as a node. -/
def Yaml.ofBool (value : Bool) : Yaml :=
  .word (if value then "true" else "false")

/-- A text as a node. -/
def Yaml.ofText (text : String) : Yaml :=
  .scalar (.ofText text)

/-! ## Sections -/

/-- The YAML form of the section. -/
def ParserSettings.toYaml (s : ParserSettings) : Yaml :=
  .mapping [entry "extra_annotation_tokens" (.sequence (s.extraAnnotations.map .ofText))]

/-- The section that a node is the YAML form of. -/
def ParserSettings.ofYaml? (v : Yaml) : Option ParserSettings := do
  let f ← v.exactFields? ["extra_annotation_tokens"]
  return { extraAnnotations := ← fieldOr? f "extra_annotation_tokens" strings? [] }

/-- The YAML form of the section. -/
def RegistrySettings.toYaml (s : RegistrySettings) : Yaml :=
  .mapping
    [entry "case_insensitive_fallback" (.ofBool s.foldCase),
     entry "upgrade_facades" (.ofBool s.upgradeFacades),
     entry "recognize_primitives" (.ofBool s.recognizePrimitives)]

/-- The section that a node is the YAML form of. -/
def RegistrySettings.ofYaml? (v : Yaml) : Option RegistrySettings := do
  let f ← v.exactFields? ["case_insensitive_fallback", "upgrade_facades", "recognize_primitives"]
  return {
    foldCase := ← require? f "case_insensitive_fallback" truth?
    upgradeFacades := ← require? f "upgrade_facades" truth?
    recognizePrimitives := ← require? f "recognize_primitives" truth? }

/-- The YAML form of the section. -/
def ProjectionSettings.toYaml (s : ProjectionSettings) : Yaml :=
  .mapping
    [entry "enabled" (.ofBool s.isEnabled),
     entry "copy_member_docs" (.ofBool s.copyMemberDocs),
     entry "copy_parameter_docs" (.ofBool s.copyParameterDocs),
     entry "copy_enum_values" (.ofBool s.copyEnumValues)]

/-- The section that a node is the YAML form of. -/
def ProjectionSettings.ofYaml? (v : Yaml) : Option ProjectionSettings := do
  let f ← v.exactFields? ["enabled", "copy_member_docs", "copy_parameter_docs", "copy_enum_values"]
  return {
    isEnabled := ← require? f "enabled" truth?
    copyMemberDocs := ← require? f "copy_member_docs" truth?
    copyParameterDocs := ← require? f "copy_parameter_docs" truth?
    copyEnumValues := ← require? f "copy_enum_values" truth? }

/-! ## Files -/

/-- An entry for a value that is there. -/
def optionalEntry {α : Type} (name : String) (encode : α → Yaml) (value : Option α) :
    List (YamlScalar × Yaml) :=
  value.toList.map fun v => entry name (encode v)

/-- The YAML form of overridden sections; one that is not overridden is left out. -/
def Overrides.toYaml (o : Overrides) : Yaml :=
  .mapping
    (optionalEntry "parser" ParserSettings.toYaml o.parser
      ++ optionalEntry "registry" RegistrySettings.toYaml o.registry
      ++ optionalEntry "projection" ProjectionSettings.toYaml o.projection
      ++ optionalEntry "fail_on_malformed" .ofBool o.failOnMalformed)

/-- The overridden sections that a node is the YAML form of. -/
def Overrides.ofYaml? (v : Yaml) : Option Overrides := do
  let f ← v.exactFields? ["parser", "registry", "projection", "fail_on_malformed"]
  return {
    parser := ← fieldOr? f "parser" (nullable? ParserSettings.ofYaml?) none
    registry := ← fieldOr? f "registry" (nullable? RegistrySettings.ofYaml?) none
    projection := ← fieldOr? f "projection" (nullable? ProjectionSettings.ofYaml?) none
    failOnMalformed := ← fieldOr? f "fail_on_malformed" (nullable? truth?) none }

/-- The YAML form of a settings file. -/
def SettingsFile.toYaml (file : SettingsFile) : Yaml :=
  .mapping
    ([entry "version" (.word ((file.version.map toString).getD "null")),
      entry "preset" (.ofText file.preset)]
      ++ optionalEntry "overrides" Overrides.toYaml file.overrides)

/-- The number of collections around the values of a settings file that stand deepest. -/
def SettingsFile.depth : Nat := 4

/-- The settings file that a node is the YAML form of. -/
def SettingsFile.ofYaml? (v : Yaml) : Option SettingsFile := do
  let f ← v.exactFields? ["version", "preset", "overrides"]
  return {
    version := ← fieldOr? f "version" (nullable? word32?) none
    preset := ← require? f "preset" string?
    overrides := ← fieldOr? f "overrides" (nullable? Overrides.ofYaml?) none }

/-- A library that writes a file with one entry a line. -/
def FileLibrary.yaml : FileLibrary where
  write? file := some file.toYaml.print
  read? text := (Yaml.parse? SettingsFile.depth text).bind SettingsFile.ofYaml?

end TypeAtlas
