import TypeAtlas.Settings.Preset
import TypeAtlas.Text.Blank

/-!
# Settings

The settings of a run have a section for each of its stages. They start from a preset and can be
changed field by field; before a run they are checked.

## Main definitions

* `ParserSettings`, `RegistrySettings`, `ProjectionSettings`, `Settings` — the sections, and all.
* `Settings.ofPreset` — the settings of a preset.
* `Settings.validate` — the check.
* `Settings.describe` — the settings on one line.
-/

namespace TypeAtlas

/-- How declarations are read. -/
structure ParserSettings where
  /-- Annotations that are taken out besides the known ones. -/
  extraAnnotations : List String := []
  deriving DecidableEq, Repr

/-- How names are interned and found. -/
structure RegistrySettings where
  /-- Whether a managed name that is not found is looked up in any letter case. -/
  foldCase : Bool
  /-- Whether a facade gives way to a definition that comes later. -/
  upgradeFacades : Bool
  /-- Whether a built-in name without a definition is a primitive type. -/
  recognizePrimitives : Bool
  deriving DecidableEq, Repr

/-- How the two universes are projected onto one. -/
structure ProjectionSettings where
  /-- Whether there is a projection at all. -/
  isEnabled : Bool := true
  copyMemberDocs : Bool := true
  copyParameterDocs : Bool := true
  copyEnumValues : Bool := true
  deriving DecidableEq, Repr

/-- The settings of a run. -/
structure Settings where
  preset : Preset
  parser : ParserSettings
  registry : RegistrySettings
  projection : ProjectionSettings
  /-- Whether a malformed document ends the run. -/
  failOnMalformed : Bool
  deriving DecidableEq, Repr

/-- The registry settings of a preset. -/
def RegistrySettings.ofPreset : Preset → RegistrySettings
  | .standard => { foldCase := true, upgradeFacades := true, recognizePrimitives := true }
  | .legacy => { foldCase := true, upgradeFacades := false, recognizePrimitives := true }
  | .strict => { foldCase := false, upgradeFacades := true, recognizePrimitives := true }

namespace ParserSettings

/-- The name of the section. -/
def sectionName : String := "ParserConfig"

/-- The field that holds the annotations. -/
def annotationField : String := "parser.extra_annotation_tokens"

/-- The settings with one more annotation. -/
def addAnnotation (s : ParserSettings) (token : String) : ParserSettings :=
  { s with extraAnnotations := s.extraAnnotations ++ [token] }

/-- An annotation has at least one character and no blanks. -/
def checkAnnotation (token : String) : Except SettingsError Unit :=
  if token = "" then
    .error (.invalidValue annotationField "''" "Annotation tokens must be non-empty.")
  else if token.toList.any Text.isBlank then
    .error (.invalidValue annotationField ("'" ++ token ++ "'")
      "Annotation tokens cannot contain whitespace.")
  else
    .ok ()

/-- The check of the section, which stops at the first annotation that is refused. -/
def validate (s : ParserSettings) : Except SettingsError Unit :=
  s.extraAnnotations.forM checkAnnotation

end ParserSettings

/-- The name of the section. -/
def RegistrySettings.sectionName : String := "RegistryConfig"

/-- The name of the section. -/
def ProjectionSettings.sectionName : String := "ProjectionConfig"

namespace Settings

/-- The settings of a preset. -/
def ofPreset (preset : Preset) : Settings where
  preset
  parser := {}
  registry := .ofPreset preset
  projection := {}
  failOnMalformed := preset == .strict

/-- The check of all sections; only the parser section can be refused. -/
def validate (s : Settings) : Except SettingsError Unit :=
  s.parser.validate

/-- A truth value as a word. -/
def boolWord (value : Bool) : String :=
  if value then "true" else "false"

/-- The settings on one line. -/
def describe (s : Settings) : String :=
  "preset=" ++ s.preset.name
    ++ " case_fallback=" ++ boolWord s.registry.foldCase
    ++ " upgrade_facades=" ++ boolWord s.registry.upgradeFacades
    ++ " primitives=" ++ boolWord s.registry.recognizePrimitives
    ++ " projection=" ++ boolWord s.projection.isEnabled
    ++ " fail_on_malformed=" ++ boolWord s.failOnMalformed

end Settings

end TypeAtlas
