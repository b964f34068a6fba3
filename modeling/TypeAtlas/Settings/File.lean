import TypeAtlas.Settings.Basic

/-!
# Settings files

A settings file names a preset and may override whole sections of it. It carries the version of its
own form.

Files are written to texts, and read from them, by a library for each format. What a text looks like
is up to the library.

## Main definitions

* `SettingsFile` — what a file holds.
* `SettingsFile.toSettings` — the settings that a file stands for, once they are checked.
* `SettingsFile.ofSettings` — the file that spells out all sections of some settings.
* `FileFormat`, `FileLibrary` — a format, and what a library for one does.
* `Settings.toText`, `Settings.ofText` — settings as a text, and what a text stands for.
-/

namespace TypeAtlas

/-- The sections that a file overrides. -/
structure Overrides where
  parser : Option ParserSettings := none
  registry : Option RegistrySettings := none
  projection : Option ProjectionSettings := none
  failOnMalformed : Option Bool := none
  deriving DecidableEq, Repr

/-- What a settings file holds. -/
structure SettingsFile where
  version : Option Nat := none
  preset : String
  overrides : Option Overrides := none
  deriving DecidableEq, Repr

/-- The settings with the sections that are overridden. -/
def Overrides.apply (o : Overrides) (s : Settings) : Settings :=
  { s with
    parser := o.parser.getD s.parser
    registry := o.registry.getD s.registry
    projection := o.projection.getD s.projection
    failOnMalformed := o.failOnMalformed.getD s.failOnMalformed }

namespace SettingsFile

/-- The versions of the form of a file that are understood. -/
def supportedVersions : List Nat := [1]

/-- The settings that a file stands for. -/
def toSettings (file : SettingsFile) : Except SettingsError Settings := do
  match file.version with
  | none => throw .missingVersion
  | some version =>
    if !supportedVersions.contains version then
      throw (.unsupportedVersion version supportedVersions)
  let settings := (file.overrides.getD {}).apply (.ofPreset (← Preset.ofName file.preset))
  settings.validate
  return settings

/-- The file that spells out all sections of some settings. -/
def ofSettings (s : Settings) : SettingsFile where
  version := some 1
  preset := s.preset.name
  overrides := some
    { parser := some s.parser
      registry := some s.registry
      projection := some s.projection
      failOnMalformed := some s.failOnMalformed }

end SettingsFile

/-! ## Texts -/

/-- The format of a settings file. -/
inductive FileFormat where
  | json | yaml
  deriving DecidableEq, Repr

/-- What is reported of a text that cannot be read, and of a file that cannot be written. -/
def FileFormat.error : FileFormat → SettingsError
  | json => .json
  | yaml => .yaml

/-- A library for a format: the text that it writes for a file, and the file that it reads from a
text. -/
structure FileLibrary where
  write? : SettingsFile → Option String
  read? : String → Option SettingsFile

namespace Settings

variable (libraries : FileFormat → FileLibrary) (format : FileFormat)

/-- The settings written as a text. -/
def toText (s : Settings) : Except SettingsError String :=
  match (libraries format).write? (.ofSettings s) with
  | none => .error format.error
  | some text => .ok text

/-- The settings that a text stands for. -/
def ofText (text : String) : Except SettingsError Settings :=
  match (libraries format).read? text with
  | none => .error format.error
  | some file => file.toSettings

end Settings

end TypeAtlas
