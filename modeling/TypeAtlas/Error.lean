/-!
# Errors

What stops a run or a question. Anomalies that do not are diagnostics.

## Main definitions

* `SettingsError`, `AtlasError` — the causes.
* `SettingsError.message`, `AtlasError.message` — their texts.
-/

namespace TypeAtlas

/-- Why settings are refused. -/
inductive SettingsError where
  /-- A field holds a value that it must not hold. -/
  | invalidValue (field : String) (value : String) (hint : String)
  | missingVersion
  | unsupportedVersion (found : Nat) (supported : List Nat)
  | unknownPreset (name : String)
  /-- A text that is not YAML, or not the YAML of a settings file. -/
  | yaml
  /-- A text that is not JSON, or not the JSON of a settings file. -/
  | json
  /-- A file that cannot be read. -/
  | file
  deriving DecidableEq, Repr

/-- The text for a name that is no preset. -/
def unknownPresetMessage (name : String) : String :=
  "Unknown preset '" ++ name ++ "'. Valid presets: standard, legacy, strict"

/-- The text of a cause. -/
def SettingsError.message : SettingsError → String
  | invalidValue field value hint =>
    "Invalid value for field '" ++ field ++ "': " ++ value ++ ". " ++ hint
  | missingVersion =>
    "Missing 'version' field in configuration file. "
      ++ "Add 'version: 1' to the top of your YAML file."
  | unsupportedVersion found supported =>
    "Unsupported configuration version " ++ toString found ++ ". Supported versions: "
      ++ ", ".intercalate (supported.map toString)
  | unknownPreset name => unknownPresetMessage name
  | yaml => "YAML parsing error"
  | json => "JSON parsing error"
  | file => "IO error"

/-- Why a run or a question fails. -/
inductive AtlasError where
  /-- A document lacks a required part. -/
  | malformedInput (document : String) (reason : String)
  /-- No document led to a compound. -/
  | emptyUniverse
  /-- A question to a node that cannot answer it. -/
  | invalidAccess (fullName : String) (query : String)
  | settings (cause : SettingsError)
  deriving DecidableEq, Repr

namespace AtlasError

/-- The text of a cause. -/
def message : AtlasError → String
  | malformedInput document reason => "Malformed input in '" ++ document ++ "': " ++ reason
  | emptyUniverse => "Empty universe: no compounds were built from the supplied documents"
  | invalidAccess fullName query =>
    "Invalid access: '" ++ query ++ "' is unknown for facade type '" ++ fullName ++ "'"
  | settings cause => "Configuration error: " ++ cause.message

/-- Whether the error concerns one document only, so that a run may go on without it. -/
def isDocumentLocal : AtlasError → Bool
  | malformedInput .. => true
  | _ => false

end AtlasError

end TypeAtlas
