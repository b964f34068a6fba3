import TypeAtlas.Error
import TypeAtlas.Text.Lowercase

/-!
# Presets

A preset is a complete choice of settings under a name. Letter case does not matter in the name.
-/

namespace TypeAtlas

/-- A named choice of settings. -/
inductive Preset where
  /-- Names are found in any letter case, and facades give way to definitions that come later. -/
  | standard
  /-- Facades never give way: a later definition gets a node of its own. -/
  | legacy
  /-- Names are found as they are written only, and a malformed document ends the run. -/
  | strict
  deriving DecidableEq, Repr

namespace Preset

/-- The written name of a preset. -/
def name : Preset → String
  | standard => "standard"
  | legacy => "legacy"
  | strict => "strict"

/-- All presets. -/
def all : List Preset :=
  [standard, legacy, strict]

/-- The preset with a name. -/
def ofName (text : String) : Except SettingsError Preset :=
  match all.find? (·.name == Text.lowercase text) with
  | some preset => .ok preset
  | none => .error (.unknownPreset text)

end Preset

end TypeAtlas
