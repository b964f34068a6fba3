import TypeAtlas.Proofs.Settings.Json
import TypeAtlas.Proofs.Settings.Yaml
import TypeAtlas.Settings.Library

/-!
# Writing and loading settings

Loading is inverse to writing in both formats, whatever texts the annotations are, if the libraries
read back what they write.

The main statement is `Settings.inverse_texts`.
-/

namespace TypeAtlas.Settings

variable {libraries : FileFormat → FileLibrary}

/-- That loading a text is inverse to writing one: settings that pass the check are loaded as they
were, settings that do not are refused for the same cause, and no text leads to settings that do
not pass. -/
structure Inverse (libraries : FileFormat → FileLibrary) (format : FileFormat) : Prop where
  accepted : ∀ s : Settings, s.validate = .ok () →
    ∃ text, s.toText libraries format = .ok text ∧ ofText libraries format text = .ok s
  refused : ∀ (s : Settings) (e : SettingsError), s.validate = .error e →
    (∃ text, s.toText libraries format = .ok text ∧ ofText libraries format text = .error e) ∧
      ∃ field value hint, e = .invalidValue field value hint
  checked : ∀ (text : String) (s : Settings),
    ofText libraries format text = .ok s → s.validate = .ok ()

/-- Settings that are written and loaded again are the same if they pass the check, and are refused
for the same cause if not. -/
theorem inverse_texts (h : ∀ format, (libraries format).ReadsBack) (format : FileFormat) :
    Inverse libraries format where
  accepted s hvalid := by
    obtain ⟨text, hwritten, hloaded⟩ := ofText_toText (h format) s
    exact ⟨text, hwritten, by rw [hloaded, hvalid]; rfl⟩
  refused s e hvalid := by
    obtain ⟨text, hwritten, hloaded⟩ := ofText_toText (h format) s
    obtain ⟨value, hint, he⟩ := validate_error hvalid
    exact ⟨⟨text, hwritten, by rw [hloaded, hvalid]; rfl⟩, _, value, hint, he⟩
  checked _ _ hloaded := validate_of_ofText hloaded

theorem readsBack_standard (format : FileFormat) : (FileLibrary.standard format).ReadsBack :=
  match format with
  | .json => SettingsFile.readsBack_json
  | .yaml => SettingsFile.readsBack_yaml

/-- The libraries with which the program is run read back what they write. -/
theorem inverse_texts_standard :
    Inverse FileLibrary.standard .json ∧ Inverse FileLibrary.standard .yaml :=
  ⟨inverse_texts readsBack_standard .json, inverse_texts readsBack_standard .yaml⟩

end TypeAtlas.Settings
