import TypeAtlas.Settings.File

/-!
# Settings through a file

The file that spells out all sections of some settings stands for these settings, if they pass the
check, and is refused for the same cause as they are if not. So it does not matter from which preset
the sections had come.

What a text looks like is up to the library that writes it. If the library reads back the files that
it writes, then a text stands for the settings that it was written from.

The main statements are `SettingsFile.toSettings_ofSettings`, `Settings.ofText_toText` and
`Settings.validate_of_ofText`.
-/

namespace TypeAtlas

/-! ## Checking -/

/-- An annotation is refused for its value only. -/
theorem ParserSettings.checkAnnotation_error {token : String} {e : SettingsError}
    (h : checkAnnotation token = .error e) :
    ∃ value hint, e = .invalidValue annotationField value hint := by
  unfold checkAnnotation at h
  split at h
  · exact ⟨_, _, (Except.error.inj h).symm⟩
  · split at h
    · exact ⟨_, _, (Except.error.inj h).symm⟩
    · simp at h

/-- Settings are refused for the value of an annotation only. -/
theorem Settings.validate_error {s : Settings} {e : SettingsError} (h : s.validate = .error e) :
    ∃ value hint, e = .invalidValue ParserSettings.annotationField value hint := by
  change forM s.parser.extraAnnotations ParserSettings.checkAnnotation = .error e at h
  generalize s.parser.extraAnnotations = tokens at h
  induction tokens with
  | nil => cases h
  | cons token tokens ih =>
    rw [List.forM_cons] at h
    cases hcheck : ParserSettings.checkAnnotation token with
    | error d =>
      rw [hcheck] at h
      obtain rfl : d = e := Except.error.inj h
      exact ParserSettings.checkAnnotation_error hcheck
    | ok u =>
      rw [hcheck] at h
      exact ih h

example :
    { Settings.ofPreset .strict with parser := { extraAnnotations := ["in", "in out"] } }.validate
      = .error (.invalidValue "parser.extra_annotation_tokens" "'in out'"
        "Annotation tokens cannot contain whitespace.") := by
  rfl

/-- What the check lets through passes it. -/
theorem Settings.validate_of_map {s t : Settings} (h : (s.validate.map fun _ => s) = .ok t) :
    t.validate = .ok () := by
  cases hvalid : s.validate with
  | error e =>
    rw [hvalid] at h
    cases h
  | ok u =>
    rw [hvalid] at h
    obtain rfl := Except.ok.inj h
    exact hvalid

/-! ## Files -/

/-- The sections of some settings, all of them spelled out. -/
def Settings.sections (s : Settings) : Overrides where
  parser := some s.parser
  registry := some s.registry
  projection := some s.projection
  failOnMalformed := some s.failOnMalformed

theorem SettingsFile.ofSettings_eq (s : Settings) :
    ofSettings s = { version := some 1, preset := s.preset.name, overrides := some s.sections } :=
  rfl

theorem Preset.ofName_name (p : Preset) : ofName p.name = .ok p := by
  have hlower : Text.lowercase p.name = p.name := by cases p <;> decide
  rw [ofName, hlower]
  cases p <;> rfl

/-- Sections that are all spelled out leave nothing of a preset but its name. -/
theorem Settings.apply_sections (s : Settings) : s.sections.apply (.ofPreset s.preset) = s :=
  rfl

namespace SettingsFile

/-- The file of some settings stands for them, as far as they pass the check. -/
theorem toSettings_ofSettings (s : Settings) :
    (ofSettings s).toSettings = s.validate.map fun _ => s := by
  have hpreset : Preset.ofName (ofSettings s).preset = .ok s.preset := Preset.ofName_name s.preset
  rw [toSettings, hpreset]
  change ((s.sections.apply (.ofPreset s.preset)).validate.map fun _ =>
    s.sections.apply (.ofPreset s.preset)) = _
  rw [Settings.apply_sections]

/-- What a file stands for has passed the check. -/
theorem validate_of_toSettings {file : SettingsFile} {s : Settings}
    (h : file.toSettings = .ok s) : s.validate = .ok () := by
  unfold toSettings at h
  split at h
  · cases h
  · split at h
    · cases h
    · cases hpreset : Preset.ofName file.preset with
      | error e =>
        rw [hpreset] at h
        cases h
      | ok preset =>
        rw [hpreset] at h
        exact Settings.validate_of_map h

end SettingsFile

/-! ## Writing and loading -/

/-- A library writes the file of any settings, and reads back what it has written. -/
structure FileLibrary.ReadsBack (library : FileLibrary) : Prop where
  writes : ∀ s : Settings, ∃ text, library.write? (.ofSettings s) = some text
  reads : ∀ (s : Settings) (text : String), library.write? (.ofSettings s) = some text →
    library.read? text = some (.ofSettings s)

namespace Settings

variable {libraries : FileFormat → FileLibrary} {format : FileFormat}

/-- Settings are written, and their text stands for them, as far as they pass the check. -/
theorem ofText_toText (h : (libraries format).ReadsBack) (s : Settings) :
    ∃ text, s.toText libraries format = .ok text ∧
      ofText libraries format text = s.validate.map fun _ => s := by
  obtain ⟨text, htext⟩ := h.writes s
  refine ⟨text, by rw [toText, htext], ?_⟩
  rw [ofText, h.reads s text htext, ← SettingsFile.toSettings_ofSettings]

/-- What a text stands for has passed the check, whatever the library reads. -/
theorem validate_of_ofText {text : String} {s : Settings}
    (h : ofText libraries format text = .ok s) : s.validate = .ok () := by
  unfold ofText at h
  split at h
  · cases h
  · exact SettingsFile.validate_of_toSettings h

end Settings

end TypeAtlas
