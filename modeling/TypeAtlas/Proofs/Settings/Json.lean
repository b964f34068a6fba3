import TypeAtlas.Proofs.Json.Readback
import TypeAtlas.Proofs.Settings.File
import TypeAtlas.Settings.Json

/-!
# Settings files in JSON

The file that spells out all sections of some settings is read back from its JSON text, whatever
the annotations are.

The main statement is `SettingsFile.readsBack_json`.
-/

namespace TypeAtlas

open Json (Readable)

/-! ## Sections -/

theorem Json.strings?_strings (texts : List String) : strings? (.strings texts) = some texts := by
  simp only [strings?, list?, strings, ofList]
  induction texts with
  | nil => rfl
  | cons text texts ih => simp [List.mapM_cons, string?, ih]

theorem ParserSettings.ofJson?_toJson (s : ParserSettings) : ofJson? s.toJson = some s := by
  have hfields : s.toJson.exactFields? ["extra_annotation_tokens"]
      = some [("extra_annotation_tokens", .strings s.extraAnnotations)] := rfl
  simp [ofJson?, hfields, Json.fieldOr?, Json.lastMember?, Json.strings?_strings]

theorem RegistrySettings.ofJson?_toJson (s : RegistrySettings) : ofJson? s.toJson = some s :=
  rfl

theorem ProjectionSettings.ofJson?_toJson (s : ProjectionSettings) : ofJson? s.toJson = some s :=
  rfl

theorem Overrides.ofJson?_sections (s : Settings) :
    ofJson? s.sections.toJson = some s.sections := by
  have hfields : s.sections.toJson.exactFields?
        ["parser", "registry", "projection", "fail_on_malformed"]
      = some [("parser", s.parser.toJson), ("registry", s.registry.toJson),
        ("projection", s.projection.toJson), ("fail_on_malformed", .bool s.failOnMalformed)] :=
    rfl
  have hparser : Json.nullable? ParserSettings.ofJson? s.parser.toJson = some (some s.parser) :=
    congrArg (Option.map some) s.parser.ofJson?_toJson
  have hregistry : Json.nullable? RegistrySettings.ofJson? s.registry.toJson
      = some (some s.registry) := rfl
  have hprojection : Json.nullable? ProjectionSettings.ofJson? s.projection.toJson
      = some (some s.projection) := rfl
  have hfail : Json.nullable? Json.bool? (.bool s.failOnMalformed)
      = some (some s.failOnMalformed) := rfl
  rw [ofJson?, hfields]
  simp [Json.fieldOr?, Json.lastMember?, hparser, hregistry, hprojection, hfail,
    Settings.sections]

namespace SettingsFile

/-- The value of a file is read back as the file. -/
theorem ofJson?_toJson_ofSettings (s : Settings) :
    ofJson? (ofSettings s).toJson = some (ofSettings s) := by
  have hfields : (ofSettings s).toJson.exactFields? ["version", "preset", "overrides"]
      = some [("version", .nat 1), ("preset", .string s.preset.name),
        ("overrides", s.sections.toJson)] := rfl
  have hversion : Json.nullable? Json.word32? (.nat 1) = some (some 1) := rfl
  have hoverrides : Json.nullable? Overrides.ofJson? s.sections.toJson
      = some (some s.sections) := congrArg (Option.map some) (Overrides.ofJson?_sections s)
  rw [ofJson?, hfields]
  simp [Json.fieldOr?, Json.require?, Json.lastMember?, Json.string?, hversion, hoverrides,
    ofSettings_eq]

/-- The collections of a file are the file, its sections, the section of the parser and its
annotations. -/
theorem readable_toJson_ofSettings (s : Settings) : (ofSettings s).toJson.Readable 4 := by
  have hversion : (Json.nat 1).Readable 3 := .nat (by decide)
  have hparser : s.parser.toJson.Readable 2 := by
    refine .object (List.forall_mem_singleton.2 (.array fun v hv => ?_))
    obtain ⟨text, -, rfl⟩ := List.mem_map.1 hv
    exact .string text
  have hregistry : s.registry.toJson.Readable 2 := .object (by simp [Readable.bool])
  have hprojection : s.projection.toJson.Readable 2 := .object (by simp [Readable.bool])
  have hsections : s.sections.toJson.Readable 3 :=
    .object (by simp [Settings.sections, optionalMember, hparser, hregistry, hprojection,
      Readable.bool])
  exact .object (by simp [ofSettings_eq, optionalMember, Json.ofOption, hversion, Readable.string,
    hsections])

/-- The file of some settings is read back from its text. -/
theorem readsBack_json : FileLibrary.json.ReadsBack where
  writes _ := ⟨_, rfl⟩
  reads s text htext := by
    have hread : FileLibrary.json.read? text = (Json.parse? text).bind ofJson? := rfl
    obtain rfl : (ofSettings s).toJson.pretty = text := Option.some.inj htext
    rw [hread, Json.parse?_pretty (readable_toJson_ofSettings s) (by decide), Option.bind_some,
      ofJson?_toJson_ofSettings]

end SettingsFile

end TypeAtlas
