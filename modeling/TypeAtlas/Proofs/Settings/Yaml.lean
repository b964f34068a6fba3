import TypeAtlas.Proofs.Settings.File
import TypeAtlas.Proofs.Yaml.Readback
import TypeAtlas.Settings.Yaml

/-!
# Settings files in YAML

The file that spells out all sections of some settings is read back from its YAML text, whatever
the annotations are.

The main statement is `SettingsFile.readsBack_yaml`.
-/

namespace TypeAtlas

open Yaml (Readable)

/-! ## Fields -/

namespace Yaml

section Fields

variable {α : Type} {name other : String} {v : Yaml} {fields : List (String × Yaml)}
  {read? : Yaml → Option α} {default : α}

theorem fieldOr?_cons_self : fieldOr? ((name, v) :: fields) name read? default = read? v := by
  rw [fieldOr?, List.lookup_cons_self]

theorem fieldOr?_cons_of_ne (h : (name == other) = false) :
    fieldOr? ((other, v) :: fields) name read? default = fieldOr? fields name read? default := by
  rw [fieldOr?, List.lookup_cons, h]
  rfl

theorem require?_cons_self : require? ((name, v) :: fields) name read? = read? v := by
  rw [require?, List.lookup_cons_self, Option.bind_some]

theorem require?_cons_of_ne (h : (name == other) = false) :
    require? ((other, v) :: fields) name read? = require? fields name read? := by
  rw [require?, List.lookup_cons, h]
  rfl

end Fields

/-! ## Values -/

theorem strings?_map_ofText (texts : List String) :
    strings? (.sequence (texts.map .ofText)) = some texts := by
  simp only [strings?]
  induction texts with
  | nil => rfl
  | cons text texts ih =>
    have htext : string? (.ofText text) = some text := rfl
    rw [List.map_cons, List.mapM_cons, ih, htext]
    rfl

theorem truth?_ofBool (value : Bool) : truth? (.ofBool value) = some value := by
  cases value <;> rfl

theorem nullable?_ofBool (value : Bool) : nullable? truth? (.ofBool value) = some (some value) := by
  cases value <;> rfl

/-- The name of a field can be a key. -/
theorem isKey_entry {name : String} (v : Yaml) (hplain : YamlScalar.isPlain name.toList)
    (hletter : name.toList.head?.any Char.isAlpha)
    (hshort : name.toList.length ≤ YamlLexeme.keyLimit) : (entry name v).1.IsKey :=
  ⟨rfl, rfl, hplain, hletter, hshort⟩

theorem readable_ofBool {depth : Nat} (value : Bool) : (ofBool value).Readable depth := by
  cases value <;> exact .scalar (.inline (.plain (by decide)))

theorem readable_ofText {depth : Nat} (text : String) : (ofText text).Readable depth :=
  .scalar (YamlScalar.isWritten_ofText text)

theorem readable_ofTexts {depth : Nat} (texts : List String) :
    (Yaml.sequence (texts.map .ofText)).Readable (depth + 1) := by
  have hscalars : texts.map ofText = (texts.map YamlScalar.ofText).map .scalar := by
    rw [List.map_map]
    rfl
  rw [hscalars]
  refine .sequence fun s hs => ?_
  obtain ⟨text, -, rfl⟩ := List.mem_map.1 hs
  exact YamlScalar.isWritten_ofText text

end Yaml

/-! ## Sections -/

theorem ParserSettings.ofYaml?_toYaml (s : ParserSettings) : ofYaml? s.toYaml = some s := by
  have hfields : s.toYaml.exactFields? ["extra_annotation_tokens"]
      = some [("extra_annotation_tokens", .sequence (s.extraAnnotations.map .ofText))] := rfl
  rw [ofYaml?, hfields]
  simp only [Option.bind_eq_bind, Option.bind_some, Option.pure_def, Yaml.fieldOr?_cons_self,
    Yaml.strings?_map_ofText]

theorem RegistrySettings.ofYaml?_toYaml (s : RegistrySettings) : ofYaml? s.toYaml = some s := by
  have hfields : s.toYaml.exactFields?
        ["case_insensitive_fallback", "upgrade_facades", "recognize_primitives"]
      = some [("case_insensitive_fallback", .ofBool s.foldCase),
        ("upgrade_facades", .ofBool s.upgradeFacades),
        ("recognize_primitives", .ofBool s.recognizePrimitives)] := rfl
  rw [ofYaml?, hfields]
  simp (disch := decide) only [Option.bind_eq_bind, Option.bind_some, Option.pure_def,
    Yaml.require?_cons_self, Yaml.require?_cons_of_ne, Yaml.truth?_ofBool]

theorem ProjectionSettings.ofYaml?_toYaml (s : ProjectionSettings) :
    ofYaml? s.toYaml = some s := by
  have hfields : s.toYaml.exactFields?
        ["enabled", "copy_member_docs", "copy_parameter_docs", "copy_enum_values"]
      = some [("enabled", .ofBool s.isEnabled), ("copy_member_docs", .ofBool s.copyMemberDocs),
        ("copy_parameter_docs", .ofBool s.copyParameterDocs),
        ("copy_enum_values", .ofBool s.copyEnumValues)] := rfl
  rw [ofYaml?, hfields]
  simp (disch := decide) only [Option.bind_eq_bind, Option.bind_some, Option.pure_def,
    Yaml.require?_cons_self, Yaml.require?_cons_of_ne, Yaml.truth?_ofBool]

theorem Overrides.ofYaml?_sections (s : Settings) :
    ofYaml? s.sections.toYaml = some s.sections := by
  have hfields : s.sections.toYaml.exactFields?
        ["parser", "registry", "projection", "fail_on_malformed"]
      = some [("parser", s.parser.toYaml), ("registry", s.registry.toYaml),
        ("projection", s.projection.toYaml), ("fail_on_malformed", .ofBool s.failOnMalformed)] :=
    rfl
  have hparser : Yaml.nullable? ParserSettings.ofYaml? s.parser.toYaml = some (some s.parser) :=
    congrArg (Option.map some) s.parser.ofYaml?_toYaml
  have hregistry : Yaml.nullable? RegistrySettings.ofYaml? s.registry.toYaml
      = some (some s.registry) := congrArg (Option.map some) s.registry.ofYaml?_toYaml
  have hprojection : Yaml.nullable? ProjectionSettings.ofYaml? s.projection.toYaml
      = some (some s.projection) := congrArg (Option.map some) s.projection.ofYaml?_toYaml
  rw [ofYaml?, hfields]
  simp (disch := decide) only [Option.bind_eq_bind, Option.bind_some, Option.pure_def,
    Yaml.fieldOr?_cons_self, Yaml.fieldOr?_cons_of_ne, hparser, hregistry, hprojection,
    Yaml.nullable?_ofBool, Settings.sections]

namespace SettingsFile

/-- The node of a file is read back as the file. -/
theorem ofYaml?_toYaml_ofSettings (s : Settings) :
    ofYaml? (ofSettings s).toYaml = some (ofSettings s) := by
  have hfields : (ofSettings s).toYaml.exactFields? ["version", "preset", "overrides"]
      = some [("version", .word "1"), ("preset", .ofText s.preset.name),
        ("overrides", s.sections.toYaml)] := rfl
  have hversion : Yaml.nullable? Yaml.word32? (.word "1") = some (some 1) := rfl
  have hpreset : Yaml.string? (.ofText s.preset.name) = some s.preset.name := rfl
  have hoverrides : Yaml.nullable? Overrides.ofYaml? s.sections.toYaml
      = some (some s.sections) := congrArg (Option.map some) (Overrides.ofYaml?_sections s)
  rw [ofYaml?, hfields]
  simp (disch := decide) only [Option.bind_eq_bind, Option.bind_some, Option.pure_def,
    Yaml.fieldOr?_cons_self, Yaml.fieldOr?_cons_of_ne, Yaml.require?_cons_self,
    Yaml.require?_cons_of_ne, hversion, hpreset, hoverrides, ofSettings_eq]

/-- The collections of a file are the file, its sections, the section of the parser and its
annotations. -/
theorem readable_toYaml_ofSettings (s : Settings) : (ofSettings s).toYaml.Readable depth := by
  have hparser : s.parser.toYaml.Readable 2 :=
    .mapping (by simp) (by simp (disch := decide) [Yaml.isKey_entry])
      (by simp [Yaml.entry, Yaml.readable_ofTexts])
  have hregistry : s.registry.toYaml.Readable 2 :=
    .mapping (by simp) (by simp (disch := decide) [Yaml.isKey_entry])
      (by simp [Yaml.entry, Yaml.readable_ofBool])
  have hprojection : s.projection.toYaml.Readable 2 :=
    .mapping (by simp) (by simp (disch := decide) [Yaml.isKey_entry])
      (by simp [Yaml.entry, Yaml.readable_ofBool])
  have hsections : s.sections.toYaml.Readable 3 := by
    refine .mapping (by simp [Settings.sections, optionalEntry]) ?_ ?_
    · simp (disch := decide) [Settings.sections, optionalEntry, Yaml.isKey_entry]
    · simp [Settings.sections, optionalEntry, Yaml.entry, hparser, hregistry, hprojection,
        Yaml.readable_ofBool]
  have hversion : (Yaml.word (Nat.repr 1)).Readable 3 := .scalar (.inline (.plain (by decide)))
  refine .mapping (by simp) ?_ ?_
  · simp (disch := decide) [ofSettings_eq, optionalEntry, Yaml.isKey_entry]
  · simp [ofSettings_eq, optionalEntry, Yaml.entry, hsections, Yaml.readable_ofText, hversion]

/-- The file of some settings is read back from its text. -/
theorem readsBack_yaml : FileLibrary.yaml.ReadsBack where
  writes _ := ⟨_, rfl⟩
  reads s text htext := by
    have hread : FileLibrary.yaml.read? text = (Yaml.parse? depth text).bind ofYaml? := rfl
    obtain rfl : (ofSettings s).toYaml.print = text := Option.some.inj htext
    have hparse : Yaml.parse? depth (ofSettings s).toYaml.print = some (ofSettings s).toYaml :=
      Yaml.parse?_print (readable_toYaml_ofSettings s)
    rw [hread, hparse, Option.bind_some, ofYaml?_toYaml_ofSettings]

end SettingsFile

end TypeAtlas
