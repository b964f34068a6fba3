import TypeAtlas.Compound.Managed
import TypeAtlas.Proofs.Compound.Forest

/-!
# Scopes around managed compounds

The compounds of managed records are the ones that the records declare and the namespaces around the
outermost types among them. A type that is not outermost lies in a compound, and the scopes around
it are those around that. But a record may declare a namespace, around which no further ones are
put, also if types lie in it.

## Main definitions

* `ManagedRecord.Declares`, `ManagedRecord.DeclaresNamespace` — the names of the records.
* `ManagedRecord.IsOutermost`, `ManagedRecord.Holds` — the outermost types, and the scopes around
  them.

The main statements are `ManagedRecord.exists_mem_buildAll_iff` and
`ManagedRecord.closed_buildAll_iff`.
-/

namespace TypeAtlas

open NamespaceForest

namespace ManagedRecord

variable {parser : DeclarationParser} {r : ManagedRecord} {records : List ManagedRecord}
  {failOnMalformed : Bool} {c : Compound} {types compounds : List Compound} {reports : Diagnostics}
  {name scope : String}

/-! ## Records -/

/-- The full name of a record that has a name. -/
def fullName? (r : ManagedRecord) : Option String :=
  r.rawName?.toOption.map fun rawName =>
    Name.qualify (Name.canonical r.scope) (managedName rawName)

/-- The kind of the compound of a record. -/
def compoundKind (r : ManagedRecord) : CompoundKind :=
  (foldManagedKind r.kind).1

theorem facts_of_outline (r : ManagedRecord) (rawName : String) :
    (r.outline rawName).fullName = Name.qualify (Name.canonical r.scope) (managedName rawName) ∧
      (r.outline rawName).kind = r.compoundKind ∧
      (r.outline rawName).parentName = Name.scope? (r.outline rawName).fullName := by
  simp [outline, compoundKind, Compound.empty]

/-- Members do not change what is known of a compound before them. -/
theorem exists_foldl_addTo (parser : DeclarationParser) (members : List ManagedMemberRecord)
    (found : Compound × Diagnostics) : ∃ read values,
      (members.foldl (ManagedMemberRecord.addTo parser) found).1 =
        { found.1 with members := read, enumValues := values } := by
  induction members generalizing found with
  | nil => exact ⟨_, _, rfl⟩
  | cons m members ih =>
    obtain ⟨read, values, hrest⟩ := ih (m.addTo parser found)
    refine ⟨read, values, ?_⟩
    rw [List.foldl_cons, hrest]
    unfold ManagedMemberRecord.addTo
    dsimp only
    split
    · rfl
    · split <;> rfl

/-- A record that leads to a compound gives it its name, its kind and its scope. -/
theorem facts_of_build (h : r.build parser = .ok (c, reports)) :
    r.fullName? = some c.fullName ∧ c.kind = r.compoundKind ∧
      c.parentName = Name.scope? c.fullName := by
  unfold build at h
  cases hname : r.rawName? with
  | error e => simp [hname, Except.map] at h
  | ok rawName =>
    rw [hname] at h
    obtain ⟨read, values, hfold⟩ :=
      exists_foldl_addTo parser r.members (r.outline rawName, [])
    have hfound : r.members.foldl (ManagedMemberRecord.addTo parser) (r.outline rawName, []) =
        (c, reports) := Except.ok.inj h
    rw [hfound] at hfold
    subst hfold
    obtain ⟨hfull, hkind, hparent⟩ := r.facts_of_outline rawName
    dsimp only
    refine ⟨?_, hkind, hparent⟩
    rw [fullName?, hname, hfull, Except.toOption, Option.map_some]

/-- A record with a name leads to a compound. -/
theorem exists_build (h : r.fullName? = some name) (parser : DeclarationParser) :
    ∃ c reports, r.build parser = .ok (c, reports) := by
  unfold build
  cases hname : r.rawName? with
  | error e => simp [fullName?, hname, Except.toOption] at h
  | ok rawName => exact ⟨_, _, rfl⟩

theorem mem_of_buildEach (h : (buildEach parser failOnMalformed records).2 = .ok types) :
    c ∈ types ↔ ∃ r ∈ records, ∃ reports, r.build parser = .ok (c, reports) := by
  induction records generalizing types with
  | nil =>
    obtain rfl : [] = types := Except.ok.inj h
    simp
  | cons r records ih =>
    rw [buildEach] at h
    cases hbuild : r.build parser with
    | ok found =>
      simp only [hbuild] at h
      cases hrest : (buildEach parser failOnMalformed records).2 with
      | error e => simp [hrest, Except.map] at h
      | ok rest =>
        rw [hrest] at h
        obtain rfl : found.1 :: rest = types := Except.ok.inj h
        rw [List.mem_cons, ih hrest, List.exists_mem_cons_iff, hbuild]
        simp only [Except.ok.injEq, Prod.ext_iff]
        grind
    | error e =>
      simp only [hbuild] at h
      split at h
      · simp at h
      · rw [ih h, List.exists_mem_cons_iff, hbuild]
        simp

/-! ## Names -/

/-- A record has the name. -/
def Declares (records : List ManagedRecord) (name : String) : Prop :=
  ∃ r ∈ records, r.fullName? = some name

/-- A record of a namespace has the name. -/
def DeclaresNamespace (records : List ManagedRecord) (name : String) : Prop :=
  ∃ r ∈ records, r.fullName? = some name ∧ r.compoundKind = .namespace

/-- A record of a type has the name, and none has that of its scope. -/
def IsOutermost (records : List ManagedRecord) (name : String) : Prop :=
  (∃ r ∈ records, r.fullName? = some name ∧ r.compoundKind ≠ .namespace) ∧
    ∀ scope, Name.scope? name = some scope → ¬ Declares records scope

/-- An outermost type lies in the scope. -/
def Holds (records : List ManagedRecord) (scope : String) : Prop :=
  ∃ name, IsOutermost records name ∧ Name.Encloses scope name

section Types

variable (h : (buildEach parser failOnMalformed records).2 = .ok types)

include h

theorem exists_mem_types_iff : (∃ c ∈ types, c.fullName = name) ↔ Declares records name := by
  constructor
  · rintro ⟨c, hc, rfl⟩
    obtain ⟨r, hr, reports, hbuild⟩ := (mem_of_buildEach h).1 hc
    exact ⟨r, hr, (facts_of_build hbuild).1⟩
  · rintro ⟨r, hr, hname⟩
    obtain ⟨c, reports, hbuild⟩ := exists_build hname parser
    refine ⟨c, (mem_of_buildEach h).2 ⟨r, hr, reports, hbuild⟩, ?_⟩
    exact Option.some.inj ((facts_of_build hbuild).1.symm.trans hname)

/-- The namespaces around the compounds of records are the scopes around the outermost types. -/
theorem isSpace_iff : IsSpace types scope ↔ Holds records scope := by
  constructor
  · rintro ⟨c, inner, hlies, haround⟩
    obtain ⟨r, hr, reports, hbuild⟩ := (mem_of_buildEach h).1 hlies.mem
    obtain ⟨hname, hkind, hparent⟩ := facts_of_build hbuild
    have hinner : Name.scope? c.fullName = some inner := hparent.symm.trans hlies.parentName
    refine ⟨c.fullName, ⟨⟨r, hr, hname, hkind ▸ hlies.kind⟩, ?_⟩,
      (Name.encloses_iff_of_scope? hinner).2 haround⟩
    rintro other hother hdeclared
    obtain rfl : inner = other := Option.some.inj (hinner.symm.trans hother)
    obtain ⟨d, hd, hfull⟩ := (exists_mem_types_iff h).2 hdeclared
    exact hlies.unnamed d hd hfull
  · rintro ⟨name, ⟨⟨r, hr, hname, hkind⟩, houter⟩, haround⟩
    obtain ⟨c, reports, hbuild⟩ := exists_build hname parser
    obtain ⟨hfull, hown, hparent⟩ := facts_of_build hbuild
    obtain rfl : c.fullName = name := Option.some.inj (hfull.symm.trans hname)
    obtain ⟨inner, hinner⟩ := haround.exists_scope?
    refine ⟨c, inner, ⟨(mem_of_buildEach h).2 ⟨r, hr, reports, hbuild⟩, hown ▸ hkind,
      hparent.trans hinner, ?_⟩, (Name.encloses_iff_of_scope? hinner).1 haround⟩
    intro d hd hdname
    exact houter inner hinner ((exists_mem_types_iff h).1 ⟨d, hd, hdname⟩)

end Types

/-- The compounds of records have the names of the records and those of the scopes around the
outermost types. -/
theorem exists_mem_buildAll_iff (h : (buildAll parser failOnMalformed records).2 = .ok compounds) :
    (∃ c ∈ compounds, c.fullName = name) ↔ Declares records name ∨ Holds records name := by
  unfold buildAll at h
  dsimp only at h
  cases htypes : (buildEach parser failOnMalformed records).2 with
  | error e => simp [htypes, Except.map] at h
  | ok types =>
    rw [htypes] at h
    obtain rfl : types ++ synthesizeNamespaces types = compounds := Except.ok.inj h
    rw [← exists_mem_types_iff htypes, ← isSpace_iff htypes,
      ← exists_mem_synthesizeNamespaces_iff]
    simp only [List.mem_append, or_and_right, exists_or]

/-! ## Scopes -/

/-- A scope around a compound is one of the names, or it is around a record of a namespace that is
the compound or around it. -/
theorem encloses_cases (hname : Declares records name ∨ Holds records name)
    (haround : Name.Encloses scope name) : (Declares records scope ∨ Holds records scope) ∨
      ∃ space, DeclaresNamespace records space ∧ (space = name ∨ Name.Encloses space name) ∧
        Name.Encloses scope space := by
  -- A type that is not outermost lies in a compound with a shorter name.
  induction hlength : name.toList.length using Nat.strong_induction_on generalizing name with
  | _ length ih =>
    rcases hname with ⟨r, hr, hname⟩ | ⟨outer, houter, hencloses⟩
    · by_cases hkind : r.compoundKind = .namespace
      · exact .inr ⟨name, ⟨r, hr, hname, hkind⟩, .inl rfl, haround⟩
      · obtain ⟨inner, hinner⟩ := haround.exists_scope?
        have hstep := Name.encloses_of_scope? hinner
        by_cases hdeclared : Declares records inner
        · rcases (Name.encloses_iff_of_scope? hinner).1 haround with rfl | haround
          · exact .inl (.inl hdeclared)
          · refine (ih _ (hlength ▸ hstep.length_lt) (.inl hdeclared) haround rfl).imp_right ?_
            rintro ⟨space, hspace, hat, hscope⟩
            refine ⟨space, hspace, .inr ?_, hscope⟩
            exact hat.elim (fun heq => heq ▸ hstep) (·.trans hstep)
        · refine .inl (.inr ⟨name, ⟨⟨r, hr, hname, hkind⟩, ?_⟩, haround⟩)
          rintro other hother
          obtain rfl : inner = other := Option.some.inj (hinner.symm.trans hother)
          exact hdeclared
    · exact .inl (.inr ⟨outer, houter, haround.trans hencloses⟩)

/-- The compounds of records have the names of the records and those of the scopes around the
outermost types. Each scope around a compound has one exactly if this is so around each record of a
namespace. -/
theorem closed_buildAll_iff (h : (buildAll parser failOnMalformed records).2 = .ok compounds) :
    (∀ name, (∃ c ∈ compounds, c.fullName = name) ↔
      Declares records name ∨ Holds records name) ∧
    ((∀ c ∈ compounds, ∀ scope, scope ≠ "" → Name.Encloses scope c.fullName →
        ∃ d ∈ compounds, d.fullName = scope) ↔
      ∀ space, DeclaresNamespace records space → ∀ scope, scope ≠ "" →
        Name.Encloses scope space → Declares records scope ∨ Holds records scope) := by
  refine ⟨fun name => exists_mem_buildAll_iff h, ?_, ?_⟩
  · rintro hclosed space ⟨r, hr, hname, -⟩ scope hne haround
    obtain ⟨c, hc, rfl⟩ := (exists_mem_buildAll_iff h).2 (.inl ⟨r, hr, hname⟩)
    exact (exists_mem_buildAll_iff h).1 (hclosed c hc scope hne haround)
  · intro hspaces c hc scope hne haround
    rw [exists_mem_buildAll_iff h]
    rcases encloses_cases ((exists_mem_buildAll_iff h).1 ⟨c, hc, rfl⟩) haround with
      hname | ⟨space, hspace, -, hscope⟩
    · exact hname
    · exact hspaces space hspace scope hne hscope

/-- A class in a namespace of its own record, which lies in another namespace. -/
def spaceRecords : List ManagedRecord :=
  [{ name := some "C", scope := "A.B", kind := "class" },
   { name := some "B", scope := "A", kind := "namespace" }]

/-- Both compounds lie in a namespace that is not among them. -/
theorem closed_buildAll_iff_open :
    ∃ compounds, (buildAll .standard false spaceRecords).2 = .ok compounds ∧
      compounds.map (fun c => (c.fullName, c.kind)) =
        [("A.B.C", .classType), ("A.B", .namespace)] ∧
      ¬ ∀ c ∈ compounds, ∀ scope, scope ≠ "" → Name.Encloses scope c.fullName →
        ∃ d ∈ compounds, d.fullName = scope := by
  obtain ⟨compounds, hbuild, hall⟩ :
      ∃ compounds, (buildAll .standard false spaceRecords).2 = .ok compounds ∧
        compounds.map (fun c => (c.fullName, c.kind)) =
          [("A.B.C", .classType), ("A.B", .namespace)] := by
    refine ⟨_, rfl, ?_⟩
    decide +kernel
  obtain ⟨hnames, hclosed⟩ := closed_buildAll_iff hbuild
  refine ⟨compounds, hbuild, hall, fun hopen => ?_⟩
  have hspace : DeclaresNamespace spaceRecords "A.B" :=
    ⟨spaceRecords[1], by decide, by decide +kernel, by decide +kernel⟩
  obtain ⟨d, hd, hname⟩ := (hnames "A").2 (hclosed.1 hopen "A.B" hspace "A" (by decide) ⟨"B", rfl⟩)
  have hmem : ("A", d.kind) ∈ compounds.map fun c => (c.fullName, c.kind) :=
    List.mem_map.2 ⟨d, hd, by rw [hname]⟩
  rw [hall] at hmem
  simp at hmem

end ManagedRecord

end TypeAtlas
