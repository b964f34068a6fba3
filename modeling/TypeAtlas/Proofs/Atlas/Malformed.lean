import TypeAtlas.Proofs.Atlas.Build
import TypeAtlas.Proofs.Compound.Reading
import TypeAtlas.Proofs.Projection.Coverage

/-!
# Malformed records

A record that is refused leaves nothing behind but the report on it: no compound, no namespace and
no report on one of its parts. A run that goes on therefore makes the same of all records as of
those that are not refused, and a run that is to end at a refused record ends at the first one or
is the same run.

## Main definitions

* `Outcome`, `Outcome.malformation?` — what a record leads to, and why it is refused.
* `NativeRecord.outcome`, `ManagedRecord.outcome` — the outcome of a record on its own.
* `Atlas.assemble` — what becomes of the compounds of both sources.
* `Atlas.Isolates` — what malformed records do to a run.

The main statement is `Atlas.isolates_build`.
-/

namespace TypeAtlas

namespace Diagnostics

theorem ofKind_append (ds ds' : Diagnostics) (kind : DiagnosticKind) :
    ofKind (ds ++ ds') kind = ds.ofKind kind ++ ds'.ofKind kind :=
  List.filter_append ..

end Diagnostics

/-! ## Outcomes of records -/

/-- What a record leads to: its compounds and the reports on them, or the reason why there are
none. -/
abbrev Outcome := Except AtlasError (List Compound × Diagnostics)

namespace Outcome

/-- Why a record is malformed; none if it is not. -/
def malformation? : Outcome → Option AtlasError
  | .ok _ => none
  | .error e => if e.isDocumentLocal then some e else none

/-- What a run that goes on takes over from a record. -/
def harvest (document : String) : Outcome → List Compound × Diagnostics
  | .ok found => found
  | .error e => ([], [Atlas.reportMalformed document e])

/-- The outcome of the record `document`: an error says that it is malformed, and a report says that
a declaration in it is ambiguous. -/
structure OfRecord (document : String) (outcome : Outcome) : Prop where
  error : ∀ e, outcome = .error e → ∃ reason, e = .malformedInput document reason
  reports : ∀ found, outcome = .ok found → ∀ d ∈ found.2, d.kind = .parseAmbiguity

variable {document : String} {outcome : Outcome} {e : AtlasError}

theorem OfRecord.malformation?_error (h : OfRecord document (.error e)) :
    malformation? (.error e) = some e := by
  obtain ⟨reason, rfl⟩ := h.error e rfl
  rfl

theorem OfRecord.of_malformation? (h : OfRecord document outcome)
    (he : outcome.malformation? = some e) : ∃ reason, e = .malformedInput document reason := by
  cases outcome with
  | error e' =>
    obtain rfl : e' = e := Option.some.inj (h.malformation?_error.symm.trans he)
    exact h.error e' rfl
  | ok found => simp [malformation?] at he

/-- The reports that a run takes over, those on malformed records apart. -/
theorem OfRecord.filter_harvest (h : OfRecord document outcome) :
    (outcome.harvest document).2.filter (·.kind != .malformedInput) =
      if outcome.malformation?.isNone then (outcome.harvest document).2 else [] := by
  cases outcome with
  | error e => simp [h.malformation?_error, harvest, Atlas.reportMalformed]
  | ok found =>
    have hkeep : ∀ d ∈ found.2, (d.kind != .malformedInput) = true := by
      intro d hd
      rw [h.reports found rfl d hd]
      rfl
    simpa [malformation?, harvest] using hkeep

theorem OfRecord.ofKind_harvest (h : OfRecord document outcome) :
    Diagnostics.ofKind (outcome.harvest document).2 .malformedInput =
      outcome.malformation?.toList.map (Atlas.reportMalformed document) := by
  cases outcome with
  | error e => simp [h.malformation?_error, harvest, Diagnostics.ofKind, Atlas.reportMalformed]
  | ok found =>
    have hdrop : ∀ d ∈ found.2, ¬ d.kind = .malformedInput := by
      intro d hd
      rw [h.reports found rfl d hd]
      simp
    simpa [malformation?, harvest, Diagnostics.ofKind] using hdrop

/-- Nothing is taken over from a malformed record but the report on it. -/
theorem OfRecord.harvest_compounds (h : OfRecord document outcome) :
    (outcome.harvest document).1 =
      if outcome.malformation?.isNone then (outcome.harvest document).1 else [] := by
  cases outcome with
  | error e => simp [h.malformation?_error, harvest]
  | ok found => simp [malformation?]

/-! ## Outcomes of lists of records -/

section Records

variable {α : Type} {document : α → String} {outcome : α → Outcome}

/-- The records that are not malformed. -/
def accepted (outcome : α → Outcome) (records : List α) : List α :=
  records.filter fun r => (outcome r).malformation?.isNone

/-- The reports on the records that are malformed, in order. -/
def malformedReports (document : α → String) (outcome : α → Outcome) (records : List α) :
    Diagnostics :=
  records.flatMap fun r => (outcome r).malformation?.toList.map (Atlas.reportMalformed (document r))

/-- The compounds that a run takes over from records. -/
def compounds (document : α → String) (outcome : α → Outcome) (records : List α) : List Compound :=
  records.flatMap fun r => ((outcome r).harvest (document r)).1

/-- The reports that a run takes over from records. -/
def reports (document : α → String) (outcome : α → Outcome) (records : List α) : Diagnostics :=
  records.flatMap fun r => ((outcome r).harvest (document r)).2

theorem compounds_accepted (h : ∀ r, OfRecord (document r) (outcome r)) (records : List α) :
    compounds document outcome (accepted outcome records) = compounds document outcome records := by
  induction records with
  | nil => rfl
  | cons r records ih =>
    unfold compounds accepted at ih ⊢
    rw [List.flatMap_cons, (h r).harvest_compounds, List.filter_cons]
    split
    · rw [List.flatMap_cons, ih]
    · rw [ih, List.nil_append]

theorem filter_reports (h : ∀ r, OfRecord (document r) (outcome r)) (records : List α) :
    (reports document outcome records).filter (·.kind != .malformedInput) =
      reports document outcome (accepted outcome records) := by
  induction records with
  | nil => rfl
  | cons r records ih =>
    unfold reports accepted at ih ⊢
    rw [List.flatMap_cons, List.filter_append, (h r).filter_harvest, ih, List.filter_cons]
    split
    · rw [List.flatMap_cons]
    · rw [List.nil_append]

theorem ofKind_reports (h : ∀ r, OfRecord (document r) (outcome r)) (records : List α) :
    Diagnostics.ofKind (reports document outcome records) .malformedInput =
      malformedReports document outcome records := by
  induction records with
  | nil => rfl
  | cons r records ih =>
    unfold reports malformedReports at ih ⊢
    rw [List.flatMap_cons, Diagnostics.ofKind_append, (h r).ofKind_harvest, ih, List.flatMap_cons]

theorem malformedReports_accepted (records : List α) :
    malformedReports document outcome (accepted outcome records) = [] := by
  unfold malformedReports accepted
  rw [List.flatMap_eq_nil_iff]
  intro r hr
  have hnone : (outcome r).malformation? = none := by simpa using (List.mem_filter.1 hr).2
  simp [hnone]

end Records

end Outcome

/-! ## Reports on declarations -/

/-- All reports say that a declaration is ambiguous. -/
def Diagnostics.AllAmbiguous (ds : Diagnostics) : Prop :=
  ∀ d ∈ ds, d.kind = .parseAmbiguity

namespace Diagnostics

variable {ds ds' : Diagnostics}

theorem allAmbiguous_nil : AllAmbiguous [] := by
  simp [AllAmbiguous]

theorem AllAmbiguous.append (h : AllAmbiguous ds) (h' : AllAmbiguous ds') :
    AllAmbiguous (ds ++ ds') := by
  intro d hd
  exact (List.mem_append.1 hd).elim (h d) (h' d)

theorem allAmbiguous_flatMap {α : Type} {f : α → Diagnostics} (xs : List α)
    (h : ∀ x, AllAmbiguous (f x)) : AllAmbiguous (xs.flatMap f) := by
  intro d hd
  obtain ⟨x, -, hx⟩ := List.mem_flatMap.1 hd
  exact h x d hx

theorem allAmbiguous_parseReporting (parser : DeclarationParser) (raw : String) :
    AllAmbiguous (parser.parseReporting raw).2 := by
  intro d hd
  simp only [DeclarationParser.parseReporting, DeclarationParser.report] at hd
  split at hd
  · simp at hd
  · rw [List.mem_singleton.1 hd]

end Diagnostics

/-! ## Native records -/

open Diagnostics

namespace NativeMemberRecord

variable {parser : DeclarationParser} {r : NativeMemberRecord} {c : Compound}

theorem allAmbiguous_typeIn (kind : MemberKind) : AllAmbiguous (r.typeIn parser c kind).2 := by
  unfold typeIn
  split
  · exact allAmbiguous_nil
  · exact allAmbiguous_nil
  · exact allAmbiguous_nil
  · exact allAmbiguous_parseReporting _ _

theorem allAmbiguous_ownReports (parser : DeclarationParser) (c : Compound)
    (r : NativeMemberRecord) : AllAmbiguous (r.ownReports parser c) := by
  unfold ownReports
  cases r.ownKind? c with
  | none => exact allAmbiguous_nil
  | some kind =>
    exact (allAmbiguous_typeIn kind).append
      (allAmbiguous_flatMap _ fun p => allAmbiguous_parseReporting _ _)

end NativeMemberRecord

namespace NativeRecord

variable {parser : DeclarationParser}

/-- What a record leads to on its own. -/
def outcome (parser : DeclarationParser) (r : NativeRecord) : Outcome :=
  r.build parser

theorem rawName?_error {r : NativeRecord} {e : AtlasError} (h : r.rawName? = .error e) :
    ∃ reason, e = .malformedInput r.id reason := by
  unfold rawName? at h
  split at h
  · exact ⟨_, (Except.error.inj h).symm⟩
  · split at h
    · exact ⟨_, (Except.error.inj h).symm⟩
    · simp at h

theorem ofRecord_outcome (r : NativeRecord) : Outcome.OfRecord r.id (r.outcome parser) := by
  unfold outcome build
  cases foldNativeKind? r.kind with
  | none =>
    refine ⟨by simp, ?_⟩
    rintro found hfound
    obtain rfl := Except.ok.inj hfound
    exact allAmbiguous_nil
  | some kind =>
    dsimp only
    cases hname : r.rawName? with
    | error e =>
      refine ⟨?_, by simp [bind, Except.bind]⟩
      rintro e' he
      obtain rfl : e = e' := Except.error.inj he
      exact rawName?_error hname
    | ok rawName =>
      simp only [bind, Except.bind]
      split
      · refine ⟨?_, by simp [throw, throwThe, MonadExceptOf.throw]⟩
        rintro e' he
        exact ⟨_, (Except.error.inj he).symm⟩
      · refine ⟨by simp [pure, Except.pure], ?_⟩
        rintro found hfound
        obtain rfl := Except.ok.inj hfound
        rw [NativeDraft.foldl_read]
        exact allAmbiguous_flatMap r.members (NativeMemberRecord.allAmbiguous_ownReports parser _)

/-- A record leads to compounds or is malformed. -/
theorem outcome_cases (parser : DeclarationParser) (r : NativeRecord) :
    (∃ out, r.build parser = .ok out ∧ r.outcome parser = .ok out) ∨
      ∃ reason, r.build parser = .error (.malformedInput r.id reason) ∧
        r.outcome parser = .error (.malformedInput r.id reason) := by
  have hrecord : Outcome.OfRecord r.id (r.outcome parser) := r.ofRecord_outcome
  unfold outcome at hrecord ⊢
  cases hbuild : r.build parser with
  | ok out => exact .inl ⟨out, rfl, rfl⟩
  | error e =>
    obtain ⟨reason, rfl⟩ := hrecord.error e hbuild
    exact .inr ⟨reason, rfl, rfl⟩

end NativeRecord

/-! ## Managed records -/

namespace ManagedMemberRecord

variable {parser : DeclarationParser} {r : ManagedMemberRecord} {c : Compound} {m : Member}
  {reported : Diagnostics}

theorem allAmbiguous_typeIn (kind : MemberKind) :
    AllAmbiguous (r.typeIn parser c kind).2.2 := by
  unfold typeIn
  split
  · exact allAmbiguous_nil
  · exact allAmbiguous_parseReporting _ _

theorem allAmbiguous_buildIn? (h : r.buildIn? parser c = some (m, reported)) :
    AllAmbiguous reported := by
  obtain ⟨kind, -, heq⟩ := Option.map_eq_some_iff.1 h
  rw [← (Prod.mk.inj heq).2]
  refine (allAmbiguous_typeIn kind).append ?_
  rw [List.flatMap_map]
  exact allAmbiguous_flatMap _ fun p => allAmbiguous_parseReporting _ _

theorem allAmbiguous_addTo {found : Compound × Diagnostics} (h : AllAmbiguous found.2)
    (r : ManagedMemberRecord) : AllAmbiguous (r.addTo parser found).2 := by
  unfold addTo
  dsimp only
  split
  · exact h
  · split
    · exact h
    · next m reported hbuild => exact h.append (allAmbiguous_buildIn? hbuild)

theorem allAmbiguous_foldl_addTo {found : Compound × Diagnostics} (h : AllAmbiguous found.2)
    (records : List ManagedMemberRecord) :
    AllAmbiguous (records.foldl (addTo parser) found).2 := by
  induction records generalizing found with
  | nil => exact h
  | cons r records ih =>
    rw [List.foldl_cons]
    exact ih (allAmbiguous_addTo h r)

end ManagedMemberRecord

namespace ManagedRecord

variable {parser : DeclarationParser}

/-- What a record leads to on its own. -/
def outcome (parser : DeclarationParser) (r : ManagedRecord) : Outcome :=
  (r.build parser).map fun (c, reported) => ([c], reported)

theorem ofRecord_outcome (r : ManagedRecord) : Outcome.OfRecord r.id (r.outcome parser) := by
  unfold outcome build
  cases hname : r.rawName? with
  | error e =>
    refine ⟨?_, by simp [Except.map]⟩
    rintro e' he
    obtain rfl : e = e' := Except.error.inj he
    unfold rawName? at hname
    split at hname
    · exact ⟨_, (Except.error.inj hname).symm⟩
    · split at hname
      · exact ⟨_, (Except.error.inj hname).symm⟩
      · simp at hname
  | ok rawName =>
    refine ⟨by simp [Except.map], ?_⟩
    rintro found hfound
    obtain rfl := Except.ok.inj hfound
    exact ManagedMemberRecord.allAmbiguous_foldl_addTo allAmbiguous_nil r.members

/-- A record leads to one compound or is malformed. -/
theorem outcome_cases (parser : DeclarationParser) (r : ManagedRecord) :
    (∃ out, r.build parser = .ok out ∧ r.outcome parser = .ok ([out.1], out.2)) ∨
      ∃ reason, r.build parser = .error (.malformedInput r.id reason) ∧
        r.outcome parser = .error (.malformedInput r.id reason) := by
  have hrecord : Outcome.OfRecord r.id (r.outcome parser) := r.ofRecord_outcome
  unfold outcome at hrecord ⊢
  cases hbuild : r.build parser with
  | ok out => exact .inl ⟨out, rfl, rfl⟩
  | error e =>
    obtain ⟨reason, rfl⟩ := hrecord.error e (by rw [hbuild]; rfl)
    exact .inr ⟨reason, rfl, rfl⟩

end ManagedRecord

/-! ## Runs over records -/

namespace Outcome

/-- Why the first record that is malformed is so. -/
def firstMalformation? {α : Type} (outcome : α → Outcome) (records : List α) : Option AtlasError :=
  records.findSome? fun r => (outcome r).malformation?

end Outcome

namespace Atlas

open Outcome

variable {parser : DeclarationParser}

/-- The compounds and reports after one more native record, in a run that goes on. -/
def takeOver (parser : DeclarationParser) (found : CompoundCache × Diagnostics)
    (r : NativeRecord) : CompoundCache × Diagnostics :=
  (found.1.insertAll ((r.outcome parser).harvest r.id).1,
    found.2 ++ ((r.outcome parser).harvest r.id).2)

theorem addNative_false (found : CompoundCache × Diagnostics) (r : NativeRecord) :
    addNative parser false found r = .ok (takeOver parser found r) := by
  unfold addNative takeOver
  obtain ⟨out, hbuild, houtcome⟩ | ⟨reason, hbuild, houtcome⟩ := r.outcome_cases parser
  · rw [hbuild, houtcome]
    rfl
  · rw [hbuild, houtcome]
    rfl

theorem addNative_true (found : CompoundCache × Diagnostics) (r : NativeRecord) :
    addNative parser true found r =
      match (r.outcome parser).malformation? with
      | some e => .error e
      | none => .ok (takeOver parser found r) := by
  unfold addNative takeOver
  obtain ⟨out, hbuild, houtcome⟩ | ⟨reason, hbuild, houtcome⟩ := r.outcome_cases parser
  · rw [hbuild, houtcome]
    rfl
  · rw [hbuild, houtcome]
    rfl

theorem foldl_takeOver (found : CompoundCache × Diagnostics) (records : List NativeRecord) :
    records.foldl (takeOver parser) found =
      (found.1.insertAll (compounds (·.id) (·.outcome parser) records),
        found.2 ++ reports (·.id) (·.outcome parser) records) := by
  induction records generalizing found with
  | nil => simp [compounds, reports, CompoundCache.insertAll]
  | cons r records ih =>
    rw [List.foldl_cons, ih]
    simp [takeOver, compounds, reports, CompoundCache.insertAll]

theorem foldlM_addNative_false (found : CompoundCache × Diagnostics)
    (records : List NativeRecord) :
    records.foldlM (addNative parser false) found =
      .ok (records.foldl (takeOver parser) found) := by
  induction records generalizing found with
  | nil => rfl
  | cons r records ih =>
    rw [List.foldlM_cons, addNative_false, List.foldl_cons, ← ih]
    rfl

theorem foldlM_addNative_true (found : CompoundCache × Diagnostics)
    (records : List NativeRecord) :
    records.foldlM (addNative parser true) found =
      match firstMalformation? (·.outcome parser) records with
      | some e => .error e
      | none => .ok (records.foldl (takeOver parser) found) := by
  induction records generalizing found with
  | nil => rfl
  | cons r records ih =>
    rw [List.foldlM_cons, addNative_true, firstMalformation?, List.findSome?_cons,
      List.foldl_cons]
    cases (r.outcome parser).malformation? with
    | some e => rfl
    | none => exact ih _

theorem buildEach_false (records : List ManagedRecord) :
    ManagedRecord.buildEach parser false records =
      (reports (·.id) (·.outcome parser) records,
        .ok (compounds (·.id) (·.outcome parser) records)) := by
  induction records with
  | nil => rfl
  | cons r records ih =>
    rw [ManagedRecord.buildEach, ih]
    unfold compounds reports
    rw [List.flatMap_cons, List.flatMap_cons]
    dsimp only
    obtain ⟨out, hbuild, houtcome⟩ | ⟨reason, hbuild, houtcome⟩ := r.outcome_cases parser
    · rw [hbuild, houtcome]
      rfl
    · rw [hbuild, houtcome]
      rfl

theorem buildEach_true (parser : DeclarationParser) (records : List ManagedRecord) :
    match firstMalformation? (·.outcome parser) records with
    | some e => (ManagedRecord.buildEach parser true records).2 = .error e
    | none => ManagedRecord.buildEach parser true records =
        ManagedRecord.buildEach parser false records := by
  induction records with
  | nil => rfl
  | cons r records ih =>
    unfold firstMalformation? at ih ⊢
    rw [List.findSome?_cons, ManagedRecord.buildEach, ManagedRecord.buildEach]
    dsimp only at ih ⊢
    obtain ⟨out, hbuild, houtcome⟩ | ⟨reason, hbuild, houtcome⟩ := r.outcome_cases parser
    · have hnone : (r.outcome parser).malformation? = none := by rw [houtcome]; rfl
      rw [hbuild, hnone]
      dsimp only
      split at ih
      · next e he =>
        rw [he]
        dsimp only
        rw [ih]
        rfl
      · next he =>
        rw [he]
        dsimp only
        rw [ih]
    · rw [hbuild, houtcome]
      rfl

theorem nativeCompounds_false (records : List NativeRecord) :
    nativeCompounds parser false records =
      .ok ((({} : CompoundCache).insertAll
          (compounds (·.id) (·.outcome parser) records)).attachChildren.2,
        reports (·.id) (·.outcome parser) records) := by
  unfold nativeCompounds
  rw [foldlM_addNative_false, foldl_takeOver]
  rfl

theorem nativeCompounds_true (records : List NativeRecord) :
    nativeCompounds parser true records =
      match firstMalformation? (·.outcome parser) records with
      | some e => .error e
      | none => nativeCompounds parser false records := by
  unfold nativeCompounds
  rw [foldlM_addNative_true, foldlM_addNative_false]
  cases firstMalformation? (·.outcome parser) records with
  | some e => rfl
  | none => rfl

theorem managedCompounds_eq (failOnMalformed : Bool) (records : List ManagedRecord) :
    managedCompounds parser failOnMalformed records =
      (ManagedRecord.buildEach parser failOnMalformed records).2.map fun types =>
        (({} : CompoundCache).insertAll (types ++ synthesizeNamespaces types),
          (ManagedRecord.buildEach parser failOnMalformed records).1) := by
  unfold managedCompounds ManagedRecord.buildAll
  obtain ⟨reported, built⟩ := ManagedRecord.buildEach parser failOnMalformed records
  cases built with
  | error e => rfl
  | ok types => rfl

theorem managedCompounds_false (records : List ManagedRecord) :
    let types := compounds (·.id) (·.outcome parser) records
    managedCompounds parser false records =
      .ok (({} : CompoundCache).insertAll (types ++ synthesizeNamespaces types),
        reports (·.id) (·.outcome parser) records) := by
  dsimp only
  rw [managedCompounds_eq, buildEach_false]
  rfl

theorem managedCompounds_true (records : List ManagedRecord) :
    managedCompounds parser true records =
      match firstMalformation? (·.outcome parser) records with
      | some e => .error e
      | none => managedCompounds parser false records := by
  have heach := buildEach_true parser records
  rw [managedCompounds_eq, managedCompounds_eq]
  cases hfirst : firstMalformation? (·.outcome parser) records with
  | some e =>
    simp only [hfirst] at heach
    rw [heach]
    rfl
  | none =>
    simp only [hfirst] at heach
    rw [heach]

/-! ## Runs over both sources -/

/-- What becomes of the compounds of both sources. -/
def assemble (settings : Settings) (parser : DeclarationParser)
    (native managed : CompoundCache × Diagnostics) : Except AtlasError Atlas := do
  if native.1.nodes.isEmpty && managed.1.nodes.isEmpty then
    throw .emptyUniverse
  let (nativeGraph, nativeFacades) := resolveUniverse .native settings.registry parser native.1
  let (managedGraph, managedFacades) := resolveUniverse .managed settings.registry parser managed.1
  let projection ←
    if settings.projection.isEnabled then
      (Merger.project settings.projection nativeGraph managedGraph).map some
    else
      pure none
  return {
    native := nativeGraph, managed := managedGraph, projection
    diagnostics := native.2 ++ managed.2 ++ nativeFacades ++ managedFacades }

theorem build_eq {settings : Settings} (h : settings.validate = .ok ())
    (native : List NativeRecord) (managed : List ManagedRecord) :
    build settings native managed = (do
      let parser := DeclarationParser.withExtras settings.parser.extraAnnotations
      let native ← nativeCompounds parser settings.failOnMalformed native
      let managed ← managedCompounds parser settings.failOnMalformed managed
      assemble settings parser native managed) := by
  unfold build
  rw [h]
  rfl

/-- Two resolved universes can be projected. -/
theorem project_ok (settings : ProjectionSettings) {native managed : TypeGraph}
    (hnative : native.Linked) (hmanaged : managed.Linked) :
    ∃ p, Merger.project settings native managed = .ok p := by
  obtain ⟨a, ha, -⟩ := hnative.global
  obtain ⟨b, hb, -⟩ := hmanaged.global
  unfold Merger.project Merger.mergeNamespaces
  rw [Merger.pair_of_get? ha hb]
  exact ⟨_, rfl⟩

theorem kind_of_mem_facades {origin : Universe} {settings : RegistrySettings}
    {cache : CompoundCache} {d : Diagnostic}
    (h : d ∈ (resolveUniverse origin settings parser cache).2) : d.kind = .unknownReference := by
  obtain ⟨n, -, rfl⟩ := List.mem_map.1 h
  rfl

/-- Compounds of one source are enough for an atlas. -/
theorem assemble_ok (settings : Settings) (parser : DeclarationParser)
    (native managed : CompoundCache)
    (h : (native.nodes.isEmpty && managed.nodes.isEmpty) = false) :
    ∃ projection, ∀ reports reports',
      assemble settings parser (native, reports) (managed, reports') = .ok {
        native := (resolveUniverse .native settings.registry parser native).1
        managed := (resolveUniverse .managed settings.registry parser managed).1
        projection
        diagnostics := reports ++ reports' ++
          ((resolveUniverse .native settings.registry parser native).2 ++
            (resolveUniverse .managed settings.registry parser managed).2) } := by
  obtain ⟨p, hp⟩ := project_ok settings.projection
    (linked_resolveUniverse .native settings.registry parser native)
    (linked_resolveUniverse .managed settings.registry parser managed)
  refine ⟨if settings.projection.isEnabled then some p else none, ?_⟩
  intro reports reports'
  unfold assemble
  rw [h, if_neg Bool.false_ne_true]
  dsimp only
  rw [hp, ← List.append_assoc]
  cases settings.projection.isEnabled with
  | true => rfl
  | false => rfl

/-- The reports on the records are part of the anomalies of a run and change nothing else. -/
theorem assemble_cases (settings : Settings) (parser : DeclarationParser)
    (native managed : CompoundCache) :
    (∀ reports reports', assemble settings parser (native, reports) (managed, reports') =
        .error .emptyUniverse) ∨
      ∃ nativeGraph managedGraph projection facades,
        (∀ d ∈ facades, d.kind = .unknownReference) ∧
        ∀ reports reports', assemble settings parser (native, reports) (managed, reports') =
          .ok ⟨nativeGraph, managedGraph, projection, reports ++ reports' ++ facades⟩ := by
  cases hempty : native.nodes.isEmpty && managed.nodes.isEmpty with
  | true =>
    left
    intro reports reports'
    unfold assemble
    rw [if_pos hempty]
    rfl
  | false =>
    right
    obtain ⟨projection, hok⟩ := assemble_ok settings parser native managed hempty
    refine ⟨_, _, projection, _, ?_, hok⟩
    intro d hd
    rcases List.mem_append.1 hd with hd | hd
    · exact kind_of_mem_facades hd
    · exact kind_of_mem_facades hd

/-! ## Runs with and without malformed records -/

end Atlas

/-- The settings of a run that goes on at a malformed record. -/
def Settings.tolerant (settings : Settings) : Settings :=
  { settings with failOnMalformed := false }

/-- The settings of a run that ends at a malformed record. -/
def Settings.strict (settings : Settings) : Settings :=
  { settings with failOnMalformed := true }

namespace Atlas

open Outcome

/-- A run over all records has the result of a run over some of them, but for the reports on the
other ones. -/
inductive SameBut (malformed : Diagnostics) : (full rest : Except AtlasError Atlas) → Prop
  | empty : SameBut malformed (.error .emptyUniverse) (.error .emptyUniverse)
  | atlas (a b : Atlas) (native : a.native = b.native) (managed : a.managed = b.managed)
      (projection : a.projection = b.projection)
      (reports : a.diagnostics.filter (·.kind != .malformedInput) = b.diagnostics)
      (malformed_full : a.diagnostics.ofKind .malformedInput = malformed)
      (malformed_rest : b.diagnostics.ofKind .malformedInput = []) :
      SameBut malformed (.ok a) (.ok b)

/-- What malformed records do to a run over `native` and `managed`. -/
structure Isolates (settings : Settings) (parser : DeclarationParser) (native : List NativeRecord)
    (managed : List ManagedRecord) : Prop where
  /-- A native record is refused under its own identifier. -/
  native_reason : ∀ r ∈ native, ∀ e, (r.outcome parser).malformation? = some e →
    ∃ reason, e = .malformedInput r.id reason
  /-- A managed record is refused under its own identifier. -/
  managed_reason : ∀ r ∈ managed, ∀ e, (r.outcome parser).malformation? = some e →
    ∃ reason, e = .malformedInput r.id reason
  /-- A run that goes on does the same as without them, and reports each of them. -/
  tolerant : SameBut
    (malformedReports (·.id) (·.outcome parser) native ++
      malformedReports (·.id) (·.outcome parser) managed)
    (build settings.tolerant native managed)
    (build settings.tolerant (accepted (·.outcome parser) native)
      (accepted (·.outcome parser) managed))
  /-- A run that does not go on ends at the first of them. -/
  strict : build settings.strict native managed =
    match (firstMalformation? (·.outcome parser) native).or
      (firstMalformation? (·.outcome parser) managed) with
    | some e => .error e
    | none => build settings.tolerant native managed

variable {settings : Settings} {parser : DeclarationParser}

theorem build_tolerant (h : settings.validate = .ok ()) (native : List NativeRecord)
    (managed : List ManagedRecord) :
    build settings.tolerant native managed = (do
      let parser := DeclarationParser.withExtras settings.parser.extraAnnotations
      let native ← nativeCompounds parser false native
      let managed ← managedCompounds parser false managed
      assemble settings parser native managed) :=
  @build_eq settings.tolerant h native managed

theorem build_strict (h : settings.validate = .ok ()) (native : List NativeRecord)
    (managed : List ManagedRecord) :
    build settings.strict native managed = (do
      let parser := DeclarationParser.withExtras settings.parser.extraAnnotations
      let native ← nativeCompounds parser true native
      let managed ← managedCompounds parser true managed
      assemble settings parser native managed) :=
  @build_eq settings.strict h native managed

/-- Reports on names without a definition are kept by a run over fewer records. -/
theorem filter_facades {facades : Diagnostics} (h : ∀ d ∈ facades, d.kind = .unknownReference) :
    facades.filter (·.kind != .malformedInput) = facades ∧
      Diagnostics.ofKind facades .malformedInput = [] := by
  constructor
  · rw [List.filter_eq_self]
    intro d hd
    rw [h d hd]
    rfl
  · rw [Diagnostics.ofKind, List.filter_eq_nil_iff]
    intro d hd
    rw [h d hd]
    decide

/-- A run that goes on does the same without the malformed records, but for the reports on them. -/
theorem sameBut_tolerant (h : settings.validate = .ok ())
    (hparser : DeclarationParser.withExtras settings.parser.extraAnnotations = parser)
    (native : List NativeRecord) (managed : List ManagedRecord) :
    SameBut
      (malformedReports (·.id) (·.outcome parser) native ++
        malformedReports (·.id) (·.outcome parser) managed)
      (build settings.tolerant native managed)
      (build settings.tolerant (accepted (·.outcome parser) native)
        (accepted (·.outcome parser) managed)) := by
  have hnative : ∀ r : NativeRecord, OfRecord r.id (r.outcome parser) :=
    fun r => r.ofRecord_outcome
  have hmanaged : ∀ r : ManagedRecord, OfRecord r.id (r.outcome parser) :=
    fun r => r.ofRecord_outcome
  rw [build_tolerant h, build_tolerant h, hparser]
  simp only [nativeCompounds_false, managedCompounds_false, bind, Except.bind]
  rw [compounds_accepted hnative, compounds_accepted hmanaged]
  obtain hempty | ⟨nativeGraph, managedGraph, projection, facades, hfacades, hok⟩ :=
    assemble_cases settings parser
      (({} : CompoundCache).insertAll
        (compounds (·.id) (·.outcome parser) native)).attachChildren.2
      (({} : CompoundCache).insertAll (compounds (·.id) (·.outcome parser) managed ++
        synthesizeNamespaces (compounds (·.id) (·.outcome parser) managed)))
  · rw [hempty, hempty]
    exact .empty
  · obtain ⟨hkeep, hnone⟩ := filter_facades hfacades
    rw [hok, hok]
    refine .atlas _ _ rfl rfl rfl ?_ ?_ ?_
    · rw [List.filter_append, List.filter_append, filter_reports hnative, filter_reports hmanaged,
        hkeep]
    · rw [Diagnostics.ofKind_append, Diagnostics.ofKind_append, ofKind_reports hnative,
        ofKind_reports hmanaged, hnone, List.append_nil]
    · rw [Diagnostics.ofKind_append, Diagnostics.ofKind_append, ofKind_reports hnative,
        ofKind_reports hmanaged, malformedReports_accepted, malformedReports_accepted, hnone]
      rfl

/-- A malformed record leaves nothing behind but the report on it, and ends a run that does not go
on. -/
theorem isolates_build (h : settings.validate = .ok ()) (native : List NativeRecord)
    (managed : List ManagedRecord) :
    Isolates settings (DeclarationParser.withExtras settings.parser.extraAnnotations)
      native managed where
  native_reason r _ _ he := r.ofRecord_outcome.of_malformation? he
  managed_reason r _ _ he := r.ofRecord_outcome.of_malformation? he
  tolerant := sameBut_tolerant h rfl native managed
  strict := by
    generalize hparser : DeclarationParser.withExtras settings.parser.extraAnnotations = parser
    rw [build_strict h, build_tolerant h, hparser]
    dsimp only
    rw [nativeCompounds_true, managedCompounds_true]
    cases firstMalformation? (·.outcome parser) native with
    | some e => rfl
    | none =>
      rw [nativeCompounds_false]
      cases firstMalformation? (·.outcome parser) managed with
      | some e => rfl
      | none => rfl

/-! ## A refused record of each source -/

/-- The second record has no name. -/
def namelessNative : List NativeRecord :=
  [{ id := "p", kind := "class", name := some "P" }, { id := "n", kind := "class" }]

/-- The first record has no name. -/
def namelessManaged : List ManagedRecord :=
  [{ scope := "M", kind := "class" }, { name := some "Q", kind := "class" }]

/-- Both records without a name are reported, and the first one ends a run that does not go on. -/
theorem isolates_build_nameless :
    plainSettings.validate = .ok () ∧
      Isolates plainSettings (DeclarationParser.withExtras plainSettings.parser.extraAnnotations)
        namelessNative namelessManaged ∧
      (malformedReports (·.id) (·.outcome .standard) namelessNative).map (·.subject) = ["n"] ∧
      (malformedReports (·.id) (·.outcome .standard) namelessManaged).map (·.subject) =
        ["T:M.?"] :=
  ⟨rfl, isolates_build rfl namelessNative namelessManaged, by decide +kernel, by decide +kernel⟩

end Atlas

end TypeAtlas
