import TypeAtlas.Proofs.Atlas.Malformed
import TypeAtlas.Proofs.Registry.Consistency

/-!
# The anomalies of a run

The anomalies of a run account for everything that it passed over: each name without a definition is
reported once, in the order of the nodes that stand for them, and so is each record that is left
out. Questions come later. One that is not answered adds one entry behind all others, one that is
answered adds none, and neither changes the graphs.

## Main definitions

* `Question`, `Atlas.askAll` — a question to a node, and a sequence of them.
* `Atlas.Logged` — what a question adds to the anomalies.
* `TypeGraph.OrdersFacades` — the facades of a graph are listed by position.
* `Atlas.Accounts` — what the anomalies of a run account for.

The main statement is `Atlas.accounts_of_build`.
-/

namespace TypeAtlas

/-- A question to a node of a universe, with the type of its answers. -/
structure Question where
  Answer : Type
  origin : Universe
  id : TypeId
  query : String
  answer? : TypeNode → Option Answer

/-- The facades of a graph are the nodes that stand in for names without a definition, each once and
by position. -/
structure TypeGraph.OrdersFacades (g : TypeGraph) : Prop where
  mem_iff : ∀ n, n ∈ g.facades ↔ n.isFacade = true ∧ g.get? n.id = some n
  sorted : g.facades.Pairwise fun m n => m.id.index < n.id.index

namespace Atlas

/-! ## Questions -/

/-- Whether a question is answered, and the atlas after it. -/
def put (a : Atlas) (q : Question) : Bool × Atlas :=
  let asked := a.ask q.origin q.id q.query q.answer?
  (asked.1.isSome, asked.2)

/-- Which of several questions are answered, and the atlas after them. -/
def askAll (a : Atlas) : List Question → List Bool × Atlas
  | [] => ([], a)
  | q :: qs =>
    let asked := a.put q
    let later := asked.2.askAll qs
    (asked.1 :: later.1, later.2)

/-- What a question adds to the anomalies: nothing if it is answered, else one entry. -/
inductive Logged : (answered : Bool) → (entries : Diagnostics) → Prop
  | answered : Logged true []
  | unanswered (d : Diagnostic) (kind : d.kind = .invalidAccess) : Logged false [d]

/-- One question adds its entries behind all others and changes nothing else. -/
theorem logged_put (a : Atlas) (q : Question) : ∃ entries, Logged (a.put q).1 entries ∧
    (a.put q).2 = { a with diagnostics := a.diagnostics ++ entries } := by
  unfold put ask
  cases a.universe? q.origin with
  | none => exact ⟨_, .unanswered (reportProjected q.id q.query) rfl, rfl⟩
  | some g =>
    dsimp only
    cases g.require q.id q.query q.answer? with
    | ok answer => exact ⟨_, .answered, by simp⟩
    | error e => exact ⟨_, .unanswered (reportUnanswered g q.id e) rfl, rfl⟩

/-- Several questions add their entries in order. -/
theorem logged_askAll (a : Atlas) (qs : List Question) :
    ∃ entries, List.Forall₂ Logged (a.askAll qs).1 entries ∧
      (a.askAll qs).2 = { a with diagnostics := a.diagnostics ++ entries.flatten } := by
  induction qs generalizing a with
  | nil => exact ⟨[], .nil, by simp [askAll]⟩
  | cons q qs ih =>
    obtain ⟨first, hfirst, hput⟩ := a.logged_put q
    obtain ⟨later, hlater, hrun⟩ := ih (a.put q).2
    refine ⟨first :: later, .cons hfirst hlater, ?_⟩
    simp only [askAll]
    rw [hrun, hput]
    simp

/-! ## Reports on records -/

section Records

open Outcome

variable {α : Type} {document : α → String} {outcome : α → Outcome} {parser : DeclarationParser}

/-- The reports on records are on malformed records and on ambiguous declarations. -/
theorem kind_of_mem_reports (h : ∀ r, OfRecord (document r) (outcome r)) {records : List α}
    {d : Diagnostic} (hd : d ∈ reports document outcome records) :
    d.kind = .malformedInput ∨ d.kind = .parseAmbiguity := by
  obtain ⟨r, -, hr⟩ := List.mem_flatMap.1 hd
  cases hout : outcome r with
  | error e =>
    left
    rw [hout] at hr
    rw [List.mem_singleton.1 hr]
    rfl
  | ok found =>
    right
    rw [hout] at hr
    exact (h r).reports found hout d hr

theorem ofKind_reports_of_ne (h : ∀ r, OfRecord (document r) (outcome r)) (records : List α)
    {kind : DiagnosticKind} (hmalformed : kind ≠ .malformedInput)
    (hambiguous : kind ≠ .parseAmbiguity) :
    Diagnostics.ofKind (reports document outcome records) kind = [] := by
  rw [Diagnostics.ofKind, List.filter_eq_nil_iff]
  intro d hd hkind
  rw [beq_iff_eq] at hkind
  rcases kind_of_mem_reports h hd with hd | hd
  · exact hmalformed (hkind.symm.trans hd)
  · exact hambiguous (hkind.symm.trans hd)

theorem length_malformedReports (records : List α) :
    (malformedReports document outcome records).length =
      records.countP fun r => (outcome r).malformation?.isSome := by
  induction records with
  | nil => rfl
  | cons r records ih =>
    unfold malformedReports at ih ⊢
    rw [List.flatMap_cons, List.length_append, ih, List.countP_cons]
    cases (outcome r).malformation? <;> simp [Nat.add_comm]

/-- A native record is malformed iff building it fails. -/
theorem malformation?_native (r : NativeRecord) :
    (r.outcome parser).malformation?.isSome = !(r.build parser).isOk := by
  rcases r.outcome_cases parser with ⟨out, hbuild, houtcome⟩ | ⟨reason, hbuild, houtcome⟩
  · rw [hbuild, houtcome]
    rfl
  · rw [hbuild, houtcome]
    rfl

/-- A managed record is malformed iff building it fails. -/
theorem malformation?_managed (r : ManagedRecord) :
    (r.outcome parser).malformation?.isSome = !(r.build parser).isOk := by
  rcases r.outcome_cases parser with ⟨out, hbuild, houtcome⟩ | ⟨reason, hbuild, houtcome⟩
  · rw [hbuild, houtcome]
    rfl
  · rw [hbuild, houtcome]
    rfl

/-- A run that is to end at a malformed record and does not end is one that is not to. -/
theorem ok_false_of_ok {β : Type} (run : Bool → Except AtlasError β) {first : Option AtlasError}
    (htrue : run true = match first with
      | some e => .error e
      | none => run false)
    {failOnMalformed : Bool} {found : β} (h : run failOnMalformed = .ok found) :
    run false = .ok found := by
  cases failOnMalformed with
  | false => exact h
  | true =>
    rw [htrue] at h
    split at h
    · simp at h
    · exact h

/-- Where the records of a source can be read, the reports are those on all of them. -/
theorem reports_of_nativeCompounds {failOnMalformed : Bool} {records : List NativeRecord}
    {found : CompoundCache × Diagnostics}
    (h : nativeCompounds parser failOnMalformed records = .ok found) :
    found.2 = reports (·.id) (·.outcome parser) records := by
  have hfound := ok_false_of_ok (nativeCompounds parser · records) (nativeCompounds_true records) h
  rw [nativeCompounds_false] at hfound
  obtain rfl := Except.ok.inj hfound
  rfl

theorem reports_of_managedCompounds {failOnMalformed : Bool} {records : List ManagedRecord}
    {found : CompoundCache × Diagnostics}
    (h : managedCompounds parser failOnMalformed records = .ok found) :
    found.2 = reports (·.id) (·.outcome parser) records := by
  have hfound := ok_false_of_ok (managedCompounds parser · records)
    (managedCompounds_true records) h
  rw [managedCompounds_false] at hfound
  obtain rfl := Except.ok.inj hfound
  rfl

end Records

/-! ## Reports on facades -/

variable {settings : Settings} {nativeRecords : List NativeRecord}
  {managedRecords : List ManagedRecord} {a : Atlas}

theorem origin_defineAll (r : Registry) (cs : List Compound) :
    (r.defineAll cs).origin = r.origin := by
  induction cs generalizing r with
  | nil => rfl
  | cons c cs ih =>
    have hstep : r.defineAll (c :: cs) = (r.define c).2.defineAll cs := by
      rw [Registry.defineAll, List.foldl_cons, Registry.defineAll]
    rw [hstep, ih]
    exact (Registry.change_define r c).origin_eq

/-- The reports of a registry are those on the facades of its graph. -/
theorem reports_resolve (r : Registry) :
    r.resolve.2 = r.resolve.1.facades.map (Registry.reportFacade r.origin) := by
  have hreports : r.resolve.2 =
      r.resolve.1.facades.map (Registry.reportFacade r.settle.origin) := rfl
  rw [hreports, (Registry.grows_settle r).origin_eq]

theorem reports_resolveUniverse (origin : Universe) (settings : RegistrySettings)
    (parser : DeclarationParser) (cache : CompoundCache) :
    (resolveUniverse origin settings parser cache).2 =
      (resolveUniverse origin settings parser cache).1.facades.map
        (Registry.reportFacade origin) := by
  have horigin : ((Registry.empty origin settings parser).defineAll cache.nodes).origin = origin :=
    origin_defineAll _ _
  rw [resolveUniverse, reports_resolve, horigin]

theorem ofKind_reportFacade (facades : List TypeNode) (origin : Universe) (kind : DiagnosticKind) :
    Diagnostics.ofKind (facades.map (Registry.reportFacade origin)) kind =
      if kind = .unknownReference then facades.map (Registry.reportFacade origin) else [] := by
  unfold Diagnostics.ofKind
  split
  · next h =>
    rw [List.filter_eq_self]
    intro d hd
    obtain ⟨n, -, rfl⟩ := List.mem_map.1 hd
    simp [h, Registry.reportFacade]
  · next h =>
    rw [List.filter_eq_nil_iff]
    intro d hd
    obtain ⟨n, -, rfl⟩ := List.mem_map.1 hd
    simpa [Registry.reportFacade] using Ne.symm h

theorem facades_stats (g : TypeGraph) : g.stats.facades = g.facades.length := by
  simp [TypeGraph.stats, TypeGraph.countKind, TypeGraph.facades, List.countP_eq_length_filter,
    TypeNode.isFacade]

/-- Where each node knows its position, the facades are listed by position. -/
theorem orders_facades {g : TypeGraph} (hid : ∀ i n, g.get? i = some n → n.id = i) :
    g.OrdersFacades where
  mem_iff := by
    intro n
    rw [TypeGraph.facades, List.mem_filter, and_comm, and_congr_right_iff]
    intro _
    constructor
    · intro hmem
      obtain ⟨i, hi⟩ := List.mem_iff_getElem?.1 hmem
      have hn : g.get? ⟨i⟩ = some n := by simpa [TypeGraph.get?] using hi
      rwa [hid _ n hn]
    · intro hn
      rw [List.mem_iff_getElem?]
      exact ⟨n.id.index, by simpa [TypeGraph.get?] using hn⟩
  sorted := by
    refine List.Pairwise.filter _ (List.pairwise_iff_getElem.2 ?_)
    intro i j hi hj hlt
    have hindex : ∀ k (hk : k < g.nodes.toList.length), (g.nodes.toList[k]).id.index = k := by
      intro k hk
      rw [hid ⟨k⟩ g.nodes.toList[k] (by simp [TypeGraph.get?] at hk ⊢)]
    rw [hindex i hi, hindex j hj]
    exact hlt

/-! ## Runs -/

/-- What the anomalies of a run over `native` and `managed` account for. -/
structure Accounts (settings : Settings) (native : List NativeRecord)
    (managed : List ManagedRecord) (a : Atlas) : Prop where
  native_facades : a.native.OrdersFacades
  managed_facades : a.managed.OrdersFacades
  /-- Each facade is reported once, the native ones first. -/
  unknownReferences : a.diagnostics.ofKind .unknownReference =
    a.native.facades.map (Registry.reportFacade .native) ++
      a.managed.facades.map (Registry.reportFacade .managed)
  subjects : (a.diagnostics.ofKind .unknownReference).map (·.subject) =
    (a.native.facades ++ a.managed.facades).map (·.fullName)
  unknownReferences_summary :
    a.summary.unknownReferences = a.summary.native.facades + a.summary.managed.facades
  /-- No question has been asked yet. -/
  invalidAccesses : a.diagnostics.ofKind .invalidAccess = []
  /-- Each record that cannot be built is counted. -/
  malformedInputs :
    let parser := DeclarationParser.withExtras settings.parser.extraAnnotations
    a.summary.malformedInputs =
      native.countP (fun r => !(r.build parser).isOk) +
        managed.countP (fun r => !(r.build parser).isOk)
  /-- Whatever is asked later, each question that is not answered adds one entry behind all others,
  and nothing else changes. -/
  questions : ∀ qs, ∃ entries, List.Forall₂ Logged (a.askAll qs).1 entries ∧
    (a.askAll qs).2 = { a with diagnostics := a.diagnostics ++ entries.flatten }

/-- What the anomalies of a run that succeeds consist of. -/
theorem diagnostics_of_build (h : build settings nativeRecords managedRecords = .ok a) :
    let parser := DeclarationParser.withExtras settings.parser.extraAnnotations
    a.diagnostics = Outcome.reports (·.id) (·.outcome parser) nativeRecords ++
      Outcome.reports (·.id) (·.outcome parser) managedRecords ++
      (a.native.facades.map (Registry.reportFacade .native) ++
        a.managed.facades.map (Registry.reportFacade .managed)) := by
  intro parser
  cases hvalid : settings.validate with
  | error e => simp [build, hvalid, Except.mapError, bind, Except.bind] at h
  | ok valid =>
  rw [build_eq hvalid] at h
  cases hnative : nativeCompounds parser settings.failOnMalformed nativeRecords with
  | error e => simp [parser, hnative, bind, Except.bind] at h
  | ok native =>
  cases hmanaged : managedCompounds parser settings.failOnMalformed managedRecords with
  | error e => simp [parser, hnative, hmanaged, bind, Except.bind] at h
  | ok managed =>
  have hassemble : assemble settings parser native managed = .ok a := by
    simpa [parser, hnative, hmanaged, bind, Except.bind] using h
  cases hempty : native.1.nodes.isEmpty && managed.1.nodes.isEmpty with
  | true =>
    unfold assemble at hassemble
    rw [if_pos hempty] at hassemble
    simp [throw, throwThe, MonadExceptOf.throw, bind, Except.bind] at hassemble
  | false =>
    obtain ⟨projection, hok⟩ := assemble_ok settings parser native.1 managed.1 hempty
    obtain rfl := Except.ok.inj (hassemble.symm.trans (hok native.2 managed.2))
    rw [reports_of_nativeCompounds hnative, reports_of_managedCompounds hmanaged,
      reports_resolveUniverse, reports_resolveUniverse]

/-- The anomalies of a run that succeeds account for all names without a definition and for all
records that are left out, and those after it for all questions that are not answered. -/
theorem accounts_of_build (h : build settings nativeRecords managedRecords = .ok a) :
    a.Accounts settings nativeRecords managedRecords := by
  obtain ⟨nativeRegistry, managedRegistry, hnative, hmanaged, hnativeGraph, hmanagedGraph⟩ :=
    build_registries h
  have hdiagnostics := diagnostics_of_build h
  have hofNative : ∀ parser (r : NativeRecord), Outcome.OfRecord r.id (r.outcome parser) :=
    fun _ r => r.ofRecord_outcome
  have hofManaged : ∀ parser (r : ManagedRecord), Outcome.OfRecord r.id (r.outcome parser) :=
    fun _ r => r.ofRecord_outcome
  have hunknown : a.diagnostics.ofKind .unknownReference =
      a.native.facades.map (Registry.reportFacade .native) ++
        a.managed.facades.map (Registry.reportFacade .managed) := by
    rw [hdiagnostics]
    simp only [Diagnostics.ofKind_append, ofKind_reportFacade, if_pos]
    rw [ofKind_reports_of_ne (hofNative _) _ (by decide) (by decide),
      ofKind_reports_of_ne (hofManaged _) _ (by decide) (by decide)]
    rfl
  refine ⟨?_, ?_, hunknown, ?_, ?_, ?_, ?_, a.logged_askAll⟩
  · rw [hnativeGraph]
    exact orders_facades (interned_registryOfNative hnative).consistent.id
  · rw [hmanagedGraph]
    exact orders_facades (interned_registryOfManaged hmanaged).consistent.id
  · rw [hunknown]
    simp [Registry.reportFacade, Function.comp_def]
  · simp [summary, Diagnostics.countKind, hunknown, facades_stats]
  · rw [hdiagnostics]
    simp only [Diagnostics.ofKind_append, ofKind_reportFacade]
    rw [ofKind_reports_of_ne (hofNative _) _ (by decide) (by decide),
      ofKind_reports_of_ne (hofManaged _) _ (by decide) (by decide)]
    rfl
  · intro parser
    have hmalformed : a.diagnostics.ofKind .malformedInput =
        Outcome.malformedReports (·.id) (·.outcome parser) nativeRecords ++
          Outcome.malformedReports (·.id) (·.outcome parser) managedRecords := by
      rw [hdiagnostics]
      simp only [Diagnostics.ofKind_append, ofKind_reportFacade]
      rw [Outcome.ofKind_reports (hofNative _), Outcome.ofKind_reports (hofManaged _)]
      simp [parser]
    show (a.diagnostics.ofKind .malformedInput).length = _
    rw [hmalformed, List.length_append, length_malformedReports, length_malformedReports]
    simp only [malformation?_native, malformation?_managed]

/-! ## A facade, a record that is left out and a question -/

/-- The base of the first class is not defined, and the second class has no name. -/
def brokenRecords : List NativeRecord :=
  [{ id := "p", kind := "class", name := some "P", baseNames := ["Q"] },
    { id := "n", kind := "class" }]

/-- Whether the facade of the base is a class. -/
def baseIsClass : Question where
  Answer := Bool
  origin := .native
  id := ⟨2⟩
  query := "is_class"
  answer? := (·.isKind? .classType)

/-- The facade and the record are counted, and asking the facade whether it is a class adds one
entry. -/
theorem accounts_of_build_broken : ∃ a, build plainSettings brokenRecords [] = .ok a ∧
    a.Accounts plainSettings brokenRecords [] ∧ a.summary.unknownReferences = 1 ∧
      a.summary.malformedInputs = 1 ∧
      (a.askAll [baseIsClass]).1 = [false] := by
  have hrun : (build plainSettings brokenRecords []).toOption.map (fun a =>
      (a.summary.unknownReferences, a.summary.malformedInputs,
        (a.ask .native ⟨2⟩ "is_class" (·.isKind? .classType)).1)) = some (1, 1, none) := by
    decide +kernel
  cases hbuild : build plainSettings brokenRecords [] with
  | error e => simp [hbuild, Except.toOption] at hrun
  | ok a =>
    simp only [hbuild, Except.toOption, Option.map_some, Option.some.injEq, Prod.mk.injEq] at hrun
    obtain ⟨hunknown, hmalformed, hask⟩ := hrun
    refine ⟨a, rfl, accounts_of_build hbuild, hunknown, hmalformed, ?_⟩
    simp [askAll, put, baseIsClass, hask]

end Atlas

end TypeAtlas
