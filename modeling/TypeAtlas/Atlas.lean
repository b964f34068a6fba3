import TypeAtlas.Compound.Cache
import TypeAtlas.Compound.Managed
import TypeAtlas.Compound.Native
import TypeAtlas.Projection.Merger
import TypeAtlas.Registry.Resolve

/-!
# Atlases

An atlas is what a run makes of the records of both sources: the two resolved universes, their
projection, and the anomalies met on the way.

## Main definitions

* `Atlas` — the result of a run.
* `Atlas.build` — a run.
* `Atlas.ask` — a question to a node, recorded if it cannot be answered.
* `Atlas.summary` — the numbers of a run.
-/

namespace TypeAtlas

/-- The result of a run. -/
structure Atlas where
  native : TypeGraph
  managed : TypeGraph
  /-- The projection, unless the settings do without it. -/
  projection : Option Projection
  diagnostics : Diagnostics

namespace Atlas

/-! ## Building -/

/-- The report on a document that is left out. -/
def reportMalformed (document : String) (e : AtlasError) : Diagnostic where
  kind := .malformedInput
  subject := document
  message := e.message

/-- The compounds and reports after one more native record. A record that is refused is reported and
left out, or ends the run if `failOnMalformed` says so. -/
def addNative (parser : DeclarationParser) (failOnMalformed : Bool)
    (found : CompoundCache × Diagnostics) (r : NativeRecord) :
    Except AtlasError (CompoundCache × Diagnostics) :=
  match r.build parser with
  | .ok (compounds, reported) => .ok (found.1.insertAll compounds, found.2 ++ reported)
  | .error e =>
    if failOnMalformed || !e.isDocumentLocal then .error e
    else .ok (found.1, found.2 ++ [reportMalformed r.id e])

/-- The compounds of the native records, with parents and children in agreement, and the reports on
the records. -/
def nativeCompounds (parser : DeclarationParser) (failOnMalformed : Bool)
    (records : List NativeRecord) : Except AtlasError (CompoundCache × Diagnostics) := do
  let (cache, diagnostics) ← records.foldlM (addNative parser failOnMalformed) ({}, [])
  return (cache.attachChildren.2, diagnostics)

/-- The compounds of the managed records, and the reports on the records. -/
def managedCompounds (parser : DeclarationParser) (failOnMalformed : Bool)
    (records : List ManagedRecord) : Except AtlasError (CompoundCache × Diagnostics) := do
  let (diagnostics, outcome) := ManagedRecord.buildAll parser failOnMalformed records
  return (({} : CompoundCache).insertAll (← outcome), diagnostics)

/-- The graph of the universe of some compounds, and the report on its names without a
definition. -/
def resolveUniverse (origin : Universe) (settings : RegistrySettings) (parser : DeclarationParser)
    (cache : CompoundCache) : TypeGraph × Diagnostics :=
  ((Registry.empty origin settings parser).defineAll cache.nodes).resolve

/-- A run over the records of both sources. -/
def build (settings : Settings) (nativeRecords : List NativeRecord)
    (managedRecords : List ManagedRecord) : Except AtlasError Atlas := do
  settings.validate.mapError .settings
  let parser := DeclarationParser.withExtras settings.parser.extraAnnotations
  let (nativeCache, nativeReports) ←
    nativeCompounds parser settings.failOnMalformed nativeRecords
  let (managedCache, managedReports) ←
    managedCompounds parser settings.failOnMalformed managedRecords
  if nativeCache.nodes.isEmpty && managedCache.nodes.isEmpty then
    throw .emptyUniverse
  let (native, nativeFacades) := resolveUniverse .native settings.registry parser nativeCache
  let (managed, managedFacades) := resolveUniverse .managed settings.registry parser managedCache
  let projection ←
    if settings.projection.isEnabled then
      (Merger.project settings.projection native managed).map some
    else
      pure none
  return {
    native, managed, projection
    diagnostics := nativeReports ++ managedReports ++ nativeFacades ++ managedFacades }

/-! ## Questions -/

/-- The graph of a universe; the projected one has none of its own. -/
def universe? (a : Atlas) : Universe → Option TypeGraph
  | .native => some a.native
  | .managed => some a.managed
  | .projected => none

/-- The report on a question to the projected universe. -/
def reportProjected (id : TypeId) (query : String) : Diagnostic where
  kind := .invalidAccess
  subject := id.display
  message := "'" ++ query ++ "' has no canonical node in the projected universe"

/-- The report on a question that a node of a universe cannot answer. -/
def reportUnanswered (g : TypeGraph) (id : TypeId) (e : AtlasError) : Diagnostic where
  kind := .invalidAccess
  subject := ((g.get? id).map (·.fullName)).getD id.display
  message := e.message

/-- The answer of a node to a question. One that cannot be answered is added to the anomalies. -/
def ask {α : Type} (a : Atlas) (origin : Universe) (id : TypeId) (query : String)
    (answer? : TypeNode → Option α) : Option α × Atlas :=
  match a.universe? origin with
  | none => (none, { a with diagnostics := a.diagnostics ++ [reportProjected id query] })
  | some g =>
    match g.require id query answer? with
    | .ok answer => (some answer, a)
    | .error e => (none, { a with diagnostics := a.diagnostics ++ [reportUnanswered g id e] })

/-! ## Numbers -/

/-- The numbers of a run. -/
structure Summary where
  native : TypeGraph.Stats
  managed : TypeGraph.Stats
  projectedTotal : Nat
  projectedPaired : Nat
  projectedNativeOnly : Nat
  projectedManagedOnly : Nat
  parseAmbiguities : Nat
  unknownReferences : Nat
  malformedInputs : Nat
  invalidAccesses : Nat
  deriving DecidableEq, Repr

/-- The numbers of a run. -/
def summary (a : Atlas) : Summary :=
  let projection := a.projection.getD {}
  { native := a.native.stats
    managed := a.managed.stats
    projectedTotal := projection.size
    projectedPaired := projection.pairedCount
    projectedNativeOnly := projection.nativeOnlyCount
    projectedManagedOnly := projection.managedOnlyCount
    parseAmbiguities := a.diagnostics.countKind .parseAmbiguity
    unknownReferences := a.diagnostics.countKind .unknownReference
    malformedInputs := a.diagnostics.countKind .malformedInput
    invalidAccesses := a.diagnostics.countKind .invalidAccess }

end Atlas

end TypeAtlas
