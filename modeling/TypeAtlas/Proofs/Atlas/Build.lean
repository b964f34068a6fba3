import TypeAtlas.Atlas
import TypeAtlas.Proofs.Graph.Rooted
import TypeAtlas.Proofs.Registry.Listing

/-!
# Runs

What is known of the graphs of a universe holds for both graphs of a run that succeeds, whatever its
records are.

## Main definitions

* `Atlas.registryOfNative?`, `Atlas.registryOfManaged?` — the definitions of each source.

The main statements are `Atlas.rootedBy_of_build` and `Atlas.listing_of_build`.
-/

namespace TypeAtlas

namespace Atlas

variable {settings : Settings} {nativeRecords : List NativeRecord}
  {managedRecords : List ManagedRecord} {a : Atlas} {g : TypeGraph} {id : TypeId} {n : TypeNode}

/-- The definitions of the native records. -/
def registryOfNative? (settings : Settings) (records : List NativeRecord) : Option Registry :=
  let parser := DeclarationParser.withExtras settings.parser.extraAnnotations
  (nativeCompounds parser settings.failOnMalformed records).toOption.map fun found =>
    (Registry.empty .native settings.registry parser).defineAll found.1.nodes

/-- The definitions of the managed records. -/
def registryOfManaged? (settings : Settings) (records : List ManagedRecord) : Option Registry :=
  let parser := DeclarationParser.withExtras settings.parser.extraAnnotations
  (managedCompounds parser settings.failOnMalformed records).toOption.map fun found =>
    (Registry.empty .managed settings.registry parser).defineAll found.1.nodes

/-- The graphs of a run that succeeds are those of the definitions of each source. -/
theorem build_registries (h : build settings nativeRecords managedRecords = .ok a) :
    ∃ native managed, registryOfNative? settings nativeRecords = some native ∧
      registryOfManaged? settings managedRecords = some managed ∧
      a.native = native.resolve.1 ∧ a.managed = managed.resolve.1 := by
  unfold build at h
  unfold registryOfNative? registryOfManaged?
  dsimp only
  cases hvalid : settings.validate.mapError AtlasError.settings with
  | error e => simp [hvalid, bind, Except.bind] at h
  | ok valid =>
  generalize DeclarationParser.withExtras settings.parser.extraAnnotations = parser at h ⊢
  cases hnative : nativeCompounds parser settings.failOnMalformed nativeRecords with
  | error e => simp [hvalid, hnative, bind, Except.bind] at h
  | ok native =>
  cases hmanaged : managedCompounds parser settings.failOnMalformed managedRecords with
  | error e => simp [hvalid, hnative, hmanaged, bind, Except.bind] at h
  | ok managed =>
  refine ⟨_, _, rfl, rfl, ?_⟩
  simp only [hvalid, hnative, hmanaged, bind, Except.bind, throw, throwThe, MonadExceptOf.throw,
    pure, Except.pure] at h
  split at h
  · simp at h
  · split at h
    · split at h
      · simp at h
      · obtain rfl := Except.ok.inj h
        exact ⟨rfl, rfl⟩
    · obtain rfl := Except.ok.inj h
      exact ⟨rfl, rfl⟩

/-- What a run that succeeds is made of. -/
theorem build_ok (h : build settings nativeRecords managedRecords = .ok a) :
    ∃ parser nativeCache managedCache,
      a.native = (resolveUniverse .native settings.registry parser nativeCache).1 ∧
      a.managed = (resolveUniverse .managed settings.registry parser managedCache).1 := by
  obtain ⟨native, managed, hnative, hmanaged, heq, heq'⟩ := build_registries h
  obtain ⟨foundNative, -, rfl⟩ := Option.map_eq_some_iff.1 hnative
  obtain ⟨foundManaged, -, rfl⟩ := Option.map_eq_some_iff.1 hmanaged
  exact ⟨_, foundNative.1, foundManaged.1, heq, heq'⟩

theorem interned_defineAll (origin : Universe) (settings : RegistrySettings)
    (parser : DeclarationParser) (cs : List Compound) :
    ((Registry.empty origin settings parser).defineAll cs).Interned := by
  rw [Registry.defineAll_eq_internAll]
  exact (Registry.Interned.empty origin settings parser).internAll _

theorem interned_registryOfNative {r : Registry}
    (h : registryOfNative? settings nativeRecords = some r) : r.Interned := by
  obtain ⟨found, -, rfl⟩ := Option.map_eq_some_iff.1 h
  exact interned_defineAll _ _ _ _

theorem interned_registryOfManaged {r : Registry}
    (h : registryOfManaged? settings managedRecords = some r) : r.Interned := by
  obtain ⟨found, -, rfl⟩ := Option.map_eq_some_iff.1 h
  exact interned_defineAll _ _ _ _

theorem linked_resolveUniverse (origin : Universe) (settings : RegistrySettings)
    (parser : DeclarationParser) (cache : CompoundCache) :
    (resolveUniverse origin settings parser cache).1.Linked :=
  Registry.linked_resolve (interned_defineAll origin settings parser cache.nodes)

/-- In both graphs of a run, the conditions under which a definition is in the tree. -/
theorem rootedBy_of_build (h : build settings nativeRecords managedRecords = .ok a)
    (hg : g = a.native ∨ g = a.managed) (hn : g.get? id = some n) (hid : id ≠ .global)
    (hkind : n.isDefinition = true) : g.RootedBy id := by
  obtain ⟨parser, nativeCache, managedCache, hnative, hmanaged⟩ := build_ok h
  have hlinked : g.Linked := by
    rcases hg with rfl | rfl
    · exact hnative ▸ linked_resolveUniverse _ _ _ _
    · exact hmanaged ▸ linked_resolveUniverse _ _ _ _
  exact hlinked.rootedBy hn hid hkind

/-! ## A definition below a facade -/

/-- The scope of the second class is known from the first one alone. -/
def looseRecords : List NativeRecord :=
  [{ id := "p", kind := "class", name := some "P", baseNames := ["A.B"] },
    { id := "c", kind := "class", name := some "A::B::C" }]

/-- The standard settings without a projection. -/
def plainSettings : Settings :=
  { Settings.ofPreset .standard with projection := { isEnabled := false } }

/-- The class lies below a facade that nothing is known of, and its parents lead nowhere. -/
theorem rootedBy_of_build_loose : ∃ a n, build plainSettings looseRecords [] = .ok a ∧
    a.native.get? ⟨2⟩ = some n ∧ (⟨2⟩ : TypeId) ≠ .global ∧ n.isDefinition = true ∧
      a.native.RootedBy ⟨2⟩ ∧ ¬ a.native.LeadsHome ⟨2⟩ := by
  have hnode : (build plainSettings looseRecords []).toOption.map (fun a =>
      ((a.native.get? ⟨2⟩).map fun n => (n.isDefinition, n.parent),
        (a.native.get? ⟨3⟩).map fun n => (n.kind, n.parent))) =
      some (some (true, some ⟨3⟩), some (.facade, none)) := by decide +kernel
  cases hbuild : build plainSettings looseRecords [] with
  | error e => simp [hbuild, Except.toOption] at hnode
  | ok a =>
    simp only [hbuild, Except.toOption, Option.map_some, Option.some.injEq, Prod.mk.injEq,
      Option.map_eq_some_iff] at hnode
    obtain ⟨⟨n, hn, hkind, hparent⟩, scope, hscope, hfacade, hnone⟩ := hnode
    have hne : (⟨2⟩ : TypeId) ≠ .global := by decide
    have hrooted := rootedBy_of_build hbuild (.inl rfl) hn hne hkind
    refine ⟨a, n, rfl, hn, hne, hkind, hrooted, ?_⟩
    intro hhome
    have hedge : a.native.ParentOf ⟨2⟩ ⟨3⟩ := by
      rw [TypeGraph.ParentOf, TypeGraph.parentOf?, hn]
      exact hparent
    have hmem : ⟨3⟩ ∈ a.native.ancestors ⟨2⟩ :=
      TypeGraph.mem_climb_of_eq hedge (TypeGraph.mem_ids.2 ⟨scope, hscope⟩)
    exact (hrooted.leadsHome_iff.1 hhome ⟨3⟩ hmem).1 ⟨scope, hscope, hnone, .inl hfacade⟩

/-! ## Children and parents -/

/-- In both graphs of a run, what the children and parents of the nodes are, and the conditions
under which each child points back at its parent and is listed by it alone. -/
theorem listing_of_build (h : build settings nativeRecords managedRecords = .ok a) :
    (∃ r, registryOfNative? settings nativeRecords = some r ∧ a.native = r.resolve.1 ∧ r.Listing) ∧
      ∃ r, registryOfManaged? settings managedRecords = some r ∧ a.managed = r.resolve.1 ∧
        r.Listing := by
  obtain ⟨native, managed, hnative, hmanaged, heq, heq'⟩ := build_registries h
  refine ⟨⟨native, hnative, heq, ?_⟩, managed, hmanaged, heq', ?_⟩
  · exact (interned_registryOfNative hnative).listing
  · exact (interned_registryOfManaged hmanaged).listing

/-- Two namespaces list one class. -/
def sharedRecords : List NativeRecord :=
  [{ id := "a", kind := "namespace", name := some "A", innerClasses := ["C"] },
    { id := "b", kind := "namespace", name := some "B", innerClasses := ["C"] },
    { id := "c", kind := "class", name := some "C" }]

/-- The parent of the class is the second namespace, and both list it. -/
theorem listing_of_build_shared : ∃ a, build plainSettings sharedRecords [] = .ok a ∧
    (∃ r, registryOfNative? plainSettings sharedRecords = some r ∧ a.native = r.resolve.1 ∧
      r.Listing ∧ r.Lists ⟨1⟩ ⟨3⟩ ∧ r.ownParent? ⟨3⟩ = some ⟨2⟩) ∧
    ¬ a.native.PointsBack ∧ ¬ a.native.ListsOnce := by
  have hnodes : (build plainSettings sharedRecords []).toOption.map (fun a =>
      (a.native.childrenOf ⟨1⟩, a.native.childrenOf ⟨2⟩, a.native.parentOf? ⟨3⟩)) =
      some ([⟨3⟩], [⟨3⟩], some ⟨2⟩) := by decide +kernel
  cases hbuild : build plainSettings sharedRecords [] with
  | error e => simp [hbuild, Except.toOption] at hnodes
  | ok a =>
    simp only [hbuild, Except.toOption, Option.map_some, Option.some.injEq, Prod.mk.injEq] at hnodes
    obtain ⟨hA, hB, hparent⟩ := hnodes
    obtain ⟨⟨r, hr, heq, hlisting⟩, -⟩ := listing_of_build hbuild
    have hchildA : a.native.ChildOf ⟨1⟩ ⟨3⟩ := by simp [TypeGraph.ChildOf, hA]
    have hchildB : a.native.ChildOf ⟨2⟩ ⟨3⟩ := by simp [TypeGraph.ChildOf, hB]
    have hparentB : a.native.ParentOf ⟨3⟩ ⟨2⟩ := hparent
    have hback : ¬ a.native.PointsBack := by
      intro hback
      have hparentA : a.native.ParentOf ⟨3⟩ ⟨1⟩ := hback _ _ hchildA
      simpa using Option.some.inj (hparentA.symm.trans hparentB)
    have honce : ¬ a.native.ListsOnce := by
      intro honce
      simpa using honce _ _ _ hchildA hchildB
    rw [heq] at hchildA hparentB
    have hown : r.ownParent? ⟨3⟩ = some ⟨2⟩ := by
      rcases (hlisting.parent _ _).1 hparentB with hown | ⟨hnone, -, hfirst⟩
      · exact hown
      · -- A node without a parent of its own is adopted by the first namespace.
        rcases (hlisting.child _ _).1 hchildA with hlists | ⟨hown, -⟩
        · exact absurd (hfirst _ hlists) (by decide)
        · simp [hnone] at hown
    have hlists : r.Lists ⟨1⟩ ⟨3⟩ := by
      rcases (hlisting.child _ _).1 hchildA with hlists | ⟨hown', -⟩
      · exact hlists
      · simp [hown] at hown'
    exact ⟨a, rfl, ⟨r, hr, heq, hlisting, hlists, hown⟩, hback, honce⟩

end Atlas

end TypeAtlas
