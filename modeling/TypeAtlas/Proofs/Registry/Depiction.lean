import TypeAtlas.Proofs.Registry.Settling

/-!
# The graph of a corpus by names

Where no compound depends on when another one is bound, all that is in a resolved universe is known
by names from the compounds alone, in no order: which nodes there are, of which kinds, and what each
of them has as its parent, its children, its bases and its derived types, and in its members.

## Main definitions

* `Corpus.Under`, `Corpus.Holds`, `Corpus.Extends`, `Corpus.Inherits` — the relations of a graph, by
  names.
* `Corpus.BindsMembers` — members whose types are bound to what they mean.
* `Corpus.Depicts` — a graph that has the nodes of a corpus, with these relations.

The main statement is `Registry.Founded.depicts`.
-/

namespace TypeAtlas

open Binding

/-! ## Relations by names -/

namespace Corpus

variable (u : Corpus)

/-- What some references in a compound mean, but for the compound itself. -/
def Refers (c : Compound) (answers : List (Option String)) (name : String) : Prop :=
  some name ∈ answers ∧ name ≠ c.fullName

/-- A child that a compound lists; the global namespace is none. -/
def Lists (c : Compound) (name : String) : Prop :=
  Refers c (u.childAnswers c) name ∧ name ≠ ""

/-- What lies under what. -/
@[mk_iff] inductive Under : String → String → Prop where
  | definition {c : Compound} (hc : c ∈ u.compounds) : Under c.fullName (u.parentName c)
  /-- A type parameter lies under its owner. -/
  | parameter {c : Compound} {key : String} (hc : c ∈ u.compounds) (hkey : key ∈ u.parameterKeys c)
      (hfree : ∀ d ∈ u.compounds, d.fullName ≠ key) : Under key c.fullName
  /-- What is known from references alone lies under the compound that lists it. -/
  | adopted {c : Compound} {key : String} (hc : c ∈ u.compounds) (hkey : key ∈ u.openKeys)
      (hlists : u.Lists c key) : Under key c.fullName

/-- What has what as a child. -/
@[mk_iff] inductive Holds : String → String → Prop where
  | listed {c : Compound} {name : String} (hc : c ∈ u.compounds) (hlists : u.Lists c name) :
      Holds c.fullName name
  | definition {c : Compound} (hc : c ∈ u.compounds) : Holds (u.parentName c) c.fullName

/-- What has what as a base. -/
@[mk_iff] inductive Extends : String → String → Prop where
  | base {c : Compound} {name : String} (hc : c ∈ u.compounds)
      (hkind : c.kind.isComposite = true ∨ c.kind = .enum)
      (hbase : Refers c (u.baseAnswers c) name) :
      Extends c.fullName name

/-- What has what as a derived type. -/
@[mk_iff] inductive Inherits : String → String → Prop where
  | named {c : Compound} {name : String} (hc : c ∈ u.compounds) (hkind : c.kind.isComposite = true)
      (hderived : Refers c (u.derivedAnswers c) name) : Inherits c.fullName name
  | heir {c : Compound} {name : String} (hc : c ∈ u.compounds) (hkind : c.kind.isComposite = true)
      (hbase : u.Extends name c.fullName) : Inherits c.fullName name

/-- The kind of what is no compound. -/
def leafKind (name : String) : TypeKind :=
  if name = "" then .namespace
  else if name ∈ u.known then .genericParameter
  else if u.blank.isBuiltin name then .primitive
  else .facade

variable {u} {c : Compound} {key parent : String}

theorem ne_empty_of_mem_parameterKeys (hkey : key ∈ u.parameterKeys c) : key ≠ "" := by
  obtain ⟨parameter, hparameter, rfl⟩ := List.mem_map.1 hkey
  exact Registry.qualify_ne_empty _ (by simpa using (List.mem_filter.1 hparameter).2)

theorem under_definition_iff (hc : c ∈ u.compounds)
    (hown : ∀ d ∈ u.compounds, d.fullName = c.fullName → d = c) :
    u.Under c.fullName parent ↔ parent = u.parentName c := by
  rw [under_iff]
  constructor
  · rintro (⟨d, hd, heq, rfl⟩ | ⟨d, -, -, hfree, -⟩ | ⟨d, -, hkey, -⟩)
    · rw [hown d hd heq.symm]
    · exact absurd rfl (hfree c hc)
    · exact absurd (fullName_mem_known hc) (not_mem_known_of_mem_openKeys hkey)
  · rintro rfl
    exact .inl ⟨c, hc, rfl, rfl⟩

/-- The global namespace lies under nothing. -/
theorem not_under_empty (hnamed : ∀ c ∈ u.compounds, c.fullName ≠ "") (parent : String) :
    ¬ u.Under "" parent := by
  rw [under_iff]
  rintro (⟨c, hc, heq, -⟩ | ⟨c, -, hkey, -⟩ | ⟨c, -, hkey, -⟩)
  · exact hnamed c hc heq.symm
  · exact ne_empty_of_mem_parameterKeys hkey rfl
  · exact not_mem_known_of_mem_openKeys hkey empty_mem_known

/-- A type parameter lies under its only owner. -/
theorem under_parameter_iff (hu : u.Independent) (hc : c ∈ u.compounds)
    (hkey : key ∈ u.parameterKeys c) (hfree : ∀ d ∈ u.compounds, d.fullName ≠ key) :
    u.Under key parent ↔ parent = c.fullName := by
  rw [under_iff]
  constructor
  · rintro (⟨d, hd, heq, -⟩ | ⟨d, hd, hkey', -, rfl⟩ | ⟨d, -, hopen, -⟩)
    · exact absurd heq.symm (hfree d hd)
    · rcases hu.parameters c hc d hd key hkey hkey' with rfl | ⟨e, he, heq⟩
      · rfl
      · exact absurd heq (hfree e he)
    · exact absurd (mem_known_of_mem_parameterKeys hc hkey) (not_mem_known_of_mem_openKeys hopen)
  · rintro rfl
    exact .inr (.inl ⟨c, hc, hkey, hfree, rfl⟩)

/-- What is known from references alone lies under the compounds that list it. -/
theorem under_added_iff (hkey : key ∈ u.openKeys) :
    u.Under key parent ↔ ∃ c ∈ u.compounds, u.Lists c key ∧ parent = c.fullName := by
  have hknown := not_mem_known_of_mem_openKeys hkey
  rw [under_iff]
  constructor
  · rintro (⟨c, hc, rfl, -⟩ | ⟨c, hc, hparameter, -⟩ | ⟨c, hc, -, hlists, rfl⟩)
    · exact absurd (fullName_mem_known hc) hknown
    · exact absurd (mem_known_of_mem_parameterKeys hc hparameter) hknown
    · exact ⟨c, hc, hlists, rfl⟩
  · rintro ⟨c, hc, hlists, rfl⟩
    exact .inr (.inr ⟨c, hc, hkey, hlists, rfl⟩)

/-- Only one compound lists what is known from references alone. -/
theorem eq_of_lists (hu : u.Independent) {d : Compound} (hc : c ∈ u.compounds)
    (hd : d ∈ u.compounds) (hkey : key ∈ u.openKeys) (hlists : u.Lists c key)
    (hlists' : u.Lists d key) : c = d :=
  hu.adopted c hc d hd key hkey hlists.1.1 hlists'.1.1

end Corpus

/-! ## Members as they are written -/

/-- A bound parameter is written as a parameter of a member. -/
structure BoundParameter.Of (p : Parameter) (b : BoundParameter) : Prop where
  name : b.name = p.name
  content : b.content = p.content
  levels : b.declaredType.levels.map (·.descriptor) = p.declaredType.levels

/-- A bound member is written as a member of a compound. -/
structure BoundMember.Of (m : Member) (b : BoundMember) : Prop where
  name : b.name = m.name
  kind : b.kind = m.kind
  content : b.content = m.content
  isStatic : b.isStatic = m.isStatic
  levels : b.declaredType.levels.map (·.descriptor) = m.declaredType.levels
  parameters : List.Forall₂ BoundParameter.Of m.parameters b.parameters

/-- Members that are written as those of a compound and bound to what the types in them mean. -/
structure Corpus.BindsMembers (u : Corpus) (names : NameTable) (c : Compound)
    (members : List BoundMember) : Prop where
  written : List.Forall₂ BoundMember.Of c.boundMembers members
  bound : Registry.Answered names (u.typeAnswers c) (members.flatMap (·.levelTargets))

namespace Corpus

variable (u : Corpus)

/-! ## Nodes by names -/

/-- The nodes of the names that are in a relation. -/
def Reaches (names : NameTable) (related : String → Prop) (ids : List TypeId) : Prop :=
  ∀ id, id ∈ ids ↔ ∃ name, related name ∧ names[name]? = some id

theorem reaches_some {names : NameTable} {related : String → Prop} {name : String} {id : TypeId}
    (hname : names[name]? = some id) (hrelated : ∀ other, related other ↔ other = name) :
    Reaches names related (some id).toList := by
  intro other
  simp [hrelated, hname, eq_comm]

theorem reaches_none (names : NameTable) {related : String → Prop} (h : ∀ name, ¬ related name) :
    Reaches names related (none : Option TypeId).toList := by
  intro other
  simp [h]

/-- A node that has what its name has in the corpus. -/
structure DepictsNode (names : NameTable) (n : TypeNode) : Prop where
  definition_kind : ∀ c ∈ u.compounds, c.fullName = n.fullName → n.kind = c.kind.typeKind
  leaf_kind : (∀ c ∈ u.compounds, c.fullName ≠ n.fullName) → n.kind = u.leafKind n.fullName
  parent : Reaches names (u.Under n.fullName) n.parent.toList
  children : Reaches names (u.Holds n.fullName) n.children
  baseTypes : Reaches names (u.Extends n.fullName) (n.baseTypes?.getD [])
  derivedTypes : Reaches names (u.Inherits n.fullName) (n.derivedTypes?.getD [])
  definition_members : ∀ c ∈ u.compounds, c.fullName = n.fullName →
    u.BindsMembers names c (n.members?.getD [])
  leaf_members : (∀ c ∈ u.compounds, c.fullName ≠ n.fullName) → n.members?.getD [] = []

/-- A graph that has the nodes of a corpus, each once and under its name. -/
structure Depicts (g : TypeGraph) : Prop where
  names : ∀ name, (∃ id, g.names[name]? = some id) ↔ name ∈ u.known ∨ name ∈ u.openKeys
  get? : ∀ name id, g.names[name]? = some id → ∃ n, g.get? id = some n ∧ n.fullName = name
  named : ∀ id n, g.get? id = some n → g.names[n.fullName]? = some id
  node : ∀ id n, g.get? id = some n → u.DepictsNode g.names n

end Corpus

/-! ## Bound definitions -/

namespace TypeRef

mutual

theorem map_levels (t : TypeRef) (h : ∀ level ∈ t.levels,
    level.arguments.map (·.descriptor) = level.descriptor.arguments) :
    t.levels.map (·.descriptor) = t.descriptor.levels := by
  match t with
  | ⟨⟨form, written⟩, target, arguments⟩ =>
    have hwritten : arguments.map (·.descriptor) = written :=
      h ⟨⟨form, written⟩, target, arguments⟩ (by simp [levels])
    have harguments := map_levelsOf arguments fun level hlevel =>
      h level (by simp [levels, hlevel])
    rw [levels, List.map_cons, harguments, Descriptor.levels, hwritten]

theorem map_levelsOf (ts : List TypeRef) (h : ∀ level ∈ levelsOf ts,
    level.arguments.map (·.descriptor) = level.descriptor.arguments) :
    (levelsOf ts).map (·.descriptor) = Descriptor.levelsOf (ts.map (·.descriptor)) := by
  match ts with
  | [] => rfl
  | t :: ts =>
    have ht := map_levels t fun level hlevel => h level (by simp [levelsOf, hlevel])
    have hts := map_levelsOf ts fun level hlevel => h level (by simp [levelsOf, hlevel])
    rw [levelsOf, List.map_append, ht, hts, List.map_cons, Descriptor.levelsOf]

end

end TypeRef

theorem CompoundKind.exists_typeKind {kind : CompoundKind} (h : kind.isComposite = true) :
    ∃ composite : CompositeKind, kind.typeKind = composite.kind := by
  cases kind with
  | classType => exact ⟨.classType, rfl⟩
  | struct => exact ⟨.struct, rfl⟩
  | interface => exact ⟨.interface, rfl⟩
  | _ => contradiction

namespace Site

variable {base s : Registry} {site : Site} {c : Compound} {n : TypeNode}

theorem Binds.map_levels {d : Descriptor} {t : TypeRef} (h : site.Binds base s d t) :
    t.levels.map (·.descriptor) = d.levels := by
  rw [t.map_levels fun level hlevel => (h.2 level hlevel).1, h.1]

theorem BindsMember.of {m : Member} {b : BoundMember} (h : site.BindsMember base s m b) :
    BoundMember.Of m b where
  name := h.name
  kind := h.kind
  content := h.content
  isStatic := h.isStatic
  levels := h.declaredType.map_levels
  parameters := h.parameters.imp fun _ _ hp => ⟨hp.name, hp.content, hp.declaredType.map_levels⟩

/-- The members of a composite and the overloads of a function are bound; nothing else has any. -/
theorem BindsCompound.members (h : site.BindsCompound base s c n) :
    List.Forall₂ (site.BindsMember base s) c.boundMembers (n.members?.getD []) := by
  obtain ⟨bases, derived, -, -, hvariant⟩ := h.variant
  unfold Compound.boundMembers
  split
  · next hbound =>
    rcases Bool.or_eq_true_iff.1 hbound with hcomposite | hfunction
    · obtain ⟨kind, body, hv, hmembers, -⟩ := hvariant.composite hcomposite
      rw [TypeNode.members?, hv]
      exact hmembers
    · obtain ⟨overloads, hv, hmembers⟩ := hvariant.function (by simpa using hfunction)
      rw [TypeNode.members?, hv]
      exact hmembers
  · next hfree =>
    unfold TypeNode.members?
    cases hv : n.variant with
    | composite kind body =>
      rw [hv] at hvariant
      simp [CompoundKind.isComposite_of_typeKind hvariant.1] at hfree
    | function overloads =>
      rw [hv] at hvariant
      simp [hvariant.1] at hfree
    | _ => exact .nil

end Site

namespace Registry

variable {u : Corpus} {r : Registry} {c : Compound} {n : TypeNode} {id : TypeId} {slot : Slot}
  {name key : String} {site : Site}

namespace Founded

/-! ## Names in the end -/

theorem reading_settle (h : Founded u r) : Reading u r.settle :=
  h.toReading.grows r.grows_settle

/-- In the end each slot has a name of its own. -/
theorem names_of_fullName? (h : Founded u r) (hid : r.settle.fullName? id = some name) :
    r.settle.names[name]? = some id :=
  r.grows_settle.names_fullName? h.names_fullName? hid

/-- In the end each definition is found under its name. -/
theorem names_of_mem_definitions (h : Founded u r) (hc : (id, c) ∈ r.definitions) :
    r.settle.names[c.fullName]? = some id :=
  r.grows_settle.names (h.mem_definitions.1 hc).2

/-- Two names lead to two slots. -/
theorem eq_of_names (h : Founded u r) {a b : String} (ha : r.settle.names[a]? = some id)
    (hb : r.settle.names[b]? = some id) : a = b :=
  Option.some.inj ((h.reading_settle.fullName?_of_names ha).symm.trans
    (h.reading_settle.fullName?_of_names hb))

/-- A slot in the end is the global namespace, a definition, a type parameter or what was added for
a reference. -/
theorem settle_cases (h : Founded u r) (hu : u.Independent)
    (hslot : r.settle.slot? id = some slot) :
    slot = { fullName := "", origin := .globalNamespace } ∨
      (∃ c ∈ u.compounds, slot = { fullName := c.fullName, origin := .compound c }) ∨
      IsParameterOf u r slot ∨
      slot.fullName ∈ u.openKeys ∧ slot.origin = u.blank.placeholder slot.fullName := by
  rcases (h.bindsAll_settle hu).1.slot_cases id slot hslot with hsited | ⟨entry, hentry, hadded⟩
  · rcases h.growsBy_sited.slot_cases id slot hsited with hold | hparameter
    · rcases h.slot_cases id slot hold with rfl | hdefinition
      · exact .inl (Option.some.inj (hold.symm.trans h.global))
      · exact .inr (.inl hdefinition)
    · exact .inr (.inr (.inl hparameter))
  · have hc := (h.site_of_mem_entries hentry).1
    exact .inr (.inr (.inr ⟨Corpus.mem_openKeys.2 ⟨_, hc, hadded.1⟩, hadded.2⟩))

/-- The node of a compound, bound to what its turns mean. -/
theorem draft_definition (h : Founded u r) (hu : u.Independent) (hc : c ∈ u.compounds)
    (hid : r.settle.names[c.fullName]? = some id) : ∃ n, ∃ site : Site,
      r.draft[id.index]? = some n ∧ site.owner = id ∧ u.Settles r.sited r.settle site c n := by
  obtain ⟨owner, howner⟩ := h.definition c hc
  obtain rfl := Option.some.inj (hid.symm.trans (h.names_of_mem_definitions howner))
  have hnodes := forall₂_of_zip (Q := u.Settles r.sited r.settle) r.sites_spec.2
    (h.bindsAll_settle hu).2
  obtain ⟨n, hn, site, hsite, hsettles⟩ := draft_of_forall₂ hnodes
    (fun _ _ ⟨_, hsite, hsettles⟩ => hsettles.bound.id.trans hsite.owner) howner
  exact ⟨n, site, hn, hsite.owner, hsettles⟩

/-- In the end exactly the known names and those that are added have slots. -/
theorem names_settle (h : Founded u r) (hu : u.Independent) :
    (∃ id, r.settle.names[name]? = some id) ↔ name ∈ u.known ∨ name ∈ u.openKeys := by
  constructor
  · rintro ⟨id, hid⟩
    obtain ⟨slot, hslot, rfl⟩ := fullName?_eq_some.1 (h.reading_settle.fullName?_of_names hid)
    rcases h.settle_cases hu hslot with rfl | ⟨c, hc, rfl⟩ | hparameter | ⟨hkey, -⟩
    · exact .inl Corpus.empty_mem_known
    · exact .inl (Corpus.fullName_mem_known hc)
    · obtain ⟨owner, position, c, -, hdefinition, hkey⟩ := hparameter
      exact .inl (Corpus.mem_known.2 (.inr ⟨c, (h.mem_definitions.1 hdefinition).1, .inr hkey⟩))
    · exact .inr hkey
  · rintro (hknown | hopen)
    · obtain ⟨id, hid⟩ := h.names_sited.2 hknown
      exact ⟨id, (h.bindsAll_settle hu).1.grows.names hid⟩
    · obtain ⟨c, hc, hadds⟩ := Corpus.mem_openKeys.1 hopen
      obtain ⟨owner, howner⟩ := h.definition c hc
      obtain ⟨_, _, _, _, hsettles⟩ :=
        h.draft_definition hu hc (h.names_of_mem_definitions howner)
      exact hsettles.adds name hadds

/-! ## Definitions before they have got their inverse edges -/

/-- The targets of references are what these mean, but for the compound itself. -/
theorem reaches_collect (h : Founded u r) {answers : List (Option String)}
    {targets : List (Option TypeId)} (hid : r.settle.names[c.fullName]? = some site.owner)
    (ht : Answered r.settle.names answers targets) :
    Corpus.Reaches r.settle.names (Corpus.Refers c answers) (site.collect targets) := by
  intro id
  rw [Site.mem_collect]
  constructor
  · rintro ⟨hmem, hother⟩
    obtain ⟨answer, hanswer, hleads⟩ := exists_left_of_mem ht hmem
    cases hleads with
    | @some name _ hname =>
      refine ⟨name, ⟨hanswer, ?_⟩, hname⟩
      rintro rfl
      exact hother (Option.some.inj (hname.symm.trans hid))
  · rintro ⟨name, ⟨hanswer, hother⟩, hname⟩
    obtain ⟨target, htarget, hleads⟩ := exists_right_of_mem ht hanswer
    cases hleads with
    | @some _ found hfound =>
      obtain rfl := Option.some.inj (hname.symm.trans hfound)
      refine ⟨htarget, ?_⟩
      rintro rfl
      exact hother (h.eq_of_names hname hid)

/-- The listed children are what their names mean, but for the compound itself and the global
namespace. -/
theorem reaches_children (h : Founded u r) {targets : List (Option TypeId)}
    (hid : r.settle.names[c.fullName]? = some site.owner)
    (ht : Answered r.settle.names (u.childAnswers c) targets) :
    Corpus.Reaches r.settle.names (u.Lists c)
      (site.collect (targets.map (·.bind Site.childTarget))) := by
  have hglobal := h.reading_settle.names_empty
  have hchild : ∀ id, some id ∈ targets.map (·.bind Site.childTarget) ↔
      some id ∈ targets ∧ id ≠ .global := by
    intro id
    simp only [List.mem_map, Option.bind_eq_some_iff, Site.childTarget]
    grind
  intro id
  have hcollect := h.reaches_collect hid ht id
  rw [Site.mem_collect] at hcollect ⊢
  rw [hchild, and_right_comm, hcollect]
  constructor
  · rintro ⟨⟨name, hrefers, hname⟩, hne⟩
    refine ⟨name, ⟨hrefers, ?_⟩, hname⟩
    rintro rfl
    exact hne (Option.some.inj (hname.symm.trans hglobal))
  · rintro ⟨name, ⟨hrefers, hne⟩, hname⟩
    refine ⟨⟨name, hrefers, hname⟩, ?_⟩
    rintro rfl
    exact hne (h.eq_of_names hname hglobal)

end Founded

end Registry

/-- The node of a compound before it has got its inverse edges. -/
structure Corpus.Drafts (u : Corpus) (names : NameTable) (c : Compound) (n : TypeNode) : Prop where
  fullName : n.fullName = c.fullName
  kind : n.kind = c.kind.typeKind
  parent : ∃ parent, n.parent = some parent ∧ names[u.parentName c]? = some parent
  children : Reaches names (u.Lists c) n.children
  baseTypes : Reaches names (fun name => (c.kind.isComposite = true ∨ c.kind = .enum) ∧
    Refers c (u.baseAnswers c) name) (n.baseTypes?.getD [])
  derivedTypes : Reaches names (fun name => c.kind.isComposite = true ∧
    Refers c (u.derivedAnswers c) name) (n.derivedTypes?.getD [])
  members : u.BindsMembers names c (n.members?.getD [])

namespace Registry

variable {u : Corpus} {r : Registry} {c : Compound} {n : TypeNode} {id : TypeId} {slot : Slot}
  {name key : String} {site : Site}

namespace Founded

theorem drafts (h : Founded u r) (hu : u.Independent) (hc : c ∈ u.compounds)
    (hid : r.settle.names[c.fullName]? = some id) :
    ∃ n, r.draft[id.index]? = some n ∧ u.Drafts r.settle.names c n := by
  obtain ⟨n, site, hn, rfl, hcompound, -, hbinds⟩ := h.draft_definition hu hc hid
  obtain ⟨_, _, _, _, hvariant⟩ := hcompound.variant
  obtain ⟨children, hchildren, hnchildren⟩ := hbinds.children
  obtain ⟨bases, hbases, hnbases⟩ := hbinds.baseTypes
  obtain ⟨derived, hderived, hnderived⟩ := hbinds.derivedTypes
  refine ⟨n, hn, hcompound.fullName, hvariant.kind, hbinds.parent, ?_, ?_, ?_, ?_, hbinds.members⟩
  · rw [hnchildren]
    exact h.reaches_children hid hchildren
  · rw [hnbases]
    split
    · next hkept => exact fun x => by simpa [hkept] using h.reaches_collect hid hbases x
    · next hfree => exact fun x => by simp [hfree]
  · rw [hnderived]
    split
    · next hkept => exact fun x => by simpa [hkept] using h.reaches_collect hid hderived x
    · next hfree => exact fun x => by simp [hfree]
  · exact hcompound.members.imp fun _ _ hm => hm.of

/-- No two compounds have one name. -/
theorem eq_of_fullName (h : Founded u r) {c d : Compound} (hc : c ∈ u.compounds)
    (hd : d ∈ u.compounds) (hname : c.fullName = d.fullName) : c = d := by
  obtain ⟨i, hi⟩ := h.definition c hc
  obtain ⟨j, hj⟩ := h.definition d hd
  have hi' := (h.mem_definitions.1 hi).2
  have hj' := (h.mem_definitions.1 hj).2
  rw [hname, hj'] at hi'
  obtain rfl := Option.some.inj hi'
  obtain ⟨slot, hslot, hcompound⟩ := Registry.mem_definitions.1 hi
  obtain ⟨slot', hslot', hcompound'⟩ := Registry.mem_definitions.1 hj
  obtain rfl := Option.some.inj (hslot.symm.trans hslot')
  exact Option.some.inj (hcompound.symm.trans hcompound')

theorem draft_cases (h : Founded u r) (hu : u.Independent) (hn : r.draft[id.index]? = some n) :
    (∃ c ∈ u.compounds, r.settle.names[c.fullName]? = some id ∧ u.Drafts r.settle.names c n) ∨
      ∃ slot, r.settle.slot? id = some slot ∧ slot.compound? = none ∧
        n = leaf r.settle.origin id slot := by
  rcases Registry.draft_cases hn with ⟨c, hdefinition, -⟩ | hleaf
  · obtain ⟨hc, hname⟩ := h.mem_definitions.1 hdefinition
    have hname := r.grows_settle.names hname
    obtain ⟨n', hn', hdrafts⟩ := h.drafts hu hc hname
    obtain rfl := Option.some.inj (hn.symm.trans hn')
    exact .inl ⟨c, hc, hname, hdrafts⟩
  · exact .inr hleaf

/-! ## Inverse edges -/

variable {other : TypeId}

/-- What lists a node are the compounds that list its name. -/
theorem mem_listers (h : Founded u r) (hu : u.Independent)
    (hid : r.settle.names[name]? = some id) : other ∈ TypeGraph.listers r.draft id ↔
      ∃ c ∈ u.compounds, u.Lists c name ∧ r.settle.names[c.fullName]? = some other := by
  rw [TypeGraph.mem_listers]
  constructor
  · rintro ⟨d, hd, rfl, hchild⟩
    rcases h.draft_cases hu (mem_draft hd) with ⟨c, hc, hname, hdrafts⟩ | ⟨slot, -, -, heq⟩
    · obtain ⟨child, hlists, hchild⟩ := (hdrafts.children id).1 hchild
      exact ⟨c, hc, h.eq_of_names hchild hid ▸ hlists, hname⟩
    · rw [heq, leaf_children] at hchild
      simp at hchild
  · rintro ⟨c, hc, hlists, hname⟩
    obtain ⟨d, hd, hdrafts⟩ := h.drafts hu hc hname
    exact ⟨d, Array.mem_of_getElem? hd, draft_id hd, (hdrafts.children id).2 ⟨name, hlists, hid⟩⟩

/-- What names a node as its parent are the compounds whose parent has its name. -/
theorem mem_namers (h : Founded u r) (hu : u.Independent)
    (hid : r.settle.names[name]? = some id) : other ∈ TypeGraph.namers r.draft id ↔
      ∃ c ∈ u.compounds, u.parentName c = name ∧
        r.settle.names[c.fullName]? = some other := by
  rw [TypeGraph.mem_namers]
  constructor
  · rintro ⟨d, hd, rfl, hkind, hparent⟩
    rcases h.draft_cases hu (mem_draft hd) with
      ⟨c, hc, hname, hdrafts⟩ | ⟨slot, hslot, hcompound, heq⟩
    · obtain ⟨parent, hsome, hmeans⟩ := hdrafts.parent
      obtain rfl := Option.some.inj (hsome.symm.trans hparent)
      exact ⟨c, hc, h.eq_of_names hmeans hid, hname⟩
    · rw [heq] at hkind hparent
      rcases leaf_cases h.interned hslot hcompound r.settle.origin with
        ⟨-, hnone, -⟩ | ⟨hnone, -⟩ | ⟨owner, -, hgeneric, -⟩
      · simp [hnone] at hparent
      · simp [hnone] at hparent
      · exact absurd hgeneric hkind
  · rintro ⟨c, hc, rfl, hname⟩
    obtain ⟨d, hd, hdrafts⟩ := h.drafts hu hc hname
    obtain ⟨parent, hparent, hmeans⟩ := hdrafts.parent
    obtain rfl := Option.some.inj (hmeans.symm.trans hid)
    refine ⟨d, Array.mem_of_getElem? hd, draft_id hd, ?_, hparent⟩
    rw [hdrafts.kind]
    cases c.kind <;> simp [CompoundKind.typeKind]

/-- What has a node as a base are the compounds that extend its name. -/
theorem mem_heirs (h : Founded u r) (hu : u.Independent)
    (hid : r.settle.names[name]? = some id) : other ∈ TypeGraph.heirs r.draft id ↔
      ∃ heir, u.Extends heir name ∧ r.settle.names[heir]? = some other := by
  rw [TypeGraph.mem_heirs]
  constructor
  · rintro ⟨d, hd, rfl, bases, hbases, hmem⟩
    rcases h.draft_cases hu (mem_draft hd) with ⟨c, hc, hname, hdrafts⟩ | ⟨slot, -, -, heq⟩
    · obtain ⟨base, ⟨hkind, hnames⟩, hbase⟩ :=
        (hdrafts.baseTypes id).1 (by simpa [hbases] using hmem)
      obtain rfl := h.eq_of_names hbase hid
      exact ⟨c.fullName, .base hc hkind hnames, hname⟩
    · have hnone := (leaf_lists r.settle.origin d.id slot).1
      rw [← heq, hbases] at hnone
      obtain rfl : bases = [] := hnone
      simp at hmem
  · rintro ⟨heir, hextends, hname⟩
    obtain ⟨hc, hkind, hnames⟩ := hextends
    obtain ⟨d, hd, hdrafts⟩ := h.drafts hu hc hname
    have hmem := (hdrafts.baseTypes id).2 ⟨name, ⟨hkind, hnames⟩, hid⟩
    cases hbases : d.baseTypes? with
    | none => simp [hbases] at hmem
    | some bases =>
      exact ⟨d, Array.mem_of_getElem? hd, draft_id hd, bases, hbases, by simpa [hbases] using hmem⟩

/-! ## Nodes -/

/-- A slot without a compound has no name of one. -/
theorem ne_fullName_of_leaf (h : Founded u r) (hid : r.settle.names[name]? = some id)
    (hslot : r.settle.slot? id = some slot) (hleaf : slot.compound? = none)
    (hc : c ∈ u.compounds) : c.fullName ≠ name := by
  rintro rfl
  obtain ⟨owner, howner⟩ := h.definition c hc
  obtain rfl := Option.some.inj ((h.names_of_mem_definitions howner).symm.trans hid)
  obtain ⟨slot', hslot', hcompound⟩ := Registry.mem_definitions.1 howner
  obtain rfl := Option.some.inj ((r.grows_settle.slot? hslot').symm.trans hslot)
  simp [hcompound] at hleaf

/-- The kind of a leaf is that of its name. -/
theorem kind_leaf (h : Founded u r) (hu : u.Independent) (hslot : r.settle.slot? id = some slot)
    (hleaf : slot.compound? = none) : slot.kind = u.leafKind slot.fullName := by
  unfold Corpus.leafKind
  rcases h.settle_cases hu hslot with rfl | ⟨c, -, rfl⟩ | hparameter | ⟨hkey, horigin⟩
  · rfl
  · simp [Slot.compound?] at hleaf
  · obtain ⟨owner, position, c, horigin, hc, hkey⟩ := hparameter
    have hknown := Corpus.mem_known_of_mem_parameterKeys (h.mem_definitions.1 hc).1 hkey
    rw [if_neg (Corpus.ne_empty_of_mem_parameterKeys hkey), if_pos hknown, Slot.kind, horigin]
  · have hknown := Corpus.not_mem_known_of_mem_openKeys hkey
    have hne : slot.fullName ≠ "" := fun hempty => hknown (by simp [hempty])
    rw [if_neg hne, if_neg hknown, Slot.kind, horigin, placeholder]
    cases u.blank.isBuiltin slot.fullName <;> rfl

theorem leaf_kind_ne (hleaf : slot.compound? = none) (kind : CompositeKind) :
    slot.kind ≠ kind.kind := by
  unfold Slot.kind
  cases horigin : slot.origin with
  | compound c => simp [Slot.compound?, horigin] at hleaf
  | _ => cases kind <;> simp [CompositeKind.kind]

theorem leaf_members (origin : Universe) (id : TypeId) (slot : Slot) :
    (leaf origin id slot).members?.getD [] = [] := by
  unfold leaf
  cases slot.origin <;> rfl

/-- The parent of a definition is what the search for it means. -/
theorem reaches_parent_of_drafts (h : Founded u r) (hc : c ∈ u.compounds)
    (hdrafts : u.Drafts r.settle.names c n) {listers namers heirs : List TypeId} :
    Corpus.Reaches r.settle.names (u.Under n.fullName)
      (n.linked listers namers heirs).parent.toList := by
  obtain ⟨parent, hparent, hmeans⟩ := hdrafts.parent
  rw [TypeNode.linked_parent, hparent, Option.some_or, hdrafts.fullName]
  refine Corpus.reaches_some hmeans fun other => ?_
  exact Corpus.under_definition_iff hc fun d hd hname => h.eq_of_fullName hd hc hname

/-- The first compound that lists what is known from references alone is the only one. -/
theorem head?_listers (h : Founded u r) (hu : u.Independent) (hkey : key ∈ u.openKeys)
    (hid : r.settle.names[key]? = some id) : (TypeGraph.listers r.draft id).head? = some other ↔
      ∃ c ∈ u.compounds, u.Lists c key ∧ r.settle.names[c.fullName]? = some other := by
  have hlisters : ∀ other, other ∈ TypeGraph.listers r.draft id ↔
      ∃ c ∈ u.compounds, u.Lists c key ∧ r.settle.names[c.fullName]? = some other :=
    fun other => h.mem_listers hu hid
  rw [← hlisters]
  constructor
  · exact List.mem_of_head?
  · intro hother
    obtain ⟨first, rest, hcons⟩ := List.exists_cons_of_ne_nil (List.ne_nil_of_mem hother)
    have hfirst : first ∈ TypeGraph.listers r.draft id := by simp [hcons]
    obtain ⟨c, hc, hlists, hname⟩ := (hlisters other).1 hother
    obtain ⟨d, hd, hlists', hname'⟩ := (hlisters first).1 hfirst
    obtain rfl := Corpus.eq_of_lists hu hc hd hkey hlists hlists'
    rw [hcons, List.head?_cons, ← hname', hname]

/-- The parent of a leaf is the owner of a type parameter, or the compound that lists what is known
from references alone. -/
theorem reaches_parent_of_leaf (h : Founded u r) (hu : u.Independent)
    (hid : r.settle.names[slot.fullName]? = some id) (hslot : r.settle.slot? id = some slot)
    (hleaf : slot.compound? = none) {namers heirs : List TypeId} :
    Corpus.Reaches r.settle.names (u.Under slot.fullName)
      ((leaf r.settle.origin id slot).linked (TypeGraph.listers r.draft id) namers
        heirs).parent.toList := by
  have hglobal := h.reading_settle.names_empty
  rw [TypeNode.linked_parent]
  rcases h.settle_cases hu hslot with rfl | ⟨c, -, rfl⟩ | hparameter | ⟨hkey, horigin⟩
  · obtain rfl := Option.some.inj (hid.symm.trans hglobal)
    exact Corpus.reaches_none _ (Corpus.not_under_empty h.named)
  · simp [Slot.compound?] at hleaf
  · obtain ⟨owner, position, c, horigin, hdefinition, hkey⟩ := hparameter
    have hparent : (leaf r.settle.origin id slot).parent = some owner := by
      simp [leaf, horigin]
    rw [hparent, Option.some_or]
    refine Corpus.reaches_some (h.names_of_mem_definitions hdefinition) fun other => ?_
    exact Corpus.under_parameter_iff hu (h.mem_definitions.1 hdefinition).1 hkey
      fun d hd => h.ne_fullName_of_leaf hid hslot hleaf hd
  · have hne : id ≠ .global := by
      rintro rfl
      have hempty := h.eq_of_names hid hglobal
      exact Corpus.not_mem_known_of_mem_openKeys hkey (by simp [hempty])
    have hparent : (leaf r.settle.origin id slot).parent = none := by
      unfold leaf
      rw [horigin, placeholder]
      cases u.blank.isBuiltin slot.fullName <;> rfl
    have hfree : (leaf r.settle.origin id slot).isGlobal = false := by
      simpa [TypeNode.isGlobal, leaf_id] using hne
    rw [hparent, hfree, Option.none_or, if_neg (by simp)]
    intro other
    simp only [Option.mem_toList, h.head?_listers hu hkey hid, Corpus.under_added_iff hkey]
    constructor
    · rintro ⟨c, hc, hlists, hname⟩
      exact ⟨c.fullName, ⟨c, hc, hlists, rfl⟩, hname⟩
    · rintro ⟨-, ⟨c, hc, hlists, rfl⟩, hname⟩
      exact ⟨c, hc, hlists, hname⟩

/-- The children of a node are those that a compound of its name lists, and the definitions under
it. -/
theorem reaches_children_linked (h : Founded u r) (hu : u.Independent)
    (hid : r.settle.names[name]? = some id) {listers heirs : List TypeId}
    (hown : Corpus.Reaches r.settle.names
      (fun child => ∃ c ∈ u.compounds, c.fullName = name ∧ u.Lists c child) n.children) :
    Corpus.Reaches r.settle.names (u.Holds name)
      (n.linked listers (TypeGraph.namers r.draft id) heirs).children := by
  intro other
  simp only [TypeNode.mem_linked_children, hown other, h.mem_namers hu hid, Corpus.holds_iff]
  grind

/-- The derived types of a composite are those that it names and those that have it as a base. -/
theorem reaches_derivedTypes_linked (h : Founded u r) (hu : u.Independent)
    (hid : r.settle.names[name]? = some id) {listers namers : List TypeId}
    (hown : Corpus.Reaches r.settle.names (fun derived => ∃ c ∈ u.compounds, c.fullName = name ∧
      c.kind.isComposite = true ∧ Corpus.Refers c (u.derivedAnswers c) derived)
      (n.derivedTypes?.getD []))
    (hkind : (∃ kind : CompositeKind, n.kind = kind.kind) ↔
      ∃ c ∈ u.compounds, c.fullName = name ∧ c.kind.isComposite = true) :
    Corpus.Reaches r.settle.names (u.Inherits name)
      ((n.linked listers namers (TypeGraph.heirs r.draft id)).derivedTypes?.getD []) := by
  intro other
  simp only [TypeNode.mem_linked_derivedTypes, hown other, h.mem_heirs hu hid, hkind,
    Corpus.inherits_iff]
  grind

theorem depictsNode_of_drafts (h : Founded u r) (hu : u.Independent) (hc : c ∈ u.compounds)
    (hid : r.settle.names[c.fullName]? = some id) (hdrafts : u.Drafts r.settle.names c n) :
    u.DepictsNode r.settle.names (n.linked (TypeGraph.listers r.draft id)
      (TypeGraph.namers r.draft id) (TypeGraph.heirs r.draft id)) := by
  have hown : ∀ {d}, d ∈ u.compounds → d.fullName = n.fullName → d = c :=
    fun hd hname => h.eq_of_fullName hd hc (hname.trans hdrafts.fullName)
  rw [← hdrafts.fullName] at hid
  refine ⟨?_, ?_, h.reaches_parent_of_drafts hc hdrafts, h.reaches_children_linked hu hid ?_, ?_,
    h.reaches_derivedTypes_linked hu hid ?_ ?_, ?_, ?_⟩
  · intro d hd hname
    rw [TypeNode.linked_kind, hown hd hname, hdrafts.kind]
  · intro hfree
    exact absurd hdrafts.fullName.symm (hfree c hc)
  · intro other
    rw [hdrafts.children other]
    grind [hdrafts.fullName]
  · intro other
    rw [TypeNode.linked_baseTypes?, TypeNode.linked_fullName, hdrafts.baseTypes other]
    simp only [Corpus.extends_iff]
    grind [hdrafts.fullName]
  · intro other
    rw [hdrafts.derivedTypes other]
    grind [hdrafts.fullName]
  · rw [hdrafts.kind]
    constructor
    · rintro ⟨kind, hkind⟩
      exact ⟨c, hc, hdrafts.fullName.symm, CompoundKind.isComposite_of_typeKind hkind⟩
    · rintro ⟨d, hd, hname, hcomposite⟩
      exact CompoundKind.exists_typeKind (hown hd hname ▸ hcomposite)
  · intro d hd hname
    rw [TypeNode.linked_members?, hown hd hname]
    exact hdrafts.members
  · intro hfree
    exact absurd hdrafts.fullName.symm (hfree c hc)

theorem depictsNode_of_leaf (h : Founded u r) (hu : u.Independent)
    (hid : r.settle.names[slot.fullName]? = some id) (hslot : r.settle.slot? id = some slot)
    (hleaf : slot.compound? = none) : u.DepictsNode r.settle.names
      ((leaf r.settle.origin id slot).linked (TypeGraph.listers r.draft id)
        (TypeGraph.namers r.draft id) (TypeGraph.heirs r.draft id)) := by
  have hother : ∀ c ∈ u.compounds, c.fullName ≠ slot.fullName :=
    fun c hc => h.ne_fullName_of_leaf hid hslot hleaf hc
  have hname := leaf_fullName r.settle.origin id slot
  have hkind := leaf_kind r.settle.origin id hleaf
  have hlists := leaf_lists r.settle.origin id slot
  refine ⟨?_, ?_, ?_, ?_, ?_, ?_, ?_, ?_⟩ <;> rw [TypeNode.linked_fullName, hname]
  · intro c hc heq
    exact absurd heq (hother c hc)
  · intro _
    rw [TypeNode.linked_kind, hkind, h.kind_leaf hu hslot hleaf]
  · exact h.reaches_parent_of_leaf hu hid hslot hleaf
  · refine h.reaches_children_linked hu hid fun other => ?_
    rw [leaf_children]
    grind
  · intro other
    rw [TypeNode.linked_baseTypes?, hlists.1]
    simp only [Corpus.extends_iff]
    grind
  · refine h.reaches_derivedTypes_linked hu hid (fun other => ?_) ?_
    · rw [hlists.2]
      grind
    · constructor
      · rintro ⟨kind, hcomposite⟩
        exact absurd (hkind.symm.trans hcomposite) (leaf_kind_ne hleaf kind)
      · rintro ⟨c, hc, heq, -⟩
        exact absurd heq (hother c hc)
  · intro c hc heq
    exact absurd heq (hother c hc)
  · intro _
    rw [TypeNode.linked_members?, leaf_members]

/-- Where no compound depends on when another one is bound, the graph of a universe has what its
compounds say, in no order. -/
theorem depicts (h : Founded u r) (hu : u.Independent) : u.Depicts r.resolve.1 := by
  have hnamed : ∀ id n, r.resolve.1.get? id = some n → r.settle.names[n.fullName]? = some id :=
    fun id n hn => h.names_of_fullName? (fullName?_of_resolve h.labelled hn)
  refine ⟨fun name => h.names_settle hu, ?_, hnamed, ?_⟩
  · intro name id hid
    obtain ⟨slot, hslot, -⟩ := fullName?_eq_some.1 (h.reading_settle.fullName?_of_names hid)
    obtain ⟨n, hn, -⟩ := get?_resolve_of_slot hslot
    exact ⟨n, hn, h.eq_of_names (hnamed id n hn) hid⟩
  · intro id n hn
    have hid := hnamed id n hn
    obtain ⟨d, hd, rfl⟩ := get?_resolve_eq_some.1 hn
    rcases h.draft_cases hu hd with ⟨c, hc, hname, hdrafts⟩ | ⟨slot, hslot, hleaf, rfl⟩
    · exact h.depictsNode_of_drafts hu hc hname hdrafts
    · rw [TypeNode.linked_fullName, leaf_fullName] at hid
      exact h.depictsNode_of_leaf hu hid hslot hleaf

end Founded

end Registry

end TypeAtlas
