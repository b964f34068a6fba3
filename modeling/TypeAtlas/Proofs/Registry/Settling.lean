import TypeAtlas.Proofs.Registry.Naming
import TypeAtlas.Proofs.Registry.Tracing

/-!
# Settling a corpus

A universe that is defined by a list of compounds with names of their own is resolved in three
phases: the compounds are defined, their type parameters get slots, and the compounds are bound one
after another. After the second phase exactly the known names of the corpus have slots, and each
compound that is bound adds its own names to them. Where no compound depends on when another one is
bound, each of them is bound to what its turns mean.

## Main definitions

* `WellNamed` — compounds with names of their own.
* `Registry.sited` — the registry once the type parameters have slots.
* `Registry.Founded` — the registry that holds the compounds of a corpus.
* `Corpus.Binds` — a node that is bound to what the turns of its compound mean.

The main statements are `Registry.Settling.binds` and `Registry.Founded.bindsAll_settle`.
-/

namespace TypeAtlas

open Binding

/-! ## Compounds with names of their own -/

/-- Compounds with names of their own, written without blanks around them. -/
structure WellNamed (cs : List Compound) : Prop where
  distinct : (cs.map (·.fullName)).Nodup
  named : ∀ c ∈ cs, c.fullName ≠ ""
  trimmed : ∀ c ∈ cs, Text.trimmed c.fullName = c.fullName

namespace Registry

variable {u : Corpus} {r m s : Registry} {c : Compound} {cs : List Compound} {id owner : TypeId}
  {slot : Slot} {name key : String}

theorem define_of_fresh (hname : c.fullName ≠ "") (htrimmed : Text.trimmed c.fullName = c.fullName)
    (hfresh : r.names[c.fullName]? = none) : r.define c = r.push c.fullName (.compound c) := by
  rw [define_fresh (by rwa [htrimmed]) (by rwa [htrimmed]), htrimmed]

/-- Compounds with names of their own get a slot each, in their order. -/
theorem slots_defineAll (u : Corpus) (h : WellNamed cs) : (u.blank.defineAll cs).slots.toList =
    { fullName := "", origin := .globalNamespace } ::
      cs.map fun c => { fullName := c.fullName, origin := .compound c } := by
  induction cs using List.reverseRecOn with
  | nil => rfl
  | append_singleton cs c ih =>
    have hdistinct : (cs.map (·.fullName)).Nodup ∧ c.fullName ∉ cs.map (·.fullName) := by
      have := h.distinct
      rw [List.map_append, List.nodup_append] at this
      refine ⟨this.1, fun hmem => this.2.2 _ hmem _ (by simp) rfl⟩
    have hslots := ih ⟨hdistinct.1, fun c hc => h.named c (by simp [hc]),
      fun c hc => h.trimmed c (by simp [hc])⟩
    have hindexed : (u.blank.defineAll cs).Indexed := by
      rw [defineAll_eq_internAll]
      exact ((Interned.empty u.origin u.settings u.parser).internAll _).toIndexed
    have hname := h.named c (by simp)
    have hfresh : (u.blank.defineAll cs).names[c.fullName]? = none := by
      by_contra hfound
      obtain ⟨id, hid⟩ := Option.ne_none_iff_exists'.1 hfound
      have hfull := hindexed.fullName?_of_names hid
      rw [fullName?_eq, fullNames, hslots] at hfull
      have hmem := List.mem_of_getElem? hfull
      simp only [List.map_cons, List.map_map, List.mem_cons] at hmem
      exact hmem.elim hname fun hmem => hdistinct.2 (by simpa using hmem)
    have hstep : u.blank.defineAll (cs ++ [c]) = ((u.blank.defineAll cs).define c).2 :=
      List.foldl_concat ..
    rw [hstep, define_of_fresh hname (h.trimmed c (by simp)) hfresh]
    simp [push, hslots]

theorem map_definitions (r : Registry) :
    r.definitions.map (·.2) = r.slots.toList.filterMap (·.compound?) := by
  have hzip : ∀ (slots : List Slot) (first : Nat),
      ((slots.zipIdx first).filterMap fun entry =>
        entry.1.compound?.map ((⟨entry.2⟩ : TypeId), ·)).map (·.2) =
        slots.filterMap (·.compound?) := by
    intro slots
    induction slots with
    | nil => exact fun _ => rfl
    | cons slot slots ih =>
      intro first
      rw [List.zipIdx_cons]
      cases hc : slot.compound? with
      | none => simp [hc, ih]
      | some c => simp [hc, ih]
  exact hzip _ 0

/-- The registry that holds the compounds of a corpus, each under its name, and nothing else. -/
structure Founded (u : Corpus) (r : Registry) : Prop extends Reading u r where
  interned : r.Interned
  labelled : r.Labelled
  names_fullName? : ∀ id name, r.fullName? id = some name → r.names[name]? = some id
  slot_cases : ∀ id slot, r.slot? id = some slot → id = .global ∨
    ∃ c ∈ u.compounds, slot = { fullName := c.fullName, origin := .compound c }
  definition : ∀ c ∈ u.compounds, ∃ id, (id, c) ∈ r.definitions
  distinct : (r.definitions.map (·.2)).Nodup
  named : ∀ c ∈ u.compounds, c.fullName ≠ ""

/-- The corpus of a list of compounds. -/
def corpus (origin : Universe) (settings : RegistrySettings) (parser : DeclarationParser)
    (cs : List Compound) : Corpus where
  origin
  settings
  parser
  compounds := cs.toFinset

theorem reading_internAll (u : Corpus) (acts : List Interning) :
    Reading u (u.blank.internAll acts) where
  toIndexed := ((Interned.empty u.origin u.settings u.parser).internAll acts).toIndexed
  origin_eq := by
    induction acts using List.reverseRecOn with
    | nil => rfl
    | append_singleton acts act ih => rw [internAll_concat, (change_intern _ act).origin_eq, ih]
  settings_eq := by
    induction acts using List.reverseRecOn with
    | nil => rfl
    | append_singleton acts act ih => rw [internAll_concat, (change_intern _ act).settings_eq, ih]
  parser_eq := by
    induction acts using List.reverseRecOn with
    | nil => rfl
    | append_singleton acts act ih => rw [internAll_concat, (change_intern _ act).parser_eq, ih]

theorem founded_defineAll (origin : Universe) (settings : RegistrySettings)
    (parser : DeclarationParser) (h : WellNamed cs) :
    Founded (corpus origin settings parser cs)
      ((Registry.empty origin settings parser).defineAll cs) := by
  have hslots := slots_defineAll (corpus origin settings parser cs) h
  have hreading := reading_internAll (corpus origin settings parser cs) (cs.map .define)
  have hlabelled := labelled_internAll origin settings parser (cs.map .define)
    (by simpa using h.trimmed)
  have hinterned := (Interned.empty origin settings parser).internAll (cs.map .define)
  rw [← defineAll_eq_internAll] at hreading hlabelled hinterned
  change ((Registry.empty origin settings parser).defineAll cs).slots.toList = _ at hslots
  change Reading _ ((Registry.empty origin settings parser).defineAll cs) at hreading
  generalize (Registry.empty origin settings parser).defineAll cs = r at *
  have hslot : ∀ id, r.slot? id = r.slots.toList[id.index]? := fun id => by simp [slot?]
  refine ⟨hreading, hinterned, hlabelled, ?_, ?_, ?_, ?_, ?_⟩
  · have hnodup : r.fullNames.Nodup := by
      have hnames : r.fullNames = "" :: cs.map (·.fullName) := by
        simp [fullNames, hslots, Function.comp_def]
      rw [hnames, List.nodup_cons]
      refine ⟨?_, h.distinct⟩
      rw [List.mem_map]
      rintro ⟨c, hc, hempty⟩
      exact h.named c hc hempty
    exact fun id name hid => hreading.names_of_nodup hnodup hid
  · intro id slot hid
    rw [hslot, hslots] at hid
    obtain ⟨index⟩ := id
    cases index with
    | zero => exact .inl rfl
    | succ index =>
      right
      obtain ⟨c, hc, rfl⟩ := List.mem_map.1 (List.mem_of_getElem? hid)
      exact ⟨c, List.mem_toFinset.2 hc, rfl⟩
  · intro c hc
    obtain ⟨index, hindex⟩ := List.mem_iff_getElem?.1 (List.mem_toFinset.1 hc)
    refine ⟨⟨index + 1⟩, mem_definitions.2 ⟨⟨c.fullName, .compound c⟩, ?_, rfl⟩⟩
    rw [hslot, hslots]
    simp [hindex]
  · have hcompounds : r.definitions.map (·.2) = cs := by
      simp [map_definitions, hslots, Slot.compound?, List.filterMap_map]
    rw [hcompounds]
    exact h.distinct.of_map _
  · exact fun c hc => h.named c (List.mem_toFinset.1 hc)

theorem Founded.mem_definitions (h : Founded u r) : (owner, c) ∈ r.definitions ↔
    c ∈ u.compounds ∧ r.names[c.fullName]? = some owner := by
  have hforth : ∀ {owner}, (owner, c) ∈ r.definitions →
      c ∈ u.compounds ∧ r.names[c.fullName]? = some owner := by
    intro owner hdefinition
    obtain ⟨slot, hslot, hcompound⟩ := Registry.mem_definitions.1 hdefinition
    rcases h.slot_cases owner slot hslot with rfl | ⟨d, hd, rfl⟩
    · exact absurd rfl (ne_global_of_definition h.interned hdefinition)
    · obtain rfl : d = c := by simpa [Slot.compound?] using hcompound
      exact ⟨hd, h.names_fullName? owner _ (fullName?_eq_some.2 ⟨_, hslot, rfl⟩)⟩
  refine ⟨hforth, ?_⟩
  rintro ⟨hc, hname⟩
  obtain ⟨id, hid⟩ := h.definition c hc
  obtain rfl := Option.some.inj ((hforth hid).2.symm.trans hname)
  exact hid

/-! ## Type parameters -/

/-- The sites of the definitions. -/
def sites (r : Registry) : List Site :=
  ((r.definitions.mapM siteOf).run r).1

/-- The registry once the type parameters have slots. -/
def sited (r : Registry) : Registry :=
  ((r.definitions.mapM siteOf).run r).2

theorem sites_spec (r : Registry) : r.Grows r.sited ∧
    List.Forall₂ (fun d site => Site.Of r r.sited d.1 d.2 site) r.definitions r.sites :=
  Ensures.mapM r.definitions (fun _ h => ensures_siteOf h) stable_siteOf r .refl

/-- The slot of a type parameter of a definition. -/
def IsParameterOf (u : Corpus) (r : Registry) (slot : Slot) : Prop :=
  ∃ owner position c, slot.origin = .genericParameter owner position ∧
    (owner, c) ∈ r.definitions ∧ slot.fullName ∈ u.parameterKeys c

namespace Reading

theorem typeParameterName_eq (h : Reading u r) (raw : String) :
    r.typeParameterName raw = u.blank.typeParameterName raw := by
  unfold typeParameterName
  rw [h.parser_eq]
  rfl

theorem keeps_siteOf (h : Reading u r) (hc : (owner, c) ∈ r.definitions) :
    Keeps (GrowsBy (IsParameterOf u r) r) (siteOf (owner, c)) := by
  obtain ⟨slot, hslot, hcompound⟩ := Registry.mem_definitions.1 hc
  have hparameter : ∀ declaration ∈ c.templateParams.zipIdx,
      Keeps (GrowsBy (IsParameterOf u r) r) (typeParameter owner c.fullName declaration) := by
    intro declaration hdeclaration m hm
    have hname := (h.grows hm.grows).typeParameterName_eq declaration.1
    rw [run_typeParameter, hname]
    dsimp only
    split
    · exact hm
    · next hne =>
      split
      · exact hm
      · next hfresh =>
        have hgrows := Grows.parameter .refl _ (qualify_ne_empty c.fullName hne) hfresh owner
          declaration.2 ⟨slot, hm.grows.slot? hslot, by simp [hcompound]⟩
        refine hm.push hgrows ⟨owner, declaration.2, c, rfl, hc, ?_⟩
        unfold Corpus.parameterKeys
        refine List.mem_map_of_mem (List.mem_filter.2 ⟨List.mem_map_of_mem ?_, by simpa using hne⟩)
        exact List.fst_mem_of_mem_zipIdx hdeclaration
  unfold siteOf typeParameters
  exact ((Keeps.mapM _ hparameter).bind fun found => .pure _).bind fun generics => .pure _

theorem growsBy_sited (h : Reading u r) : GrowsBy (IsParameterOf u r) r r.sited :=
  Keeps.mapM r.definitions (fun _ hc => h.keeps_siteOf hc) r (.refl _ r)

end Reading

namespace Founded

/-- The site of a definition sees its type parameters. -/
theorem exists_site (h : Founded u r) (hc : c ∈ u.compounds) : ∃ owner site,
    r.names[c.fullName]? = some owner ∧ Site.Of r r.sited owner c site := by
  obtain ⟨owner, howner⟩ := h.definition c hc
  obtain ⟨site, -, hsite⟩ := exists_right_of_mem r.sites_spec.2 howner
  exact ⟨owner, site, (h.mem_definitions.1 howner).2, hsite⟩

/-- Once the type parameters have slots, exactly the known names do. -/
theorem names_sited (h : Founded u r) :
    (∃ id, r.sited.names[name]? = some id) ↔ name ∈ u.known := by
  have hgrows := r.sites_spec.1
  have hreading := h.toReading.grows hgrows
  rw [Corpus.mem_known]
  constructor
  · rintro ⟨id, hid⟩
    obtain ⟨slot, hslot, rfl⟩ := fullName?_eq_some.1 (hreading.fullName?_of_names hid)
    rcases h.growsBy_sited.slot_cases id slot hslot with hold | hparameter
    · rcases h.slot_cases id slot hold with rfl | ⟨c, hc, rfl⟩
      · left
        rw [h.global] at hold
        rw [← Option.some.inj hold]
      · exact .inr ⟨c, hc, .inl rfl⟩
    · obtain ⟨owner, position, c, -, hdefinition, hkey⟩ := hparameter
      exact .inr ⟨c, (h.mem_definitions.1 hdefinition).1, .inr hkey⟩
  · rintro (rfl | ⟨c, hc, rfl | hkey⟩)
    · exact ⟨_, hreading.names_empty⟩
    · obtain ⟨owner, -, howner, -⟩ := h.exists_site hc
      exact ⟨owner, hgrows.names howner⟩
    · obtain ⟨owner, site, -, hsite⟩ := h.exists_site hc
      obtain ⟨parameter, hparameter, rfl⟩ := List.mem_map.1 hkey
      have hmem : parameter ∈ site.generics.map (·.1) := by
        rw [hsite.generics.names, funext h.typeParameterName_eq]
        exact hparameter
      obtain ⟨generic, hgeneric, rfl⟩ := List.mem_map.1 hmem
      exact ⟨generic.2, hsite.generics.slots generic hgeneric⟩

end Founded

/-! ## Bound compounds -/

end Registry

/-- The members of a node. -/
theorem TypeNode.members?_getD (n : TypeNode) : n.members?.getD [] = n.variant.members := by
  unfold TypeNode.members?
  cases n.variant <;> rfl

namespace Site.BindsVariant

variable {base s : Registry} {site : Site} {c : Compound} {n : TypeNode}
  {bases derived : List TypeId}

/-- Composites and enumerations keep the bases that are bound. -/
theorem baseTypes_eq (h : site.BindsVariant base s c bases derived n.variant) :
    n.baseTypes?.getD [] = if c.kind.isComposite = true ∨ c.kind = .enum then bases else [] := by
  by_cases hkept : c.kind.isComposite = true ∨ c.kind = .enum
  · rw [if_pos hkept, TypeNode.baseTypes?]
    rcases hkept with hcomposite | henum
    · obtain ⟨kind, body, hv, -, hbases, -⟩ := h.composite hcomposite
      rw [hv, ← hbases]
      rfl
    · rw [h.enum henum]
      rfl
  · rw [if_neg hkept, TypeNode.baseTypes?]
    cases hv : n.variant with
    | composite kind body =>
      rw [hv] at h
      exact absurd (.inl (CompoundKind.isComposite_of_typeKind h.1)) hkept
    | enum values bases =>
      rw [hv] at h
      exact absurd (.inr h.1) hkept
    | _ => rfl

/-- Composites keep the derived types that are bound. -/
theorem derivedTypes_eq (h : site.BindsVariant base s c bases derived n.variant) :
    n.derivedTypes?.getD [] = if c.kind.isComposite = true then derived else [] := by
  by_cases hcomposite : c.kind.isComposite = true
  · rw [if_pos hcomposite, TypeNode.derivedTypes?]
    obtain ⟨kind, body, hv, -, -, hderived⟩ := h.composite hcomposite
    rw [hv, ← hderived]
    rfl
  · rw [if_neg hcomposite, TypeNode.derivedTypes?]
    cases hv : n.variant with
    | composite kind body =>
      rw [hv] at h
      exact absurd (CompoundKind.isComposite_of_typeKind h.1) hcomposite
    | _ => rfl

end Site.BindsVariant

open Registry (Answered)

/-- The node of a compound that is bound to what the turns of the compound mean, before it has got
its inverse edges. -/
structure Corpus.Binds (u : Corpus) (names : NameTable) (c : Compound) (site : Site)
    (n : TypeNode) : Prop where
  parent : ∃ parent, n.parent = some parent ∧ names[u.parentName c]? = some parent
  children : ∃ targets, Answered names (u.childAnswers c) targets ∧
    n.children = site.collect (targets.map (·.bind Site.childTarget))
  baseTypes : ∃ targets, Answered names (u.baseAnswers c) targets ∧ n.baseTypes?.getD [] =
    if c.kind.isComposite = true ∨ c.kind = .enum then site.collect targets else []
  derivedTypes : ∃ targets, Answered names (u.derivedAnswers c) targets ∧
    n.derivedTypes?.getD [] = if c.kind.isComposite = true then site.collect targets else []
  members : Answered names (u.typeAnswers c) ((n.members?.getD []).flatMap (·.levelTargets))

/-- A compound that is bound, with what it adds, to what its turns mean. -/
structure Corpus.Settles (u : Corpus) (base s : Registry) (site : Site) (c : Compound)
    (n : TypeNode) : Prop where
  bound : site.BindsCompound base s c n
  adds : ∀ key ∈ u.adds c, ∃ id, s.names[key]? = some id
  binds : u.Binds s.names c site n

theorem Corpus.stable_binds (u : Corpus) (c : Compound) (site : Site) :
    Stable fun s n => u.Binds s.names c site n := by
  intro r s n hs h
  obtain ⟨parent, hparent, hname⟩ := h.parent
  obtain ⟨children, hchildren, hn⟩ := h.children
  obtain ⟨bases, hbases, hn'⟩ := h.baseTypes
  obtain ⟨derived, hderived, hn''⟩ := h.derivedTypes
  exact ⟨⟨parent, hparent, hs.names hname⟩, ⟨children, hchildren.grows hs, hn⟩,
    ⟨bases, hbases.grows hs, hn'⟩, ⟨derived, hderived.grows hs, hn''⟩, h.members.grows hs⟩

theorem Corpus.stable_settles (u : Corpus) (base : Registry) (site : Site) (c : Compound) :
    Stable fun s n => u.Settles base s site c n := by
  intro r s n hs h
  refine ⟨site.stable_bindsCompound c r s n hs h.bound, fun key hkey => ?_,
    u.stable_binds c site r s n hs h.binds⟩
  obtain ⟨id, hid⟩ := h.adds key hkey
  exact ⟨id, hs.names hid⟩

namespace Registry

variable {u : Corpus} {r m s : Registry} {c : Compound} {id owner : TypeId} {name key : String}
  {site : Site} {n : TypeNode}

/-- What a compound adds, it has added once it is bound, and its node is bound to what its turns
mean. -/
theorem Settling.binds (h : Settling u c [] m) (hu : u.Independent) (hc : c ∈ u.compounds)
    (hne : c.fullName ≠ "") (hsite : site.Sees m c) (hid : m.names[c.fullName]? = some site.owner) :
    GrowsBy (IsAddedBy u c) m ((bindCompound site c).run m).2 ∧
      (∀ key ∈ u.adds c, ∃ id, ((bindCompound site c).run m).2.names[key]? = some id) ∧
      u.Binds ((bindCompound site c).run m).2.names c site ((bindCompound site c).run m).1 := by
  have hparent := h.names_of_seek? hu hc Corpus.parentTurn_mem (h.seek?_parentSearch hid)
  obtain ⟨hrun, hnode⟩ := hsite.run_bindCompound h.toReading hne .refl
  have hsearches₁ : u.searches c = [] ++ u.rawSearches c c.baseNames ++
      (u.rawSearches c c.derivedNames ++ u.childSearches c ++ u.typeSearches c) := by
    simp [Corpus.searches]
  have hsearches₂ : u.searches c = [] ++ u.rawSearches c c.baseNames ++
      u.rawSearches c c.derivedNames ++ (u.childSearches c ++ u.typeSearches c) := by
    simp [Corpus.searches]
  have hsearches₃ : u.searches c = u.searches c ++ [] := (List.append_nil _).symm
  obtain ⟨hgrows₁, hsettling₁, hbases⟩ := h.serveAll hu hc hsearches₁
  obtain ⟨hgrows₂, hsettling₂, hderived⟩ := hsettling₁.serveAll hu hc hsearches₂
  obtain ⟨hgrows₃, hsettling₃, hchildren⟩ := hsettling₂.serveAll hu hc rfl
  obtain ⟨hgrows₄, hsettling₄, htypes⟩ := hsettling₃.serveAll hu hc hsearches₃
  obtain ⟨hnparent, hnchildren, hvariant, hmembers⟩ := hnode _ rfl
  rw [hrun]
  have hgrows₃₄ := hgrows₃.trans hgrows₄
  have hgrows₂₄ := hgrows₂.trans hgrows₃₄
  have hgrows := hgrows₁.trans hgrows₂₄
  refine ⟨hgrows, fun key hkey => hsettling₄.own key hkey, ?_⟩
  refine ⟨⟨_, hnparent, hgrows.grows.names hparent⟩, ⟨_, hchildren.grows hgrows₄.grows, hnchildren⟩,
    ⟨_, hbases.grows hgrows₂₄.grows, hvariant.baseTypes_eq⟩,
    ⟨_, hderived.grows hgrows₃₄.grows, hvariant.derivedTypes_eq⟩, ?_⟩
  rw [TypeNode.members?_getD, hmembers]
  exact htypes

/-! ## All compounds -/

/-- What the compounds that are bound have added. -/
def IsAdded (u : Corpus) (done : List (Site × Compound)) (slot : Slot) : Prop :=
  ∃ entry ∈ done, IsAddedBy u entry.2 slot

/-- The definitions with their sites. -/
def entries (r : Registry) : List (Site × Compound) :=
  r.sites.zip (r.definitions.map (·.2))

theorem map_entries (r : Registry) : r.entries.map (·.2) = r.definitions.map (·.2) := by
  refine List.map_snd_zip ?_
  rw [List.length_map, r.sites_spec.2.length_eq]

/-- What is in a zip of two lists that are related. -/
theorem exists_of_mem_zip {α β γ : Type} {P : α × γ → β → Prop} {definitions : List (α × γ)}
    {sites : List β} {entry : β × γ} (h : List.Forall₂ P definitions sites)
    (hmem : entry ∈ sites.zip (definitions.map (·.2))) :
    ∃ d ∈ definitions, d.2 = entry.2 ∧ P d entry.1 := by
  induction h with
  | nil => simp at hmem
  | @cons d site ds sites hd _ ih =>
    rw [List.map_cons, List.zip_cons_cons, List.mem_cons] at hmem
    rcases hmem with rfl | hmem
    · exact ⟨d, by simp, rfl, hd⟩
    · obtain ⟨d, hd, hc, hsite⟩ := ih hmem
      exact ⟨d, by simp [hd], hc, hsite⟩

namespace Founded

/-- What is at a site is the definition that the site was made for. -/
theorem site_of_mem_entries (h : Founded u r) {entry : Site × Compound}
    (hentry : entry ∈ r.entries) : entry.2 ∈ u.compounds ∧ entry.1.Sees r.sited entry.2 ∧
      r.names[entry.2.fullName]? = some entry.1.owner := by
  obtain ⟨⟨owner, c⟩, hdefinition, rfl, hsite⟩ := exists_of_mem_zip r.sites_spec.2 hentry
  obtain ⟨hc, hname⟩ := h.mem_definitions.1 hdefinition
  exact ⟨hc, ⟨hsite.scope, hsite.generics.slots⟩, hsite.owner ▸ hname⟩

/-- While compounds are bound, the registry has what those have added that are bound. -/
theorem settling (h : Founded u r) {done : List (Site × Compound)}
    (hm : GrowsBy (IsAdded u done) r.sited m)
    (hdone : ∀ entry ∈ done, entry.2 ∈ u.compounds ∧ c ≠ entry.2) : Settling u c [] m := by
  have hsited := h.toReading.grows r.sites_spec.1
  have hreading := hsited.grows hm.grows
  refine ⟨hreading, ?_, ?_, by simp, ?_⟩
  · intro name hname
    obtain ⟨id, hid⟩ := h.names_sited.2 hname
    exact ⟨id, hm.grows.names hid⟩
  · intro name hname hne
    obtain ⟨id, hid⟩ := h.names_sited.2 hname
    obtain ⟨first, hfirst⟩ := hsited.exists_firstSpelling? hid hne
    have hknown := h.names_sited.1 (hsited.names_of_firstSpelling? hfirst)
    exact ⟨first, hknown, hm.grows.firstSpelling? hsited.toIndexed hfirst⟩
  · intro name id hid
    obtain ⟨slot, hslot, rfl⟩ := fullName?_eq_some.1 (hreading.fullName?_of_names hid)
    rcases hm.slot_cases id slot hslot with hold | ⟨entry, hentry, hadds, -⟩
    · have hfull := fullName?_eq_some.2 ⟨slot, hold, rfl⟩
      have hname := hsited.names_isSome id slot.fullName hfull
      exact .inl (h.names_sited.1 (Option.isSome_iff_exists.1 hname))
    · obtain ⟨hd, hne⟩ := hdone entry hentry
      exact .inr (.inr ⟨entry.2, hd, hne, hadds⟩)

/-- Each compound is bound to what its turns mean, whatever the others have added before. -/
theorem binds_of_done (h : Founded u r) (hu : u.Independent) {done rest : List (Site × Compound)}
    {entry : Site × Compound} (hentries : r.entries = done ++ entry :: rest)
    (hm : GrowsBy (IsAdded u done) r.sited m) :
    GrowsBy (IsAddedBy u entry.2) m ((bindCompound entry.1 entry.2).run m).2 ∧
      (∀ key ∈ u.adds entry.2,
        ∃ id, ((bindCompound entry.1 entry.2).run m).2.names[key]? = some id) ∧
      u.Binds ((bindCompound entry.1 entry.2).run m).2.names entry.2 entry.1
        ((bindCompound entry.1 entry.2).run m).1 := by
  have hentry : entry ∈ r.entries := by simp [hentries]
  obtain ⟨hc, hsite, hname⟩ := h.site_of_mem_entries hentry
  have hdone : ∀ other ∈ done, other.2 ∈ u.compounds ∧ entry.2 ≠ other.2 := by
    intro other hother
    refine ⟨(h.site_of_mem_entries (by simp [hentries, hother])).1, ?_⟩
    have hdistinct := h.distinct
    rw [← map_entries, hentries, List.map_append, List.map_cons, List.nodup_append] at hdistinct
    exact (hdistinct.2.2 _ (List.mem_map_of_mem hother) _ List.mem_cons_self).symm
  refine (h.settling hm hdone).binds hu hc (h.named _ hc) (hsite.grows hm.grows) ?_
  exact hm.grows.names (r.sites_spec.1.names hname)

/-- In the end each compound is bound to what its turns mean, and all other slots were there before
or have been added by one of them. -/
theorem bindsAll_settle (h : Founded u r) (hu : u.Independent) :
    GrowsBy (IsAdded u r.entries) r.sited r.settle ∧
      List.Forall₂ (fun entry n => u.Settles r.sited r.settle entry.1 entry.2 n) r.entries
        (bindAll.run r).1 := by
  have hrun : bindAll.run r =
      (r.entries.mapM fun entry => bindCompound entry.1 entry.2).run r.sited := rfl
  rw [settle, hrun]
  refine (mapM_done (I := fun done m => GrowsBy (IsAdded u done) r.sited m)
    (fun entry => u.stable_settles r.sited entry.1 entry.2) [] r.entries ?_ r.sited (.refl _ _)).2
  intro done entry rest hentries m hm
  obtain ⟨hgrows, hadds, hbinds⟩ := h.binds_of_done hu hentries hm
  obtain ⟨-, hcompound⟩ := entry.1.ensures_bindCompound entry.2 m hm.grows
  refine ⟨hgrows.grows, (hm.mono ?_).trans (hgrows.mono ?_), hcompound, hadds, hbinds⟩
  · rintro slot ⟨other, hother, hadded⟩
    exact ⟨other, List.mem_append_left _ hother, hadded⟩
  · exact fun slot hadded => ⟨entry, by simp, hadded⟩

end Founded

end Registry

end TypeAtlas
