import TypeAtlas.Proofs.Registry.Resolution

/-!
# Facades that hide definitions

A reference may mean a name in each of the scopes around it. It is bound to the innermost of these
names that is known when it is bound, and facades are known as well as definitions are. A facade
that another reference has left in an inner scope therefore hides a definition in an outer one, and
nothing else keeps a reference from the innermost definition that it may mean.

## Main definitions

* `Site.candidates` — the names that a reference may mean, innermost first.
* `Registry.Defines` — a name of a definition of a known kind.
* `Site.Leads` — where a reference leads to if some definition has one of these names.
* `Registry.LeadsAll` — where all references in a compound lead to.

The main statement is `Registry.leadsAll_resolve`.
-/

namespace TypeAtlas

open Binding

namespace Registry

variable {r moment : Registry} {id : TypeId} {name : String}

/-- The name belongs to a definition of a known kind. -/
def Defines (r : Registry) (name : String) : Prop :=
  ∃ owner c, (owner, c) ∈ r.definitions ∧ r.fullName? owner = some name ∧ c.kind.isKnown = true

/-- The name leads to a slot that becomes a facade. -/
def IsFacadeName (r : Registry) (name : String) : Prop :=
  ∃ id slot, r.names[name]? = some id ∧ r.slot? id = some slot ∧ slot.kind = .facade

theorem typeKind_ne_facade {kind : CompoundKind} (h : kind.isKnown = true) :
    kind.typeKind ≠ .facade := by
  cases kind <;> simp_all [CompoundKind.isKnown, CompoundKind.typeKind]

/-- A definition is no facade. -/
theorem Defines.not_isFacadeName (hdefines : r.Defines name) (h : r.Interned)
    (hmoment : r.Grows moment) : ¬ moment.IsFacadeName name := by
  rintro ⟨id, slot, hid, hslot, hkind⟩
  obtain ⟨owner, c, hc, hname, hknown⟩ := hdefines
  obtain rfl := Option.some.inj (hid.symm.trans (hmoment.names (h.names_of_definition hc hname)))
  obtain ⟨slot', hslot', hcompound⟩ := mem_definitions.1 hc
  obtain rfl := Option.some.inj (hslot.symm.trans (hmoment.slot? hslot'))
  cases horigin : slot.origin with
  | compound known =>
    obtain rfl : known = c := by simpa [Slot.compound?, horigin] using hcompound
    exact typeKind_ne_facade hknown (by simpa [Slot.kind, horigin] using hkind)
  | _ => simp [Slot.compound?, horigin] at hcompound

end Registry

namespace Site

variable {r moment : Registry} {id : TypeId} {name : String}

/-- The names that a reference may mean: in the scopes around it, innermost first, and then as it is
written. -/
def candidates (site : Site) (name : String) : List String :=
  site.scopes.map (Name.qualify · name) ++ [name]

/-- What some definition has the name of is bound to the innermost candidate that is known, and no
slot is added. -/
theorem run_bindName_of_defines (site : Site) (h : r.Interned) (hmoment : r.Grows moment)
    (hname : name ≠ "") (hgeneric : name ∉ site.generics.map (·.1))
    (hdefines : ∃ candidate ∈ site.candidates name, r.Defines candidate) :
    ∃ id, (site.bindName name).run moment = (some id, moment) ∧
      (site.candidates name).findSome? (fun candidate : String => moment.names[candidate]?) =
        some id := by
  have hscopes : site.findEnclosing? moment name =
      (site.scopes.map (Name.qualify · name)).findSome?
        fun candidate : String => moment.names[candidate]? := by
    rw [findEnclosing?, List.findSome?_map]
    rfl
  simp only [run_bindName, if_neg hname, site.lookup_generics hgeneric, candidates,
    List.findSome?_append, ← hscopes]
  cases hfind : site.findEnclosing? moment name with
  | some id => exact ⟨id, rfl, rfl⟩
  | none =>
    -- No scope has the name, so that the definition has it as it is written.
    obtain ⟨candidate, hmem, owner, c, hc, hfull, -⟩ := hdefines
    have hknown := hmoment.names (h.names_of_definition hc hfull)
    obtain rfl : candidate = name := by
      rcases List.mem_append.1 hmem with hmem | hmem
      · rw [hscopes, List.findSome?_eq_none_iff] at hfind
        exact absurd (hfind candidate hmem) (by simp [hknown])
      · simpa using hmem
    have hfound := hmoment.lookup? h hname (h.names_of_definition hc hfull)
    refine ⟨owner, ?_, ?_⟩
    · simp [Registry.getOrCreate_of_lookup? hfound]
    · simp [hknown]

/-- Where a reference leads to that is bound at a moment: to the innermost of its candidates that is
known by then. It is a facade if and only if the name is that of a facade, and this hides the
definitions of all outer candidates. -/
structure LeadsAt (r : Registry) (site : Site) (name : String) (moment : Registry)
    (inner : List String) (found : String) (outer : List String) (n : TypeNode) : Prop where
  after : r.Grows moment
  before : moment.Grows r.settle
  candidates : site.candidates name = inner ++ found :: outer
  unknown : ∀ candidate ∈ inner, moment.names[candidate]? = none
  undefined : ∀ candidate ∈ inner, ¬ r.Defines candidate
  run : (site.bindName name).run moment = (some n.id, moment)
  target : r.resolve.1.names[found]? = some n.id
  node : r.resolve.1.get? n.id = some n
  facade : n.isFacade = true ↔ moment.IsFacadeName found
  hidden : n.isFacade = true → ¬ r.Defines found

/-- Where a reference leads to that may mean a name of some definition. -/
def Leads (r : Registry) (site : Site) (name : String) (target : Option TypeId) : Prop :=
  name ≠ "" → name ∉ site.generics.map (·.1) →
    (∃ candidate ∈ site.candidates name, r.Defines candidate) →
    ∃ moment inner found outer n, target = some n.id ∧
      site.LeadsAt r name moment inner found outer n

theorem leads_of_ran (site : Site) (h : r.Interned) {target : Option TypeId}
    (hran : Ran r r.settle (site.bindName name) target) : site.Leads r name target := by
  intro hname hgeneric hdefines
  obtain ⟨moment, hafter, hbefore, htarget⟩ := hran
  obtain ⟨id, hrun, hfirst⟩ := site.run_bindName_of_defines h hafter hname hgeneric hdefines
  rw [hrun] at hbefore htarget
  obtain ⟨inner, found, outer, hcandidates, hfound, hunknown⟩ :=
    List.findSome?_eq_some_iff.1 hfirst
  have hindexed := hafter.indexed h.toIndexed
  obtain ⟨slot, hslot, -⟩ := Registry.fullName?_eq_some.1 (hindexed.fullName?_of_names hfound)
  obtain ⟨n, hn, rfl, hkind⟩ := Registry.get?_resolve_of_slot (hbefore.slot? hslot)
  have hfacade : n.isFacade = true ↔ moment.IsFacadeName found := by
    rw [TypeNode.isFacade, hkind, beq_iff_eq]
    constructor
    · exact fun hslotKind => ⟨n.id, slot, hfound, hslot, hslotKind⟩
    · rintro ⟨id', slot', hid', hslot', hslotKind⟩
      obtain rfl := Option.some.inj (hid'.symm.trans hfound)
      obtain rfl := Option.some.inj (hslot'.symm.trans hslot)
      exact hslotKind
  exact ⟨moment, inner, found, outer, n, htarget.symm, {
    after := hafter
    before := hbefore
    candidates := hcandidates
    unknown := hunknown
    undefined := by
      rintro candidate hmem ⟨owner, c, hc, hfull, -⟩
      have := hafter.names (h.names_of_definition hc hfull)
      simp [hunknown candidate hmem] at this
    run := hrun
    target := hbefore.names hfound
    node := hn
    facade := hfacade
    hidden := fun hisFacade hfoundDefined =>
      hfoundDefined.not_isFacadeName h hafter (hfacade.1 hisFacade) }⟩

/-! ## Types at every depth -/

/-- Where the names of a written type lead to, at every depth. -/
def LeadsType (r : Registry) (site : Site) (d : Descriptor) (t : TypeRef) : Prop :=
  t.descriptor = d ∧ ∀ level ∈ t.levels,
    level.arguments.map (·.descriptor) = level.descriptor.arguments ∧
      site.Leads r level.descriptor.fullName level.target

/-- Where the names in a member lead to. -/
def LeadsMember (r : Registry) (site : Site) (m : Member) (b : BoundMember) : Prop :=
  site.LeadsType r m.declaredType b.declaredType ∧
    List.Forall₂ (fun p bound => site.LeadsType r p.declaredType bound.declaredType)
      m.parameters b.parameters

theorem leadsType_of_binds (site : Site) (h : r.Interned) {d : Descriptor} {t : TypeRef}
    (ht : site.Binds r r.settle d t) : site.LeadsType r d t :=
  ⟨ht.1, fun level hlevel =>
    ⟨(ht.2 level hlevel).1, site.leads_of_ran h (ht.2 level hlevel).2⟩⟩

theorem leadsMember_of_binds (site : Site) (h : r.Interned) {m : Member} {b : BoundMember}
    (hb : site.BindsMember r r.settle m b) : site.LeadsMember r m b :=
  ⟨site.leadsType_of_binds h hb.declaredType,
    hb.parameters.imp fun _ _ hp => site.leadsType_of_binds h hp.declaredType⟩

/-- Where the names of a list of written types lead to. -/
def LeadsNames (r : Registry) (site : Site) (rawNames : List String)
    (targets : List (Option TypeId)) : Prop :=
  List.Forall₂ (fun raw target => site.Leads r (r.parser.parse raw).fullName target)
    rawNames targets

theorem leadsNames_of_binds (site : Site) (h : r.Interned) {rawNames : List String}
    {targets : List (Option TypeId)} (ht : site.BindsNames r r.settle rawNames targets) :
    site.LeadsNames r rawNames targets :=
  ht.imp fun _ _ hran => site.leads_of_ran h hran

end Site

/-! ## Compounds -/

namespace Registry

variable {r : Registry} {owner : TypeId} {c : Compound}

/-- Where all references in a compound lead to. What becomes of the compound keeps the targets of
its bases and its derived types without repetition and without itself, and behind the derived types
those that name it as their base. -/
structure LeadsAll (r : Registry) (site : Site) (c : Compound) (n : TypeNode) : Prop where
  bases : c.kind.isComposite = true ∨ c.kind = .enum → ∃ targets,
    site.LeadsNames r c.baseNames targets ∧ n.baseTypes? = some (site.collect targets)
  derived : c.kind.isComposite = true → ∃ targets derived,
    site.LeadsNames r c.derivedNames targets ∧ n.derivedTypes? = some derived ∧
      site.collect targets <+: derived
  members : c.kind.isComposite = true ∨ c.kind = .function → ∃ members,
    n.members? = some members ∧ List.Forall₂ (site.LeadsMember r) c.members members

/-- The site of a compound, as far as its references can see. -/
structure SiteOf (r : Registry) (owner : TypeId) (c : Compound) (site : Site) : Prop where
  owner : site.owner = owner
  scope : site.scope = c.fullName
  generics : site.generics.map (·.1) =
    (c.templateParams.map r.typeParameterName).filter (· != "")

theorem leadsAll_of_binds (h : r.Interned) {site : Site} {n : TypeNode}
    {listers namers heirs : List TypeId} (hn : site.BindsCompound r r.settle c n) :
    r.LeadsAll site c (n.linked listers namers heirs) := by
  obtain ⟨bases, derived, hbases, hderived, hvariant⟩ := hn.variant
  refine ⟨fun hkind => ?_, fun hkind => ?_, fun hkind => ?_⟩
  · refine ⟨bases, site.leadsNames_of_binds h hbases, ?_⟩
    rw [TypeNode.linked_baseTypes?, TypeNode.baseTypes?]
    rcases hkind with hkind | hkind
    · obtain ⟨kind, body, hv, -, hbody, -⟩ := hvariant.composite hkind
      rw [hv, ← hbody]
    · rw [hvariant.enum hkind]
  · obtain ⟨kind, body, hv, -, -, hbody⟩ := hvariant.composite hkind
    refine ⟨derived, Linking.appendNew body.derivedTypes heirs, site.leadsNames_of_binds h hderived,
      ?_, ?_⟩
    · simp [TypeNode.derivedTypes?, TypeNode.linked, hv, TypeVariant.mapComposite]
    · rw [hbody]
      exact Linking.prefix_appendNew _ _
  · rw [TypeNode.linked_members?, TypeNode.members?]
    rcases hkind with hkind | hkind
    · obtain ⟨kind, body, hv, hmembers, -⟩ := hvariant.composite hkind
      rw [hv]
      exact ⟨_, rfl, hmembers.imp fun _ _ hm => site.leadsMember_of_binds h hm⟩
    · obtain ⟨overloads, hv, hmembers⟩ := hvariant.function hkind
      rw [hv]
      exact ⟨_, rfl, hmembers.imp fun _ _ hm => site.leadsMember_of_binds h hm⟩

/-- In the graph of a universe that is filled by references and definitions in any order, each
reference in each compound leads to the innermost name it may mean that is known when it is bound,
if a definition has one of these names. -/
theorem leadsAll_resolve (origin : Universe) (settings : RegistrySettings)
    (parser : DeclarationParser) (acts : List Interning) (r : Registry)
    (hr : r = (Registry.empty origin settings parser).internAll acts)
    (hc : (owner, c) ∈ r.definitions) :
    ∃ site n, r.SiteOf owner c site ∧ r.resolve.1.get? owner = some n ∧ r.LeadsAll site c n := by
  have h : r.Interned := hr ▸ (Interned.empty origin settings parser).internAll acts
  obtain ⟨n, hn, site, hsite, hbinds⟩ := draft_definition hc
  have hnode := r.get?_resolve owner
  rw [hn, Option.map_some] at hnode
  exact ⟨site, _, ⟨hsite.owner, hsite.scope, hsite.generics.names⟩, hnode,
    leadsAll_of_binds h hbinds⟩

/-- A class in an inner scope whose base is in an outer one. -/
def innerUser : Compound :=
  { Compound.empty "u" .native "A.B.U" .classType with baseNames := ["X"] }

/-- The base of the first class becomes a facade in the scope of the third one, whose own base is
the second class. -/
def shadowed : Registry :=
  (Registry.empty .native (.ofPreset .standard) {}).internAll
    [.define { Compound.empty "p" .native "P" .classType with baseNames := ["A.B.X"] },
      .define (Compound.empty "x" .native "A.X" .classType),
      .define innerUser]

/-- The facade hides the class. -/
theorem leadsAll_resolve_shadowed :
    (⟨3⟩, innerUser) ∈ shadowed.definitions ∧ shadowed.Defines "A.X" ∧
      (∃ site n, shadowed.SiteOf ⟨3⟩ innerUser site ∧ shadowed.resolve.1.get? ⟨3⟩ = some n ∧
        shadowed.LeadsAll site innerUser n) ∧
      (shadowed.resolve.1.get? ⟨3⟩).bind (·.baseTypes?) = some [⟨4⟩] ∧
      (shadowed.resolve.1.get? ⟨4⟩).map (fun n => (n.fullName, n.isFacade)) =
        some ("A.B.X", true) := by
  have hmem : (⟨3⟩, innerUser) ∈ shadowed.definitions := by decide +kernel
  have hclass : (⟨2⟩, Compound.empty "x" .native "A.X" .classType) ∈ shadowed.definitions := by
    decide +kernel
  refine ⟨hmem, ⟨⟨2⟩, _, hclass, ?_, rfl⟩, leadsAll_resolve _ _ _ _ shadowed rfl hmem, ?_, ?_⟩
  · decide +kernel
  · decide +kernel
  · decide +kernel

end Registry

end TypeAtlas
