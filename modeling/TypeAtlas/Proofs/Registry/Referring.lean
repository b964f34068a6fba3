import TypeAtlas.Proofs.Registry.Resolution

/-!
# References to a known name

A reference to a name that has a slot is bound to this slot, unless a scope around the reference has
the name as well. This holds for the bases, the members and the parameters of a class alike.

## Main definitions

* `TypeGraph.InSight` — a name that no scope around a node hides.
* `Compound.RefersTo`, `Member.RefersTo`, `Parameter.RefersTo` — all references to a name are bound
  to a node.

The main statement is `Registry.refersTo_resolve`.
-/

namespace TypeAtlas

open Binding

/-- Neither a node nor a scope around it has the name inside it. -/
def TypeGraph.InSight (g : TypeGraph) (n : TypeNode) (name : String) : Prop :=
  ∀ scope ∈ n.fullName :: Name.enclosing n.fullName, g.names[Name.qualify scope name]? = none

theorem TypeRef.mem_levels (t : TypeRef) : t ∈ t.levels := by
  cases t
  exact List.mem_cons_self

/-! ## Types -/

namespace Site

variable {r : Registry} {id : TypeId} {name : String} {target : Option TypeId}

/-- Nothing at a site hides a name: no scope around it has the name, and each type parameter has a
slot inside the scope. -/
structure Unhidden (r : Registry) (site : Site) (name : String) : Prop where
  scopes : ∀ scope ∈ site.scope :: Name.enclosing site.scope,
    r.settle.names[Name.qualify scope name]? = none
  generics : ∀ generic ∈ site.generics,
    r.settle.names[Name.qualify site.scope generic.1]? = some generic.2

theorem Unhidden.not_mem_generics {site : Site} (hclear : site.Unhidden r name) :
    name ∉ site.generics.map (·.1) := by
  intro hmem
  obtain ⟨generic, hgeneric, rfl⟩ := List.mem_map.1 hmem
  have hnone := hclear.scopes site.scope List.mem_cons_self
  rw [hclear.generics generic hgeneric] at hnone
  contradiction

theorem Unhidden.findEnclosing? {site : Site} {moment : Registry} (hclear : site.Unhidden r name)
    (hmoment : moment.Grows r.settle) : site.findEnclosing? moment name = none := by
  rw [Site.findEnclosing?, List.findSome?_eq_none_iff]
  intro scope hscope
  have hmem : scope ∈ site.scope :: Name.enclosing site.scope := by
    unfold Site.scopes at hscope
    split at hscope
    · simp at hscope
    · exact hscope
  rw [Option.eq_none_iff_forall_ne_some]
  intro id hid
  have hnone := hclear.scopes scope hmem
  rw [hmoment.names hid] at hnone
  contradiction

/-- A reference to a name that has a slot is bound to it, whenever it is bound. -/
theorem target_of_ran {site : Site} (h : r.Interned) (hname : name ≠ "")
    (hid : r.names[name]? = some id) (hclear : site.Unhidden r name)
    (hran : Ran r r.settle (site.bindName name) target) : target = some id := by
  obtain ⟨moment, hafter, hbefore, htarget⟩ := hran
  have hmoment : moment.Grows r.settle :=
    (site.growing_bindName name moment hafter).trans hbefore
  rw [run_bindName, if_neg hname, site.lookup_generics hclear.not_mem_generics] at htarget
  dsimp only at htarget
  rw [hclear.findEnclosing? hmoment,
    Registry.getOrCreate_of_lookup? (hafter.lookup? h hname hid)] at htarget
  exact htarget.symm

theorem target_of_binds {site : Site} {d : Descriptor} {t : TypeRef} (h : r.Interned)
    (hname : name ≠ "") (hid : r.names[name]? = some id) (hclear : site.Unhidden r name)
    (hbinds : site.Binds r r.settle d t) (hd : d.fullName = name) : t.target = some id := by
  obtain ⟨rfl, hlevels⟩ := hbinds
  subst hd
  exact target_of_ran h hname hid hclear (hlevels t t.mem_levels).2

end Site

/-! ## Members -/

/-- If the type of a parameter has a name, it is bound to a node. -/
structure Parameter.RefersTo (key : String) (id : TypeId) (p : Parameter) (b : BoundParameter) :
    Prop where
  name : b.name = p.name
  target : p.declaredType.fullName = key → b.declaredType.target = some id

/-- The type and the parameters of a member are bound to a node where they have a name. -/
structure Member.RefersTo (key : String) (id : TypeId) (m : Member) (b : BoundMember) : Prop where
  name : b.name = m.name
  kind : b.kind = m.kind
  target : m.declaredType.fullName = key → b.declaredType.target = some id
  parameters : List.Forall₂ (Parameter.RefersTo key id) m.parameters b.parameters

/-- All references of a class, a struct or an interface that have a name are bound to a node. A type
is no base of itself. -/
structure Compound.RefersTo (parser : DeclarationParser) (key : String) (id : TypeId)
    (c : Compound) (n : TypeNode) : Prop where
  bases : (∃ raw ∈ c.baseNames, (parser.parse raw).fullName = key) → id ≠ n.id →
    ∃ bases, n.baseTypes? = some bases ∧ id ∈ bases
  members : ∃ members, n.members? = some members ∧
    List.Forall₂ (Member.RefersTo key id) c.members members

namespace Registry

variable {r : Registry} {id owner : TypeId} {name : String} {c : Compound}

theorem refersTo_of_bindsMember {site : Site} {m : Member} {b : BoundMember} (h : r.Interned)
    (hname : name ≠ "") (hid : r.names[name]? = some id) (hclear : site.Unhidden r name)
    (hbinds : site.BindsMember r r.settle m b) : m.RefersTo name id b where
  name := hbinds.name
  kind := hbinds.kind
  target hd := Site.target_of_binds h hname hid hclear hbinds.declaredType hd
  parameters := hbinds.parameters.imp fun _ _ hp => {
    name := hp.name
    target := fun hd => Site.target_of_binds h hname hid hclear hp.declaredType hd }

/-- In a resolved universe, each reference to a known name that is in sight leads to its node. -/
theorem refersTo_resolve (h : r.Interned) (hname : name ≠ "") (hid : r.names[name]? = some id)
    (hc : (owner, c) ∈ r.definitions) (hcomposite : c.kind.isComposite = true) :
    ∃ n, r.resolve.1.get? owner = some n ∧ n.id = owner ∧ n.fullName = c.fullName ∧
      (r.resolve.1.InSight n name → c.RefersTo r.parser name id n) := by
  obtain ⟨n, hn, site, hsite, hbinds⟩ := draft_definition hc
  refine ⟨_, get?_resolve_eq_some.2 ⟨_, hn, rfl⟩, ?_, ?_, ?_⟩
  · rw [TypeNode.linked_id, hbinds.id, hsite.owner]
  · rw [TypeNode.linked_fullName, hbinds.fullName]
  intro hsight
  have hclear : site.Unhidden r name := by
    constructor
    · unfold TypeGraph.InSight at hsight
      rw [TypeNode.linked_fullName, hbinds.fullName, names_resolve] at hsight
      rw [hsite.scope]
      exact hsight
    · rw [hsite.scope]
      exact hsite.generics.slots
  obtain ⟨bases, derived, hbases, -, hvariant⟩ := hbinds.variant
  obtain ⟨kind, body, hv, hmembers, hbody, -⟩ := hvariant.composite hcomposite
  constructor
  · rintro ⟨raw, hraw, hfull⟩ hne
    rw [TypeNode.linked_id, hbinds.id] at hne
    refine ⟨site.collect bases, ?_, ?_⟩
    · rw [TypeNode.linked_baseTypes?, TypeNode.baseTypes?, hv, ← hbody]
    · obtain ⟨target, htarget, hran⟩ := exists_right_of_mem hbases hraw
      rw [hfull] at hran
      obtain rfl := Site.target_of_ran h hname hid hclear hran
      exact site.mem_collect.2 ⟨htarget, hne⟩
  · refine ⟨body.members, ?_, ?_⟩
    · rw [TypeNode.linked_members?, TypeNode.members?, hv]
    · exact hmembers.imp fun m b hm => refersTo_of_bindsMember h hname hid hclear hm

end Registry

end TypeAtlas
