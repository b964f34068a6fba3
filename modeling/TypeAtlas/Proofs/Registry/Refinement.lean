import TypeAtlas.Proofs.Registry.Naming

/-!
# Resolving as a refinement of interning

Resolving replaces names by positions and loses nothing. A slot keeps its position, its kind and its
name; the members of a definition stay in order, with all that is written of them; and each written
type becomes a tree of the same shape, in which each level that has a name has a target.

## Main definitions

* `TypeRef.Mirrors`, `BoundParameter.Mirrors`, `BoundMember.Mirrors` — a bound type, parameter and
  member mirror what is written.
* `Slot.Refines` — a node refines a slot.

The main statement is `Registry.refines_resolve`.
-/

namespace TypeAtlas

open Binding

/-! ## Mirrors -/

/-- A bound type mirrors a descriptor: it has the same levels, and a target at each level that has a
name. -/
inductive TypeRef.Mirrors : Descriptor → TypeRef → Prop
  | level {form : TypeForm} {written : List Descriptor} {target : Option TypeId}
      {bound : List TypeRef} (target_isSome : target.isSome ↔ form.fullName ≠ "")
      (arguments : List.Forall₂ Mirrors written bound) :
      Mirrors ⟨form, written⟩ ⟨⟨form, written⟩, target, bound⟩

/-- A bound parameter mirrors a written one. -/
structure BoundParameter.Mirrors (p : Parameter) (b : BoundParameter) : Prop where
  name : b.name = p.name
  content : b.content = p.content
  declaredType : TypeRef.Mirrors p.declaredType b.declaredType

/-- A bound member mirrors a written one. -/
structure BoundMember.Mirrors (m : Member) (b : BoundMember) : Prop where
  name : b.name = m.name
  kind : b.kind = m.kind
  isStatic : b.isStatic = m.isStatic
  content : b.content = m.content
  declaredType : TypeRef.Mirrors m.declaredType b.declaredType
  parameters : List.Forall₂ BoundParameter.Mirrors m.parameters b.parameters

/-- A node refines the slot at a position. -/
structure Slot.Refines (slot : Slot) (id : TypeId) (n : TypeNode) : Prop where
  id : n.id = id
  kind : n.kind = slot.kind
  fullName : n.fullName = slot.fullName
  members : ∀ c, slot.compound? = some c → c.kind.isComposite = true ∨ c.kind = .function →
    ∃ members, n.members? = some members ∧ List.Forall₂ BoundMember.Mirrors c.members members
  enumValues : ∀ c, slot.compound? = some c → c.kind = .enum → n.enumValues? = some c.enumValues

/-! ## What binding mirrors -/

namespace Site

variable {base s : Registry} {site : Site}

/-- A name that is bound at a site has a target iff it is not empty. -/
theorem isSome_of_ran_bindName {name : String} {target : Option TypeId}
    (h : Ran base s (site.bindName name) target) : target.isSome ↔ name ≠ "" := by
  obtain ⟨moment, -, -, rfl⟩ := h
  rw [run_bindName]
  by_cases hname : name = ""
  · simp [hname]
  · rw [if_neg hname]
    cases site.generics.lookup name with
    | some id => simp [hname]
    | none => cases site.findEnclosing? moment name <;> simp [hname]

mutual

/-- A type all of whose levels are bound mirrors its descriptor. -/
theorem mirrors_of_bindsLevel (t : TypeRef)
    (h : ∀ level ∈ t.levels, site.BindsLevel base s level) : TypeRef.Mirrors t.descriptor t := by
  match t with
  | ⟨⟨form, written⟩, target, bound⟩ =>
    rw [TypeRef.levels] at h
    obtain ⟨hwritten, htarget⟩ := h _ List.mem_cons_self
    have harguments := forall₂_mirrors_of_bindsLevel bound fun level hlevel =>
      h level (List.mem_cons_of_mem _ hlevel)
    dsimp only at hwritten
    rw [hwritten] at harguments
    exact .level (isSome_of_ran_bindName htarget) harguments

theorem forall₂_mirrors_of_bindsLevel (ts : List TypeRef)
    (h : ∀ level ∈ TypeRef.levelsOf ts, site.BindsLevel base s level) :
    List.Forall₂ TypeRef.Mirrors (ts.map (·.descriptor)) ts := by
  match ts with
  | [] => exact .nil
  | t :: ts =>
    rw [TypeRef.levelsOf] at h
    exact .cons
      (mirrors_of_bindsLevel t fun level hlevel => h level (List.mem_append_left _ hlevel))
      (forall₂_mirrors_of_bindsLevel ts fun level hlevel =>
        h level (List.mem_append_right _ hlevel))

end

theorem Binds.mirrors {d : Descriptor} {t : TypeRef} (h : site.Binds base s d t) :
    TypeRef.Mirrors d t := by
  obtain ⟨rfl, hlevels⟩ := h
  exact mirrors_of_bindsLevel t hlevels

theorem BindsParameter.mirrors {p : Parameter} {b : BoundParameter}
    (h : site.BindsParameter base s p b) : BoundParameter.Mirrors p b :=
  ⟨h.name, h.content, h.declaredType.mirrors⟩

theorem BindsMember.mirrors {m : Member} {b : BoundMember} (h : site.BindsMember base s m b) :
    BoundMember.Mirrors m b where
  name := h.name
  kind := h.kind
  isStatic := h.isStatic
  content := h.content
  declaredType := h.declaredType.mirrors
  parameters := h.parameters.imp fun _ _ hp => hp.mirrors

theorem BindsMembers.mirrors {ms : List Member} {bs : List BoundMember}
    (h : site.BindsMembers base s ms bs) : List.Forall₂ BoundMember.Mirrors ms bs :=
  h.imp fun _ _ hm => hm.mirrors

end Site

/-! ## Nodes and slots -/

namespace Registry

variable {r : Registry} {id : TypeId} {slot : Slot} {c : Compound} {n : TypeNode}

/-- The members of a type or a function that is bound mirror those of its compound. -/
theorem BindsDefinition.members {owner : TypeId} {s : Registry}
    (h : r.BindsDefinition s (owner, c) n) (hc : c.kind.isComposite = true ∨ c.kind = .function) :
    ∃ members, n.members? = some members ∧ List.Forall₂ BoundMember.Mirrors c.members members := by
  obtain ⟨site, -, hbinds⟩ := h
  obtain ⟨bases, derived, -, -, hvariant⟩ := hbinds.variant
  rcases hc with hcomposite | hfunction
  · obtain ⟨kind, body, hbody, hmembers, -, -⟩ := hvariant.composite hcomposite
    exact ⟨body.members, by rw [TypeNode.members?, hbody], hmembers.mirrors⟩
  · obtain ⟨overloads, hoverloads, hmembers⟩ := hvariant.function hfunction
    exact ⟨overloads, by rw [TypeNode.members?, hoverloads], hmembers.mirrors⟩

/-- An enumeration that is bound has the values of its compound. -/
theorem BindsDefinition.enumValues {owner : TypeId} {s : Registry}
    (h : r.BindsDefinition s (owner, c) n) (hc : c.kind = .enum) :
    n.enumValues? = some c.enumValues := by
  obtain ⟨site, -, hbinds⟩ := h
  obtain ⟨bases, derived, -, -, hvariant⟩ := hbinds.variant
  rw [TypeNode.enumValues?, hvariant.enum hc]

/-- Before the inverse edges are added, the node of a definition refines its slot. -/
theorem refines_of_draft (h : r.Labelled) (hslot : r.slot? id = some slot)
    (hn : r.draft[id.index]? = some n) : slot.Refines id n where
  id := draft_id hn
  kind := draft_kind (r.grows_settle.slot? hslot) hn
  fullName := by
    have hname := fullName?_of_draft h hn
    rw [Registry.fullName?, r.grows_settle.slot? hslot, Option.map_some, Option.some.injEq] at hname
    exact hname.symm
  members := by
    intro c hc hkind
    obtain ⟨n', hn', hbinds⟩ := draft_definition (mem_definitions.2 ⟨slot, hslot, hc⟩)
    obtain rfl := Option.some.inj (hn.symm.trans hn')
    exact hbinds.members hkind
  enumValues := by
    intro c hc hkind
    obtain ⟨n', hn', hbinds⟩ := draft_definition (mem_definitions.2 ⟨slot, hslot, hc⟩)
    obtain rfl := Option.some.inj (hn.symm.trans hn')
    exact hbinds.enumValues hkind

/-- The inverse edges are no part of what a node refines. -/
theorem refines_linked {listers namers heirs : List TypeId}
    (h : slot.Refines id n) : slot.Refines id (n.linked listers namers heirs) where
  id := by rw [TypeNode.linked_id, h.id]
  kind := by rw [TypeNode.linked_kind, h.kind]
  fullName := by rw [TypeNode.linked_fullName, h.fullName]
  members := by
    rw [TypeNode.linked_members?]
    exact h.members
  enumValues := by
    rw [TypeNode.linked_enumValues?]
    exact h.enumValues

/-- Whatever the universe, the settings, the parser and the order of references and definitions,
each slot of a registry is refined by the node at its position if the definitions have no blanks
around their names. -/
theorem refines_resolve (origin : Universe) (settings : RegistrySettings)
    (parser : DeclarationParser) (acts : List Interning)
    (htrimmed : ∀ c, .define c ∈ acts → Text.trimmed c.fullName = c.fullName) (id : TypeId)
    (slot : Slot)
    (hslot : ((Registry.empty origin settings parser).internAll acts).slot? id = some slot) :
    ∃ n, ((Registry.empty origin settings parser).internAll acts).resolve.1.get? id = some n ∧
      slot.Refines id n := by
  have hlabelled := labelled_internAll origin settings parser acts htrimmed
  generalize (Registry.empty origin settings parser).internAll acts = r at hslot hlabelled ⊢
  obtain ⟨n, hn, -, -⟩ := get?_resolve_of_slot (r.grows_settle.slot? hslot)
  refine ⟨n, hn, ?_⟩
  rw [get?_resolve] at hn
  obtain ⟨d, hd, rfl⟩ := Option.map_eq_some_iff.1 hn
  exact refines_linked (refines_of_draft hlabelled hslot hd)

/-- A class `A` with a method of the type `List<Item>`, defined behind a reference to `Item`. -/
theorem refines_resolve_method :
    let settings := (Settings.ofPreset .standard).registry
    let type := DeclarationParser.standard.parse "List<Item>"
    let m : Member := { name := "f", kind := .method, declaredType := type }
    let c := { Compound.empty "a" .native "A" .classType with members := [m] }
    let acts := [.refer "Item", .define c]
    let r := (Registry.empty .native settings).internAll acts
    (∀ c, .define c ∈ acts → Text.trimmed c.fullName = c.fullName) ∧
      ∃ slot n b, r.slot? ⟨2⟩ = some slot ∧ slot.compound? = some c ∧
        r.resolve.1.get? ⟨2⟩ = some n ∧ n.kind = .classType ∧ n.members? = some [b] ∧
        BoundMember.Mirrors m b := by
  intro settings type m c acts r
  have htrimmed : ∀ c, .define c ∈ acts → Text.trimmed c.fullName = c.fullName := by
    intro d hd
    obtain rfl : d = c := by simpa [acts] using hd
    decide +kernel
  have hcompound : (r.slot? ⟨2⟩).bind (·.compound?) = some c := by decide +kernel
  obtain ⟨slot, hslot, hc⟩ := Option.bind_eq_some_iff.1 hcompound
  obtain ⟨n, hn, hrefines⟩ :=
    refines_resolve .native settings .standard acts htrimmed ⟨2⟩ slot hslot
  have hkind : (r.slot? ⟨2⟩).map (·.kind) = some .classType := by decide +kernel
  rw [hslot, Option.map_some, Option.some.injEq] at hkind
  obtain ⟨_, hmembers, hmirrors⟩ := hrefines.members c hc (.inl rfl)
  cases hmirrors with
  | cons hm hnil =>
    cases hnil
    exact ⟨htrimmed, slot, n, _, hslot, hc, hn, hrefines.kind.trans hkind, hmembers, hm⟩

end Registry

end TypeAtlas
