import TypeAtlas.Proofs.Compound.Canonical
import TypeAtlas.Proofs.Declaration.Bare
import TypeAtlas.Proofs.Name.Scopes
import TypeAtlas.Proofs.Registry.Grounding
import TypeAtlas.Proofs.Registry.Naming
import TypeAtlas.Proofs.Registry.Settling
import TypeAtlas.Proofs.Registry.Shadowing

/-!
# Built-in names

A built-in name is looked for like any other name before it becomes a primitive type: among the type
parameters of the compound, in the scopes around it, and under the name itself. What is found there
captures it. A type parameter has the last word of its declaration for a name, even where the
declaration is a type without a name, and it captures this word all over the compound.

## Main definitions

* `TypeNode.IsPrimitive` — the primitive type with a name.
* `Site.Captured`, `Site.Leftover` — what keeps a built-in name from its primitive type, and what
  does so without any definition.
* `Site.BuiltinAt` — what a built-in name is bound to at a moment.
* `Site.BuiltinMember` — what the built-in names in a member are bound to.

The main statement is `Registry.builtins_resolve`.
-/

namespace TypeAtlas

open Binding

/-- The primitive type with a name. -/
def TypeNode.IsPrimitive (n : TypeNode) (name : String) : Prop :=
  n.kind = .primitive ∧ n.fullName = name

/-! ## Reading built-in names -/

namespace Primitive

open DeclarationParser (standard IsBare)

variable {name : String}

theorem mem_names (h : isName name = true) : name ∈ names := by
  simpa [isName] using h

/-- Nothing is taken out of a built-in name. Each annotation has a bracket or two low lines, and
each character reference an ampersand. -/
theorem isBare_of_isName (h : isName name = true) : IsBare name.toList := by
  have hannotations : ∀ a ∈ Annotation.builtin, '[' ∈ a.token ∨ 2 ≤ a.token.count '_' := by
    decide +kernel
  have hreferences : ∀ e ∈ Entity.references, '&' ∈ e := by decide +kernel
  have hnames : ∀ name ∈ names, '[' ∉ name.toList ∧ name.toList.count '_' < 2 ∧
      '&' ∉ name.toList ∧ Keyword.all name.toList = [] := by
    decide +kernel
  obtain ⟨hbracket, hline, hampersand, hkeywords⟩ := hnames name (mem_names h)
  refine ⟨?_, hkeywords, fun e he hin => hampersand (hin.subset (hreferences e he))⟩
  intro a ha hin
  rcases hannotations a ha with hmem | hcount
  · exact hbracket (hin.subset hmem)
  · have := hin.sublist.count_le '_'
    omega

/-- A built-in name is read as itself. -/
theorem fullName_parse (h : isName name = true) : (standard.parse name).fullName = name := by
  have hnames : ∀ name ∈ names,
      (Descriptor.ofText { raw := name } (Spacing.normalize name.toList)).fullName = name := by
    decide +kernel
  rw [@DeclarationParser.parse_of_isBare _ name false rfl (isBare_of_isName h)]
  exact hnames name (mem_names h)

theorem trimmed_of_isName (h : isName name = true) : Text.trimmed name = name := by
  rw [← fullName_parse h]
  exact standard.trimmed_fullName_parse name

theorem ne_empty_of_isName (h : isName name = true) : name ≠ "" := by
  rintro rfl
  simp [isName, names, cNames, platformNames, objCNames, managedNames] at h

end Primitive

/-! ## Slots that stand for names -/

namespace Registry

variable {r grown : Registry} {id : TypeId} {name : String}

/-- A slot of which only the name is known holds a primitive type if the name is built in, else a
facade. -/
def StandsIn (r : Registry) : Prop :=
  ∀ id slot, r.slot? id = some slot → slot.isPlaceholder = true →
    slot.origin = r.placeholder slot.fullName

namespace StandsIn

theorem empty (origin : Universe) (settings : RegistrySettings) (parser : DeclarationParser) :
    (Registry.empty origin settings parser).StandsIn := by
  intro id slot hslot hplaceholder
  obtain ⟨_ | index⟩ := id
  · obtain rfl : Slot.mk "" .globalNamespace = slot := by
      simpa [slot?, Registry.empty] using hslot
    simp [Slot.isPlaceholder] at hplaceholder
  · simp [slot?, Registry.empty] at hslot

theorem push {key : String} {origin : SlotOrigin} (h : r.StandsIn)
    (hnew : (Slot.mk key origin).isPlaceholder = true → origin = r.placeholder key) :
    (r.push key origin).2.StandsIn := by
  intro id slot hslot hplaceholder
  rw [slot?_push] at hslot
  split at hslot
  · obtain rfl := Option.some.inj hslot
    exact hnew hplaceholder
  · exact h id slot hslot hplaceholder

theorem change (h : r.StandsIn) (hchange : Change r grown) : grown.StandsIn := by
  cases hchange with
  | keep => exact h
  | refer => exact h.push fun _ => rfl
  | define | leave => exact h.push fun hplaceholder => by simp [Slot.isPlaceholder] at hplaceholder
  | fill c id slot hslot hfill =>
    intro id' slot' hslot' hplaceholder
    rw [slot?_setOrigin] at hslot'
    split at hslot'
    · obtain ⟨known, -, rfl⟩ := Option.map_eq_some_iff.1 hslot'
      simp [Slot.isPlaceholder] at hplaceholder
    · exact h id' slot' hslot' hplaceholder

theorem internAll (h : r.StandsIn) (acts : List Interning) : (r.internAll acts).StandsIn := by
  induction acts using List.reverseRecOn with
  | nil => exact h
  | append_singleton acts act ih =>
    rw [internAll_concat]
    exact ih.change (change_intern _ act)

theorem grows (h : r.StandsIn) (hgrows : r.Grows grown) : grown.StandsIn := by
  induction hgrows with
  | refl => exact h
  | refer _ _ _ _ ih => exact ih.push fun _ => rfl
  | parameter _ _ _ _ _ _ _ ih =>
    exact ih.push fun hplaceholder => by simp [Slot.isPlaceholder] at hplaceholder

/-- A slot of a built-in name becomes a primitive type exactly if only its name is known. -/
theorem kind_eq_primitive_iff {slot : Slot} (h : r.StandsIn) (hslot : r.slot? id = some slot)
    (hbuiltin : r.isBuiltin slot.fullName = true) :
    slot.kind = .primitive ↔ slot.isPlaceholder = true := by
  have hstands := h id slot hslot
  rw [placeholder, if_pos hbuiltin] at hstands
  unfold Slot.isPlaceholder Slot.kind at *
  cases horigin : slot.origin with
  | compound c => cases hkind : c.kind <;> simp [CompoundKind.typeKind, hkind]
  | _ => simp_all

end StandsIn

/-- A built-in name is referred to: it leads to what has the name, else to a new primitive type. -/
theorem getOrCreate_of_isName (hparser : r.parser = .standard)
    (hprimitives : r.settings.recognizePrimitives = true) (hname : Primitive.isName name = true) :
    r.getOrCreate name =
      match r.names[name]? with
      | some id => (id, r)
      | none => r.push name .primitive := by
  have hne := Primitive.ne_empty_of_isName hname
  have htrimmed := Primitive.trimmed_of_isName hname
  have hbuiltin : r.isBuiltin name = true := by simp [isBuiltin, hprimitives, hname]
  have hkey : r.keyOf name = name := by
    simp [keyOf, hparser, Primitive.fullName_parse hname]
  have hlookup : r.lookup? name = r.names[name]? := by
    rw [lookup?_of_trimmed hne htrimmed, if_pos hkey, Option.or_none]
    unfold find?
    cases r.names[name]? <;> simp [hbuiltin]
  unfold getOrCreate
  rw [hlookup, htrimmed, hkey]
  cases r.names[name]? with
  | some id => rfl
  | none => exact congrArg (r.push name) (if_pos hbuiltin)

end Registry

/-! ## Captured names -/

namespace Site

variable {r s moment : Registry} {site : Site} {name : String}

/-- What keeps a built-in name at a site from its primitive type: a type parameter of the compound,
anything that has the name inside a scope, or a definition or a type parameter that has the name
itself. -/
inductive Captured (site : Site) (r : Registry) (name : String) : Prop
  | parameter (hmem : name ∈ site.generics.map (·.1))
  | inside (scope : String) (id : TypeId) (hscope : scope ∈ site.scopes)
      (hid : r.names[Name.qualify scope name]? = some id)
  | known (id : TypeId) (slot : Slot) (hid : r.names[name]? = some id)
      (hslot : r.slot? id = some slot) (hknown : slot.isPlaceholder = false)

/-- What captures a built-in name without any definition: a type parameter of the compound, or what
has one of the candidates for a name and is a type parameter or what a reference has left. -/
inductive Leftover (site : Site) (r : Registry) (name : String) : Prop
  | parameter (hmem : name ∈ site.generics.map (·.1))
  | other (candidate : String) (id : TypeId) (slot : Slot)
      (hcandidate : candidate ∈ site.candidates name)
      (hid : r.names[candidate]? = some id) (hslot : r.slot? id = some slot)
      (hleft : r.IsParameterSlot slot ∨ slot.isPlaceholder = true ∧ candidate ≠ name)

theorem not_captured_iff : ¬ site.Captured r name ↔ name ∉ site.generics.map (·.1) ∧
    (∀ scope ∈ site.scopes, r.names[Name.qualify scope name]? = none) ∧
      ∀ id slot, r.names[name]? = some id → r.slot? id = some slot →
        slot.isPlaceholder = true := by
  constructor
  · intro hfree
    refine ⟨fun hmem => hfree (.parameter hmem), fun scope hscope => ?_,
      fun id slot hid hslot => ?_⟩
    · rw [Option.eq_none_iff_forall_ne_some]
      exact fun id hid => hfree (.inside scope id hscope hid)
    · by_contra hknown
      exact hfree (.known id slot hid hslot (by simpa using hknown))
  · rintro ⟨hparameter, hinside, hknown⟩ hcaptured
    cases hcaptured with
    | parameter hmem => exact hparameter hmem
    | inside scope id hscope hid => simp [hinside scope hscope] at hid
    | known id slot hid hslot hslot' => simp [hknown id slot hid hslot] at hslot'

theorem Captured.grows (h : site.Captured r name) (hgrows : r.Grows s) :
    site.Captured s name := by
  cases h with
  | parameter hmem => exact .parameter hmem
  | inside scope id hscope hid => exact .inside scope id hscope (hgrows.names hid)
  | known id slot hid hslot hknown =>
    exact .known id slot (hgrows.names hid) (hgrows.slot? hslot) hknown

/-- A name inside a scope that is not empty is another name. -/
theorem qualify_ne {scope : String} (hscope : scope ≠ "") : Name.qualify scope name ≠ name := by
  intro heq
  have hlength := congrArg (fun s : String => s.toList.length) heq
  simp only [Name.qualify, if_neg hscope, String.toList_append, List.length_append] at hlength
  have : scope.toList.length ≠ 0 := by simpa using hscope
  omega

theorem mem_candidates {candidate : String} : candidate ∈ site.candidates name ↔
    (∃ scope ∈ site.scopes, Name.qualify scope name = candidate) ∨ candidate = name := by
  simp [candidates]

/-- What captures a name is a definition of one of its candidates, unless it is left over. -/
theorem Captured.cases (h : site.Captured moment name) (hr : r.Interned) (hlabelled : r.Labelled)
    (hmoment : r.Grows moment) (hscopes : ∀ scope ∈ site.scopes, scope ≠ "") (hne : name ≠ "") :
    (∃ owner c, (owner, c) ∈ r.definitions ∧ c.fullName ∈ site.candidates name) ∨
      site.Leftover moment name := by
  have hindexed := hmoment.indexed hr.toIndexed
  -- Whatever has a candidate for a name was there before, or it is left over.
  have hslots : ∀ candidate id slot, candidate ≠ "" → candidate ∈ site.candidates name →
      moment.names[candidate]? = some id → moment.slot? id = some slot →
      (slot.isPlaceholder = true → candidate ≠ name) →
      (∃ owner c, (owner, c) ∈ r.definitions ∧ c.fullName ∈ site.candidates name) ∨
        site.Leftover moment name := by
    intro candidate id slot hcandidate hmem hid hslot hplaceholder
    have hfull : slot.fullName = candidate := by
      obtain ⟨slot', hslot', hname⟩ :=
        Registry.fullName?_eq_some.1 (hindexed.fullName?_of_names hid)
      rwa [Option.some.inj (hslot.symm.trans hslot')]
    rcases hmoment.slot_cases hslot with hold | hstands | hparameter
    · have hglobal : id ≠ .global := by
        rintro rfl
        rw [hr.global] at hold
        obtain rfl := Option.some.inj hold
        exact hcandidate hfull.symm
      rcases hr.content id slot hold hglobal with hcompound | hstands
      · obtain ⟨c, hc⟩ := Option.isSome_iff_exists.1 hcompound
        refine .inl ⟨id, c, Registry.mem_definitions.2 ⟨slot, hold, hc⟩, ?_⟩
        rw [hlabelled id slot c hold hc, hfull]
        exact hmem
      · exact .inr (.other candidate id slot hmem hid hslot (.inr ⟨hstands, hplaceholder hstands⟩))
    · exact .inr (.other candidate id slot hmem hid hslot (.inr ⟨hstands, hplaceholder hstands⟩))
    · exact .inr (.other candidate id slot hmem hid hslot (.inl hparameter))
  cases h with
  | parameter hmem => exact .inr (.parameter hmem)
  | inside scope id hscope hid =>
    obtain ⟨slot, hslot, -⟩ := Registry.fullName?_eq_some.1 (hindexed.fullName?_of_names hid)
    exact hslots _ id slot (Registry.qualify_ne_empty scope hne)
      (mem_candidates.2 (.inl ⟨scope, hscope, rfl⟩)) hid hslot
      fun _ => qualify_ne (hscopes scope hscope)
  | known id slot hid hslot hknown =>
    exact hslots name id slot hne (mem_candidates.2 (.inr rfl)) hid hslot (by simp [hknown])

/-! ## What a built-in name is bound to -/

/-- What a built-in name is bound to at a moment: to its primitive type, unless it is captured. What
captures it is a definition of one of its candidates, or it is left over. A type parameter of the
compound takes the name to its own slot. -/
structure BuiltinAt (r : Registry) (site : Site) (name : String) (moment : Registry)
    (n : TypeNode) : Prop where
  after : r.Grows moment
  before : ((site.bindName name).run moment).2.Grows r.settle
  run : ((site.bindName name).run moment).1 = some n.id
  node : r.resolve.1.get? n.id = some n
  primitive : n.IsPrimitive name ↔ ¬ site.Captured moment name
  settled : ¬ site.Captured r.settle name → n.IsPrimitive name
  captured : site.Captured moment name →
    (∃ owner c, (owner, c) ∈ r.definitions ∧ c.fullName ∈ site.candidates name) ∨
      site.Leftover moment name
  parameter : name ∈ site.generics.map (·.1) → n.fullName = Name.qualify site.scope name

/-- What is needed of a registry and a site for built-in names. -/
structure ReadsBuiltins (r : Registry) (site : Site) : Prop where
  interned : r.Interned
  labelled : r.Labelled
  standsIn : r.StandsIn
  parser : r.parser = .standard
  primitives : r.settings.recognizePrimitives = true
  scopes : ∀ scope ∈ site.scopes, scope ≠ ""
  scope : site.scope ≠ ""
  generics : ∀ generic ∈ site.generics,
    r.settle.names[Name.qualify site.scope generic.1]? = some generic.2

namespace ReadsBuiltins

/-- The node that a name leads to in the end. -/
theorem exists_node {id : TypeId} {key : String} (h : site.ReadsBuiltins r)
    (hid : r.settle.names[key]? = some id) : ∃ n slot, r.resolve.1.get? id = some n ∧ n.id = id ∧
      n.fullName = key ∧ r.settle.slot? id = some slot ∧ slot.fullName = key ∧
      n.kind = slot.kind := by
  have hindexed := Registry.indexed_settle h.interned.toIndexed
  have hkey := hindexed.fullName?_of_names hid
  obtain ⟨slot, hslot, hname⟩ := Registry.fullName?_eq_some.1 hkey
  obtain ⟨n, hn, hnid, hkind⟩ := Registry.get?_resolve_of_slot hslot
  have hfull := Registry.fullName?_of_resolve h.labelled hn
  exact ⟨n, slot, hn, hnid, Option.some.inj (hfull.symm.trans hkey), hslot, hname, hkind⟩

/-- What is found inside a scope is no primitive type of the name. -/
theorem not_isPrimitive {n : TypeNode} {scope : String} (hscope : scope ≠ "")
    (hn : n.fullName = Name.qualify scope name) : ¬ n.IsPrimitive name :=
  fun hprimitive => qualify_ne hscope (hn.symm.trans hprimitive.2)

/-- A built-in name that neither a type parameter nor a scope has leads to its primitive type if
only its name is known. -/
theorem target_of_getOrCreate (h : site.ReadsBuiltins r) (hname : Primitive.isName name = true)
    (hafter : r.Grows moment) (hbefore : (moment.getOrCreate name).2.Grows r.settle) :
    ∃ n, (moment.getOrCreate name).1 = n.id ∧ r.resolve.1.get? n.id = some n ∧
      (n.IsPrimitive name ↔ ∀ id slot, moment.names[name]? = some id →
        moment.slot? id = some slot → slot.isPlaceholder = true) := by
  have hprimitives : moment.settings.recognizePrimitives = true :=
    hafter.settings_eq ▸ h.primitives
  rw [Registry.getOrCreate_of_isName (hafter.parser_eq.trans h.parser) hprimitives hname]
    at hbefore ⊢
  cases hid : moment.names[name]? with
  | some id =>
    rw [hid] at hbefore
    dsimp only at hbefore ⊢
    obtain ⟨n, slot, hn, rfl, hfull, hslot, hslotName, hkind⟩ := h.exists_node (hbefore.names hid)
    obtain ⟨slot', hslot', -⟩ := Registry.fullName?_eq_some.1
      ((hafter.indexed h.interned.toIndexed).fullName?_of_names hid)
    obtain rfl := Option.some.inj ((hbefore.slot? hslot').symm.trans hslot)
    have hstands := (h.standsIn.grows hafter).kind_eq_primitive_iff hslot'
      (by simp [Registry.isBuiltin, hprimitives, hslotName, hname])
    refine ⟨n, rfl, hn, ?_⟩
    rw [TypeNode.IsPrimitive, and_iff_left hfull, hkind, hstands]
    grind
  | none =>
    rw [hid] at hbefore
    dsimp only at hbefore ⊢
    have hnew : (moment.push name .primitive).2.names[name]? = some ⟨moment.size⟩ := by
      rw [Registry.names_push, if_pos rfl]
    have hslot' : (moment.push name .primitive).2.slot? ⟨moment.size⟩ =
        some ⟨name, .primitive⟩ := by
      rw [Registry.slot?_push, if_pos rfl]
    obtain ⟨n, slot, hn, hnid, hfull, hslot, -, hkind⟩ := h.exists_node (hbefore.names hnew)
    obtain rfl := Option.some.inj ((hbefore.slot? hslot').symm.trans hslot)
    exact ⟨n, by rw [hnid, Registry.id_push], hnid ▸ hn, iff_of_true ⟨hkind, hfull⟩ (by simp)⟩

/-- A built-in name is bound to its primitive type unless it is captured. -/
theorem target_of_run (h : site.ReadsBuiltins r) (hname : Primitive.isName name = true)
    (hafter : r.Grows moment) (hbefore : ((site.bindName name).run moment).2.Grows r.settle) :
    ∃ n, ((site.bindName name).run moment).1 = some n.id ∧ r.resolve.1.get? n.id = some n ∧
      (n.IsPrimitive name ↔ ¬ site.Captured moment name) ∧
      (name ∈ site.generics.map (·.1) → n.fullName = Name.qualify site.scope name) := by
  rw [run_bindName, if_neg (Primitive.ne_empty_of_isName hname)] at hbefore ⊢
  cases hgeneric : site.generics.lookup name with
  | some id =>
    obtain ⟨before, after, hsplit, -⟩ := List.lookup_eq_some_iff.1 hgeneric
    have hmem : (name, id) ∈ site.generics := by simp [hsplit]
    obtain ⟨n, slot, hn, rfl, hfull, -⟩ := h.exists_node (h.generics _ hmem)
    have hcaptured : site.Captured moment name := .parameter (List.mem_map_of_mem hmem)
    exact ⟨n, rfl, hn, iff_of_false (not_isPrimitive h.scope hfull) (not_not_intro hcaptured),
      fun _ => hfull⟩
  | none =>
    have hparameter : name ∉ site.generics.map (·.1) := by
      have hnone := List.lookup_eq_none_iff.1 hgeneric
      grind
    rw [hgeneric] at hbefore
    dsimp only at hbefore ⊢
    cases hfind : site.findEnclosing? moment name with
    | some id =>
      rw [hfind] at hbefore
      obtain ⟨scope, hscope, hid⟩ := List.exists_of_findSome?_eq_some hfind
      obtain ⟨n, slot, hn, rfl, hfull, -⟩ := h.exists_node (hbefore.names hid)
      exact ⟨n, rfl, hn, iff_of_false (not_isPrimitive (h.scopes scope hscope) hfull)
        (not_not_intro (.inside scope _ hscope hid)), fun hmem => absurd hmem hparameter⟩
    | none =>
      have hinside : ∀ scope ∈ site.scopes, moment.names[Name.qualify scope name]? = none :=
        List.findSome?_eq_none_iff.1 hfind
      rw [hfind] at hbefore
      obtain ⟨n, htarget, hn, hprimitive⟩ := h.target_of_getOrCreate hname hafter hbefore
      refine ⟨n, congrArg some htarget, hn, ?_, fun hmem => absurd hmem hparameter⟩
      rw [hprimitive, not_captured_iff, and_iff_right hparameter, and_iff_right hinside]

theorem builtinAt_of_ran (h : site.ReadsBuiltins r) (hname : Primitive.isName name = true)
    {target : Option TypeId} (hran : Ran r r.settle (site.bindName name) target) :
    ∃ moment n, target = some n.id ∧ site.BuiltinAt r name moment n := by
  obtain ⟨moment, hafter, hbefore, rfl⟩ := hran
  obtain ⟨n, hrun, hn, hprimitive, hparameter⟩ := h.target_of_run hname hafter hbefore
  have hmoment : moment.Grows r.settle :=
    (site.growing_bindName name moment hafter).trans hbefore
  exact ⟨moment, n, hrun, {
    after := hafter
    before := hbefore
    run := hrun
    node := hn
    primitive := hprimitive
    settled := fun hfree => hprimitive.2 fun hcaptured => hfree (hcaptured.grows hmoment)
    captured := fun hcaptured => hcaptured.cases h.interned h.labelled hafter h.scopes
      (Primitive.ne_empty_of_isName hname)
    parameter := hparameter }⟩

end ReadsBuiltins

/-! ## Types and members -/

/-- What the built-in names in a written type are bound to, at every depth. -/
def BuiltinType (r : Registry) (site : Site) (d : Descriptor) (t : TypeRef) : Prop :=
  t.descriptor = d ∧ ∀ level ∈ t.levels,
    level.arguments.map (·.descriptor) = level.descriptor.arguments ∧
      (Primitive.isName level.descriptor.fullName = true →
        ∃ moment n, level.target = some n.id ∧
          site.BuiltinAt r level.descriptor.fullName moment n)

/-- What the built-in names in a member and its parameters are bound to. -/
structure BuiltinMember (r : Registry) (site : Site) (m : Member) (b : BoundMember) : Prop where
  declaredType : site.BuiltinType r m.declaredType b.declaredType
  parameters : List.Forall₂ (fun p bound => site.BuiltinType r p.declaredType bound.declaredType)
    m.parameters b.parameters

theorem ReadsBuiltins.builtinType (h : site.ReadsBuiltins r) {d : Descriptor} {t : TypeRef}
    (ht : site.Binds r r.settle d t) : site.BuiltinType r d t :=
  ⟨ht.1, fun level hlevel => ⟨(ht.2 level hlevel).1, fun hname =>
    h.builtinAt_of_ran hname (ht.2 level hlevel).2⟩⟩

theorem ReadsBuiltins.builtinMember (h : site.ReadsBuiltins r) {m : Member} {b : BoundMember}
    (hb : site.BindsMember r r.settle m b) : site.BuiltinMember r m b :=
  ⟨h.builtinType hb.declaredType, hb.parameters.imp fun _ _ hp => h.builtinType hp.declaredType⟩

end Site

namespace Registry

variable {r : Registry} {owner : TypeId} {c : Compound} {site : Site}

/-- The scopes at a compound with a proper name are not empty. -/
theorem scope_ne_empty_of_isProper (hscope : site.scope = c.fullName)
    (hc : Name.IsProper c.fullName) : ∀ scope ∈ site.scopes, scope ≠ "" := by
  rintro scope hmem rfl
  unfold Site.scopes at hmem
  rw [hscope, if_neg hc.ne_empty, List.mem_cons, Name.enclosing, List.mem_reverse,
    Name.mem_ancestors, Name.encloses_iff] at hmem
  rcases hmem with hempty | ⟨rest, hrest⟩
  · exact hc.ne_empty hempty.symm
  · have := hc.isUndotted.1 '.' (by simp [hrest])
    simp at this

/-- In the graph of a universe that recognizes primitive types and is filled by references and by
definitions with dotted names, in any order, each built-in name in a member is bound to its
primitive type unless it is captured at that moment. Only a type parameter of the compound, a
definition, the type parameter of another compound or what a reference has left captures it. -/
theorem builtins_resolve (origin : Universe) (settings : RegistrySettings)
    (acts : List Interning) (r : Registry)
    (hr : r = (Registry.empty origin settings .standard).internAll acts)
    (hprimitives : settings.recognizePrimitives = true)
    (hnames : ∀ d, .define d ∈ acts → Name.canonical d.fullName = d.fullName)
    (hc : (owner, c) ∈ r.definitions) :
    ∃ site n, r.SiteOf owner c site ∧ r.resolve.1.get? owner = some n ∧
      (c.kind.isComposite = true ∨ c.kind = .function → ∃ members,
        n.members? = some members ∧ List.Forall₂ (site.BuiltinMember r) c.members members) := by
  have h : r.Interned := hr ▸ (Interned.empty origin settings .standard).internAll acts
  have htrimmed : ∀ d, .define d ∈ acts → Text.trimmed d.fullName = d.fullName := by
    intro d hd
    by_cases hempty : d.fullName = ""
    · rw [hempty]
      decide
    · exact Text.isTrimmed_iff.1 (Name.isProper_of_canonical hempty (hnames d hd)).isTrimmed
  have hreading : Reading (corpus origin settings .standard []) r :=
    hr ▸ reading_internAll (corpus origin settings .standard []) acts
  have hlabelled : r.Labelled := hr ▸ labelled_internAll origin settings .standard acts htrimmed
  have hproper : Name.IsProper c.fullName := by
    obtain ⟨slot, hslot, -⟩ := mem_definitions.1 hc
    subst hr
    obtain ⟨hkey, first, hfirst, hfull, htrim⟩ := exists_define_of_definition origin settings
      .standard acts hc (fullName?_eq_some.2 ⟨slot, hslot, rfl⟩)
    rw [htrimmed first hfirst] at htrim
    rw [hfull]
    exact Name.isProper_of_canonical (htrim ▸ hkey) (hnames first hfirst)
  obtain ⟨d, hd, site, hsite, hbinds⟩ := draft_definition hc
  have hnode := r.get?_resolve owner
  rw [hd, Option.map_some] at hnode
  have hreads : site.ReadsBuiltins r := {
    interned := h
    labelled := hlabelled
    standsIn := hr ▸ (StandsIn.empty origin settings .standard).internAll acts
    parser := hreading.parser_eq
    primitives := hreading.settings_eq ▸ hprimitives
    scopes := scope_ne_empty_of_isProper hsite.scope hproper
    scope := by
      rw [hsite.scope]
      exact hproper.ne_empty
    generics := by
      rw [hsite.scope]
      exact hsite.generics.slots }
  refine ⟨site, _, ⟨hsite.owner, hsite.scope, hsite.generics.names⟩, hnode, ?_⟩
  intro hkind
  obtain ⟨bases, derived, -, -, hvariant⟩ := hbinds.variant
  rw [TypeNode.linked_members?, TypeNode.members?]
  rcases hkind with hkind | hkind
  · obtain ⟨kind, body, hv, hmembers, -⟩ := hvariant.composite hkind
    rw [hv]
    exact ⟨_, rfl, hmembers.imp fun _ _ hm => hreads.builtinMember hm⟩
  · obtain ⟨overloads, hv, hmembers⟩ := hvariant.function hkind
    rw [hv]
    exact ⟨_, rfl, hmembers.imp fun _ _ hm => hreads.builtinMember hm⟩

/-- A class with a type parameter that has a type and no name, and a member of this type. -/
def sized : Compound :=
  { Compound.empty "v" .native "V" .classType with
    templateParams := ["int"]
    members :=
      [{ name := "At", kind := .method, declaredType := DeclarationParser.standard.parse "int" }] }

/-- A universe with this class alone. -/
def unnamedParameter : Registry :=
  (Registry.empty .native (.ofPreset .standard)).internAll [.define sized]

/-- The member is bound to the type parameter. -/
theorem builtins_resolve_unnamed :
    (⟨1⟩, sized) ∈ unnamedParameter.definitions ∧ unnamedParameter.definitions.length = 1 ∧
      (∃ site n, unnamedParameter.SiteOf ⟨1⟩ sized site ∧
        unnamedParameter.resolve.1.get? ⟨1⟩ = some n ∧
        (sized.kind.isComposite = true ∨ sized.kind = .function → ∃ members,
          n.members? = some members ∧
            List.Forall₂ (site.BuiltinMember unnamedParameter) sized.members members)) ∧
      (unnamedParameter.resolve.1.get? ⟨1⟩).bind (fun n =>
        n.members?.map (·.map (·.declaredType.target))) = some [some ⟨2⟩] ∧
      (unnamedParameter.resolve.1.get? ⟨2⟩).map (fun n => (n.fullName, n.kind)) =
        some ("V.int", .genericParameter) := by
  have hmem : (⟨1⟩, sized) ∈ unnamedParameter.definitions := by decide +kernel
  have hnames : ∀ d, .define d ∈ [Interning.define sized] →
      Name.canonical d.fullName = d.fullName := by
    intro d hd
    obtain rfl : d = sized := by simpa using hd
    decide +kernel
  refine ⟨hmem, by decide +kernel, ?_, by decide +kernel, by decide +kernel⟩
  exact builtins_resolve .native (.ofPreset .standard) [.define sized] unnamedParameter rfl rfl
    hnames hmem

end Registry

end TypeAtlas
