import TypeAtlas.Proofs.Registry.Consistency
import TypeAtlas.Proofs.Registry.Hosting
import TypeAtlas.Proofs.Registry.Seeking

/-!
# The global namespace of a resolved universe

The global namespace has its position to itself: no other node lacks a name, no name but the empty
one leads to it, and no node lists it as a child.

## Main definitions

* `TypeGraph.Grounded` — the global namespace is known by its empty name alone.

The main statement is `Registry.grounded_resolve`.
-/

namespace TypeAtlas

/-- The global namespace is known by its empty name alone. -/
structure TypeGraph.Grounded (g : TypeGraph) : Prop where
  nameless : ∀ id n, g.get? id = some n → (n.fullName = "" ↔ id = .global)
  lookup : ∀ name id, g.lookupId? name = some id → name ≠ "" → id ≠ .global
  child : ∀ id n, g.get? id = some n → .global ∉ n.children

namespace Registry

variable {r : Registry} {id : TypeId} {c : Compound} {key : String}

/-- A definition has the full name of a compound that is defined, which is the name of its slot up
to blanks around it. -/
theorem exists_define_of_definition (origin : Universe) (settings : RegistrySettings)
    (parser : DeclarationParser) (acts : List Interning)
    (hc : (id, c) ∈ ((Registry.empty origin settings parser).internAll acts).definitions)
    (hname : ((Registry.empty origin settings parser).internAll acts).fullName? id = some key) :
    key ≠ "" ∧ ∃ first, .define first ∈ acts ∧ c.fullName = first.fullName ∧
      Text.trimmed first.fullName = key := by
  have h := (Interned.empty origin settings parser).internAll acts
  have hhosts := @hosts_internAll key origin settings parser acts
  generalize (Registry.empty origin settings parser).internAll acts = r at hc hname h hhosts
  obtain ⟨slot, hslot, hcompound⟩ := mem_definitions.1 hc
  have hkey : key ≠ "" := by
    rintro rfl
    exact ne_global_of_definition h hc (h.nameless id hname)
  have hnames := h.names_of_definition hc hname
  replace hhosts := hhosts hkey
  cases hgather : gather? (named (definitionsOf acts) key) with
  | none =>
    rw [hgather] at hhosts
    obtain ⟨slot', hslot', hplaceholder⟩ := hhosts id hnames
    obtain rfl := Option.some.inj (hslot.symm.trans hslot')
    rw [Slot.not_isPlaceholder (by simp [hcompound])] at hplaceholder
    simp at hplaceholder
  | some d =>
    obtain ⟨first, hfirst, hfull, -⟩ := gather?_eq_some hgather
    rw [hgather] at hhosts
    obtain ⟨id', hid', hslot'⟩ := hhosts
    obtain rfl := Option.some.inj (hnames.symm.trans hid')
    obtain rfl := Option.some.inj (hslot.symm.trans hslot')
    obtain rfl : d = c := by simpa [Slot.compound?] using hcompound
    obtain ⟨hmem, htrimmed⟩ := List.mem_filter.1 (List.mem_of_head? hfirst)
    exact ⟨hkey, first, mem_definitionsOf.1 hmem, hfull, by simpa using htrimmed⟩

/-- A definition is called what its slot is called, up to blanks around its name. -/
theorem trimmed_fullName_of_definition (origin : Universe) (settings : RegistrySettings)
    (parser : DeclarationParser) (acts : List Interning)
    (hc : (id, c) ∈ ((Registry.empty origin settings parser).internAll acts).definitions)
    (hname : ((Registry.empty origin settings parser).internAll acts).fullName? id = some key) :
    Text.trimmed c.fullName = key := by
  obtain ⟨-, first, -, hfull, htrimmed⟩ :=
    exists_define_of_definition origin settings parser acts hc hname
  rw [hfull, htrimmed]

/-- What a name other than the empty one leads to is not the global namespace. -/
theorem Indexed.ne_global_of_names (h : r.Indexed) (hid : r.names[key]? = some id)
    (hkey : key ≠ "") : id ≠ .global := by
  rintro rfl
  have hfull := h.fullName?_of_names hid
  rw [fullName?, h.global] at hfull
  exact hkey (Option.some.inj hfull).symm

/-- Where definitions are called what their slots are called up to blanks, only the global namespace
lacks a name. -/
theorem fullName_draft_eq_empty_iff {n : TypeNode} (h : r.Interned)
    (hdefinition : ∀ id c key, (id, c) ∈ r.definitions → r.fullName? id = some key →
      Text.trimmed c.fullName = key)
    (hn : r.draft[id.index]? = some n) : n.fullName = "" ↔ id = .global := by
  have hindexed := indexed_settle h.toIndexed
  rcases draft_cases hn with ⟨c, hc, site, -, hbinds⟩ | ⟨slot, hslot, -, rfl⟩
  · obtain ⟨slot, hslot, -⟩ := mem_definitions.1 hc
    have hfull : r.fullName? id = some slot.fullName := fullName?_eq_some.2 ⟨slot, hslot, rfl⟩
    have htrimmed := hdefinition id c slot.fullName hc hfull
    rw [hbinds.fullName]
    refine ⟨fun hempty => ?_, fun heq => absurd heq (ne_global_of_definition h hc)⟩
    rw [hempty] at htrimmed
    exact h.nameless id (hfull.trans (congrArg some (htrimmed.symm.trans (by decide))))
  · rw [leaf_fullName]
    constructor
    · intro hempty
      exact hindexed.nameless id (fullName?_eq_some.2 ⟨slot, hslot, hempty⟩)
    · rintro rfl
      rw [hindexed.global] at hslot
      obtain rfl := Option.some.inj hslot
      rfl

/-- No name but the empty one leads to the global namespace, in whatever spelling. -/
theorem ne_global_of_lookupId?_resolve {name : String} (h : r.Interned)
    (hid : r.resolve.1.lookupId? name = some id) (hname : name ≠ "") : id ≠ .global := by
  have hindexed := indexed_settle h.toIndexed
  unfold TypeGraph.lookupId? at hid
  rw [names_resolve] at hid
  split at hid
  · next found hfound =>
    obtain rfl := Option.some.inj hid
    exact hindexed.ne_global_of_names hfound hname
  · split at hid
    · have hfolded : r.settle.foldedNames[Text.lowercase name]? = some id := hid
      rw [hindexed.folded, Option.bind_eq_some_iff] at hfolded
      obtain ⟨spelling, hspelling, hfound⟩ := hfolded
      exact hindexed.ne_global_of_names hfound (hindexed.firstSpelling?_ne_empty hspelling)
    · simp at hid

/-- Whatever the universe, the settings, the parser and the order of references and definitions, the
global namespace is known by its empty name alone. -/
theorem grounded_resolve (origin : Universe) (settings : RegistrySettings)
    (parser : DeclarationParser) (acts : List Interning) :
    ((Registry.empty origin settings parser).internAll acts).resolve.1.Grounded := by
  have hdefinition := fun id c key =>
    @trimmed_fullName_of_definition id c key origin settings parser acts
  have h := (Interned.empty origin settings parser).internAll acts
  generalize (Registry.empty origin settings parser).internAll acts = r at hdefinition h
  refine ⟨?_, fun _ _ => ne_global_of_lookupId?_resolve h,
    fun id n hn => (h.consistent.node id n hn).children_nonglobal⟩
  intro id n hn
  obtain ⟨d, hd, rfl⟩ := get?_resolve_eq_some.1 hn
  rw [TypeNode.linked_fullName]
  exact fullName_draft_eq_empty_iff h hdefinition hd

end Registry

end TypeAtlas
