import TypeAtlas.Proofs.Registry.Binding
import TypeAtlas.Proofs.Registry.Linking

/-!
# Resolved universes

The graph of a universe has a node for each slot of the registry at the end of binding: that of a
compound is the bound compound, any other is a leaf, and both have got their inverse edges.

## Main definitions

* `Registry.settle` — the registry once all compounds are bound.
* `Registry.draft` — the nodes before they have got their inverse edges.

The main statements are `Registry.get?_resolve`, `Registry.draft_definition` and
`Registry.draft_leaf`.
-/

namespace TypeAtlas

namespace Registry

open Binding

variable {r : Registry} {id owner : TypeId} {slot : Slot} {c : Compound} {n : TypeNode}

/-! ## The arena -/

@[simp] theorem size_arena (r : Registry) (bound : List TypeNode) :
    (r.arena bound).size = r.size := by
  induction bound using List.reverseRecOn with
  | nil => simp [arena, size]
  | append_singleton bound n ih =>
    unfold arena at ih ⊢
    rw [List.foldl_concat, Array.size_setIfInBounds, ih]

/-- The node of a slot is the last one that is bound for it, and a leaf if there is none. -/
theorem getElem?_arena (r : Registry) (bound : List TypeNode) (id : TypeId) :
    (r.arena bound)[id.index]? = (r.slot? id).map fun slot =>
      (bound.reverse.find? (·.id = id)).getD (leaf r.origin id slot) := by
  induction bound using List.reverseRecOn with
  | nil =>
    cases id
    simp [arena, slot?, Array.getElem?_mapIdx]
  | append_singleton bound n ih =>
    have hsize := r.size_arena bound
    unfold arena at ih hsize ⊢
    rw [List.foldl_concat, Array.getElem?_setIfInBounds, hsize, List.reverse_append,
      List.reverse_singleton, List.singleton_append, ih]
    by_cases hid : n.id = id
    · subst hid
      rw [if_pos rfl, List.find?_cons_of_pos (by simp)]
      by_cases hlt : n.id.index < r.size
      · have hslot : r.slot? n.id = some r.slots[n.id.index] := Array.getElem?_eq_getElem hlt
        simp [hlt, hslot]
      · have hslot : r.slot? n.id = none := Array.getElem?_eq_none (Nat.le_of_not_lt hlt)
        simp [hlt, hslot]
    · have hindex : n.id.index ≠ id.index := fun h => hid (TypeId.eq_of_index h)
      rw [if_neg hindex, List.find?_cons_of_neg (by simpa using hid)]

/-! ## The draft -/

/-- The registry once all compounds are bound. -/
def settle (r : Registry) : Registry :=
  (bindAll.run r).2

/-- The nodes before they have got their inverse edges. -/
def draft (r : Registry) : Array TypeNode :=
  r.settle.arena (bindAll.run r).1

theorem grows_settle (r : Registry) : r.Grows r.settle :=
  (bindAll_spec r).1

theorem indexed_settle (h : r.Indexed) : r.settle.Indexed :=
  r.grows_settle.indexed h

theorem size_draft (r : Registry) : r.draft.size = r.settle.size :=
  size_arena _ _

/-- The node of a compound is the one that is bound for it. -/
theorem draft_of_forall₂ {Q : TypeId × Compound → TypeNode → Prop}
    (hQ : List.Forall₂ Q r.definitions (bindAll.run r).1) (hid : ∀ d n, Q d n → n.id = d.1)
    (h : (owner, c) ∈ r.definitions) : ∃ n, r.draft[owner.index]? = some n ∧ Q (owner, c) n := by
  obtain ⟨slot, hslot, hc⟩ := mem_definitions.1 h
  obtain ⟨n, hn, hbinds⟩ := exists_right_of_mem hQ h
  have hsome : ((bindAll.run r).1.reverse.find? (·.id = owner)).isSome := by
    rw [List.find?_isSome]
    exact ⟨n, by simpa using hn, by simpa using hid _ n hbinds⟩
  obtain ⟨found, hfound⟩ := Option.isSome_iff_exists.1 hsome
  refine ⟨found, ?_, ?_⟩
  · rw [draft, getElem?_arena, r.grows_settle.slot? hslot, Option.map_some, hfound]
    rfl
  · -- Of two nodes that are bound for one slot both are bound for the same compound.
    have hmem : found ∈ (bindAll.run r).1 := by
      simpa using List.mem_of_find?_eq_some hfound
    have howner : found.id = owner := by simpa using List.find?_some hfound
    obtain ⟨⟨owner', c'⟩, hdefinition, hbinds'⟩ := exists_left_of_mem hQ hmem
    obtain rfl : owner' = owner := (hid _ found hbinds').symm.trans howner
    obtain ⟨slot', hslot', hc'⟩ := mem_definitions.1 hdefinition
    obtain rfl := Option.some.inj (hslot.symm.trans hslot')
    obtain rfl := Option.some.inj (hc.symm.trans hc')
    exact hbinds'

theorem draft_definition (h : (owner, c) ∈ r.definitions) :
    ∃ n, r.draft[owner.index]? = some n ∧ r.BindsDefinition r.settle (owner, c) n :=
  draft_of_forall₂ (bindAll_spec r).2
    (fun _ _ ⟨_, hsite, hbinds⟩ => hbinds.id.trans hsite.owner) h

/-- The node of any other slot is a leaf. -/
theorem draft_leaf (hslot : r.settle.slot? id = some slot) (hc : slot.compound? = none) :
    r.draft[id.index]? = some (leaf r.settle.origin id slot) := by
  have hnone : (bindAll.run r).1.reverse.find? (·.id = id) = none := by
    rw [List.find?_eq_none]
    intro n hn hid
    obtain ⟨⟨owner, c⟩, hdefinition, site, hsite, hbinds⟩ :=
      exists_left_of_mem (bindAll_spec r).2 (List.mem_reverse.1 hn)
    obtain ⟨slot', hslot', hc'⟩ := mem_definitions.1 hdefinition
    obtain rfl : owner = id :=
      hsite.owner.symm.trans (hbinds.id.symm.trans (by simpa using hid))
    obtain rfl := Option.some.inj ((r.grows_settle.slot? hslot').symm.trans hslot)
    simp [hc] at hc'
  rw [draft, getElem?_arena, hslot, hnone]
  rfl

theorem slot?_settle_of_draft (h : r.draft[id.index]? = some n) :
    ∃ slot, r.settle.slot? id = some slot := by
  have hlt := (Array.getElem?_eq_some_iff.1 h).1
  rw [size_draft] at hlt
  exact ⟨_, Array.getElem?_eq_getElem hlt⟩

/-- A node of the draft is that of a compound or a leaf. -/
theorem draft_cases (h : r.draft[id.index]? = some n) :
    (∃ c, (id, c) ∈ r.definitions ∧ r.BindsDefinition r.settle (id, c) n) ∨
      ∃ slot, r.settle.slot? id = some slot ∧ slot.compound? = none ∧
        n = leaf r.settle.origin id slot := by
  obtain ⟨slot, hslot⟩ := slot?_settle_of_draft h
  cases hc : slot.compound? with
  | none =>
    refine .inr ⟨slot, hslot, hc, ?_⟩
    exact Option.some.inj (h.symm.trans (draft_leaf hslot hc))
  | some c =>
    have hslot' := r.grows_settle.compound hslot (by simp [hc])
    have hdefinition : (id, c) ∈ r.definitions := mem_definitions.2 ⟨slot, hslot', hc⟩
    obtain ⟨n', hn', hbinds⟩ := draft_definition hdefinition
    obtain rfl := Option.some.inj (h.symm.trans hn')
    exact .inl ⟨c, hdefinition, hbinds⟩

theorem leaf_id (origin : Universe) (id : TypeId) (slot : Slot) :
    (leaf origin id slot).id = id := by
  unfold leaf
  cases slot.origin <;> rfl

theorem leaf_fullName (origin : Universe) (id : TypeId) (slot : Slot) :
    (leaf origin id slot).fullName = slot.fullName := by
  unfold leaf
  cases slot.origin <;> rfl

theorem leaf_kind (origin : Universe) (id : TypeId) (hc : slot.compound? = none) :
    (leaf origin id slot).kind = slot.kind := by
  unfold leaf Slot.kind
  cases horigin : slot.origin with
  | compound c => simp [Slot.compound?, horigin] at hc
  | _ => rfl

theorem draft_id (h : r.draft[id.index]? = some n) : n.id = id := by
  rcases draft_cases h with ⟨c, -, site, hsite, hbinds⟩ | ⟨slot, -, -, rfl⟩
  · exact hbinds.id.trans hsite.owner
  · exact leaf_id _ _ _

theorem draft_kind (hslot : r.settle.slot? id = some slot) (h : r.draft[id.index]? = some n) :
    n.kind = slot.kind := by
  rcases draft_cases h with ⟨c, hdefinition, site, -, hbinds⟩ | ⟨slot', hslot', hc, rfl⟩
  · obtain ⟨slot', hslot', hc⟩ := mem_definitions.1 hdefinition
    obtain rfl := Option.some.inj ((r.grows_settle.slot? hslot').symm.trans hslot)
    obtain ⟨bases, derived, -, -, hvariant⟩ := hbinds.variant
    rw [TypeNode.kind, hvariant.kind, Slot.kind]
    cases horigin : slot'.origin <;> simp_all [Slot.compound?]
  · obtain rfl := Option.some.inj (hslot'.symm.trans hslot)
    exact leaf_kind _ _ hc

/-! ## The graph -/

@[simp] theorem names_resolve (r : Registry) : r.resolve.1.names = r.settle.names := rfl

theorem get?_resolve (r : Registry) (id : TypeId) : r.resolve.1.get? id =
    r.draft[id.index]?.map fun n => n.linked (TypeGraph.listers r.draft id)
      (TypeGraph.namers r.draft id) (TypeGraph.heirs r.draft id) :=
  TypeGraph.getElem?_linkInverse r.draft id

/-- A node of the graph is one of the draft with its inverse edges. -/
theorem get?_resolve_eq_some : r.resolve.1.get? id = some n ↔ ∃ d, r.draft[id.index]? = some d ∧
    d.linked (TypeGraph.listers r.draft id) (TypeGraph.namers r.draft id)
      (TypeGraph.heirs r.draft id) = n := by
  rw [get?_resolve, Option.map_eq_some_iff]

theorem size_resolve (r : Registry) : r.resolve.1.size = r.settle.size :=
  (TypeGraph.size_linkInverse r.draft).trans r.size_draft

/-- The node of a slot. -/
theorem get?_resolve_of_slot (hslot : r.settle.slot? id = some slot) :
    ∃ n, r.resolve.1.get? id = some n ∧ n.id = id ∧ n.kind = slot.kind := by
  have hlt : id.index < r.draft.size := by
    rw [size_draft]
    exact (Array.getElem?_eq_some_iff.1 hslot).1
  have hn : r.draft[id.index]? = some r.draft[id.index] := Array.getElem?_eq_getElem hlt
  refine ⟨_, get?_resolve_eq_some.2 ⟨_, hn, rfl⟩, ?_, ?_⟩
  · rw [TypeNode.linked_id, draft_id hn]
  · rw [TypeNode.linked_kind, draft_kind hslot hn]

theorem slot?_of_get?_resolve (h : r.resolve.1.get? id = some n) :
    ∃ slot, r.settle.slot? id = some slot := by
  obtain ⟨n', hn', -⟩ := get?_resolve_eq_some.1 h
  exact slot?_settle_of_draft hn'

end Registry

end TypeAtlas
