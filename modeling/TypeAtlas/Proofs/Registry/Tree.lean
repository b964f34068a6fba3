import TypeAtlas.Proofs.Graph.Traversal
import TypeAtlas.Proofs.Registry.Resolution

/-!
# Parents and children of a resolved universe

Each node of a resolved universe knows its parent, and unless it is a type parameter its parent
lists it. Only the global namespace and what stands for a name alone may lack a parent.

## Main definitions

* `TypeGraph.Linked` — what parents and children of a graph guarantee.

The main statement is `Registry.linked_resolve`.
-/

namespace TypeAtlas

open Binding

/-- What parents and children of a graph guarantee. -/
structure TypeGraph.Linked (g : TypeGraph) : Prop where
  id : ∀ id n, g.get? id = some n → n.id = id
  global : ∃ n, g.get? .global = some n ∧ n.parent = none ∧ n.kind = .namespace
  parent_mem : ∀ x y, g.ParentOf x y → y ∈ g.ids
  child_mem : ∀ x y, g.ChildOf x y → y ∈ g.ids
  listed : ∀ id n parent, g.get? id = some n → n.kind ≠ .genericParameter →
    n.parent = some parent → g.ChildOf parent id
  parentless : ∀ id n, g.get? id = some n → n.parent = none →
    id = .global ∨ n.kind = .facade ∨ n.kind = .primitive

namespace Registry

variable {r moment : Registry} {id parent : TypeId} {c : Compound} {n : TypeNode}

/-! ## The draft -/

theorem mem_draft (hn : n ∈ r.draft) : r.draft[n.id.index]? = some n := by
  obtain ⟨i, hi⟩ := Array.mem_iff_getElem?.1 hn
  have hi : r.draft[(⟨i⟩ : TypeId).index]? = some n := hi
  rwa [draft_id hi]

theorem isNamed_parentOf (h : moment.Indexed) (owner : TypeId) (c : Compound) :
    moment.IsNamed (moment.parentOf owner c) := by
  have hglobal : moment.IsNamed .global := ⟨"", h.names_empty⟩
  unfold parentOf
  cases c.parentName with
  | none => exact hglobal
  | some name =>
    dsimp only
    cases hfound : (name :: Name.enclosing name).findSome? fun candidate =>
        (moment.names[candidate]?).filter (· != owner) with
    | none => exact hglobal
    | some found =>
      obtain ⟨candidate, -, hcandidate⟩ := List.exists_of_findSome?_eq_some hfound
      exact ⟨candidate, (Option.filter_eq_some_iff.1 hcandidate).1⟩

/-- What a slot holds once all compounds are bound. -/
theorem slot_settle_cases {slot : Slot} (h : r.Interned) (hslot : r.settle.slot? id = some slot) :
    id = .global ∨ slot.compound?.isSome ∨ slot.isPlaceholder = true ∨
      r.settle.IsParameterSlot slot := by
  rcases r.grows_settle.slot_cases hslot with hold | hplaceholder | hparameter
  · by_cases hid : id = .global
    · exact .inl hid
    · rcases h.content id slot hold hid with hc | hplaceholder
      · exact .inr (.inl hc)
      · exact .inr (.inr (.inl hplaceholder))
  · exact .inr (.inr (.inl hplaceholder))
  · exact .inr (.inr (.inr hparameter))

/-- A leaf is the global namespace, or stands for a name alone, or is a type parameter of a
definition. -/
theorem leaf_cases {slot : Slot} (h : r.Interned) (hslot : r.settle.slot? id = some slot)
    (hc : slot.compound? = none) (origin : Universe) :
    (id = .global ∧ (leaf origin id slot).parent = none ∧
        (leaf origin id slot).kind = .namespace) ∨
      ((leaf origin id slot).parent = none ∧
        ((leaf origin id slot).kind = .facade ∨ (leaf origin id slot).kind = .primitive)) ∨
      ∃ owner, (leaf origin id slot).parent = some owner ∧
        (leaf origin id slot).kind = .genericParameter ∧ r.settle.IsNamed owner := by
  rcases slot_settle_cases h hslot with rfl | hsome | hplaceholder | hparameter
  · left
    rw [(indexed_settle h.toIndexed).global] at hslot
    obtain rfl := Option.some.inj hslot
    exact ⟨rfl, rfl, rfl⟩
  · simp [hc] at hsome
  · right
    left
    cases horigin : slot.origin <;>
      simp_all [leaf, Slot.isPlaceholder, TypeNode.kind, TypeVariant.kind]
  · obtain ⟨owner, position, horigin, ownerSlot, howner, hsome⟩ := hparameter
    obtain ⟨c, hc⟩ := Option.isSome_iff_exists.1 hsome
    have hdefinition : (owner, c) ∈ r.definitions :=
      mem_definitions.2 ⟨ownerSlot, r.grows_settle.compound howner hsome, hc⟩
    refine .inr (.inr ⟨owner, ?_, ?_, r.grows_settle.isNamed (h.isNamed_of_definition hdefinition)⟩)
    · simp [leaf, horigin]
    · simp [leaf, horigin, TypeNode.kind, TypeVariant.kind]

/-- Some name leads to the parent of a node of the draft. -/
theorem isNamed_of_draft_parent (h : r.Interned) (hn : r.draft[id.index]? = some n)
    (hparent : n.parent = some parent) : r.settle.IsNamed parent := by
  rcases draft_cases hn with ⟨c, -, site, -, hbinds⟩ | ⟨slot, hslot, hc, rfl⟩
  · obtain ⟨moment, hmoment, hs, heq⟩ := hbinds.parent
    obtain rfl := Option.some.inj (heq.symm.trans hparent)
    exact hs.isNamed (isNamed_parentOf (hmoment.indexed h.toIndexed) site.owner c)
  · rcases leaf_cases h hslot hc r.settle.origin with
      ⟨-, hnone, -⟩ | ⟨hnone, -⟩ | ⟨owner, hsome, -, hnamed⟩
    · simp [hnone] at hparent
    · simp [hnone] at hparent
    · obtain rfl := Option.some.inj (hsome.symm.trans hparent)
      exact hnamed

theorem index_lt_of_draft_parent (h : r.Interned) (hn : r.draft[id.index]? = some n)
    (hparent : n.parent = some parent) : parent.index < r.settle.size :=
  (indexed_settle h.toIndexed).index_lt_of_isNamed (isNamed_of_draft_parent h hn hparent)

/-- A node of the draft without a parent is the global namespace or stands for a name alone. -/
theorem draft_parentless (h : r.Interned) (hn : r.draft[id.index]? = some n)
    (hparent : n.parent = none) :
    (id = .global ∧ n.kind = .namespace) ∨ n.kind = .facade ∨ n.kind = .primitive := by
  rcases draft_cases hn with ⟨c, -, site, -, hbinds⟩ | ⟨slot, hslot, hc, rfl⟩
  · obtain ⟨moment, -, -, heq⟩ := hbinds.parent
    simp [hparent] at heq
  · rcases leaf_cases h hslot hc r.settle.origin with
      ⟨hid, -, hkind⟩ | ⟨-, hkind⟩ | ⟨owner, hsome, -⟩
    · exact .inl ⟨hid, hkind⟩
    · exact .inr hkind
    · simp [hsome] at hparent

theorem draft_global (h : r.Interned) : ∃ n, r.draft[TypeId.global.index]? = some n ∧
    n.id = .global ∧ n.parent = none ∧ n.kind = .namespace :=
  ⟨_, draft_leaf (indexed_settle h.toIndexed).global rfl, rfl, rfl, rfl⟩

/-- Some name leads to what a reference was bound to at some moment. -/
theorem isNamed_of_ran_refer {s : Registry} {reference : String} (h : r.Indexed)
    (hran : Ran r s (refer reference) id) : s.IsNamed id := by
  obtain ⟨moment, hmoment, hs, rfl⟩ := hran
  rw [run_refer] at hs ⊢
  have hindexed := (hmoment.trans (moment.grows_getOrCreate reference)).indexed h
  exact hs.isNamed (hindexed.isNamed_of_lookup? (moment.lookup?_getOrCreate reference))

/-- Some name leads to a child of a node of the draft. -/
theorem isNamed_of_draft_child {child : TypeId} (h : r.Interned)
    (hn : r.draft[id.index]? = some n) (hchild : child ∈ n.children) :
    r.settle.IsNamed child := by
  rcases draft_cases hn with ⟨c, -, site, -, hbinds⟩ | ⟨slot, -, -, rfl⟩
  · obtain ⟨ids, hids, heq⟩ := hbinds.children
    rw [heq, Site.mem_collect, List.mem_map] at hchild
    obtain ⟨⟨found, hfound, htarget⟩, -⟩ := hchild
    obtain ⟨name, -, hran⟩ := exists_left_of_mem hids hfound
    obtain rfl : found = child := by
      unfold Site.childTarget at htarget
      split at htarget
      · simp at htarget
      · exact Option.some.inj htarget
    exact isNamed_of_ran_refer h.toIndexed hran
  · cases horigin : slot.origin <;> simp [leaf, horigin] at hchild

theorem index_lt_of_draft_child {child : TypeId} (h : r.Interned)
    (hn : r.draft[id.index]? = some n) (hchild : child ∈ n.children) :
    child.index < r.settle.size :=
  (indexed_settle h.toIndexed).index_lt_of_isNamed (isNamed_of_draft_child h hn hchild)

/-! ## The graph -/

theorem mem_ids_resolve : id ∈ r.resolve.1.ids ↔ id.index < r.settle.size := by
  rw [TypeGraph.mem_ids, ← size_resolve]
  constructor
  · rintro ⟨n, hn⟩
    exact (Array.getElem?_eq_some_iff.1 hn).1
  · exact fun hlt => ⟨_, Array.getElem?_eq_getElem hlt⟩

theorem childOf_resolve {child : TypeId} : r.resolve.1.ChildOf id child ↔
    ∃ n, r.draft[id.index]? = some n ∧
      (child ∈ n.children ∨ child ∈ TypeGraph.namers r.draft id) := by
  unfold TypeGraph.ChildOf TypeGraph.childrenOf
  rw [get?_resolve]
  cases r.draft[id.index]? with
  | none => simp
  | some n => simp [TypeNode.mem_linked_children]

theorem parentOf_resolve {parent : TypeId} : r.resolve.1.ParentOf id parent ↔
    ∃ n, r.draft[id.index]? = some n ∧ (n.parent.or
      (if n.isGlobal then none else (TypeGraph.listers r.draft id).head?)) = some parent := by
  unfold TypeGraph.ParentOf TypeGraph.parentOf?
  rw [get?_resolve]
  cases r.draft[id.index]? with
  | none => simp
  | some n => simp [TypeNode.linked_parent]

/-- A lister of a node is a slot, and lists it in the draft. -/
theorem draft_of_mem_listers {lister : TypeId} (h : lister ∈ TypeGraph.listers r.draft id) :
    ∃ n, r.draft[lister.index]? = some n ∧ id ∈ n.children := by
  obtain ⟨n, hn, rfl, hid⟩ := (TypeGraph.mem_listers _ _).1 h
  exact ⟨n, mem_draft hn, hid⟩

theorem linked_resolve (h : r.Interned) : r.resolve.1.Linked where
  id := by
    intro id n hn
    obtain ⟨slot, hslot⟩ := slot?_of_get?_resolve hn
    obtain ⟨n', hn', hid, -⟩ := get?_resolve_of_slot hslot
    obtain rfl := Option.some.inj (hn.symm.trans hn')
    exact hid
  global := by
    obtain ⟨n, hn, hid, hparent, hkind⟩ := draft_global h
    refine ⟨_, get?_resolve_eq_some.2 ⟨_, hn, rfl⟩, ?_, ?_⟩
    · simp [TypeNode.linked_parent, hparent, TypeNode.isGlobal, hid]
    · rw [TypeNode.linked_kind, hkind]
  parent_mem := by
    intro x y hxy
    obtain ⟨n, hn, hparent⟩ := parentOf_resolve.1 hxy
    rw [mem_ids_resolve]
    rcases Option.or_eq_some_iff.1 hparent with hparent | ⟨-, hlister⟩
    · exact index_lt_of_draft_parent h hn hparent
    · split at hlister
      · simp at hlister
      · obtain ⟨n', hn', -⟩ := draft_of_mem_listers (List.mem_of_head? hlister)
        rw [← size_draft]
        exact (Array.getElem?_eq_some_iff.1 hn').1
  child_mem := by
    intro x y hxy
    obtain ⟨n, hn, hchild⟩ := childOf_resolve.1 hxy
    rw [mem_ids_resolve]
    rcases hchild with hchild | hchild
    · exact index_lt_of_draft_child h hn hchild
    · obtain ⟨n', hn', rfl, -⟩ := (TypeGraph.mem_namers _ _).1 hchild
      rw [← size_draft]
      exact (Array.getElem?_eq_some_iff.1 (mem_draft hn')).1
  listed := by
    intro id n parent hn hkind hparent
    obtain ⟨d, hd, rfl⟩ := get?_resolve_eq_some.1 hn
    rw [TypeNode.linked_kind] at hkind
    rw [TypeNode.linked_parent] at hparent
    rw [childOf_resolve]
    rcases Option.or_eq_some_iff.1 hparent with hparent | ⟨-, hlister⟩
    · have hlt := index_lt_of_draft_parent h hd hparent
      rw [← size_draft] at hlt
      refine ⟨_, Array.getElem?_eq_getElem hlt, .inr ?_⟩
      exact (TypeGraph.mem_namers _ _).2
        ⟨d, Array.mem_of_getElem? hd, draft_id hd, hkind, hparent⟩
    · split at hlister
      · simp at hlister
      · obtain ⟨n', hn', hchild⟩ := draft_of_mem_listers (List.mem_of_head? hlister)
        exact ⟨n', hn', .inl hchild⟩
  parentless := by
    intro id n hn hparent
    obtain ⟨d, hd, rfl⟩ := get?_resolve_eq_some.1 hn
    rw [TypeNode.linked_parent] at hparent
    rw [TypeNode.linked_kind]
    rcases draft_parentless h hd (Option.or_eq_none_iff.1 hparent).1 with ⟨hid, -⟩ | hkind
    · exact .inl hid
    · exact .inr hkind

end Registry

end TypeAtlas
