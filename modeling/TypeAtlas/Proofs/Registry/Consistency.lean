import TypeAtlas.Proofs.Registry.Tree

/-!
# Consistency of a resolved universe

The arena grows while the compounds are bound, and the inverse edges are added to it afterwards.
Still every position that a node of the graph holds, at whatever depth, is that of a node, no list
of a node repeats itself or holds the node, and each edge has its inverse.

## Main definitions

* `TypeNode.references` — all positions that a node holds.
* `TypeNode.Consistent` — what the positions that a node holds guarantee.
* `TypeGraph.Consistent` — what the nodes of a graph guarantee of each other.

The main statement is `Registry.consistent_resolve`.
-/

namespace TypeAtlas

open Binding

/-! ## References -/

namespace TypeRef

mutual

theorem targets_eq_levels (t : TypeRef) : t.targets = t.levels.filterMap (·.target) := by
  match t with
  | ⟨descriptor, target, arguments⟩ =>
    rw [targets, levels, targetsOf_eq_levelsOf arguments]
    cases target <;> simp

theorem targetsOf_eq_levelsOf (ts : List TypeRef) :
    targetsOf ts = (levelsOf ts).filterMap (·.target) := by
  match ts with
  | [] => rfl
  | t :: ts =>
    rw [targetsOf, levelsOf, List.filterMap_append, targets_eq_levels t, targetsOf_eq_levelsOf ts]

end

end TypeRef

/-- The nodes that the types of a member are bound to, at every depth. -/
def BoundMember.targets (m : BoundMember) : List TypeId :=
  m.declaredType.targets ++ m.parameters.flatMap (·.declaredType.targets)

/-- All positions in what a node is. -/
def TypeVariant.references : TypeVariant → List TypeId
  | .composite _ body => body.members.flatMap (·.targets) ++ body.baseTypes ++ body.derivedTypes ++
      body.genericParameters
  | .enum _ baseTypes => baseTypes
  | .function overloads => overloads.flatMap (·.targets)
  | .genericParameter owner _ => [owner]
  | .namespace | .primitive | .facade => []

/-- All positions that a node holds. -/
def TypeNode.references (n : TypeNode) : List TypeId :=
  n.parent.toList ++ n.children ++ n.variant.references

/-! ## Consistency -/

/-- What the positions that a node holds guarantee, in an arena of some size. -/
structure TypeNode.Consistent (size : Nat) (n : TypeNode) : Prop where
  inRange : ∀ x ∈ n.references, x.index < size
  children_nodup : n.children.Nodup
  children_other : n.id ∉ n.children
  children_nonglobal : .global ∉ n.children
  baseTypes : ∀ bases, n.baseTypes? = some bases → bases.Nodup ∧ n.id ∉ bases
  derivedTypes : ∀ derived, n.derivedTypes? = some derived → derived.Nodup ∧ n.id ∉ derived

/-- What the nodes of a graph guarantee of each other. -/
structure TypeGraph.Consistent (g : TypeGraph) : Prop where
  id : ∀ i n, g.get? i = some n → n.id = i
  node : ∀ i n, g.get? i = some n → n.Consistent g.size
  global : ∃ n, g.get? .global = some n ∧ n.parent = none
  /-- A parent lists its children, type parameters apart. -/
  listed : ∀ i n parent, g.get? i = some n → n.kind ≠ .genericParameter →
    n.parent = some parent → ∃ p, g.get? parent = some p ∧ i ∈ p.children
  /-- A composite knows the types that are derived from it. -/
  derived : ∀ i n base b kind body bases, g.get? i = some n → n.baseTypes? = some bases →
    base ∈ bases → g.get? base = some b → b.variant = .composite kind body →
    i ∈ body.derivedTypes

namespace TypeNode

variable {n : TypeNode} {size : Nat} {listers namers heirs : List TypeId}

theorem mem_references {x : TypeId} : x ∈ n.references ↔
    n.parent = some x ∨ x ∈ n.children ∨ x ∈ n.variant.references := by
  simp [references]

/-- A composite gains heirs, and nothing else refers to more nodes than before. -/
theorem mem_references_mapComposite {v : TypeVariant} {x : TypeId}
    (h : x ∈ (v.mapComposite fun body =>
      { body with derivedTypes := Linking.appendNew body.derivedTypes heirs }).references) :
    x ∈ v.references ∨ x ∈ heirs := by
  cases v with
  | composite kind body =>
    simp only [TypeVariant.mapComposite, TypeVariant.references, List.mem_append,
      Linking.mem_appendNew] at h ⊢
    grind
  | _ => exact .inl h

/-- The inverse edges are all that is added to what a node refers to. -/
theorem mem_references_linked {x : TypeId} (h : x ∈ (n.linked listers namers heirs).references) :
    x ∈ n.references ∨ x ∈ listers ∨ x ∈ namers ∨ x ∈ heirs := by
  rcases mem_references.1 h with hparent | hchild | hvariant
  · rw [linked_parent] at hparent
    rcases Option.or_eq_some_iff.1 hparent with hparent | ⟨-, hlister⟩
    · exact .inl (mem_references.2 (.inl hparent))
    · split at hlister
      · simp at hlister
      · exact .inr (.inl (List.mem_of_head? hlister))
  · rcases (mem_linked_children n _ _ _).1 hchild with hchild | hnamer
    · exact .inl (mem_references.2 (.inr (.inl hchild)))
    · exact .inr (.inr (.inl hnamer))
  · rcases mem_references_mapComposite hvariant with hvariant | hheir
    · exact .inl (mem_references.2 (.inr (.inr hvariant)))
    · exact .inr (.inr (.inr hheir))

theorem linked_derivedTypes? : (n.linked listers namers heirs).derivedTypes? =
    match n.variant with
    | .composite _ body => some (Linking.appendNew body.derivedTypes heirs)
    | _ => n.derivedTypes? := by
  unfold derivedTypes? linked
  cases n.variant <;> rfl

/-- Inverse edges keep a node consistent if they come from other nodes of the arena. -/
theorem Consistent.linked (h : n.Consistent size) (hlisters : ∀ x ∈ listers, x.index < size)
    (hnamers : ∀ x ∈ namers, x.index < size ∧ x ≠ n.id ∧ x ≠ .global)
    (hheirs : ∀ x ∈ heirs, x.index < size ∧ x ≠ n.id) :
    (n.linked listers namers heirs).Consistent size where
  inRange := by
    intro x hx
    rcases mem_references_linked hx with hx | hlister | hnamer | hheir
    · exact h.inRange x hx
    · exact hlisters x hlister
    · exact (hnamers x hnamer).1
    · exact (hheirs x hheir).1
  children_nodup := Linking.nodup_appendNew h.children_nodup namers
  children_other := by
    rw [linked_id, mem_linked_children]
    rintro (hmem | hmem)
    · exact h.children_other hmem
    · exact (hnamers _ hmem).2.1 rfl
  children_nonglobal := by
    rw [mem_linked_children]
    rintro (hmem | hmem)
    · exact h.children_nonglobal hmem
    · exact (hnamers _ hmem).2.2 rfl
  baseTypes := by
    rw [linked_baseTypes?, linked_id]
    exact h.baseTypes
  derivedTypes := by
    intro derived hderived
    rw [linked_derivedTypes?] at hderived
    rw [linked_id]
    split at hderived
    · next kind body hv =>
      obtain rfl := Option.some.inj hderived
      obtain ⟨hnodup, hother⟩ := h.derivedTypes body.derivedTypes (by simp [derivedTypes?, hv])
      refine ⟨Linking.nodup_appendNew hnodup heirs, ?_⟩
      rw [Linking.mem_appendNew]
      rintro (hmem | hmem)
      · exact hother hmem
      · exact (hheirs _ hmem).2 rfl
    · exact h.derivedTypes derived hderived

end TypeNode

/-! ## Bound compounds -/

namespace Site

variable {r s : Registry} {site : Site} {c : Compound} {id : TypeId}

theorem nodup_addTarget {ids : List TypeId} (h : ids.Nodup) (target : Option TypeId) :
    (site.addTarget ids target).Nodup := by
  unfold addTarget
  cases target with
  | none => exact h
  | some id =>
    dsimp only [addOther]
    split
    · exact h
    · next hskip =>
      have hfresh : id ∉ ids := by simp_all
      exact List.nodup_append.2 ⟨h, by simp, by grind⟩

theorem nodup_collect (targets : List (Option TypeId)) : (site.collect targets).Nodup := by
  unfold collect
  induction targets using List.reverseRecOn with
  | nil => exact List.nodup_nil
  | append_singleton targets target ih =>
    rw [List.foldl_concat]
    exact nodup_addTarget ih target

/-- Some name leads to each type parameter in sight. -/
def SeesNamed (s : Registry) (site : Site) : Prop :=
  ∀ generic ∈ site.generics, s.IsNamed generic.2

theorem seesNamed_of (h : Site.Of r s id c site) : site.SeesNamed s :=
  fun generic hg => ⟨_, h.generics.slots generic hg⟩

/-- Some name leads to what a name was bound to at some moment. -/
theorem isNamed_of_ran {name : String} (h : r.Indexed) (hsite : site.SeesNamed s)
    (hran : Ran r s (site.bindName name) (some id)) : s.IsNamed id := by
  obtain ⟨moment, hmoment, hs, hid⟩ := hran
  rw [run_bindName] at hs hid
  split at hid
  · simp at hid
  · next hname =>
    rw [if_neg hname] at hs
    cases hgeneric : site.generics.lookup name with
    | some found =>
      obtain rfl : found = id := by simpa [hgeneric] using hid
      obtain ⟨before, after, hsplit, -⟩ := List.lookup_eq_some_iff.1 hgeneric
      exact hsite (name, found) (by simp [hsplit])
    | none =>
      cases hfound : site.findEnclosing? moment name with
      | some found =>
        simp only [hgeneric, hfound] at hs hid
        obtain rfl := Option.some.inj hid
        obtain ⟨scope, -, hscope⟩ := List.exists_of_findSome?_eq_some hfound
        exact ⟨_, hs.names hscope⟩
      | none =>
        simp only [hgeneric, hfound] at hs hid
        have hrefer : Ran r s (Registry.refer name) id := by
          refine ⟨moment, hmoment, ?_, ?_⟩
          · rwa [Registry.run_refer]
          · rw [Registry.run_refer]
            exact Option.some.inj hid
        exact Registry.isNamed_of_ran_refer h hrefer

theorem isNamed_of_bindsNames {rawNames : List String} {targets : List (Option TypeId)}
    (h : r.Indexed) (hsite : site.SeesNamed s) (ht : site.BindsNames r s rawNames targets)
    (hid : id ∈ site.collect targets) : s.IsNamed id := by
  rw [mem_collect] at hid
  obtain ⟨raw, -, hran⟩ := exists_left_of_mem ht hid.1
  exact isNamed_of_ran h hsite hran

theorem isNamed_of_binds {d : Descriptor} {t : TypeRef} (h : r.Indexed)
    (hsite : site.SeesNamed s) (ht : site.Binds r s d t) (hid : id ∈ t.targets) :
    s.IsNamed id := by
  rw [TypeRef.targets_eq_levels, List.mem_filterMap] at hid
  obtain ⟨level, hlevel, htarget⟩ := hid
  have hran := (ht.2 level hlevel).2
  rw [htarget] at hran
  exact isNamed_of_ran h hsite hran

theorem isNamed_of_bindsMembers {ms : List Member} {bs : List BoundMember} (h : r.Indexed)
    (hsite : site.SeesNamed s) (hb : site.BindsMembers r s ms bs)
    (hid : id ∈ bs.flatMap (·.targets)) : s.IsNamed id := by
  obtain ⟨b, hmem, hid⟩ := List.mem_flatMap.1 hid
  obtain ⟨m, -, hm⟩ := exists_left_of_mem hb hmem
  rcases List.mem_append.1 hid with hid | hid
  · exact isNamed_of_binds h hsite hm.declaredType hid
  · obtain ⟨bound, hbound, hid⟩ := List.mem_flatMap.1 hid
    obtain ⟨p, -, hp⟩ := exists_left_of_mem hm.parameters hbound
    exact isNamed_of_binds h hsite hp.declaredType hid

/-- What a compound is made of refers to slots that have names. -/
theorem isNamed_of_bindsVariant {baseTypes derivedTypes : List TypeId} {v : TypeVariant}
    (h : r.Indexed) (hsite : site.SeesNamed s)
    (hbases : ∀ x ∈ baseTypes, s.IsNamed x) (hderived : ∀ x ∈ derivedTypes, s.IsNamed x)
    (hv : site.BindsVariant r s c baseTypes derivedTypes v) (hid : id ∈ v.references) :
    s.IsNamed id := by
  cases v with
  | composite kind body =>
    obtain ⟨-, hmembers, rfl, rfl, hgenerics, -⟩ := hv
    simp only [TypeVariant.references, List.mem_append] at hid
    rcases hid with ((hid | hid) | hid) | hid
    · exact isNamed_of_bindsMembers h hsite hmembers hid
    · exact hbases id hid
    · exact hderived id hid
    · rw [hgenerics] at hid
      obtain ⟨generic, hgeneric, rfl⟩ := List.mem_map.1 hid
      exact hsite generic hgeneric
  | enum values bases =>
    obtain ⟨-, -, rfl⟩ := hv
    exact hbases id hid
  | function overloads => exact isNamed_of_bindsMembers h hsite hv.2 hid
  | genericParameter owner position => exact hv.elim
  | «namespace» | primitive | facade => simp [TypeVariant.references] at hid

theorem BindsVariant.baseTypes {baseTypes derivedTypes bases : List TypeId} {n : TypeNode}
    (h : site.BindsVariant r s c baseTypes derivedTypes n.variant)
    (hbases : n.baseTypes? = some bases) : bases = baseTypes ∨ bases = [] := by
  unfold TypeNode.baseTypes? at hbases
  cases hv : n.variant with
  | composite kind body =>
    rw [hv] at h hbases
    obtain ⟨-, -, rfl, -⟩ := h
    exact .inl (Option.some.inj hbases).symm
  | enum values known =>
    rw [hv] at h hbases
    obtain ⟨-, -, rfl⟩ := h
    exact .inl (Option.some.inj hbases).symm
  | facade => simp [hv] at hbases
  | _ =>
    rw [hv] at hbases
    exact .inr (Option.some.inj hbases).symm

theorem BindsVariant.derivedTypes {baseTypes derivedTypes derived : List TypeId} {n : TypeNode}
    (h : site.BindsVariant r s c baseTypes derivedTypes n.variant)
    (hderived : n.derivedTypes? = some derived) : derived = derivedTypes ∨ derived = [] := by
  unfold TypeNode.derivedTypes? at hderived
  cases hv : n.variant with
  | composite kind body =>
    rw [hv] at h hderived
    obtain ⟨-, -, -, rfl, -⟩ := h
    exact .inl (Option.some.inj hderived).symm
  | facade => simp [hv] at hderived
  | _ =>
    rw [hv] at hderived
    exact .inr (Option.some.inj hderived).symm

end Site

/-! ## The draft -/

namespace Registry

variable {r : Registry} {id : TypeId} {n : TypeNode} {c : Compound}

/-- A definition is not the global namespace. -/
theorem ne_global_of_definition (h : r.Interned) (hc : (id, c) ∈ r.definitions) :
    id ≠ .global := by
  rintro rfl
  obtain ⟨slot, hslot, hcompound⟩ := mem_definitions.1 hc
  obtain rfl := Option.some.inj (hslot.symm.trans h.global)
  simp [Slot.compound?] at hcompound

theorem parentOf_ne (hid : id ≠ .global) (c : Compound) : r.parentOf id c ≠ id := by
  unfold parentOf
  cases c.parentName with
  | none => exact hid.symm
  | some name =>
    dsimp only
    cases hfound : (name :: Name.enclosing name).findSome? fun candidate =>
        (r.names[candidate]?).filter (· != id) with
    | none => exact hid.symm
    | some found =>
      obtain ⟨candidate, -, hcandidate⟩ := List.exists_of_findSome?_eq_some hfound
      simpa using (Option.filter_eq_some_iff.1 hcandidate).2

theorem leaf_children (origin : Universe) (id : TypeId) (slot : Slot) :
    (leaf origin id slot).children = [] := by
  unfold leaf
  cases slot.origin <;> rfl

/-- What a leaf refers to is the owner of a type parameter. -/
theorem leaf_references (origin : Universe) (id : TypeId) (slot : Slot) :
    (leaf origin id slot).references = (leaf origin id slot).parent.toList ++
      (leaf origin id slot).parent.toList := by
  unfold leaf
  cases slot.origin <;> rfl

theorem leaf_lists (origin : Universe) (id : TypeId) (slot : Slot) :
    ((leaf origin id slot).baseTypes?.getD []) = [] ∧
      ((leaf origin id slot).derivedTypes?.getD []) = [] := by
  unfold leaf
  cases slot.origin <;> exact ⟨rfl, rfl⟩

/-- Some name leads to each node that a node of the draft refers to. -/
theorem isNamed_of_draft_reference {x : TypeId} (h : r.Interned)
    (hn : r.draft[id.index]? = some n) (hx : x ∈ n.references) : r.settle.IsNamed x := by
  rcases draft_cases hn with ⟨c, -, site, hsite, hbinds⟩ | ⟨slot, -, -, rfl⟩
  · rcases TypeNode.mem_references.1 hx with hparent | hchild | hx
    · exact isNamed_of_draft_parent h hn hparent
    · exact isNamed_of_draft_child h hn hchild
    · have hsees := Site.seesNamed_of hsite
      obtain ⟨bases, derived, hbases, hderived, hvariant⟩ := hbinds.variant
      exact Site.isNamed_of_bindsVariant h.toIndexed hsees
        (fun _ hx => Site.isNamed_of_bindsNames h.toIndexed hsees hbases hx)
        (fun _ hx => Site.isNamed_of_bindsNames h.toIndexed hsees hderived hx) hvariant hx
  · rw [leaf_references] at hx
    exact isNamed_of_draft_parent h hn (by simpa using hx)

theorem index_lt_of_draft_reference (h : r.Interned) (hn : r.draft[id.index]? = some n) :
    ∀ x ∈ n.references, x.index < r.settle.size :=
  fun _ hx => (indexed_settle h.toIndexed).index_lt_of_isNamed (isNamed_of_draft_reference h hn hx)

theorem consistent_leaf {slot : Slot} (hn : r.draft[id.index]? = some n) (h : r.Interned)
    (heq : n = leaf r.settle.origin id slot) : n.Consistent r.settle.size := by
  have hchildren := leaf_children r.settle.origin id slot
  have hlists := leaf_lists r.settle.origin id slot
  rw [← heq] at hchildren hlists
  refine ⟨index_lt_of_draft_reference h hn, by simp [hchildren], by simp [hchildren],
    by simp [hchildren], ?_, ?_⟩
  · intro bases hbases
    obtain rfl : bases = [] := by simpa [hbases] using hlists.1
    simp
  · intro derived hderived
    obtain rfl : derived = [] := by simpa [hderived] using hlists.2
    simp

/-- Every node is consistent before it has got its inverse edges. -/
theorem consistent_draft (h : r.Interned) (hn : r.draft[id.index]? = some n) :
    n.Consistent r.settle.size := by
  rcases draft_cases hn with ⟨c, -, site, -, hbinds⟩ | ⟨slot, -, -, heq⟩
  · have howner : n.id = site.owner := hbinds.id
    obtain ⟨bases, derived, -, -, hvariant⟩ := hbinds.variant
    obtain ⟨ids, -, hchildren⟩ := hbinds.children
    have hother : ∀ targets, n.id ∉ site.collect targets := by simp [howner]
    refine ⟨index_lt_of_draft_reference h hn, ?_, ?_, ?_, ?_, ?_⟩
    · rw [hchildren]
      exact Site.nodup_collect _
    · rw [hchildren]
      exact hother _
    · rw [hchildren, Site.mem_collect, List.mem_map]
      rintro ⟨⟨x, -, hx⟩, -⟩
      simp [Site.childTarget] at hx
    · intro known hknown
      rcases hvariant.baseTypes hknown with rfl | rfl
      · exact ⟨Site.nodup_collect _, hother _⟩
      · simp
    · intro known hknown
      rcases hvariant.derivedTypes hknown with rfl | rfl
      · exact ⟨Site.nodup_collect _, hother _⟩
      · simp
  · exact consistent_leaf hn h heq

/-- No definition is its own parent. -/
theorem draft_parent_ne (h : r.Interned) (hn : r.draft[id.index]? = some n)
    (hkind : n.kind ≠ .genericParameter) : n.parent ≠ some id := by
  intro hparent
  rcases draft_cases hn with ⟨c, hc, site, hsite, hbinds⟩ | ⟨slot, hslot, hc, rfl⟩
  · obtain ⟨moment, -, -, heq⟩ := hbinds.parent
    rw [hsite.owner] at heq
    exact parentOf_ne (ne_global_of_definition h hc) c (Option.some.inj (heq.symm.trans hparent))
  · rcases leaf_cases h hslot hc r.settle.origin with
      ⟨-, hnone, -⟩ | ⟨hnone, -⟩ | ⟨owner, -, hgeneric, -⟩
    · simp [hnone] at hparent
    · simp [hnone] at hparent
    · exact hkind hgeneric

/-! ## The graph -/

theorem index_lt_of_mem_draft (hn : n ∈ r.draft) : n.id.index < r.settle.size := by
  rw [← size_draft]
  exact (Array.getElem?_eq_some_iff.1 (mem_draft hn)).1

/-- The graph of a consistent draft has its inverse edges from other nodes. -/
theorem consistent_linked (h : r.Interned) (hn : r.draft[id.index]? = some n) :
    (n.linked (TypeGraph.listers r.draft id) (TypeGraph.namers r.draft id)
      (TypeGraph.heirs r.draft id)).Consistent r.settle.size := by
  have hid := draft_id hn
  refine (consistent_draft h hn).linked ?_ ?_ ?_
  · intro x hx
    obtain ⟨other, hother, rfl, -⟩ := (TypeGraph.mem_listers _ _).1 hx
    exact index_lt_of_mem_draft hother
  · intro x hx
    obtain ⟨other, hother, rfl, hkind, hparent⟩ := (TypeGraph.mem_namers _ _).1 hx
    refine ⟨index_lt_of_mem_draft hother, ?_, ?_⟩
    · intro hsame
      exact draft_parent_ne h (mem_draft hother) hkind (by rw [hparent, hsame, hid])
    · intro hglobal
      obtain ⟨g, hg, -, hnone, -⟩ := draft_global h
      have hget := mem_draft hother
      rw [hglobal, hg] at hget
      obtain rfl := Option.some.inj hget
      simp [hnone] at hparent
  · intro x hx
    obtain ⟨other, hother, rfl, bases, hbases, hmem⟩ := (TypeGraph.mem_heirs _ _).1 hx
    refine ⟨index_lt_of_mem_draft hother, ?_⟩
    intro hsame
    refine ((consistent_draft h (mem_draft hother)).baseTypes bases hbases).2 ?_
    rwa [hsame, hid]

/-- Only definitions have edges that need an inverse. -/
theorem isNamed_of_draft_edge (h : r.Interned) (hn : n ∈ r.draft)
    (hedge : n.children ≠ [] ∨ n.kind ≠ .genericParameter ∧ n.parent.isSome ∨
      n.baseTypes?.getD [] ≠ []) : r.settle.IsNamed n.id := by
  rcases draft_cases (mem_draft hn) with ⟨c, hc, -⟩ | ⟨slot, hslot, hc, heq⟩
  · exact r.grows_settle.isNamed (h.isNamed_of_definition hc)
  · rw [heq] at hedge
    rcases hedge with hedge | ⟨hkind, hparent⟩ | hedge
    · exact absurd (leaf_children _ _ _) hedge
    · rcases leaf_cases h hslot hc r.settle.origin with
        ⟨-, hnone, -⟩ | ⟨hnone, -⟩ | ⟨owner, -, hgeneric, -⟩
      · simp [hnone] at hparent
      · simp [hnone] at hparent
      · exact absurd hgeneric hkind
    · exact absurd (leaf_lists _ _ _).1 hedge

/-- Some name leads to each node that a node of the graph refers to. -/
theorem Interned.isNamed_of_mem_references {x : TypeId} (h : r.Interned)
    (hn : r.resolve.1.get? id = some n) (hx : x ∈ n.references) : r.settle.IsNamed x := by
  obtain ⟨d, hd, rfl⟩ := get?_resolve_eq_some.1 hn
  rcases TypeNode.mem_references_linked hx with hx | hlister | hnamer | hheir
  · exact isNamed_of_draft_reference h hd hx
  · obtain ⟨other, hother, rfl, hmem⟩ := (TypeGraph.mem_listers _ _).1 hlister
    exact isNamed_of_draft_edge h hother (.inl (List.ne_nil_of_mem hmem))
  · obtain ⟨other, hother, rfl, hkind, hparent⟩ := (TypeGraph.mem_namers _ _).1 hnamer
    exact isNamed_of_draft_edge h hother (.inr (.inl ⟨hkind, by simp [hparent]⟩))
  · obtain ⟨other, hother, rfl, bases, hbases, hmem⟩ := (TypeGraph.mem_heirs _ _).1 hheir
    refine isNamed_of_draft_edge h hother (.inr (.inr ?_))
    rw [hbases]
    exact List.ne_nil_of_mem hmem

/-- A composite of the graph has every node as an heir that has it as a base. -/
theorem mem_derivedTypes_resolve {base : TypeId} {b : TypeNode} {kind : CompositeKind}
    {body : Composite} {bases : List TypeId} (hn : r.resolve.1.get? id = some n)
    (hbases : n.baseTypes? = some bases) (hbase : base ∈ bases)
    (hb : r.resolve.1.get? base = some b) (hv : b.variant = .composite kind body) :
    id ∈ body.derivedTypes := by
  obtain ⟨d, hd, rfl⟩ := get?_resolve_eq_some.1 hn
  obtain ⟨d', hd', rfl⟩ := get?_resolve_eq_some.1 hb
  rw [TypeNode.linked_baseTypes?] at hbases
  have hheir : id ∈ TypeGraph.heirs r.draft base :=
    (TypeGraph.mem_heirs _ _).2
      ⟨d, Array.mem_of_getElem? hd, draft_id hd, bases, hbases, hbase⟩
  cases hdv : d'.variant with
  | composite known body' =>
    simp only [TypeNode.linked, hdv, TypeVariant.mapComposite, TypeVariant.composite.injEq] at hv
    obtain ⟨-, rfl⟩ := hv
    exact Linking.mem_appendNew.2 (.inr hheir)
  | _ => simp [TypeNode.linked, hdv, TypeVariant.mapComposite] at hv

theorem Interned.consistent (h : r.Interned) : r.resolve.1.Consistent where
  id := (linked_resolve h).id
  node := by
    intro i n hn
    obtain ⟨d, hd, rfl⟩ := get?_resolve_eq_some.1 hn
    rw [size_resolve]
    exact consistent_linked h hd
  global := by
    obtain ⟨n, hn, hparent, -⟩ := (linked_resolve h).global
    exact ⟨n, hn, hparent⟩
  listed := by
    intro i n parent hn hkind hparent
    have hchild := (linked_resolve h).listed i n parent hn hkind hparent
    unfold TypeGraph.ChildOf TypeGraph.childrenOf at hchild
    cases hp : r.resolve.1.get? parent with
    | none => simp [hp] at hchild
    | some p => exact ⟨p, rfl, by simpa [hp] using hchild⟩
  derived := fun _ _ _ _ _ _ _ hn hbases hbase hb hv =>
    mem_derivedTypes_resolve hn hbases hbase hb hv

/-- Whatever the universe, the settings, the parser and the order of references and definitions, the
graph of a universe is consistent. -/
theorem consistent_resolve (origin : Universe) (settings : RegistrySettings)
    (parser : DeclarationParser) (acts : List Interning) :
    ((Registry.empty origin settings parser).internAll acts).resolve.1.Consistent :=
  ((Interned.empty origin settings parser).internAll acts).consistent

end Registry

end TypeAtlas
