import TypeAtlas.Proofs.Registry.Consistency

/-!
# Listed children

A definition lists the nodes that its names of children are bound to, whatever their parents are. A
node has a parent of its own if it is a definition or a type parameter, and is otherwise adopted by
the first definition that lists it. Children point back at their parents as far as these two agree.

## Main definitions

* `TypeGraph.PointsBack` — every listed child points back at its parent.
* `Registry.Lists`, `Registry.ownParent?` — what a definition lists, and the parent of a node's own.
* `Registry.Listing` — what children and parents of a resolved universe are.

The main statement is `Registry.Interned.listing`.
-/

namespace TypeAtlas

open Binding

/-- Every listed child points back at its parent. -/
def TypeGraph.PointsBack (g : TypeGraph) : Prop :=
  ∀ p x, g.ChildOf p x → g.ParentOf x p

/-- No node is listed under two parents. -/
def TypeGraph.ListsOnce (g : TypeGraph) : Prop :=
  ∀ p q x, g.ChildOf p x → g.ChildOf q x → p = q

/-- The listers of a node come in the order of the nodes. -/
theorem TypeGraph.sorted_listers {nodes : Array TypeNode} (id : TypeId)
    (h : nodes.toList.Pairwise (·.id.index < ·.id.index)) :
    (listers nodes id).Pairwise (·.index ≤ ·.index) := by
  unfold listers
  rw [List.pairwise_map]
  apply List.Pairwise.filter
  rw [List.pairwise_flatMap]
  constructor
  · intro n hn
    unfold TypeNode.childEdges
    rw [List.pairwise_map]
    exact List.pairwise_of_forall fun _ _ => Nat.le_refl _
  · apply h.imp
    intro m n hlt x hx y hy
    obtain ⟨-, -, rfl⟩ := List.mem_map.1 hx
    obtain ⟨-, -, rfl⟩ := List.mem_map.1 hy
    exact Nat.le_of_lt hlt

namespace Registry

variable {r : Registry} {p q x : TypeId} {c : Compound} {n : TypeNode}

/-- A definition lists a node by name. -/
def Lists (r : Registry) (p x : TypeId) : Prop :=
  ∃ n, r.draft[p.index]? = some n ∧ x ∈ n.children

/-- The parent that a definition names, or the owner of a type parameter. -/
def ownParent? (r : Registry) (x : TypeId) : Option TypeId :=
  r.draft[x.index]?.bind (·.parent)

/-- A node stands for a type parameter. -/
def IsTypeParameter (r : Registry) (x : TypeId) : Prop :=
  ∃ n, r.draft[x.index]? = some n ∧ n.kind = .genericParameter

/-- What children and parents of a resolved universe are. -/
structure Listing (r : Registry) : Prop where
  /-- Only definitions list nodes. -/
  definition : ∀ p x, r.Lists p x → ∃ c, (p, c) ∈ r.definitions
  /-- They list what their names of children are bound to. -/
  lists : ∀ p c, (p, c) ∈ r.definitions → ∃ ids, Site.BindsChildren r r.settle c.childNames ids ∧
    ∀ x, r.Lists p x ↔ x ∈ ids ∧ x ≠ .global ∧ x ≠ p
  /-- The parent of a definition is what its own name of a parent leads to, when it is bound. -/
  own : ∀ p c, (p, c) ∈ r.definitions → ∃ moment, r.Grows moment ∧ moment.Grows r.settle ∧
    r.ownParent? p = some (moment.parentOf p c)
  /-- Besides what it lists, a node has the children that name it as their parent. -/
  child : ∀ p x, r.resolve.1.ChildOf p x ↔
    r.Lists p x ∨ r.ownParent? x = some p ∧ ¬ r.IsTypeParameter x
  /-- A node without a parent of its own is adopted by the first one that lists it. -/
  parent : ∀ p x, r.resolve.1.ParentOf x p ↔ r.ownParent? x = some p ∨
    r.ownParent? x = none ∧ r.Lists p x ∧ ∀ q, r.Lists q x → p.index ≤ q.index
  /-- Children point back iff what is listed has no other parent, nor a second lister. -/
  pointsBack : r.resolve.1.PointsBack ↔ ∀ p x, r.Lists p x →
    r.ownParent? x = some p ∨ r.ownParent? x = none ∧ ∀ q, r.Lists q x → q = p
  /-- A node is listed once iff it has no second lister, nor another parent that it is added to. -/
  listsOnce : r.resolve.1.ListsOnce ↔ ∀ p x, r.Lists p x → (∀ q, r.Lists q x → q = p) ∧
    (¬ r.IsTypeParameter x → ∀ q, r.ownParent? x = some q → q = p)

/-! ## Listers -/

theorem mem_listers_iff : p ∈ TypeGraph.listers r.draft x ↔ r.Lists p x := by
  constructor
  · exact draft_of_mem_listers
  · rintro ⟨n, hn, hx⟩
    exact (TypeGraph.mem_listers _ _).2 ⟨n, Array.mem_of_getElem? hn, draft_id hn, hx⟩

theorem mem_namers_iff : x ∈ TypeGraph.namers r.draft p ↔
    r.ownParent? x = some p ∧ ¬ r.IsTypeParameter x := by
  unfold ownParent? IsTypeParameter
  rw [TypeGraph.mem_namers]
  constructor
  · rintro ⟨n, hn, rfl, hkind, hparent⟩
    simp [mem_draft hn, hkind, hparent]
  · rintro ⟨hparent, hkind⟩
    obtain ⟨n, hn, hparent⟩ := Option.bind_eq_some_iff.1 hparent
    refine ⟨n, Array.mem_of_getElem? hn, draft_id hn, ?_, hparent⟩
    intro hgeneric
    exact hkind ⟨n, hn, hgeneric⟩

theorem pairwise_draft (r : Registry) : r.draft.toList.Pairwise (·.id.index < ·.id.index) := by
  rw [List.pairwise_iff_getElem]
  intro i j hi hj hlt
  have hid : ∀ k (hk : k < r.draft.toList.length), r.draft.toList[k].id.index = k := by
    intro k hk
    have hnode : r.draft[(⟨k⟩ : TypeId).index]? = some r.draft.toList[k] := by
      simp [Array.getElem?_eq_getElem (by simpa using hk : k < r.draft.size)]
    rw [draft_id hnode]
  rwa [hid i hi, hid j hj]

/-- The first lister comes before all others. -/
theorem head?_listers_iff : (TypeGraph.listers r.draft x).head? = some p ↔
    r.Lists p x ∧ ∀ q, r.Lists q x → p.index ≤ q.index := by
  have hsorted := TypeGraph.sorted_listers x r.pairwise_draft
  simp only [← mem_listers_iff]
  cases hlisters : TypeGraph.listers r.draft x with
  | nil => simp
  | cons first rest =>
    rw [hlisters, List.pairwise_cons] at hsorted
    rw [List.head?_cons, Option.some.injEq]
    constructor
    · rintro rfl
      refine ⟨List.mem_cons_self, ?_⟩
      intro q hq
      rcases List.mem_cons.1 hq with rfl | hq
      · exact Nat.le_refl _
      · exact hsorted.1 q hq
    · rintro ⟨hp, hfirst⟩
      have hle := hfirst first List.mem_cons_self
      rcases List.mem_cons.1 hp with rfl | hp
      · rfl
      · have := hsorted.1 p hp
        exact TypeId.eq_of_index (by omega)

/-! ## Children and parents -/

theorem definition_of_lists (h : r.Lists p x) : ∃ c, (p, c) ∈ r.definitions := by
  obtain ⟨n, hn, hx⟩ := h
  rcases draft_cases hn with ⟨c, hc, -⟩ | ⟨slot, -, -, rfl⟩
  · exact ⟨c, hc⟩
  · simp [leaf_children] at hx

theorem lists_of_definition (hc : (p, c) ∈ r.definitions) :
    ∃ ids, Site.BindsChildren r r.settle c.childNames ids ∧
      ∀ x, r.Lists p x ↔ x ∈ ids ∧ x ≠ .global ∧ x ≠ p := by
  obtain ⟨n, hn, site, hsite, hbinds⟩ := draft_definition hc
  obtain ⟨ids, hids, heq⟩ := hbinds.children
  refine ⟨ids, hids, ?_⟩
  intro x
  have hlists : r.Lists p x ↔ x ∈ n.children := by simp [Lists, hn]
  rw [hlists, heq, Site.mem_collect, List.mem_map, hsite.owner]
  unfold Site.childTarget
  grind

theorem ownParent?_of_definition (hc : (p, c) ∈ r.definitions) :
    ∃ moment, r.Grows moment ∧ moment.Grows r.settle ∧
      r.ownParent? p = some (moment.parentOf p c) := by
  obtain ⟨n, hn, site, hsite, hbinds⟩ := draft_definition hc
  obtain ⟨moment, hmoment, hs, heq⟩ := hbinds.parent
  refine ⟨moment, hmoment, hs, ?_⟩
  rw [hsite.owner] at heq
  simpa [ownParent?, hn] using heq

theorem ne_global_of_lists (h : r.Lists p x) : x ≠ .global := by
  obtain ⟨c, hc⟩ := definition_of_lists h
  obtain ⟨ids, -, hids⟩ := lists_of_definition hc
  exact ((hids x).1 h).2.1

theorem childOf_iff (h : r.Interned) : r.resolve.1.ChildOf p x ↔
    r.Lists p x ∨ r.ownParent? x = some p ∧ ¬ r.IsTypeParameter x := by
  rw [childOf_resolve, ← mem_namers_iff]
  constructor
  · rintro ⟨n, hn, hx | hx⟩
    · exact .inl ⟨n, hn, hx⟩
    · exact .inr hx
  · rintro (⟨n, hn, hx⟩ | hx)
    · exact ⟨n, hn, .inl hx⟩
    · obtain ⟨d, hd, hparent⟩ := Option.bind_eq_some_iff.1 (mem_namers_iff.1 hx).1
      have hlt := index_lt_of_draft_parent h hd hparent
      rw [← size_draft] at hlt
      exact ⟨_, Array.getElem?_eq_getElem hlt, .inr hx⟩

theorem parentOf_iff (h : r.Interned) : r.resolve.1.ParentOf x p ↔ r.ownParent? x = some p ∨
    r.ownParent? x = none ∧ r.Lists p x ∧ ∀ q, r.Lists q x → p.index ≤ q.index := by
  rw [parentOf_resolve, ← head?_listers_iff]
  constructor
  · rintro ⟨n, hn, hparent⟩
    rw [ownParent?, hn, Option.bind_some]
    rcases Option.or_eq_some_iff.1 hparent with hparent | ⟨hnone, hlister⟩
    · exact .inl hparent
    · split at hlister
      · simp at hlister
      · exact .inr ⟨hnone, hlister⟩
  · rintro (hparent | ⟨hnone, hlister⟩)
    · obtain ⟨n, hn, hparent⟩ := Option.bind_eq_some_iff.1 hparent
      exact ⟨n, hn, by rw [hparent, Option.some_or]⟩
    · obtain ⟨hlists, -⟩ := head?_listers_iff.1 hlister
      obtain ⟨lister, hdraft, hx⟩ := id hlists
      have hlt := index_lt_of_draft_child h hdraft hx
      rw [← size_draft] at hlt
      have hn : r.draft[x.index]? = some r.draft[x.index] := Array.getElem?_eq_getElem hlt
      have hglobal : r.draft[x.index].isGlobal = false := by
        simpa [TypeNode.isGlobal, draft_id hn] using ne_global_of_lists hlists
      rw [ownParent?, hn, Option.bind_some] at hnone
      refine ⟨_, hn, ?_⟩
      rw [hnone, hglobal, Option.none_or]
      exact hlister

/-- Of two nodes that list something, only the first one can be its parent. -/
theorem pointsBack_iff (h : r.Interned) : r.resolve.1.PointsBack ↔ ∀ p x, r.Lists p x →
    r.ownParent? x = some p ∨ r.ownParent? x = none ∧ ∀ q, r.Lists q x → q = p := by
  unfold TypeGraph.PointsBack
  simp only [childOf_iff h, parentOf_iff h]
  constructor
  · intro hback p x hlists
    rcases hback p x (.inl hlists) with hown | ⟨hnone, -, hfirst⟩
    · exact .inl hown
    · refine .inr ⟨hnone, ?_⟩
      intro q hq
      rcases hback q x (.inl hq) with hown | ⟨-, -, hfirst'⟩
      · simp [hnone] at hown
      · exact TypeId.eq_of_index (Nat.le_antisymm (hfirst' p hlists) (hfirst q hq))
  · rintro hlists p x (hchild | ⟨hown, -⟩)
    · rcases hlists p x hchild with hown | ⟨hnone, honly⟩
      · exact .inl hown
      · refine .inr ⟨hnone, hchild, ?_⟩
        intro q hq
        rw [honly q hq]
    · exact .inl hown

theorem listsOnce_iff (h : r.Interned) : r.resolve.1.ListsOnce ↔ ∀ p x, r.Lists p x →
    (∀ q, r.Lists q x → q = p) ∧
      (¬ r.IsTypeParameter x → ∀ q, r.ownParent? x = some q → q = p) := by
  unfold TypeGraph.ListsOnce
  simp only [childOf_iff h]
  constructor
  · intro honce p x hlists
    refine ⟨?_, ?_⟩
    · intro q hq
      exact honce q p x (.inl hq) (.inl hlists)
    · intro hkind q hown
      exact honce q p x (.inr ⟨hown, hkind⟩) (.inl hlists)
  · rintro hlists p q x (hp | ⟨hp, hkind⟩) (hq | ⟨hq, hkind'⟩)
    · exact (hlists q x hq).1 p hp
    · exact ((hlists p x hp).2 hkind' q hq).symm
    · exact (hlists q x hq).2 hkind p hp
    · exact Option.some.inj (hp.symm.trans hq)

theorem Interned.listing (h : r.Interned) : r.Listing where
  definition _ _ := definition_of_lists
  lists _ _ := lists_of_definition
  own _ _ := ownParent?_of_definition
  child _ _ := childOf_iff h
  parent _ _ := parentOf_iff h
  pointsBack := pointsBack_iff h
  listsOnce := listsOnce_iff h

end Registry

end TypeAtlas
