import TypeAtlas.Proofs.Registry.Tree

/-!
# What falls out of the tree

From a definition the parents lead to the global namespace unless they end at a name that nothing is
known of, or run into a cycle. A definition from which they do lead there lies below the global
namespace unless they pass a type parameter, which its owner does not list.

## Main definitions

* `TypeNode.isDefinition` — the nodes that definitions of known kinds become.
* `TypeGraph.IsLoose`, `TypeGraph.IsTypeParameter` — nodes that a tree should not hang on.
* `TypeGraph.RootedBy` — the exact conditions under which a node is in the tree.

The main statement is `TypeGraph.Linked.rootedBy`.
-/

namespace TypeAtlas

/-- Whether the node is what a definition of a known kind becomes. -/
def TypeNode.isDefinition (n : TypeNode) : Bool :=
  [.namespace, .classType, .struct, .interface, .enum, .function].contains n.kind

namespace TypeGraph

variable {g : TypeGraph} {id x y : TypeId} {n : TypeNode}

/-- The node stands for a name alone, and has no parent. -/
def IsLoose (g : TypeGraph) (id : TypeId) : Prop :=
  ∃ n, g.get? id = some n ∧ n.parent = none ∧ (n.kind = .facade ∨ n.kind = .primitive)

/-- The node is a type parameter. -/
def IsTypeParameter (g : TypeGraph) (id : TypeId) : Prop :=
  ∃ n, g.get? id = some n ∧ n.kind = .genericParameter

/-- The parents of a node lead to the global namespace. -/
def LeadsHome (g : TypeGraph) (id : TypeId) : Prop :=
  g.ancestors id ≠ [] ∧ (g.ancestors id).getLast? = some .global

/-- The conditions under which a node is in the tree. -/
structure RootedBy (g : TypeGraph) (id : TypeId) : Prop where
  /-- The parents lead to the global namespace if and only if none of them is loose or on a
  cycle. -/
  leadsHome_iff : g.LeadsHome id ↔ ∀ x ∈ g.ancestors id, ¬ g.IsLoose x ∧ x ∉ g.ancestors x
  /-- If they do, the node is not below the global namespace if and only if a type parameter above
  it is not, and nothing in the tree lists the node. -/
  not_mem_descendants_iff : g.LeadsHome id → (id ∉ g.descendants .global ↔
    (∃ x ∈ g.ancestors id, g.IsTypeParameter x ∧ x ∉ g.descendants .global) ∧
      ∀ x, g.ChildOf x id → x ≠ .global ∧ x ∉ g.descendants .global)

namespace Linked

theorem not_parentOf_global (h : g.Linked) : ¬ g.ParentOf .global x := by
  intro hx
  obtain ⟨n, hn, hparent, -⟩ := h.global
  simp [ParentOf, parentOf?, hn, hparent] at hx

theorem eq_global_of_reachable (h : g.Linked)
    (hreach : Relation.ReflTransGen g.ParentOf .global x) : x = .global := by
  rcases Relation.ReflTransGen.cases_head hreach with heq | ⟨y, hy, -⟩
  · exact heq.symm
  · exact absurd hy h.not_parentOf_global

theorem exists_parentOf_of_definition (h : g.Linked) (hn : g.get? id = some n)
    (hid : id ≠ .global) (hkind : n.isDefinition = true) : ∃ y, g.ParentOf id y := by
  cases hparent : n.parent with
  | some y => exact ⟨y, by simp [ParentOf, parentOf?, hn, hparent]⟩
  | none =>
    rcases h.parentless id n hn hparent with heq | hfacade | hprimitive
    · exact absurd heq hid
    · simp [TypeNode.isDefinition, hfacade] at hkind
    · simp [TypeNode.isDefinition, hprimitive] at hkind

/-- A node that the parents end at is the global namespace or loose. -/
theorem eq_global_or_isLoose (h : g.Linked) (hx : x ∈ g.ids) (hend : ∀ y, ¬ g.ParentOf x y) :
    x = .global ∨ g.IsLoose x := by
  obtain ⟨n, hn⟩ := mem_ids.1 hx
  have hparent : n.parent = none := by
    cases hparent : n.parent with
    | none => rfl
    | some y => exact absurd (by simp [ParentOf, parentOf?, hn, hparent]) (hend y)
  rcases h.parentless x n hn hparent with heq | hkind
  · exact .inl heq
  · exact .inr ⟨n, hn, hparent, hkind⟩

theorem mem_ids_of_mem_ancestors (h : g.Linked) (hx : x ∈ g.ancestors id) : x ∈ g.ids := by
  obtain ⟨y, -, hy⟩ := Relation.TransGen.tail'_iff.1 ((mem_ancestors h.parent_mem).1 hx)
  exact h.parent_mem y x hy

theorem leadsHome_iff_mem (h : g.Linked) : g.LeadsHome id ↔ .global ∈ g.ancestors id := by
  constructor
  · rintro ⟨-, hlast⟩
    exact List.mem_of_getLast? hlast
  · intro hmem
    obtain ⟨last, -, hlast, hreach⟩ := getLast?_ancestors hmem
    rw [h.eq_global_of_reachable hreach] at hlast
    exact ⟨List.ne_nil_of_mem hmem, hlast⟩

/-- No way to the global namespace passes a loose node or a cycle. -/
theorem not_isLoose_of_leadsHome (h : g.Linked) (hhome : g.LeadsHome id)
    (hx : x ∈ g.ancestors id) : ¬ g.IsLoose x ∧ x ∉ g.ancestors x := by
  obtain ⟨last, -, hlast, hreach⟩ := getLast?_ancestors hx
  obtain rfl := Option.some.inj (hlast.symm.trans hhome.2)
  refine ⟨?_, ?_⟩
  · rintro ⟨n, hn, hparent, hkind⟩
    have heq : x = .global := by
      rcases Relation.ReflTransGen.cases_head hreach with heq | ⟨y, hy, -⟩
      · exact heq
      · simp [ParentOf, parentOf?, hn, hparent] at hy
    subst heq
    obtain ⟨n', hn', -, hkind'⟩ := h.global
    obtain rfl := Option.some.inj (hn.symm.trans hn')
    simp [hkind'] at hkind
  · intro hcycle
    have := transGen_of_cycle ((mem_ancestors h.parent_mem).1 hcycle) hreach
    obtain ⟨y, hy, -⟩ := Relation.TransGen.head'_iff.1 this
    exact h.not_parentOf_global hy

/-- Where nothing is loose or on a cycle, the last ancestor is the global namespace. -/
theorem leadsHome_of_not_isLoose (h : g.Linked) (hparent : ∃ y, g.ParentOf id y)
    (hgood : ∀ x ∈ g.ancestors id, ¬ g.IsLoose x ∧ x ∉ g.ancestors x) : g.LeadsHome id := by
  obtain ⟨y, hy⟩ := hparent
  have hmem : y ∈ g.ancestors id := (mem_ancestors h.parent_mem).2 (.single hy)
  obtain ⟨last, hlastMem, hlast, -⟩ := getLast?_ancestors hmem
  have hend : ∀ z, ¬ g.ParentOf last z := by
    intro z hz
    -- The parent of the last one has been visited before, and leads back to it.
    have hzMem : z ∈ g.ancestors id := mem_climb_of_parentOf hlastMem hz (h.parent_mem _ _ hz)
    obtain ⟨last', -, hlast', hback⟩ := getLast?_ancestors hzMem
    obtain rfl := Option.some.inj (hlast.symm.trans hlast')
    exact (hgood last hlastMem).2 ((mem_ancestors h.parent_mem).2 (.head' hz hback))
  rcases h.eq_global_or_isLoose (h.mem_ids_of_mem_ancestors hlastMem) hend with rfl | hloose
  · exact ⟨List.ne_nil_of_mem hmem, hlast⟩
  · exact absurd hloose (hgood last hlastMem).1

/-- Down from the global namespace, each node that is no type parameter is listed by its parent. -/
theorem mem_descendants_of_leadsHome (h : g.Linked) (hhome : g.LeadsHome id)
    (hid : ¬ g.IsTypeParameter id)
    (hparameters : ∀ x ∈ g.ancestors id, g.IsTypeParameter x → x ∈ g.descendants .global) :
    id = .global ∨ id ∈ g.descendants .global := by
  have hreach := ((mem_ancestors h.parent_mem).1 (h.leadsHome_iff_mem.1 hhome)).to_reflTransGen
  have hall : ∀ x, Relation.ReflTransGen g.ParentOf x .global → x = id ∨ x ∈ g.ancestors id →
      x = .global ∨ x ∈ g.descendants .global := by
    intro x hx
    induction hx using Relation.ReflTransGen.head_induction_on with
    | refl => exact fun _ => .inl rfl
    | @head x y hxy _ ih =>
      intro hx
      have hy : y ∈ g.ancestors id := by
        rcases hx with rfl | hx
        · exact (mem_ancestors h.parent_mem).2 (.single hxy)
        · exact mem_climb_of_parentOf hx hxy (h.parent_mem _ _ hxy)
      right
      by_cases hparameter : g.IsTypeParameter x
      · rcases hx with rfl | hx
        · exact absurd hparameter hid
        · exact hparameters x hx hparameter
      · obtain ⟨n, hn, hparent⟩ := Option.bind_eq_some_iff.1 hxy
        have hkind : n.kind ≠ .genericParameter := fun hkind => hparameter ⟨n, hn, hkind⟩
        have hlisted := h.listed x n y hn hkind hparent
        refine mem_descendants_of_childOf (ih (.inr hy)) hlisted ?_ (h.child_mem _ _ hlisted)
        rintro rfl
        exact h.not_parentOf_global hxy
  exact hall id hreach (.inl rfl)

/-- What is below the global namespace is listed by what is, or by the global namespace itself. -/
theorem exists_childOf_of_mem_descendants (h : g.Linked) (hx : x ∈ g.descendants .global) :
    ∃ y, g.ChildOf y x ∧ (y = .global ∨ y ∈ g.descendants .global) := by
  obtain ⟨-, hreach⟩ := (mem_descendants h.child_mem).1 hx
  obtain ⟨y, hy, hyx⟩ := Relation.TransGen.tail'_iff.1 hreach
  refine ⟨y, hyx, ?_⟩
  by_cases heq : y = .global
  · exact .inl heq
  · rcases Relation.reflTransGen_iff_eq_or_transGen.1 hy with heq' | hy
    · exact absurd heq' heq
    · exact .inr ((mem_descendants h.child_mem).2 ⟨heq, hy⟩)

theorem rootedBy (h : g.Linked) (hn : g.get? id = some n) (hid : id ≠ .global)
    (hkind : n.isDefinition = true) : g.RootedBy id := by
  have hparameter : ¬ g.IsTypeParameter id := by
    rintro ⟨n', hn', hkind'⟩
    obtain rfl := Option.some.inj (hn.symm.trans hn')
    simp [TypeNode.isDefinition, hkind'] at hkind
  refine ⟨⟨fun hhome x hx => h.not_isLoose_of_leadsHome hhome hx,
    h.leadsHome_of_not_isLoose (h.exists_parentOf_of_definition hn hid hkind)⟩, ?_⟩
  intro hhome
  constructor
  · intro hout
    refine ⟨?_, ?_⟩
    · by_contra hno
      have hall : ∀ x ∈ g.ancestors id, g.IsTypeParameter x → x ∈ g.descendants .global :=
        fun x hx hp => Classical.byContradiction fun hmem => hno ⟨x, hx, hp, hmem⟩
      rcases h.mem_descendants_of_leadsHome hhome hparameter hall with heq | hin
      · exact hid heq
      · exact hout hin
    · intro x hx
      have hin : x = .global ∨ x ∈ g.descendants .global → id ∈ g.descendants .global :=
        fun hx' => mem_descendants_of_childOf hx' hx hid (h.child_mem _ _ hx)
      exact ⟨fun heq => hout (hin (.inl heq)), fun hmem => hout (hin (.inr hmem))⟩
  · rintro ⟨-, hlisters⟩ hin
    obtain ⟨y, hy, hy'⟩ := h.exists_childOf_of_mem_descendants hin
    rcases hy' with heq | hmem
    · exact (hlisters y hy).1 heq
    · exact (hlisters y hy).2 hmem

end Linked

end TypeGraph

end TypeAtlas
