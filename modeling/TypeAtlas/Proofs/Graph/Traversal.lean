import Mathlib.Data.List.Nodup
import Mathlib.Logic.Relation
import Mathlib.Tactic.ByContra
import TypeAtlas.Graph.Basic

/-!
# What lies below and above a node

Both traversals visit each position at most once. They find all positions that the edges lead to:
what is left out has been visited before.

## Main definitions

* `TypeGraph.ChildOf`, `TypeGraph.ParentOf` — the edges of the two traversals.

The main statements are `TypeGraph.mem_descendants`, `TypeGraph.mem_ancestors` and
`TypeGraph.getLast?_ancestors`.
-/

namespace TypeAtlas

namespace TypeGraph

variable {g : TypeGraph} {id x y root : TypeId} {unvisited stack : List TypeId}
  {current : Option TypeId}

/-- A node that another one lists as its child. -/
def ChildOf (g : TypeGraph) (x y : TypeId) : Prop :=
  y ∈ g.childrenOf x

/-- The parent of a node. -/
def ParentOf (g : TypeGraph) (x y : TypeId) : Prop :=
  g.parentOf? x = some y

theorem mem_ids : id ∈ g.ids ↔ ∃ n, g.get? id = some n := by
  unfold ids get?
  rw [List.mem_map]
  constructor
  · rintro ⟨i, hi, rfl⟩
    exact ⟨_, Array.getElem?_eq_getElem (List.mem_range.1 hi)⟩
  · rintro ⟨n, hn⟩
    exact ⟨id.index, List.mem_range.2 (Array.getElem?_eq_some_iff.1 hn).1, rfl⟩

theorem nodup_ids (g : TypeGraph) : g.ids.Nodup :=
  List.Nodup.map (fun _ _ h => congrArg TypeId.index h) List.nodup_range

/-! ## Below a node -/

theorem mem_walk_of_mem_stack (hx : x ∈ stack) (hu : x ∈ unvisited) :
    x ∈ g.walk unvisited stack := by
  fun_induction g.walk unvisited stack with
  | case1 => simp at hx
  | case2 unvisited current stack hcurrent ih =>
    by_cases heq : x = current
    · exact heq ▸ List.mem_cons_self
    · have hx : x ∈ stack := by simpa [heq] using hx
      exact List.mem_cons_of_mem _
        (ih (List.mem_append_right _ hx) ((List.mem_erase_of_ne heq).2 hu))
  | case3 unvisited current stack hcurrent ih =>
    refine ih ?_ hu
    rcases List.mem_cons.1 hx with rfl | hx
    · exact absurd hu hcurrent
    · exact hx

theorem mem_unvisited_of_mem_walk (hx : x ∈ g.walk unvisited stack) : x ∈ unvisited := by
  fun_induction g.walk unvisited stack with
  | case1 => simp at hx
  | case2 unvisited current stack hcurrent ih =>
    rcases List.mem_cons.1 hx with rfl | hx
    · exact hcurrent
    · exact List.mem_of_mem_erase (ih hx)
  | case3 unvisited current stack hcurrent ih => exact ih hx

/-- What a visited node lists is visited as well. -/
theorem mem_walk_of_childOf (hx : x ∈ g.walk unvisited stack) (hxy : g.ChildOf x y)
    (hu : y ∈ unvisited) : y ∈ g.walk unvisited stack := by
  fun_induction g.walk unvisited stack with
  | case1 => simp at hx
  | case2 unvisited current stack hcurrent ih =>
    by_cases heq : y = current
    · exact heq ▸ List.mem_cons_self
    · have hu' := (List.mem_erase_of_ne heq).2 hu
      refine List.mem_cons_of_mem _ ?_
      rcases List.mem_cons.1 hx with rfl | hx
      · exact mem_walk_of_mem_stack (List.mem_append_left _ hxy) hu'
      · exact ih hx hu'
  | case3 unvisited current stack hcurrent ih => exact ih hx hu

theorem reachable_of_mem_walk (hx : x ∈ g.walk unvisited stack) :
    ∃ start ∈ stack, Relation.ReflTransGen g.ChildOf start x := by
  fun_induction g.walk unvisited stack with
  | case1 => simp at hx
  | case2 unvisited current stack hcurrent ih =>
    rcases List.mem_cons.1 hx with rfl | hx
    · exact ⟨x, List.mem_cons_self, .refl⟩
    · obtain ⟨start, hstart, hreach⟩ := ih hx
      rcases List.mem_append.1 hstart with hchild | hstart
      · exact ⟨current, List.mem_cons_self, hreach.head hchild⟩
      · exact ⟨start, List.mem_cons_of_mem _ hstart, hreach⟩
  | case3 unvisited current stack hcurrent ih =>
    obtain ⟨start, hstart, hreach⟩ := ih hx
    exact ⟨start, List.mem_cons_of_mem _ hstart, hreach⟩

/-- A child of a node below the root, or of the root itself, is below the root. -/
theorem mem_descendants_of_childOf (hx : x = root ∨ x ∈ g.descendants root)
    (hxy : g.ChildOf x y) (hne : y ≠ root) (hy : y ∈ g.ids) : y ∈ g.descendants root := by
  have hu : y ∈ g.ids.erase root := (List.mem_erase_of_ne hne).2 hy
  rcases hx with rfl | hx
  · exact mem_walk_of_mem_stack hxy hu
  · exact mem_walk_of_childOf hx hxy hu

/-- The descendants of a node are the other nodes that the lists of children lead to. -/
theorem mem_descendants (hrange : ∀ x y, g.ChildOf x y → y ∈ g.ids) :
    x ∈ g.descendants root ↔ x ≠ root ∧ Relation.TransGen g.ChildOf root x := by
  constructor
  · intro hx
    have hne : x ≠ root := by
      have := mem_unvisited_of_mem_walk hx
      exact (g.nodup_ids.mem_erase_iff.1 this).1
    obtain ⟨start, hstart, hreach⟩ := reachable_of_mem_walk hx
    exact ⟨hne, Relation.TransGen.head' hstart hreach⟩
  · rintro ⟨hne, hreach⟩
    have hstep : ∀ y z, y = root ∨ y ∈ g.descendants root → g.ChildOf y z →
        z = root ∨ z ∈ g.descendants root := by
      intro y z hy hyz
      by_cases heq : z = root
      · exact .inl heq
      · exact .inr (mem_descendants_of_childOf hy hyz heq (hrange y z hyz))
    have hall : x = root ∨ x ∈ g.descendants root := by
      clear hne
      induction hreach with
      | single hxy => exact hstep _ _ (.inl rfl) hxy
      | tail _ hxy ih => exact hstep _ _ ih hxy
    exact hall.resolve_left hne

/-! ## Above a node -/

theorem mem_climb_of_eq (hcurrent : current = some x) (hu : x ∈ unvisited) :
    x ∈ g.climb unvisited current := by
  subst hcurrent
  rw [climb]
  simp [hu]

/-- The parent of a visited node is visited as well. -/
theorem mem_climb_of_parentOf (hx : x ∈ g.climb unvisited current) (hxy : g.ParentOf x y)
    (hu : y ∈ unvisited) : y ∈ g.climb unvisited current := by
  fun_induction g.climb unvisited current with
  | case1 => simp at hx
  | case2 unvisited parent hparent ih =>
    by_cases heq : y = parent
    · exact heq ▸ List.mem_cons_self
    · have hu' := (List.mem_erase_of_ne heq).2 hu
      refine List.mem_cons_of_mem _ ?_
      rcases List.mem_cons.1 hx with rfl | hx
      · exact mem_climb_of_eq hxy hu'
      · exact ih hx hu'
  | case3 unvisited parent hparent => simp at hx

theorem reachable_of_mem_climb (hx : x ∈ g.climb unvisited current) :
    ∃ start, current = some start ∧ Relation.ReflTransGen g.ParentOf start x := by
  fun_induction g.climb unvisited current with
  | case1 => simp at hx
  | case2 unvisited parent hparent ih =>
    rcases List.mem_cons.1 hx with rfl | hx
    · exact ⟨x, rfl, .refl⟩
    · obtain ⟨start, hstart, hreach⟩ := ih hx
      exact ⟨parent, rfl, hreach.head hstart⟩
  | case3 unvisited parent hparent => simp at hx

/-- Each visited node leads to the last one. -/
theorem reachable_getLast_climb (hx : x ∈ g.climb unvisited current)
    (hlast : (g.climb unvisited current).getLast? = some y) :
    Relation.ReflTransGen g.ParentOf x y := by
  fun_induction g.climb unvisited current with
  | case1 => simp at hx
  | case2 unvisited parent hparent ih =>
    rcases List.mem_cons.1 hx with rfl | hx
    · have hy : y ∈ g.climb unvisited (some x) := by
        rw [climb, if_pos hparent]
        exact List.mem_of_getLast? hlast
      obtain ⟨start, hstart, hreach⟩ := reachable_of_mem_climb hy
      exact Option.some.inj hstart ▸ hreach
    · refine ih hx ?_
      rwa [List.getLast?_cons_of_ne_nil (List.ne_nil_of_mem hx)] at hlast
  | case3 unvisited parent hparent => simp at hx

/-- The ancestors of a node are what the parents lead to. -/
theorem mem_ancestors (hrange : ∀ x y, g.ParentOf x y → y ∈ g.ids) :
    x ∈ g.ancestors id ↔ Relation.TransGen g.ParentOf id x := by
  constructor
  · intro hx
    obtain ⟨start, hstart, hreach⟩ := reachable_of_mem_climb hx
    exact Relation.TransGen.head' hstart hreach
  · intro hreach
    induction hreach with
    | single hxy => exact mem_climb_of_eq hxy (hrange _ _ hxy)
    | tail _ hxy ih => exact mem_climb_of_parentOf ih hxy (hrange _ _ hxy)

theorem getLast?_ancestors (hx : x ∈ g.ancestors id) :
    ∃ last ∈ g.ancestors id, (g.ancestors id).getLast? = some last ∧
      Relation.ReflTransGen g.ParentOf x last := by
  have hne := List.ne_nil_of_mem hx
  have hlast := List.getLast?_eq_some_getLast hne
  exact ⟨_, List.getLast_mem hne, hlast, reachable_getLast_climb hx hlast⟩

/-- On a cycle of parents the way never ends. -/
theorem transGen_of_cycle (hcycle : Relation.TransGen g.ParentOf x x)
    (hreach : Relation.ReflTransGen g.ParentOf x y) : Relation.TransGen g.ParentOf y y := by
  induction hreach with
  | refl => exact hcycle
  | tail _ hyz ih =>
    obtain ⟨next, hnext, hback⟩ := Relation.TransGen.head'_iff.1 ih
    obtain rfl := Option.some.inj (hnext.symm.trans hyz)
    exact Relation.TransGen.tail' hback hyz

end TypeGraph

end TypeAtlas
