import TypeAtlas.Proofs.Loop
import TypeAtlas.Proofs.Registry.Tree

/-!
# The order of what lies below a node

The nodes below a node are found with a stack, on which a position may wait several times, and which
knows that a position has been seen by a mark. They come in the order of the recursive traversal:
each node is followed by what is found below it, and then by its siblings. The stack is what the
recursion has still to do, its innermost level first.

## Main definitions

* `TypeGraph.preorder` — the recursive traversal.
* `Descent`, `Descent.round?` — the traversal with a stack, and one of its rounds.
* `TypeGraph.Descends` — what the traversal below a node finds, and how.

The main statement is `Registry.descends_resolve`.
-/

namespace TypeAtlas

namespace TypeGraph

variable {g : TypeGraph} {id x : TypeId} {seen siblings unvisited : List TypeId}

/-! ## Recursion -/

/-- The positions that have not been seen. -/
def unseen (g : TypeGraph) (seen : List TypeId) : List TypeId :=
  g.ids.filter (· ∉ seen)

theorem length_unseen_le {seen' : List TypeId} (h : seen ⊆ seen') :
    (g.unseen seen').length ≤ (g.unseen seen).length := by
  refine (List.monotone_filter_right g.ids fun x hx => ?_).length_le
  simp only [decide_eq_true_eq] at hx ⊢
  exact fun hmem => hx (h hmem)

theorem length_unseen_lt (hx : x ∈ g.ids) (hnew : x ∉ seen) :
    (g.unseen (x :: seen)).length < (g.unseen seen).length := by
  have hfilter : g.unseen (x :: seen) = (g.unseen seen).filter (· ≠ x) := by
    simp [unseen, List.filter_filter, not_or]
  rw [hfilter, List.length_filter_lt_length_iff_exists]
  exact ⟨x, by simp [unseen, hx, hnew], by simp⟩

theorem childrenOf_eq_nil (hx : x ∉ g.ids) : g.childrenOf x = [] := by
  have hnone : g.get? x = none := by
    rw [Option.eq_none_iff_forall_ne_some]
    exact fun n hn => hx (mem_ids.2 ⟨n, hn⟩)
  simp [childrenOf, hnone]

/-- What is found from siblings on, each of them followed by what is found below it, apart from what
has been seen. -/
def preorder (g : TypeGraph) (seen : List TypeId) : List TypeId → List TypeId
  | [] => []
  | x :: siblings =>
    if x ∈ seen then
      g.preorder seen siblings
    else
      x :: (g.preorder (x :: seen) (g.childrenOf x)
        ++ g.preorder (g.preorder (x :: seen) (g.childrenOf x) ++ x :: seen) siblings)
termination_by siblings => ((g.unseen seen).length, siblings.length)
decreasing_by
  · exact Prod.Lex.right _ (by simp)
  · next hnew =>
    by_cases hx : x ∈ g.ids
    · exact Prod.Lex.left _ _ (length_unseen_lt hx hnew)
    · rw [childrenOf_eq_nil hx]
      exact Prod.Lex.right' _ (length_unseen_le (by simp)) (by simp)
  · exact Prod.Lex.right' _ (length_unseen_le fun y hy => by simp [hy]) (by simp)

theorem preorder_cons_of_mem (hx : x ∈ seen) :
    g.preorder seen (x :: siblings) = g.preorder seen siblings := by
  rw [preorder, if_pos hx]

theorem preorder_cons_of_not_mem (hx : x ∉ seen) :
    g.preorder seen (x :: siblings) =
      x :: (g.preorder (x :: seen) (g.childrenOf x)
        ++ g.preorder (g.preorder (x :: seen) (g.childrenOf x) ++ x :: seen) siblings) := by
  rw [preorder, if_neg hx]

/-- It does not matter in which order positions have been seen. -/
theorem preorder_congr {seen' : List TypeId} (h : ∀ y, y ∈ seen ↔ y ∈ seen')
    (siblings : List TypeId) : g.preorder seen siblings = g.preorder seen' siblings := by
  revert seen'
  fun_induction g.preorder seen siblings with
  | case1 => exact fun _ => by rw [preorder]
  | case2 seen x siblings hx ih =>
    intro seen' h
    rw [preorder_cons_of_mem ((h x).1 hx), ih h]
  | case3 seen x siblings hx ihbelow ih =>
    intro seen' h
    have hbelow := @ihbelow (x :: seen') fun y => by simp [h y]
    have hrest := @ih (g.preorder (x :: seen) (g.childrenOf x) ++ x :: seen')
      fun y => by simp [h y]
    rw [preorder_cons_of_not_mem fun hx' => hx ((h x).2 hx'), hrest, hbelow]

/-- Siblings are traversed one after the other. -/
theorem preorder_append (seen siblings others : List TypeId) :
    g.preorder seen (siblings ++ others) =
      g.preorder seen siblings ++ g.preorder (g.preorder seen siblings ++ seen) others := by
  fun_induction g.preorder seen siblings with
  | case1 seen => rfl
  | case2 seen x siblings hx ih => rw [List.cons_append, preorder_cons_of_mem hx, ih]
  | case3 seen x siblings hx _ ih =>
    generalize hbelow : g.preorder (x :: seen) (g.childrenOf x) = below at ih
    -- both sides have seen the same positions when the others come, but in different orders
    have hseen : ∀ y, y ∈ g.preorder (below ++ x :: seen) siblings ++ (below ++ x :: seen) ↔
        y ∈ x :: (below ++ g.preorder (below ++ x :: seen) siblings) ++ seen := by
      intro y
      simp only [List.mem_append, List.mem_cons]
      tauto
    calc g.preorder seen (x :: siblings ++ others)
        = x :: (below ++ g.preorder (below ++ x :: seen) (siblings ++ others)) := by
          rw [List.cons_append, preorder_cons_of_not_mem hx, hbelow]
      _ = x :: (below ++ (g.preorder (below ++ x :: seen) siblings ++
            g.preorder (x :: (below ++ g.preorder (below ++ x :: seen) siblings) ++ seen)
              others)) := by rw [ih, preorder_congr hseen]
      _ = x :: (below ++ g.preorder (below ++ x :: seen) siblings) ++
            g.preorder (x :: (below ++ g.preorder (below ++ x :: seen) siblings) ++ seen)
              others := by rw [← List.append_assoc, ← List.cons_append]

/-- What the recursion does below a node and then beside it is done in one go. -/
theorem preorder_cons (hx : x ∉ seen) :
    g.preorder seen (x :: siblings) =
      x :: g.preorder (x :: seen) (g.childrenOf x ++ siblings) := by
  rw [preorder_cons_of_not_mem hx, preorder_append]

/-! ## A stack -/

/-- A stack holds what the recursion has still to do. -/
theorem walk_eq_preorder (hrange : ∀ x y, g.ChildOf x y → y ∈ g.ids)
    (hnodup : unvisited.Nodup) (hunvisited : ∀ x, x ∈ unvisited ↔ x ∈ g.ids ∧ x ∉ seen)
    (hstack : ∀ x ∈ siblings, x ∈ g.ids) :
    g.walk unvisited siblings = g.preorder seen siblings := by
  fun_induction g.walk unvisited siblings generalizing seen with
  | case1 => rw [preorder]
  | case2 unvisited current stack hcurrent ih =>
    rw [preorder_cons ((hunvisited current).1 hcurrent).2]
    refine congrArg (List.cons current) (ih (hnodup.erase current) (fun x => ?_) ?_)
    · rw [hnodup.mem_erase_iff, hunvisited, List.mem_cons, not_or]
      tauto
    · intro x hx
      rcases List.mem_append.1 hx with hchild | hx
      · exact hrange current x hchild
      · exact hstack x (List.mem_cons_of_mem _ hx)
  | case3 unvisited current stack hcurrent ih =>
    -- a position that waited more than once is found the first time only
    have hseen : current ∈ seen := by
      by_contra hnew
      exact hcurrent ((hunvisited current).2 ⟨hstack current List.mem_cons_self, hnew⟩)
    rw [preorder_cons_of_mem hseen]
    exact ih hnodup hunvisited fun x hx => hstack x (List.mem_cons_of_mem _ hx)

theorem nodup_walk (hnodup : unvisited.Nodup) (stack : List TypeId) :
    (g.walk unvisited stack).Nodup := by
  fun_induction g.walk unvisited stack with
  | case1 => exact List.nodup_nil
  | case2 unvisited current stack hcurrent ih =>
    refine List.nodup_cons.2 ⟨fun hmem => ?_, ih (hnodup.erase current)⟩
    exact (hnodup.mem_erase_iff.1 (mem_unvisited_of_mem_walk hmem)).1 rfl
  | case3 unvisited current stack hcurrent ih => exact ih hnodup

/-- The number of children that nodes list. -/
def countChildren (g : TypeGraph) (ids : List TypeId) : Nat :=
  (ids.flatMap g.childrenOf).length

end TypeGraph

/-! ## Marks -/

/-- How far the nodes below a node have been found. -/
structure Descent where
  /-- The positions that wait, the next one first. -/
  stack : List TypeId
  /-- For each position whether it has been seen. -/
  marks : Array Bool
  found : List TypeId

namespace Descent

open Loop TypeGraph

variable {g : TypeGraph} {id x : TypeId} {unvisited stack found : List TypeId} {marks : Array Bool}

/-- The state after a round, in which the next position is looked at. It fails for a position that
is out of range, and therefore has no mark. -/
def round? (g : TypeGraph) (d : Descent) : Option Descent :=
  match d.stack with
  | [] => none
  | x :: stack =>
    match d.marks[x.index]? with
    | none => none
    | some true => some { d with stack }
    | some false =>
      some {
        stack := g.childrenOf x ++ stack
        marks := d.marks.setIfInBounds x.index true
        found := d.found ++ [x] }

/-- The state in which the children of a node wait, and only the node itself is marked. -/
def start (g : TypeGraph) (id : TypeId) : Descent where
  stack := g.childrenOf id
  marks := (Array.replicate g.size false).setIfInBounds id.index true
  found := []

/-- Each position has a mark, which is set unless it has not been visited. -/
def Marked (g : TypeGraph) (unvisited : List TypeId) (marks : Array Bool) : Prop :=
  ∀ x : TypeId, marks[x.index]? = if x ∈ g.ids then some (decide (x ∉ unvisited)) else none

theorem Marked.set (h : Marked g unvisited marks) (hnodup : unvisited.Nodup) (hx : x ∈ g.ids) :
    Marked g (unvisited.erase x) (marks.setIfInBounds x.index true) := by
  intro y
  rw [Array.getElem?_setIfInBounds]
  split
  · next heq =>
    obtain rfl : x = y := congrArg TypeId.mk heq
    have hsize : x.index < marks.size := by
      by_contra hlarge
      have hmark := h x
      rw [if_pos hx, Array.getElem?_eq_none (Nat.le_of_not_lt hlarge)] at hmark
      cases hmark
    rw [if_pos hsize, if_pos hx]
    simp [hnodup.mem_erase_iff]
  · next hne =>
    have hyx : y ≠ x := fun heq => hne (heq ▸ rfl)
    rw [h y]
    simp [List.mem_erase_of_ne hyx]

theorem marked_start (hid : id ∈ g.ids) : Marked g (g.ids.erase id) (start g id).marks := by
  have hnone : Marked g g.ids (Array.replicate g.size false) := by
    intro x
    by_cases hx : x ∈ g.ids
    · obtain ⟨n, hn⟩ := mem_ids.1 hx
      have hsize : x.index < g.size := (Array.getElem?_eq_some_iff.1 hn).1
      simp [hx, hsize]
    · have hsize : ¬ x.index < g.size := fun hsize =>
        hx (mem_ids.2 ⟨_, Array.getElem?_eq_getElem hsize⟩)
      simp [hx, hsize]
  exact hnone.set g.nodup_ids hid

theorem round?_of_unvisited (hmark : marks[x.index]? = some false) :
    round? g ⟨x :: stack, marks, found⟩ =
      some ⟨g.childrenOf x ++ stack, marks.setIfInBounds x.index true, found ++ [x]⟩ := by
  rw [round?]
  dsimp only
  rw [hmark]

theorem round?_of_visited (hmark : marks[x.index]? = some true) :
    round? g ⟨x :: stack, marks, found⟩ = some ⟨stack, marks, found⟩ := by
  rw [round?]
  dsimp only
  rw [hmark]

/-- There is a round for each position that is put onto the stack. -/
theorem exists_after?_walk (hrange : ∀ x y, g.ChildOf x y → y ∈ g.ids)
    (hnodup : unvisited.Nodup) (hmarks : Marked g unvisited marks)
    (hstack : ∀ x ∈ stack, x ∈ g.ids) (found : List TypeId) : ∃ marks',
      after? (round? g) (stack.length + g.countChildren (g.walk unvisited stack))
        ⟨stack, marks, found⟩ = some ⟨[], marks', found ++ g.walk unvisited stack⟩ := by
  fun_induction g.walk unvisited stack generalizing marks found with
  | case1 => exact ⟨marks, by simp [countChildren, after?]⟩
  | case2 unvisited current stack hcurrent ih =>
    have hid := hstack current List.mem_cons_self
    have hmark : marks[current.index]? = some false := by simpa [hid, hcurrent] using hmarks current
    have hpushed : ∀ x ∈ g.childrenOf current ++ stack, x ∈ g.ids := by
      intro x hx
      rcases List.mem_append.1 hx with hchild | hx
      · exact hrange current x hchild
      · exact hstack x (List.mem_cons_of_mem _ hx)
    obtain ⟨marks', hafter⟩ :=
      ih (hnodup.erase current) (hmarks.set hnodup hid) hpushed (found ++ [current])
    refine ⟨marks', ?_⟩
    -- the children of the current node are counted as edges before they are pushed, and as
    -- waiting positions afterwards
    have hrounds : (current :: stack).length +
        g.countChildren (current :: g.walk (unvisited.erase current)
          (g.childrenOf current ++ stack)) =
        (g.childrenOf current ++ stack).length + g.countChildren
          (g.walk (unvisited.erase current) (g.childrenOf current ++ stack)) + 1 := by
      simp only [countChildren, List.flatMap_cons, List.length_append, List.length_cons]
      omega
    rw [hrounds, after?_succ (round?_of_unvisited hmark), hafter, List.append_assoc,
      List.singleton_append]
  | case3 unvisited current stack hcurrent ih =>
    have hid := hstack current List.mem_cons_self
    have hmark : marks[current.index]? = some true := by simpa [hid, hcurrent] using hmarks current
    obtain ⟨marks', hafter⟩ :=
      ih hnodup hmarks (fun x hx => hstack x (List.mem_cons_of_mem _ hx)) found
    refine ⟨marks', ?_⟩
    rw [List.length_cons, Nat.add_right_comm, after?_succ (round?_of_visited hmark), hafter]

end Descent

/-! ## Below a node -/

/-- What is found below a node, in which order, and in how many rounds. -/
structure TypeGraph.Descends (g : TypeGraph) (id : TypeId) : Prop where
  outside : id ∉ g.ids → g.descendants id = []
  mem_iff : ∀ x, x ∈ g.descendants id ↔ x ≠ id ∧ Relation.TransGen g.ChildOf id x
  nodup : (g.descendants id).Nodup
  order : g.descendants id = g.preorder [id] (g.childrenOf id)
  /-- The stack is empty in the end, so that no round has failed. -/
  rounds : id ∈ g.ids → ∃ marks,
    Loop.after? (Descent.round? g) (g.countChildren (id :: g.descendants id))
      (Descent.start g id) = some ⟨[], marks, g.descendants id⟩

theorem TypeGraph.descends {g : TypeGraph} (hrange : ∀ x y, g.ChildOf x y → y ∈ g.ids)
    (id : TypeId) : g.Descends id where
  outside := by
    intro hid
    rw [descendants, childrenOf_eq_nil hid, walk]
  mem_iff := fun x => mem_descendants hrange
  nodup := nodup_walk (g.nodup_ids.erase id) _
  order := by
    refine walk_eq_preorder hrange (g.nodup_ids.erase id) (fun x => ?_) (hrange id)
    rw [g.nodup_ids.mem_erase_iff, List.mem_singleton]
    exact and_comm
  rounds := by
    intro hid
    obtain ⟨marks, hafter⟩ := Descent.exists_after?_walk hrange (g.nodup_ids.erase id)
      (Descent.marked_start hid) (hrange id) []
    refine ⟨marks, ?_⟩
    rw [countChildren, List.flatMap_cons, List.length_append]
    exact hafter

namespace Registry

/-- Below every node of a resolved universe, also where children are shared or lead in circles. -/
theorem descends_resolve (origin : Universe) (settings : RegistrySettings)
    (parser : DeclarationParser) (acts : List Interning) (id : TypeId) :
    ((Registry.empty origin settings parser).internAll acts).resolve.1.Descends id :=
  TypeGraph.descends
    (linked_resolve ((Interned.empty origin settings parser).internAll acts)).child_mem id

end Registry

end TypeAtlas
