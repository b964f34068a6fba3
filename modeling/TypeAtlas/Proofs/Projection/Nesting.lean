import TypeAtlas.Proofs.Projection.Pairing
import TypeAtlas.Proofs.Projection.Tree

/-!
# The union of two trees of names

Where the children of a node lie in the scope that it names, what is reached from the global
namespace is a tree of names. Two universes of this shape are projected to the union of their trees:
each name has one projected node, with the reachable nodes of this name as its sides, below the
projected node of its scope.

## Main definitions

* `Merger.Nests` — two universes that are trees of names and agree on how a name is written.
* `Merger.Meets` — a pair of reachable nodes of one name.
* `Merger.Joins` — a pair whose sides are the reachable nodes of its name.
* `Merger.UnionTree` — a projection that is the union of both trees.
* `TypeGraph.layer` — the nodes that are reached within a number of steps.

The main statement is `Merger.unionTree_project`.
-/

namespace TypeAtlas

namespace TypeGraph

variable {g : TypeGraph} {n : TypeNode}

/-- The node is part of the graph and of its projection. -/
def Projects (g : TypeGraph) (n : TypeNode) : Prop :=
  (∃ id, g.get? id = some n) ∧ n.isProjectable = true

theorem Offers.projects (h : g.Offers n) : g.Projects n := by
  obtain ⟨id, -, hid⟩ := Option.bind_eq_some_iff.1 h.finds
  exact ⟨⟨id, hid⟩, h.isProjectable⟩

/-- The nodes that are part of the projection. -/
def projectables (g : TypeGraph) : List TypeNode :=
  g.nodes.toList.filter (·.isProjectable)

theorem Projects.mem_projectables (h : g.Projects n) : n ∈ g.projectables := by
  obtain ⟨⟨id, hid⟩, hprojectable⟩ := h
  exact List.mem_filter.2 ⟨Array.mem_toList_iff.2 (Array.mem_of_getElem? hid), hprojectable⟩

/-! ## What is reached within a number of steps -/

/-- The nodes that are reached within a number of steps. -/
def layer (g : TypeGraph) : Nat → List TypeNode
  | 0 => (g.get? .global).toList
  | k + 1 => g.layer k ++ (g.layer k).flatMap g.projectableChildren

theorem reaches_of_mem_layer {k : Nat} (h : n ∈ g.layer k) : g.Reaches n := by
  induction k generalizing n with
  | zero => exact .global (Option.mem_toList.1 h)
  | succ k ih =>
    rcases List.mem_append.1 h with h | h
    · exact ih h
    · obtain ⟨parent, hparent, hchild⟩ := List.mem_flatMap.1 h
      exact .child (ih hparent) hchild

theorem mem_layer_of_global (hn : g.get? .global = some n) (k : Nat) : n ∈ g.layer k := by
  induction k with
  | zero => exact Option.mem_toList.2 hn
  | succ k ih => exact List.mem_append_left _ ih

/-- The layers end where one of them holds all its children. -/
theorem mem_layer_of_reaches {k : Nat} (hg : g.Sound)
    (hclosed : ∀ n ∈ g.layer k, ∀ child ∈ g.projectableChildren n,
      ∃ other ∈ g.layer k, other.id = child.id) (h : g.Reaches n) : n ∈ g.layer k := by
  induction h with
  | global hn => exact mem_layer_of_global hn k
  | @child n child hn hchild ih =>
    obtain ⟨other, hother, hid⟩ := hclosed n ih child hchild
    have hget := (reaches_of_mem_layer hother).get?_id hg
    rw [hid, get?_id_of_mem_projectableChildren hg hchild] at hget
    exact Option.some.inj hget ▸ hother

end TypeGraph

/-- One of two things, one for each universe. -/
def Side.pick {α : Type} (native managed : α) : Side → α
  | .native => native
  | .managed => managed

/-- Both universes. -/
def Side.all : List Side :=
  [.native, .managed]

theorem Side.mem_all (side : Side) : side ∈ Side.all := by
  cases side <;> decide

namespace Merger

variable {graph : Side → TypeGraph} {m : Merger} {task : Task} {s : Sides} {side side' : Side}
  {x y n : TypeNode} {name : String} {p : Projection}

/-! ## Trees of names -/

/-- What is reached in either universe is a tree of names. No two names of projectable nodes differ
in letter case alone, and a projectable node with the name of a node that is reached in the other
universe is reached itself. -/
structure Nests (graph : Side → TypeGraph) : Prop where
  child : ∀ side n child, (graph side).Reaches n → child ∈ (graph side).projectableChildren n →
    ∃ segment : String, segment ≠ "" ∧ '.' ∉ segment.toList ∧
      child.fullName = Name.qualify n.fullName segment
  finds : ∀ side n, (graph side).Reaches n → (graph side).lookupId? n.fullName = some n.id
  spelling : ∀ side side' x y, (graph side).Projects x → (graph side').Projects y →
    Text.lowercase x.fullName = Text.lowercase y.fullName → x.fullName = y.fullName
  reaches : ∀ side side' x y, side ≠ side' → (graph side).Projects x → (graph side').Reaches y →
    x.fullName = y.fullName → (graph side).Reaches x

/-- The sides of a pair are the reachable nodes of its name. -/
structure Joins (graph : Side → TypeGraph) (s : Sides) : Prop where
  isSome : ∃ side n, Side.node? side s = some n
  node?_iff : ∀ side n, side.node? s = some n ↔ (graph side).Reaches n ∧ n.fullName = s.name

/-- Each name that is reached in either universe has one node, with the reachable nodes of this name
as its sides. Its parent is the node of its scope, which is the root at top level. -/
structure UnionTree (graph : Side → TypeGraph) (p : Projection) : Prop where
  name : ∀ name, (∃ i q, p.get? i = some q ∧ q.fullName = name) ↔
    ∃ side n, (graph side).Reaches n ∧ n.fullName = name
  unique : ∀ i j a b, p.get? i = some a → p.get? j = some b → a.fullName = b.fullName → i = j
  sides : ∀ i q side id, p.get? i = some q → (side.id? q = some id ↔
    ∃ n, (graph side).Reaches n ∧ n.fullName = q.fullName ∧ n.id = id)
  root : ∀ i q, p.get? i = some q → q.fullName = "" → q.parent = none
  parent : ∀ i q, p.get? i = some q → q.fullName ≠ "" → ∃ j above, q.parent = some j ∧
    p.get? j = some above ∧ above.fullName = (Name.scope? q.fullName).getD ""

/-- What is known while two trees of names are projected. -/
structure Grown (graph : Side → TypeGraph) (p : Projection) : Prop where
  named : p.Named
  joins : ∀ i label, p.label? i = some label → ∃ s, Joins graph s ∧ s.label = label
  root : ∀ i label, p.label? i = some label → label.name = "" → p.parentOf? i = none
  parent : ∀ i label, p.label? i = some label → label.name ≠ "" → ∃ j above,
    p.parentOf? i = some j ∧ p.label? j = some above ∧
      above.name = (Name.scope? label.name).getD ""

/-- A pair of reachable nodes of one name, which is not that of the global namespace. -/
structure Meets (graph : Side → TypeGraph) (s : Sides) (name : String) : Prop where
  isSome : ∃ side n, Side.node? side s = some n
  node : ∀ side n, side.node? s = some n → (graph side).Reaches n ∧ n.fullName = name
  ne : name ≠ ""

/-- A waiting pair of reachable nodes of one name, which belongs below the node of its scope. -/
structure Awaits (graph : Side → TypeGraph) (p : Projection) (task : Task) (name : String) : Prop
    extends Meets graph task.sides name where
  parent : ∃ label, p.label? task.parent = some label ∧ label.name = (Name.scope? name).getD ""

/-- A pair of reachable nodes of one name that has all of them joins them. -/
theorem joins_of_node?_iff (hsome : ∃ side n, Side.node? side s = some n)
    (hiff : ∀ side n, side.node? s = some n ↔ (graph side).Reaches n ∧ n.fullName = name) :
    Joins graph s ∧ s.name = name := by
  obtain ⟨side, n, hn⟩ := hsome
  obtain ⟨side', n', hn', hname⟩ := Sides.exists_name_eq hn
  obtain rfl : s.name = name := hname.trans ((hiff side' n').1 hn').2
  exact ⟨⟨⟨side, n, hn⟩, hiff⟩, rfl⟩

/-- The pair of all nodes of a name is known from the name. -/
theorem Joins.eq (hs : Joins graph s) {s' : Sides} (hs' : Joins graph s')
    (hname : s.name = s'.name) : s = s' := by
  refine Sides.eq_of_node? fun side => ?_
  ext n
  rw [hs.node?_iff, hs'.node?_iff, hname]

theorem parentOf?_store (m : Merger) (s : Sides) (i : ProjectedId) :
    (m.store s).2.2.projection.parentOf? i = m.projection.parentOf? i :=
  Projection.parentOf?_upsert rfl i

section Nested

variable (hgraph : ∀ side, (graph side).Navigable) (h : Nests graph)

include hgraph h

theorem Nests.offers (hn : (graph side).Reaches n) : (graph side).Offers n := by
  refine ⟨?_, (hn.offers (hgraph side)).isProjectable⟩
  rw [TypeGraph.Finds, TypeGraph.lookup?, h.finds side n hn, Option.bind_some]
  exact hn.get?_id (hgraph side).id

/-- A name is that of one reachable node on a side. -/
theorem Nests.some_eq_iff (hx : (graph side).Reaches x) (hname : x.fullName = name) :
    some x = some n ↔ (graph side).Reaches n ∧ n.fullName = name := by
  rw [Option.some.injEq]
  constructor
  · rintro rfl
    exact ⟨hx, hname⟩
  · rintro ⟨hn, rfl⟩
    exact (h.offers hgraph hx).eq (h.offers hgraph hn) hname

/-- A missing side is completed with the reachable node of the name of the other side. -/
theorem found?_iff (hm : ∀ side, side.graph m = graph side) (hp : Grown graph m.projection)
    (hne : side ≠ side') (hx : (graph side').Reaches x) (hname : x.fullName ≠ "") :
    m.found? side x.fullName = some n ↔ (graph side).Reaches n ∧ n.fullName = x.fullName := by
  have hreaches : ∀ {n}, m.found? side x.fullName = some n →
      (graph side).Reaches n ∧ n.fullName = x.fullName := by
    intro n hfound
    rcases Option.or_eq_some_iff.1 hfound with hfound | ⟨-, hfound⟩
    · obtain ⟨id, hid, hn⟩ := Option.bind_eq_some_iff.1 hfound
      obtain ⟨q, hq, hside⟩ := Option.bind_eq_some_iff.1 hid
      obtain ⟨⟨i, hi⟩, hqname⟩ := Projection.has_of_lookup? hp.named hq
      obtain ⟨s, hs, hlabel⟩ := hp.joins i q.label hi
      have hid' : (side.node? s).map (·.id) = some id := by
        rw [← Sides.labelId?_label, hlabel, ← hside]
        cases side <;> rfl
      obtain ⟨n', hn', rfl⟩ := Option.map_eq_some_iff.1 hid'
      obtain ⟨hreached, hfull⟩ := (hs.node?_iff side n').1 hn'
      rw [hm, hreached.get?_id (hgraph side).id] at hn
      obtain rfl := Option.some.inj hn
      exact ⟨hreached, hfull.trans ((congrArg Projection.Label.name hlabel).trans hqname)⟩
    · rw [hm] at hfound
      obtain ⟨hoffers, hlookup⟩ := TypeGraph.offers_of_counterpart? (hgraph side) hfound
      have hsame := h.spelling side side' n x hoffers.projects
        (h.offers hgraph hx).projects ((hgraph side).lookup x.fullName n hlookup).2
      exact ⟨h.reaches side side' n x hne hoffers.projects hx hsame, hsame⟩
  refine ⟨hreaches, fun ⟨hn, hfull⟩ => ?_⟩
  have hcounterpart := (h.offers hgraph hn).counterpart? (hfull ▸ hname)
  rw [hfull] at hcounterpart
  cases hfound : m.found? side x.fullName with
  | none =>
    rw [found?, hm, hcounterpart] at hfound
    simp at hfound
  | some n' =>
    exact (h.some_eq_iff hgraph (hreaches hfound).1 (hreaches hfound).2).2 ⟨hn, hfull⟩

/-- At any time a pair of reachable nodes of one name is completed with all of them. -/
theorem Meets.joins (hs : Meets graph s name) (hm : ∀ side, side.graph m = graph side)
    (hp : Grown graph m.projection) :
    Joins graph (m.complete s) ∧ (m.complete s).name = name := by
  obtain ⟨_ | x, _ | y⟩ := s
  · obtain ⟨side, n, hn⟩ := hs.isSome
    cases side <;> simp [Side.node?] at hn
  · obtain ⟨hy, rfl⟩ := hs.node .managed y rfl
    rw [complete_managed]
    refine joins_of_node?_iff ⟨.managed, y, rfl⟩ fun side n => ?_
    cases side with
    | native => exact found?_iff hgraph h hm hp (by decide) hy hs.ne
    | managed => exact h.some_eq_iff hgraph hy rfl
  · obtain ⟨hx, rfl⟩ := hs.node .native x rfl
    rw [complete_native]
    refine joins_of_node?_iff ⟨.native, x, rfl⟩ fun side n => ?_
    cases side with
    | native => exact h.some_eq_iff hgraph hx rfl
    | managed => exact found?_iff hgraph h hm hp (by decide) hx hs.ne
  · obtain ⟨hx, hxname⟩ := hs.node .native x rfl
    obtain ⟨hy, hyname⟩ := hs.node .managed y rfl
    rw [complete_both]
    refine joins_of_node?_iff ⟨.native, x, rfl⟩ fun side n => ?_
    cases side with
    | native => exact h.some_eq_iff hgraph hx hxname
    | managed => exact h.some_eq_iff hgraph hy hyname

/-- Names in one scope whose last segments are the same up to letter case are the same. -/
theorem Nests.fullName_eq {scope a b : String} (hx : (graph side).Reaches x)
    (hy : (graph side').Reaches y) (hxname : x.fullName = Name.qualify scope a)
    (hyname : y.fullName = Name.qualify scope b) (ha : '.' ∉ a.toList) (hb : '.' ∉ b.toList)
    (hsame : sameName x.name y.name = true) : x.fullName = y.fullName := by
  rw [TypeNode.name, TypeNode.name, hxname, hyname, Name.short_qualify scope ha,
    Name.short_qualify scope hb, sameName, beq_iff_eq] at hsame
  refine h.spelling side side' x y (h.offers hgraph hx).projects (h.offers hgraph hy).projects ?_
  rw [hxname, hyname]
  exact Text.lowercase_eq_of_asciiLowercase (Name.asciiLowercase_qualify scope hsame)

/-- The children of joined nodes wait below their projected node. -/
theorem Joins.awaits {i : ProjectedId} {label : Projection.Label} (hs : Joins graph s)
    (hm : ∀ side, side.graph m = graph side) (hi : p.label? i = some label)
    (hlabel : label.name = s.name) (ht : task ∈ m.tasks i s) :
    ∃ name, Awaits graph p task name := by
  have hchild : ∀ side n, Side.node? side task.sides = some n → (graph side).Reaches n ∧
      ∃ segment : String, segment ≠ "" ∧ '.' ∉ segment.toList ∧
        n.fullName = Name.qualify s.name segment := by
    intro side n hn
    obtain ⟨x, hx, hmem⟩ := exists_parent_of_mem_tasks ht hn
    obtain ⟨hreached, hname⟩ := (hs.node?_iff side x).1 hx
    rw [hm] at hmem
    exact ⟨.child hreached hmem, hname ▸ h.child side x n hreached hmem⟩
  -- Both sides of a pair lie in one scope and have one short name.
  have hpair : ∀ x y, task.sides.native = some x → task.sides.managed = some y →
      x.fullName = y.fullName := by
    intro x y hx hy
    obtain ⟨hxreached, a, -, ha, hxname⟩ := hchild .native x hx
    obtain ⟨hyreached, b, -, hb, hyname⟩ := hchild .managed y hy
    obtain ⟨pair, hpair, rfl⟩ := List.mem_map.1 ht
    exact h.fullName_eq hgraph hxreached hyreached hxname hyname ha hb
      (Sides.sameName_of_mem_pairUp hpair hx hy)
  obtain ⟨side, n, hn⟩ := exists_node?_of_mem_tasks ht
  obtain ⟨-, segment, hsegment, hdot, hname⟩ := hchild side n hn
  have hsame : ∀ side' n', Side.node? side' task.sides = some n' → n'.fullName = n.fullName := by
    intro side' n' hn'
    cases side <;> cases side'
    · rw [Option.some.inj (hn.symm.trans hn')]
    · exact (hpair n n' hn hn').symm
    · exact hpair n' n hn' hn
    · rw [Option.some.inj (hn.symm.trans hn')]
  refine ⟨n.fullName, ⟨⟨side, n, hn⟩, fun side' n' hn' =>
    ⟨(hchild side' n' hn').1, hsame side' n' hn'⟩, ?_⟩, label, ?_, ?_⟩
  · rw [hname]
    exact Registry.qualify_ne_empty s.name hsegment
  · obtain ⟨pair, -, rfl⟩ := List.mem_map.1 ht
    exact hi
  · rw [hname, Name.scope?_qualify s.name hdot, hlabel]

/-! ## One pair -/

omit hgraph h in
theorem Awaits.step (ht : Awaits graph m.projection task name) (hnamed : m.projection.Named)
    (first : Task) : Awaits graph (m.step first).2.2.projection task name := by
  obtain ⟨label, hlabel, hscope⟩ := ht.parent
  obtain ⟨label', hlabel', hname⟩ := name_step hnamed first hlabel
  exact ⟨ht.toMeets, label', hlabel', hname.trans hscope⟩

/-- A pair that is stored belongs below the node of its scope and nowhere else. -/
theorem Awaits.parentOf?_step (ht : Awaits graph m.projection task name)
    (hm : ∀ side, side.graph m = graph side) (hp : Grown graph m.projection) (i : ProjectedId) :
    task.parent ≠ (m.store task.sides).1 ∧ (m.step task).2.2.projection.parentOf? i =
      if (m.store task.sides).1 = i then some task.parent else m.projection.parentOf? i := by
  obtain ⟨-, hname⟩ := ht.joins hgraph h hm hp
  obtain ⟨above, habove, hscope⟩ := ht.parent
  have hself : ∀ label, m.projection.label? (m.store task.sides).1 = some label →
      label.name = name := by
    intro label hlabel
    obtain ⟨label', hlabel', hsame⟩ := name_step hp.named task hlabel
    rw [label?_step hp.named, if_pos rfl] at hlabel'
    rw [← hsame, ← Option.some.inj hlabel']
    exact hname
  have hne : task.parent ≠ (m.store task.sides).1 := fun heq =>
    Name.scope?_ne ht.ne (hscope.symm.trans (hself above (heq ▸ habove)))
  have hupsert := parentOf?_store m task.sides
  have hparent : (m.projection.get? task.parent).isSome := by
    obtain ⟨node, hnode, -⟩ := Option.map_eq_some_iff.1 habove
    exact Option.isSome_of_mem hnode
  -- A node that is stored already hangs below the node of its scope, and names are unique.
  have hfree : ∀ j, (m.store task.sides).2.2.projection.parentOf? (m.store task.sides).1 = some j →
      j = task.parent := by
    intro j hj
    rw [hupsert] at hj
    obtain ⟨node, hnode, -⟩ := Option.bind_eq_some_iff.1 hj
    have hlabel : m.projection.label? (m.store task.sides).1 = some node.label := by
      rw [Projection.label?, hnode, Option.map_some]
    have hnodeName := hself node.label hlabel
    obtain ⟨j', above', hj', habove', hscope'⟩ :=
      hp.parent _ node.label hlabel (hnodeName ▸ ht.ne)
    obtain rfl := Option.some.inj (hj.symm.trans hj')
    refine hp.named.eq habove' habove ?_
    rw [hscope', hnodeName, hscope]
  refine ⟨hne, ?_⟩
  rw [← hupsert i]
  exact Projection.parentOf?_link_of_free hne (Projection.isSome_get?_upsert hparent)
    (Projection.isSome_get?_upsert_self hp.named _) hfree

theorem Grown.step (hp : Grown graph m.projection) (hm : ∀ side, side.graph m = graph side)
    (ht : Awaits graph m.projection task name) : Grown graph (m.step task).2.2.projection := by
  obtain ⟨hjoins, hname⟩ := ht.joins hgraph h hm hp
  have hne := (ht.parentOf?_step hgraph h hm hp task.parent).1
  refine ⟨named_step hp.named task, ?_, ?_, ?_⟩
  · intro i label hi
    rw [label?_step hp.named] at hi
    split at hi
    · exact ⟨_, hjoins, Option.some.inj hi⟩
    · exact hp.joins i label hi
  · intro i label hi hroot
    rw [label?_step hp.named] at hi
    rw [(ht.parentOf?_step hgraph h hm hp i).2]
    split at hi
    · obtain rfl := Option.some.inj hi
      exact absurd (hname.symm.trans hroot) ht.ne
    · next hi' => rw [if_neg (Ne.symm hi'), hp.root i label hi hroot]
  · intro i label hi hlabel
    rw [label?_step hp.named] at hi
    rw [(ht.parentOf?_step hgraph h hm hp i).2]
    split at hi
    · next hi' =>
      obtain rfl := Option.some.inj hi
      obtain ⟨above, habove, hscope⟩ := ht.parent
      refine ⟨task.parent, above, if_pos hi'.symm, ?_, ?_⟩
      · rw [label?_step hp.named, if_neg hne, habove]
      · rw [hscope, show (m.complete task.sides).label.name = name from hname]
    · next hi' =>
      obtain ⟨j, above, hj, habove, hscope⟩ := hp.parent i label hi hlabel
      obtain ⟨above', habove', hsame⟩ := name_step hp.named task habove
      exact ⟨j, above', (if_neg (Ne.symm hi')).trans hj, habove', hsame.trans hscope⟩

/-- What waits below a pair that has just been stored. -/
theorem awaits_below (hp : Grown graph m.projection) (hm : ∀ side, side.graph m = graph side)
    (ht : Awaits graph m.projection task name) {below : Task}
    (hbelow : below ∈ (m.step task).2.1) :
    ∃ name, Awaits graph (m.step task).2.2.projection below name := by
  obtain ⟨hjoins, -⟩ := ht.joins hgraph h hm hp
  have hi : (m.step task).2.2.projection.label? (m.store task.sides).1 =
      some (m.complete task.sides).label := by
    rw [label?_step hp.named, if_pos rfl]
  exact hjoins.awaits hgraph h (m := (m.step task).2.2)
    (fun side => (step_graph side m task).trans (hm side)) hi rfl hbelow

/-! ## All pairs -/

/-- From joined nodes on the projection stays a tree of names, and each pair finds its parent. -/
theorem grown_run {tasks : List Task} (pending : List String) (hp : Grown graph m.projection)
    (hm : ∀ side, side.graph m = graph side)
    (ht : ∀ task ∈ tasks, ∃ name, Awaits graph m.projection task name) :
    Grown graph (run pending m tasks).projection ∧
      ∀ moment ∈ moments pending m tasks, Grown graph moment.1.projection ∧
        (∀ side, side.graph moment.1 = graph side) ∧
        ∃ name, Awaits graph moment.1.projection moment.2 name := by
  have hrun := run_keeps pending m tasks
    (I := fun m => Grown graph m.projection ∧ ∀ side, side.graph m = graph side)
    (T := fun m task => ∃ name, Awaits graph m.projection task name)
    (fun (m, task) _ ⟨hp, hm⟩ ⟨name, ht⟩ =>
      ⟨⟨hp.step hgraph h hm ht, fun side => (step_graph side m task).trans (hm side)⟩,
        fun _ hbelow => awaits_below hgraph h hp hm ht hbelow,
        fun _ ⟨other, hother⟩ => ⟨other, hother.step hp.named task⟩⟩) ⟨hp, hm⟩ ht
  exact ⟨hrun.1.1, fun moment hmoment => and_assoc.1 (hrun.2 moment hmoment)⟩

/-- The global namespaces are joined. -/
theorem Nests.joins_root {a b : TypeNode} (ha : (graph .native).get? .global = some a)
    (hb : (graph .managed).get? .global = some b) :
    Joins graph { native := some a, managed := some b } ∧
      Sides.name { native := some a, managed := some b } = "" := by
  obtain ⟨-, haname⟩ := TypeGraph.offers_global (hgraph .native) ha
  obtain ⟨-, hbname⟩ := TypeGraph.offers_global (hgraph .managed) hb
  refine joins_of_node?_iff ⟨.native, a, rfl⟩ fun side n => ?_
  cases side with
  | native => exact h.some_eq_iff hgraph (.global ha) haname
  | managed => exact h.some_eq_iff hgraph (.global hb) hbname

/-- Once the joined global namespaces are stored in an empty projection, their children wait below
them. -/
theorem grown_store (hempty : m.projection = {}) (hm : ∀ side, side.graph m = graph side)
    (hs : Joins graph s) (hname : s.name = "") (hcomplete : m.complete s = s) :
    Grown graph (m.store s).2.2.projection ∧
      ∀ task ∈ (m.store s).2.2.tasks (m.store s).1 s,
        ∃ name, Awaits graph (m.store s).2.2.projection task name := by
  have hnamed : m.projection.Named := hempty ▸ Projection.named_empty
  have hself : (m.store s).2.2.projection.label? (m.store s).1 = some s.label := by
    rw [label?_store hnamed, if_pos rfl, hcomplete]
  have hlabel : ∀ i label, (m.store s).2.2.projection.label? i = some label →
      label = s.label := by
    intro i label hi
    rw [label?_store hnamed, hcomplete] at hi
    split at hi
    · exact (Option.some.inj hi).symm
    · rw [hempty] at hi
      exact absurd ⟨i, hi⟩ Projection.not_has_empty
  refine ⟨⟨hnamed.upsert _, ?_, ?_, ?_⟩, fun task htask => ?_⟩
  · exact fun i label hi => ⟨s, hs, (hlabel i label hi).symm⟩
  · intro i _ _ _
    rw [parentOf?_store, hempty]
    simp [Projection.parentOf?, Projection.get?]
  · intro i label hi hne
    exact absurd ((congrArg Projection.Label.name (hlabel i label hi)).trans hname) hne
  · exact hs.awaits hgraph h (fun side => (graph_store side m s).trans (hm side)) hself rfl htask

/-- Everything that is stored when two trees of names are projected joins nodes. -/
theorem grown_project {settings : ProjectionSettings}
    (hp : project settings (graph .native) (graph .managed) = .ok p) : Grown graph p ∧
      ∀ s ∈ projectStores settings (graph .native) (graph .managed), Joins graph s := by
  obtain ⟨a, ha, -⟩ := (hgraph .native).global
  obtain ⟨b, hb, -⟩ := (hgraph .managed).global
  obtain ⟨hroot, hname⟩ := h.joins_root hgraph ha hb
  let m : Merger := { settings, native := graph .native, managed := graph .managed }
  let root : Sides := { native := some a, managed := some b }
  have hm : ∀ side, side.graph m = graph side := fun side => by cases side <;> rfl
  obtain ⟨hgrown, hawaits⟩ := grown_store hgraph h (m := m) rfl hm hroot hname rfl
  obtain ⟨hfinal, hmoments⟩ := grown_run hgraph h (m.allNames.erase root.name) hgrown
    (fun side => (graph_store side m root).trans (hm side)) hawaits
  rw [project_of_global ha hb, Except.ok.injEq] at hp
  rw [projectStores_of_global ha hb, stores_eq_map]
  refine ⟨hp ▸ hfinal, List.forall_mem_cons.2 ⟨hroot, List.forall_mem_map.2 ?_⟩⟩
  intro moment hmoment
  obtain ⟨hp, hm, name, ht⟩ := hmoments moment hmoment
  exact (ht.joins hgraph h hm hp).1

end Nested

section Projected

variable {settings : ProjectionSettings} {native managed : TypeGraph}

/-- Every reachable node is stored, since the pair whose children are stored joins all nodes of its
name. -/
theorem isStored_of_joins (hp : IsProjected settings native managed p)
    (hm : ∀ side, side.graph { settings, native, managed } = graph side)
    (hjoins : ∀ s ∈ projectStores settings native managed, Joins graph s)
    (hn : (graph side).Reaches n) : IsStored (projectStores settings native managed) side n := by
  rw [← hm] at hn
  refine hp.isStored (fun n hn hstored hexpanded => absurd ?_ hexpanded) hn
  obtain ⟨s, hs, hside⟩ := hstored
  obtain ⟨hreached, hname⟩ := ((hjoins s hs).node?_iff side n).1 hside
  refine isExpanded_of_namesakes hs fun s' hs' hsame => ?_
  exact ((hjoins s' hs').node?_iff side n).2 ⟨hreached, hname.trans hsame.symm⟩

/-- What is made of pairs that join all nodes of their names is the union of both trees. -/
theorem Grown.unionTree (hgrown : Grown graph p) (hp : IsProjected settings native managed p)
    (hm : ∀ side, side.graph { settings, native, managed } = graph side)
    (hjoins : ∀ s ∈ projectStores settings native managed, Joins graph s) :
    UnionTree graph p := by
  have hlabel : ∀ i q, p.get? i = some q → p.label? i = some q.label := fun i q hq => by
    rw [Projection.label?, hq, Option.map_some]
  refine ⟨fun name => ⟨?_, ?_⟩, ?_, ?_, ?_, ?_⟩
  · rintro ⟨i, q, hq, rfl⟩
    obtain ⟨s, hs, hsame⟩ := hgrown.joins i q.label (hlabel i q hq)
    obtain ⟨side, n, hn⟩ := hs.isSome
    obtain ⟨hreached, hname⟩ := (hs.node?_iff side n).1 hn
    exact ⟨side, n, hreached, hname.trans (congrArg Projection.Label.name hsame)⟩
  · rintro ⟨side, n, hn, rfl⟩
    obtain ⟨s, hs, hside⟩ := isStored_of_joins hp hm hjoins hn
    have hname := (((hjoins s hs).node?_iff side n).1 hside).2
    obtain ⟨last, hlast, -, hsame⟩ := exists_lastUnder? hs
    obtain ⟨i, hi⟩ := (hp.has_iff last.label).2 ⟨last, by rwa [← hsame] at hlast, rfl⟩
    obtain ⟨q, hq, hqlabel⟩ := Option.map_eq_some_iff.1 hi
    refine ⟨i, q, hq, (congrArg Projection.Label.name hqlabel).trans (hsame.trans hname.symm)⟩
  · intro i j a b ha hb hname
    exact hgrown.named.eq (hlabel i a ha) (hlabel j b hb) hname
  · intro i q side id hq
    obtain ⟨s, hs, hsame⟩ := hgrown.joins i q.label (hlabel i q hq)
    have hid : side.id? q = (side.node? s).map (·.id) := by
      rw [← Sides.labelId?_label, hsame]
      cases side <;> rfl
    have hname : s.name = q.fullName := congrArg Projection.Label.name hsame
    rw [hid, Option.map_eq_some_iff]
    simp only [hs.node?_iff, hname, and_assoc]
  · intro i q hq hroot
    rw [← Projection.parentOf?_of_get? hq]
    exact hgrown.root i q.label (hlabel i q hq) hroot
  · intro i q hq hne
    obtain ⟨j, above, hj, habove, hscope⟩ := hgrown.parent i q.label (hlabel i q hq) hne
    obtain ⟨node, hnode, rfl⟩ := Option.map_eq_some_iff.1 habove
    exact ⟨j, node, (Projection.parentOf?_of_get? hq).symm.trans hj, hnode, hscope⟩

end Projected

/-- Two universes that are trees of names are projected to the union of their trees. -/
theorem unionTree_of_nests {settings : ProjectionSettings}
    (hgraph : ∀ side, (graph side).Navigable) (h : Nests graph)
    (hp : project settings (graph .native) (graph .managed) = .ok p) : UnionTree graph p := by
  obtain ⟨p', hp', hprojected⟩ := isProjected_of_navigable (hgraph .native) (hgraph .managed)
  obtain rfl := Except.ok.inj (hp.symm.trans hp')
  obtain ⟨hgrown, hjoins⟩ := grown_project hgraph h hp
  exact hgrown.unionTree hprojected (fun side => by cases side <;> rfl) hjoins

/-! ## Trees that can be told -/

/-- Whether a universe is a tree of names, where `k` steps reach all that is reached. -/
structure NestsAlone (g : TypeGraph) (k : Nat) : Prop where
  closed : ∀ n ∈ g.layer k, ∀ child ∈ g.projectableChildren n, ∃ other ∈ g.layer k,
    other.id = child.id
  child : ∀ n ∈ g.layer k, ∀ child ∈ g.projectableChildren n, child.name ≠ "" ∧
    '.' ∉ child.name.toList ∧ child.fullName = Name.qualify n.fullName child.name
  finds : ∀ n ∈ g.layer k, g.lookupId? n.fullName = some n.id

instance (g : TypeGraph) (k : Nat) : Decidable (NestsAlone g k) :=
  decidable_of_iff (_ ∧ _ ∧ _)
    ⟨fun ⟨closed, child, finds⟩ => ⟨closed, child, finds⟩, fun h => ⟨h.closed, h.child, h.finds⟩⟩

/-- Whether two universes are trees of names, where `k` steps reach all that is reached. -/
structure NestsWithin (graph : Side → TypeGraph) (k : Nat) : Prop where
  alone : ∀ side ∈ Side.all, NestsAlone (graph side) k
  spelling : ∀ side ∈ Side.all, ∀ side' ∈ Side.all, ∀ x ∈ (graph side).projectables,
    ∀ y ∈ (graph side').projectables, Text.lowercase x.fullName = Text.lowercase y.fullName →
      x.fullName = y.fullName
  reaches : ∀ side ∈ Side.all, ∀ side' ∈ Side.all, side ≠ side' →
    ∀ x ∈ (graph side).projectables, ∀ y ∈ (graph side').layer k, x.fullName = y.fullName →
      ∃ other ∈ (graph side).layer k, other.id = x.id

instance (graph : Side → TypeGraph) (k : Nat) : Decidable (NestsWithin graph k) :=
  decidable_of_iff (_ ∧ _ ∧ _)
    ⟨fun ⟨alone, spelling, reaches⟩ => ⟨alone, spelling, reaches⟩,
      fun h => ⟨h.alone, h.spelling, h.reaches⟩⟩

theorem NestsAlone.mem_layer {g : TypeGraph} {k : Nat} (h : NestsAlone g k) (hg : g.Sound)
    (hn : g.Reaches n) : n ∈ g.layer k :=
  TypeGraph.mem_layer_of_reaches hg h.closed hn

theorem NestsWithin.nests {k : Nat} (h : NestsWithin graph k)
    (hsound : ∀ side, (graph side).Sound) : Nests graph := by
  have hlayer : ∀ side n, (graph side).Reaches n → n ∈ (graph side).layer k := fun side _ hn =>
    (h.alone side side.mem_all).mem_layer (hsound side) hn
  refine ⟨?_, ?_, ?_, ?_⟩
  · intro side n child hn hchild
    exact ⟨child.name, (h.alone side side.mem_all).child n (hlayer side n hn) child hchild⟩
  · exact fun side n hn => (h.alone side side.mem_all).finds n (hlayer side n hn)
  · intro side side' x y hx hy hfold
    exact h.spelling side side.mem_all side' side'.mem_all x hx.mem_projectables y
      hy.mem_projectables hfold
  · intro side side' x y hne hx hy hname
    obtain ⟨other, hother, hid⟩ := h.reaches side side.mem_all side' side'.mem_all hne x
      hx.mem_projectables y (hlayer side' y hy) hname
    obtain ⟨⟨id, hget⟩, -⟩ := hx
    have hreached := TypeGraph.reaches_of_mem_layer hother
    have hsame := hreached.get?_id (hsound side)
    rw [hid, hsound side id x hget, hget] at hsame
    exact Option.some.inj hsame ▸ hreached

/-! ## The union -/

/-- Two resolved universes whose definitions have no blanks around their names can be projected. If
they are trees of names, the projection is the union of both. -/
theorem unionTree_project (settings : ProjectionSettings) (origin origin' : Universe)
    (registry registry' : RegistrySettings) (parser parser' : DeclarationParser)
    (acts acts' : List Interning)
    (htrimmed : ∀ c, .define c ∈ acts → Text.trimmed c.fullName = c.fullName)
    (htrimmed' : ∀ c, .define c ∈ acts' → Text.trimmed c.fullName = c.fullName) :
    let native := ((Registry.empty origin registry parser).internAll acts).resolve.1
    let managed := ((Registry.empty origin' registry' parser').internAll acts').resolve.1
    ∃ p, project settings native managed = .ok p ∧
      (Nests (Side.pick native managed) → UnionTree (Side.pick native managed) p) := by
  intro native managed
  have hgraph : ∀ side, (Side.pick native managed side).Navigable := by
    rintro (_ | _)
    · exact Registry.navigable_internAll origin registry parser acts htrimmed
    · exact Registry.navigable_internAll origin' registry' parser' acts' htrimmed'
  obtain ⟨p, hproject, -⟩ := isProjected_of_navigable (hgraph .native) (hgraph .managed)
  refine ⟨p, hproject, fun h => ?_⟩
  exact unionTree_of_nests hgraph h hproject

/-- A namespace with a class, and a class beside it. -/
def nestedNative : List Interning :=
  [.define (Compound.empty "1" .native "A" .namespace),
    .define (Compound.empty "2" .native "A.B" .classType),
    .define (Compound.empty "3" .native "D" .classType)]

/-- The same namespace with the same class and another one. -/
def nestedManaged : List Interning :=
  [.define (Compound.empty "1" .managed "A" .namespace),
    .define (Compound.empty "2" .managed "A.C" .classType),
    .define (Compound.empty "3" .managed "A.B" .classType)]

/-- Both are trees of names, and what they have in common is paired. -/
theorem unionTree_project_nested :
    let native := ((Registry.empty .native (.ofPreset .standard)).internAll nestedNative).resolve.1
    let managed :=
      ((Registry.empty .managed (.ofPreset .standard)).internAll nestedManaged).resolve.1
    ∃ p, project {} native managed = .ok p ∧ Nests (Side.pick native managed) ∧
      UnionTree (Side.pick native managed) p := by
  intro native managed
  have hfirst : ∀ c, .define c ∈ nestedNative → Text.trimmed c.fullName = c.fullName := by
    simp only [nestedNative, List.mem_cons, List.not_mem_nil, Interning.define.injEq, or_false]
    rintro c (rfl | rfl | rfl) <;> decide +kernel
  have hlast : ∀ c, .define c ∈ nestedManaged → Text.trimmed c.fullName = c.fullName := by
    simp only [nestedManaged, List.mem_cons, List.not_mem_nil, Interning.define.injEq, or_false]
    rintro c (rfl | rfl | rfl) <;> decide +kernel
  obtain ⟨p, hp, hunion⟩ := unionTree_project {} .native .managed (.ofPreset .standard)
    (.ofPreset .standard) .standard .standard nestedNative nestedManaged hfirst hlast
  have hsound : ∀ side, (Side.pick native managed side).Sound := by
    rintro (_ | _)
    · exact (Registry.navigable_internAll _ _ _ _ hfirst).id
    · exact (Registry.navigable_internAll _ _ _ _ hlast).id
  have hwithin : NestsWithin (Side.pick native managed) 2 := by decide +kernel
  exact ⟨p, hp, hwithin.nests hsound, hunion (hwithin.nests hsound)⟩

/-- A class with a blank in front of its name, inside of two classes that lie in each other. -/
def blankNative : List Interning :=
  [.define { Compound.empty "1" .native "N" .classType with parentName := some "M" },
    .define { Compound.empty "2" .native "M" .classType with parentName := some "N" },
    .define { Compound.empty "3" .native " A" .classType with parentName := some "N" }]

/-- A class under whose name the other one is found. -/
def blankManaged : List Interning :=
  [.define (Compound.empty "1" .managed "A" .classType)]

/-- Without the condition on blanks the projection need not be the union of two trees of names: the
class with a blank in front of its name is found under the name of the other one and becomes a side
of it, although it has another name and is not reached. -/
theorem not_unionTree_project_blank :
    let native := ((Registry.empty .native (.ofPreset .standard)).internAll blankNative).resolve.1
    let managed :=
      ((Registry.empty .managed (.ofPreset .standard)).internAll blankManaged).resolve.1
    Nests (Side.pick native managed) ∧ ∃ p, project {} native managed = .ok p ∧
      p.label? ⟨1⟩ = some { name := "A", native := some ⟨3⟩, managed := some ⟨1⟩ } ∧
      ¬ UnionTree (Side.pick native managed) p := by
  intro native managed
  have hsound : ∀ side, (Side.pick native managed side).Sound := by
    rintro (_ | _)
    · exact (Registry.linked_resolve ((Registry.Interned.empty .native (.ofPreset .standard)
        .standard).internAll blankNative)).id
    · exact (Registry.linked_resolve ((Registry.Interned.empty .managed (.ofPreset .standard)
        .standard).internAll blankManaged)).id
  have hwithin : NestsWithin (Side.pick native managed) 1 := by decide +kernel
  have hlabel : (projectWithin {} native managed 2).bind (·.label? ⟨1⟩) =
      some { name := "A", native := some ⟨3⟩, managed := some ⟨1⟩ } := by decide +kernel
  have hunreached : ∀ n ∈ native.layer 1, n.fullName ≠ "A" := by decide +kernel
  obtain ⟨p, hp, hlabel⟩ := Option.bind_eq_some_iff.1 hlabel
  refine ⟨hwithin.nests hsound, p, project_of_projectWithin hp, hlabel, fun hunion => ?_⟩
  obtain ⟨q, hq, hqlabel⟩ := Option.map_eq_some_iff.1 hlabel
  obtain ⟨n, hn, hname, -⟩ := (hunion.sides ⟨1⟩ q .native ⟨3⟩ hq).1
    (congrArg Projection.Label.native hqlabel)
  exact hunreached n ((hwithin.alone .native (Side.mem_all _)).mem_layer (hsound .native) hn)
    (hname.trans (congrArg Projection.Label.name hqlabel))

end Merger

end TypeAtlas
