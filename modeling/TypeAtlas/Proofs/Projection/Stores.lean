import TypeAtlas.Projection.Merger
import TypeAtlas.Proofs.Projection.Labels

/-!
# The pairs that a merger stores

A merger works through its tasks one after another, and each of them ends with a pair that is stored
under its name. The projection is known from the list of these pairs alone: a name has the sides of
the last pair that was stored under it. A name is expanded when its first pair is stored, and each
child of this pair is then stored in turn.

## Main definitions

* `Side` — one of the two universes.
* `Merger.Genuine` — a pair whose sides are nodes of the universes.
* `Merger.stores` — the pairs that are stored from some tasks on.
* `Merger.moments` — the waiting pairs, each with the merger that it finds.

The main statements are `Merger.run_keeps`, `Merger.has_run` and `Merger.isStored_of_first`.
-/

namespace TypeAtlas

/-- One of the two universes of a projection. -/
inductive Side where
  | native | managed
  deriving DecidableEq, Repr

namespace Side

/-- The node on a side of a pair. -/
def node? : Side → Sides → Option TypeNode
  | native, s => s.native
  | managed, s => s.managed

/-- The graph on a side of a merger. -/
def graph : Side → Merger → TypeGraph
  | native, m => m.native
  | managed, m => m.managed

/-- The node on a side of a projected node. -/
def id? : Side → ProjectedType → Option TypeId
  | native, n => n.native
  | managed, n => n.managed

/-- The node on a side of a label. -/
def labelId? : Side → Projection.Label → Option TypeId
  | native, label => label.native
  | managed, label => label.managed

end Side

namespace Sides

variable {s : Sides} {side : Side} {n : TypeNode} {native managed : List TypeNode}

/-- The name under which a pair is stored. -/
def name (s : Sides) : String :=
  (s.surface?.map (·.fullName)).getD ""

/-- The label of the projected node that a pair makes up. -/
def label (s : Sides) : Projection.Label where
  name := s.name
  native := s.native.map (·.id)
  managed := s.managed.map (·.id)

/-- A pair is known from the nodes on its sides. -/
theorem eq_of_node? {s' : Sides} (h : ∀ side, Side.node? side s = side.node? s') : s = s' := by
  cases s
  cases s'
  exact (Sides.mk.injEq ..).mpr ⟨h .native, h .managed⟩

@[simp] theorem fullName_compose (settings : ProjectionSettings) (s : Sides) :
    (s.compose settings).fullName = s.name := rfl

@[simp] theorem label_compose (settings : ProjectionSettings) (s : Sides) :
    (s.compose settings).label = s.label := rfl

theorem labelId?_label (side : Side) (s : Sides) :
    side.labelId? s.label = (side.node? s).map (·.id) := by
  cases side <;> rfl

/-- A pair with one side is stored under the name of this side. -/
@[simp] theorem name_native (x : TypeNode) : ({ native := some x } : Sides).name = x.fullName := rfl

@[simp] theorem name_managed (y : TypeNode) :
    ({ managed := some y } : Sides).name = y.fullName := by
  cases h : y.isFacade <;> simp [name, surface?, Option.filter_some, h]

/-- A pair that has some node is stored under the name of one. -/
theorem exists_name_eq (h : side.node? s = some n) :
    ∃ side' n', Side.node? side' s = some n' ∧ s.name = n'.fullName := by
  have hsurface : ∀ n', s.surface? = some n' → s.managed = some n' ∨ s.native = some n' := by
    intro n' hn'
    rcases Option.or_eq_some_iff.1 hn' with hn' | ⟨-, hn'⟩
    · rcases Option.or_eq_some_iff.1 hn' with hn' | ⟨-, hn'⟩
      · exact .inl (Option.filter_eq_some_iff.1 hn').1
      · exact .inr hn'
    · exact .inl hn'
  cases hs : s.surface? with
  | none =>
    obtain ⟨hnone, hmanaged⟩ := Option.or_eq_none_iff.1 hs
    have hnative := (Option.or_eq_none_iff.1 hnone).2
    cases side <;> simp_all [Side.node?]
  | some n' =>
    have hname : s.name = n'.fullName := by rw [name, hs]; rfl
    rcases hsurface n' hs with h' | h'
    · exact ⟨.managed, n', h', hname⟩
    · exact ⟨.native, n', h', hname⟩

/-! ## Pairing children -/

/-- All but the first element that is found are left. -/
theorem mem_eraseP_of_ne {found : TypeNode} {p : TypeNode → Bool} (h : n ∈ native)
    (hfound : native.find? p = some found) (hne : n ≠ found) : n ∈ native.eraseP p := by
  induction native with
  | nil => simp at h
  | cons a rest ih =>
    by_cases hp : p a = true
    · rw [List.find?_cons_of_pos hp] at hfound
      obtain rfl := Option.some.inj hfound
      rw [List.eraseP_cons_of_pos hp]
      exact (List.mem_cons.1 h).resolve_left hne
    · rw [List.find?_cons_of_neg hp] at hfound
      rw [List.eraseP_cons_of_neg hp]
      rcases List.mem_cons.1 h with rfl | h
      · exact List.mem_cons_self
      · exact List.mem_cons_of_mem _ (ih h hfound)

/-- Each child is on its side of some pair. -/
theorem exists_mem_pairUp_native (h : n ∈ native) :
    ∃ s ∈ pairUp native managed, s.native = some n := by
  fun_induction pairUp native managed with
  | case1 native => exact ⟨_, List.mem_map_of_mem h, rfl⟩
  | case2 native m rest found hfound ih =>
    by_cases heq : n = found
    · exact ⟨_, List.mem_cons_self, by rw [heq]⟩
    · obtain ⟨s, hs, hn⟩ := ih (mem_eraseP_of_ne h hfound heq)
      exact ⟨s, List.mem_cons_of_mem _ hs, hn⟩
  | case3 native m rest hnone ih =>
    obtain ⟨s, hs, hn⟩ := ih h
    exact ⟨s, List.mem_cons_of_mem _ hs, hn⟩

theorem exists_mem_pairUp_managed (h : n ∈ managed) :
    ∃ s ∈ pairUp native managed, s.managed = some n := by
  fun_induction pairUp native managed with
  | case1 native => simp at h
  | case2 native m rest found hfound ih =>
    rcases List.mem_cons.1 h with rfl | h
    · exact ⟨_, List.mem_cons_self, rfl⟩
    · obtain ⟨s, hs, hn⟩ := ih h
      exact ⟨s, List.mem_cons_of_mem _ hs, hn⟩
  | case3 native m rest hnone ih =>
    rcases List.mem_cons.1 h with rfl | h
    · exact ⟨_, List.mem_cons_self, rfl⟩
    · obtain ⟨s, hs, hn⟩ := ih h
      exact ⟨s, List.mem_cons_of_mem _ hs, hn⟩

/-- A pair of children has children on its sides, and at least one of them. -/
theorem of_mem_pairUp (h : s ∈ pairUp native managed) :
    (∀ n, s.native = some n → n ∈ native) ∧ (∀ n, s.managed = some n → n ∈ managed) ∧
      (s.native.isSome ∨ s.managed.isSome) := by
  fun_induction pairUp native managed with
  | case1 native =>
    obtain ⟨n, hn, rfl⟩ := List.mem_map.1 h
    simpa using hn
  | case2 native m rest found hfound ih =>
    rcases List.mem_cons.1 h with rfl | h
    · have := List.mem_of_find?_eq_some hfound
      simpa using this
    · obtain ⟨hnative, hmanaged, hsome⟩ := ih h
      exact ⟨fun n hn => List.mem_of_mem_eraseP (hnative n hn),
        fun n hn => List.mem_cons_of_mem _ (hmanaged n hn), hsome⟩
  | case3 native m rest hnone ih =>
    rcases List.mem_cons.1 h with rfl | h
    · simp
    · obtain ⟨hnative, hmanaged, hsome⟩ := ih h
      exact ⟨hnative, fun n hn => List.mem_cons_of_mem _ (hmanaged n hn), hsome⟩

/-- Children are paired by their short names. -/
theorem sameName_of_mem_pairUp {x y : TypeNode} (h : s ∈ pairUp native managed)
    (hx : s.native = some x) (hy : s.managed = some y) : sameName x.name y.name = true := by
  fun_induction pairUp native managed with
  | case1 native =>
    obtain ⟨n, -, rfl⟩ := List.mem_map.1 h
    simp at hy
  | case2 native m rest found hfound ih =>
    rcases List.mem_cons.1 h with rfl | h
    · obtain rfl := Option.some.inj hx
      obtain rfl := Option.some.inj hy
      simpa using List.find?_some hfound
    · exact ih h
  | case3 native m rest hnone ih =>
    rcases List.mem_cons.1 h with rfl | h
    · simp at hx
    · exact ih h

end Sides

namespace TypeGraph

variable {g : TypeGraph} {n child : TypeNode}

/-- The nodes that are reached from the global namespace through children that are part of a
projection. -/
inductive Reaches (g : TypeGraph) : TypeNode → Prop where
  | global {n : TypeNode} (hn : g.get? .global = some n) : Reaches g n
  | child {n child : TypeNode} (h : Reaches g n) (hchild : child ∈ g.projectableChildren n) :
      Reaches g child

/-- Nodes know their positions. -/
def Sound (g : TypeGraph) : Prop :=
  ∀ id n, g.get? id = some n → n.id = id

theorem get?_id_of_mem_projectableChildren (hg : g.Sound)
    (h : child ∈ g.projectableChildren n) : g.get? child.id = some child := by
  obtain ⟨id, -, hid⟩ := List.mem_filterMap.1 (List.mem_filter.1 h).1
  rw [hg id child hid, hid]

theorem get?_id_of_counterpart? {fullName : String} (hg : g.Sound)
    (h : g.counterpart? fullName = some n) : g.get? n.id = some n := by
  unfold counterpart? at h
  split at h
  · simp at h
  · obtain ⟨id, -, hid⟩ := Option.bind_eq_some_iff.1 (Option.filter_eq_some_iff.1 h).1
    rw [hg id n hid, hid]

/-- A side that is completed from a position or by a counterpart is a node of its graph. -/
theorem get?_id_of_completed {side found : Option TypeNode} {id : Option TypeId} (hg : g.Sound)
    (hside : side = some n → g.get? n.id = some n)
    (hfound : found = some n → g.get? n.id = some n)
    (h : (side.or (id.bind g.get?)).or found = some n) : g.get? n.id = some n := by
  rcases Option.or_eq_some_iff.1 h with h | ⟨-, h⟩
  · rcases Option.or_eq_some_iff.1 h with h | ⟨-, h⟩
    · exact hside h
    · obtain ⟨id, -, hid⟩ := Option.bind_eq_some_iff.1 h
      rw [hg id n hid, hid]
  · exact hfound h

theorem Reaches.get?_id (hg : g.Sound) (h : g.Reaches n) : g.get? n.id = some n := by
  cases h with
  | global hn => rw [hg _ _ hn, hn]
  | child _ hchild => exact get?_id_of_mem_projectableChildren hg hchild

end TypeGraph

namespace Merger

variable {m : Merger} {task : Task} {tasks : List Task} {pending : List String} {s : Sides}
  {side : Side} {n : TypeNode}

/-- Both universes know the positions of their nodes. -/
def Sound (m : Merger) : Prop :=
  ∀ side, (Side.graph side m).Sound

/-- A pair of nodes of the two universes, at least one of them. -/
structure Genuine (m : Merger) (s : Sides) : Prop where
  node : ∀ side n, Side.node? side s = some n → (side.graph m).get? n.id = some n
  isSome : ∃ side n, Side.node? side s = some n

/-- The pairs of nodes are those of the universes alone. -/
theorem genuine_iff_of_graph {m' : Merger} (h : ∀ side, Side.graph side m = side.graph m') :
    m.Genuine s ↔ m'.Genuine s := by
  constructor
  · exact fun hs => ⟨fun side n hn => h side ▸ hs.node side n hn, hs.isSome⟩
  · exact fun hs => ⟨fun side n hn => (h side).symm ▸ hs.node side n hn, hs.isSome⟩

/-- The nodes at two positions are the sides of their pair. -/
theorem exists_of_pair {native managed : TypeId} (h : m.pair native managed = .ok s) :
    ∃ x y, m.native.get? native = some x ∧ m.managed.get? managed = some y ∧
      s = { native := some x, managed := some y } := by
  unfold pair at h
  split at h
  · simp at h
  · next x hx =>
    split at h
    · simp at h
    · next y hy => exact ⟨x, y, hx, hy, (Except.ok.inj h).symm⟩

/-- The nodes at two positions are a pair of nodes of the universes. -/
theorem genuine_of_pair {native managed : TypeId} (hm : m.Sound)
    (h : m.pair native managed = .ok s) : m.Genuine s := by
  obtain ⟨x, y, hx, hy, rfl⟩ := exists_of_pair h
  refine ⟨fun side found hfound => ?_, .native, x, rfl⟩
  cases side with
  | native =>
    obtain rfl := Option.some.inj hfound
    exact (hm .native _ _ hx).symm ▸ hx
  | managed =>
    obtain rfl := Option.some.inj hfound
    exact (hm .managed _ _ hy).symm ▸ hy

/-! ## Completing a pair -/

/-- What a missing side is completed with, given the name of the other side: the side of what is
projected under the name, else what has the name in the universe. -/
def found? (m : Merger) (side : Side) (name : String) : Option TypeNode :=
  (((m.projection.lookup? name).bind side.id?).bind (side.graph m).get?).or
    ((side.graph m).counterpart? name)

theorem complete_native (m : Merger) (x : TypeNode) : m.complete { native := some x } =
    { native := some x, managed := m.found? .managed x.fullName } := by
  have hid : Side.managed.id? = (·.managed) := rfl
  simp [complete, existing?, found?, hid, Side.graph]

theorem complete_managed (m : Merger) (y : TypeNode) : m.complete { managed := some y } =
    { native := m.found? .native y.fullName, managed := some y } := by
  have hid : Side.native.id? = (·.native) := rfl
  simp [complete, existing?, found?, hid, Side.graph]

theorem complete_both (m : Merger) (x y : TypeNode) :
    m.complete { native := some x, managed := some y } =
      { native := some x, managed := some y } :=
  rfl

/-- A pair of nodes at two positions lacks no side. -/
theorem complete_of_pair {native managed : TypeId} (h : m.pair native managed = .ok s)
    (m' : Merger) : m'.complete s = s := by
  obtain ⟨x, y, -, -, rfl⟩ := exists_of_pair h
  exact complete_both m' x y

/-- A side that a pair has stays as it is. -/
theorem node?_complete (h : side.node? s = some n) : side.node? (m.complete s) = some n := by
  unfold complete
  split
  · exact h
  · cases side <;> simp_all [Side.node?]

theorem genuine_complete (hm : m.Sound) (h : m.Genuine s) : m.Genuine (m.complete s) := by
  obtain ⟨side, n, hn⟩ := h.isSome
  refine ⟨?_, side, n, node?_complete hn⟩
  have hcounterpart : ∀ {g : TypeGraph} {other : Option TypeNode} {n : TypeNode}, g.Sound →
      (other.bind fun k => g.counterpart? k.fullName) = some n → g.get? n.id = some n := by
    intro g other n hg hn
    obtain ⟨k, -, hk⟩ := Option.bind_eq_some_iff.1 hn
    exact TypeGraph.get?_id_of_counterpart? hg hk
  unfold complete
  split
  · exact h.node
  · intro side n hn
    cases side with
    | native =>
      exact TypeGraph.get?_id_of_completed (hm .native) (h.node .native n)
        (hcounterpart (hm .native)) hn
    | managed =>
      exact TypeGraph.get?_id_of_completed (hm .managed) (h.node .managed n)
        (hcounterpart (hm .managed)) hn

theorem name_mem_allNames (h : m.Genuine s) : s.name ∈ m.allNames := by
  obtain ⟨side, n, hn⟩ := h.isSome
  obtain ⟨side', n', hn', hname⟩ := Sides.exists_name_eq hn
  have hget := h.node side' n' hn'
  unfold allNames
  rw [List.mem_eraseDups, List.mem_map]
  refine ⟨n', ?_, hname.symm⟩
  rw [List.mem_append]
  cases side' with
  | native => exact .inl (Array.mem_toList_iff.2 (Array.mem_of_getElem? hget))
  | managed => exact .inr (Array.mem_toList_iff.2 (Array.mem_of_getElem? hget))

/-! ## One task -/

theorem graph_store (side : Side) (m : Merger) (s : Sides) :
    side.graph (m.store s).2.2 = side.graph m := by
  cases side <;> rfl

/-- A pair is stored at the position of its name. -/
theorem label?_store (h : m.projection.Named) (s : Sides) (i : ProjectedId) :
    (m.store s).2.2.projection.label? i =
      if i = (m.store s).1 then some (m.complete s).label else m.projection.label? i :=
  Projection.label?_upsert h _ i

theorem step_name (m : Merger) (task : Task) : (m.step task).1 = (m.complete task.sides).name := rfl

theorem step_graph (side : Side) (m : Merger) (task : Task) :
    side.graph (m.step task).2.2 = side.graph m := by
  cases side <;> rfl

theorem step_below (m : Merger) (task : Task) : ∃ parent,
    (m.step task).2.1 = m.tasks parent (m.complete task.sides) :=
  ⟨_, rfl⟩

theorem step_projection (m : Merger) (task : Task) : (m.step task).2.2.projection =
    (m.store task.sides).2.2.projection.link task.parent (m.store task.sides).1 :=
  rfl

theorem label?_step (h : m.projection.Named) (task : Task) (i : ProjectedId) :
    (m.step task).2.2.projection.label? i = if i = (m.store task.sides).1 then
      some (m.complete task.sides).label else m.projection.label? i :=
  (Projection.label?_link _ _ _ i).trans (label?_store h task.sides i)

/-- Nodes keep their names. -/
theorem name_step {i : ProjectedId} {label : Projection.Label} (h : m.projection.Named)
    (task : Task) (hi : m.projection.label? i = some label) : ∃ label',
      (m.step task).2.2.projection.label? i = some label' ∧ label'.name = label.name := by
  obtain ⟨label', hi', hname⟩ := Projection.name_upsert h hi
  exact ⟨label', (Projection.label?_link _ _ _ i).trans hi', hname⟩

/-- Each child of a pair is on its side of some task below it. -/
theorem exists_mem_tasks {child : TypeNode} (parent : ProjectedId) (hn : side.node? s = some n)
    (hchild : child ∈ (side.graph m).projectableChildren n) :
    ∃ task ∈ m.tasks parent s, side.node? task.sides = some child := by
  have hpair : ∃ pair ∈ Sides.pairUp ((s.native.map m.native.projectableChildren).getD [])
      ((s.managed.map m.managed.projectableChildren).getD []), side.node? pair = some child := by
    cases side with
    | native =>
      have hn : s.native = some n := hn
      rw [hn]
      exact Sides.exists_mem_pairUp_native hchild
    | managed =>
      have hn : s.managed = some n := hn
      rw [hn]
      exact Sides.exists_mem_pairUp_managed hchild
  obtain ⟨pair, hpair, hside⟩ := hpair
  exact ⟨_, List.mem_map_of_mem hpair, hside⟩

/-- What waits below a pair is a child of its node on the same side. -/
theorem exists_parent_of_mem_tasks {parent : ProjectedId} (h : task ∈ m.tasks parent s)
    (hn : side.node? task.sides = some n) :
    ∃ x, side.node? s = some x ∧ n ∈ (side.graph m).projectableChildren x := by
  obtain ⟨pair, hpair, rfl⟩ := List.mem_map.1 h
  obtain ⟨hnative, hmanaged, -⟩ := Sides.of_mem_pairUp hpair
  cases side with
  | native =>
    have hmem := hnative n hn
    cases hx : s.native with
    | none => simp [hx] at hmem
    | some x => exact ⟨x, hx, by simpa [hx, Side.graph] using hmem⟩
  | managed =>
    have hmem := hmanaged n hn
    cases hx : s.managed with
    | none => simp [hx] at hmem
    | some x => exact ⟨x, hx, by simpa [hx, Side.graph] using hmem⟩

theorem exists_node?_of_mem_tasks {parent : ProjectedId} (h : task ∈ m.tasks parent s) :
    ∃ side n, Side.node? side task.sides = some n := by
  obtain ⟨pair, hpair, rfl⟩ := List.mem_map.1 h
  obtain ⟨-, -, hsome | hsome⟩ := Sides.of_mem_pairUp hpair
  · exact ⟨.native, Option.isSome_iff_exists.1 hsome⟩
  · exact ⟨.managed, Option.isSome_iff_exists.1 hsome⟩

theorem genuine_of_mem_tasks (hm : m.Sound) (parent : ProjectedId)
    (h : task ∈ m.tasks parent s) : m.Genuine task.sides := by
  refine ⟨fun side n hn => ?_, exists_node?_of_mem_tasks h⟩
  obtain ⟨x, -, hchild⟩ := exists_parent_of_mem_tasks h hn
  exact TypeGraph.get?_id_of_mem_projectableChildren (hm side) hchild

/-! ## All tasks -/

/-- The pairs that are stored from some tasks on, in order. -/
def stores (pending : List String) (m : Merger) : List Task → List Sides
  | [] => []
  | task :: rest =>
    match m.step task with
    | (name, below, merger) =>
      if name ∈ pending then
        m.complete task.sides :: stores (pending.erase name) merger (below ++ rest)
      else m.complete task.sides :: stores pending merger rest
termination_by rest => (pending.length, rest.length)
decreasing_by
  · next h =>
    have := List.length_erase_of_mem h
    have := List.length_pos_of_mem h
    exact Prod.Lex.left _ _ (by omega)
  · exact Prod.Lex.right _ (by simp)

/-- The waiting pairs in the order in which they are worked through, each with the merger that it
finds. -/
def moments (pending : List String) (m : Merger) : List Task → List (Merger × Task)
  | [] => []
  | task :: rest =>
    match m.step task with
    | (name, below, merger) =>
      if name ∈ pending then (m, task) :: moments (pending.erase name) merger (below ++ rest)
      else (m, task) :: moments pending merger rest
termination_by rest => (pending.length, rest.length)
decreasing_by
  · next h =>
    have := List.length_erase_of_mem h
    have := List.length_pos_of_mem h
    exact Prod.Lex.left _ _ (by omega)
  · exact Prod.Lex.right _ (by simp)

/-- The names that have not come up yet, and the pairs that wait, after one pair. -/
def next (pending : List String) (m : Merger) (task : Task) (rest : List Task) :
    List String × List Task :=
  if (m.step task).1 ∈ pending then
    (pending.erase (m.step task).1, (m.step task).2.1 ++ rest)
  else (pending, rest)

theorem run_cons (pending : List String) (m : Merger) (task : Task) (rest : List Task) :
    run pending m (task :: rest) =
      run (next pending m task rest).1 (m.step task).2.2 (next pending m task rest).2 := by
  rcases hstep : m.step task with ⟨name, below, merger⟩
  rw [run, next, hstep]
  dsimp only
  split <;> rfl

theorem stores_cons (pending : List String) (m : Merger) (task : Task) (rest : List Task) :
    stores pending m (task :: rest) = m.complete task.sides ::
      stores (next pending m task rest).1 (m.step task).2.2 (next pending m task rest).2 := by
  rcases hstep : m.step task with ⟨name, below, merger⟩
  rw [stores, next, hstep]
  dsimp only
  split <;> rfl

theorem moments_cons (pending : List String) (m : Merger) (task : Task) (rest : List Task) :
    moments pending m (task :: rest) = (m, task) ::
      moments (next pending m task rest).1 (m.step task).2.2 (next pending m task rest).2 := by
  rcases hstep : m.step task with ⟨name, below, merger⟩
  rw [moments, next, hstep]
  dsimp only
  split <;> rfl

/-- What waits after one pair waits below it or has waited before. -/
theorem mem_next {other : Task} {rest : List Task} (h : other ∈ (next pending m task rest).2) :
    other ∈ (m.step task).2.1 ∨ other ∈ rest := by
  unfold next at h
  split at h
  · exact List.mem_append.1 h
  · exact .inr h

theorem mem_next_of_mem {other : Task} {rest : List Task} (h : other ∈ rest) :
    other ∈ (next pending m task rest).2 := by
  unfold next
  split
  · exact List.mem_append_right _ h
  · exact h

/-- What holds where nothing waits, and before a pair if it holds after it, holds always. -/
theorem run_induction {P : List String → Merger → List Task → Prop}
    (nil : ∀ pending m, P pending m [])
    (cons : ∀ pending m task rest,
      P (next pending m task rest).1 (m.step task).2.2 (next pending m task rest).2 →
        P pending m (task :: rest)) (pending : List String) (m : Merger) (tasks : List Task) :
    P pending m tasks := by
  fun_induction run pending m tasks with
  | case1 => exact nil _ _
  | case2 pending m task rest name below merger hstep hmem ih =>
    refine cons _ _ _ _ ?_
    rw [next, hstep, if_pos hmem]
    exact ih
  | case3 pending m task rest name below merger hstep hmem ih =>
    refine cons _ _ _ _ ?_
    rw [next, hstep, if_neg hmem]
    exact ih

/-- What is stored at each moment is the waiting pair, completed. -/
theorem stores_eq_map : stores pending m tasks =
    (moments pending m tasks).map fun moment => moment.1.complete moment.2.sides := by
  induction pending, m, tasks using run_induction with
  | nil pending m => rw [stores, moments, List.map_nil]
  | cons pending m task rest ih => rw [stores_cons, moments_cons, List.map_cons, ih]

/-- What holds of the merger and of each waiting pair at first, and is kept by each step, holds at
every moment and in the end. -/
theorem run_keeps (pending : List String) (m : Merger) (tasks : List Task)
    {I : Merger → Prop} {T : Merger → Task → Prop}
    (hstep : ∀ moment ∈ moments pending m tasks, I moment.1 → T moment.1 moment.2 →
      I (moment.1.step moment.2).2.2 ∧
        (∀ below ∈ (moment.1.step moment.2).2.1, T (moment.1.step moment.2).2.2 below) ∧
        ∀ other, T moment.1 other → T (moment.1.step moment.2).2.2 other)
    (hm : I m) (htasks : ∀ task ∈ tasks, T m task) :
    I (run pending m tasks) ∧
      ∀ moment ∈ moments pending m tasks, I moment.1 ∧ T moment.1 moment.2 := by
  induction pending, m, tasks using run_induction with
  | nil pending m => exact ⟨by rwa [run], by simp [moments]⟩
  | cons pending m task rest ih =>
    rw [moments_cons] at hstep
    rw [run_cons, moments_cons]
    have htask := htasks task List.mem_cons_self
    obtain ⟨hmerger, hbelow, hother⟩ := hstep (m, task) List.mem_cons_self hm htask
    obtain ⟨hrun, hmoments⟩ := ih (fun moment h => hstep moment (List.mem_cons_of_mem _ h)) hmerger
      fun other h => (mem_next h).elim (hbelow other) fun h =>
        hother other (htasks other (List.mem_cons_of_mem _ h))
    exact ⟨hrun, List.forall_mem_cons.2 ⟨⟨hm, htask⟩, hmoments⟩⟩

/-- What each step keeps, whatever it is about, holds in the end. -/
theorem run_keeps_of_step {I : Merger → Prop} (hstep : ∀ m task, I m → I (m.step task).2.2)
    (pending : List String) (tasks : List Task) (hm : I m) : I (run pending m tasks) :=
  (run_keeps pending m tasks (T := fun _ _ => True)
    (fun moment _ hm _ => ⟨hstep moment.1 moment.2 hm, fun _ _ => trivial, fun _ _ => trivial⟩) hm
    fun _ _ => trivial).1

/-- After each moment the run goes on with other waiting pairs, of which the same holds. -/
theorem run_resumes (pending : List String) (m : Merger) (tasks : List Task)
    {I : Merger → Prop} {T : Merger → Task → Prop}
    (hstep : ∀ m task, I m → T m task → I (m.step task).2.2 ∧
      (∀ below ∈ (m.step task).2.1, T (m.step task).2.2 below) ∧
        ∀ other, T m other → T (m.step task).2.2 other)
    (hm : I m) (htasks : ∀ task ∈ tasks, T m task) :
    ∀ moment ∈ moments pending m tasks, ∃ pending' tasks',
      run pending m tasks = run pending' (moment.1.step moment.2).2.2 tasks' ∧
        I (moment.1.step moment.2).2.2 ∧ ∀ task ∈ tasks', T (moment.1.step moment.2).2.2 task := by
  induction pending, m, tasks using run_induction with
  | nil pending m => simp [moments]
  | cons pending m task rest ih =>
    obtain ⟨hmerger, hbelow, hother⟩ := hstep m task hm (htasks task List.mem_cons_self)
    have hwaiting : ∀ other ∈ (next pending m task rest).2, T (m.step task).2.2 other :=
      fun other h => (mem_next h).elim (hbelow other) fun h =>
        hother other (htasks other (List.mem_cons_of_mem _ h))
    rw [run_cons, moments_cons]
    exact List.forall_mem_cons.2 ⟨⟨_, _, rfl, hmerger, hwaiting⟩, ih hmerger hwaiting⟩

theorem named_step (h : m.projection.Named) (task : Task) :
    (m.step task).2.2.projection.Named := by
  rw [step_projection]
  exact (h.upsert _).link _ _

theorem has_step (h : m.projection.Named) (task : Task) (label : Projection.Label) :
    (m.step task).2.2.projection.Has label ↔ label = (m.complete task.sides).label ∨
      label.name ≠ (m.complete task.sides).name ∧ m.projection.Has label := by
  rw [step_projection, Projection.has_link]
  exact Projection.has_upsert h

theorem named_run (h : m.projection.Named) : (run pending m tasks).projection.Named :=
  run_keeps_of_step (I := fun m => m.projection.Named) (fun _ task hm => named_step hm task)
    pending tasks h

/-- The last pair that is stored under a name. -/
def lastUnder? (stored : List Sides) (name : String) : Option Sides :=
  stored.reverse.find? (·.name == name)

/-- The first pair that is stored under a name. -/
def firstUnder? (stored : List Sides) (name : String) : Option Sides :=
  stored.find? (·.name == name)

theorem lastUnder?_cons (s : Sides) (stored : List Sides) (name : String) :
    lastUnder? (s :: stored) name =
      (lastUnder? stored name).or (if s.name = name then some s else none) := by
  simp [lastUnder?, List.find?_append, List.find?_singleton]

/-- One more pair in front shows where its name comes up no more. -/
theorem lastUnder?_cons_iff (s : Sides) (stored : List Sides) (label : Projection.Label)
    (P : Prop) :
    ((∃ s', lastUnder? (s :: stored) label.name = some s' ∧ s'.label = label) ∨
        lastUnder? (s :: stored) label.name = none ∧ P) ↔
      (∃ s', lastUnder? stored label.name = some s' ∧ s'.label = label) ∨
        lastUnder? stored label.name = none ∧
          (label = s.label ∨ label.name ≠ s.name ∧ P) := by
  rw [lastUnder?_cons]
  cases lastUnder? stored label.name with
  | some last => simp
  | none =>
    by_cases hname : s.name = label.name
    · simp [hname, eq_comm]
    · have hne : label ≠ s.label := by
        rintro rfl
        exact hname rfl
      simp [hname, hne, Ne.symm hname]

/-- A name has the sides of the last pair that is stored under it. -/
theorem has_run {label : Projection.Label} (h : m.projection.Named) :
    (run pending m tasks).projection.Has label ↔
      (∃ s, lastUnder? (stores pending m tasks) label.name = some s ∧ s.label = label) ∨
        lastUnder? (stores pending m tasks) label.name = none ∧ m.projection.Has label := by
  induction pending, m, tasks using run_induction with
  | nil pending m => simp [run, stores, lastUnder?]
  | cons pending m task rest ih =>
    rw [run_cons, stores_cons, lastUnder?_cons_iff, ← has_step h task]
    exact ih (named_step h task)

/-! ## Coverage -/

/-- Whether some pair has a node on a side. -/
def IsStored (stored : List Sides) (side : Side) (n : TypeNode) : Prop :=
  ∃ s ∈ stored, side.node? s = some n

theorem IsStored.cons {stored : List Sides} (h : IsStored stored side n) :
    IsStored (s :: stored) side n := by
  obtain ⟨s', hs', hside⟩ := h
  exact ⟨s', List.mem_cons_of_mem _ hs', hside⟩

/-- The node of each task is stored. -/
theorem isStored_of_mem (htask : task ∈ tasks) (hn : side.node? task.sides = some n) :
    IsStored (stores pending m tasks) side n := by
  induction pending, m, tasks using run_induction with
  | nil pending m => simp at htask
  | cons pending m first rest ih =>
    rw [stores_cons]
    rcases List.mem_cons.1 htask with rfl | htask
    · exact ⟨_, List.mem_cons_self, node?_complete hn⟩
    · exact (ih (mem_next_of_mem htask)).cons

/-- The universes know the positions of their nodes, and each task pairs some of them. -/
structure Ready (m : Merger) (tasks : List Task) : Prop where
  sound : m.Sound
  genuine : ∀ task ∈ tasks, m.Genuine task.sides

theorem genuine_step_iff (task : Task) : (m.step task).2.2.Genuine s ↔ m.Genuine s :=
  genuine_iff_of_graph fun side => step_graph side m task

theorem Ready.head (h : m.Ready (task :: tasks)) : m.Genuine (m.complete task.sides) :=
  genuine_complete h.sound (h.genuine task List.mem_cons_self)

theorem genuine_of_mem_below (hm : m.Sound) {below : Task} (h : below ∈ (m.step task).2.1) :
    (m.step task).2.2.Genuine below.sides := by
  obtain ⟨parent, htasks⟩ := m.step_below task
  rw [htasks] at h
  exact (genuine_step_iff task).2 (genuine_of_mem_tasks hm parent h)

theorem Ready.next (h : m.Ready (task :: tasks)) (pending : List String) :
    (m.step task).2.2.Ready (Merger.next pending m task tasks).2 := by
  refine ⟨fun side => (step_graph side m task).symm ▸ h.sound side, fun other hother => ?_⟩
  rcases mem_next hother with hother | hother
  · exact genuine_of_mem_below h.sound hother
  · exact (genuine_step_iff task).2 (h.genuine other (List.mem_cons_of_mem _ hother))

theorem genuine_of_mem_stores (h : m.Ready tasks) (hs : s ∈ stores pending m tasks) :
    m.Genuine s := by
  rw [stores_eq_map] at hs
  obtain ⟨moment, hmoment, rfl⟩ := List.mem_map.1 hs
  -- The universes stay the same, so that a pair is of their nodes at any moment or at none.
  have hmoments := run_keeps pending m tasks
    (I := fun m' => m'.Sound ∧ ∀ s, m'.Genuine s ↔ m.Genuine s)
    (T := fun m' task => m'.Genuine task.sides)
    (fun (m', task) _ ⟨hsound, hsame⟩ _ =>
      ⟨⟨fun side => (step_graph side m' task).symm ▸ hsound side,
          fun _ => (genuine_step_iff task).trans (hsame _)⟩,
        fun _ hbelow => genuine_of_mem_below hsound hbelow,
        fun _ hother => (genuine_step_iff task).2 hother⟩)
    ⟨h.sound, fun _ => Iff.rfl⟩ h.genuine
  obtain ⟨⟨hsound, hsame⟩, htask⟩ := hmoments.2 moment hmoment
  exact (hsame _).1 (genuine_complete hsound htask)

theorem firstUnder?_cons (s : Sides) (stored : List Sides) (name : String) :
    firstUnder? (s :: stored) name =
      if s.name = name then some s else firstUnder? stored name := by
  unfold firstUnder?
  split
  · next hname => rw [List.find?_cons_of_pos (by simpa using hname)]
  · next hname => rw [List.find?_cons_of_neg (by simpa using hname)]

/-- The children of the first pair under a name are stored, unless the name has come up before. The
names that have come up are those that are not pending. -/
theorem isStored_of_first (before : List String) {child : TypeNode} (h : m.Ready tasks)
    (hpending : ∀ name ∈ m.allNames, name ∉ pending → name ∈ before)
    (hs : firstUnder? (stores pending m tasks) s.name = some s) (hbefore : s.name ∉ before)
    (hn : side.node? s = some n) (hchild : child ∈ (side.graph m).projectableChildren n) :
    IsStored (stores pending m tasks) side child := by
  induction pending, m, tasks using run_induction generalizing before with
  | nil pending m => simp [stores, firstUnder?] at hs
  | cons pending m task rest ih =>
    have hname : (m.step task).1 ∉ before → (m.step task).1 ∈ pending := fun hout =>
      Decidable.of_not_not fun hmem => hout (hpending _ (name_mem_allNames h.head) hmem)
    rw [stores_cons] at hs ⊢
    rw [firstUnder?_cons] at hs
    split at hs
    · -- The pair itself is the first one, so that its children are among the tasks.
      obtain rfl := Option.some.inj hs
      obtain ⟨task', htask', hside⟩ := exists_mem_tasks (m.store task.sides).1 hn hchild
      refine (isStored_of_mem ?_ hside).cons
      rw [Merger.next, if_pos (hname hbefore)]
      exact List.mem_append_left rest htask'
    · next hne =>
      refine (ih ((m.step task).1 :: before) (h.next pending) ?_ hs ?_ ?_).cons
      · intro other hother hout
        by_cases heq : other = (m.step task).1
        · exact heq ▸ List.mem_cons_self
        · refine List.mem_cons_of_mem _ (hpending other hother fun hin => hout ?_)
          unfold Merger.next
          split
          · exact (List.mem_erase_of_ne heq).2 hin
          · exact hin
      · rw [List.mem_cons, not_or]
        exact ⟨fun heq => hne heq.symm, hbefore⟩
      · rwa [step_graph]

end Merger

end TypeAtlas
