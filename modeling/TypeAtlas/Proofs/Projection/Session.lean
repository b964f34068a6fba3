import TypeAtlas.Proofs.Projection.Stores
import TypeAtlas.Proofs.Projection.Tree
import TypeAtlas.Proofs.Registry.Tree

/-!
# Sessions of a merger

A merger can be asked again and again to merge a pair of positions, with all that lies below it or
without. A call with a position outside its universe fails and changes nothing. Whatever the calls
are, what they leave is a projection whose nodes know their positions, are found under names of
their own, have sides in the two universes, and form a tree.

## Main definitions

* `Merger.Call`, `Merger.perform`, `Merger.performAll` — a call, and what it leaves.
* `Merger.spread` — what is left when a pair is merged with all that lies below it.
* `Projection.Kept` — what each step of a merger preserves.
* `Projection.WellFormed` — what is true of a projection at any time.

The main statement is `Merger.wellFormed_performAll`.
-/

namespace TypeAtlas

/-! ## Well-formed projections -/

namespace Projection

variable {p : Projection} {native managed : TypeGraph} {i parent child : ProjectedId}
  {node : ProjectedType} {label : Label}

/-- Some node of the universes is a side, and no position outside them. -/
structure Label.IsOf (native managed : TypeGraph) (label : Label) : Prop where
  native : ∀ id, label.native = some id → (native.get? id).isSome
  managed : ∀ id, label.managed = some id → (managed.get? id).isSome
  isSome : label.native.isSome ∨ label.managed.isSome

/-- What each step of a merger preserves. -/
structure Kept (native managed : TypeGraph) (p : Projection) : Prop extends Tree p where
  id : ∀ i n, p.get? i = some n → n.id = i
  named : p.Named
  isOf : ∀ i label, p.label? i = some label → label.IsOf native managed

/-- What is true of a projection at any time. -/
structure WellFormed (native managed : TypeGraph) (p : Projection) : Prop extends Tree p where
  /-- Nodes know their positions. -/
  id : ∀ i n, p.get? i = some n → n.id = i
  /-- Each node has a name of its own, which leads to it, and no other name leads anywhere. -/
  unique : ∀ i j n n', p.get? i = some n → p.get? j = some n' → n.fullName = n'.fullName → i = j
  lookup : ∀ i n, p.get? i = some n → p.lookup? n.fullName = some n
  lookupId : ∀ name i, p.lookupId? name = some i ↔ ∃ n, p.get? i = some n ∧ n.fullName = name
  /-- Each node has some side, and its sides are nodes of the universes. -/
  isSome : ∀ i n, p.get? i = some n → n.native.isSome ∨ n.managed.isSome
  native : ∀ i n id, p.get? i = some n → n.native = some id → ∃ x, native.get? id = some x
  managed : ∀ i n id, p.get? i = some n → n.managed = some id → ∃ x, managed.get? id = some x
  count : p.pairedCount + p.nativeOnlyCount + p.managedOnlyCount = p.size

theorem count_of_isSome (nodes : List ProjectedType)
    (h : ∀ n ∈ nodes, n.native.isSome ∨ n.managed.isSome) :
    nodes.countP (·.isPaired) +
      nodes.countP (fun n => n.native.isSome && n.managed.isNone) +
      nodes.countP (fun n => n.managed.isSome && n.native.isNone) = nodes.length := by
  induction nodes with
  | nil => rfl
  | cons n nodes ih =>
    have hn := h n List.mem_cons_self
    have ih := ih fun n' hn' => h n' (List.mem_cons_of_mem _ hn')
    simp only [List.countP_cons, List.length_cons, ProjectedType.isPaired] at ih ⊢
    cases hnative : n.native <;> cases hmanaged : n.managed <;> simp_all <;> omega

theorem Kept.wellFormed (h : p.Kept native managed) : p.WellFormed native managed where
  toTree := h.toTree
  id := h.id
  unique i j n n' hn hn' hname :=
    h.named.eq (a := n.label) (b := n'.label) (by simp [label?, hn]) (by simp [label?, hn']) hname
  lookup _ _ hn := lookup?_of_named h.named hn
  lookupId _ _ := h.named.lookupId?_eq_some_iff
  isSome i n hn := (h.isOf i n.label (by simp [label?, hn])).isSome
  native i n id hn hid :=
    Option.isSome_iff_exists.1 ((h.isOf i n.label (by simp [label?, hn])).native id hid)
  managed i n id hn hid :=
    Option.isSome_iff_exists.1 ((h.isOf i n.label (by simp [label?, hn])).managed id hid)
  count := by
    refine count_of_isSome p.nodes.toList fun n hn => ?_
    obtain ⟨i, hi⟩ := Array.mem_iff_getElem?.1 (Array.mem_toList_iff.1 hn)
    exact (h.isOf ⟨i⟩ n.label (by simp [label?, get?, hi])).isSome

theorem kept_empty : ({} : Projection).Kept native managed where
  toTree := tree_empty
  id i n hn := by simp [get?] at hn
  named := named_empty
  isOf i label hi := by simp [label?, get?] at hi

/-! ## Storing and placing a node -/

theorem id_modify {f : ProjectedType → ProjectedType} (hf : ∀ n, (f n).id = n.id)
    (h : ∀ i n, p.get? i = some n → n.id = i) (changed : ProjectedId) :
    ∀ i n, (p.modify changed f).get? i = some n → n.id = i := by
  intro i n hn
  rw [get?_modify] at hn
  split at hn
  · obtain ⟨old, hold, rfl⟩ := Option.map_eq_some_iff.1 hn
    exact (hf old).trans (h i old hold)
  · exact h i n hn

theorem id_place (h : ∀ i n, p.get? i = some n → n.id = i) (parent child : ProjectedId) :
    ∀ i n, (p.place parent child).get? i = some n → n.id = i := by
  refine id_modify (f := (·.addChild child)) (fun n => ?_)
    (id_modify (f := fun n => { n with parent := some parent }) (fun _ => rfl) h child) parent
  unfold ProjectedType.addChild
  split <;> rfl

theorem Kept.upsert (h : p.Kept native managed) (hnode : node.label.IsOf native managed)
    (hchildren : node.children = []) (hparent : node.parent = none) :
    (p.upsert node).2.Kept native managed where
  toTree := h.toTree.upsert hchildren hparent
  id i n hn := by
    rcases p.get?_upsert_cases node i with hget | ⟨old, -, -, hget⟩ | ⟨-, -, hget⟩
    · exact h.id i n (hget ▸ hn)
    all_goals
      obtain rfl := Option.some.inj (hget.symm.trans hn)
      rfl
  named := h.named.upsert node
  isOf i label hi := by
    rw [label?_upsert h.named] at hi
    split at hi
    · obtain rfl := Option.some.inj hi
      exact hnode
    · exact h.isOf i label hi

theorem Kept.link (h : p.Kept native managed) (hparent : (p.get? parent).isSome)
    (child : ProjectedId) : (p.link parent child).Kept native managed where
  toTree := h.toTree.link hparent child
  id := by
    rcases p.link_cases parent child with heq | ⟨-, -, -, heq⟩ | ⟨existing, -, -, -, heq⟩
    all_goals rw [heq]
    · exact h.id
    · exact id_place h.id parent child
    · refine id_place ?_ parent child
      exact id_modify (f := (·.removeChild child)) (fun _ => rfl) h.id existing
  named := h.named.link parent child
  isOf i label hi := h.isOf i label (by rwa [label?_link] at hi)

end Projection

/-! ## Sessions -/

namespace Merger

variable {m : Merger} {task : Task} {tasks : List Task} {pending : List String} {s : Sides}

/-- A call of a merger. -/
inductive Call where
  | merge (native managed : TypeId)
  | mergeNamespaces (native managed : TypeId)
  deriving DecidableEq, Repr

/-- The outcome of a call, and the merger after it. -/
def outcome (m : Merger) : Call → Except AtlasError ProjectedId × Merger
  | .merge native managed => m.merge native managed
  | .mergeNamespaces native managed => m.mergeNamespaces native managed

/-- What a call leaves. -/
def perform (m : Merger) (call : Call) : Merger :=
  (m.outcome call).2

/-- What a sequence of calls leaves. -/
def performAll (m : Merger) (calls : List Call) : Merger :=
  calls.foldl perform m

/-- The universes know the positions of their nodes, and the projection of them is as it should
be. -/
structure Kept (m : Merger) : Prop where
  sound : m.Sound
  projection : m.projection.Kept m.native m.managed

/-- The sides of a pair of nodes of the universes are positions in them. -/
theorem Genuine.isOf (h : m.Genuine s) : s.label.IsOf m.native m.managed where
  native id hid := by
    obtain ⟨n, hn, rfl⟩ := Option.map_eq_some_iff.1 hid
    exact Option.isSome_of_mem (h.node .native n hn)
  managed id hid := by
    obtain ⟨n, hn, rfl⟩ := Option.map_eq_some_iff.1 hid
    exact Option.isSome_of_mem (h.node .managed n hn)
  isSome := by
    obtain ⟨side, n, hn⟩ := h.isSome
    cases side with
    | native => exact .inl (by simp [Sides.label, show s.native = some n from hn])
    | managed => exact .inr (by simp [Sides.label, show s.managed = some n from hn])

theorem Kept.store (h : m.Kept) (hs : m.Genuine s) : (m.store s).2.2.Kept :=
  ⟨fun side => (graph_store side m s).symm ▸ h.sound side,
    h.projection.upsert (genuine_complete h.sound hs).isOf rfl rfl⟩

/-- The position of a stored pair is in the projection. -/
theorem isSome_get?_store (h : m.projection.Named) (s : Sides) :
    ((m.store s).2.2.projection.get? (m.store s).1).isSome :=
  Projection.isSome_get?_upsert_self h _

theorem Kept.step (h : m.Kept) (hs : m.Genuine task.sides)
    (hparent : (m.projection.get? task.parent).isSome) : (m.step task).2.2.Kept :=
  ⟨fun side => step_graph side m task ▸ h.sound side,
    (h.store hs).projection.link (Projection.isSome_get?_upsert hparent) _⟩

/-- A waiting pair is of nodes of the universes, and belongs below a projected node. -/
structure Expects (m : Merger) (task : Task) : Prop where
  genuine : m.Genuine task.sides
  parent : (m.projection.get? task.parent).isSome

theorem expects_tasks (h : m.Kept) (s : Sides) :
    ∀ task ∈ (m.store s).2.2.tasks (m.store s).1 (m.store s).2.1,
      (m.store s).2.2.Expects task := by
  intro task htask
  refine ⟨genuine_of_mem_tasks (fun side => (graph_store side m s).symm ▸ h.sound side) _ htask, ?_⟩
  obtain ⟨sides, -, rfl⟩ := List.mem_map.1 htask
  exact isSome_get?_store h.projection.named s

theorem Expects.step {other : Task} (h : m.Expects other) (task : Task) :
    (m.step task).2.2.Expects other := by
  refine ⟨(genuine_step_iff task).2 h.genuine, ?_⟩
  exact (Projection.isSome_get?_link _ _ _ _).trans (Projection.isSome_get?_upsert h.parent)

/-- What waits below a pair belongs below its projected node. -/
theorem expects_below (h : m.Kept) (task : Task) :
    ∀ below ∈ (m.step task).2.1, (m.step task).2.2.Expects below := by
  intro below hbelow
  refine ⟨genuine_of_mem_below h.sound hbelow, ?_⟩
  obtain ⟨sides, -, rfl⟩ := List.mem_map.1 hbelow
  exact (Projection.isSome_get?_link _ _ _ _).trans
    (isSome_get?_store h.projection.named task.sides)

/-- One waiting pair keeps a merger as it should be, and what waits stays ready. -/
theorem Kept.keeps (m : Merger) (task : Task) (h : m.Kept) (ht : m.Expects task) :
    (m.step task).2.2.Kept ∧ (∀ below ∈ (m.step task).2.1, (m.step task).2.2.Expects below) ∧
      ∀ other, m.Expects other → (m.step task).2.2.Expects other :=
  ⟨h.step ht.genuine ht.parent, expects_below h task, fun _ hother => hother.step task⟩

/-- Working through tasks keeps a merger as it should be, at every moment. -/
theorem Kept.run (h : m.Kept) (hexpects : ∀ task ∈ tasks, m.Expects task)
    (pending : List String) : (Merger.run pending m tasks).Kept ∧
      ∀ moment ∈ moments pending m tasks, moment.1.Kept ∧ moment.1.Expects moment.2 :=
  run_keeps pending m tasks (fun (m, task) _ hm ht => Kept.keeps m task hm ht) h hexpects

/-- What each step of a merger that is as it should be keeps, holds in the end. -/
theorem Kept.run_keeps {I : Merger → Prop} (h : m.Kept) (hexpects : ∀ task ∈ tasks, m.Expects task)
    (pending : List String) (hm : I m)
    (hstep : ∀ moment ∈ moments pending m tasks, moment.1.Kept → moment.1.Expects moment.2 →
      I moment.1 → I (moment.1.step moment.2).2.2) : I (Merger.run pending m tasks) := by
  refine (Merger.run_keeps pending m tasks (I := fun m => m.Kept ∧ I m) (T := Expects)
    (fun (m, task) hmoment ⟨hkept, hm⟩ ht => ?_) ⟨h, hm⟩ hexpects).1.2
  obtain ⟨hkept', hother⟩ := Kept.keeps m task hkept ht
  exact ⟨⟨hkept', hstep (m, task) hmoment hkept ht hm⟩, hother⟩

/-! ### Calls -/

theorem merge_of_error {i j : TypeId} {e : AtlasError} (h : m.pair i j = .error e) :
    m.merge i j = (.error e, m) := by
  rw [merge, h]

theorem merge_of_pair {i j : TypeId} (h : m.pair i j = .ok s) :
    m.merge i j = (.ok (m.store s).1, (m.store s).2.2) := by
  rw [merge, h]

theorem mergeNamespaces_of_error {i j : TypeId} {e : AtlasError} (h : m.pair i j = .error e) :
    m.mergeNamespaces i j = (.error e, m) := by
  rw [mergeNamespaces, h]

/-- What is left when a pair is merged with all that lies below it. -/
def spread (m : Merger) (s : Sides) : Merger :=
  Merger.run (m.allNames.erase (m.complete s).name) (m.store s).2.2
    ((m.store s).2.2.tasks (m.store s).1 (m.store s).2.1)

theorem mergeNamespaces_of_pair {i j : TypeId} (h : m.pair i j = .ok s) :
    m.mergeNamespaces i j = (.ok (m.store s).1, m.spread s) := by
  rw [mergeNamespaces, h]
  rfl

/-- A call that fails changes nothing. -/
theorem perform_of_error {call : Call} {e : AtlasError} (h : (m.outcome call).1 = .error e) :
    m.perform call = m := by
  cases call with
  | merge i j =>
    cases hpair : m.pair i j with
    | error e => rw [perform, outcome, merge_of_error hpair]
    | ok s => simp [outcome, merge_of_pair hpair] at h
  | mergeNamespaces i j =>
    cases hpair : m.pair i j with
    | error e => rw [perform, outcome, mergeNamespaces_of_error hpair]
    | ok s => simp [outcome, mergeNamespaces_of_pair hpair] at h

/-- A call fails and changes nothing, or stores a pair, or works through the tasks below it as
well. -/
theorem perform_cases (m : Merger) (call : Call) : m.perform call = m ∨
    ∃ i j s, m.pair i j = .ok s ∧
      (m.perform call = (m.store s).2.2 ∨ m.perform call = m.spread s) := by
  cases call with
  | merge i j =>
    cases hpair : m.pair i j with
    | error e => exact .inl (by rw [perform, outcome, merge_of_error hpair])
    | ok s => exact .inr ⟨i, j, s, hpair, .inl (by rw [perform, outcome, merge_of_pair hpair])⟩
  | mergeNamespaces i j =>
    cases hpair : m.pair i j with
    | error e => exact .inl (by rw [perform, outcome, mergeNamespaces_of_error hpair])
    | ok s =>
      exact .inr ⟨i, j, s, hpair, .inr (by rw [perform, outcome, mergeNamespaces_of_pair hpair])⟩

theorem Kept.spread (h : m.Kept) (hs : m.Genuine s) : (m.spread s).Kept :=
  ((h.store hs).run (expects_tasks h s) _).1

/-- A call keeps a merger as it should be. -/
theorem Kept.perform (h : m.Kept) (call : Call) : (m.perform call).Kept := by
  rcases m.perform_cases call with heq | ⟨i, j, s, hpair, heq | heq⟩
  · rwa [heq]
  · rw [heq]
    exact h.store (genuine_of_pair h.sound hpair)
  · rw [heq]
    exact h.spread (genuine_of_pair h.sound hpair)

theorem Kept.performAll (h : m.Kept) (calls : List Call) : (m.performAll calls).Kept := by
  induction calls generalizing m with
  | nil => exact h
  | cons call calls ih => exact ih (h.perform call)

/-- What is kept where a pair is stored and where a waiting pair is worked through, is kept by all
calls. -/
theorem Kept.performAll_keeps {I : Merger → Prop} (h : m.Kept) (calls : List Call) (hm : I m)
    (hstore : ∀ m s, m.Kept → m.Genuine s → I m → I (m.store s).2.2)
    (hstep : ∀ m task, m.Kept → m.Expects task → I m → I (m.step task).2.2) :
    I (m.performAll calls) := by
  induction calls generalizing m with
  | nil => exact hm
  | cons call calls ih =>
    refine ih (h.perform call) ?_
    rcases m.perform_cases call with heq | ⟨i, j, s, hpair, heq | heq⟩
    · rwa [heq]
    · rw [heq]
      exact hstore m s h (genuine_of_pair h.sound hpair) hm
    · have hs := genuine_of_pair h.sound hpair
      rw [heq]
      exact (h.store hs).run_keeps (expects_tasks h s) _ (hstore m s h hs hm)
        fun moment _ => hstep moment.1 moment.2

theorem graph_run (side : Side) : side.graph (Merger.run pending m tasks) = side.graph m :=
  run_keeps_of_step (I := fun m' => side.graph m' = side.graph m)
    (fun m' task hm => (step_graph side m' task).trans hm) pending tasks rfl

/-- What is kept wherever a pair is stored and a waiting pair is worked through, whatever state the
merger is in, is kept by all calls. -/
theorem performAll_keeps_of_step {I : Merger → Prop} (m : Merger) (calls : List Call) (hm : I m)
    (hstore : ∀ m s, I m → I (m.store s).2.2) (hstep : ∀ m task, I m → I (m.step task).2.2) :
    I (m.performAll calls) := by
  induction calls generalizing m with
  | nil => exact hm
  | cons call calls ih =>
    refine ih (m.perform call) ?_
    rcases m.perform_cases call with heq | ⟨i, j, s, -, heq | heq⟩
    · rwa [heq]
    · rw [heq]
      exact hstore m s hm
    · rw [heq]
      exact run_keeps_of_step hstep _ _ (hstore m s hm)

/-- The universes stay the same. -/
theorem graph_performAll (side : Side) (m : Merger) (calls : List Call) :
    side.graph (m.performAll calls) = side.graph m :=
  performAll_keeps_of_step (I := fun m' => side.graph m' = side.graph m) m calls rfl
    (fun m' s hm => (graph_store side m' s).trans hm)
    fun m' task hm => (step_graph side m' task).trans hm

/-- The settings stay the same. -/
theorem settings_performAll (m : Merger) (calls : List Call) :
    (m.performAll calls).settings = m.settings :=
  performAll_keeps_of_step (I := fun m' => m'.settings = m.settings) m calls rfl
    (fun _ _ hm => hm) fun _ _ hm => hm

/-- The table of names stays in step, whatever the universes are. -/
theorem named_performAll (h : m.projection.Named) (calls : List Call) :
    (m.performAll calls).projection.Named :=
  performAll_keeps_of_step (I := fun m => m.projection.Named) m calls h
    (fun _ _ hm => hm.upsert _) fun _ task hm => named_step hm task

/-- Whatever calls are made of a merger of two resolved universes, it stays as it should be. -/
theorem kept_resolved (settings : ProjectionSettings) (origin origin' : Universe)
    (registry registry' : RegistrySettings) (parser parser' : DeclarationParser)
    (acts acts' : List Interning) (calls : List Call) :
    let native := ((Registry.empty origin registry parser).internAll acts).resolve.1
    let managed := ((Registry.empty origin' registry' parser').internAll acts').resolve.1
    let m := performAll { settings, native, managed } calls
    m.Kept ∧ m.native = native ∧ m.managed = managed := by
  intro native managed m
  have hnative : native.Linked :=
    Registry.linked_resolve ((Registry.Interned.empty origin registry parser).internAll acts)
  have hmanaged : managed.Linked :=
    Registry.linked_resolve ((Registry.Interned.empty origin' registry' parser').internAll acts')
  have hstart : Kept { settings, native, managed } := by
    refine ⟨fun side => ?_, Projection.kept_empty⟩
    cases side with
    | native => exact hnative.id
    | managed => exact hmanaged.id
  exact ⟨hstart.performAll calls, graph_performAll .native _ calls,
    graph_performAll .managed _ calls⟩

/-- Whatever calls are made of a merger of two resolved universes, its projection is well formed. -/
theorem wellFormed_performAll (settings : ProjectionSettings) (origin origin' : Universe)
    (registry registry' : RegistrySettings) (parser parser' : DeclarationParser)
    (acts acts' : List Interning) (calls : List Call) :
    let native := ((Registry.empty origin registry parser).internAll acts).resolve.1
    let managed := ((Registry.empty origin' registry' parser').internAll acts').resolve.1
    (performAll { settings, native, managed } calls).projection.WellFormed native managed := by
  intro native managed
  obtain ⟨hkept, hnative, hmanaged⟩ := kept_resolved settings origin origin' registry registry'
    parser parser' acts acts' calls
  have hprojection := hkept.projection
  rw [hnative, hmanaged] at hprojection
  exact hprojection.wellFormed

end Merger

end TypeAtlas
