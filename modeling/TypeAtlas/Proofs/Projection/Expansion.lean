import Mathlib.Data.List.Perm.Subperm
import TypeAtlas.Proofs.Compound.Identifiers
import TypeAtlas.Proofs.Projection.Repetition

/-!
# How far a merger expands

What lies below a pair is merged depth first, and the children of two universes may be shared or
lead in circles. Yet every call comes to an end: a projected node is expanded when it is met first
and never again, and there are no more projected nodes than nodes of the universes, since each has a
name of one of them to itself.

## Main definitions

* `Projection.Bounded` — each projected node has a name of the universes.
* `Merger.Expands` — waiting pairs are worked through, while each projected node is expanded once.
* `Merger.Finishes` — what lies below a pair is merged, and this comes to an end.

The main statement is `Merger.finishes_performAll`.
-/

namespace TypeAtlas

/-! ## The size of a projection -/

namespace Projection

variable {p : Projection} {native managed : TypeGraph}

/-- Each projected node has a name of a native or a managed node, and there are no more of them than
of both together. -/
structure Bounded (native managed : TypeGraph) (p : Projection) : Prop where
  name : ∀ i n, p.get? i = some n →
    (∃ x ∈ native.nodes, x.fullName = n.fullName) ∨ ∃ y ∈ managed.nodes, y.fullName = n.fullName
  size : p.size ≤ native.size + managed.size

/-- Nodes with different names of the universes are no more than these. -/
theorem bounded_of_named (h : p.Named) (hname : ∀ i n, p.get? i = some n →
    (∃ x ∈ native.nodes, x.fullName = n.fullName) ∨
      ∃ y ∈ managed.nodes, y.fullName = n.fullName) : p.Bounded native managed := by
  refine ⟨hname, ?_⟩
  have hnodup : (p.nodes.toList.map (·.fullName)).Nodup := by
    rw [List.Nodup, List.pairwise_iff_getElem]
    intro i j hi hj hlt heq
    rw [List.length_map, Array.length_toList] at hi hj
    simp only [List.getElem_map, Array.getElem_toList] at heq
    have hlabel (k : Nat) (hk : k < p.nodes.size) : p.label? ⟨k⟩ = some p.nodes[k].label := by
      simp [label?, get?, hk]
    have hsame := h.eq (hlabel i hi) (hlabel j hj) heq
    exact absurd (congrArg (·.index) hsame) (Nat.ne_of_lt hlt)
  have hsubset : p.nodes.toList.map (·.fullName) ⊆
      (native.nodes.toList ++ managed.nodes.toList).map (·.fullName) := by
    intro name hmem
    obtain ⟨n, hn, rfl⟩ := List.mem_map.1 hmem
    obtain ⟨k, hk⟩ := Array.mem_iff_getElem?.1 (Array.mem_toList_iff.1 hn)
    rw [List.map_append, List.mem_append]
    refine (hname ⟨k⟩ n hk).imp ?_ ?_
    · rintro ⟨x, hx, heq⟩
      exact List.mem_map.2 ⟨x, Array.mem_toList_iff.2 hx, heq⟩
    · rintro ⟨x, hx, heq⟩
      exact List.mem_map.2 ⟨x, Array.mem_toList_iff.2 hx, heq⟩
  have hle := (hnodup.subperm hsubset).length_le
  simpa [size, TypeGraph.size] using hle

end Projection

namespace Merger

/-! ## Expanding -/

/-- Waiting pairs are worked through in order, each stored and placed. What lies below a pair is
worked through at once if its projected node has not been expanded before; the nodes that have been
are listed, the last one first. -/
inductive Expands : List ProjectedId → Merger → List Task → List ProjectedId → Merger → Prop
  | nil (expanded : List ProjectedId) (m : Merger) : Expands expanded m [] expanded m
  | again {expanded expanded' : List ProjectedId} {m m' : Merger} {task : Task} {rest : List Task}
      (hmem : (m.store task.sides).1 ∈ expanded)
      (hrest : Expands expanded (m.step task).2.2 rest expanded' m') :
      Expands expanded m (task :: rest) expanded' m'
  | first {expanded expanded' expanded'' : List ProjectedId} {m m' m'' : Merger} {task : Task}
      {rest : List Task} (hnew : (m.store task.sides).1 ∉ expanded)
      (hbelow : Expands ((m.store task.sides).1 :: expanded) (m.step task).2.2 (m.step task).2.1
        expanded' m')
      (hrest : Expands expanded' m' rest expanded'' m'') :
      Expands expanded m (task :: rest) expanded'' m''

variable {m m' m'' : Merger} {task : Task} {tasks rest : List Task} {s : Sides}
  {expanded expanded' expanded'' : List ProjectedId} {pending : List String} {i : ProjectedId}

theorem isSome_get?_step (task : Task) (hi : (m.projection.get? i).isSome) :
    ((m.step task).2.2.projection.get? i).isSome :=
  (Projection.isSome_get?_link _ _ _ i).trans (Projection.isSome_get?_upsert hi)

/-- The node of a waiting pair is projected when what lies below the pair is worked through. -/
theorem isSome_get?_expanded (hnamed : m.projection.Named) (task : Task)
    (hsome : ∀ i ∈ expanded, (m.projection.get? i).isSome) :
    ∀ i ∈ (m.store task.sides).1 :: expanded, ((m.step task).2.2.projection.get? i).isSome :=
  List.forall_mem_cons.2 ⟨(Projection.isSome_get?_link _ _ _ _).trans (isSome_get?_store hnamed _),
    fun i hi => isSome_get?_step task (hsome i hi)⟩

theorem name?_step (hnamed : m.projection.Named) (task : Task)
    (hi : (m.projection.get? i).isSome) :
    (m.step task).2.2.projection.name? i = m.projection.name? i :=
  (Projection.name?_link _ _ _ i).trans (Projection.name?_upsert_of_isSome hnamed _ hi)

namespace Expands

/-- There is at most one outcome. -/
theorem functional (h : Expands expanded m tasks expanded' m')
    (h' : Expands expanded m tasks expanded'' m'') : expanded' = expanded'' ∧ m' = m'' := by
  induction h generalizing expanded'' m'' with
  | nil expanded m =>
    cases h'
    exact ⟨rfl, rfl⟩
  | again hmem _ ih =>
    cases h' with
    | again _ hrest => exact ih hrest
    | first hnew => exact absurd hmem hnew
  | first hnew _ _ ihbelow ihrest =>
    cases h' with
    | again hmem => exact absurd hmem hnew
    | first _ hbelow hrest =>
      obtain ⟨rfl, rfl⟩ := ihbelow hbelow
      exact ihrest hrest

/-- No node is expanded twice. -/
theorem nodup (h : Expands expanded m tasks expanded' m') (hnodup : expanded.Nodup) :
    expanded'.Nodup := by
  induction h with
  | nil => exact hnodup
  | again _ _ ih => exact ih hnodup
  | first hnew _ _ ihbelow ihrest => exact ihrest (ihbelow (List.nodup_cons.2 ⟨hnew, hnodup⟩))

/-- The table of names stays in step. -/
theorem named (h : Expands expanded m tasks expanded' m') (hnamed : m.projection.Named) :
    m'.projection.Named := by
  induction h with
  | nil => exact hnamed
  | again _ _ ih => exact ih (named_step hnamed _)
  | first _ _ _ ihbelow ihrest => exact ihrest (ihbelow (named_step hnamed _))

/-- Only projected nodes are expanded. -/
theorem isSome_get? (h : Expands expanded m tasks expanded' m') (hnamed : m.projection.Named)
    (hsome : ∀ i ∈ expanded, (m.projection.get? i).isSome) :
    ∀ i ∈ expanded', (m'.projection.get? i).isSome := by
  induction h with
  | nil => exact hsome
  | again _ _ ih => exact ih (named_step hnamed _) fun i hi => isSome_get?_step _ (hsome i hi)
  | first _ hbelow _ ihbelow ihrest =>
    have hbelowNamed := hbelow.named (named_step hnamed _)
    exact ihrest hbelowNamed (ihbelow (named_step hnamed _) (isSome_get?_expanded hnamed _ hsome))

/-- What is worked through together can be worked through one part after the other. -/
theorem append (h : Expands expanded m (tasks ++ rest) expanded'' m'') :
    ∃ expanded' m', Expands expanded m tasks expanded' m' ∧
      Expands expanded' m' rest expanded'' m'' := by
  induction tasks generalizing expanded m with
  | nil => exact ⟨expanded, m, .nil _ _, h⟩
  | cons task tasks ih =>
    cases h with
    | again hmem hrest =>
      obtain ⟨expanded', m', hfirst, hthen⟩ := ih hrest
      exact ⟨expanded', m', .again hmem hfirst, hthen⟩
    | first hnew hbelow hrest =>
      obtain ⟨expanded', m', hfirst, hthen⟩ := ih hrest
      exact ⟨expanded', m', .first hnew hbelow hfirst, hthen⟩

end Expands

/-- The names that have not come up yet are those of no node that has been expanded. -/
structure Tracks (pending : List String) (expanded : List ProjectedId) (m : Merger) : Prop where
  nodup : pending.Nodup
  isSome : ∀ i ∈ expanded, (m.projection.get? i).isSome
  mem_iff : ∀ name ∈ m.allNames, name ∈ pending ↔ ∀ i ∈ expanded, m.projection.name? i ≠ some name

theorem Tracks.mem_pending_iff (h : Tracks pending expanded m) (hm : m.Kept)
    (ht : m.Genuine task.sides) :
    (m.step task).1 ∈ pending ↔ (m.store task.sides).1 ∉ expanded := by
  have hstored : ((m.complete task.sides).compose m.settings).fullName = (m.step task).1 := rfl
  have hname : (m.step task).1 ∈ m.allNames := name_mem_allNames (genuine_complete hm.sound ht)
  rw [h.mem_iff _ hname]
  constructor
  · intro hall hmem
    -- What has been expanded is projected already, so that the pair is stored under its name.
    refine hall _ hmem ?_
    rcases Projection.upsert_cases hm.projection.named
        ((m.complete task.sides).compose m.settings) with
      ⟨label, hlabel, hname⟩ | ⟨hnone, -⟩
    · exact (congrArg (·.map (·.name)) hlabel).trans (congrArg some hname)
    · have hnone : m.projection.label? (m.store task.sides).1 = none := hnone
      have hsome := h.isSome _ hmem
      rw [← Projection.isSome_name?, Projection.name?, hnone] at hsome
      exact absurd hsome Bool.false_ne_true
  · intro hnew i hi hname
    refine hnew ?_
    rwa [show (m.store task.sides).1 = i from
      Projection.upsert_fst_of_name? hm.projection.named hname]

theorem Tracks.step (h : Tracks pending expanded m) (hnamed : m.projection.Named) (task : Task) :
    Tracks pending expanded (m.step task).2.2 where
  nodup := h.nodup
  isSome i hi := isSome_get?_step task (h.isSome i hi)
  mem_iff name hname := by
    rw [h.mem_iff name ((allNames_congr fun side => step_graph side m task) ▸ hname)]
    exact forall₂_congr fun i hi => by rw [name?_step hnamed task (h.isSome i hi)]

/-- A name that comes up for the first time is that of the node that is expanded. -/
theorem Tracks.expand (h : Tracks pending expanded m) (hnamed : m.projection.Named)
    (task : Task) : Tracks (pending.erase (m.step task).1) ((m.store task.sides).1 :: expanded)
      (m.step task).2.2 where
  nodup := h.nodup.erase _
  isSome := isSome_get?_expanded hnamed task h.isSome
  mem_iff name hname := by
    have hfirst : (m.step task).2.2.projection.name? (m.store task.sides).1 =
        some (m.step task).1 := by
      rw [Projection.name?, label?_step hnamed, if_pos rfl]
      rfl
    rw [h.nodup.mem_erase_iff, List.forall_mem_cons, hfirst,
      h.mem_iff name ((allNames_congr fun side => step_graph side m task) ▸ hname)]
    refine and_congr ?_ (forall₂_congr fun i hi => by rw [name?_step hnamed task (h.isSome i hi)])
    exact ⟨fun hne heq => hne (Option.some.inj heq).symm, fun hne heq => hne (heq ▸ rfl)⟩

/-- Working through waiting pairs comes to an end, and is what a merger does. -/
theorem Kept.expands_run (h : m.Kept) (hexpects : ∀ task ∈ tasks, m.Expects task)
    (htracks : Tracks pending expanded m) :
    ∃ expanded', Expands expanded m tasks expanded' (Merger.run pending m tasks) := by
  induction pending, m, tasks using run_induction generalizing expanded with
  | nil pending m =>
    rw [Merger.run]
    exact ⟨expanded, .nil _ _⟩
  | cons pending m task rest ih =>
    obtain ⟨hkept, hbelow, hother⟩ := Kept.keeps m task h (hexpects task List.mem_cons_self)
    have hnext : ∀ other ∈ (next pending m task rest).2, (m.step task).2.2.Expects other :=
      fun other hmem => (mem_next hmem).elim (hbelow other) fun hmem =>
        hother other (hexpects other (List.mem_cons_of_mem _ hmem))
    have hpending := htracks.mem_pending_iff h (hexpects task List.mem_cons_self).genuine
    rw [run_cons]
    by_cases hmem : (m.step task).1 ∈ pending
    · rw [next, if_pos hmem] at ih hnext ⊢
      obtain ⟨expanded', hrun⟩ := ih hkept hnext (htracks.expand h.projection.named task)
      obtain ⟨between, m', hfirst, hthen⟩ := hrun.append
      exact ⟨expanded', .first (hpending.1 hmem) hfirst hthen⟩
    · rw [next, if_neg hmem] at ih hnext ⊢
      obtain ⟨expanded', hrun⟩ := ih hkept hnext (htracks.step h.projection.named task)
      have hold := Decidable.of_not_not fun hnew => hmem (hpending.2 hnew)
      exact ⟨expanded', .again hold hrun⟩

/-! ## Calls -/

/-- What lies below a stored pair is worked through, and the node of the pair is not expanded
again. -/
def ExpandsBelow (m : Merger) (s : Sides) (expanded : List ProjectedId) (m' : Merger) : Prop :=
  Expands [(m.store s).1] (m.store s).2.2 ((m.store s).2.2.tasks (m.store s).1 (m.store s).2.1)
    expanded m'

/-- Merging a pair with all that lies below it comes to an end, with one outcome. No projected node
is expanded twice on the way. -/
structure Finishes (m : Merger) (i j : TypeId) (s : Sides) (expanded : List ProjectedId)
    (m' : Merger) : Prop where
  outcome : m.outcome (.mergeNamespaces i j) = (.ok (m.store s).1, m')
  expandsBelow : m.ExpandsBelow s expanded m'
  functional : ∀ expanded' m'', m.ExpandsBelow s expanded' m'' → expanded' = expanded ∧ m'' = m'
  nodup : expanded.Nodup
  isSome : ∀ i ∈ expanded, (m'.projection.get? i).isSome

theorem nodup_allNames (m : Merger) : m.allNames.Nodup :=
  nodup_eraseDups _

theorem Kept.expandsBelow (h : m.Kept) (hs : m.Genuine s) :
    ∃ expanded, m.ExpandsBelow s expanded (m.spread s) := by
  refine (h.store hs).expands_run (expects_tasks h s) ⟨?_, ?_, ?_⟩
  · exact (nodup_allNames m).erase _
  · exact List.forall_mem_singleton.2 (isSome_get?_store h.projection.named s)
  · intro name hname
    have hfirst : (m.store s).2.2.projection.name? (m.store s).1 = some (m.complete s).name := by
      rw [Projection.name?, label?_store h.projection.named, if_pos rfl]
      rfl
    have hmem : name ∈ m.allNames := (allNames_congr fun side => graph_store side m s) ▸ hname
    rw [List.forall_mem_singleton, hfirst, (nodup_allNames m).mem_erase_iff]
    exact ⟨fun hin heq => hin.1 (Option.some.inj heq).symm,
      fun hne => ⟨fun heq => hne (heq ▸ rfl), hmem⟩⟩

theorem Kept.finishes (h : m.Kept) {i j : TypeId} (hpair : m.pair i j = .ok s) :
    ∃ expanded m', m.Finishes i j s expanded m' := by
  have hs := genuine_of_pair h.sound hpair
  obtain ⟨expanded, hexpands⟩ := h.expandsBelow hs
  refine ⟨expanded, m.spread s, mergeNamespaces_of_pair hpair, hexpands, ?_, ?_, ?_⟩
  · exact fun expanded' m'' hother => Expands.functional hother hexpands
  · exact Expands.nodup hexpands (List.nodup_singleton _)
  · exact Expands.isSome_get? hexpands (h.store hs).projection.named
      (List.forall_mem_singleton.2 (isSome_get?_store h.projection.named s))

/-- A projection whose nodes are made of pairs of the universes is bounded by them. -/
theorem Kept.bounded (h : m.Kept) (hc : m.Composed) :
    m.projection.Bounded m.native m.managed := by
  refine Projection.bounded_of_named h.projection.named fun i n hn => ?_
  obtain ⟨s, hs, hbody⟩ := hc i n hn
  have hname : n.fullName = s.name := congrArg (·.fullName) hbody
  have hmem := name_mem_allNames hs
  rw [allNames, List.mem_eraseDups, List.map_append, List.mem_append] at hmem
  rw [hname]
  refine hmem.imp ?_ ?_
  all_goals
    intro hmem
    obtain ⟨x, hx, heq⟩ := List.mem_map.1 hmem
    exact ⟨x, Array.mem_toList_iff.1 hx, heq⟩

/-- Whatever calls are made of a merger of two resolved universes, at any time each projected node
has a name of the universes and there are no more of them than nodes of the universes. Every further
call that does not fail comes to an end without expanding a node twice. -/
theorem finishes_performAll (settings : ProjectionSettings) (origin origin' : Universe)
    (registry registry' : RegistrySettings) (parser parser' : DeclarationParser)
    (acts acts' : List Interning) (calls : List Call) :
    let native := ((Registry.empty origin registry parser).internAll acts).resolve.1
    let managed := ((Registry.empty origin' registry' parser').internAll acts').resolve.1
    let start : Merger := { settings, native, managed }
    let m := start.performAll calls
    m.projection.Bounded native managed ∧
      (∀ step ∈ start.steps calls, step.1.projection.Bounded native managed ∧
        (step.1.store step.2).2.2.projection.Bounded native managed) ∧
      ∀ i j, match m.pair i j with
        | .error e => m.outcome (.mergeNamespaces i j) = (.error e, m)
        | .ok s => ∃ expanded m', m.Finishes i j s expanded m' := by
  intro native managed start m
  have hkept (calls : List Call) := kept_resolved settings origin origin' registry registry' parser
    parser' acts acts' calls
  have hstart : start.Composed := composed_of_empty rfl
  have hbounded {m : Merger} (h : m.Kept) (hc : m.Composed)
      (hgraph : ∀ side, Side.graph side m = side.graph start) :
      m.projection.Bounded native managed := by
    have hbounded := h.bounded hc
    rwa [show m.native = native from hgraph .native,
      show m.managed = managed from hgraph .managed] at hbounded
  refine ⟨?_, fun step hmem => ?_, fun i j => ?_⟩
  · exact hbounded (hkept calls).1 (hstart.performAll (hkept []).1 calls)
      fun side => graph_performAll side start calls
  · obtain ⟨hstep, hs, hc, hgraph⟩ := (hkept []).1.of_mem_steps
      (I := fun m => m.Composed ∧ ∀ side, Side.graph side m = side.graph start)
      ⟨hstart, fun _ => rfl⟩
      (fun m s hm hs ⟨hc, hgraph⟩ => ⟨hc.store hm.sound hs, fun side =>
        (graph_store side m s).trans (hgraph side)⟩)
      (fun m task hm ht ⟨hc, hgraph⟩ => ⟨hc.step hm.sound ht.genuine, fun side =>
        (step_graph side m task).trans (hgraph side)⟩) hmem
    exact ⟨hbounded hstep hc hgraph, hbounded (hstep.store hs) (hc.store hstep.sound hs)
      fun side => (graph_store side step.1 step.2).trans (hgraph side)⟩
  · split
    · next e hpair => exact mergeNamespaces_of_error hpair
    · next s hpair => exact (hkept calls).1.finishes hpair

end Merger

end TypeAtlas
