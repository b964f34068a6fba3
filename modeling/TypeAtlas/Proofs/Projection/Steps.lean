import TypeAtlas.Proofs.Projection.Placing
import TypeAtlas.Proofs.Projection.Session

/-!
# What a stored pair leaves of a projection

A pair that is stored overwrites the projected node of its name. The pair is completed first, by
what is projected under the name of the side that it has; where this leaves it with one side, it is
stored under this very name, so that it overwrites nothing that has the other side.

## Main definitions

* `Projection.Retains` — nodes keep their places, their names and some node on each side.
* `Merger.steps` — the pairs that a sequence of calls stores, each with the merger that it is stored
  in.

The main statement is `Merger.retains_performAll`.
-/

namespace TypeAtlas

namespace Projection

variable {p q r : Projection} {i : ProjectedId} {label : Label} {node : ProjectedType}

/-- Every node keeps its position and its name, and has a node on each side on which it had one. -/
def Retains (p q : Projection) : Prop :=
  ∀ i n, p.get? i = some n → ∃ n', q.get? i = some n' ∧ n'.id = n.id ∧ n'.fullName = n.fullName ∧
    (n.native.isSome → n'.native.isSome) ∧ (n.managed.isSome → n'.managed.isSome)

/-- A paired node stays paired. -/
theorem Retains.isPaired {n : ProjectedType} (h : p.Retains q) (hn : p.get? i = some n)
    (hpaired : n.isPaired = true) :
    ∃ n', q.get? i = some n' ∧ n'.fullName = n.fullName ∧ n'.isPaired = true := by
  obtain ⟨n', hn', -, hname, hnative, hmanaged⟩ := h i n hn
  rw [ProjectedType.isPaired, Bool.and_eq_true] at hpaired
  refine ⟨n', hn', hname, ?_⟩
  rw [ProjectedType.isPaired, Bool.and_eq_true]
  exact ⟨hnative hpaired.1, hmanaged hpaired.2⟩

theorem Retains.refl (p : Projection) : p.Retains p :=
  fun _ n hn => ⟨n, hn, rfl, rfl, id, id⟩

theorem Retains.trans (h : p.Retains q) (h' : q.Retains r) : p.Retains r := by
  intro i n hn
  obtain ⟨n', hn', hid, hname, hnative, hmanaged⟩ := h i n hn
  obtain ⟨n'', hn'', hid', hname', hnative', hmanaged'⟩ := h' i n' hn'
  exact ⟨n'', hn'', hid'.trans hid, hname'.trans hname, hnative' ∘ hnative, hmanaged' ∘ hmanaged⟩

/-- Where nodes know their positions, what they retain is read off their labels. -/
theorem retains_of_label? (hp : ∀ i n, p.get? i = some n → n.id = i)
    (hq : ∀ i n, q.get? i = some n → n.id = i)
    (h : ∀ i label, p.label? i = some label → ∃ label', q.label? i = some label' ∧
      label'.name = label.name ∧ (label.native.isSome → label'.native.isSome) ∧
      (label.managed.isSome → label'.managed.isSome)) : p.Retains q := by
  intro i n hn
  obtain ⟨label', hlabel', hname, hnative, hmanaged⟩ := h i n.label (by rw [label?, hn]; rfl)
  obtain ⟨n', hn', rfl⟩ := Option.map_eq_some_iff.1 hlabel'
  exact ⟨n', hn', (hq i n' hn').trans (hp i n hn).symm, hname, hnative, hmanaged⟩

theorem Retains.name? {name : String} (h : p.Retains q) (hi : p.name? i = some name) :
    q.name? i = some name := by
  obtain ⟨label, hlabel, rfl⟩ := Option.map_eq_some_iff.1 hi
  obtain ⟨n, hn, rfl⟩ := Option.map_eq_some_iff.1 hlabel
  obtain ⟨n', hn', -, hname, -⟩ := h i n hn
  rw [name?_of_get? hn', hname]
  rfl

end Projection

namespace Merger

variable {m : Merger} {task : Task} {tasks : List Task} {s : Sides} {side : Side}
  {i : ProjectedId} {label : Projection.Label}

/-! ## One pair -/

/-- Where a name finds nothing for a side, what is projected under it lacks the side. -/
theorem labelId?_of_found? (h : m.Kept) (hi : m.projection.label? i = some label)
    (hnone : m.found? side label.name = none) : side.labelId? label = none := by
  obtain ⟨node, hnode, rfl⟩ := Option.map_eq_some_iff.1 hi
  have hlookup : m.projection.lookup? node.label.name = some node :=
    Projection.lookup?_of_named h.projection.named hnode
  have hnone := (Option.or_eq_none_iff.1 hnone).1
  rw [hlookup, Option.bind_some, Option.bind_eq_none_iff] at hnone
  have hisOf := h.projection.isOf i node.label hi
  rw [Option.eq_none_iff_forall_ne_some]
  intro id hid
  cases side with
  | native => exact absurd (hnone id hid) (Option.isSome_iff_ne_none.1 (hisOf.native id hid))
  | managed => exact absurd (hnone id hid) (Option.isSome_iff_ne_none.1 (hisOf.managed id hid))

/-- Where a pair lacks a side after it is completed, so does what is projected under its name. -/
theorem labelId?_of_complete (h : m.Kept) (hs : m.Genuine s)
    (hi : m.projection.label? i = some label) (hname : label.name = (m.complete s).name)
    (hnone : side.node? (m.complete s) = none) : side.labelId? label = none := by
  refine labelId?_of_found? h hi ?_
  rw [hname]
  obtain ⟨_ | x, _ | y⟩ := s
  · obtain ⟨side, n, hn⟩ := hs.isSome
    cases side <;> simp [Side.node?] at hn
  · -- The pair is stored under the name of its managed side, whether or not it has a native one.
    rw [complete_managed] at hnone ⊢
    cases side with
    | managed => simp [Side.node?] at hnone
    | native =>
      have hnone : m.found? .native y.fullName = none := hnone
      rw [hnone, Sides.name_managed]
      exact hnone
  · rw [complete_native] at hnone ⊢
    cases side with
    | native => simp [Side.node?] at hnone
    | managed =>
      have hnone : m.found? .managed x.fullName = none := hnone
      rw [hnone, Sides.name_native]
      exact hnone
  · cases side <;> simp [complete_both, Side.node?] at hnone

/-- Storing a pair leaves every node its position, its name and its sides. -/
theorem retains_store (h : m.Kept) (hs : m.Genuine s) :
    m.projection.Retains (m.store s).2.2.projection := by
  have hside : ∀ side i label, m.projection.label? i = some label →
      label.name = (m.complete s).name → (Side.labelId? side label).isSome →
      (side.labelId? (m.complete s).label).isSome := by
    intro side i label hi hname hsome
    rw [Sides.labelId?_label, Option.isSome_map, Option.isSome_iff_ne_none]
    intro hnone
    rw [labelId?_of_complete h hs hi hname hnone] at hsome
    simp at hsome
  refine Projection.retains_of_label? h.projection.id (h.store hs).projection.id ?_
  intro i label hi
  obtain ⟨label', hi', hname⟩ := Projection.name_upsert h.projection.named hi
  refine ⟨label', hi', hname, ?_⟩
  rw [Projection.label?_upsert h.projection.named] at hi'
  split at hi'
  · obtain rfl := Option.some.inj hi'
    exact ⟨hside .native i label hi hname.symm, hside .managed i label hi hname.symm⟩
  · obtain rfl := Option.some.inj (hi.symm.trans hi')
    exact ⟨id, id⟩

/-- Placing a node changes nothing but the shape of the tree. -/
theorem retains_step (h : m.Kept) (ht : m.Expects task) :
    m.projection.Retains (m.step task).2.2.projection := by
  refine (retains_store h ht.genuine).trans ?_
  refine Projection.retains_of_label? (h.store ht.genuine).projection.id
    (h.step ht.genuine ht.parent).projection.id fun i label hi => ?_
  exact ⟨label, (Projection.label?_link _ _ _ i).trans hi, rfl, id, id⟩

/-! ## All pairs -/

/-- The waiting pairs below a pair that is stored, in the order in which they are worked through,
each with the merger that it finds. -/
def momentsBelow (m : Merger) (s : Sides) : List (Merger × Task) :=
  moments (m.allNames.erase (m.complete s).name) (m.store s).2.2
    ((m.store s).2.2.tasks (m.store s).1 (m.store s).2.1)

/-- The pairs that a call stores in order, each with the merger that it is stored in. -/
def stepsOf (m : Merger) : Call → List (Merger × Sides)
  | .merge native managed =>
    match m.pair native managed with
    | .ok s => [(m, s)]
    | .error _ => []
  | .mergeNamespaces native managed =>
    match m.pair native managed with
    | .ok s => (m, s) :: (m.momentsBelow s).map fun moment => (moment.1, moment.2.sides)
    | .error _ => []

/-- The pairs that a sequence of calls stores in order, each with the merger that it is stored
in. -/
def steps (m : Merger) : List Call → List (Merger × Sides)
  | [] => []
  | call :: calls => m.stepsOf call ++ (m.perform call).steps calls

theorem retains_run (h : m.Kept) (hexpects : ∀ task ∈ tasks, m.Expects task)
    (pending : List String) :
    m.projection.Retains (run pending m tasks).projection :=
  h.run_keeps (I := fun m' => m.projection.Retains m'.projection) hexpects pending (.refl _)
    fun _ _ hkept ht hm => hm.trans (retains_step hkept ht)

/-- What is kept where a pair is stored and where a waiting pair is worked through, holds whenever a
call stores a pair. -/
theorem Kept.of_mem_stepsOf {I : Merger → Prop} (h : m.Kept) (hm : I m)
    (hstore : ∀ m s, m.Kept → m.Genuine s → I m → I (m.store s).2.2)
    (hstep : ∀ m task, m.Kept → m.Expects task → I m → I (m.step task).2.2) {call : Call}
    {step : Merger × Sides} (hmem : step ∈ m.stepsOf call) :
    step.1.Kept ∧ step.1.Genuine step.2 ∧ I step.1 := by
  cases call with
  | merge native managed =>
    cases hpair : m.pair native managed with
    | error e => simp [stepsOf, hpair] at hmem
    | ok s =>
      rw [stepsOf, hpair, List.mem_singleton] at hmem
      rw [hmem]
      exact ⟨h, genuine_of_pair h.sound hpair, hm⟩
  | mergeNamespaces native managed =>
    cases hpair : m.pair native managed with
    | error e => simp [stepsOf, hpair] at hmem
    | ok s =>
      have hs := genuine_of_pair h.sound hpair
      rw [stepsOf, hpair, List.mem_cons, List.mem_map] at hmem
      rcases hmem with rfl | ⟨moment, hmoment, rfl⟩
      · exact ⟨h, hs, hm⟩
      · have hmoments := (Merger.run_keeps _ (m.store s).2.2 _ (I := fun m => m.Kept ∧ I m)
          (T := Expects) (fun (m, task) _ ⟨hkept, hm⟩ ht =>
            have ⟨hkept', hother⟩ := Kept.keeps m task hkept ht
            ⟨⟨hkept', hstep m task hkept ht hm⟩, hother⟩)
          ⟨h.store hs, hstore m s h hs hm⟩ (expects_tasks h s)).2 moment hmoment
        exact ⟨hmoments.1.1, hmoments.2.genuine, hmoments.1.2⟩

/-- What is kept where a pair is stored and where a waiting pair is worked through, holds whenever a
sequence of calls stores a pair. -/
theorem Kept.of_mem_steps {I : Merger → Prop} (h : m.Kept) (hm : I m)
    (hstore : ∀ m s, m.Kept → m.Genuine s → I m → I (m.store s).2.2)
    (hstep : ∀ m task, m.Kept → m.Expects task → I m → I (m.step task).2.2) {calls : List Call}
    {step : Merger × Sides} (hmem : step ∈ m.steps calls) :
    step.1.Kept ∧ step.1.Genuine step.2 ∧ I step.1 := by
  induction calls generalizing m with
  | nil => simp [steps] at hmem
  | cons call calls ih =>
    rcases List.mem_append.1 hmem with hmem | hmem
    · exact h.of_mem_stepsOf hm hstore hstep hmem
    · exact ih (h.perform call) (h.performAll_keeps [call] hm hstore hstep) hmem

theorem retains_of_mem_steps (h : m.Kept) {calls : List Call} {step : Merger × Sides}
    (hstep : step ∈ m.steps calls) :
    step.1.projection.Retains (step.1.store step.2).2.2.projection := by
  obtain ⟨hkept, hs, -⟩ := h.of_mem_steps (I := fun _ => True) trivial (fun _ _ _ _ _ => trivial)
    (fun _ _ _ _ _ => trivial) hstep
  exact retains_store hkept hs

theorem retains_calls (h : m.Kept) (calls : List Call) :
    m.projection.Retains (m.performAll calls).projection :=
  h.performAll_keeps (I := fun m' => m.projection.Retains m'.projection) calls (.refl _)
    (fun _ _ hkept hs hm => hm.trans (retains_store hkept hs))
    fun _ _ hkept ht hm => hm.trans (retains_step hkept ht)

/-- Whatever calls are made of a merger of two resolved universes, each pair that is stored leaves
all projected nodes their positions, their names and a node on each side on which they had one, and
so does all that is called after. -/
theorem retains_performAll (settings : ProjectionSettings) (origin origin' : Universe)
    (registry registry' : RegistrySettings) (parser parser' : DeclarationParser)
    (acts acts' : List Interning) (calls : List Call) :
    let native := ((Registry.empty origin registry parser).internAll acts).resolve.1
    let managed := ((Registry.empty origin' registry' parser').internAll acts').resolve.1
    let m : Merger := { settings, native, managed }
    (∀ step ∈ m.steps calls,
      step.1.projection.Retains (step.1.store step.2).2.2.projection) ∧
      ∀ later, (m.performAll calls).projection.Retains
        (m.performAll (calls ++ later)).projection := by
  intro native managed m
  have hkept (calls : List Call) := (kept_resolved settings origin origin' registry registry' parser
    parser' acts acts' calls).1
  refine ⟨fun step hstep => retains_of_mem_steps (hkept []) hstep, fun later => ?_⟩
  rw [performAll, performAll, List.foldl_append]
  exact retains_calls (hkept calls) later

end Merger

end TypeAtlas
