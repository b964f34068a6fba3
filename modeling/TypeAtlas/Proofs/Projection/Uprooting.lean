import TypeAtlas.Proofs.Projection.Planting
import TypeAtlas.Proofs.Projection.Repetition
import TypeAtlas.Proofs.Registry.Grounding

/-!
# Which projected nodes lead home

The global namespaces of two universes are paired with each other and with nothing else, so that the
root of their projection is never placed below another node. Each other node is placed, first below
one that is projected before it, and is found in its seat in the end. From there the parents lead
home, unless they come to a node that is uprooted.

## Main definitions

* `Merger.Grounded` — the root alone is made of the global namespaces.
* `Merger.projectLinks` — what is placed below what when two whole universes are projected.

The main statement is `Merger.leadsHome_project_iff`. In two trees of names all parents lead home
(`Merger.faithful_of_nests`).
-/

namespace TypeAtlas

open Relation (ReflTransGen)

/-- No side of the pair is a global namespace. -/
def Sides.Inner (s : Sides) : Prop :=
  ∀ side n, Side.node? side s = some n → n.id ≠ .global

namespace Merger

variable {m : Merger} {task : Task} {tasks : List Task} {pending : List String} {s : Sides}
  {side : Side} {n : TypeNode} {name : String} {parent : ProjectedId}
  {links : List (ProjectedId × ProjectedId)}

/-- The universes know their global namespaces, and what is projected under any name but the empty
one is made of other nodes. -/
structure Grounded (m : Merger) : Prop extends Kept m where
  graph : ∀ side, (Side.graph side m).Grounded
  side : ∀ i label, m.projection.label? i = some label → label.name ≠ "" →
    ∀ side, Side.labelId? side label ≠ some .global

/-- A waiting pair below the root. -/
structure ExpectsInner (m : Merger) (task : Task) : Prop extends Expects m task where
  inner : task.sides.Inner

/-! ## One pair -/

theorem Grounded.fullName_ne_empty (h : m.Grounded) (hs : m.Genuine s) (hinner : s.Inner)
    (hn : side.node? s = some n) : n.fullName ≠ "" := fun hempty =>
  hinner side n hn (((h.graph side).nameless n.id n (hs.node side n hn)).1 hempty)

theorem Grounded.name_ne_empty (h : m.Grounded) (hs : m.Genuine s) (hinner : s.Inner) :
    s.name ≠ "" := by
  obtain ⟨side, n, hn⟩ := hs.isSome
  obtain ⟨side', n', hn', hname⟩ := Sides.exists_name_eq hn
  rw [hname]
  exact h.fullName_ne_empty hs hinner hn'

/-- A missing side is not completed with the global namespace. -/
theorem Grounded.ne_global_of_found? (h : m.Grounded) (hname : name ≠ "")
    (hn : m.found? side name = some n) : n.id ≠ .global := by
  rcases Option.or_eq_some_iff.1 hn with hn | ⟨-, hn⟩
  · obtain ⟨id, hid, hget⟩ := Option.bind_eq_some_iff.1 hn
    obtain ⟨node, hnode, hside⟩ := Option.bind_eq_some_iff.1 hid
    obtain ⟨⟨i, hi⟩, rfl⟩ := Projection.has_of_lookup? h.projection.named hnode
    rw [h.sound side id n hget]
    rintro rfl
    refine h.side i node.label hi hname side ?_
    cases side <;> exact hside
  · rw [TypeGraph.counterpart?, if_neg hname] at hn
    obtain ⟨id, hid, hget⟩ := Option.bind_eq_some_iff.1 (Option.filter_eq_some_iff.1 hn).1
    rw [h.sound side id n hget]
    exact (h.graph side).lookup name id hid hname

theorem Grounded.inner_complete (h : m.Grounded) (hs : m.Genuine s) (hinner : s.Inner) :
    (m.complete s).Inner := by
  obtain ⟨_ | x, _ | y⟩ := s
  · obtain ⟨side, n, hn⟩ := hs.isSome
    cases side <;> simp [Side.node?] at hn
  · have hy : Side.node? .managed { managed := some y } = some y := rfl
    have hname : y.fullName ≠ "" := h.fullName_ne_empty hs hinner hy
    rw [complete_managed]
    rintro (_ | _) n hn
    · exact h.ne_global_of_found? hname hn
    · exact hinner .managed n hn
  · have hx : Side.node? .native { native := some x } = some x := rfl
    have hname : x.fullName ≠ "" := h.fullName_ne_empty hs hinner hx
    rw [complete_native]
    rintro (_ | _) n hn
    · exact hinner .native n hn
    · exact h.ne_global_of_found? hname hn
  · exact hinner

theorem Grounded.inner_of_mem_tasks (h : m.Grounded) (hs : m.Genuine s)
    (htask : task ∈ m.tasks parent s) : task.sides.Inner := by
  intro side n hn
  obtain ⟨x, hx, hchild⟩ := exists_parent_of_mem_tasks htask hn
  obtain ⟨id, hid, hget⟩ := List.mem_filterMap.1 (List.mem_filter.1 hchild).1
  rw [h.sound side id n hget]
  rintro rfl
  exact (h.graph side).child x.id x (hs.node side x hx) hid

theorem Grounded.store (h : m.Grounded) (hs : m.Genuine s)
    (hinner : (m.complete s).name ≠ "" → (m.complete s).Inner) : (m.store s).2.2.Grounded where
  toKept := h.toKept.store hs
  graph side := (graph_store side m s).symm ▸ h.graph side
  side i label hi hname side := by
    rw [label?_store h.projection.named] at hi
    split at hi
    · obtain rfl := Option.some.inj hi
      rw [Sides.labelId?_label]
      intro hid
      obtain ⟨n, hn, hglobal⟩ := Option.map_eq_some_iff.1 hid
      exact hinner hname side n hn hglobal
    · exact h.side i label hi hname side

/-! ## All pairs -/

theorem Grounded.step (h : m.Grounded) (ht : m.ExpectsInner task) : (m.step task).2.2.Grounded where
  toKept := h.toKept.step ht.genuine ht.parent
  graph side := (step_graph side m task).symm ▸ h.graph side
  side i label hi := by
    have hstored := h.store ht.genuine fun _ => h.inner_complete ht.genuine ht.inner
    rw [step_projection, Projection.label?_link] at hi
    exact hstored.side i label hi

theorem ExpectsInner.step {other : Task} (h : m.ExpectsInner other) (task : Task) :
    (m.step task).2.2.ExpectsInner other :=
  ⟨h.toExpects.step task, h.inner⟩

theorem Grounded.expectsInner_below (h : m.Grounded) (ht : m.ExpectsInner task) :
    ∀ below ∈ (m.step task).2.1, (m.step task).2.2.ExpectsInner below := by
  intro below hbelow
  refine ⟨expects_below h.toKept task below hbelow, ?_⟩
  obtain ⟨parent, htasks⟩ := m.step_below task
  rw [htasks] at hbelow
  exact h.inner_of_mem_tasks (genuine_complete h.sound ht.genuine) hbelow

theorem Grounded.expectsInner_tasks (h : m.Grounded) (hs : m.Genuine s) :
    ∀ task ∈ (m.store s).2.2.tasks (m.store s).1 (m.store s).2.1,
      (m.store s).2.2.ExpectsInner task := fun task htask =>
  ⟨expects_tasks h.toKept s task htask,
    h.inner_of_mem_tasks (genuine_complete h.sound hs) htask⟩

/-- What is placed at a moment, behind the node that it is placed below. -/
def placing (moment : Merger × Task) : ProjectedId × ProjectedId :=
  (moment.2.parent, (moment.1.store moment.2.sides).1)

/-- A waiting pair below the root keeps every node in its seat. -/
theorem Grounded.planted_step (h : m.Grounded) (ht : m.ExpectsInner task)
    (hplanted : m.projection.Planted links) :
    (m.step task).2.2.projection.Planted (links ++ [placing (m, task)]) := by
  refine hplanted.link_upsert h.projection.toTree h.projection.named ht.parent ?_ rfl rfl
  exact h.name_ne_empty (genuine_complete h.sound ht.genuine)
    (h.inner_complete ht.genuine ht.inner)

theorem Grounded.planted_run (h : m.Grounded) (hexpects : ∀ task ∈ tasks, m.ExpectsInner task)
    (hplanted : m.projection.Planted links) : (run pending m tasks).projection.Planted
      (links ++ (moments pending m tasks).map placing) := by
  induction pending, m, tasks using run_induction generalizing links with
  | nil pending m => simpa [run, moments] using hplanted
  | cons pending m task rest ih =>
    have ht := hexpects task List.mem_cons_self
    rw [run_cons, moments_cons, List.map_cons, List.append_cons]
    refine ih (h.step ht) (fun other hother => ?_) (h.planted_step ht hplanted)
    rcases mem_next hother with hother | hother
    · exact h.expectsInner_below ht other hother
    · exact (hexpects other (List.mem_cons_of_mem _ hother)).step task

/-! ## Two whole universes -/

/-- What is placed below what when two whole universes are projected, in order. -/
def projectLinks (settings : ProjectionSettings) (native managed : TypeGraph) :
    List (ProjectedId × ProjectedId) :=
  let m : Merger := { settings, native, managed }
  match m.pair .global .global with
  | .error _ => []
  | .ok sides => (m.momentsBelow sides).map placing

/-- From the global namespaces on, every node is found in its seat. -/
theorem Grounded.planted_project {settings : ProjectionSettings} {native managed : TypeGraph}
    (h : Grounded { settings, native, managed }) {a b : TypeNode}
    (ha : native.get? .global = some a) (hb : managed.get? .global = some b) :
    ∃ p, project settings native managed = .ok p ∧ p.Tree ∧ p.Named ∧
      p.Planted (projectLinks settings native managed) := by
  let m : Merger := { settings, native, managed }
  let root : Sides := { native := some a, managed := some b }
  have hpair : m.pair .global .global = .ok root := pair_of_get? ha hb
  have hroot : m.Genuine root := genuine_of_pair h.sound hpair
  have hname : root.name = "" := by
    have hnative : Side.node? .native root = some a := rfl
    obtain ⟨side, n, hn, hname⟩ := Sides.exists_name_eq hnative
    rw [hname]
    cases side with
    | native =>
      obtain rfl := Option.some.inj hn
      exact ((h.graph .native).nameless .global a ha).2 rfl
    | managed =>
      obtain rfl := Option.some.inj hn
      exact ((h.graph .managed).nameless .global b hb).2 rfl
  have hstored : (m.store root).2.2.Grounded := h.store hroot fun hne => absurd hname hne
  have hlinks : projectLinks settings native managed = (m.momentsBelow root).map placing := by
    unfold projectLinks
    dsimp only
    rw [hpair]
  have hspread : project settings native managed = .ok (m.spread root).projection := by
    unfold project
    rw [mergeNamespaces_of_pair hpair]
    rfl
  have hkept := (h.toKept.spread hroot).projection
  refine ⟨_, hspread, hkept.toTree, hkept.named, ?_⟩
  rw [hlinks, ← List.nil_append (List.map _ _)]
  exact hstored.planted_run (h.expectsInner_tasks hroot) (Projection.planted_root hname rfl)

/-- Whatever the universes, the settings, the parsers and the order of references and definitions,
two resolved universes can be projected, and every node is found in its seat. The parents of a node
lead to the global namespace if and only if they come to no node that has been moved below the scope
of its name while the scope lies below the node. -/
theorem leadsHome_project_iff (settings : ProjectionSettings) (origin origin' : Universe)
    (registry registry' : RegistrySettings) (parser parser' : DeclarationParser)
    (acts acts' : List Interning) :
    let native := ((Registry.empty origin registry parser).internAll acts).resolve.1
    let managed := ((Registry.empty origin' registry' parser').internAll acts').resolve.1
    ∃ p, project settings native managed = .ok p ∧
      p.Planted (projectLinks settings native managed) ∧
      ∀ i, (p.get? i).isSome →
        (p.LeadsHome i ↔ ∀ d, ReflTransGen p.ParentOf i d → ¬ p.Uprooted d) := by
  intro native managed
  have hnative : native.Linked :=
    Registry.linked_resolve ((Registry.Interned.empty origin registry parser).internAll acts)
  have hmanaged : managed.Linked :=
    Registry.linked_resolve ((Registry.Interned.empty origin' registry' parser').internAll acts')
  have hkept := (kept_resolved settings origin origin' registry registry' parser parser' acts acts'
    []).1
  have h : Grounded { settings, native, managed } := by
    refine ⟨hkept, ?_, ?_⟩
    · rintro (_ | _)
      · exact Registry.grounded_resolve origin registry parser acts
      · exact Registry.grounded_resolve origin' registry' parser' acts'
    · intro i label hi
      simp [Projection.label?, Projection.get?] at hi
  obtain ⟨a, ha, -⟩ := hnative.global
  obtain ⟨b, hb, -⟩ := hmanaged.global
  obtain ⟨p, hp, htree, hnamed, hplanted⟩ := h.planted_project ha hb
  exact ⟨p, hp, hplanted, fun i hi => hplanted.leadsHome_iff htree hnamed hi⟩

/-- A class that is declared inside of one that it holds itself. -/
def swallowed : List Interning :=
  [.define { Compound.empty "1" .native "A" .classType with
      parentName := some "A.B", childNames := ["A.B"] },
    .define { Compound.empty "2" .native "A.B" .classType with parentName := some "Q" }]

/-- The inner class is projected first, and then moved below the outer one, which has been placed
below it. -/
theorem leadsHome_project_swallowed :
    let native := ((Registry.empty .native (.ofPreset .standard)).internAll swallowed).resolve.1
    let managed := ((Registry.empty .managed (.ofPreset .standard)).internAll []).resolve.1
    ∃ p, project {} native managed = .ok p ∧ p.name? ⟨1⟩ = some "A.B" ∧ p.name? ⟨2⟩ = some "A" ∧
      p.parentOf? ⟨1⟩ = some ⟨2⟩ ∧ p.parentOf? ⟨2⟩ = some ⟨1⟩ ∧
      ¬ p.LeadsHome ⟨1⟩ ∧ ¬ p.LeadsHome ⟨2⟩ := by
  intro native managed
  obtain ⟨p, hp, -, hhome⟩ := leadsHome_project_iff {} .native .managed (.ofPreset .standard)
    (.ofPreset .standard) .standard .standard swallowed []
  have hwithin : (projectWithin {} native managed 4).map (fun p =>
      ((p.name? ⟨1⟩, p.name? ⟨2⟩), (p.parentOf? ⟨1⟩, p.parentOf? ⟨2⟩), p.isScopeOf ⟨2⟩ ⟨1⟩)) =
      some ((some "A.B", some "A"), (some ⟨2⟩, some ⟨1⟩), true) := by decide +kernel
  obtain ⟨p', hp', hshape⟩ := Option.map_eq_some_iff.1 hwithin
  obtain rfl := Except.ok.inj (hp.symm.trans (project_of_projectWithin hp'))
  simp only [Prod.mk.injEq] at hshape
  obtain ⟨⟨hinner, houter⟩, ⟨hup, hdown⟩, hscope⟩ := hshape
  have huprooted : p.Uprooted ⟨1⟩ := ⟨⟨2⟩, hup, hscope, by decide, .single hdown⟩
  refine ⟨p, hp, hinner, houter, hup, hdown, fun h => ?_, fun h => ?_⟩
  · refine (hhome ⟨1⟩ ?_).1 h ⟨1⟩ .refl huprooted
    rw [← Projection.isSome_name?, hinner]
    rfl
  · refine (hhome ⟨2⟩ ?_).1 h ⟨1⟩ (.single hdown) huprooted
    rw [← Projection.isSome_name?, houter]
    rfl

end Merger

end TypeAtlas
