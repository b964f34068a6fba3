import TypeAtlas.Proofs.Projection.Stores
import TypeAtlas.Proofs.Registry.Tree

/-!
# What a projection covers

A node that the children lead to from the global namespace should be a side of exactly one projected
node. It is lost where a later pair takes its name over, and it is doubled where it is stored under
two names. What lies below it is lost where it is stored only under names that came up before with
another pair, since a name is expanded once.

## Main definitions

* `Merger.projectStores` — the pairs that are stored when two whole universes are projected.
* `Merger.IsKept`, `Merger.IsExpanded` — what becomes of a node that is stored.
* `Merger.Covers` — each reachable node of a side is a side of exactly one projected node.
* `Merger.Steady` — the exact condition for this.

The main statement is `Merger.covers_project_iff`. The condition holds where both universes are
trees of names, which is a matter of the two graphs alone (`Merger.faithful_of_nests`).
-/

namespace TypeAtlas

namespace Merger

variable {settings : ProjectionSettings} {native managed : TypeGraph} {side : Side}
  {n : TypeNode} {s : Sides} {stored : List Sides} {name : String}

/-- The pairs that are stored when two whole universes are projected, in order. -/
def projectStores (settings : ProjectionSettings) (native managed : TypeGraph) : List Sides :=
  let m : Merger := { settings, native, managed }
  match m.pair .global .global with
  | .error _ => []
  | .ok sides =>
    let (id, sides, merger) := m.store sides
    let name := (sides.compose settings).fullName
    sides :: stores (m.allNames.erase name) merger (merger.tasks id sides)

/-- There is exactly one name whose last pair has the node on the side. -/
def IsKept (stored : List Sides) (side : Side) (n : TypeNode) : Prop :=
  ∃! name, ∃ s, lastUnder? stored name = some s ∧ side.node? s = some n

/-- The first pair under some name has the node on the side. -/
def IsExpanded (stored : List Sides) (side : Side) (n : TypeNode) : Prop :=
  ∃ s, firstUnder? stored s.name = some s ∧ side.node? s = some n

/-- Each reachable node is the side of exactly one projected node. -/
def Covers (p : Projection) (side : Side) (g : TypeGraph) : Prop :=
  ∀ n, g.Reaches n → ∃! id, ∃ q, p.get? id = some q ∧ side.id? q = some n.id

/-- Each reachable node that is stored is kept, and where it is not expanded its children are stored
nevertheless. -/
structure Steady (stored : List Sides) (side : Side) (g : TypeGraph) : Prop where
  kept : ∀ n, g.Reaches n → IsStored stored side n → IsKept stored side n
  children : ∀ n, g.Reaches n → IsStored stored side n → ¬ IsExpanded stored side n →
    ∀ child ∈ g.projectableChildren n, IsStored stored side child

theorem name_of_lastUnder? (h : lastUnder? stored name = some s) : s.name = name := by
  simpa using List.find?_some h

theorem mem_of_lastUnder? (h : lastUnder? stored name = some s) : s ∈ stored := by
  simpa using List.mem_of_find?_eq_some h

theorem exists_firstUnder? (hs : s ∈ stored) : ∃ first, firstUnder? stored s.name = some first ∧
    first ∈ stored ∧ first.name = s.name := by
  have hsome : (firstUnder? stored s.name).isSome := by
    rw [firstUnder?, List.find?_isSome]
    exact ⟨s, hs, by simp⟩
  obtain ⟨first, hfirst⟩ := Option.isSome_iff_exists.1 hsome
  exact ⟨first, hfirst, List.mem_of_find?_eq_some hfirst, by simpa using List.find?_some hfirst⟩

/-- A node is expanded if it is on its side of each pair that is stored under a name. -/
theorem isExpanded_of_namesakes (hs : s ∈ stored)
    (h : ∀ s' ∈ stored, s'.name = s.name → side.node? s' = some n) :
    IsExpanded stored side n := by
  obtain ⟨first, hfirst, hmem, hsame⟩ := exists_firstUnder? hs
  exact ⟨first, hsame ▸ hfirst, h first hmem hsame⟩

/-- What two whole universes are projected to. -/
structure IsProjected (settings : ProjectionSettings) (native managed : TypeGraph)
    (p : Projection) : Prop where
  named : p.Named
  has_iff : ∀ label, p.Has label ↔
    ∃ s, lastUnder? (projectStores settings native managed) label.name = some s ∧ s.label = label
  genuine : ∀ s ∈ projectStores settings native managed,
    ({ settings, native, managed } : Merger).Genuine s
  root : ∀ side n, (Side.graph side { settings, native, managed }).get? .global = some n →
    IsStored (projectStores settings native managed) side n
  child : ∀ side s n child, firstUnder? (projectStores settings native managed) s.name = some s →
    Side.node? side s = some n →
    child ∈ (side.graph { settings, native, managed }).projectableChildren n →
    IsStored (projectStores settings native managed) side child

theorem pair_of_get? {m : Merger} {i j : TypeId} {a b : TypeNode} (ha : m.native.get? i = some a)
    (hb : m.managed.get? j = some b) :
    m.pair i j = .ok { native := some a, managed := some b } := by
  simp [pair, ha, hb]

/-- The pair of the global namespaces is stored first, and the tasks below it are worked through
after that. -/
theorem projectStores_of_global {a b : TypeNode} (ha : native.get? .global = some a)
    (hb : managed.get? .global = some b) :
    let m : Merger := { settings, native, managed }
    let root : Sides := { native := some a, managed := some b }
    projectStores settings native managed = root :: stores (m.allNames.erase root.name)
      (m.store root).2.2 ((m.store root).2.2.tasks (m.store root).1 root) := by
  intro m root
  have hpair : m.pair .global .global = .ok root := pair_of_get? ha hb
  unfold projectStores
  dsimp only
  rw [hpair]
  rfl

theorem project_of_global {a b : TypeNode} (ha : native.get? .global = some a)
    (hb : managed.get? .global = some b) :
    let m : Merger := { settings, native, managed }
    let root : Sides := { native := some a, managed := some b }
    project settings native managed = .ok (run (m.allNames.erase root.name) (m.store root).2.2
      ((m.store root).2.2.tasks (m.store root).1 root)).projection := by
  intro m root
  have hpair : m.pair .global .global = .ok root := pair_of_get? ha hb
  unfold project mergeNamespaces
  rw [hpair]
  rfl

/-- The children of the first pair under a name are stored, be it the root or a pair behind it. -/
theorem isStored_of_first_cons {merger : Merger} {pending : List String} {root : Sides}
    {id : ProjectedId} {child : TypeNode} (hready : merger.Ready (merger.tasks id root))
    (hpending : ∀ other ∈ merger.allNames, other ≠ root.name → other ∈ pending)
    (hs : firstUnder? (root :: stores pending merger (merger.tasks id root)) s.name = some s)
    (hn : side.node? s = some n) (hchild : child ∈ (side.graph merger).projectableChildren n) :
    IsStored (root :: stores pending merger (merger.tasks id root)) side child := by
  rw [firstUnder?_cons] at hs
  split at hs
  · obtain rfl := Option.some.inj hs
    obtain ⟨task, htask, hside⟩ := exists_mem_tasks id hn hchild
    exact (isStored_of_mem htask hside).cons
  · next hne =>
    refine (isStored_of_first [root.name] hready ?_ hs ?_ hn hchild).cons
    · intro other hother hout
      exact List.mem_singleton.2 (Decidable.of_not_not fun hother' =>
        hout (hpending other hother hother'))
    · exact fun hin => hne (List.mem_singleton.1 hin).symm

/-- Two universes with a global namespace are projected. -/
theorem isProjected (hnative : native.Sound) (hmanaged : managed.Sound)
    (hglobal : ∃ n, native.get? .global = some n) (hglobal' : ∃ n, managed.get? .global = some n) :
    ∃ p, project settings native managed = .ok p ∧ IsProjected settings native managed p := by
  obtain ⟨a, ha⟩ := hglobal
  obtain ⟨b, hb⟩ := hglobal'
  let m : Merger := { settings, native, managed }
  let root : Sides := { native := some a, managed := some b }
  let merger : Merger := (m.store root).2.2
  let tasks : List Task := merger.tasks (m.store root).1 root
  let pending : List String := m.allNames.erase root.name
  have hpair : m.pair .global .global = .ok root := pair_of_get? ha hb
  have hstores : projectStores settings native managed = root :: stores pending merger tasks :=
    projectStores_of_global ha hb
  have hproject : project settings native managed = .ok (run pending merger tasks).projection :=
    project_of_global ha hb
  have hgraph : ∀ side, Side.graph side merger = side.graph m := fun side => by
    cases side <;> rfl
  have hsound : m.Sound := fun side => by
    cases side with
    | native => exact hnative
    | managed => exact hmanaged
  have hroot : m.Genuine root := genuine_of_pair hsound hpair
  have hready : merger.Ready tasks :=
    ⟨fun side => hgraph side ▸ hsound side,
      fun task htask => genuine_of_mem_tasks (fun side => hgraph side ▸ hsound side) _ htask⟩
  have hstored : merger.projection = (Projection.upsert {} (root.compose settings)).2 := rfl
  have hnamed : merger.projection.Named := hstored ▸ Projection.named_empty.upsert _
  refine ⟨_, hproject, ⟨named_run hnamed, ?_, ?_, ?_, ?_⟩⟩
  · intro label
    rw [has_run hnamed, hstores, hstored, Projection.has_upsert Projection.named_empty]
    have := lastUnder?_cons_iff root (stores pending merger tasks) label False
    simp only [and_false, or_false] at this
    simp only [Projection.not_has_empty, and_false, or_false]
    exact this.symm
  · intro s hs
    rw [hstores] at hs
    rcases List.mem_cons.1 hs with rfl | hs
    · exact hroot
    · have := genuine_of_mem_stores hready hs
      exact ⟨fun side n hn => hgraph side ▸ this.node side n hn, this.isSome⟩
  · intro side n hn
    rw [hstores]
    refine ⟨root, List.mem_cons_self, ?_⟩
    cases side with
    | native => exact ha.symm.trans hn
    | managed => exact hb.symm.trans hn
  · intro side s n child hs hn hchild
    rw [hstores] at hs ⊢
    have hpending : ∀ other ∈ merger.allNames, other ≠ root.name → other ∈ pending :=
      fun _ hother hne => (List.mem_erase_of_ne hne).2 hother
    exact isStored_of_first_cons hready hpending hs hn ((hgraph side).symm ▸ hchild)

/-! ## Coverage -/

variable {p : Projection} {id : TypeId}

/-- What is expanded has its children stored, so that only what is not expanded can keep a reachable
node from being stored. -/
theorem IsProjected.isStored (h : IsProjected settings native managed p)
    (hother : ∀ n, (side.graph { settings, native, managed }).Reaches n →
      IsStored (projectStores settings native managed) side n →
      ¬ IsExpanded (projectStores settings native managed) side n →
      ∀ child ∈ (side.graph { settings, native, managed }).projectableChildren n,
        IsStored (projectStores settings native managed) side child)
    (hn : (side.graph { settings, native, managed }).Reaches n) :
    IsStored (projectStores settings native managed) side n := by
  induction hn with
  | global hn => exact h.root side _ hn
  | @child n child hn hchild ih =>
    by_cases hexpanded : IsExpanded (projectStores settings native managed) side n
    · obtain ⟨s, hs, hnode⟩ := hexpanded
      exact h.child side s n child hs hnode hchild
    · exact hother n hn ih hexpanded child hchild

/-- A node on a side of a label is that node on the side of the pair. -/
theorem node?_of_labelId? {m : Merger} (hgenuine : m.Genuine s)
    (hn : (side.graph m).get? n.id = some n) (h : side.labelId? s.label = some n.id) :
    side.node? s = some n := by
  rw [Sides.labelId?_label] at h
  obtain ⟨n', hn', hid⟩ := Option.map_eq_some_iff.1 h
  have := hgenuine.node side n' hn'
  rw [hid, hn] at this
  rw [hn', this]

/-- A node is the side of exactly one projected node if and only if it is kept. -/
theorem existsUnique_iff_isKept (h : IsProjected settings native managed p)
    (hn : (side.graph { settings, native, managed }).get? n.id = some n) :
    (∃! id, ∃ q, p.get? id = some q ∧ side.id? q = some n.id) ↔
      IsKept (projectStores settings native managed) side n := by
  have hside : ∀ q : ProjectedType, side.id? q = side.labelId? q.label := fun q => by
    cases side <;> rfl
  -- A projected node with the node on its side comes from the last pair under its name.
  have hlast : ∀ label, p.Has label → side.labelId? label = some n.id →
      ∃ s, lastUnder? (projectStores settings native managed) label.name = some s ∧
        side.node? s = some n := by
    intro label hhas hlabel
    obtain ⟨s, hs, rfl⟩ := (h.has_iff label).1 hhas
    exact ⟨s, hs, node?_of_labelId? (h.genuine s (mem_of_lastUnder? hs)) hn hlabel⟩
  have hhas : ∀ name s, lastUnder? (projectStores settings native managed) name = some s →
      side.node? s = some n → p.Has s.label ∧ s.label.name = name ∧
        side.labelId? s.label = some n.id := by
    intro name s hs hnode
    have hname : s.label.name = name := name_of_lastUnder? hs
    refine ⟨(h.has_iff s.label).2 ⟨s, hname.symm ▸ hs, rfl⟩, hname, ?_⟩
    rw [Sides.labelId?_label, hnode]
    rfl
  constructor
  · rintro ⟨id, ⟨q, hq, hqn⟩, hunique⟩
    have hlabel : p.label? id = some q.label := by rw [Projection.label?, hq]; rfl
    refine ⟨q.label.name, hlast q.label ⟨id, hlabel⟩ (hside q ▸ hqn), ?_⟩
    rintro name ⟨s, hs, hnode⟩
    obtain ⟨⟨i, hi⟩, hname, hlabelId⟩ := hhas name s hs hnode
    obtain ⟨q', hq', hlabel'⟩ := Option.map_eq_some_iff.1 hi
    obtain rfl := hunique i ⟨q', hq', by rw [hside, hlabel', hlabelId]⟩
    obtain rfl := Option.some.inj (hq.symm.trans hq')
    rw [← hname, hlabel']
  · rintro ⟨name, ⟨s, hs, hnode⟩, hunique⟩
    obtain ⟨⟨i, hi⟩, hname, hlabelId⟩ := hhas name s hs hnode
    obtain ⟨q, hq, hlabel⟩ := Option.map_eq_some_iff.1 hi
    refine ⟨i, ⟨q, hq, by rw [hside, hlabel, hlabelId]⟩, ?_⟩
    rintro j ⟨q', hq', hqn'⟩
    have hj : p.label? j = some q'.label := by rw [Projection.label?, hq']; rfl
    have hsame := hunique q'.label.name (hlast q'.label ⟨j, hj⟩ (hside q' ▸ hqn'))
    exact h.named.eq hj hi (hsame.trans hname.symm)

theorem covers_iff_steady (h : IsProjected settings native managed p)
    (hsound : (side.graph { settings, native, managed }).Sound) :
    Covers p side (side.graph { settings, native, managed }) ↔
      Steady (projectStores settings native managed) side
        (side.graph { settings, native, managed }) := by
  constructor
  · intro hcovers
    have hkept : ∀ n, (side.graph { settings, native, managed }).Reaches n →
        IsKept (projectStores settings native managed) side n := fun n hn =>
      (existsUnique_iff_isKept h (hn.get?_id hsound)).1 (hcovers n hn)
    refine ⟨fun n hn _ => hkept n hn, ?_⟩
    intro n hn _ _ child hchild
    obtain ⟨name, ⟨s, hs, hnode⟩, -⟩ := hkept child (.child hn hchild)
    exact ⟨s, mem_of_lastUnder? hs, hnode⟩
  · intro hsteady n hn
    have hstored := h.isStored hsteady.children hn
    exact (existsUnique_iff_isKept h (hn.get?_id hsound)).2 (hsteady.kept n hn hstored)

/-- Two resolved universes can be projected. On either side each reachable node is then the side of
exactly one projected node if and only if the nodes that are stored are kept, and expanded unless
their children are found without this. -/
theorem covers_project_iff (settings : ProjectionSettings) (origin origin' : Universe)
    (registry registry' : RegistrySettings) (parser parser' : DeclarationParser)
    (acts acts' : List Interning) :
    let native := ((Registry.empty origin registry parser).internAll acts).resolve.1
    let managed := ((Registry.empty origin' registry' parser').internAll acts').resolve.1
    let stored := projectStores settings native managed
    ∃ p, project settings native managed = .ok p ∧
      (Covers p .native native ↔ Steady stored .native native) ∧
      (Covers p .managed managed ↔ Steady stored .managed managed) := by
  intro native managed stored
  have hnative : native.Linked :=
    Registry.linked_resolve ((Registry.Interned.empty origin registry parser).internAll acts)
  have hmanaged : managed.Linked :=
    Registry.linked_resolve ((Registry.Interned.empty origin' registry' parser').internAll acts')
  obtain ⟨a, ha, -⟩ := hnative.global
  obtain ⟨b, hb, -⟩ := hmanaged.global
  obtain ⟨p, hp, hprojected⟩ := isProjected hnative.id hmanaged.id ⟨a, ha⟩ ⟨b, hb⟩
  exact ⟨p, hp, covers_iff_steady hprojected hnative.id, covers_iff_steady hprojected hmanaged.id⟩

/-! ## A node that is displaced -/

/-- The merger after the waiting pairs and all below them, if there are not more than `fuel` of
them. -/
def runWithin (pending : List String) (m : Merger) : Nat → List Task → Option Merger
  | _, [] => some m
  | 0, _ :: _ => none
  | fuel + 1, task :: rest =>
    match m.step task with
    | (name, below, merger) =>
      if name ∈ pending then runWithin (pending.erase name) merger fuel (below ++ rest)
      else runWithin pending merger fuel rest

theorem run_of_runWithin {pending : List String} {m merged : Merger} {fuel : Nat}
    {tasks : List Task} (h : runWithin pending m fuel tasks = some merged) :
    run pending m tasks = merged := by
  fun_induction runWithin pending m fuel tasks with
  | case1 => simpa [run] using h
  | case2 => simp at h
  | case3 pending m fuel task rest name below merger hstep hmem ih =>
    rw [run, hstep]
    exact (if_pos hmem).trans (ih h)
  | case4 pending m fuel task rest name below merger hstep hmem ih =>
    rw [run, hstep]
    exact (if_neg hmem).trans (ih h)

/-- The projection of two universes, if there are not more than `fuel` pairs below the root. -/
def projectWithin (settings : ProjectionSettings) (native managed : TypeGraph) (fuel : Nat) :
    Option Projection :=
  let m : Merger := { settings, native, managed }
  match m.pair .global .global with
  | .error _ => none
  | .ok sides =>
    let (id, sides, merger) := m.store sides
    let name := (sides.compose settings).fullName
    (runWithin (m.allNames.erase name) merger fuel (merger.tasks id sides)).map (·.projection)

theorem project_of_projectWithin {fuel : Nat}
    (h : projectWithin settings native managed fuel = some p) :
    project settings native managed = .ok p := by
  unfold projectWithin at h
  unfold project mergeNamespaces
  cases hpair : ({ settings, native, managed } : Merger).pair .global .global with
  | error e => simp [hpair] at h
  | ok sides =>
    dsimp only at h
    rw [hpair] at h
    obtain ⟨merged, hmerged, rfl⟩ := Option.map_eq_some_iff.1 h
    exact congrArg (fun m : Merger => Except.ok m.projection) (run_of_runWithin hmerged)

/-- Two classes whose names differ in letter case alone. -/
def spelledTwice : List Interning :=
  [.define (Compound.empty "1" .native "Bar" .classType),
    .define (Compound.empty "2" .native "BAR" .classType)]

/-- A class of the second of these names. -/
def spelledOnce : List Interning :=
  [.define (Compound.empty "1" .managed "BAR" .classType)]

/-- The managed class is paired with the first native one, and both are projected under its name.
The second native class is left over and projected under this name as well, so that the first one is
the side of no projected node. -/
theorem covers_project_displaced :
    let native :=
      ((Registry.empty .native (.ofPreset .standard)).internAll spelledTwice).resolve.1
    let managed :=
      ((Registry.empty .managed (.ofPreset .standard)).internAll spelledOnce).resolve.1
    ∃ p x, project {} native managed = .ok p ∧ native.Reaches x ∧ x.fullName = "Bar" ∧
      (∀ i q, p.get? i = some q → q.native ≠ some x.id) ∧ ¬ Covers p .native native ∧
      ¬ Steady (projectStores {} native managed) .native native := by
  intro native managed
  obtain ⟨p, hp, hnative, -⟩ := covers_project_iff {} .native .managed (.ofPreset .standard)
    (.ofPreset .standard) .standard .standard spelledTwice spelledOnce
  have hchildren : (native.get? .global).map (fun n => (native.projectableChildren n).head?.map
      fun child => (child.id, child.fullName)) = some (some (⟨1⟩, "Bar")) := by decide +kernel
  have hwithin : (projectWithin {} native managed 2).map (fun p =>
      p.nodes.toList.map (·.native)) = some [some ⟨0⟩, some ⟨2⟩] := by decide +kernel
  obtain ⟨n, hn, hchild⟩ := Option.map_eq_some_iff.1 hchildren
  obtain ⟨x, hx, hxid⟩ := Option.map_eq_some_iff.1 hchild
  obtain ⟨hid, hname⟩ := Prod.ext_iff.1 hxid
  obtain ⟨p', hp', hsides⟩ := Option.map_eq_some_iff.1 hwithin
  obtain rfl := Except.ok.inj (hp.symm.trans (project_of_projectWithin hp'))
  have hreaches : native.Reaches x := .child (.global hn) (List.mem_of_head? hx)
  have hmissing : ∀ i q, p.get? i = some q → q.native ≠ some x.id := by
    intro i q hq hside
    have hmem : q.native ∈ p.nodes.toList.map (·.native) :=
      List.mem_map_of_mem (Array.mem_toList_iff.2 (Array.mem_of_getElem? hq))
    rw [hsides, hside, show x.id = ⟨1⟩ from hid] at hmem
    exact absurd hmem (by decide)
  have hcovers : ¬ Covers p .native native := fun h => by
    obtain ⟨i, ⟨q, hq, hside⟩, -⟩ := h x hreaches
    exact hmissing i q hq hside
  exact ⟨p, x, hp, hreaches, hname, hmissing, hcovers, fun h => hcovers (hnative.2 h)⟩

end Merger

end TypeAtlas
