import TypeAtlas.Proofs.Projection.Coverage
import TypeAtlas.Proofs.Registry.Naming

/-!
# Which nodes a projection pairs

The sides of a projected node should be nodes of one name. Children are paired by their short names,
whatever their full names are, and a native child that is left over is paired with the managed node
that its name leads to in any letter case. These are the only two ways in which a node comes to be
paired with one of another name: all other pairs are made by looking a full name up.

## Main definitions

* `Merger.pairsBelow` — the pairs of children of a pair.
* `Merger.MeetAsChildren`, `Merger.MeetByName` — the ways in which a pair is made below another one.
* `Merger.Fits` — a pair of nodes that are found by their names.
* `Merger.PairsNames`, `Merger.PairsNamesakes` — a projection that pairs nodes of one name.

The main statement is `Merger.pairs_project_iff`. In two trees of names all pairs are made as they
should be, whatever is stored on the way (`Merger.faithful_of_nests`).
-/

namespace TypeAtlas

/-! ## Nodes that are found by their names -/

namespace TypeGraph

variable {g : TypeGraph} {n m child : TypeNode} {name : String}

/-- The node is part of a projection, and its name leads to it. -/
structure Offers (g : TypeGraph) (n : TypeNode) : Prop where
  finds : g.Finds n
  isProjectable : n.isProjectable = true

theorem Offers.get?_id (hg : g.Navigable) (h : g.Offers n) : g.get? n.id = some n := by
  obtain ⟨id, -, hid⟩ := Option.bind_eq_some_iff.1 h.finds
  rw [hg.id id n hid, hid]

/-- No two nodes that are found by their names have one name. -/
theorem Offers.eq (hn : g.Offers n) (hm : g.Offers m) (h : n.fullName = m.fullName) : n = m := by
  have hfinds := hn.finds
  rw [Finds, h, hm.finds] at hfinds
  exact (Option.some.inj hfinds).symm

theorem Offers.isFacade (h : g.Offers n) : n.isFacade = false := by
  have := h.isProjectable
  simp only [TypeNode.isProjectable, Bool.and_eq_true] at this
  simpa using this.1

theorem Offers.counterpart? (h : g.Offers n) (hname : n.fullName ≠ "") :
    g.counterpart? n.fullName = some n := by
  have hfinds : g.lookup? n.fullName = some n := h.finds
  rw [TypeGraph.counterpart?, if_neg hname, hfinds, Option.filter_some, if_pos h.isProjectable]

theorem offers_of_counterpart? (hg : g.Navigable) (h : g.counterpart? name = some n) :
    g.Offers n ∧ g.lookup? name = some n := by
  unfold TypeGraph.counterpart? at h
  split at h
  · simp at h
  · obtain ⟨hlookup, hprojectable⟩ := Option.filter_eq_some_iff.1 h
    exact ⟨⟨(hg.lookup name n hlookup).1, hprojectable⟩, hlookup⟩

theorem offers_of_mem_projectableChildren (hg : g.Navigable) (hn : g.get? n.id = some n)
    (h : child ∈ g.projectableChildren n) : g.Offers child ∧ child.fullName ≠ "" := by
  obtain ⟨hmem, hprojectable⟩ := List.mem_filter.1 h
  obtain ⟨x, hx, hchild⟩ := List.mem_filterMap.1 hmem
  obtain ⟨hfinds, hname⟩ := hg.child n.id n x child hn hx hchild
  exact ⟨⟨hfinds, hprojectable⟩, hname⟩

theorem offers_global (hg : g.Navigable) (hn : g.get? .global = some n) :
    g.Offers n ∧ n.fullName = "" := by
  obtain ⟨n', hn', hfinds, hname, hkind⟩ := hg.global
  obtain rfl := Option.some.inj (hn.symm.trans hn')
  exact ⟨⟨hfinds, by simp [TypeNode.isProjectable, TypeNode.isFacade, hkind]⟩, hname⟩

theorem Reaches.offers (hg : g.Navigable) (h : g.Reaches n) : g.Offers n := by
  induction h with
  | global hn => exact (offers_global hg hn).1
  | child _ hchild ih => exact (offers_of_mem_projectableChildren hg (ih.get?_id hg) hchild).1

end TypeGraph

/-! ## The name of a pair -/

namespace Sides

variable {s : Sides} {n : TypeNode}

theorem name_of_managed (h : s.managed = some n) (hn : n.isFacade = false) :
    s.name = n.fullName := by
  simp [name, surface?, h, Option.filter_some, hn]

theorem name_of_native (h : s.native = some n) (hmanaged : s.managed = none) :
    s.name = n.fullName := by
  simp [name, surface?, h, hmanaged]

end Sides

namespace Merger

variable {settings : ProjectionSettings} {native managed : TypeGraph} {stored : List Sides}
  {s t : Sides} {x y : TypeNode} {p : Projection}

/-! ## How pairs are made -/

/-- The pairs of children of a pair. -/
def pairsBelow (native managed : TypeGraph) (s : Sides) : List Sides :=
  Sides.pairUp ((s.native.map native.projectableChildren).getD [])
    ((s.managed.map managed.projectableChildren).getD [])

/-- Two children of a stored pair are paired by their short names. -/
def MeetAsChildren (native managed : TypeGraph) (stored : List Sides) (x y : TypeNode) : Prop :=
  ∃ s ∈ stored, { native := some x, managed := some y } ∈ pairsBelow native managed s

/-- A native child of a stored pair is left over, and its name leads to a managed node, maybe one of
another letter case. -/
def MeetByName (native managed : TypeGraph) (stored : List Sides) (x y : TypeNode) : Prop :=
  ∃ s ∈ stored, { native := some x } ∈ pairsBelow native managed s ∧
    managed.counterpart? x.fullName = some y

/-- The ways in which two nodes come to be paired. -/
def Meet (native managed : TypeGraph) (stored : List Sides) (x y : TypeNode) : Prop :=
  MeetAsChildren native managed stored x y ∨ MeetByName native managed stored x y ∨
    native.lookup? y.fullName = some x

/-- A pair that is stored: its sides are found by their names, a managed node is on its side of each
pair of its name, and no native node of this name is left out. -/
structure Fits (native managed : TypeGraph) (stored : List Sides) (s : Sides) : Prop where
  offersNative : ∀ x, s.native = some x → native.Offers x
  offersManaged : ∀ y, s.managed = some y → managed.Offers y
  isSome : s.native.isSome ∨ s.managed.isSome
  namesake : ∀ y, managed.Offers y → s.name = y.fullName → s.managed = some y
  full : ∀ x y, s.managed = some y → native.Offers x → x.fullName = y.fullName → s.native.isSome
  meet : ∀ x y, s.native = some x → s.managed = some y → Meet native managed stored x y

/-- A pair that waits to be stored. -/
structure Waits (native managed : TypeGraph) (stored : List Sides) (t : Sides) : Prop where
  offersNative : ∀ x, t.native = some x → native.Offers x ∧ x.fullName ≠ ""
  offersManaged : ∀ y, t.managed = some y → managed.Offers y ∧ y.fullName ≠ ""
  isSome : t.native.isSome ∨ t.managed.isSome
  below : ∃ s ∈ stored, t ∈ pairsBelow native managed s

/-- All that is projected is found under its name and comes from pairs that fit. -/
structure Holds (native managed : TypeGraph) (stored : List Sides) (p : Projection) : Prop where
  named : p.Named
  fits : ∀ label, p.Has label → ∃ s, Fits native managed stored s ∧ s.label = label

/-- A pair whose managed side is `y` has no namesake of `y` but `y`. -/
theorem namesake_of_managed (hy : managed.Offers y) (h : s.managed = some y) :
    ∀ y', managed.Offers y' → s.name = y'.fullName → s.managed = some y' := by
  intro y' hy' hname
  rw [Sides.name_of_managed h hy.isFacade] at hname
  rw [h, hy.eq hy' hname]

theorem Fits.waits (hnative : native.Navigable) (hmanaged : managed.Navigable)
    (h : Fits native managed stored s) (hs : s ∈ stored)
    (ht : t ∈ pairsBelow native managed s) : Waits native managed stored t := by
  obtain ⟨hn, hm, hsome⟩ := Sides.of_mem_pairUp ht
  refine ⟨fun x hx => ?_, fun y hy => ?_, hsome, s, hs, ht⟩
  · have hmem := hn x hx
    cases hparent : s.native with
    | none => simp [hparent] at hmem
    | some parent =>
      have hget := (h.offersNative parent hparent).get?_id hnative
      exact TypeGraph.offers_of_mem_projectableChildren hnative hget (by simpa [hparent] using hmem)
  · have hmem := hm y hy
    cases hparent : s.managed with
    | none => simp [hparent] at hmem
    | some parent =>
      have hget := (h.offersManaged parent hparent).get?_id hmanaged
      exact TypeGraph.offers_of_mem_projectableChildren hmanaged hget
        (by simpa [hparent] using hmem)

/-- What is projected under a name comes from a pair of this name. -/
theorem Holds.lookup? {name : String} {q : ProjectedType} (h : Holds native managed stored p)
    (hq : p.lookup? name = some q) : ∃ s, Fits native managed stored s ∧ s.name = name ∧
      q.native = s.native.map (·.id) ∧ q.managed = s.managed.map (·.id) := by
  obtain ⟨hhas, rfl⟩ := Projection.has_of_lookup? h.named hq
  obtain ⟨s, hs, hlabel⟩ := h.fits q.label hhas
  exact ⟨s, hs, congrArg Projection.Label.name hlabel,
    (congrArg Projection.Label.native hlabel).symm, (congrArg Projection.Label.managed hlabel).symm⟩

/-- A side that is read from what is projected is the side of the pair that it comes from. -/
theorem eq_of_map_id {g : TypeGraph} {side : Option TypeNode} (hg : g.Navigable)
    (hside : ∀ n, side = some n → g.Offers n) (h : (side.map (·.id)).bind g.get? = some x) :
    side = some x := by
  cases hn : side with
  | none => simp [hn] at h
  | some n => simpa [hn, (hside n hn).get?_id hg] using h

/-- A native child without a partner is completed by what is projected under its name, or by the
managed node that its name leads to. -/
theorem fits_complete_native (hmanaged : managed.Navigable)
    (hp : Holds native managed stored p) (ht : Waits native managed stored { native := some x }) :
    Fits native managed stored
      (complete { settings, native, managed, projection := p } { native := some x }) := by
  obtain ⟨hx, hne⟩ := ht.offersNative x rfl
  set found := ((p.lookup? x.fullName).bind (·.managed)).bind managed.get? with hfound
  have hcomplete : complete { settings, native, managed, projection := p } { native := some x } =
      { native := some x, managed := found.or (managed.counterpart? x.fullName) } := by
    simp [complete, existing?, hfound]
  rw [hcomplete]
  cases hside : found.or (managed.counterpart? x.fullName) with
  | none =>
    have hnone := (Option.or_eq_none_iff.1 hside).2
    refine ⟨by simpa using hx, by simp, by simp, ?_, by simp, by simp⟩
    intro y hy hname
    rw [Sides.name_of_native rfl rfl] at hname
    rw [hname, hy.counterpart? (hname ▸ hne)] at hnone
    simp at hnone
  | some y =>
    have hy : managed.Offers y ∧ Meet native managed stored x y := by
      rcases Option.or_eq_some_iff.1 hside with hside | ⟨-, hside⟩
      · cases hq : p.lookup? x.fullName with
        | none => simp [hfound, hq] at hside
        | some q =>
          obtain ⟨s, hs, hname, -, hid⟩ := hp.lookup? hq
          have hsy : s.managed = some y :=
            eq_of_map_id hmanaged hs.offersManaged (by simpa [hfound, hq, hid] using hside)
          have hy := hs.offersManaged y hsy
          rw [Sides.name_of_managed hsy hy.isFacade] at hname
          exact ⟨hy, .inr (.inr (hname ▸ hx.finds))⟩
      · obtain ⟨s, hs, hbelow⟩ := ht.below
        exact ⟨(TypeGraph.offers_of_counterpart? hmanaged hside).1,
          .inr (.inl ⟨s, hs, hbelow, hside⟩)⟩
    exact ⟨by simpa using hx, by simpa using hy.1, by simp, namesake_of_managed hy.1 rfl,
      by simp, by simpa using hy.2⟩

/-- A managed child without a partner is completed in the same way. -/
theorem fits_complete_managed (hnative : native.Navigable)
    (hp : Holds native managed stored p) (ht : Waits native managed stored { managed := some y }) :
    Fits native managed stored
      (complete { settings, native, managed, projection := p } { managed := some y }) := by
  obtain ⟨hy, hne⟩ := ht.offersManaged y rfl
  set found := ((p.lookup? y.fullName).bind (·.native)).bind native.get? with hfound
  have hcomplete : complete { settings, native, managed, projection := p } { managed := some y } =
      { native := found.or (native.counterpart? y.fullName), managed := some y } := by
    simp [complete, existing?, hfound]
  rw [hcomplete]
  have hmeet : ∀ x, found.or (native.counterpart? y.fullName) = some x →
      native.Offers x ∧ Meet native managed stored x y := by
    intro x hside
    rcases Option.or_eq_some_iff.1 hside with hside | ⟨-, hside⟩
    · cases hq : p.lookup? y.fullName with
      | none => simp [hfound, hq] at hside
      | some q =>
        obtain ⟨s, hs, hname, hid, -⟩ := hp.lookup? hq
        have hsx : s.native = some x :=
          eq_of_map_id hnative hs.offersNative (by simpa [hfound, hq, hid] using hside)
        exact ⟨hs.offersNative x hsx, hs.meet x y hsx (hs.namesake y hy hname)⟩
    · obtain ⟨hx, hlookup⟩ := TypeGraph.offers_of_counterpart? hnative hside
      exact ⟨hx, .inr (.inr hlookup)⟩
  refine ⟨fun x hx => (hmeet x hx).1, by simpa using hy, by simp, namesake_of_managed hy rfl, ?_,
    ?_⟩
  · intro x y' hy' hx hname
    obtain rfl : y = y' := by simpa using hy'
    have hcounterpart := hx.counterpart? (hname ▸ hne)
    rw [hname] at hcounterpart
    simp [hcounterpart]
  · intro x y' hx hy'
    obtain rfl : y = y' := by simpa using hy'
    exact (hmeet x hx).2

theorem fits_complete (hnative : native.Navigable) (hmanaged : managed.Navigable)
    (hp : Holds native managed stored p) (ht : Waits native managed stored t) :
    Fits native managed stored (complete { settings, native, managed, projection := p } t) := by
  obtain ⟨_ | x, _ | y⟩ := t
  · exact absurd ht.isSome (by simp)
  · exact fits_complete_managed hnative hp ht
  · exact fits_complete_native hmanaged hp ht
  · have hy := (ht.offersManaged y rfl).1
    refine ⟨fun x' hx => (ht.offersNative x' hx).1, fun y' hy => (ht.offersManaged y' hy).1,
      by simp [complete], namesake_of_managed hy rfl, by simp [complete], ?_⟩
    intro x' y' hx hy'
    obtain rfl : x = x' := by simpa [complete] using hx
    obtain rfl : y = y' := by simpa [complete] using hy'
    exact .inl ht.below

/-! ## All pairs -/

/-- A merger of two universes. -/
def IsOf (m : Merger) (native managed : TypeGraph) : Prop :=
  m.native = native ∧ m.managed = managed

theorem IsOf.step {m : Merger} (h : m.IsOf native managed) (task : Task) :
    (m.step task).2.2.IsOf native managed :=
  h

/-- One task keeps what is projected from pairs that fit, and what waits below it fits as well. -/
theorem fits_step (hnative : native.Navigable) (hmanaged : managed.Navigable) {m : Merger}
    {task : Task} (hm : m.IsOf native managed) (hp : Holds native managed stored m.projection)
    (ht : Waits native managed stored task.sides) (hs : m.complete task.sides ∈ stored) :
    Fits native managed stored (m.complete task.sides) ∧
      Holds native managed stored (m.step task).2.2.projection ∧
      ∀ below ∈ (m.step task).2.1, Waits native managed stored below.sides := by
  have hfits : Fits native managed stored (m.complete task.sides) := by
    obtain ⟨settings, _, _, p⟩ := m
    obtain ⟨rfl, rfl⟩ := hm
    exact fits_complete hnative hmanaged hp ht
  refine ⟨hfits, ⟨named_step hp.named task, fun label hlabel => ?_⟩, fun below hbelow => ?_⟩
  · rcases (has_step hp.named task label).1 hlabel with rfl | ⟨-, hold⟩
    · exact ⟨_, hfits, rfl⟩
    · exact hp.fits label hold
  · obtain ⟨sides, hsides, rfl⟩ := List.mem_map.1 hbelow
    obtain ⟨rfl, rfl⟩ := hm
    exact hfits.waits hnative hmanaged hs hsides

theorem fits_of_mem_stores (hnative : native.Navigable) (hmanaged : managed.Navigable)
    {m : Merger} {pending : List String} {tasks : List Task} (hm : m.IsOf native managed)
    (hp : Holds native managed stored m.projection)
    (ht : ∀ task ∈ tasks, Waits native managed stored task.sides)
    (hstored : ∀ s ∈ stores pending m tasks, s ∈ stored) :
    ∀ s ∈ stores pending m tasks, Fits native managed stored s := by
  rw [stores_eq_map] at hstored ⊢
  have hmem : ∀ moment ∈ moments pending m tasks, moment.1.complete moment.2.sides ∈ stored :=
    fun moment hmoment => hstored _ (List.mem_map_of_mem hmoment)
  have hmoments := (run_keeps pending m tasks
    (I := fun m => m.IsOf native managed ∧ Holds native managed stored m.projection)
    (T := fun _ task => Waits native managed stored task.sides)
    (fun moment hmoment ⟨hm, hp⟩ ht => by
      obtain ⟨-, hprojection, hbelow⟩ :=
        fits_step hnative hmanaged hm hp ht (hmem moment hmoment)
      exact ⟨⟨hm.step _, hprojection⟩, hbelow, fun _ hother => hother⟩) ⟨hm, hp⟩ ht).2
  intro s hs
  obtain ⟨moment, hmoment, rfl⟩ := List.mem_map.1 hs
  obtain ⟨⟨hm, hp⟩, ht⟩ := hmoments moment hmoment
  exact (fits_step hnative hmanaged hm hp ht (hmem moment hmoment)).1

/-- All pairs that are stored when two whole universes are projected fit. -/
theorem fits_of_mem_projectStores (hnative : native.Navigable) (hmanaged : managed.Navigable)
    (hs : s ∈ projectStores settings native managed) :
    Fits native managed (projectStores settings native managed) s := by
  obtain ⟨a, ha, -⟩ := hnative.global
  obtain ⟨b, hb, -⟩ := hmanaged.global
  obtain ⟨hao, haname⟩ := TypeGraph.offers_global hnative ha
  obtain ⟨hbo, hbname⟩ := TypeGraph.offers_global hmanaged hb
  let m : Merger := { settings, native, managed }
  let root : Sides := { native := some a, managed := some b }
  let merger : Merger := (m.store root).2.2
  let tasks : List Task := merger.tasks (m.store root).1 root
  have hstores : projectStores settings native managed =
      root :: stores (m.allNames.erase root.name) merger tasks := projectStores_of_global ha hb
  generalize hstored : projectStores settings native managed = stored at hs hstores ⊢
  have hroot : Fits native managed stored root := by
    refine ⟨by simpa [root] using hao, by simpa [root] using hbo, .inl rfl,
      namesake_of_managed hbo rfl, fun _ _ _ _ _ => rfl, ?_⟩
    intro x y hx hy
    obtain rfl : a = x := Option.some.inj hx
    obtain rfl : b = y := Option.some.inj hy
    have hfinds : native.lookup? a.fullName = some a := hao.finds
    exact .inr (.inr (by rw [hbname, ← haname, hfinds]))
  rw [hstores] at hs
  rcases List.mem_cons.1 hs with rfl | hs
  · exact hroot
  · have hmem : root ∈ stored := hstores ▸ List.mem_cons_self
    refine fits_of_mem_stores hnative hmanaged (m := merger) ⟨rfl, rfl⟩
      ⟨Projection.named_empty.upsert _, ?_⟩ ?_ ?_ s hs
    · intro label hlabel
      rcases (Projection.has_upsert Projection.named_empty).1 hlabel with rfl | ⟨-, hnone⟩
      · exact ⟨root, hroot, rfl⟩
      · exact absurd hnone Projection.not_has_empty
    · intro task htask
      obtain ⟨sides, hsides, rfl⟩ := List.mem_map.1 htask
      exact hroot.waits hnative hmanaged hmem hsides
    · exact fun s hs => hstores ▸ List.mem_cons_of_mem _ hs

/-! ## Which nodes are paired -/

/-- Every projected node with both sides pairs nodes of one name, up to letter case. -/
def PairsNames (p : Projection) (native managed : TypeGraph) : Prop :=
  ∀ i q a b, p.get? i = some q → q.native = some a → q.managed = some b →
    ∃ x y, native.get? a = some x ∧ managed.get? b = some y ∧
      Text.lowercase x.fullName = Text.lowercase y.fullName

/-- Reachable nodes of exactly one name are the sides of the projected node of this name. -/
def PairsNamesakes (p : Projection) (native managed : TypeGraph) : Prop :=
  ∀ x y, native.Reaches x → managed.Reaches y → x.fullName = y.fullName →
    ∃ q, p.lookup? x.fullName = some q ∧ q.native = some x.id ∧ q.managed = some y.id

/-- The pair is the last one that is stored under the name of its managed side. -/
def IsLastPair (stored : List Sides) (x y : TypeNode) : Prop :=
  lastUnder? stored y.fullName = some { native := some x, managed := some y }

theorem lowercase_of_meetByName (hmanaged : managed.Navigable)
    (h : MeetByName native managed stored x y) :
    Text.lowercase x.fullName = Text.lowercase y.fullName := by
  obtain ⟨s, -, -, hcounterpart⟩ := h
  have hlookup := (TypeGraph.offers_of_counterpart? hmanaged hcounterpart).2
  exact (hmanaged.lookup x.fullName y hlookup).2.symm

/-- Where some pair is stored under a name, there is a last one. -/
theorem exists_lastUnder? (hs : s ∈ stored) : ∃ last, lastUnder? stored s.name = some last ∧
    last ∈ stored ∧ last.name = s.name := by
  have hsome : (lastUnder? stored s.name).isSome := by
    rw [lastUnder?, List.find?_isSome]
    exact ⟨s, by simpa using hs, by simp⟩
  obtain ⟨last, hlast⟩ := Option.isSome_iff_exists.1 hsome
  exact ⟨last, hlast, mem_of_lastUnder? hlast, name_of_lastUnder? hlast⟩

/-- Two universes whose nodes are found by their names are projected. -/
theorem isProjected_of_navigable (hnative : native.Navigable) (hmanaged : managed.Navigable) :
    ∃ p, project settings native managed = .ok p ∧ IsProjected settings native managed p := by
  obtain ⟨a, ha, -⟩ := hnative.global
  obtain ⟨b, hb, -⟩ := hmanaged.global
  exact isProjected hnative.id hmanaged.id ⟨a, ha⟩ ⟨b, hb⟩

section Projected

variable (hnative : native.Navigable) (hmanaged : managed.Navigable)
  (hp : IsProjected settings native managed p)

include hnative hmanaged hp

/-- Every reachable managed node is stored, since it is on its side of the pair of its name whose
children are stored. -/
theorem isStored_of_reaches (hy : managed.Reaches y) :
    IsStored (projectStores settings native managed) .managed y := by
  refine hp.isStored (fun n hn hstored hexpanded => absurd ?_ hexpanded) hy
  obtain ⟨s, hs, hside⟩ := hstored
  have hoffers := hn.offers hmanaged
  have hname : s.name = n.fullName := Sides.name_of_managed hside hoffers.isFacade
  refine isExpanded_of_namesakes hs fun s' hs' hsame => ?_
  exact (fits_of_mem_projectStores hnative hmanaged hs').namesake n hoffers (hsame.trans hname)

/-- The last pair under the name of a reachable managed node has this node, and is what is projected
under the name. -/
theorem exists_last_of_reaches (hy : managed.Reaches y) : ∃ last q,
    lastUnder? (projectStores settings native managed) y.fullName = some last ∧
      last.managed = some y ∧ last ∈ projectStores settings native managed ∧
      p.lookup? y.fullName = some q ∧ q.label = last.label := by
  obtain ⟨s, hs, hside⟩ := isStored_of_reaches hnative hmanaged hp hy
  have hoffers := hy.offers hmanaged
  have hname : s.name = y.fullName := Sides.name_of_managed hside hoffers.isFacade
  obtain ⟨last, hlast, hmem, hsame⟩ := exists_lastUnder? hs
  rw [hname] at hlast hsame
  have hfits := fits_of_mem_projectStores hnative hmanaged hmem
  obtain ⟨i, hi⟩ := (hp.has_iff last.label).2 ⟨last, by rwa [← hsame] at hlast, rfl⟩
  obtain ⟨q, hq, hlabel⟩ := Option.map_eq_some_iff.1 hi
  have hqname : q.fullName = y.fullName := (congrArg Projection.Label.name hlabel).trans hsame
  exact ⟨last, q, hlast, hfits.namesake y hoffers hsame, hmem,
    hqname ▸ Projection.lookup?_of_named hp.named hq, hlabel⟩

theorem pairsNames_iff : PairsNames p native managed ↔
    ∀ x y, MeetAsChildren native managed (projectStores settings native managed) x y →
      IsLastPair (projectStores settings native managed) x y →
      Text.lowercase x.fullName = Text.lowercase y.fullName := by
  constructor
  · intro h x y _ hlast
    have hfits := fits_of_mem_projectStores hnative hmanaged (mem_of_lastUnder? hlast)
    have hx := (hfits.offersNative x rfl).get?_id hnative
    have hy := (hfits.offersManaged y rfl).get?_id hmanaged
    have hname : Sides.name { native := some x, managed := some y } = y.fullName :=
      name_of_lastUnder? hlast
    obtain ⟨i, hi⟩ := (hp.has_iff _).2 ⟨_, by rwa [Sides.label, hname], rfl⟩
    obtain ⟨q, hq, hlabel⟩ := Option.map_eq_some_iff.1 hi
    obtain ⟨x', y', hx', hy', hsame⟩ := h i q x.id y.id hq
      (congrArg Projection.Label.native hlabel) (congrArg Projection.Label.managed hlabel)
    obtain rfl := Option.some.inj (hx.symm.trans hx')
    obtain rfl := Option.some.inj (hy.symm.trans hy')
    exact hsame
  · intro h i q a b hq ha hb
    have hlabel : p.label? i = some q.label := by rw [Projection.label?, hq, Option.map_some]
    obtain ⟨last, hlast, hsame⟩ := (hp.has_iff q.label).1 ⟨i, hlabel⟩
    have hfits := fits_of_mem_projectStores hnative hmanaged (mem_of_lastUnder? hlast)
    obtain ⟨x, hx, rfl⟩ := Option.map_eq_some_iff.1
      ((congrArg Projection.Label.native hsame).trans ha)
    obtain ⟨y, hy, rfl⟩ := Option.map_eq_some_iff.1
      ((congrArg Projection.Label.managed hsame).trans hb)
    have hyo := hfits.offersManaged y hy
    refine ⟨x, y, (hfits.offersNative x hx).get?_id hnative, hyo.get?_id hmanaged, ?_⟩
    rcases hfits.meet x y hx hy with hmeet | hmeet | hlookup
    · have hname : last.name = y.fullName := Sides.name_of_managed hy hyo.isFacade
      have hpair : last = { native := some x, managed := some y } := by
        cases last
        simp_all
      refine h x y hmeet ?_
      rw [IsLastPair, ← hname, ← hpair, name_of_lastUnder? hlast]
      exact hlast
    · exact lowercase_of_meetByName hmanaged hmeet
    · exact (hnative.lookup y.fullName x hlookup).2

theorem pairsNamesakes_iff : PairsNamesakes p native managed ↔
    ∀ n x y, native.Reaches n → managed.Reaches y → n.fullName = y.fullName →
      MeetAsChildren native managed (projectStores settings native managed) x y ∨
        MeetByName native managed (projectStores settings native managed) x y →
      IsLastPair (projectStores settings native managed) x y → x = n := by
  constructor
  · intro h n x y hn hy hname _ hlast
    obtain ⟨last, q, hlast', -, hmem, hq, hlabel⟩ := exists_last_of_reaches hnative hmanaged hp hy
    obtain rfl := Option.some.inj (hlast.symm.trans hlast')
    obtain ⟨q', hq', hid, -⟩ := h n y hn hy hname
    rw [hname] at hq'
    obtain rfl := Option.some.inj (hq.symm.trans hq')
    have hfits := fits_of_mem_projectStores hnative hmanaged hmem
    have hx := (hfits.offersNative x rfl).get?_id hnative
    have hsame : some x.id = some n.id := (congrArg Projection.Label.native hlabel).symm.trans hid
    rw [Option.some.inj hsame, (hn.offers hnative).get?_id hnative] at hx
    exact (Option.some.inj hx).symm
  · intro h n y hn hy hname
    obtain ⟨last, q, hlast, hside, hmem, hq, hlabel⟩ :=
      exists_last_of_reaches hnative hmanaged hp hy
    have hfits := fits_of_mem_projectStores hnative hmanaged hmem
    have hoffers := hn.offers hnative
    obtain ⟨x, hx⟩ := Option.isSome_iff_exists.1 (hfits.full n y hside hoffers hname)
    have hpair : last = { native := some x, managed := some y } := by
      cases last
      simp_all
    have hkept : IsLastPair (projectStores settings native managed) x y := by
      rw [IsLastPair, hlast, hpair]
    obtain rfl : x = n := by
      rcases hfits.meet x y hx hside with hmeet | hmeet | hlookup
      · exact h n x y hn hy hname (.inl hmeet) hkept
      · exact h n x y hn hy hname (.inr hmeet) hkept
      · have hfinds : native.lookup? n.fullName = some n := hoffers.finds
        rw [hname, hlookup] at hfinds
        exact Option.some.inj hfinds
    refine ⟨q, hname ▸ hq, ?_, ?_⟩
    · exact (congrArg Projection.Label.native hlabel).trans
        (by rw [Sides.label, hx, Option.map_some])
    · exact (congrArg Projection.Label.managed hlabel).trans
        (by rw [Sides.label, hside, Option.map_some])

end Projected

/-- Two resolved universes whose definitions have no blanks around their names can be projected, and
each reachable managed node is then on its side of the projected node of its name. Each node with
both sides pairs nodes of one name, up to letter case, if and only if no pair of children of two
names is kept. Reachable nodes of exactly one name are paired if and only if no other native node is
kept beside the managed one, whether it was paired as a child or by its name. -/
theorem pairs_project_iff (settings : ProjectionSettings) (origin origin' : Universe)
    (registry registry' : RegistrySettings) (parser parser' : DeclarationParser)
    (acts acts' : List Interning)
    (htrimmed : ∀ c, .define c ∈ acts → Text.trimmed c.fullName = c.fullName)
    (htrimmed' : ∀ c, .define c ∈ acts' → Text.trimmed c.fullName = c.fullName) :
    let native := ((Registry.empty origin registry parser).internAll acts).resolve.1
    let managed := ((Registry.empty origin' registry' parser').internAll acts').resolve.1
    let stored := projectStores settings native managed
    ∃ p, project settings native managed = .ok p ∧
      (∀ y, managed.Reaches y → ∃ q, p.lookup? y.fullName = some q ∧ q.managed = some y.id) ∧
      (PairsNames p native managed ↔ ∀ x y, MeetAsChildren native managed stored x y →
        IsLastPair stored x y → Text.lowercase x.fullName = Text.lowercase y.fullName) ∧
      (PairsNamesakes p native managed ↔ ∀ n x y, native.Reaches n → managed.Reaches y →
        n.fullName = y.fullName →
        MeetAsChildren native managed stored x y ∨ MeetByName native managed stored x y →
        IsLastPair stored x y → x = n) := by
  intro native managed stored
  have hnative : native.Navigable :=
    Registry.navigable_internAll origin registry parser acts htrimmed
  have hmanaged : managed.Navigable :=
    Registry.navigable_internAll origin' registry' parser' acts' htrimmed'
  obtain ⟨p, hproject, hp⟩ := isProjected_of_navigable hnative hmanaged
  refine ⟨p, hproject, fun y hy => ?_, pairsNames_iff hnative hmanaged hp,
    pairsNamesakes_iff hnative hmanaged hp⟩
  obtain ⟨last, q, -, hside, -, hq, hlabel⟩ := exists_last_of_reaches hnative hmanaged hp hy
  refine ⟨q, hq, (congrArg Projection.Label.managed hlabel).trans ?_⟩
  rw [Sides.label, hside, Option.map_some]

/-! ## Two names crossed -/

/-- A class in a scope of which nothing is known, and one outside of it. -/
def nestedFirst : List Interning :=
  [.define (Compound.empty "1" .native "A.X" .classType),
    .define (Compound.empty "2" .native "X" .classType)]

/-- The same classes in the other order. -/
def nestedLast : List Interning :=
  [.define (Compound.empty "1" .managed "X" .classType),
    .define (Compound.empty "2" .managed "A.X" .classType)]

/-- Both classes of either universe lie below the global namespace, and their short names are the
same, so that each is paired with the other one of the other universe. -/
theorem pairs_project_crossed :
    let native := ((Registry.empty .native (.ofPreset .standard)).internAll nestedFirst).resolve.1
    let managed := ((Registry.empty .managed (.ofPreset .standard)).internAll nestedLast).resolve.1
    (∀ c, .define c ∈ nestedFirst → Text.trimmed c.fullName = c.fullName) ∧
      (∀ c, .define c ∈ nestedLast → Text.trimmed c.fullName = c.fullName) ∧
      ∃ p, project {} native managed = .ok p ∧
        (∀ y, managed.Reaches y → ∃ q, p.lookup? y.fullName = some q ∧ q.managed = some y.id) ∧
        p.label? ⟨1⟩ = some { name := "X", native := some ⟨1⟩, managed := some ⟨1⟩ } ∧
        (native.get? ⟨1⟩).map (·.fullName) = some "A.X" ∧ ¬ PairsNames p native managed := by
  intro native managed
  have hfirst : ∀ c, .define c ∈ nestedFirst → Text.trimmed c.fullName = c.fullName := by
    simp only [nestedFirst, List.mem_cons, List.not_mem_nil, Interning.define.injEq, or_false]
    rintro c (rfl | rfl) <;> decide +kernel
  have hlast : ∀ c, .define c ∈ nestedLast → Text.trimmed c.fullName = c.fullName := by
    simp only [nestedLast, List.mem_cons, List.not_mem_nil, Interning.define.injEq, or_false]
    rintro c (rfl | rfl) <;> decide +kernel
  obtain ⟨p, hp, hmanaged, -⟩ := pairs_project_iff {} .native .managed (.ofPreset .standard)
    (.ofPreset .standard) .standard .standard nestedFirst nestedLast hfirst hlast
  have hwithin : (projectWithin {} native managed 2).bind (·.label? ⟨1⟩) =
      some { name := "X", native := some ⟨1⟩, managed := some ⟨1⟩ } := by decide +kernel
  have hnative : (native.get? ⟨1⟩).map (·.fullName) = some "A.X" := by decide +kernel
  have hsurface : (managed.get? ⟨1⟩).map (·.fullName) = some "X" := by decide +kernel
  obtain ⟨p', hp', hlabel⟩ := Option.bind_eq_some_iff.1 hwithin
  obtain rfl := Except.ok.inj (hp.symm.trans (project_of_projectWithin hp'))
  refine ⟨hfirst, hlast, p, hp, hmanaged, hlabel, hnative, fun h => ?_⟩
  obtain ⟨q, hq, hq'⟩ := Option.map_eq_some_iff.1 hlabel
  obtain ⟨x, y, hx, hy, hsame⟩ := h ⟨1⟩ q ⟨1⟩ ⟨1⟩ hq (congrArg Projection.Label.native hq')
    (congrArg Projection.Label.managed hq')
  have hxname : x.fullName = "A.X" := by simpa [hx] using hnative
  have hyname : y.fullName = "X" := by simpa [hy] using hsurface
  rw [hxname, hyname] at hsame
  exact absurd hsame (by decide +kernel)

end Merger

end TypeAtlas
