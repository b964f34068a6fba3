import TypeAtlas.Proofs.Projection.Pairing
import TypeAtlas.Proofs.Projection.Steps

/-!
# Merging a pair again

A pair that is merged with all that lies below it finds other pairs projected when it is merged
again, so that it may be completed otherwise. The projection stays as it is if and only if all pairs
that are stored in the end are projected already and every node is in its place. This is so where
the first time each pair was completed as it would have been in the end.

## Main definitions

* `Merger.storesOf` — the pairs that this stores.
* `Merger.Composed` — every projected node is made of a pair of nodes of the universes.
* `Merger.Settled` — the exact condition for a pair to change nothing.
* `Merger.Foreseen` — each pair is completed as it would be in the end.

The main statement is `Merger.repeated_mergeNamespaces`. In two trees of names each pair is
completed as it would be in the end (`Merger.foreseen_of_nests`).
-/

namespace TypeAtlas

namespace Merger

variable {m m' : Merger} {task : Task} {tasks : List Task} {pending : List String} {s s' : Sides}
  {side : Side} {a c i : ProjectedId} {label : Projection.Label} {name : String}

/-! ## Merging a pair with all that lies below it -/

/-- The pairs that are stored when a pair is merged with all that lies below it, in order. -/
def storesOf (m : Merger) (s : Sides) : List Sides :=
  m.complete s :: (m.momentsBelow s).map fun moment => moment.1.complete moment.2.sides

/-- A name has the sides of the last pair that is stored under it. -/
theorem has_spread (h : m.projection.Named) : (m.spread s).projection.Has label ↔
    (∃ s', lastUnder? (m.storesOf s) label.name = some s' ∧ s'.label = label) ∨
      lastUnder? (m.storesOf s) label.name = none ∧ m.projection.Has label := by
  have hnamed : (m.store s).2.2.projection.Named := h.upsert _
  have hstored : (m.store s).2.2.projection.Has label ↔
      label = (m.complete s).label ∨ label.name ≠ (m.complete s).name ∧ m.projection.Has label :=
    Projection.has_upsert h
  rw [spread, has_run hnamed, hstored, storesOf, momentsBelow, ← stores_eq_map]
  exact (lastUnder?_cons_iff _ _ _ _).symm

theorem graph_spread (side : Side) (m : Merger) (s : Sides) :
    side.graph (m.spread s) = side.graph m :=
  (graph_run side).trans (graph_store side m s)

theorem pair_spread (m : Merger) (s : Sides) (i j : TypeId) :
    (m.spread s).pair i j = m.pair i j := by
  rw [pair, pair, show (m.spread s).native = m.native from graph_spread .native m s,
    show (m.spread s).managed = m.managed from graph_spread .managed m s]

theorem settings_spread (m : Merger) (s : Sides) : (m.spread s).settings = m.settings :=
  run_keeps_of_step (I := fun m' => m'.settings = m.settings) (fun _ _ hm => hm) _ _ rfl

theorem retains_spread (h : m.Kept) (hs : m.Genuine s) :
    (m.store s).2.2.projection.Retains (m.spread s).projection :=
  retains_run (h.store hs) (expects_tasks h s) _

/-! ## What projected nodes are made of -/

/-- Every projected node is made of a pair of nodes of the universes. -/
def Composed (m : Merger) : Prop :=
  ∀ i n, m.projection.get? i = some n → ∃ s, m.Genuine s ∧ n.body = s.compose m.settings

/-- A pair of nodes is known from its label. -/
theorem Genuine.eq_of_label (h : m.Genuine s) (h' : m.Genuine s') (hlabel : s.label = s'.label) :
    s = s' := by
  refine Sides.eq_of_node? fun side => ?_
  have hid : (side.node? s).map (·.id) = (side.node? s').map (·.id) := by
    rw [← Sides.labelId?_label, ← Sides.labelId?_label, hlabel]
  cases hn : side.node? s with
  | none =>
    rw [hn, Option.map_none] at hid
    exact (Option.map_eq_none_iff.1 hid.symm).symm
  | some n =>
    rw [hn, Option.map_some] at hid
    obtain ⟨n', hn', heq⟩ := Option.map_eq_some_iff.1 hid.symm
    have hget := h'.node side n' hn'
    rw [heq, h.node side n hn] at hget
    rw [hn', Option.some.inj hget]

theorem composed_of_empty (h : m.projection = {}) : m.Composed := by
  intro i n hn
  simp [h, Projection.get?] at hn

theorem Composed.store (h : m.Composed) (hm : m.Sound) (hs : m.Genuine s) :
    (m.store s).2.2.Composed := by
  have hgenuine {s' : Sides} (hs' : m.Genuine s') : (m.store s).2.2.Genuine s' :=
    (genuine_iff_of_graph fun side => graph_store side m s).2 hs'
  intro i n hn
  rcases m.projection.get?_upsert_cases ((m.complete s).compose m.settings) i with
    hget | ⟨old, -, -, hget⟩ | ⟨-, -, hget⟩
  · obtain ⟨s', hs', hbody⟩ := h i n (hget ▸ hn)
    exact ⟨s', hgenuine hs', hbody⟩
  all_goals
    obtain rfl := Option.some.inj (hget.symm.trans hn)
    exact ⟨m.complete s, hgenuine (genuine_complete hm hs), rfl⟩

theorem Composed.step (h : m.Composed) (hm : m.Sound) (hs : m.Genuine task.sides) :
    (m.step task).2.2.Composed := by
  intro i n hn
  rw [step_projection] at hn
  have hbody := Projection.map_link (v := ProjectedType.body) (fun _ _ _ => rfl)
    (m.store task.sides).2.2.projection task.parent (m.store task.sides).1 i
  rw [hn, Option.map_some] at hbody
  obtain ⟨n', hn', hsame⟩ := Option.map_eq_some_iff.1 hbody.symm
  obtain ⟨s', hs', hcomposed⟩ := (h.store hm hs) i n' hn'
  refine ⟨s', (genuine_step_iff task).2 ?_, hsame ▸ hcomposed⟩
  exact (genuine_iff_of_graph fun side => graph_store side m task.sides).1 hs'

theorem Composed.spread (h : m.Composed) (hm : m.Kept) (hs : m.Genuine s) :
    (m.spread s).Composed :=
  (hm.store hs).run_keeps (expects_tasks hm s) _ (h.store hm.sound hs)
    fun _ _ hkept ht h => h.step hkept.sound ht.genuine

theorem Composed.performAll (h : m.Composed) (hm : m.Kept) (calls : List Call) :
    (m.performAll calls).Composed :=
  hm.performAll_keeps calls h (fun _ _ hkept hs h => h.store hkept.sound hs)
    fun _ _ hkept ht h => h.step hkept.sound ht.genuine

/-- Nodes of one label are made of one pair. -/
theorem Composed.body_eq {n n' : ProjectedType} (h : m.Composed) (h' : m'.Composed)
    (hgraph : ∀ side, Side.graph side m = side.graph m') (hsettings : m.settings = m'.settings)
    (hn : m.projection.get? i = some n) (hn' : m'.projection.get? i = some n')
    (hlabel : n.label = n'.label) : n.body = n'.body := by
  obtain ⟨s, hs, hbody⟩ := h i n hn
  obtain ⟨s', hs', hbody'⟩ := h' i n' hn'
  have hsame : s.label = s'.label := by
    rw [← Sides.label_compose m.settings, ← hbody, ← Sides.label_compose m'.settings s', ← hbody']
    exact hlabel
  rw [hbody, hbody', hs.eq_of_label ((genuine_iff_of_graph hgraph).2 hs') hsame, hsettings]

/-! ## A call that changes nothing -/

/-- What is in its place stays there. -/
theorem isPlaced_run (h : m.Kept) (hexpects : ∀ task ∈ tasks, m.Expects task)
    (hplaced : m.projection.IsPlaced a c) (ha : (m.projection.get? a).isSome)
    (pending : List String) : (run pending m tasks).projection.IsPlaced a c := by
  refine (h.run_keeps (I := fun m => m.projection.IsPlaced a c ∧ (m.projection.get? a).isSome)
    hexpects pending ⟨hplaced, ha⟩ ?_).1
  rintro ⟨m, task⟩ - hm ht ⟨hplaced, ha⟩
  constructor
  · have hnamed := hm.projection.named
    exact (hplaced.upsert hm.projection.toTree hnamed ha rfl).link
      (hm.store ht.genuine).projection.toTree (Projection.isSome_get?_upsert ht.parent)
      (isSome_get?_store hnamed task.sides)
  · exact (Projection.isSome_get?_link _ _ _ a).trans (Projection.isSome_get?_upsert ha)

/-- In the end each node is in its place below the node that it was placed below. -/
theorem isPlaced_of_mem_moments {moment : Merger × Task} (h : m.Kept)
    (hexpects : ∀ task ∈ tasks, m.Expects task) (hmoment : moment ∈ moments pending m tasks) :
    (run pending m tasks).projection.IsPlaced moment.2.parent
      (moment.1.store moment.2.sides).1 := by
  obtain ⟨pending', tasks', hrun, hkept, hready⟩ :=
    run_resumes pending m tasks Kept.keeps h hexpects moment hmoment
  obtain ⟨hm, ht⟩ := (h.run hexpects pending).2 moment hmoment
  have hparent : ((moment.1.store moment.2.sides).2.2.projection.get? moment.2.parent).isSome :=
    Projection.isSome_get?_upsert ht.parent
  rw [hrun]
  refine isPlaced_run hkept hready ?_ ?_ pending'
  · exact Projection.isPlaced_link (hm.store ht.genuine).projection.toTree hparent
      (isSome_get?_store hm.projection.named _)
  · exact (Projection.isSome_get?_link _ _ _ _).trans hparent

/-- Whether a pair that is merged with all that lies below it changes nothing: the last pair that is
stored under each name is projected, and each node is in its place. -/
structure Settled (m : Merger) (s : Sides) : Prop where
  pairs : ∀ name pair, lastUnder? (m.storesOf s) name = some pair → m.projection.Has pair.label
  places : ∀ moment ∈ m.momentsBelow s,
    m.projection.IsPlaced moment.2.parent (moment.1.store moment.2.sides).1

/-- Where a pair is settled, what is stored has its name already. -/
theorem Settled.exists_name? {pair : Sides} (h : m.Settled s) (hpair : pair ∈ m.storesOf s) :
    ∃ i, m.projection.name? i = some pair.name := by
  obtain ⟨last, hlast, -, hname⟩ := exists_lastUnder? hpair
  obtain ⟨i, hi⟩ := h.pairs _ last hlast
  exact ⟨i, by rw [Projection.name?, hi, Option.map_some]; exact congrArg some hname⟩

theorem Settled.sameShape (h : m.Settled s) (hm : m.Kept) (hs : m.Genuine s) :
    m.projection.SameShape (m.spread s).projection := by
  have hstored : ∀ {m' : Merger} {s' : Sides}, m'.Kept → m.projection.SameShape m'.projection →
      m'.complete s' ∈ m.storesOf s →
      m.projection.SameShape (m'.store s').2.2.projection := by
    intro m' s' hm' hshape hmem
    obtain ⟨i, hi⟩ := h.exists_name? hmem
    exact hshape.upsert hm'.projection.named hi rfl rfl
  refine (hm.store hs).run_keeps (I := fun m' => m.projection.SameShape m'.projection)
    (expects_tasks hm s) _ (hstored hm (.refl _) List.mem_cons_self) ?_
  rintro ⟨m', task⟩ hmoment hm' ht hshape
  have hshape' := hstored hm' hshape
    (List.mem_cons_of_mem _ (List.mem_map_of_mem hmoment))
  rw [step_projection, Projection.link_of_isPlaced (hm'.store ht.genuine).projection.toTree
    (hshape'.isPlaced (h.places _ hmoment))]
  exact hshape'

/-- A pair that is merged with all that lies below it changes nothing if and only if it is
settled. -/
theorem spread_eq_iff (h : m.Kept) (hc : m.Composed) (hs : m.Genuine s) :
    (m.spread s).projection = m.projection ↔ m.Settled s := by
  have hhas (label) : (m.spread s).projection.Has label ↔
      (∃ s', lastUnder? (m.storesOf s) label.name = some s' ∧ s'.label = label) ∨
        lastUnder? (m.storesOf s) label.name = none ∧ m.projection.Has label :=
    has_spread h.projection.named
  constructor
  · intro heq
    refine ⟨fun name pair hlast => ?_, fun moment hmoment => ?_⟩
    · rw [← heq, hhas]
      exact .inl ⟨pair, by rwa [show pair.label.name = name from name_of_lastUnder? hlast], rfl⟩
    · rw [← heq]
      exact isPlaced_of_mem_moments (h.store hs) (expects_tasks h s) hmoment
  · intro hsettled
    have hshape := hsettled.sameShape h hs
    refine (Projection.eq_of_sameShape hshape h.projection.id (h.spread hs).projection.id ?_).symm
    intro i n n' hn hn'
    refine hc.body_eq (hc.spread h hs) (fun side => (graph_spread side m s).symm)
      (settings_spread m s).symm hn hn' ?_
    have hi : m.projection.label? i = some n.label := by rw [Projection.label?, hn, Option.map_some]
    have hi' : (m.spread s).projection.label? i = some n'.label := by
      rw [Projection.label?, hn', Option.map_some]
    have hname : n.label.name = n'.label.name := by
      have := hshape.name i
      rw [Projection.name?, Projection.name?, hi, hi'] at this
      exact Option.some.inj this
    -- The label in the end is one that is there at first, and names are unique.
    have hknown : m.projection.Has n'.label := by
      rcases (hhas n'.label).1 ⟨i, hi'⟩ with ⟨pair, hlast, hlabel⟩ | ⟨-, hknown⟩
      · exact hlabel ▸ hsettled.pairs _ pair hlast
      · exact hknown
    obtain ⟨j, hj⟩ := hknown
    obtain rfl := h.projection.named.eq hi hj hname
    exact Option.some.inj (hi.symm.trans hj)

/-! ## The same run again -/

/-- What comes of a moment: where the pair belongs, where it is stored, and the pair as
completed. -/
def visit (moment : Merger × Task) : ProjectedId × ProjectedId × Sides :=
  (moment.2.parent, (moment.1.store moment.2.sides).1, moment.1.complete moment.2.sides)

/-- A projection on the way from one that came before to the final one, while the same pairs are
stored again: the names are the final ones, and each label is either that of before or final. -/
structure Between (p q f : Projection) : Prop where
  name : ∀ i, q.name? i = f.name? i
  kept : ∀ i name, p.name? i = some name → f.name? i = some name
  label : ∀ i, q.label? i = p.label? i ∨ q.label? i = f.label? i

/-- A name leads to what it led to before or to what it leads to in the end. -/
theorem Between.labelOf? {p q f : Projection} (h : Between p q f) (hp : p.Named) (hq : q.Named)
    (hf : f.Named) (name : String) :
    q.labelOf? name = p.labelOf? name ∨ q.labelOf? name = f.labelOf? name := by
  by_cases hknown : ∃ i, f.name? i = some name
  · obtain ⟨i, hi⟩ := hknown
    have hqi : q.name? i = some name := (h.name i).trans hi
    rw [Projection.labelOf?_of_name? hq hqi, Projection.labelOf?_of_name? hf hi]
    refine (h.label i).imp_left fun hlabel => ?_
    rw [Projection.labelOf?_of_name? hp, hlabel]
    rwa [Projection.name?, hlabel] at hqi
  · refine .inl ?_
    rw [Projection.labelOf?_eq_none hq fun i hi => hknown ⟨i, (h.name i).symm.trans hi⟩,
      Projection.labelOf?_eq_none hp fun i hi => hknown ⟨i, h.kept i name hi⟩]

section Again

variable {before now final : Merger}

theorem found?_congr (hgraph : ∀ side, Side.graph side m = side.graph m')
    (h : m.projection.labelOf? name = m'.projection.labelOf? name) :
    m.found? side name = m'.found? side name := by
  have hside : ∀ p : Projection, (p.lookup? name).bind side.id? =
      (p.labelOf? name).bind side.labelId? := by
    intro p
    unfold Projection.labelOf?
    cases p.lookup? name <;> cases side <;> rfl
  rw [found?, found?, hside, hside, h, hgraph]

/-- A pair is completed as it was before or as it is in the end. -/
theorem complete_of_between (hbefore : ∀ side, Side.graph side now = side.graph before)
    (hfinal : ∀ side, Side.graph side now = side.graph final)
    (h : Between before.projection now.projection final.projection)
    (hp : before.projection.Named) (hq : now.projection.Named) (hf : final.projection.Named)
    (s : Sides) : now.complete s = before.complete s ∨ now.complete s = final.complete s := by
  have hfound : ∀ side name, now.found? side name = before.found? side name ∨
      now.found? side name = final.found? side name := fun side name =>
    (h.labelOf? hp hq hf name).imp (found?_congr hbefore) (found?_congr hfinal)
  obtain ⟨_ | x, _ | y⟩ := s
  · exact .inl (by simp [complete, existing?])
  · simp only [complete_managed]
    exact (hfound .native y.fullName).imp (congrArg (Sides.mk · (some y)))
      (congrArg (Sides.mk · (some y)))
  · simp only [complete_native]
    exact (hfound .managed x.fullName).imp (congrArg (Sides.mk (some x)))
      (congrArg (Sides.mk (some x)))
  · exact .inl rfl

/-- A pair that is completed as before is stored where it was before. -/
theorem Between.step (h : Between before.projection now.projection final.projection)
    (hp : before.projection.Named) (hq : now.projection.Named)
    (hcomplete : now.complete task.sides = before.complete task.sides)
    (hlater : ∀ i name, (before.step task).2.2.projection.name? i = some name →
      final.projection.name? i = some name) :
    (now.store task.sides).1 = (before.store task.sides).1 ∧
      Between (before.step task).2.2.projection (now.step task).2.2.projection
        final.projection := by
  have hchild : final.projection.name? (before.store task.sides).1 =
      some (before.complete task.sides).name := by
    refine hlater _ _ ?_
    rw [Projection.name?, label?_step hp, if_pos rfl]
    rfl
  have hstored : (now.store task.sides).1 = (before.store task.sides).1 := by
    refine Projection.upsert_fst_of_name? hq ?_
    rw [h.name, hchild, ← hcomplete]
    rfl
  refine ⟨hstored, fun i => ?_, hlater, fun i => ?_⟩
  · rw [Projection.name?, label?_step hq, hstored, hcomplete]
    split
    · next heq =>
      subst heq
      exact hchild.symm
    · exact h.name i
  · rw [label?_step hq, label?_step hp, hstored, hcomplete]
    split
    · exact .inl rfl
    · exact h.label i

theorem tasks_congr (h : ∀ side, Side.graph side m = side.graph m') (i : ProjectedId) (s : Sides) :
    m.tasks i s = m'.tasks i s := by
  rw [tasks, tasks, show m.native = m'.native from h .native,
    show m.managed = m'.managed from h .managed]

theorem allNames_congr (h : ∀ side, Side.graph side m = side.graph m') :
    m.allNames = m'.allNames := by
  rw [allNames, allNames, show m.native = m'.native from h .native,
    show m.managed = m'.managed from h .managed]

/-- A pair that was completed as it would be in the end is stored again where it was, and the same
pairs wait below it. -/
theorem visit_eq (hbefore : before.Kept) (ht : before.Expects task)
    (hready : ∀ other ∈ tasks, (before.step task).2.2.Expects other)
    (hrun : run pending (before.step task).2.2 tasks = final) (hnow : now.projection.Named)
    (hgraph : ∀ side, Side.graph side now = side.graph before)
    (h : Between before.projection now.projection final.projection)
    (hsame : final.complete task.sides = before.complete task.sides) :
    visit (now, task) = visit (before, task) ∧ (now.step task).1 = (before.step task).1 ∧
      (now.step task).2.1 = (before.step task).2.1 ∧
      Between (before.step task).2.2.projection (now.step task).2.2.projection
        final.projection := by
  have hstep := hbefore.step ht.genuine ht.parent
  have hfinal : ∀ side, Side.graph side now = side.graph final := fun side => by
    rw [hgraph, ← hrun, graph_run, step_graph]
  have hlater : ∀ i name, (before.step task).2.2.projection.name? i = some name →
      final.projection.name? i = some name := fun i name hi =>
    hrun ▸ (retains_run hstep hready pending).name? hi
  have hcomplete : now.complete task.sides = before.complete task.sides :=
    (complete_of_between hgraph hfinal h hbefore.projection.named hnow
      (hrun ▸ (hstep.run hready pending).1.projection.named) task.sides).elim id (·.trans hsame)
  obtain ⟨hstored, hbetween⟩ := h.step hbefore.projection.named hnow hcomplete hlater
  refine ⟨?_, ?_, ?_, hbetween⟩
  · rw [visit, visit, hstored, hcomplete]
  · rw [step_name, step_name, hcomplete]
  · have hbelow (m : Merger) : (m.step task).2.1 =
        (m.step task).2.2.tasks (m.store task.sides).1 (m.complete task.sides) := rfl
    rw [hbelow, hbelow, hstored, hcomplete]
    exact tasks_congr (fun side => by rw [step_graph, step_graph, hgraph]) _ _

/-- Where each pair was completed as it would be in the end, the same pairs are stored again at the
same positions. -/
theorem visits_eq (hbefore : before.Kept) (hexpects : ∀ task ∈ tasks, before.Expects task)
    (hrun : run pending before tasks = final) (hnow : now.projection.Named)
    (hgraph : ∀ side, Side.graph side now = side.graph before)
    (h : Between before.projection now.projection final.projection)
    (hsame : ∀ moment ∈ moments pending before tasks,
      final.complete moment.2.sides = moment.1.complete moment.2.sides) :
    (moments pending now tasks).map visit = (moments pending before tasks).map visit := by
  induction pending, before, tasks using run_induction generalizing now with
  | nil pending before => rw [moments, moments]
  | cons pending before task rest ih =>
    rw [run_cons] at hrun
    rw [moments_cons] at hsame
    have ht := hexpects task List.mem_cons_self
    obtain ⟨hmerger, hbelow, hother⟩ := Kept.keeps before task hbefore ht
    have hready : ∀ other ∈ (next pending before task rest).2,
        (before.step task).2.2.Expects other :=
      fun other h => (mem_next h).elim (hbelow other) fun h =>
        hother other (hexpects other (List.mem_cons_of_mem _ h))
    obtain ⟨hvisit, hname, hsamebelow, hbetween⟩ := visit_eq hbefore ht hready hrun hnow hgraph h
      (hsame _ List.mem_cons_self)
    have hnext : next pending now task rest = next pending before task rest := by
      rw [next, hname, hsamebelow, next]
    rw [moments_cons, moments_cons, List.map_cons, List.map_cons, hvisit, hnext]
    rw [ih hmerger hready hrun (named_step hnow task)
      (fun side => by rw [step_graph, step_graph, hgraph]) hbetween
      fun moment h => hsame moment (List.mem_cons_of_mem _ h)]

end Again

/-- Each pair that is stored was completed as it would be in the end. -/
structure Foreseen (m : Merger) (s : Sides) : Prop where
  pair : (m.spread s).complete s = m.complete s
  below : ∀ moment ∈ m.momentsBelow s,
    (m.spread s).complete moment.2.sides = moment.1.complete moment.2.sides

theorem Kept.fst_store_spread (h : m.Kept) (hs : m.Genuine s)
    (hpair : (m.spread s).complete s = m.complete s) :
    ((m.spread s).store s).1 = (m.store s).1 := by
  refine Projection.upsert_fst_of_name? (h.spread hs).projection.named
    ((retains_spread h hs).name? ?_)
  rw [Projection.name?, label?_store h.projection.named, if_pos rfl, Option.map_some]
  exact congrArg (some ·.name) hpair.symm

theorem Foreseen.map_visit (hf : m.Foreseen s) (h : m.Kept) (hs : m.Genuine s) :
    ((m.spread s).momentsBelow s).map visit = (m.momentsBelow s).map visit := by
  have hgraph : ∀ side, Side.graph side ((m.spread s).store s).2.2 =
      side.graph (m.store s).2.2 := fun side => by
    rw [graph_store, graph_spread, graph_store]
  have hstored := h.fst_store_spread hs hf.pair
  have hnamed := h.projection.named
  have hnamed' := (h.spread hs).projection.named
  have hbetween : Between (m.store s).2.2.projection ((m.spread s).store s).2.2.projection
      (m.spread s).projection := by
    have hretains := retains_spread h hs
    refine ⟨fun i => ?_, fun i name hi => hretains.name? hi, fun i => ?_⟩
    · rw [Projection.name?, label?_store hnamed', hstored, hf.pair]
      split
      · next heq =>
        subst heq
        refine (hretains.name? ?_).symm
        rw [Projection.name?, label?_store hnamed, if_pos rfl, Option.map_some]
      · rfl
    · rw [label?_store hnamed', label?_store hnamed, hstored, hf.pair]
      split
      · exact .inl rfl
      · exact .inr rfl
  have hbelow (m : Merger) : (m.store s).2.1 = m.complete s := rfl
  unfold momentsBelow
  rw [hbelow, hbelow, hf.pair, hstored, tasks_congr hgraph,
    allNames_congr fun side => graph_spread side m s]
  exact visits_eq (h.store hs) (expects_tasks h s) rfl
    (hnamed'.upsert _) hgraph hbetween hf.below

/-- Where each pair was completed as it would be in the end, nothing changes when the pair is merged
again. -/
theorem Foreseen.settled (hf : m.Foreseen s) (h : m.Kept) (hs : m.Genuine s) :
    (m.spread s).Settled s := by
  have hvisits := hf.map_visit h hs
  have hstores : (m.spread s).storesOf s = m.storesOf s := by
    have hmap (m : Merger) : (m.momentsBelow s).map (fun moment =>
        moment.1.complete moment.2.sides) = ((m.momentsBelow s).map visit).map (·.2.2) := by
      rw [List.map_map]
      rfl
    rw [storesOf, storesOf, hf.pair, hmap, hmap, hvisits]
  refine ⟨fun name pair hlast => ?_, fun moment hmoment => ?_⟩
  · rw [hstores] at hlast
    refine (has_spread h.projection.named).2 (.inl ⟨pair, ?_, rfl⟩)
    rwa [show pair.label.name = name from name_of_lastUnder? hlast]
  · obtain ⟨first, hfirst, hvisit⟩ := List.mem_map.1 (hvisits ▸ List.mem_map_of_mem hmoment)
    have hplaced := isPlaced_of_mem_moments (h.store hs) (expects_tasks h s) hfirst
    obtain ⟨hparent, hchild⟩ := Prod.ext_iff.1 hvisit
    have hchild := congrArg Prod.fst hchild
    dsimp only [visit] at hparent hchild
    rwa [hparent, hchild] at hplaced

/-! ## Merging a pair again -/

/-- A pair of positions can be merged twice, with the same position as the outcome. -/
theorem Kept.mergeNamespaces_twice (h : m.Kept) {i j : TypeId} (hpair : m.pair i j = .ok s) :
    m.mergeNamespaces i j = (.ok (m.store s).1, m.spread s) ∧
      (m.spread s).mergeNamespaces i j = (.ok (m.store s).1, (m.spread s).spread s) := by
  have hpair' : (m.spread s).pair i j = .ok s := pair_spread m s i j ▸ hpair
  refine ⟨mergeNamespaces_of_pair hpair, ?_⟩
  rw [mergeNamespaces_of_pair hpair', h.fst_store_spread (genuine_of_pair h.sound hpair)]
  rw [complete_of_pair hpair, complete_of_pair hpair]

/-- The second time nothing changes if and only if the pair is settled after the first time. -/
theorem Kept.spread_spread_eq_iff (h : m.Kept) (hc : m.Composed) (hs : m.Genuine s) :
    ((m.spread s).spread s).projection = (m.spread s).projection ↔ (m.spread s).Settled s :=
  spread_eq_iff (h.spread hs) (hc.spread h hs)
    ((genuine_iff_of_graph fun side => graph_spread side m s).2 hs)

/-- Whatever calls have been made of a merger of two resolved universes, a pair of positions in them
can be merged with all that lies below it, and again after that, with the same position as the
outcome. The second call changes nothing if and only if the pair is settled after the first one.
This is so where the first call has completed each pair as it would be in the end. -/
theorem repeated_mergeNamespaces (settings : ProjectionSettings) (origin origin' : Universe)
    (registry registry' : RegistrySettings) (parser parser' : DeclarationParser)
    (acts acts' : List Interning) (calls : List Call) (i j : TypeId) :
    let native := ((Registry.empty origin registry parser).internAll acts).resolve.1
    let managed := ((Registry.empty origin' registry' parser').internAll acts').resolve.1
    let m := performAll { settings, native, managed } calls
    (native.get? i).isSome → (managed.get? j).isSome →
    ∃ s id first second, m.pair i j = .ok s ∧ m.mergeNamespaces i j = (.ok id, first) ∧
      first.mergeNamespaces i j = (.ok id, second) ∧
      (second.projection = first.projection ↔ first.Settled s) ∧
      (m.Foreseen s → first.Settled s) := by
  intro native managed m hi hj
  obtain ⟨x, hx⟩ := Option.isSome_iff_exists.1 hi
  obtain ⟨y, hy⟩ := Option.isSome_iff_exists.1 hj
  obtain ⟨hkept, hnative, hmanaged⟩ := kept_resolved settings origin origin' registry registry'
    parser parser' acts acts' calls
  have hcomposed : m.Composed := (composed_of_empty rfl).performAll
    (kept_resolved settings origin origin' registry registry' parser parser' acts acts' []).1 calls
  have hpair : m.pair i j = .ok { native := some x, managed := some y } :=
    pair_of_get? (hnative ▸ hx) (hmanaged ▸ hy)
  have hs := genuine_of_pair hkept.sound hpair
  set s : Sides := { native := some x, managed := some y }
  obtain ⟨hfirst, hsecond⟩ := hkept.mergeNamespaces_twice hpair
  refine ⟨s, (m.store s).1, m.spread s, (m.spread s).spread s, hpair, hfirst, hsecond,
    hkept.spread_spread_eq_iff hcomposed hs, fun hf => hf.settled hkept hs⟩

/-! ## A pair that is completed late -/

/-- The outcome of merging a pair of positions with all that lies below it, if there are not more
than `fuel` pairs below it. -/
def mergeWithin (m : Merger) (native managed : TypeId) (fuel : Nat) :
    Option (ProjectedId × Merger) :=
  match m.pair native managed with
  | .error _ => none
  | .ok s =>
    (runWithin (m.allNames.erase (m.complete s).name) (m.store s).2.2 fuel
      ((m.store s).2.2.tasks (m.store s).1 (m.store s).2.1)).map ((m.store s).1, ·)

theorem mergeNamespaces_of_mergeWithin {native managed : TypeId} {fuel : Nat}
    {merged : ProjectedId × Merger} (h : m.mergeWithin native managed fuel = some merged) :
    m.mergeNamespaces native managed = (.ok merged.1, merged.2) := by
  unfold mergeWithin at h
  cases hpair : m.pair native managed with
  | error e => simp [hpair] at h
  | ok s =>
    rw [hpair] at h
    obtain ⟨merged, hmerged, rfl⟩ := Option.map_eq_some_iff.1 h
    rw [mergeNamespaces_of_pair hpair, spread, run_of_runWithin hmerged]

/-- A class inside another one, in a scope of which nothing is known. -/
def lateNative : List Interning :=
  [.define (Compound.empty "1" .native "S.X" .classType),
    .define (Compound.empty "2" .native "S.X.Y" .classType)]

/-- The outer class in another letter case, in a namespace. -/
def lateManaged : List Interning :=
  [.define (Compound.empty "1" .managed "s" .namespace),
    .define (Compound.empty "2" .managed "s.x" .classType)]

/-- The managed class is stored alone the first time, and its children are merged without those of
the native class that joins it later. The second time it finds the native class, whose children are
then merged as well. -/
theorem repeated_mergeNamespaces_late :
    let native := ((Registry.empty .native (.ofPreset .standard)).internAll lateNative).resolve.1
    let managed := ((Registry.empty .managed (.ofPreset .standard)).internAll lateManaged).resolve.1
    let m : Merger := { settings := {}, native, managed }
    ∃ s id first second, m.mergeNamespaces .global .global = (.ok id, first) ∧
      first.mergeNamespaces .global .global = (.ok id, second) ∧ first.projection.size = 3 ∧
      second.projection.size = 4 ∧ ¬ first.Settled s ∧ ¬ m.Foreseen s := by
  intro native managed m
  obtain ⟨s, id, first, second, -, hfirst, hsecond, hiff, hforeseen⟩ :=
    repeated_mergeNamespaces {} .native .managed (.ofPreset .standard) (.ofPreset .standard)
      .standard .standard lateNative lateManaged [] .global .global (by decide +kernel)
      (by decide +kernel)
  have hsizes : ((m.mergeWithin .global .global 3).bind fun (_, first) =>
      (first.mergeWithin .global .global 4).map fun (_, second) =>
        (first.projection.size, second.projection.size)) = some (3, 4) := by decide +kernel
  obtain ⟨⟨_, first'⟩, hfirst', hsizes⟩ := Option.bind_eq_some_iff.1 hsizes
  obtain ⟨⟨_, second'⟩, hsecond', hsizes⟩ := Option.map_eq_some_iff.1 hsizes
  obtain ⟨-, rfl⟩ := Prod.ext_iff.1
    (hfirst.symm.trans (mergeNamespaces_of_mergeWithin hfirst'))
  obtain ⟨-, rfl⟩ := Prod.ext_iff.1
    (hsecond.symm.trans (mergeNamespaces_of_mergeWithin hsecond'))
  obtain ⟨hthree, hfour⟩ := Prod.ext_iff.1 hsizes
  have hchanged : ¬ first.Settled s := fun hsettled => by
    have hsame := congrArg Projection.size (hiff.2 hsettled)
    rw [show second.projection.size = 4 from hfour, show first.projection.size = 3 from hthree]
      at hsame
    exact absurd hsame (by decide)
  exact ⟨s, id, first, second, hfirst, hsecond, hthree, hfour, hchanged, hchanged ∘ hforeseen⟩

end Merger

end TypeAtlas
