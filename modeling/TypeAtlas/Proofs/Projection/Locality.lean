import Mathlib.Logic.Equiv.Basic
import TypeAtlas.Proofs.Projection.Placing
import TypeAtlas.Proofs.Projection.Session

/-!
# What merging two nodes changes

Merging a native and a managed node changes one node of the projection, to what is composed of the
two alone. What has been merged before decides on its position and on its place in the tree, which
stay those of the node of its name. Hence a second time changes nothing, and nodes of different
names can be merged in any order, up to the positions of those that are new.

## Main definitions

* `Projection.Stores` — a projection in which one node is stored.
* `Projection.Renumbers` — projections that are the same up to the positions of nodes.
* `Merger.MergesLocally` — what merging two nodes does at any moment.

The main statement is `Merger.mergesLocally_performAll`.
-/

namespace TypeAtlas

/-- The node in a projection whose nodes are at other positions. -/
def ProjectedType.renumber (f : ProjectedId → ProjectedId) (n : ProjectedType) : ProjectedType :=
  { n with id := f n.id, parent := n.parent.map f, children := n.children.map f }

/-- What is composed of a native and a managed node, without a place in a tree. -/
def ProjectedType.ofBoth (settings : ProjectionSettings) (n k : TypeNode) : ProjectedType :=
  Sides.compose settings { native := some n, managed := some k }

namespace Projection

variable {p q : Projection} {native managed : TypeGraph} {i : ProjectedId}
  {a b node : ProjectedType} {name : String} {f : Equiv.Perm ProjectedId}

/-! ## Storing a node -/

/-- The node at a position, in the place in the tree of the node of its name, if there is one. -/
def inPlace (p : Projection) (node : ProjectedType) (id : ProjectedId) : ProjectedType :=
  { node with
    id
    parent := (p.lookup? node.fullName).bind (·.parent)
    children := ((p.lookup? node.fullName).map (·.children)).getD [] }

/-- A node is stored where the node of its name was, whose place in the tree it takes, or at a new
position. Nothing else changes. -/
structure Stores (p : Projection) (node : ProjectedType) (id : ProjectedId) (q : Projection) :
    Prop where
  known : ∀ i, p.lookupId? node.fullName = some i → id = i
  new : p.lookupId? node.fullName = none → id = ⟨p.size⟩
  stored : q.get? id = some (p.inPlace node id)
  others : ∀ i, i ≠ id → q.get? i = p.get? i

theorem lookup?_of_lookupId? (h : p.lookupId? name = some i) : p.lookup? name = p.get? i := by
  rw [lookup?, h, Option.bind_some]

theorem stores_upsert (h : p.Named) (hchildren : node.children = [])
    (hparent : node.parent = none) : p.Stores node (p.upsert node).1 (p.upsert node).2 := by
  unfold upsert
  cases hid : p.lookupId? node.fullName with
  | some id =>
    obtain ⟨old, hold, -⟩ := h.lookupId?_eq_some_iff.1 hid
    refine ⟨fun i hi => Option.some.inj (hid.symm.trans hi), fun hnone => ?_, ?_, fun i hne => ?_⟩
    · simp [hid] at hnone
    · rw [inPlace, lookup?_of_lookupId? hid, hold]
      exact get?_modify_self hold
    · exact get?_modify_of_ne (Ne.symm hne)
  | none =>
    refine ⟨fun i hi => ?_, fun _ => rfl, ?_, fun i hne => ?_⟩
    · simp [hid] at hi
    · rw [inPlace, lookup?, hid]
      simp [get?, hchildren, hparent]
    · have hne : i.index ≠ p.nodes.size := fun h => hne (eq_of_index h)
      simp [get?, Array.getElem?_push, hne]

/-- The position of a stored node is not that of any other name. -/
theorem lookupId?_ne_upsert (h : p.Named) (hi : p.lookupId? name = some i)
    (hne : name ≠ node.fullName) : i ≠ (p.upsert node).1 := by
  rintro rfl
  obtain ⟨label, hlabel, rfl⟩ := h.found name _ hi
  rcases upsert_cases h node with ⟨known, hknown, hname⟩ | ⟨hnone, -⟩
  · exact hne (Option.some.inj (hlabel.symm.trans hknown) ▸ hname)
  · simp [hlabel] at hnone

theorem lookup?_upsert_of_ne (h : p.Named) (hchildren : node.children = [])
    (hparent : node.parent = none) (hne : name ≠ node.fullName) :
    (p.upsert node).2.lookup? name = p.lookup? name := by
  rw [lookup?, lookup?, lookupId?_upsert, if_neg hne]
  cases hid : p.lookupId? name with
  | none => rfl
  | some i => exact (stores_upsert h hchildren hparent).others i (lookupId?_ne_upsert h hid hne)

theorem upsert_fst (p : Projection) (node : ProjectedType) :
    (p.upsert node).1 = (p.lookupId? node.fullName).getD ⟨p.size⟩ := by
  unfold upsert
  cases p.lookupId? node.fullName <;> rfl

theorem size_upsert (p : Projection) (node : ProjectedType) : (p.upsert node).2.size =
    if (p.lookupId? node.fullName).isSome then p.size else p.size + 1 := by
  unfold upsert
  cases p.lookupId? node.fullName <;> simp [size, modify]

/-- Storing a node again changes nothing. -/
theorem upsert_upsert_self (h : p.Named) (hchildren : node.children = [])
    (hparent : node.parent = none) :
    (p.upsert node).2.upsert node = ((p.upsert node).1, (p.upsert node).2) := by
  have hid : (p.upsert node).2.lookupId? node.fullName = some (p.upsert node).1 := by
    rw [lookupId?_upsert, if_pos rfl]
  have hstored := (stores_upsert h hchildren hparent).stored
  generalize (p.upsert node).2 = q, (p.upsert node).1 = id at hid hstored ⊢
  simp only [upsert, hid]
  rw [modify_eq_self fun n hn => ?_]
  obtain rfl := Option.some.inj (hstored.symm.trans hn)
  rfl

/-! ## Positions -/

/-- The nodes of a projection are those of another one at other positions. -/
def Renumbers (f : Equiv.Perm ProjectedId) (p q : Projection) : Prop :=
  ∀ i, q.get? (f i) = (p.get? i).map (·.renumber f)

/-- A node that refers to nodes whose positions stay the same stays the same. -/
theorem Kept.renumber_eq (h : p.Kept native managed) (hf : ∀ i, (p.get? i).isSome → f i = i)
    {n : ProjectedType} (hn : p.get? i = some n) : n.renumber f = n := by
  have hid := h.id i n hn
  have hparent : n.parent.map f = n.parent := by
    cases ha : n.parent with
    | none => rfl
    | some a =>
      exact congrArg some (hf a (h.isSome_parent ((parentOf?_of_get? hn).trans ha)))
  have hchildren : n.children.map f = n.children := by
    refine (List.map_congr_left fun c hc => ?_).trans (List.map_id _)
    rw [← childrenOf_of_get? hn, h.mem_childrenOf] at hc
    exact hf c (isSome_of_parentOf? hc)
  have hi : (p.get? i).isSome := by rw [hn]; rfl
  rw [ProjectedType.renumber, hid, hf i hi, hparent, hchildren, ← hid]

/-- What is stored under a name refers to nodes that were there before. -/
theorem Kept.renumber_inPlace (h : p.Kept native managed)
    (hf : ∀ i, (p.get? i).isSome → f i = i) (node : ProjectedType) (i : ProjectedId) :
    (p.inPlace node i).renumber f = p.inPlace node (f i) := by
  unfold inPlace ProjectedType.renumber
  cases hlookup : p.lookup? node.fullName with
  | none => rfl
  | some old =>
    obtain ⟨j, -, hj⟩ := Option.bind_eq_some_iff.1 hlookup
    have hold := h.renumber_eq hf hj
    have hparent : old.parent.map f = old.parent := congrArg (·.parent) hold
    have hchildren : old.children.map f = old.children := congrArg (·.children) hold
    simp [hparent, hchildren]

/-- The positions of two nodes that are stored after another in either order: those that are new
change places. -/
theorem exists_perm_upsert (p : Projection) (hne : a.fullName ≠ b.fullName) :
    ∃ f : Equiv.Perm ProjectedId, (∀ i, (p.get? i).isSome → f i = i) ∧
      f (p.upsert a).1 = ((p.upsert b).2.upsert a).1 ∧
      f ((p.upsert a).2.upsert b).1 = (p.upsert b).1 ∧
      ∀ i, i ≠ (p.upsert a).1 → i ≠ ((p.upsert a).2.upsert b).1 → f i = i := by
  have hb : ((p.upsert a).2.upsert b).1 = (p.lookupId? b.fullName).getD ⟨(p.upsert a).2.size⟩ := by
    rw [upsert_fst, lookupId?_upsert, if_neg (Ne.symm hne)]
  have ha : ((p.upsert b).2.upsert a).1 = (p.lookupId? a.fullName).getD ⟨(p.upsert b).2.size⟩ := by
    rw [upsert_fst, lookupId?_upsert, if_neg hne]
  rw [ha, hb, upsert_fst, upsert_fst, size_upsert, size_upsert]
  cases hida : p.lookupId? a.fullName with
  | some i => exact ⟨.refl _, by simp⟩
  | none =>
    cases hidb : p.lookupId? b.fullName with
    | some j => exact ⟨.refl _, by simp⟩
    | none =>
      refine ⟨Equiv.swap ⟨p.size⟩ ⟨p.size + 1⟩, fun i hi => ?_, by simp, by simp, ?_⟩
      · have hlt : i.index < p.size := by
          obtain ⟨n, hn⟩ := Option.isSome_iff_exists.1 hi
          exact (Array.getElem?_eq_some_iff.1 hn).1
        refine Equiv.swap_apply_of_ne_of_ne ?_ ?_
        · rintro rfl
          exact absurd hlt (by simp)
        · rintro rfl
          exact absurd hlt (by simp)
      · intro i hi hi'
        exact Equiv.swap_apply_of_ne_of_ne hi (by simpa using hi')

/-- Nodes of different names can be stored in either order, up to the positions of new ones. -/
theorem Kept.renumbers_upsert (h : p.Kept native managed) (hne : a.fullName ≠ b.fullName)
    (ha : a.children = [] ∧ a.parent = none) (hb : b.children = [] ∧ b.parent = none) :
    ∃ f : Equiv.Perm ProjectedId, (∀ i, (p.get? i).isSome → f i = i) ∧
      Renumbers f ((p.upsert a).2.upsert b).2 ((p.upsert b).2.upsert a).2 := by
  obtain ⟨f, hold, hfa, hfb, hother⟩ := p.exists_perm_upsert hne
  have hsa := stores_upsert h.named ha.1 ha.2
  have hsb := stores_upsert h.named hb.1 hb.2
  have hsab := stores_upsert (h.named.upsert a) hb.1 hb.2
  have hsba := stores_upsert (h.named.upsert b) ha.1 ha.2
  have hlookup : (p.upsert a).2.inPlace b = p.inPlace b := by
    funext id
    rw [inPlace, lookup?_upsert_of_ne h.named ha.1 ha.2 (Ne.symm hne)]
    rfl
  have hlookup' : (p.upsert b).2.inPlace a = p.inPlace a := by
    funext id
    rw [inPlace, lookup?_upsert_of_ne h.named hb.1 hb.2 hne]
    rfl
  have hdistinct : (p.upsert a).1 ≠ ((p.upsert a).2.upsert b).1 := by
    have hid : (p.upsert a).2.lookupId? a.fullName = some (p.upsert a).1 := by
      rw [lookupId?_upsert, if_pos rfl]
    exact lookupId?_ne_upsert (h.named.upsert a) hid hne
  refine ⟨f, hold, fun i => ?_⟩
  by_cases hib : i = ((p.upsert a).2.upsert b).1
  · -- The node that is stored last in the one order is stored first in the other one.
    have hi : f i ≠ ((p.upsert b).2.upsert a).1 :=
      fun heq => hdistinct (f.injective (hfa.trans (heq.symm.trans (congrArg f hib))))
    rw [hsba.others _ hi, hib, hfb, hsb.stored, hsab.stored, hlookup, Option.map_some,
      h.renumber_inPlace hold, hfb]
  by_cases hia : i = (p.upsert a).1
  · rw [hsab.others i hib, hia, hfa, hsba.stored, hsa.stored, hlookup', Option.map_some,
      h.renumber_inPlace hold, hfa]
  · have hi : f i = i := hother i hia hib
    have hi' : i ≠ ((p.upsert b).2.upsert a).1 :=
      fun heq => hia (f.injective ((hi.trans heq).trans hfa.symm))
    have hi'' : i ≠ (p.upsert b).1 := fun heq => hib (f.injective ((hi.trans heq).trans hfb.symm))
    rw [hi, hsba.others i hi', hsb.others i hi'', hsab.others i hib, hsa.others i hia]
    cases hn : p.get? i with
    | none => rfl
    | some n => rw [Option.map_some, h.renumber_eq hold hn]

end Projection

/-! ## Merging two nodes -/

namespace Merger

variable {m : Merger} {i j i' j' : TypeId} {n k n' k' : TypeNode}

/-- Merging two nodes stores what is composed of them, whatever has been merged before. -/
theorem outcome_merge (hn : m.native.get? i = some n) (hk : m.managed.get? j = some k) :
    m.outcome (.merge i j) = (.ok (m.projection.upsert (.ofBoth m.settings n k)).1,
      { m with projection := (m.projection.upsert (.ofBoth m.settings n k)).2 }) := by
  simp only [outcome, merge, pair, hn, hk]
  rfl

theorem perform_merge (hn : m.native.get? i = some n) (hk : m.managed.get? j = some k) :
    m.perform (.merge i j) =
      { m with projection := (m.projection.upsert (.ofBoth m.settings n k)).2 } := by
  rw [perform, outcome_merge hn hk]

theorem performAll_merges (hn : m.native.get? i = some n) (hk : m.managed.get? j = some k)
    (hn' : m.native.get? i' = some n') (hk' : m.managed.get? j' = some k') :
    (m.performAll [.merge i j, .merge i' j']).projection =
      ((m.projection.upsert (.ofBoth m.settings n k)).2.upsert (.ofBoth m.settings n' k')).2 := by
  have hfirst := perform_merge hn hk
  have hsecond : (m.perform (.merge i j)).perform (.merge i' j') = _ :=
    perform_merge (n := n') (k := k') (by rwa [hfirst]) (by rwa [hfirst])
  rw [performAll, List.foldl_cons, List.foldl_cons, List.foldl_nil, hsecond, hfirst]

/-- Merging two nodes changes one node, to what is composed of the two alone. -/
structure MergesLocally (settings : ProjectionSettings) (native managed : TypeGraph) (m : Merger) :
    Prop where
  /-- Where a node is missing, first of all the native one, this is said and nothing changes. -/
  missingNative (i j : TypeId) (hn : native.get? i = none) :
    m.outcome (.merge i j) = (.error (.invalidAccess i.display "merge (native)"), m)
  missingManaged (i j : TypeId) (n : TypeNode) (hn : native.get? i = some n)
    (hk : managed.get? j = none) :
    m.outcome (.merge i j) = (.error (.invalidAccess j.display "merge (managed)"), m)
  /-- One node is stored, and storing it again changes nothing. -/
  stores (i j : TypeId) (n k : TypeNode) (hn : native.get? i = some n)
    (hk : managed.get? j = some k) :
    ∃ id p, m.outcome (.merge i j) = (.ok id, { m with projection := p }) ∧
      m.projection.Stores (.ofBoth settings n k) id p ∧
      outcome { m with projection := p } (.merge i j) = (.ok id, { m with projection := p })
  /-- Nodes of different names can be merged in either order, up to the positions of new ones. -/
  commutes (i j i' j' : TypeId) (n k n' k' : TypeNode) (hn : native.get? i = some n)
    (hk : managed.get? j = some k) (hn' : native.get? i' = some n')
    (hk' : managed.get? j' = some k')
    (hne : (ProjectedType.ofBoth settings n k).fullName ≠
      (ProjectedType.ofBoth settings n' k').fullName) :
    ∃ f : Equiv.Perm ProjectedId, (∀ a, (m.projection.get? a).isSome → f a = a) ∧
      Projection.Renumbers f (m.performAll [.merge i j, .merge i' j']).projection
        (m.performAll [.merge i' j', .merge i j]).projection

theorem Kept.mergesLocally (h : m.Kept) : m.MergesLocally m.settings m.native m.managed where
  missingNative i j hn := merge_of_error (by rw [pair, hn])
  missingManaged i j n hn hk := merge_of_error (by rw [pair, hn, hk])
  stores i j n k hn hk := by
    have hagain := outcome_merge
      (m := { m with projection := (m.projection.upsert (.ofBoth m.settings n k)).2 }) hn hk
    have hnamed := h.projection.named
    rw [Projection.upsert_upsert_self hnamed rfl rfl] at hagain
    exact ⟨_, _, outcome_merge hn hk, Projection.stores_upsert hnamed rfl rfl, hagain⟩
  commutes i j i' j' n k n' k' hn hk hn' hk' hne := by
    rw [performAll_merges hn hk hn' hk', performAll_merges hn' hk' hn hk]
    exact h.projection.renumbers_upsert hne ⟨rfl, rfl⟩ ⟨rfl, rfl⟩

/-- Whatever calls have been made of a merger of two resolved universes, merging two nodes changes
one node of the projection, to what the universes and the settings make of the two. -/
theorem mergesLocally_performAll (settings : ProjectionSettings) (origin origin' : Universe)
    (registry registry' : RegistrySettings) (parser parser' : DeclarationParser)
    (acts acts' : List Interning) (calls : List Call) :
    let native := ((Registry.empty origin registry parser).internAll acts).resolve.1
    let managed := ((Registry.empty origin' registry' parser').internAll acts').resolve.1
    (performAll { settings, native, managed } calls).MergesLocally settings native managed := by
  intro native managed
  obtain ⟨hkept, hnative, hmanaged⟩ := kept_resolved settings origin origin' registry registry'
    parser parser' acts acts' calls
  have hlocal := hkept.mergesLocally
  rwa [settings_performAll, hnative, hmanaged] at hlocal

end Merger

end TypeAtlas
