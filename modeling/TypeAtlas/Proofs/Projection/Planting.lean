import Mathlib.Data.Finset.Max
import Mathlib.Data.Fintype.Pigeonhole
import Mathlib.Data.List.Find
import Mathlib.Logic.Relation
import Mathlib.Order.Interval.Finset.Nat
import TypeAtlas.Proofs.Projection.Placing

/-!
# Where nodes end up

A node that is placed below one node after another is found in the end below the first of them whose
name is the scope of its own, or below the very first one if there is none. The very first one is
projected before the node itself. The scope need not be: it may be projected later, and lie below
the node by then. The node is then cut off together with all that lies below it.

## Main definitions

* `Projection.seat?` — the node below which a node is found.
* `Projection.Planted` — every node is found there.
* `Projection.LeadsHome` — a node from which the parents lead to the global namespace.
* `Projection.Uprooted` — a node that is found below a scope that lies below the node.

The main statements are `Projection.Planted.link_upsert` and `Projection.Planted.leadsHome_iff`.
-/

namespace TypeAtlas

open Relation (ReflTransGen)

namespace Projection

variable {p q : Projection} {i j a c d : ProjectedId} {node : ProjectedType}
  {links : List (ProjectedId × ProjectedId)}

/-! ## Seats -/

/-- The nodes below which a node is placed, in order; each link is a node and what is placed below
it. -/
def listers (links : List (ProjectedId × ProjectedId)) (i : ProjectedId) : List ProjectedId :=
  (links.filter fun link => link.2 = i ∧ link.1 ≠ i).map (·.1)

/-- The first node with the scope of the name among those that a node is placed below, else the
first one of all. -/
def seat? (p : Projection) (links : List (ProjectedId × ProjectedId)) (i : ProjectedId) :
    Option ProjectedId :=
  ((listers links i).find? (p.isScopeOf · i)).or (listers links i).head?

theorem mem_listers : a ∈ listers links i ↔ (a, i) ∈ links ∧ a ≠ i := by
  simp [listers]

theorem listers_append (links : List (ProjectedId × ProjectedId)) (a c i : ProjectedId) :
    listers (links ++ [(a, c)]) i =
      if c = i ∧ a ≠ i then listers links i ++ [a] else listers links i := by
  unfold listers
  split <;> simp_all

/-- The first place stays the first one. -/
theorem head?_listers_append (h : (listers (links ++ [(a, c)]) i).head? = some j) :
    (listers links i).head? = some j ∨ listers links i = [] ∧ c = i ∧ a = j := by
  rw [listers_append] at h
  split at h
  · next hself =>
    cases hlisters : listers links i with
    | nil => exact .inr ⟨rfl, hself.1, by simpa [hlisters] using h⟩
    | cons first rest => exact .inl (by simpa [hlisters] using h)
  · exact .inl h

theorem mem_listers_of_seat? (h : p.seat? links i = some a) : a ∈ listers links i := by
  rcases Option.or_eq_some_iff.1 h with h | ⟨-, h⟩
  · exact List.mem_of_find?_eq_some h
  · exact List.mem_of_head? h

/-- A seat that is not the first one taken is that of the scope of the name. -/
theorem isScopeOf_of_seat? (h : p.seat? links i = some a)
    (hfirst : (listers links i).head? ≠ some a) : p.isScopeOf a i = true := by
  rcases Option.or_eq_some_iff.1 h with h | ⟨-, h⟩
  · simpa using List.find?_some h
  · exact absurd h hfirst

theorem seat?_congr (h : ∀ a ∈ listers links i, p.isScopeOf a i = q.isScopeOf a i) :
    p.seat? links i = q.seat? links i := by
  unfold seat?
  rw [List.find?_congr h]

/-- A node keeps its seat, if it has one, unless it is offered that of the scope of its name. -/
theorem seat?_append (p : Projection) (links : List (ProjectedId × ProjectedId)) (hne : a ≠ c) :
    p.seat? (links ++ [(a, c)]) c =
      match p.seat? links c with
      | none => some a
      | some existing =>
        if p.isScopeOf a c && !p.isScopeOf existing c then some a else some existing := by
  unfold seat?
  rw [listers_append, if_pos ⟨rfl, hne⟩, List.find?_append]
  cases hfound : (listers links c).find? (p.isScopeOf · c) with
  | some existing =>
    have hscope : p.isScopeOf existing c = true := by simpa using List.find?_some hfound
    simp [hscope]
  | none =>
    have hnone := List.find?_eq_none.1 hfound
    cases hlisters : listers links c with
    | nil => cases hscope : p.isScopeOf a c <;> simp [hscope]
    | cons first rest =>
      have hfirst : p.isScopeOf first c = false := by simpa [hlisters] using hnone first
      cases hscope : p.isScopeOf a c <;> simp [hscope, hfirst]

/-- So does a node that is placed. -/
theorem parentOf?_link_self (h : p.Tree) (ha : (p.get? a).isSome) (hc : (p.get? c).isSome)
    (hne : a ≠ c) : (p.link a c).parentOf? c =
      match p.parentOf? c with
      | none => some a
      | some existing =>
        if p.isScopeOf a c && !p.isScopeOf existing c then some a else some existing := by
  by_cases hplaced : p.IsPlaced a c
  · obtain ⟨existing, hexisting, hstays⟩ := hplaced.resolve_left hne
    rw [link_of_isPlaced h hplaced, hexisting]
    rcases hstays with rfl | hstays
    · simp
    · simp [hstays]
  · rw [parentOf?_link_of_not_isPlaced ha hc hplaced, if_pos rfl]
    cases hexisting : p.parentOf? c with
    | none => rfl
    | some existing =>
      obtain ⟨-, hscope, hnoscope⟩ := (not_isPlaced hplaced).2 existing hexisting
      simp [hscope, hnoscope]

theorem parentOf?_link_of_ne (h : p.Tree) (ha : (p.get? a).isSome) (hc : (p.get? c).isSome)
    (hother : ¬ (c = i ∧ a ≠ i)) : (p.link a c).parentOf? i = p.parentOf? i := by
  by_cases hplaced : p.IsPlaced a c
  · rw [link_of_isPlaced h hplaced]
  · rw [parentOf?_link_of_not_isPlaced ha hc hplaced, if_neg]
    rintro rfl
    exact hother ⟨rfl, (not_isPlaced hplaced).1⟩

/-- Where every node has its seat, so it has when one more is placed. -/
theorem parentOf?_link_eq_seat? (h : p.Tree) (ha : (p.get? a).isSome) (hc : (p.get? c).isSome)
    (hseat : ∀ i, p.parentOf? i = p.seat? links i) (i : ProjectedId) :
    (p.link a c).parentOf? i = (p.link a c).seat? (links ++ [(a, c)]) i := by
  have hsame : (p.link a c).seat? (links ++ [(a, c)]) i = p.seat? (links ++ [(a, c)]) i :=
    seat?_congr fun _ _ => isScopeOf_congr (name?_link p a c _) (name?_link p a c _)
  rw [hsame]
  by_cases hself : c = i ∧ a ≠ i
  · obtain ⟨rfl, hne⟩ := hself
    rw [parentOf?_link_self h ha hc hne, seat?_append p links hne, hseat]
  · rw [parentOf?_link_of_ne h ha hc hself, hseat, seat?, seat?, listers_append, if_neg hself]

/-! ## All nodes in their seats -/

/-- Every node is found in its seat. The root has none, and each other node is placed first below a
node that is projected before it. -/
structure Planted (p : Projection) (links : List (ProjectedId × ProjectedId)) : Prop where
  root : p.name? ⟨0⟩ = some ""
  parent : ∀ i, p.parentOf? i = p.seat? links i
  mem : ∀ a i, (a, i) ∈ links → (p.get? a).isSome ∧ (p.get? i).isSome ∧ i ≠ ⟨0⟩
  first : ∀ i a, (listers links i).head? = some a → a.index < i.index
  listed : ∀ i, (p.get? i).isSome → i ≠ ⟨0⟩ → listers links i ≠ []

/-- A root alone is in its seat. -/
theorem planted_root (hname : node.fullName = "") (hparent : node.parent = none) :
    (upsert {} node).2.Planted [] := by
  have hfirst : (upsert {} node).1 = ⟨0⟩ := by simp [upsert, lookupId?]
  refine ⟨?_, fun i => ?_, by simp, by simp [listers], fun i hi hne => ?_⟩
  · rw [← hfirst, name?, label?_upsert_self named_empty, ← hname]
    rfl
  · rw [parentOf?_upsert hparent]
    simp [parentOf?, get?, seat?, listers]
  · rcases get?_upsert_cases {} node i with hget | ⟨-, -, heq, -⟩ | ⟨-, heq, -⟩
    · rw [hget] at hi
      simp [get?] at hi
    · exact absurd (heq.trans hfirst) hne
    · exact absurd (heq.trans hfirst) hne

/-- A node that is not there is stored behind all that are. -/
theorem index_lt_of_get? (ha : (p.get? a).isSome) (hc : p.get? c = none) : a.index < c.index := by
  obtain ⟨hlt, -⟩ := Array.getElem?_eq_some_iff.1 (Option.eq_some_of_isSome ha)
  exact hlt.trans_le (Array.getElem?_eq_none_iff.1 hc)

theorem fst_upsert_ne_root (hnamed : p.Named) (h : p.name? ⟨0⟩ = some "")
    (hname : node.fullName ≠ "") : (p.upsert node).1 ≠ ⟨0⟩ := by
  intro heq
  have hstored : (p.upsert node).2.name? (p.upsert node).1 = some node.fullName := by
    rw [name?, label?_upsert_self hnamed]
    rfl
  rw [heq, name?_upsert hnamed h] at hstored
  exact hname (Option.some.inj hstored).symm

/-- A pair that is stored and placed keeps every node in its seat. -/
theorem Planted.link_upsert (h : p.Planted links) (htree : p.Tree) (hnamed : p.Named)
    (ha : (p.get? a).isSome) (hname : node.fullName ≠ "") (hchildren : node.children = [])
    (hparent : node.parent = none) :
    ((p.upsert node).2.link a (p.upsert node).1).Planted (links ++ [(a, (p.upsert node).1)]) := by
  have hstored : ((p.upsert node).2.get? (p.upsert node).1).isSome :=
    isSome_get?_upsert_self hnamed node
  have hroot := fst_upsert_ne_root hnamed h.root hname
  -- What has been there has been placed, so that what has not been placed is new.
  have hknown : (p.get? (p.upsert node).1).isSome → listers links (p.upsert node).1 ≠ [] :=
    fun hc => h.listed _ hc hroot
  have hindex : listers links (p.upsert node).1 = [] → a.index < (p.upsert node).1.index :=
    fun hnone => index_lt_of_get? ha (by simpa [hnone] using hknown)
  refine ⟨?_, ?_, ?_, ?_, ?_⟩
  · rw [name?_link, name?_upsert hnamed h.root]
  · have hqtree := htree.upsert hchildren hparent
    refine parentOf?_link_eq_seat? hqtree (isSome_get?_upsert ha) hstored fun i => ?_
    rw [parentOf?_upsert hparent, h.parent]
    refine seat?_congr fun b hb => ?_
    obtain ⟨hb', hi, -⟩ := h.mem b i (mem_listers.1 hb).1
    exact (isScopeOf_congr (name?_upsert_of_isSome hnamed node hb')
      (name?_upsert_of_isSome hnamed node hi)).symm
  · intro b i hlink
    rw [isSome_get?_link, isSome_get?_link]
    rcases List.mem_append.1 hlink with hlink | hlink
    · obtain ⟨hb, hi, hne⟩ := h.mem b i hlink
      exact ⟨isSome_get?_upsert hb, isSome_get?_upsert hi, hne⟩
    · obtain ⟨rfl, rfl⟩ := Prod.mk.inj (List.mem_singleton.1 hlink)
      exact ⟨isSome_get?_upsert ha, hstored, hroot⟩
  · intro i b hfirst
    rcases head?_listers_append hfirst with hfirst | ⟨hnone, rfl, rfl⟩
    · exact h.first i b hfirst
    · exact hindex hnone
  · intro i hi hne
    rw [listers_append]
    split
    · simp
    · next hother =>
      rw [isSome_get?_link] at hi
      rcases p.get?_upsert_cases node i with hget | ⟨old, hold, -, -⟩ | ⟨hnew, rfl, -⟩
      · exact h.listed i (hget ▸ hi) hne
      · exact h.listed i (Option.isSome_of_mem hold) hne
      · refine absurd ⟨rfl, ?_⟩ hother
        rintro rfl
        simp [hnew] at ha

theorem Planted.parentOf?_root (h : p.Planted links) : p.parentOf? ⟨0⟩ = none := by
  rw [h.parent, Option.eq_none_iff_forall_ne_some]
  intro a ha
  exact (h.mem a _ (mem_listers.1 (mem_listers_of_seat? ha)).1).2.2 rfl

/-- Every other node has a parent, which is projected as well. -/
theorem Planted.exists_parent (h : p.Planted links) (hi : (p.get? i).isSome) (hne : i ≠ ⟨0⟩) :
    ∃ a, p.parentOf? i = some a := by
  have hlisted := h.listed i hi hne
  rw [← Option.isSome_iff_exists, h.parent, seat?, Option.isSome_or, Bool.or_eq_true]
  exact .inr (List.isSome_head?.2 hlisted)

theorem Planted.isSome_get?_parent (h : p.Planted links) (ha : p.parentOf? i = some a) :
    (p.get? a).isSome :=
  (h.mem a i (mem_listers.1 (mem_listers_of_seat? (h.parent i ▸ ha))).1).1

/-! ## The way home -/

/-- The node at the second position is the parent of that at the first one. -/
def ParentOf (p : Projection) (i j : ProjectedId) : Prop :=
  p.parentOf? i = some j

/-- The parents lead to the global namespace. -/
def LeadsHome (p : Projection) (i : ProjectedId) : Prop :=
  ∃ root, p.name? root = some "" ∧ ReflTransGen p.ParentOf i root

/-- The node is found below the scope of its name, which is projected later and lies below the node
itself. -/
def Uprooted (p : Projection) (i : ProjectedId) : Prop :=
  ∃ scope, p.ParentOf i scope ∧ p.isScopeOf scope i = true ∧ i.index < scope.index ∧
    ReflTransGen p.ParentOf scope i

theorem rightUnique_parentOf (p : Projection) : Relator.RightUnique p.ParentOf :=
  fun _ _ _ hj hj' => Option.some.inj (hj.symm.trans hj')

/-- On a cycle of parents the way leads back. -/
theorem reaches_back (hd : p.ParentOf d j) (hback : ReflTransGen p.ParentOf j d)
    (hreach : ReflTransGen p.ParentOf d i) : ReflTransGen p.ParentOf i d := by
  induction hreach with
  | refl => exact .refl
  | tail _ hstep ih =>
    rcases ReflTransGen.cases_head ih with rfl | ⟨next, hnext, hrest⟩
    · rwa [rightUnique_parentOf p hstep hd]
    · rwa [rightUnique_parentOf p hstep hnext]

/-- Where each node that is reached has a parent, the parents go on without end. -/
theorem exists_way (hnext : ∀ j, ReflTransGen p.ParentOf i j → ∃ a, p.ParentOf j a) :
    ∃ way : ℕ → ProjectedId, way 0 = i ∧ ∀ k, p.ParentOf (way k) (way (k + 1)) := by
  let next : ProjectedId → ProjectedId := fun j => (p.parentOf? j).getD j
  have hparent : ∀ j, ReflTransGen p.ParentOf i j → p.ParentOf j (next j) := by
    intro j hj
    obtain ⟨a, ha⟩ := hnext j hj
    rwa [show next j = a by simp [next, show p.parentOf? j = some a from ha]]
  have hreach : ∀ k, ReflTransGen p.ParentOf i (next^[k] i) := by
    intro k
    induction k with
    | zero => exact .refl
    | succ k ih =>
      rw [Function.iterate_succ_apply']
      exact ih.tail (hparent _ ih)
  refine ⟨fun k => next^[k] i, rfl, fun k => ?_⟩
  dsimp only
  rw [Function.iterate_succ_apply']
  exact hparent _ (hreach k)

theorem reaches_of_le {way : ℕ → ProjectedId} (hway : ∀ k, p.ParentOf (way k) (way (k + 1)))
    {k l : ℕ} (hle : k ≤ l) : ReflTransGen p.ParentOf (way k) (way l) := by
  induction l, hle using Nat.le_induction with
  | base => exact .refl
  | succ l _ ih => exact ih.tail (hway l)

/-- A way without end comes to a cycle, and on it to the node that was projected first. -/
theorem exists_cycle (hnext : ∀ j, ReflTransGen p.ParentOf i j → ∃ a, p.ParentOf j a) :
    ∃ d a, ReflTransGen p.ParentOf i d ∧ p.ParentOf d a ∧ d.index ≤ a.index ∧
      ReflTransGen p.ParentOf a d := by
  obtain ⟨way, rfl, hway⟩ := exists_way hnext
  have hlt : ∀ k, (way k).index < p.nodes.size := by
    intro k
    obtain ⟨n, hn, -⟩ := Option.bind_eq_some_iff.1 (hway k)
    exact (Array.getElem?_eq_some_iff.1 hn).1
  -- The way is longer than there are nodes, so that it meets one again.
  obtain ⟨k, l, hkl, hsame⟩ : ∃ k l, k < l ∧ way k = way l := by
    obtain ⟨k, l, hne, heq⟩ := Finite.exists_ne_map_eq_of_infinite
      fun k => (⟨(way k).index, hlt k⟩ : Fin p.nodes.size)
    have hsame : way k = way l := eq_of_index (Fin.mk.inj heq)
    rcases Nat.lt_or_gt_of_ne hne with hkl | hkl
    · exact ⟨k, l, hkl, hsame⟩
    · exact ⟨l, k, hkl, hsame.symm⟩
  obtain ⟨first, hfirst, hmin⟩ := (Finset.Ico k l).exists_min_image (fun n => (way n).index)
    ⟨k, Finset.mem_Ico.2 ⟨le_rfl, hkl⟩⟩
  obtain ⟨hlower, hupper⟩ := Finset.mem_Ico.1 hfirst
  refine ⟨way first, way (first + 1), reaches_of_le hway (Nat.zero_le first), hway first, ?_, ?_⟩
  · rcases Nat.lt_or_ge (first + 1) l with hlater | hlast
    · exact hmin (first + 1) (Finset.mem_Ico.2 ⟨by omega, hlater⟩)
    · rw [show first + 1 = l by omega, ← hsame]
      exact hmin k (Finset.mem_Ico.2 ⟨le_rfl, hkl⟩)
  · have hround : ReflTransGen p.ParentOf (way (first + 1)) (way k) :=
      hsame ▸ reaches_of_le hway (show first + 1 ≤ l by omega)
    exact hround.trans (reaches_of_le hway hlower)

/-- The node of a cycle that was projected first has left the place that it was given first, so that
it is uprooted. -/
theorem Planted.uprooted_of_cycle (h : p.Planted links) (htree : p.Tree) (ha : p.ParentOf d a)
    (hle : d.index ≤ a.index) (hback : ReflTransGen p.ParentOf a d) : p.Uprooted d := by
  have hseat : p.seat? links d = some a := (h.parent d).symm.trans ha
  refine ⟨a, ha, isScopeOf_of_seat? hseat ?_, ?_, hback⟩
  · intro hfirst
    exact absurd (h.first d a hfirst) (Nat.not_lt.2 hle)
  · refine lt_of_le_of_ne hle fun heq => ?_
    obtain rfl := eq_of_index heq
    exact htree.irrefl d ha

/-- From a node that is uprooted no way leads home, since all that it leads to is on the cycle. -/
theorem Planted.not_leadsHome_of_uprooted (h : p.Planted links) (hnamed : p.Named)
    (hd : ReflTransGen p.ParentOf i d) (huprooted : p.Uprooted d) : ¬ p.LeadsHome i := by
  rintro ⟨root, hroot, hreach⟩
  obtain ⟨scope, hscope, -, -, hback⟩ := huprooted
  obtain rfl : root = ⟨0⟩ := eq_of_name? hnamed hroot h.root
  have hend : ∀ j, ¬ p.ParentOf ⟨0⟩ j := fun j hj => by
    simpa [h.parentOf?_root] using (show p.parentOf? ⟨0⟩ = some j from hj)
  have hcycle : ReflTransGen p.ParentOf ⟨0⟩ d := by
    rcases ReflTransGen.total_of_right_unique (rightUnique_parentOf p) hd hreach with hdown | hup
    · exact reaches_back hscope hback hdown
    · exact hup
  rcases ReflTransGen.cases_head hcycle with rfl | ⟨j, hj, -⟩
  · exact hend scope hscope
  · exact hend j hj

/-- A node leads home if and only if none that it leads to is uprooted. -/
theorem Planted.leadsHome_iff (h : p.Planted links) (htree : p.Tree) (hnamed : p.Named)
    (hi : (p.get? i).isSome) :
    p.LeadsHome i ↔ ∀ d, ReflTransGen p.ParentOf i d → ¬ p.Uprooted d := by
  constructor
  · exact fun hhome d hd huprooted => h.not_leadsHome_of_uprooted hnamed hd huprooted hhome
  · intro hrooted
    by_contra hlost
    have hsome : ∀ j, ReflTransGen p.ParentOf i j → (p.get? j).isSome := by
      intro j hj
      rcases ReflTransGen.cases_tail hj with rfl | ⟨k, -, hk⟩
      · exact hi
      · exact h.isSome_get?_parent hk
    obtain ⟨d, a, hd, ha, hle, hback⟩ := exists_cycle fun j hj => by
      refine h.exists_parent (hsome j hj) ?_
      rintro rfl
      exact hlost ⟨⟨0⟩, h.root, hj⟩
    exact hrooted d hd (h.uprooted_of_cycle htree ha hle hback)

end Projection

end TypeAtlas
