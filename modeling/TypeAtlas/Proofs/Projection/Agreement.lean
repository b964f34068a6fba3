import TypeAtlas.Proofs.Projection.Nesting
import TypeAtlas.Proofs.Projection.Repetition
import TypeAtlas.Proofs.Projection.Uprooting

/-!
# Where nothing is lost

What becomes of a node in a projection is known exactly from the pairs that are stored on the way.
Where both universes are trees of names, this can be told from the two graphs alone: the projection
is the union of both trees, so that each reachable node is the side of exactly one projected node,
nodes of one name are paired and no others, and the parents of each projected node lead to the
global namespace. Each pair is completed with all nodes of its name at any time, so that nothing
changes when the global namespaces are merged again.

The main statements are `Merger.faithful_of_nests` and `Merger.idempotent_of_nests`.
-/

namespace TypeAtlas

open Relation (ReflTransGen)

namespace Merger

variable {graph : Side → TypeGraph} {p : Projection} {side : Side} {m : Merger} {s : Sides}
  {i : ProjectedId}

/-! ## The union of two trees -/

namespace UnionTree

variable (h : UnionTree graph p)

include h

theorem covers (hsound : (graph side).Sound) : Covers p side (graph side) := by
  intro n hn
  obtain ⟨i, q, hq, hname⟩ := (h.name n.fullName).2 ⟨side, n, hn, rfl⟩
  refine ⟨i, ⟨q, hq, (h.sides i q side n.id hq).2 ⟨n, hn, hname.symm, rfl⟩⟩, ?_⟩
  rintro j ⟨q', hq', hside⟩
  obtain ⟨n', hn', hname', hid⟩ := (h.sides j q' side n.id hq').1 hside
  have hget := hn'.get?_id hsound
  rw [hid, hn.get?_id hsound] at hget
  obtain rfl := Option.some.inj hget
  exact h.unique j i q' q hq' hq (hname'.symm.trans hname.symm)

theorem pairsNames (hsound : ∀ side, (graph side).Sound) :
    PairsNames p (graph .native) (graph .managed) := by
  intro i q a b hq ha hb
  obtain ⟨x, hx, hxname, rfl⟩ := (h.sides i q .native a hq).1 ha
  obtain ⟨y, hy, hyname, rfl⟩ := (h.sides i q .managed b hq).1 hb
  exact ⟨x, y, hx.get?_id (hsound .native), hy.get?_id (hsound .managed),
    congrArg Text.lowercase (hxname.trans hyname.symm)⟩

theorem pairsNamesakes (hnamed : p.Named) :
    PairsNamesakes p (graph .native) (graph .managed) := by
  intro x y hx hy hsame
  obtain ⟨i, q, hq, hname⟩ := (h.name x.fullName).2 ⟨.native, x, hx, rfl⟩
  exact ⟨q, hname ▸ Projection.lookup?_of_named hnamed hq,
    (h.sides i q .native x.id hq).2 ⟨x, hx, hname.symm, rfl⟩,
    (h.sides i q .managed y.id hq).2 ⟨y, hy, hsame.symm.trans hname.symm, rfl⟩⟩

/-- Each parent has a shorter name, so that the parents end at the empty one. -/
theorem leadsHome (hi : (p.get? i).isSome) : p.LeadsHome i := by
  obtain ⟨q, hq⟩ := Option.isSome_iff_exists.1 hi
  induction hlength : q.fullName.length using Nat.strong_induction_on generalizing i q with
  | _ length ih =>
    by_cases hroot : q.fullName = ""
    · exact ⟨i, (Projection.name?_of_get? hq).trans (congrArg some hroot), .refl⟩
    · obtain ⟨j, above, hparent, habove, hscope⟩ := h.parent i q hq hroot
      have hshorter : above.fullName.length < length := by
        rw [hscope, ← hlength]
        exact Name.length_scope?_lt hroot
      obtain ⟨root, hname, hway⟩ :=
        ih _ hshorter (Option.isSome_of_mem habove) above habove rfl
      have hstep : p.ParentOf i j := (Projection.parentOf?_of_get? hq).trans hparent
      exact ⟨root, hname, .head hstep hway⟩

end UnionTree

section Nested

variable (hgraph : ∀ side, (graph side).Navigable) (h : Nests graph)

include hgraph h

/-- Two universes that are trees of names are projected without loss: each reachable node is the
side of exactly one projected node, what is paired has one name, nodes of one name are paired, and
the parents of each projected node lead to the global namespace. -/
theorem faithful_of_nests (settings : ProjectionSettings) :
    ∃ p, project settings (graph .native) (graph .managed) = .ok p ∧
      (∀ side, Covers p side (graph side)) ∧ PairsNames p (graph .native) (graph .managed) ∧
      PairsNamesakes p (graph .native) (graph .managed) ∧
      ∀ i, (p.get? i).isSome → p.LeadsHome i := by
  obtain ⟨p, hp, hprojected⟩ := isProjected_of_navigable (hgraph .native) (hgraph .managed)
  have hunion : UnionTree graph p := unionTree_of_nests hgraph h hp
  exact ⟨p, hp, fun side => hunion.covers (hgraph side).id,
    hunion.pairsNames fun side => (hgraph side).id, hunion.pairsNamesakes hprojected.named,
    fun i hi => hunion.leadsHome hi⟩

/-! ## Merging again -/

/-- A pair is completed with all nodes of its name, now as in the end. -/
theorem foreseen_of_nests (hempty : m.projection = {}) (hm : ∀ side, side.graph m = graph side)
    (hs : m.pair .global .global = .ok s) : m.Foreseen s := by
  obtain ⟨a, b, ha, hb, rfl⟩ := exists_of_pair hs
  rw [show m.native = graph .native from hm .native] at ha
  rw [show m.managed = graph .managed from hm .managed] at hb
  set root : Sides := { native := some a, managed := some b }
  obtain ⟨hroot, hname⟩ := h.joins_root hgraph ha hb
  obtain ⟨hgrown, hawaits⟩ := grown_store hgraph h hempty hm hroot hname rfl
  obtain ⟨hfinal, hmoments⟩ := grown_run hgraph h (m.allNames.erase root.name) hgrown
    (fun side => (graph_store side m root).trans (hm side)) hawaits
  refine ⟨rfl, fun moment hmoment => ?_⟩
  obtain ⟨hp, hm', name, ht⟩ := hmoments moment hmoment
  have hspread : ∀ side, side.graph (m.spread root) = graph side := fun side =>
    (graph_spread side m root).trans (hm side)
  obtain ⟨hjoins, hjoinsName⟩ := ht.joins hgraph h hm' hp
  obtain ⟨hjoins', hjoinsName'⟩ := ht.toMeets.joins hgraph h hspread hfinal
  exact hjoins'.eq hjoins (hjoinsName'.trans hjoinsName.symm)

/-- Where two universes are trees of names, their global namespaces can be merged with all that lies
below them, and nothing changes when this is done again. -/
theorem idempotent_of_nests (settings : ProjectionSettings) :
    let m : Merger := { settings, native := graph .native, managed := graph .managed }
    ∃ id first second, m.mergeNamespaces .global .global = (.ok id, first) ∧
      first.mergeNamespaces .global .global = (.ok id, second) ∧
      second.projection = first.projection := by
  intro m
  obtain ⟨a, ha, -⟩ := (hgraph .native).global
  obtain ⟨b, hb, -⟩ := (hgraph .managed).global
  have hpair : m.pair .global .global = .ok { native := some a, managed := some b } :=
    pair_of_get? ha hb
  have hm : ∀ side, side.graph m = graph side := fun side => by cases side <;> rfl
  have hkept : m.Kept := ⟨fun side => hm side ▸ (hgraph side).id, Projection.kept_empty⟩
  have hs := genuine_of_pair hkept.sound hpair
  obtain ⟨hfirst, hsecond⟩ := hkept.mergeNamespaces_twice hpair
  refine ⟨_, _, _, hfirst, hsecond, ?_⟩
  refine (hkept.spread_spread_eq_iff (composed_of_empty rfl) hs).2 ?_
  exact (foreseen_of_nests hgraph h rfl hm hpair).settled hkept hs

end Nested

end Merger

end TypeAtlas
