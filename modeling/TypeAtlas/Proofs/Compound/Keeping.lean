import Std.Data.TreeMap.Lemmas
import TypeAtlas.Compound.Cache
import TypeAtlas.Proofs.Compound.Reading
import TypeAtlas.Proofs.Registry.Gathering

/-!
# Compounds that are kept

A record leads to a compound of its own, which has all the members that are part of an interface.
Of several compounds with one identifier the first one is kept, and nothing but its links to parents
and children is changed after that.

## Main definitions

* `Compound.unlinked` — a compound without these links.
* `NativeRecord.Owns` — the compound of its own that a record leads to.

The main statements are `CompoundCache.unlinked_attachChildren` and `NativeRecord.owns_of_build`.
-/

namespace TypeAtlas

/-! ## Links -/

namespace Compound

/-- The compound without its links to what holds it and to what it holds. -/
def unlinked (c : Compound) : Compound :=
  { c with parentName := none, childNames := [] }

end Compound

open Compound (unlinked)

namespace Registry

variable {cs ds : List Compound}

theorem unlinked_merge (c d : Compound) : (merge c d).unlinked = merge c.unlinked d.unlinked := by
  simp only [merge, Compound.unlinked, unionNames, List.foldl_nil]
  rfl

theorem unlinked_foldl_merge (c : Compound) (cs : List Compound) :
    (cs.foldl merge c).unlinked = (cs.map unlinked).foldl merge c.unlinked := by
  induction cs generalizing c with
  | nil => rfl
  | cons d cs ih => rw [List.foldl_cons, ih, unlinked_merge, List.map_cons, List.foldl_cons]

theorem unlinked_gather? (cs : List Compound) :
    (gather? cs).map unlinked = gather? (cs.map unlinked) := by
  cases cs with
  | nil => rfl
  | cons c cs => exact congrArg some (unlinked_foldl_merge c cs)

theorem unlinked_named (cs : List Compound) (name : String) :
    (named cs name).map unlinked = named (cs.map unlinked) name := by
  rw [named, named, List.filter_map]
  rfl

/-- Links do not matter for what the compounds of a name are merged into, links apart. -/
theorem gather?_congr (h : cs.map unlinked = ds.map unlinked) (name : String) :
    (gather? (named cs name)).map unlinked = (gather? (named ds name)).map unlinked := by
  rw [unlinked_gather?, unlinked_gather?, unlinked_named, unlinked_named, h]

end Registry

namespace CompoundCache

variable {cache : CompoundCache} {c : Compound} {id : String}

theorem unlinked_modify {f : Compound → Compound} (hf : ∀ c, (f c).unlinked = c.unlinked)
    (nodes : List Compound) (position : Nat) :
    (nodes.modify position f).map unlinked = nodes.map unlinked := by
  apply List.ext_getElem?
  intro i
  rw [List.getElem?_map, List.getElem?_map, List.getElem?_modify]
  cases nodes[i]? with
  | none => rfl
  | some c =>
    dsimp only [Option.map_some, Functor.map]
    split
    · rw [hf]
    · rfl

theorem unlinked_adopt (state : Nat × CompoundCache) (claim : Claim) :
    (adopt state claim).2.nodes.map unlinked = state.2.nodes.map unlinked := by
  unfold adopt
  dsimp only
  split
  · rfl
  · split
    · rfl
    · split
      · rfl
      · apply unlinked_modify
        exact fun _ => rfl

theorem unlinked_list (cache : CompoundCache) (entry : Compound × Nat) :
    (cache.list entry).nodes.map unlinked = cache.nodes.map unlinked := by
  unfold list
  dsimp only
  split
  · rfl
  · split
    · rfl
    · apply unlinked_modify
      exact fun _ => rfl

theorem unlinked_foldl_adopt (claims : List Claim) (state : Nat × CompoundCache) :
    (claims.foldl adopt state).2.nodes.map unlinked = state.2.nodes.map unlinked := by
  induction claims generalizing state with
  | nil => rfl
  | cons claim claims ih => rw [List.foldl_cons, ih, unlinked_adopt]

theorem unlinked_foldl_list (entries : List (Compound × Nat)) (cache : CompoundCache) :
    (entries.foldl list cache).nodes.map unlinked = cache.nodes.map unlinked := by
  induction entries generalizing cache with
  | nil => rfl
  | cons entry entries ih => rw [List.foldl_cons, ih, unlinked_list]

/-- Bringing parents and children into agreement changes nothing but the links. -/
theorem unlinked_attachChildren (cache : CompoundCache) :
    cache.attachChildren.2.nodes.map unlinked = cache.nodes.map unlinked := by
  unfold attachChildren
  dsimp only
  rw [unlinked_foldl_list, unlinked_foldl_adopt]

/-! ## Identifiers -/

theorem contains_insert (cache : CompoundCache) (c : Compound) (id : String) :
    (cache.insert c).2.contains id = (c.id == id || cache.contains id) := by
  unfold insert
  split
  · next hknown =>
    by_cases hsame : c.id = id
    · subst hsame
      simp [hknown]
    · simp [hsame]
  · rw [contains, Std.TreeMap.contains_insert, Bool.eq_iff_iff]
    simp [contains]

theorem nodes_insert (cache : CompoundCache) (c : Compound) :
    (cache.insert c).2.nodes =
      if cache.contains c.id then cache.nodes else cache.nodes ++ [c] := by
  unfold insert
  split <;> rfl

theorem contains_insertAll (cs : List Compound) (h : (cache.insertAll cs).contains id = true) :
    cache.contains id = true ∨ ∃ c ∈ cs, c.id = id := by
  induction cs generalizing cache with
  | nil => exact .inl h
  | cons c cs ih =>
    rcases ih h with hinsert | ⟨d, hd, hid⟩
    · rw [contains_insert, Bool.or_eq_true, beq_iff_eq] at hinsert
      exact hinsert.symm.imp_right fun hid => ⟨c, List.mem_cons_self, hid⟩
    · exact .inr ⟨d, List.mem_cons_of_mem c hd, hid⟩

theorem mem_insertAll_of_mem (h : c ∈ cache.nodes) (cs : List Compound) :
    c ∈ (cache.insertAll cs).nodes := by
  induction cs generalizing cache with
  | nil => exact h
  | cons d cs ih =>
    apply ih
    rw [nodes_insert]
    split
    · exact h
    · exact List.mem_append_left _ h

/-- The first compound with an identifier is kept. -/
theorem mem_insertAll {before : List Compound} (h : ∀ b ∈ before, b.id ≠ c.id)
    (after : List Compound) :
    c ∈ (({} : CompoundCache).insertAll (before ++ c :: after)).nodes := by
  have hnew : (({} : CompoundCache).insertAll before).contains c.id = false := by
    rw [Bool.eq_false_iff]
    intro hcontains
    rcases contains_insertAll before hcontains with hempty | ⟨b, hb, hid⟩
    · simp [contains] at hempty
    · exact h b hb hid
  have hsplit : ({} : CompoundCache).insertAll (before ++ c :: after) =
      ((({} : CompoundCache).insertAll before).insert c).2.insertAll after := by
    rw [insertAll, List.foldl_append]
    rfl
  rw [hsplit]
  apply mem_insertAll_of_mem
  simp [nodes_insert, hnew]

end CompoundCache

/-! ## Records -/

namespace NativeRecord

variable {parser : DeclarationParser} {r : NativeRecord} {c : Compound} {nested : List Compound}
  {reports : Diagnostics}

/-- The compound of its own that a record leads to. -/
structure Owns (parser : DeclarationParser) (r : NativeRecord) (c : Compound) : Prop where
  id : c.id = r.id
  kind : foldNativeKind? r.kind = some c.kind
  fullName : ∃ rawName, r.rawName? = .ok rawName ∧ c.fullName = fullNameOf rawName
  baseNames : c.baseNames = nonBlankNames r.baseNames
  members : c.kind.isComposite = true → c.members = readMembers parser c r.members

/-- The first compound of a record is its own. -/
theorem owns_of_build (h : r.build parser = .ok (c :: nested, reports)) : r.Owns parser c := by
  rcases cases_of_build h with ⟨-, hnone, -⟩ | ⟨kind, rawName, hkind, hname, -, hcompounds, -⟩
  · simp at hnone
  · obtain ⟨rfl, -⟩ := List.cons.inj hcompounds
    refine ⟨rfl, hkind, ⟨rawName, hname, rfl⟩, rfl, fun hcomposite => ?_⟩
    have hmembers : (r.outline kind rawName (fullNameOf rawName)).members = [] := rfl
    exact NativeDraft.members_ofParts_of_isComposite hmembers hcomposite r.members

end NativeRecord

end TypeAtlas
