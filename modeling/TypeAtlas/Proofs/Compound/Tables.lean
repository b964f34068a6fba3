import Std.Data.TreeMap.Lemmas
import TypeAtlas.Proofs.Compound.Keeping

/-!
# The tables of a cache

A cache finds its compounds by their ids and by their names in two tables. Whatever is done to it,
either table leads to the first compound that has an id or a name: what is new goes behind all other
compounds, and bringing parents and children together changes neither names nor positions.

## Main definitions

* `CompoundCache.Indexed` — the tables are in step with the compounds.
* `CompoundCache.Change`, `CompoundCache.applyAll` — what is done to a cache, one after another.

The main statement is `CompoundCache.indexed_applyAll`.
-/

namespace TypeAtlas

open Compound (unlinked)

namespace CompoundCache

variable {cache before after : CompoundCache} {c : Compound} {i : Nat} {name : String}

/-- The tables are in step with the compounds: an id and a name lead to the first compound that has
it. -/
structure Indexed (cache : CompoundCache) : Prop where
  byId : ∀ id, cache.byId[id]? = cache.nodes.findIdx? (·.id == id)
  byName : ∀ name, cache.byName[name]? = cache.nodes.findIdx? (·.fullName == name)

theorem indexed_empty : ({} : CompoundCache).Indexed where
  byId _ := Std.TreeMap.getElem?_emptyc
  byName _ := Std.TreeMap.getElem?_emptyc

/-! ## One more compound -/

/-- Behind all others a compound is the first one with a key if no other one has it. -/
theorem findIdx?_concat {key : Compound → String} (nodes : List Compound) (c : Compound)
    (name : String) : (nodes ++ [c]).findIdx? (key · == name) =
      (nodes.findIdx? (key · == name)).or (if key c = name then some nodes.length else none) := by
  rw [List.findIdx?_append, List.findIdx?_singleton]
  by_cases hkey : key c = name
  · simp [hkey]
  · simp [hkey]

theorem Indexed.insert (h : cache.Indexed) (c : Compound) : (cache.insert c).2.Indexed := by
  unfold CompoundCache.insert
  split
  · exact h
  · next hnew =>
    have hid : cache.byId[c.id]? = none := by
      rwa [contains, Std.TreeMap.contains_eq_isSome_getElem?, Option.not_isSome_iff_eq_none] at hnew
    constructor
    · intro id
      rw [findIdx?_concat, ← h.byId, Std.TreeMap.getElem?_insert]
      by_cases hsame : c.id = id
      · subst hsame
        simp [hid]
      · simp [hsame]
    · intro name
      rw [findIdx?_concat, ← h.byName, Std.TreeMap.getElem?_insertIfNew]
      by_cases hsame : c.fullName = name
      · subst hsame
        cases hheld : cache.byName[c.fullName]? with
        | none => simp [Std.TreeMap.mem_iff_isSome_getElem?, hheld]
        | some i => simp [Std.TreeMap.mem_iff_isSome_getElem?, hheld]
      · simp [hsame]

/-! ## Parents and children -/

/-- The tables say nothing of links. -/
theorem Indexed.congr (h : before.Indexed)
    (hnodes : after.nodes.map unlinked = before.nodes.map unlinked)
    (hid : after.byId = before.byId) (hname : after.byName = before.byName) : after.Indexed := by
  have hfind {p : Compound → Bool} (hp : ∀ c, p c.unlinked = p c) (cache : CompoundCache) :
      cache.nodes.findIdx? p = (cache.nodes.map unlinked).findIdx? p := by
    rw [List.findIdx?_map]
    exact congrArg (cache.nodes.findIdx? ·) (funext fun c => (hp c).symm)
  constructor
  · intro id
    rw [hid, h.byId, hfind (fun _ => rfl), ← hnodes, ← hfind fun _ => rfl]
  · intro name
    rw [hname, h.byName, hfind (fun _ => rfl), ← hnodes, ← hfind fun _ => rfl]

theorem tables_adopt (state : Nat × CompoundCache) (claim : Claim) :
    (adopt state claim).2.byId = state.2.byId ∧ (adopt state claim).2.byName = state.2.byName := by
  unfold adopt
  dsimp only
  split
  · exact ⟨rfl, rfl⟩
  · split
    · exact ⟨rfl, rfl⟩
    · split <;> exact ⟨rfl, rfl⟩

theorem tables_list (cache : CompoundCache) (entry : Compound × Nat) :
    (cache.list entry).byId = cache.byId ∧ (cache.list entry).byName = cache.byName := by
  unfold list
  dsimp only
  split
  · exact ⟨rfl, rfl⟩
  · split <;> exact ⟨rfl, rfl⟩

theorem tables_foldl_adopt (claims : List Claim) (state : Nat × CompoundCache) :
    (claims.foldl adopt state).2.byId = state.2.byId ∧
      (claims.foldl adopt state).2.byName = state.2.byName := by
  induction claims generalizing state with
  | nil => exact ⟨rfl, rfl⟩
  | cons claim claims ih =>
    obtain ⟨hid, hname⟩ := ih (adopt state claim)
    exact ⟨hid.trans (tables_adopt state claim).1, hname.trans (tables_adopt state claim).2⟩

theorem tables_foldl_list (entries : List (Compound × Nat)) (cache : CompoundCache) :
    (entries.foldl list cache).byId = cache.byId ∧
      (entries.foldl list cache).byName = cache.byName := by
  induction entries generalizing cache with
  | nil => exact ⟨rfl, rfl⟩
  | cons entry entries ih =>
    obtain ⟨hid, hname⟩ := ih (cache.list entry)
    exact ⟨hid.trans (tables_list cache entry).1, hname.trans (tables_list cache entry).2⟩

/-- Bringing parents and children into agreement changes no table. -/
theorem tables_attachChildren (cache : CompoundCache) :
    cache.attachChildren.2.byId = cache.byId ∧
      cache.attachChildren.2.byName = cache.byName := by
  unfold attachChildren
  dsimp only
  obtain ⟨hid, hname⟩ := tables_foldl_adopt cache.claims (0, cache)
  obtain ⟨hid', hname'⟩ := tables_foldl_list
    (cache.claims.foldl adopt (0, cache)).2.nodes.zipIdx (cache.claims.foldl adopt (0, cache)).2
  exact ⟨hid'.trans hid, hname'.trans hname⟩

theorem Indexed.attachChildren (h : cache.Indexed) : cache.attachChildren.2.Indexed :=
  have ⟨hid, hname⟩ := tables_attachChildren cache
  h.congr (unlinked_attachChildren cache) hid hname

/-! ## Looking up -/

/-- The compound with an id is found as it would be among all compounds. -/
theorem Indexed.get?_eq_find? (h : cache.Indexed) (id : String) :
    cache.get? id = cache.nodes.find? (·.id == id) := by
  rw [get?, h.byId, List.find?_eq_bind_findIdx?_getElem?]

theorem holder?_foldl_adopt (claims : List Claim) (state : Nat × CompoundCache) (name : String) :
    (claims.foldl adopt state).2.holder? name = state.2.holder? name :=
  congrArg (·[name]?) (tables_foldl_adopt claims state).2

theorem holder?_foldl_list (entries : List (Compound × Nat)) (cache : CompoundCache)
    (name : String) : (entries.foldl list cache).holder? name = cache.holder? name :=
  congrArg (·[name]?) (tables_foldl_list entries cache).2

theorem holder?_attachChildren (cache : CompoundCache) (name : String) :
    cache.attachChildren.2.holder? name = cache.holder? name :=
  congrArg (·[name]?) (tables_attachChildren cache).2

/-- What stands for a name has it. -/
theorem Indexed.fullName_of_holder? (h : cache.Indexed) (hheld : cache.holder? name = some i)
    (hc : cache.nodes[i]? = some c) : c.fullName = name := by
  rw [holder?, h.byName] at hheld
  obtain ⟨hlt, hname, -⟩ := List.findIdx?_eq_some_iff_getElem.1 hheld
  obtain ⟨-, rfl⟩ := List.getElem?_eq_some_iff.1 hc
  simpa using hname

theorem Indexed.getElem?_of_holder? (h : cache.Indexed) (hheld : cache.holder? name = some i) :
    ∃ c, cache.nodes[i]? = some c := by
  rw [holder?, h.byName] at hheld
  obtain ⟨hlt, -⟩ := List.findIdx?_eq_some_iff_getElem.1 hheld
  exact ⟨_, List.getElem?_eq_getElem hlt⟩

/-! ## All changes -/

/-- What can be done to a cache. -/
inductive Change where
  | insert (c : Compound)
  | attachChildren
  deriving Repr

/-- The cache after a change. -/
def apply (cache : CompoundCache) : Change → CompoundCache
  | .insert c => (cache.insert c).2
  | .attachChildren => cache.attachChildren.2

/-- The cache after several changes, one after another. -/
def applyAll (cache : CompoundCache) (changes : List Change) : CompoundCache :=
  changes.foldl apply cache

theorem Indexed.apply (h : cache.Indexed) (change : Change) : (cache.apply change).Indexed := by
  cases change with
  | insert c => exact h.insert c
  | attachChildren => exact h.attachChildren

/-- Whatever is done to a cache, its tables stay in step with the compounds. -/
theorem indexed_applyAll (changes : List Change) :
    (({} : CompoundCache).applyAll changes).Indexed := by
  suffices h : ∀ cache : CompoundCache, cache.Indexed → (cache.applyAll changes).Indexed from
    h {} indexed_empty
  induction changes with
  | nil => exact fun _ h => h
  | cons change changes ih => exact fun cache h => ih _ (h.apply change)

end CompoundCache

end TypeAtlas
