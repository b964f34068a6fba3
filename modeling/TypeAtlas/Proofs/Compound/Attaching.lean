import TypeAtlas.Proofs.Compound.Tables

/-!
# Parents and children brought together

The compounds of a cache are brought into agreement in two passes. In the first one each compound
that stands for its name gets the last compound that lists this name as its parent. In the second
one each compound is put behind the children of what then holds it. A step of either pass changes
one compound, so that what becomes of a compound is what the claims and the entries for it make of
it.

## Main definitions

* `CompoundCache.lastLister?`, `CompoundCache.ownParent?` — the parent that the first pass gives.
* `CompoundCache.heldBy` — what the second pass puts behind the children.
* `CompoundCache.Attached` — a cache in which parents and children agree, and the one before it.

The main statement is `CompoundCache.attached_attachChildren`.
-/

namespace TypeAtlas

open Compound (unlinked)

/-- Names that are added go behind those that there were, each once. -/
theorem exists_foldl_addName (names more : List String) : ∃ added,
    more.foldl addName names = names ++ added ∧ added.Nodup ∧
      ∀ name ∈ added, name ∈ more ∧ name ∉ names := by
  induction more using List.reverseRecOn with
  | nil => exact ⟨[], by simp⟩
  | append_singleton more name ih =>
    obtain ⟨added, hadded, hnodup, hmem⟩ := ih
    rw [List.foldl_concat, hadded, addName]
    split
    · exact ⟨added, rfl, hnodup, by grind⟩
    · next hnew =>
      have hnew : name ∉ names ∧ name ∉ added := by simpa using hnew
      refine ⟨added ++ [name], List.append_assoc _ _ _, ?_, by grind⟩
      grind [List.nodup_append]

namespace Compound

/-- The compound inside another one. -/
def withParent (c : Compound) (parentName : Option String) : Compound :=
  { c with parentName }

@[simp] theorem withParent_parentName (c : Compound) : c.withParent c.parentName = c := rfl

/-- The compound with several more entities that it holds. -/
def addChildren (c : Compound) (names : List String) : Compound :=
  { c with childNames := names.foldl addName c.childNames }

@[simp] theorem addChildren_nil (c : Compound) : c.addChildren [] = c := rfl

theorem addChildren_concat (c : Compound) (names : List String) (name : String) :
    c.addChildren (names ++ [name]) = (c.addChildren names).addChild name := by
  simp [addChildren, addChild]

end Compound

namespace CompoundCache

variable {cache before after : CompoundCache} {c : Compound} {i : Nat} {name : String}

/-! ## The first pass -/

/-- A claim is about the compound at a position: this stands for the name that is listed, and does
not list it itself. -/
def Claim.IsAbout (cache : CompoundCache) (i : Nat) (claim : Claim) : Prop :=
  cache.holder? claim.child = some i ∧ claim.position ≠ i

instance (cache : CompoundCache) (i : Nat) (claim : Claim) : Decidable (claim.IsAbout cache i) :=
  inferInstanceAs (Decidable (_ ∧ _))

/-- A claim moves the compound that it is about. -/
theorem getElem?_adopt (state : Nat × CompoundCache) (claim : Claim) (i : Nat) :
    (adopt state claim).2.nodes[i]? = state.2.nodes[i]?.map fun c =>
      if claim.IsAbout state.2 i then c.withParent (some claim.parent) else c := by
  obtain ⟨moved, cache⟩ := state
  unfold adopt
  dsimp only
  split
  · next hheld =>
    have habout : ¬ claim.IsAbout cache i := by simp [Claim.IsAbout, hheld]
    simp [habout]
  · next held hheld =>
    have habout : claim.IsAbout cache i ↔ held = i ∧ claim.position ≠ i := by
      simp [Claim.IsAbout, hheld]
    split
    · next hself =>
      have hnot : ¬ claim.IsAbout cache i := by grind
      simp [hnot]
    · next hself =>
      split
      · next hparent =>
        -- The compound is there already.
        cases hc : cache.nodes[i]? with
        | none => rfl
        | some c =>
          by_cases hi : claim.IsAbout cache i
          · obtain ⟨rfl, -⟩ := habout.1 hi
            have hsame : c.parentName = some claim.parent := by simpa [hc] using hparent
            simp [hi, ← hsame]
          · simp [hi]
      · rw [List.getElem?_modify]
        have hiff : claim.IsAbout cache i ↔ held = i := by grind
        simp only [hiff]
        split <;> rfl

/-- Of many claims the last one about a compound counts. -/
theorem getElem?_foldl_adopt (claims : List Claim) (state : Nat × CompoundCache) (i : Nat) :
    (claims.foldl adopt state).2.nodes[i]? = state.2.nodes[i]?.map fun c =>
      c.withParent (((claims.filter (·.IsAbout state.2 i)).getLast?.map (·.parent)).or
        c.parentName) := by
  induction claims using List.reverseRecOn with
  | nil => simp
  | append_singleton claims claim ih =>
    have habout : claim.IsAbout (claims.foldl adopt state).2 i ↔ claim.IsAbout state.2 i := by
      rw [Claim.IsAbout, holder?_foldl_adopt]
      rfl
    rw [List.foldl_concat, getElem?_adopt, ih, Option.map_map, List.filter_append,
      List.getLast?_append]
    congr
    funext c
    simp only [Function.comp_apply, habout]
    by_cases h : claim.IsAbout state.2 i
    · simp [h, Compound.withParent]
    · simp [h]

/-- The last compound, apart from the one at a position, that lists a name. -/
def lastLister? (cache : CompoundCache) (position : Nat) (name : String) : Option Compound :=
  (cache.nodes.zipIdx.filter fun entry =>
    entry.2 != position && entry.1.childNames.contains name).getLast?.map (·.1)

/-- The parent of the compound at a position: the last one that lists its name if the compound
stands for this name, else the one that it has. -/
def ownParent? (cache : CompoundCache) (position : Nat) (c : Compound) : Option String :=
  if cache.holder? c.fullName = some position then
    ((cache.lastLister? position c.fullName).map (·.fullName)).or c.parentName
  else c.parentName

/-- The claims of one compound. -/
def claimsOf (entry : Compound × Nat) : List Claim :=
  entry.1.childNames.map fun child =>
    { position := entry.2, parent := entry.1.fullName, child }

/-- The last of many claims that meet a condition is a claim of the last compound that has such
claims. -/
theorem getLast?_filter_claimsOf (p : Claim → Bool) (entries : List (Compound × Nat)) :
    ((entries.flatMap claimsOf).filter p).getLast?.map (·.parent) =
      (entries.filter fun entry => (claimsOf entry).any p).getLast?.map (·.1.fullName) := by
  induction entries using List.reverseRecOn with
  | nil => rfl
  | append_singleton entries entry ih =>
    rw [List.flatMap_append, List.flatMap_singleton, List.filter_append, List.filter_append,
      List.getLast?_append, List.getLast?_append, Option.map_or, Option.map_or, ih]
    congr 1
    cases hlast : ((claimsOf entry).filter p).getLast? with
    | none =>
      have hnone : (claimsOf entry).any p = false := by
        simpa [List.filter_eq_nil_iff] using hlast
      simp [hnone]
    | some claim =>
      obtain ⟨hmem, hp⟩ := List.mem_filter.1 (List.mem_of_getLast? hlast)
      have hany : (claimsOf entry).any p = true := List.any_eq_true.2 ⟨claim, hmem, hp⟩
      obtain ⟨child, -, rfl⟩ := List.mem_map.1 hmem
      simp [hany]

/-- Who claims a compound that stands for its name lists this name, and is another one. -/
theorem Indexed.any_isAbout (h : cache.Indexed) (hc : cache.nodes[i]? = some c)
    (entry : Compound × Nat) :
    (claimsOf entry).any (·.IsAbout cache i) = (decide (cache.holder? c.fullName = some i) &&
      (entry.2 != i && entry.1.childNames.contains c.fullName)) := by
  rw [Bool.eq_iff_iff]
  simp only [claimsOf, List.any_map, List.any_eq_true, Function.comp_apply, decide_eq_true_eq,
    Bool.and_eq_true, bne_iff_ne, List.contains_iff_mem]
  constructor
  · rintro ⟨child, hchild, hheld, hne⟩
    obtain rfl := h.fullName_of_holder? hheld hc
    exact ⟨hheld, hne, hchild⟩
  · rintro ⟨hheld, hne, hchild⟩
    exact ⟨c.fullName, hchild, hheld, hne⟩

/-- The cache behind the first pass. -/
def adopted (cache : CompoundCache) : CompoundCache :=
  (cache.claims.foldl adopt (0, cache)).2

theorem holder?_adopted (cache : CompoundCache) (name : String) :
    cache.adopted.holder? name = cache.holder? name :=
  holder?_foldl_adopt _ (0, cache) name

/-- Behind the first pass each compound has the parent that it should have. -/
theorem Indexed.getElem?_adopted (h : cache.Indexed) (i : Nat) : cache.adopted.nodes[i]? =
    cache.nodes[i]?.map fun c => c.withParent (cache.ownParent? i c) := by
  have hclaims : cache.claims = cache.nodes.zipIdx.flatMap claimsOf := rfl
  rw [adopted, getElem?_foldl_adopt]
  cases hc : cache.nodes[i]? with
  | none => rfl
  | some c =>
    rw [Option.map_some, Option.map_some, hclaims, getLast?_filter_claimsOf,
      funext (h.any_isAbout hc), ownParent?]
    split
    · next hheld => simp [hheld, lastLister?, Function.comp_def]
    · next hheld => simp [hheld]

/-! ## The second pass -/

/-- An entry is about the compound at a position if this stands for its parent and is another
one. -/
def EntryIsAbout (cache : CompoundCache) (i : Nat) (entry : Compound × Nat) : Prop :=
  entry.1.parentName.bind cache.holder? = some i ∧ entry.2 ≠ i

instance (cache : CompoundCache) (i : Nat) (entry : Compound × Nat) :
    Decidable (cache.EntryIsAbout i entry) :=
  inferInstanceAs (Decidable (_ ∧ _))

/-- An entry is put behind the children of the compound that it is about. -/
theorem getElem?_list (cache : CompoundCache) (entry : Compound × Nat) (i : Nat) :
    (cache.list entry).nodes[i]? = cache.nodes[i]?.map fun c =>
      if cache.EntryIsAbout i entry then c.addChild entry.1.fullName else c := by
  obtain ⟨d, position⟩ := entry
  unfold list
  dsimp only
  split
  · next hparent =>
    have habout : ¬ cache.EntryIsAbout i (d, position) := by simp [EntryIsAbout, hparent]
    simp [habout]
  · next parent hparent =>
    have habout : cache.EntryIsAbout i (d, position) ↔ parent = i ∧ position ≠ i := by
      simp [EntryIsAbout, hparent]
    split
    · next hself =>
      have hnot : ¬ cache.EntryIsAbout i (d, position) := by grind
      simp [hnot]
    · rw [List.getElem?_modify]
      have hiff : cache.EntryIsAbout i (d, position) ↔ parent = i := by grind
      simp only [hiff]
      split <;> rfl

/-- Many entries are put behind the children in their order, each name once. -/
theorem getElem?_foldl_list (entries : List (Compound × Nat)) (cache : CompoundCache) (i : Nat) :
    (entries.foldl list cache).nodes[i]? = cache.nodes[i]?.map fun c =>
      c.addChildren ((entries.filter (cache.EntryIsAbout i)).map (·.1.fullName)) := by
  induction entries using List.reverseRecOn with
  | nil => simp
  | append_singleton entries entry ih =>
    have habout : (entries.foldl list cache).EntryIsAbout i entry ↔ cache.EntryIsAbout i entry := by
      rw [EntryIsAbout, funext (holder?_foldl_list entries cache)]
      rfl
    rw [List.foldl_concat, getElem?_list, ih, Option.map_map, List.filter_append, List.map_append]
    congr
    funext c
    simp only [Function.comp_apply, habout]
    by_cases h : cache.EntryIsAbout i entry
    · simp [h, Compound.addChildren_concat]
    · simp [h]

/-- The names of the compounds, apart from the one at a position, whose parent this one stands
for. -/
def heldBy (cache : CompoundCache) (position : Nat) : List String :=
  (cache.nodes.zipIdx.filter fun entry => cache.EntryIsAbout position entry).map (·.1.fullName)

theorem mem_heldBy : name ∈ cache.heldBy i ↔ ∃ j c parent, cache.nodes[j]? = some c ∧
    c.fullName = name ∧ c.parentName = some parent ∧ cache.holder? parent = some i ∧ j ≠ i := by
  simp only [heldBy, EntryIsAbout, List.mem_map, List.mem_filter, decide_eq_true_eq, Prod.exists,
    List.mk_mem_zipIdx_iff_getElem?, Option.bind_eq_some_iff]
  constructor
  · rintro ⟨c, j, ⟨hc, ⟨parent, hparent, hheld⟩, hne⟩, hname⟩
    exact ⟨j, c, parent, hc, hname, hparent, hheld, hne⟩
  · rintro ⟨j, c, parent, hc, hname, hparent, hheld, hne⟩
    exact ⟨c, j, ⟨hc, ⟨parent, hparent, hheld⟩, hne⟩, hname⟩

/-! ## Both passes -/

/-- What the two passes make of a compound. -/
theorem Indexed.getElem?_attachChildren (h : cache.Indexed) (i : Nat) :
    cache.attachChildren.2.nodes[i]? = cache.nodes[i]?.map fun c =>
      (c.withParent (cache.ownParent? i c)).addChildren (cache.adopted.heldBy i) := by
  have hattach : cache.attachChildren.2 = cache.adopted.nodes.zipIdx.foldl list cache.adopted := rfl
  rw [hattach, getElem?_foldl_list, h.getElem?_adopted, Option.map_map]
  rfl

/-- What one cache is to another one, in which parents and children have been brought together. -/
structure Attached (before after : CompoundCache) : Prop where
  /-- No compound is added, left out or moved, and only links change. -/
  unlinked : after.nodes.map unlinked = before.nodes.map unlinked
  holder : ∀ name, after.holder? name = before.holder? name
  /-- What stands for its name lies in the last other compound that lists the name. -/
  listed : ∀ i c c' lister, before.nodes[i]? = some c → after.nodes[i]? = some c' →
    before.holder? c.fullName = some i → before.lastLister? i c.fullName = some lister →
    c'.parentName = some lister.fullName
  unlisted : ∀ i c c', before.nodes[i]? = some c → after.nodes[i]? = some c' →
    before.holder? c.fullName = some i → before.lastLister? i c.fullName = none →
    c'.parentName = c.parentName
  /-- What does not stand for its name stays where it is. -/
  unheld : ∀ i c c', before.nodes[i]? = some c → after.nodes[i]? = some c' →
    before.holder? c.fullName ≠ some i → c'.parentName = c.parentName
  /-- What stands for the parent of another compound lists this one. -/
  lists : ∀ i c parent j, after.nodes[i]? = some c → c.parentName = some parent →
    after.holder? parent = some j → i ≠ j →
    ∃ holder, after.nodes[j]? = some holder ∧ c.fullName ∈ holder.childNames
  /-- The children that there were come first, and behind them only such compounds, each once. -/
  children : ∀ j holder holder', before.nodes[j]? = some holder → after.nodes[j]? = some holder' →
    ∃ added, holder'.childNames = holder.childNames ++ added ∧ added.Nodup ∧ ∀ name ∈ added,
      name ∉ holder.childNames ∧ ∃ i c parent, after.nodes[i]? = some c ∧ c.fullName = name ∧
        c.parentName = some parent ∧ after.holder? parent = some j ∧ i ≠ j

/-- What the first pass has put into another compound is found there behind both passes. -/
theorem Indexed.mem_heldBy_adopted (h : cache.Indexed) : name ∈ cache.adopted.heldBy i ↔
    ∃ j c parent, cache.attachChildren.2.nodes[j]? = some c ∧ c.fullName = name ∧
      c.parentName = some parent ∧ cache.attachChildren.2.holder? parent = some i ∧ j ≠ i := by
  simp only [mem_heldBy, holder?_adopted, holder?_attachChildren, h.getElem?_attachChildren,
    h.getElem?_adopted, Option.map_eq_some_iff]
  constructor
  · rintro ⟨j, _, parent, ⟨c, hc, rfl⟩, hname, hparent, hheld, hne⟩
    exact ⟨j, _, parent, ⟨c, hc, rfl⟩, hname, hparent, hheld, hne⟩
  · rintro ⟨j, _, parent, ⟨c, hc, rfl⟩, hname, hparent, hheld, hne⟩
    exact ⟨j, _, parent, ⟨c, hc, rfl⟩, hname, hparent, hheld, hne⟩

/-- Where the tables are in step, parents and children are brought together. -/
theorem Indexed.attached (h : cache.Indexed) : Attached cache cache.attachChildren.2 := by
  have hnode {i : Nat} {c c' : Compound} (hc : cache.nodes[i]? = some c)
      (hc' : cache.attachChildren.2.nodes[i]? = some c') :
      c' = (c.withParent (cache.ownParent? i c)).addChildren (cache.adopted.heldBy i) := by
    rw [h.getElem?_attachChildren, hc] at hc'
    exact (Option.some.inj hc').symm
  have hparent {i : Nat} {c c' : Compound} (hc : cache.nodes[i]? = some c)
      (hc' : cache.attachChildren.2.nodes[i]? = some c') :
      c'.parentName = cache.ownParent? i c := by
    rw [hnode hc hc']
    rfl
  refine ⟨unlinked_attachChildren cache, holder?_attachChildren cache, ?_, ?_, ?_, ?_, ?_⟩
  · intro i c c' lister hc hc' hheld hlister
    rw [hparent hc hc', ownParent?, if_pos hheld, hlister]
    rfl
  · intro i c c' hc hc' hheld hlister
    rw [hparent hc hc', ownParent?, if_pos hheld, hlister]
    rfl
  · intro i c c' hc hc' hheld
    rw [hparent hc hc', ownParent?, if_neg hheld]
  · intro i c parent j hc hname hheld hne
    have hmem : c.fullName ∈ cache.adopted.heldBy j :=
      h.mem_heldBy_adopted.2 ⟨i, c, parent, hc, rfl, hname, hheld, hne⟩
    rw [holder?_attachChildren] at hheld
    obtain ⟨holder, hholder⟩ := h.getElem?_of_holder? hheld
    refine ⟨_, by rw [h.getElem?_attachChildren, hholder, Option.map_some], ?_⟩
    exact mem_foldl_addName.2 (.inr hmem)
  · intro j holder holder' hholder hholder'
    obtain ⟨added, hadded, hnodup, hmem⟩ :=
      exists_foldl_addName holder.childNames (cache.adopted.heldBy j)
    refine ⟨added, ?_, hnodup, fun name hname => ?_⟩
    · rw [hnode hholder hholder', ← hadded]
      rfl
    · obtain ⟨hheldBy, hnew⟩ := hmem name hname
      exact ⟨hnew, h.mem_heldBy_adopted.1 hheldBy⟩

/-- Whatever has been done to a cache, a name leads to the first compound that has it, and parents
and children can be brought together. -/
theorem attached_attachChildren (changes : List Change) :
    let cache := ({} : CompoundCache).applyAll changes
    (∀ name, cache.holder? name = cache.nodes.findIdx? (·.fullName == name)) ∧
      Attached cache cache.attachChildren.2 :=
  have h := indexed_applyAll changes
  ⟨h.byName, h.attached⟩

end CompoundCache

end TypeAtlas
