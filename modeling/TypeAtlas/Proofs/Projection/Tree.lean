import TypeAtlas.Proofs.Projection.Labels

/-!
# The tree of a projection

A node that is stored keeps its place in the tree, or is new and has none. A node that is placed
below another one leaves the list of children that it was in, so that what a node names as its
parent and what lists it as a child stay the same edges.

## Main definitions

* `Projection.childrenOf`, `Projection.parentOf?` — the edges of the tree, from either end.
* `Projection.Tree` — both ends agree.

The main statements are `Projection.Tree.upsert` and `Projection.Tree.link`.
-/

namespace TypeAtlas

namespace Projection

variable {p : Projection} {i j parent child : ProjectedId} {node n : ProjectedType}

/-- The children of a node. -/
def childrenOf (p : Projection) (id : ProjectedId) : List ProjectedId :=
  ((p.get? id).map (·.children)).getD []

/-- The parent of a node. -/
def parentOf? (p : Projection) (id : ProjectedId) : Option ProjectedId :=
  (p.get? id).bind (·.parent)

/-- What a node names as its parent lists it, once, and no node lists itself. -/
structure Tree (p : Projection) : Prop where
  mem_childrenOf : ∀ i j, j ∈ p.childrenOf i ↔ p.parentOf? j = some i
  nodup : ∀ i, (p.childrenOf i).Nodup
  irrefl : ∀ i, p.parentOf? i ≠ some i

theorem childrenOf_of_get? (h : p.get? i = some n) : p.childrenOf i = n.children := by
  simp [childrenOf, h]

theorem parentOf?_of_get? (h : p.get? i = some n) : p.parentOf? i = n.parent := by
  simp [parentOf?, h]

/-- What lists a child is a node. -/
theorem isSome_of_mem_childrenOf (h : j ∈ p.childrenOf i) : (p.get? i).isSome := by
  cases hn : p.get? i with
  | none => simp [childrenOf, hn] at h
  | some n => rfl

/-- What has a parent is a node. -/
theorem isSome_of_parentOf? (h : p.parentOf? i = some j) : (p.get? i).isSome := by
  obtain ⟨n, hn, -⟩ := Option.bind_eq_some_iff.1 h
  exact Option.isSome_of_mem hn

/-- What a node names as its parent is a node. -/
theorem Tree.isSome_parent (h : p.Tree) (hparent : p.parentOf? i = some j) :
    (p.get? j).isSome :=
  isSome_of_mem_childrenOf ((h.mem_childrenOf j i).2 hparent)

/-! ## Changing one node -/

theorem childrenOf_modify {f : ProjectedType → ProjectedType} (h : p.get? i = some n) :
    (p.modify i f).childrenOf j = if i = j then (f n).children else p.childrenOf j := by
  unfold childrenOf
  rw [get?_modify]
  split
  · next heq => simp [← heq, h]
  · rfl

theorem parentOf?_modify {f : ProjectedType → ProjectedType} (h : p.get? i = some n) :
    (p.modify i f).parentOf? j = if i = j then (f n).parent else p.parentOf? j := by
  unfold parentOf?
  rw [get?_modify]
  split
  · next heq => simp [← heq, h]
  · rfl

theorem get?_modify_self {f : ProjectedType → ProjectedType} (h : p.get? i = some n) :
    (p.modify i f).get? i = some (f n) := by
  rw [get?_modify, if_pos rfl, h, Option.map_some]

theorem get?_modify_of_ne {f : ProjectedType → ProjectedType} (hne : i ≠ j) :
    (p.modify i f).get? j = p.get? j := by
  rw [get?_modify, if_neg hne]

theorem isSome_get?_modify (p : Projection) (i j : ProjectedId)
    (f : ProjectedType → ProjectedType) : ((p.modify i f).get? j).isSome = (p.get? j).isSome := by
  rw [get?_modify]
  split
  · exact Option.isSome_map
  · rfl

/-! ## Storing a node -/

/-- What is stored under a name that was there before keeps its place, and what is new has none. -/
theorem get?_upsert_cases (p : Projection) (node : ProjectedType) (i : ProjectedId) :
    (p.upsert node).2.get? i = p.get? i ∨
      (∃ old, p.get? i = some old ∧ i = (p.upsert node).1 ∧ (p.upsert node).2.get? i =
        some { node with id := i, parent := old.parent, children := old.children }) ∨
      (p.get? i = none ∧ i = (p.upsert node).1 ∧
        (p.upsert node).2.get? i = some { node with id := i }) := by
  unfold upsert
  cases hid : p.lookupId? node.fullName with
  | some id =>
    dsimp only
    rw [get?_modify]
    split
    · next heq =>
      subst heq
      cases hold : p.get? id with
      | none => exact .inl rfl
      | some old => exact .inr (.inl ⟨old, rfl, rfl, rfl⟩)
    · exact .inl rfl
  | none =>
    by_cases heq : i = ⟨p.nodes.size⟩
    · subst heq
      exact .inr (.inr ⟨by simp [get?], rfl, by simp [get?]⟩)
    · have hne : i.index ≠ p.nodes.size := fun h => heq (eq_of_index h)
      exact .inl (by simp [get?, Array.getElem?_push, hne])

/-- What is stored is there as it is, up to its place in the tree. -/
theorem exists_get?_upsert_self (h : p.Named) (node : ProjectedType) :
    ∃ parent children, (p.upsert node).2.get? (p.upsert node).1 =
      some { node with id := (p.upsert node).1, parent, children } := by
  unfold upsert
  cases hid : p.lookupId? node.fullName with
  | some id =>
    obtain ⟨label, hlabel, -⟩ := h.found _ id hid
    obtain ⟨old, hold, -⟩ := Option.map_eq_some_iff.1 hlabel
    exact ⟨old.parent, old.children, get?_modify_self hold⟩
  | none => exact ⟨node.parent, node.children, by simp [get?]⟩

theorem childrenOf_upsert (h : node.children = []) (i : ProjectedId) :
    (p.upsert node).2.childrenOf i = p.childrenOf i := by
  rcases p.get?_upsert_cases node i with hget | ⟨old, hold, -, hget⟩ | ⟨hnone, -, hget⟩
  · unfold childrenOf
    rw [hget]
  · rw [childrenOf_of_get? hget, childrenOf_of_get? hold]
  · rw [childrenOf_of_get? hget, h]
    simp [childrenOf, hnone]

theorem parentOf?_upsert (h : node.parent = none) (i : ProjectedId) :
    (p.upsert node).2.parentOf? i = p.parentOf? i := by
  rcases p.get?_upsert_cases node i with hget | ⟨old, hold, -, hget⟩ | ⟨hnone, -, hget⟩
  · unfold parentOf?
    rw [hget]
  · rw [parentOf?_of_get? hget, parentOf?_of_get? hold]
  · rw [parentOf?_of_get? hget, h]
    simp [parentOf?, hnone]

theorem Tree.upsert (h : p.Tree) (hchildren : node.children = []) (hparent : node.parent = none) :
    (p.upsert node).2.Tree where
  mem_childrenOf i j := by
    rw [childrenOf_upsert hchildren, parentOf?_upsert hparent]
    exact h.mem_childrenOf i j
  nodup i := by
    rw [childrenOf_upsert hchildren]
    exact h.nodup i
  irrefl i := by
    rw [parentOf?_upsert hparent]
    exact h.irrefl i

theorem isSome_get?_upsert_self (h : p.Named) (node : ProjectedType) :
    ((p.upsert node).2.get? (p.upsert node).1).isSome := by
  obtain ⟨parent, children, hget⟩ := exists_get?_upsert_self h node
  rw [hget]
  rfl

theorem isSome_get?_upsert (h : (p.get? i).isSome) : ((p.upsert node).2.get? i).isSome := by
  rcases p.get?_upsert_cases node i with hget | ⟨old, -, -, hget⟩ | ⟨-, -, hget⟩
  · rwa [hget]
  · simp [hget]
  · simp [hget]

/-! ## Placing a node -/

theorem childrenOf_place (hne : parent ≠ child) (hparent : (p.get? parent).isSome)
    (hchild : (p.get? child).isSome) : (p.place parent child).childrenOf i =
      if parent = i then
        if child ∈ p.childrenOf parent then p.childrenOf parent
        else p.childrenOf parent ++ [child]
      else p.childrenOf i := by
  obtain ⟨a, ha⟩ := Option.isSome_iff_exists.1 hparent
  obtain ⟨b, hb⟩ := Option.isSome_iff_exists.1 hchild
  have ha' : (p.modify child fun n => { n with parent := some parent }).get? parent = some a := by
    rw [get?_modify_of_ne (Ne.symm hne), ha]
  unfold place
  rw [childrenOf_modify ha', childrenOf_modify hb, childrenOf_of_get? ha,
    ProjectedType.addChild]
  simp only [List.contains_iff_mem]
  split
  · split <;> rfl
  · split
    · next heq => rw [← heq, childrenOf_of_get? hb]
    · rfl

theorem parentOf?_place (hne : parent ≠ child) (hparent : (p.get? parent).isSome)
    (hchild : (p.get? child).isSome) : (p.place parent child).parentOf? i =
      if child = i then some parent else p.parentOf? i := by
  obtain ⟨a, ha⟩ := Option.isSome_iff_exists.1 hparent
  obtain ⟨b, hb⟩ := Option.isSome_iff_exists.1 hchild
  have ha' : (p.modify child fun n => { n with parent := some parent }).get? parent = some a := by
    rw [get?_modify_of_ne (Ne.symm hne), ha]
  unfold place
  rw [parentOf?_modify ha', parentOf?_modify hb]
  have hsame : (a.addChild child).parent = a.parent := by
    unfold ProjectedType.addChild
    split <;> rfl
  split
  · next heq => rw [hsame, if_neg (heq ▸ Ne.symm hne), ← heq, parentOf?_of_get? ha]
  · rfl

/-- A node that is placed is listed, and all other lists are as they were. -/
theorem mem_childrenOf_place (hne : parent ≠ child) (hparent : (p.get? parent).isSome)
    (hchild : (p.get? child).isSome) :
    j ∈ (p.place parent child).childrenOf i ↔ j ∈ p.childrenOf i ∨ parent = i ∧ j = child := by
  rw [childrenOf_place hne hparent hchild]
  split
  · next heq =>
    subst heq
    split
    · next hin =>
      simp only [true_and]
      exact ⟨.inl, fun h => h.elim id fun heq => heq ▸ hin⟩
    · simp
  · next heq => simp [heq]

/-- A node that nothing else lists can be placed, whatever it names as its parent. -/
theorem tree_place (hne : parent ≠ child) (hparent : (p.get? parent).isSome)
    (hchild : (p.get? child).isSome)
    (hmem : ∀ i j, j ≠ child → (j ∈ p.childrenOf i ↔ p.parentOf? j = some i))
    (hfree : ∀ i, child ∈ p.childrenOf i → i = parent)
    (hnodup : ∀ i, (p.childrenOf i).Nodup) (hirrefl : ∀ i, p.parentOf? i ≠ some i) :
    (p.place parent child).Tree where
  mem_childrenOf i j := by
    rw [mem_childrenOf_place hne hparent hchild, parentOf?_place hne hparent hchild]
    by_cases heq : child = j
    · subst heq
      simp only [and_true, if_true, Option.some.injEq, or_iff_right_iff_imp]
      exact fun hin => (hfree i hin).symm
    · rw [if_neg heq, hmem i j (Ne.symm heq)]
      simp [Ne.symm heq]
  nodup i := by
    rw [childrenOf_place hne hparent hchild]
    split
    · split
      · exact hnodup parent
      · next hout =>
        refine List.nodup_append.2 ⟨hnodup parent, by simp, ?_⟩
        rintro a ha b hb rfl
        exact hout (List.mem_singleton.1 hb ▸ ha)
    · exact hnodup i
  irrefl i := by
    rw [parentOf?_place hne hparent hchild]
    split
    · next heq => exact fun h => hne (Option.some.inj h ▸ heq.symm)
    · exact hirrefl i

/-! ## Moving a node -/

theorem childrenOf_removeChild (h : (p.get? j).isSome) :
    (p.modify j (·.removeChild child)).childrenOf i =
      if j = i then (p.childrenOf i).filter (· != child) else p.childrenOf i := by
  obtain ⟨n, hn⟩ := Option.isSome_iff_exists.1 h
  rw [childrenOf_modify hn]
  split
  · next heq =>
    rw [← heq, childrenOf_of_get? hn]
    rfl
  · rfl

theorem parentOf?_removeChild (p : Projection) (i j child : ProjectedId) :
    (p.modify j (·.removeChild child)).parentOf? i = p.parentOf? i := by
  unfold parentOf?
  rw [get?_modify]
  split
  · cases p.get? i <;> rfl
  · rfl

/-- A node can be moved out of the list that it is in. -/
theorem Tree.move {existing : ProjectedId} (h : p.Tree) (hne : parent ≠ child)
    (hparent : (p.get? parent).isSome) (hchild : (p.get? child).isSome)
    (hexisting : p.parentOf? child = some existing) :
    ((p.modify existing (·.removeChild child)).place parent child).Tree := by
  have hsome : (p.get? existing).isSome := h.isSome_parent hexisting
  apply tree_place hne
  · rwa [isSome_get?_modify]
  · rwa [isSome_get?_modify]
  · intro i j hj
    rw [childrenOf_removeChild hsome, parentOf?_removeChild, ← h.mem_childrenOf]
    split
    · simp [hj]
    · rfl
  · intro i hlist
    rw [childrenOf_removeChild hsome] at hlist
    split at hlist
    · simp at hlist
    · next hi =>
      rw [h.mem_childrenOf, hexisting] at hlist
      exact absurd (Option.some.inj hlist) hi
  · intro i
    rw [childrenOf_removeChild hsome]
    split
    · exact (h.nodup i).filter _
    · exact h.nodup i
  · intro i
    rw [parentOf?_removeChild]
    exact h.irrefl i

/-- A node stays where it is, is placed where nothing else lists it, or is moved. -/
theorem link_cases (p : Projection) (parent child : ProjectedId) :
    p.link parent child = p ∨
      (parent ≠ child ∧ (p.get? child).isSome ∧
        (∀ i, p.parentOf? child = some i → i = parent) ∧
        p.link parent child = p.place parent child) ∨
      ∃ existing, parent ≠ child ∧ (p.get? child).isSome ∧ p.parentOf? child = some existing ∧
        p.link parent child = (p.modify existing (·.removeChild child)).place parent child := by
  unfold link
  split
  · exact .inl rfl
  · next hne =>
    cases hchild : p.get? child with
    | none => exact .inl rfl
    | some node =>
      have hnode : p.parentOf? child = node.parent := parentOf?_of_get? hchild
      dsimp only
      split
      · next hnone => exact .inr (.inl ⟨hne, rfl, by simp [hnode, hnone], rfl⟩)
      · next existing hold =>
        split
        · next heq =>
          refine .inr (.inl ⟨hne, rfl, fun i hi => ?_, rfl⟩)
          rw [hnode, hold, heq] at hi
          exact (Option.some.inj hi).symm
        · split
          · exact .inr (.inr ⟨existing, hne, rfl, hnode.trans hold, rfl⟩)
          · exact .inl rfl

/-- A node without another parent is placed. -/
theorem parentOf?_link_of_free (hne : parent ≠ child) (hparent : (p.get? parent).isSome)
    (hchild : (p.get? child).isSome) (hfree : ∀ j, p.parentOf? child = some j → j = parent) :
    (p.link parent child).parentOf? i = if child = i then some parent else p.parentOf? i := by
  obtain ⟨node, hnode⟩ := Option.isSome_iff_exists.1 hchild
  rw [parentOf?_of_get? hnode] at hfree
  have hplace : p.link parent child = p.place parent child := by
    simp only [link, if_neg hne, hnode]
    cases hold : node.parent with
    | none => rfl
    | some existing => exact if_pos (hfree existing hold)
  rw [hplace, parentOf?_place hne hparent hchild]

theorem Tree.link (h : p.Tree) (hparent : (p.get? parent).isSome) (child : ProjectedId) :
    (p.link parent child).Tree := by
  rcases p.link_cases parent child with
    heq | ⟨hne, hchild, hfree, heq⟩ | ⟨existing, hne, hchild, hexisting, heq⟩
  · rwa [heq]
  · rw [heq]
    refine tree_place hne hparent hchild (fun i j _ => h.mem_childrenOf i j) ?_ h.nodup h.irrefl
    exact fun i hin => hfree i ((h.mem_childrenOf i child).1 hin)
  · rw [heq]
    exact h.move hne hparent hchild hexisting

theorem isSome_get?_link (p : Projection) (parent child i : ProjectedId) :
    ((p.link parent child).get? i).isSome = (p.get? i).isSome := by
  have hlabel := label?_link p parent child i
  unfold label? at hlabel
  rw [← Option.isSome_map (f := ProjectedType.label), hlabel, Option.isSome_map]

theorem tree_empty : ({} : Projection).Tree := by
  refine ⟨?_, ?_, ?_⟩
  · intro i j
    simp [childrenOf, parentOf?, get?]
  · intro i
    simp [childrenOf, get?]
  · intro i
    simp [parentOf?, get?]

end Projection

end TypeAtlas
