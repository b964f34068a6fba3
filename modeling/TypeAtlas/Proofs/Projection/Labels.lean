import Std.Data.TreeMap.Lemmas
import TypeAtlas.Projection.Basic

/-!
# Names and sides of projected nodes

A projection changes in two ways. A node that is stored takes the place of the node of its name, or
a new one; a node that is placed below another one changes nothing but the shape of the tree. Either
way the table of names leads to the same nodes as the nodes themselves.

## Main definitions

* `Projection.label?` — the name and the sides of a node.
* `Projection.Named` — the table of names is in step with the nodes.
* `Projection.Has` — some node has this name and these sides.

The main statement is `Projection.Named.upsert`.
-/

namespace TypeAtlas

namespace Projection

/-! ## Labels -/

/-- The name and the sides of a node. -/
structure Label where
  name : String
  native : Option TypeId
  managed : Option TypeId
  deriving DecidableEq, Repr

end Projection

/-- The name and the sides of a projected node. -/
def ProjectedType.label (n : ProjectedType) : Projection.Label where
  name := n.fullName
  native := n.native
  managed := n.managed

namespace Projection

variable {p : Projection} {i j : ProjectedId} {label : Label} {node : ProjectedType}

/-- The label of the node at a position. -/
def label? (p : Projection) (id : ProjectedId) : Option Label :=
  (p.get? id).map (·.label)

/-- The table of names is in step with the nodes: a name that it has leads to a node of this name,
and the name of each node leads to this node. -/
structure Named (p : Projection) : Prop where
  found : ∀ name i, p.lookupId? name = some i → ∃ label, p.label? i = some label ∧ label.name = name
  listed : ∀ i label, p.label? i = some label → p.lookupId? label.name = some i

/-- Some node has this label. -/
def Has (p : Projection) (label : Label) : Prop :=
  ∃ id, p.label? id = some label

theorem eq_of_index {i j : ProjectedId} (h : i.index = j.index) : i = j := by
  cases i
  cases j
  simpa using h

/-- No two nodes have the same name. -/
theorem Named.eq {a b : Label} (h : p.Named) (hi : p.label? i = some a) (hj : p.label? j = some b)
    (hab : a.name = b.name) : i = j := by
  have hfound := h.listed i a hi
  rw [hab, h.listed j b hj] at hfound
  exact (Option.some.inj hfound).symm

/-- What a name leads to is the node of this name. -/
theorem Named.lookupId?_eq_some_iff {name : String} (h : p.Named) :
    p.lookupId? name = some i ↔ ∃ n, p.get? i = some n ∧ n.fullName = name := by
  constructor
  · intro hi
    obtain ⟨label, hlabel, rfl⟩ := h.found name i hi
    obtain ⟨n, hn, rfl⟩ := Option.map_eq_some_iff.1 hlabel
    exact ⟨n, hn, rfl⟩
  · rintro ⟨n, hn, rfl⟩
    exact h.listed i n.label (by rw [label?, hn, Option.map_some])

theorem Named.name_ne (h : p.Named) (hnone : p.lookupId? node.fullName = none)
    (hi : p.label? i = some label) : label.name ≠ node.fullName := by
  intro heq
  have hfound := h.listed i label hi
  rw [heq, hnone] at hfound
  simp at hfound

theorem get?_modify (p : Projection) (id : ProjectedId) (f : ProjectedType → ProjectedType)
    (i : ProjectedId) :
    (p.modify id f).get? i = if id = i then (p.get? i).map f else p.get? i := by
  cases id
  cases i
  simp [modify, get?, Array.getElem?_modify]

@[simp] theorem lookupId?_modify (p : Projection) (id : ProjectedId)
    (f : ProjectedType → ProjectedType) (name : String) :
    (p.modify id f).lookupId? name = p.lookupId? name := rfl

/-- What a change leaves alone of every node is left alone of each. -/
theorem map_modify {α : Type} {v : ProjectedType → α} {f : ProjectedType → ProjectedType}
    (hf : ∀ n, v (f n) = v n) (id i : ProjectedId) :
    ((p.modify id f).get? i).map v = (p.get? i).map v := by
  rw [get?_modify]
  split
  · rw [Option.map_map]
    exact Option.map_congr fun n _ => hf n
  · rfl

/-! ## Placing a node -/

section Placing

variable {α : Type} {v : ProjectedType → α}
  (hv : ∀ n children parent, v { n with children, parent } = v n)

include hv

theorem map_place (p : Projection) (parent child i : ProjectedId) :
    ((p.place parent child).get? i).map v = (p.get? i).map v := by
  unfold place
  rw [map_modify, map_modify]
  · exact fun n => hv n n.children (some parent)
  · intro n
    unfold ProjectedType.addChild
    split
    · rfl
    · exact hv n (n.children ++ [child]) n.parent

/-- Placing a node changes nothing but children and parents. -/
theorem map_link (p : Projection) (parent child i : ProjectedId) :
    ((p.link parent child).get? i).map v = (p.get? i).map v := by
  unfold link
  split
  · rfl
  · split
    · rfl
    · split
      · exact map_place hv _ _ _ _
      · split
        · exact map_place hv _ _ _ _
        · split
          · rw [map_place hv]
            exact map_modify (f := (·.removeChild child)) (fun n => hv n _ n.parent) _ _
          · rfl

end Placing

@[simp] theorem label?_link (p : Projection) (parent child i : ProjectedId) :
    (p.link parent child).label? i = p.label? i :=
  map_link (fun _ _ _ => rfl) p parent child i

@[simp] theorem names_link (p : Projection) (parent child : ProjectedId) :
    (p.link parent child).names = p.names := by
  unfold link
  split
  · rfl
  · split
    · rfl
    · split
      · rfl
      · split
        · rfl
        · split <;> rfl

@[simp] theorem lookupId?_link (p : Projection) (parent child : ProjectedId) (name : String) :
    (p.link parent child).lookupId? name = p.lookupId? name := by
  rw [lookupId?, names_link, lookupId?]

theorem Named.link (h : p.Named) (parent child : ProjectedId) : (p.link parent child).Named where
  found name i hi := by
    rw [label?_link]
    exact h.found name i (by rwa [lookupId?_link] at hi)
  listed i label hi := by
    rw [lookupId?_link]
    exact h.listed i label (by rwa [label?_link] at hi)

/-! ## Storing a node -/

/-- A stored node is found under its name, and every other name leads where it led before. -/
theorem lookupId?_upsert (p : Projection) (node : ProjectedType) (name : String) :
    (p.upsert node).2.lookupId? name =
      if name = node.fullName then some (p.upsert node).1 else p.lookupId? name := by
  unfold upsert
  cases hid : p.lookupId? node.fullName with
  | some id =>
    -- The name is known, so that the table stays as it is.
    dsimp only
    rw [lookupId?_modify]
    split
    · next heq => rw [heq, hid]
    · rfl
  | none =>
    simp only [lookupId?, Std.TreeMap.getElem?_insert, Std.compare_eq_iff_eq, eq_comm (a := name)]

/-- The table stays as it is when a node is stored under a name that it has. -/
theorem names_upsert (h : p.lookupId? node.fullName = some i) :
    (p.upsert node).2.names = p.names := by
  simp only [upsert, h]
  rfl

/-- A stored node has its label at the position that it is given, and nothing else changes. -/
theorem label?_upsert (h : p.Named) (node : ProjectedType) (i : ProjectedId) :
    (p.upsert node).2.label? i = if i = (p.upsert node).1 then some node.label else p.label? i := by
  unfold upsert
  cases hid : p.lookupId? node.fullName with
  | some id =>
    obtain ⟨label, hlabel, -⟩ := h.found _ id hid
    obtain ⟨n, hn, -⟩ := Option.map_eq_some_iff.1 hlabel
    dsimp only
    rw [label?, get?_modify]
    by_cases heq : i = id
    · subst heq
      rw [if_pos rfl, if_pos rfl, hn]
      rfl
    · rw [if_neg (Ne.symm heq), if_neg heq, label?]
  | none =>
    cases i with | mk index =>
    simp only [label?, get?, Array.getElem?_push, ProjectedId.mk.injEq]
    split <;> rfl

theorem label?_upsert_self (h : p.Named) (node : ProjectedType) :
    (p.upsert node).2.label? (p.upsert node).1 = some node.label := by
  rw [label?_upsert h, if_pos rfl]

/-- The position of a stored node is that of its name, or a new one. -/
theorem upsert_cases (h : p.Named) (node : ProjectedType) :
    (∃ label, p.label? (p.upsert node).1 = some label ∧ label.name = node.fullName) ∨
      (p.label? (p.upsert node).1 = none ∧
        ∀ i label, p.label? i = some label → label.name ≠ node.fullName) := by
  unfold upsert
  cases hid : p.lookupId? node.fullName with
  | some id => exact .inl (h.found _ id hid)
  | none => exact .inr ⟨by simp [label?, get?], fun i label hi => h.name_ne hid hi⟩

/-- Nodes keep their names. -/
theorem name_upsert (h : p.Named) (hi : p.label? i = some label) :
    ∃ label', (p.upsert node).2.label? i = some label' ∧ label'.name = label.name := by
  rw [label?_upsert h]
  split
  · next heq =>
    refine ⟨node.label, rfl, ?_⟩
    rcases upsert_cases h node with ⟨known, hknown, hname⟩ | ⟨hnone, -⟩
    · obtain rfl := Option.some.inj (hi.symm.trans (heq ▸ hknown))
      exact hname.symm
    · exact absurd (hi.symm.trans (heq ▸ hnone)) (by simp)
  · exact ⟨label, hi, rfl⟩

/-- Any other node has another name. -/
theorem name_ne_of_upsert (h : p.Named) (hne : i ≠ (p.upsert node).1)
    (hi : p.label? i = some label) : label.name ≠ node.fullName := by
  rcases upsert_cases h node with ⟨known, hknown, hname⟩ | ⟨-, hnone⟩
  · intro heq
    exact hne (h.eq hi hknown (heq.trans hname.symm))
  · exact hnone i label hi

/-- Storing a node keeps the table of names in step. -/
theorem Named.upsert (h : p.Named) (node : ProjectedType) : (p.upsert node).2.Named where
  found name i hi := by
    rw [lookupId?_upsert] at hi
    split at hi
    · next heq =>
      obtain rfl := Option.some.inj hi
      exact ⟨node.label, label?_upsert_self h node, heq.symm⟩
    · next hne =>
      obtain ⟨label, hlabel, rfl⟩ := h.found name i hi
      exact name_upsert h hlabel
  listed i label hi := by
    rw [label?_upsert h] at hi
    rw [lookupId?_upsert]
    split at hi
    · next heq =>
      obtain rfl := Option.some.inj hi
      rw [heq]
      exact if_pos rfl
    · next hne =>
      rw [if_neg (name_ne_of_upsert h hne hi)]
      exact h.listed i label hi

theorem named_empty : ({} : Projection).Named where
  found name i hi := by simp [lookupId?] at hi
  listed i label hi := by simp [label?, get?] at hi

@[simp] theorem not_has_empty : ¬ ({} : Projection).Has label := by
  rintro ⟨i, hi⟩
  simp [label?, get?] at hi

@[simp] theorem has_link (parent child : ProjectedId) :
    (p.link parent child).Has label ↔ p.Has label := by
  simp [Has]

/-- After a node is stored, its name has its sides, and any other name those that it had. -/
theorem has_upsert (h : p.Named) : (p.upsert node).2.Has label ↔
    label = node.label ∨ label.name ≠ node.fullName ∧ p.Has label := by
  constructor
  · rintro ⟨i, hi⟩
    rw [label?_upsert h] at hi
    split at hi
    · exact .inl (Option.some.inj hi).symm
    · next hne => exact .inr ⟨name_ne_of_upsert h hne hi, i, hi⟩
  · rintro (rfl | ⟨hname, i, hi⟩)
    · exact ⟨_, label?_upsert_self h node⟩
    · refine ⟨i, ?_⟩
      rw [label?_upsert h, if_neg ?_, hi]
      rintro rfl
      rcases upsert_cases h node with ⟨known, hknown, hsame⟩ | ⟨hnone, -⟩
      · obtain rfl := Option.some.inj (hknown.symm.trans hi)
        exact hname hsame
      · simp [hnone] at hi

/-! ## Looking a node up -/

theorem lookup?_of_named (h : p.Named) (hn : p.get? i = some node) :
    p.lookup? node.fullName = some node := by
  have hlabel : p.label? i = some node.label := by rw [label?, hn, Option.map_some]
  have hid : p.lookupId? node.fullName = some i := h.listed i node.label hlabel
  rw [lookup?, hid, Option.bind_some, hn]

/-- What a name leads to has this name. -/
theorem has_of_lookup? {name : String} (h : p.Named) (hnode : p.lookup? name = some node) :
    p.Has node.label ∧ node.fullName = name := by
  obtain ⟨id, hid, hget⟩ := Option.bind_eq_some_iff.1 hnode
  have hlabel : p.label? id = some node.label := by rw [label?, hget, Option.map_some]
  obtain ⟨label, hfound, hname⟩ := h.found name id hid
  obtain rfl := Option.some.inj (hlabel.symm.trans hfound)
  exact ⟨⟨id, hlabel⟩, hname⟩

end Projection

end TypeAtlas
