import TypeAtlas.Proofs.Projection.Tree

/-!
# Nodes that are in their place

A node is in its place below another one if placing it there again changes nothing: it is there, or
it is elsewhere and stays, since a place is given up only for the scope of the name. Once it is in
its place, no later change to the projection undoes this.

## Main definitions

* `Projection.name?` — the name of the node at a position.
* `Projection.IsPlaced` — a node that would not move.
* `Projection.SameShape` — two projections with the same names at the same places.
* `ProjectedType.body` — a node without its position and its place.

The main statements are `Projection.link_of_isPlaced`, `Projection.IsPlaced.link` and
`Projection.eq_of_sameShape`.
-/

namespace TypeAtlas

/-- The node without its position and its place in the tree. -/
def ProjectedType.body (n : ProjectedType) : ProjectedType :=
  { n with id := ⟨0⟩, children := [], parent := none }

theorem ProjectedType.eq_of_body {a b : ProjectedType} (h : a.body = b.body) (hid : a.id = b.id)
    (hchildren : a.children = b.children) (hparent : a.parent = b.parent) : a = b := by
  cases a
  cases b
  simp_all [ProjectedType.body]

namespace Projection

variable {p q : Projection} {i a c parent child : ProjectedId} {node : ProjectedType}
  {name : String}

/-! ## Names -/

/-- The name of the node at a position. -/
def name? (p : Projection) (id : ProjectedId) : Option String :=
  (p.label? id).map (·.name)

theorem name?_of_get? {n : ProjectedType} (h : p.get? i = some n) :
    p.name? i = some n.fullName := by
  simp [name?, label?, h, ProjectedType.label]

theorem isSome_name? (p : Projection) (i : ProjectedId) :
    (p.name? i).isSome = (p.get? i).isSome := by
  simp [name?, label?]

theorem name?_link (p : Projection) (parent child i : ProjectedId) :
    (p.link parent child).name? i = p.name? i := by
  rw [name?, label?_link, name?]

theorem name?_upsert (h : p.Named) (hi : p.name? i = some name) :
    (p.upsert node).2.name? i = some name := by
  obtain ⟨label, hlabel, rfl⟩ := Option.map_eq_some_iff.1 hi
  obtain ⟨label', hlabel', hname⟩ := name_upsert h hlabel
  rw [name?, hlabel', Option.map_some, hname]

theorem name?_upsert_of_isSome (h : p.Named) (node : ProjectedType) (hi : (p.get? i).isSome) :
    (p.upsert node).2.name? i = p.name? i := by
  obtain ⟨n, hn⟩ := Option.isSome_iff_exists.1 hi
  rw [name?_upsert h (name?_of_get? hn), name?_of_get? hn]

theorem lookupId?_of_name? (h : p.Named) (hi : p.name? i = some name) :
    p.lookupId? name = some i := by
  obtain ⟨label, hlabel, rfl⟩ := Option.map_eq_some_iff.1 hi
  exact h.listed i label hlabel

theorem eq_of_name? (h : p.Named) (ha : p.name? a = some name) (hc : p.name? c = some name) :
    a = c := by
  have hfound := lookupId?_of_name? h ha
  rw [lookupId?_of_name? h hc] at hfound
  exact (Option.some.inj hfound).symm

/-- A node is stored where its name is. -/
theorem upsert_fst_of_name? (h : p.Named) (hi : p.name? i = some node.fullName) :
    (p.upsert node).1 = i := by
  simp only [upsert, lookupId?_of_name? h hi]

/-- The label of the node with a name. -/
def labelOf? (p : Projection) (name : String) : Option Label :=
  (p.lookup? name).map (·.label)

theorem labelOf?_of_name? (h : p.Named) (hi : p.name? i = some name) :
    p.labelOf? name = p.label? i := by
  obtain ⟨label, hlabel, rfl⟩ := Option.map_eq_some_iff.1 hi
  obtain ⟨n, hn, rfl⟩ := Option.map_eq_some_iff.1 hlabel
  rw [labelOf?, show p.lookup? n.label.name = some n from lookup?_of_named h hn, hlabel,
    Option.map_some]

theorem labelOf?_eq_none (h : p.Named) (hnone : ∀ i, p.name? i ≠ some name) :
    p.labelOf? name = none := by
  rw [labelOf?, Option.map_eq_none_iff, Option.eq_none_iff_forall_ne_some]
  intro n hn
  obtain ⟨⟨i, hi⟩, rfl⟩ := has_of_lookup? h hn
  exact hnone i (by rw [name?, hi]; rfl)

theorem isScopeOf_congr (ha : p.name? a = q.name? a) (hc : p.name? c = q.name? c) :
    p.isScopeOf a c = q.isScopeOf a c := by
  unfold name? label? at ha hc
  unfold isScopeOf
  cases hpa : p.get? a <;> cases hqa : q.get? a <;> cases hpc : p.get? c <;>
    cases hqc : q.get? c <;> simp_all [ProjectedType.label]

/-! ## Places -/

/-- The node would not move if it were placed below the other one. -/
def IsPlaced (p : Projection) (parent child : ProjectedId) : Prop :=
  parent = child ∨ ∃ existing, p.parentOf? child = some existing ∧
    (existing = parent ∨ (p.isScopeOf parent child && !p.isScopeOf existing child) = false)

theorem modify_eq_self {f : ProjectedType → ProjectedType} (h : ∀ n, p.get? i = some n → f n = n) :
    p.modify i f = p := by
  have hget : ∀ j, (p.modify i f).get? j = p.get? j := by
    intro j
    rw [get?_modify]
    split
    · next heq =>
      subst heq
      cases hn : p.get? i with
      | none => rfl
      | some n => rw [Option.map_some, h n hn]
    · rfl
  obtain ⟨nodes, names⟩ := p
  refine congrArg (Projection.mk · names) (Array.ext_getElem? fun k => ?_)
  exact hget ⟨k⟩

/-- What is in its place is left there. -/
theorem link_of_isPlaced (h : p.Tree) (hplaced : p.IsPlaced parent child) :
    p.link parent child = p := by
  unfold link
  split
  · rfl
  · next hne =>
    obtain ⟨existing, hexisting, hstays⟩ := hplaced.resolve_left hne
    obtain ⟨node, hnode, hparent⟩ := Option.bind_eq_some_iff.1 hexisting
    simp only [hnode, hparent]
    split
    · next heq =>
      subst heq
      have hlisted : child ∈ p.childrenOf existing := (h.mem_childrenOf existing child).2 hexisting
      unfold place
      rw [modify_eq_self (i := child), modify_eq_self (i := existing)]
      · intro n hn
        rw [childrenOf_of_get? hn] at hlisted
        exact if_pos (List.contains_iff_mem.2 hlisted)
      · intro n hn
        obtain rfl := Option.some.inj (hnode.symm.trans hn)
        rw [← hparent]
    · next hmoved =>
      rw [if_neg]
      simpa using hstays.resolve_left hmoved

theorem not_isPlaced (h : ¬ p.IsPlaced parent child) : parent ≠ child ∧
    ∀ existing, p.parentOf? child = some existing → existing ≠ parent ∧
      p.isScopeOf parent child = true ∧ p.isScopeOf existing child = false := by
  simpa [IsPlaced, not_or] using h

/-- What is not in its place gets there. -/
theorem parentOf?_link_of_not_isPlaced (hparent : (p.get? parent).isSome)
    (hchild : (p.get? child).isSome) (hplaced : ¬ p.IsPlaced parent child) :
    (p.link parent child).parentOf? i = if child = i then some parent else p.parentOf? i := by
  obtain ⟨hne, hmoves⟩ := not_isPlaced hplaced
  obtain ⟨node, hnode⟩ := Option.isSome_iff_exists.1 hchild
  rw [parentOf?_of_get? hnode] at hmoves
  simp only [Projection.link, if_neg hne, hnode]
  cases hold : node.parent with
  | none => exact parentOf?_place hne hparent hchild
  | some existing =>
    obtain ⟨hmoved, hscope, hnoscope⟩ := hmoves existing hold
    simp only [if_neg hmoved, hscope, hnoscope, Bool.not_false, Bool.and_self, if_true]
    rw [parentOf?_place hne (by rwa [isSome_get?_modify]) (by rwa [isSome_get?_modify]),
      parentOf?_removeChild]

theorem isPlaced_link (h : p.Tree) (hparent : (p.get? parent).isSome)
    (hchild : (p.get? child).isSome) : (p.link parent child).IsPlaced parent child := by
  by_cases hplaced : p.IsPlaced parent child
  · rwa [link_of_isPlaced h hplaced]
  · refine .inr ⟨parent, ?_, .inl rfl⟩
    rw [parentOf?_link_of_not_isPlaced hparent hchild hplaced, if_pos rfl]

/-- What is in its place stays there when something else is placed. -/
theorem IsPlaced.link (hplaced : p.IsPlaced a c) (h : p.Tree) (hparent : (p.get? parent).isSome)
    (hchild : (p.get? child).isSome) : (p.link parent child).IsPlaced a c := by
  by_cases hfirst : p.IsPlaced parent child
  · rwa [link_of_isPlaced h hfirst]
  refine hplaced.imp_right ?_
  rintro ⟨existing, hexisting, hstays⟩
  have hscope (i : ProjectedId) : (p.link parent child).isScopeOf i c = p.isScopeOf i c :=
    isScopeOf_congr (name?_link _ _ _ _) (name?_link _ _ _ _)
  rw [parentOf?_link_of_not_isPlaced hparent hchild hfirst]
  by_cases heq : child = c
  · -- The node has been moved to the scope of its name, which it does not leave again.
    subst heq
    refine ⟨parent, if_pos rfl, .inr ?_⟩
    have hmoved := (not_isPlaced hfirst).2 existing hexisting
    rw [hscope, hscope, hmoved.2.1, Bool.not_true, Bool.and_false]
  · exact ⟨existing, (if_neg heq).trans hexisting, by rwa [hscope, hscope]⟩

theorem IsPlaced.upsert (hplaced : p.IsPlaced a c) (h : p.Tree) (hnamed : p.Named)
    (ha : (p.get? a).isSome) (hparent : node.parent = none) :
    (p.upsert node).2.IsPlaced a c := by
  refine hplaced.imp_right ?_
  rintro ⟨existing, hexisting, hstays⟩
  have hc : (p.get? c).isSome := isSome_of_parentOf? hexisting
  have hlister : (p.get? existing).isSome := h.isSome_parent hexisting
  refine ⟨existing, (parentOf?_upsert hparent c).trans hexisting, ?_⟩
  have hname := name?_upsert_of_isSome hnamed node hc
  rwa [isScopeOf_congr (name?_upsert_of_isSome hnamed node ha) hname,
    isScopeOf_congr (name?_upsert_of_isSome hnamed node hlister) hname]

/-! ## Shapes -/

/-- The same names at the same places of the same tree. -/
structure SameShape (p q : Projection) : Prop where
  names : p.names = q.names
  name : ∀ i, p.name? i = q.name? i
  parent : ∀ i, p.parentOf? i = q.parentOf? i
  children : ∀ i, p.childrenOf i = q.childrenOf i

theorem SameShape.refl (p : Projection) : p.SameShape p :=
  ⟨rfl, fun _ => rfl, fun _ => rfl, fun _ => rfl⟩

theorem SameShape.isPlaced (h : p.SameShape q) (hplaced : p.IsPlaced a c) : q.IsPlaced a c := by
  refine hplaced.imp_right ?_
  rintro ⟨existing, hexisting, hstays⟩
  refine ⟨existing, h.parent c ▸ hexisting, ?_⟩
  rwa [← isScopeOf_congr (h.name a) (h.name c), ← isScopeOf_congr (h.name existing) (h.name c)]

/-- Storing a node under a name that is there leaves the shape as it is. -/
theorem SameShape.upsert (h : p.SameShape q) (hq : q.Named) (hi : p.name? i = some node.fullName)
    (hchildren : node.children = []) (hparent : node.parent = none) :
    p.SameShape (q.upsert node).2 where
  names := by
    rw [names_upsert (lookupId?_of_name? hq ((h.name i).symm.trans hi)), h.names]
  name j := by
    have hself := upsert_fst_of_name? hq ((h.name i).symm.trans hi)
    rw [h.name j, name?, name?, label?_upsert hq]
    split
    · next heq =>
      subst heq
      rw [← name?, ← h.name, hself, hi]
      rfl
    · rfl
  parent j := (h.parent j).trans (parentOf?_upsert hparent j).symm
  children j := (h.children j).trans (childrenOf_upsert hchildren j).symm

/-- Nodes that know their positions are the same if they have the same places and bodies. -/
theorem eq_of_sameShape (h : p.SameShape q) (hp : ∀ i n, p.get? i = some n → n.id = i)
    (hq : ∀ i n, q.get? i = some n → n.id = i)
    (hbody : ∀ i a b, p.get? i = some a → q.get? i = some b → a.body = b.body) : p = q := by
  have hget : ∀ i, p.get? i = q.get? i := by
    intro i
    have hsome : (p.get? i).isSome = (q.get? i).isSome := by
      rw [← isSome_name?, ← isSome_name?, h.name]
    cases ha : p.get? i with
    | none =>
      cases hb : q.get? i with
      | none => rfl
      | some b => simp [ha, hb] at hsome
    | some a =>
      cases hb : q.get? i with
      | none => simp [ha, hb] at hsome
      | some b =>
        have hchildren := h.children i
        have hparent := h.parent i
        rw [childrenOf_of_get? ha, childrenOf_of_get? hb] at hchildren
        rw [parentOf?_of_get? ha, parentOf?_of_get? hb] at hparent
        rw [ProjectedType.eq_of_body (hbody i a b ha hb) ((hp i a ha).trans (hq i b hb).symm)
          hchildren hparent]
  have hnodes : p.nodes = q.nodes := Array.ext_getElem? fun k => hget ⟨k⟩
  have hnames : p.names = q.names := h.names
  cases p
  cases q
  rw [Projection.mk.injEq]
  exact ⟨hnodes, hnames⟩

end Projection

end TypeAtlas
