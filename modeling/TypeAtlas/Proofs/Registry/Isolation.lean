import TypeAtlas.Proofs.Registry.Consistency

/-!
# Slots that are left behind

Where facades do not give way, a definition gets a slot of its own and takes the name over from the
facade or primitive that had it. What is bound later is found by its name, so that nothing of the
resolved universe refers to the slot that is left behind, and what has kept its position finds a
leaf there.

## Main definitions

* `Registry.LosesName` — a slot whose name leads to another one.
* `TypeGraph.Isolated` — a node without edges, which no name leads to.

The main statement is `Registry.isolated_resolve`.
-/

namespace TypeAtlas

/-- A node stands for a name alone, refers to no node, and is what no node refers to at whatever
depth and no name leads to. -/
structure TypeGraph.Isolated (g : TypeGraph) (id : TypeId) : Prop where
  node : ∃ n, g.get? id = some n ∧ (n.kind = .facade ∨ n.kind = .primitive) ∧
    n.parent = none ∧ n.children = [] ∧ n.references = []
  unreferenced : ∀ i n, g.get? i = some n → id ∉ n.references
  unfound : ∀ name, g.lookupId? name ≠ some id

namespace Registry

variable {r : Registry} {id later : TypeId} {name : String}

/-- The name of a slot leads to another slot. -/
def LosesName (r : Registry) (id later : TypeId) (name : String) : Prop :=
  r.fullName? id = some name ∧ r.names[name]? = some later ∧ later ≠ id

namespace LosesName

/-- A slot that has lost its name does not get it back. -/
theorem grows {s : Registry} (h : r.LosesName id later name) (hs : r.Grows s) :
    s.LosesName id later name := by
  obtain ⟨hname, hlater, hne⟩ := h
  obtain ⟨slot, hslot, hfull⟩ := fullName?_eq_some.1 hname
  exact ⟨fullName?_eq_some.2 ⟨slot, hs.slot? hslot, hfull⟩, hs.names hlater, hne⟩

/-- No name leads to the slot. -/
theorem not_isNamed (h : r.LosesName id later name) (hr : r.Indexed) : ¬ r.IsNamed id := by
  rintro ⟨found, hfound⟩
  obtain ⟨hname, hlater, hne⟩ := h
  obtain rfl := Option.some.inj (hname.symm.trans (hr.fullName?_of_names hfound))
  exact hne (Option.some.inj (hlater.symm.trans hfound))

/-- What has lost its name gave way to a definition. -/
theorem leftBehind (h : r.LosesName id later name) (hr : r.Interned) : r.LeftBehind id later := by
  obtain ⟨hname, hlater, hne⟩ := h
  obtain ⟨hlast, hmax⟩ := hr.isLast_of_names name later hlater
  refine hr.leftBehind id later name hname hlast (Nat.lt_of_le_of_ne (hmax id hname) ?_)
  exact fun heq => hne (TypeId.eq_of_index heq.symm)

end LosesName

/-- The node of a slot without a name is a leaf, since an edge to or from it would need a name that
leads to it. -/
theorem edgeless_of_not_isNamed {slot : Slot} (h : r.Interned) (hid : ¬ r.settle.IsNamed id)
    (hslot : r.settle.slot? id = some slot) (hplaceholder : slot.isPlaceholder = true) :
    ∃ n, r.resolve.1.get? id = some n ∧ (n.kind = .facade ∨ n.kind = .primitive) ∧
      n.parent = none ∧ n.children = [] ∧ n.references = [] := by
  obtain ⟨n, hn, -, hkind⟩ := get?_resolve_of_slot hslot
  have hleaf : n.kind = .facade ∨ n.kind = .primitive := by
    rw [hkind]
    cases horigin : slot.origin <;> simp_all [Slot.kind, Slot.isPlaceholder]
  have hparent : n.parent = none := by
    rw [Option.eq_none_iff_forall_ne_some]
    intro parent hparent
    obtain ⟨p, hp, hlisted⟩ := h.consistent.listed id n parent hn
      (by rcases hleaf with hleaf | hleaf <;> simp [hleaf]) hparent
    exact hid (h.isNamed_of_mem_references hp (TypeNode.mem_references.2 (.inr (.inl hlisted))))
  have hchildren : n.children = [] := by
    rw [List.eq_nil_iff_forall_not_mem]
    intro child hchild
    have hedge : r.resolve.1.ChildOf id child := by
      rwa [TypeGraph.ChildOf, TypeGraph.childrenOf, hn]
    obtain ⟨d, hd, hlisted | hnamer⟩ := childOf_resolve.1 hedge
    · have hcompound : slot.compound? = none := by
        cases horigin : slot.origin <;> simp_all [Slot.compound?, Slot.isPlaceholder]
      obtain rfl := Option.some.inj (hd.symm.trans (draft_leaf hslot hcompound))
      simp [leaf_children] at hlisted
    · obtain ⟨other, hother, rfl, -, hparent⟩ := (TypeGraph.mem_namers _ _).1 hnamer
      exact hid (isNamed_of_draft_parent h (mem_draft hother) hparent)
  refine ⟨n, hn, hleaf, hparent, hchildren, ?_⟩
  have hvariant : n.variant.references = [] := by
    unfold TypeNode.kind at hleaf
    cases hv : n.variant with
    | composite kind body => cases kind <;> simp [hv, TypeVariant.kind, CompositeKind.kind] at hleaf
    | «namespace» | primitive | facade => rfl
    | _ => simp [hv, TypeVariant.kind] at hleaf
  simp [TypeNode.references, hparent, hchildren, hvariant]

/-- Whatever the universe, the settings, the parser and the order of references and definitions, the
node of a slot that has lost its name is isolated in the resolved universe, where its name leads to
the slot that has taken it over. No reference led to it before, either. -/
theorem isolated_resolve (origin : Universe) (settings : RegistrySettings)
    (parser : DeclarationParser) (acts : List Interning) (id later : TypeId) (name : String)
    (hname : ((Registry.empty origin settings parser).internAll acts).LosesName id later name) :
    let r := (Registry.empty origin settings parser).internAll acts
    r.resolve.1.Isolated id ∧ r.resolve.1.lookupId? name = some later ∧
      ∀ reference, r.lookup? reference ≠ some id := by
  intro r
  have h : r.Interned := (Interned.empty origin settings parser).internAll acts
  have hindexed : r.settle.Indexed := indexed_settle h.toIndexed
  have hsettled := hname.grows r.grows_settle
  have hid : ¬ r.settle.IsNamed id := hsettled.not_isNamed hindexed
  obtain ⟨-, ⟨slot, hslot, hplaceholder⟩, -⟩ := hname.leftBehind h
  refine ⟨⟨?_, ?_, ?_⟩, ?_, ?_⟩
  · exact edgeless_of_not_isNamed h hid (r.grows_settle.slot? hslot) hplaceholder
  · exact fun i n hn hmem => hid (h.isNamed_of_mem_references hn hmem)
  · intro found hfound
    unfold TypeGraph.lookupId? at hfound
    rw [names_resolve] at hfound
    split at hfound
    · next hnames => exact hid ⟨found, hnames.trans hfound⟩
    · split at hfound
      · exact hid (hindexed.isNamed_of_folded hfound)
      · simp at hfound
  · rw [TypeGraph.lookupId?, names_resolve, hsettled.2.1]
  · exact fun reference hreference =>
      hname.not_isNamed h.toIndexed (h.isNamed_of_lookup? hreference)

/-- A reference to a class that is defined later, and a class that has it as a base, in another
letter case. -/
def definedLate : List Interning :=
  [.refer "Foo", .define (Compound.empty "1" .managed "Foo" .classType),
    .define { Compound.empty "2" .managed "Bar" .classType with baseNames := ["FOO"] }]

/-- The facade that the reference has made is left behind, and the base is the definition. -/
theorem isolated_resolve_definedLate :
    let r := (Registry.empty .managed (.ofPreset .legacy)).internAll definedLate
    r.LosesName ⟨1⟩ ⟨2⟩ "Foo" ∧ r.resolve.1.Isolated ⟨1⟩ ∧
      (r.resolve.1.get? ⟨3⟩).bind (·.baseTypes?) = some [⟨2⟩] := by
  intro r
  have hloses : r.LosesName ⟨1⟩ ⟨2⟩ "Foo" := by
    refine ⟨?_, ?_, ?_⟩ <;> decide +kernel
  refine ⟨hloses, ?_, by decide +kernel⟩
  exact (isolated_resolve .managed (.ofPreset .legacy) .standard definedLate ⟨1⟩ ⟨2⟩ "Foo" hloses).1

end Registry

end TypeAtlas
