import TypeAtlas.Proofs.Registry.Consistency
import TypeAtlas.Proofs.Registry.Shadowing

/-!
# Finding the nodes of a resolved universe

A child is found by its name before it is listed, so that its name leads to it in the graph as well.
Definitions are kept under trimmed names; where they are written without blanks around them, a node
is called what its slot is called, and what a name leads to is called so up to letter case.

## Main definitions

* `Registry.Labelled` — definitions are called what their slots are called.
* `TypeGraph.Finds` — the name of a node leads to it.
* `TypeGraph.Navigable` — what a graph guarantees of the names of its nodes.

The main statement is `Registry.navigable_internAll`.
-/

namespace TypeAtlas

open Binding

/-- The name of a node leads to it. -/
def TypeGraph.Finds (g : TypeGraph) (n : TypeNode) : Prop :=
  g.lookup? n.fullName = some n

/-- What a graph guarantees of the names of its nodes. -/
structure TypeGraph.Navigable (g : TypeGraph) : Prop where
  id : ∀ i n, g.get? i = some n → n.id = i
  global : ∃ n, g.get? .global = some n ∧ g.Finds n ∧ n.fullName = "" ∧ n.kind = .namespace
  child : ∀ i n x child, g.get? i = some n → x ∈ n.children → g.get? x = some child →
    g.Finds child ∧ child.fullName ≠ ""
  lookup : ∀ name n, g.lookup? name = some n →
    g.Finds n ∧ Text.lowercase n.fullName = Text.lowercase name

namespace Registry

variable {r moment : Registry} {id : TypeId} {n : TypeNode} {c : Compound}

/-! ## Names of definitions -/

/-- Definitions are called what their slots are called. -/
def Labelled (r : Registry) : Prop :=
  ∀ id slot c, r.slot? id = some slot → slot.compound? = some c → c.fullName = slot.fullName

theorem labelled_empty (origin : Universe) (settings : RegistrySettings)
    (parser : DeclarationParser) : (Registry.empty origin settings parser).Labelled := by
  rintro ⟨_ | i⟩ slot c hslot hc
  · obtain rfl : ({ fullName := "", origin := .globalNamespace } : Slot) = slot :=
      Option.some.inj hslot
    simp [Slot.compound?] at hc
  · simp [Registry.empty, slot?] at hslot

namespace Labelled

theorem push {key : String} {origin : SlotOrigin} (h : r.Labelled)
    (hnew : ∀ c, (Slot.mk key origin).compound? = some c → c.fullName = key) :
    (r.push key origin).2.Labelled := by
  intro id slot c hslot hc
  rw [slot?_push] at hslot
  split at hslot
  · obtain rfl := Option.some.inj hslot
    exact hnew c hc
  · exact h id slot c hslot hc

theorem setOrigin {slot : Slot} (h : r.Labelled) (hslot : r.slot? id = some slot)
    (hc : c.fullName = slot.fullName) : (r.setOrigin id (.compound c)).Labelled := by
  intro i other c' hother hc'
  rw [slot?_setOrigin] at hother
  split at hother
  · next heq =>
    subst heq
    rw [hslot, Option.map_some] at hother
    obtain rfl := Option.some.inj hother
    obtain rfl : c = c' := by simpa [Slot.compound?] using hc'
    exact hc
  · exact h i other c' hother hc'

theorem getOrCreate (h : r.Labelled) (reference : String) :
    (r.getOrCreate reference).2.Labelled := by
  unfold Registry.getOrCreate
  split
  · exact h
  · refine h.push fun c hc => ?_
    split at hc <;> simp [Slot.compound?] at hc

theorem replacePlaceholder {slot : Slot} (h : r.Labelled) (hslot : r.slot? id = some slot)
    (hname : slot.fullName = c.fullName) :
    (r.replacePlaceholder id c.fullName c).2.Labelled := by
  unfold Registry.replacePlaceholder
  split
  · exact h.setOrigin hslot hname.symm
  · refine h.push fun c' hc' => ?_
    obtain rfl : c = c' := by simpa [Slot.compound?] using hc'
    rfl

theorem define (h : r.Labelled) (hr : r.Indexed) (hc : Text.trimmed c.fullName = c.fullName) :
    (r.define c).2.Labelled := by
  unfold Registry.define
  dsimp only
  rw [hc]
  split
  · exact h
  · split
    · refine h.push fun c' hc' => ?_
      obtain rfl : c = c' := by simpa [Slot.compound?] using hc'
      rfl
    · next id hid =>
      split
      · exact h
      · next slot hslot =>
        have hname : slot.fullName = c.fullName := by
          have hfull := hr.fullName?_of_names hid
          simpa [fullName?, hslot] using hfull
        split
        · next known horigin =>
          exact h.setOrigin hslot (h id slot known hslot (by simp [Slot.compound?, horigin]))
        · exact h.replacePlaceholder hslot hname
        · exact h.replacePlaceholder hslot hname
        · exact h

end Labelled

theorem labelled_internAll (origin : Universe) (settings : RegistrySettings)
    (parser : DeclarationParser) (acts : List Interning)
    (htrimmed : ∀ c, .define c ∈ acts → Text.trimmed c.fullName = c.fullName) :
    ((Registry.empty origin settings parser).internAll acts).Labelled := by
  induction acts using List.reverseRecOn with
  | nil => exact labelled_empty origin settings parser
  | append_singleton acts act ih =>
    have hacts := ih fun c hc => htrimmed c (List.mem_append_left _ hc)
    rw [internAll_concat]
    cases act with
    | refer reference => exact hacts.getOrCreate reference
    | define c =>
      have hindexed := ((Interned.empty origin settings parser).internAll acts).toIndexed
      exact hacts.define hindexed (htrimmed c (by simp))

/-! ## Names of nodes -/

/-- A node is called what its slot is called. -/
theorem fullName?_of_draft (h : r.Labelled) (hn : r.draft[id.index]? = some n) :
    r.settle.fullName? id = some n.fullName := by
  rw [fullName?_eq_some]
  rcases draft_cases hn with ⟨c, hc, site, -, hbinds⟩ | ⟨slot, hslot, -, rfl⟩
  · obtain ⟨slot, hslot, hcompound⟩ := mem_definitions.1 hc
    refine ⟨slot, r.grows_settle.slot? hslot, ?_⟩
    rw [hbinds.fullName, h id slot c hslot hcompound]
  · exact ⟨slot, hslot, (leaf_fullName _ _ _).symm⟩

theorem fullName?_of_resolve (h : r.Labelled) (hn : r.resolve.1.get? id = some n) :
    r.settle.fullName? id = some n.fullName := by
  obtain ⟨d, hd, rfl⟩ := get?_resolve_eq_some.1 hn
  rw [TypeNode.linked_fullName]
  exact fullName?_of_draft h hd

/-- The name of a node leads to it if any name does. -/
theorem finds_of_names {name : String} (h : r.Interned) (hlabelled : r.Labelled)
    (hname : r.settle.names[name]? = some id) (hn : r.resolve.1.get? id = some n) :
    r.resolve.1.Finds n ∧ n.fullName = name := by
  have hfull := (indexed_settle h.toIndexed).fullName?_of_names hname
  obtain rfl : n.fullName = name :=
    Option.some.inj ((fullName?_of_resolve hlabelled hn).symm.trans hfull)
  refine ⟨?_, rfl⟩
  rw [TypeGraph.Finds, TypeGraph.lookup?, TypeGraph.lookupId?, names_resolve, hname]
  exact hn

/-! ## Names that lead to nodes -/

theorem lookup_resolve {name : String} (h : r.Interned) (hlabelled : r.Labelled)
    (hn : r.resolve.1.lookup? name = some n) :
    r.resolve.1.Finds n ∧ Text.lowercase n.fullName = Text.lowercase name := by
  have hindexed := indexed_settle h.toIndexed
  obtain ⟨id, hid, hnode⟩ := Option.bind_eq_some_iff.1 hn
  unfold TypeGraph.lookupId? at hid
  rw [names_resolve] at hid
  split at hid
  · next found hfound =>
    obtain rfl := Option.some.inj hid
    obtain ⟨hfinds, rfl⟩ := finds_of_names h hlabelled hfound hnode
    exact ⟨hfinds, rfl⟩
  · split at hid
    · have hfolded : r.settle.foldedNames[Text.lowercase name]? = some id := hid
      rw [hindexed.folded, Option.bind_eq_some_iff] at hfolded
      obtain ⟨spelling, hspelling, hname⟩ := hfolded
      obtain ⟨hfinds, rfl⟩ := finds_of_names h hlabelled hname hnode
      exact ⟨hfinds, by simpa using List.find?_some hspelling⟩
    · simp at hid

/-- Whatever the universe, the settings, the parser and the order of references and definitions, the
names of the nodes of a universe lead to them if the definitions have no blanks around their
names. -/
theorem navigable_internAll (origin : Universe) (settings : RegistrySettings)
    (parser : DeclarationParser) (acts : List Interning)
    (htrimmed : ∀ c, .define c ∈ acts → Text.trimmed c.fullName = c.fullName) :
    ((Registry.empty origin settings parser).internAll acts).resolve.1.Navigable := by
  have hlabelled := labelled_internAll origin settings parser acts htrimmed
  generalize hr : (Registry.empty origin settings parser).internAll acts = r at hlabelled
  have h : r.Interned := hr ▸ (Interned.empty origin settings parser).internAll acts
  have hindexed := indexed_settle h.toIndexed
  refine ⟨h.consistent.id, ?_, ?_, fun name n hn => lookup_resolve h hlabelled hn⟩
  · obtain ⟨n, hn, -, hkind⟩ := (linked_resolve h).global
    obtain ⟨hfinds, hname⟩ := finds_of_names h hlabelled hindexed.names_empty hn
    exact ⟨n, hn, hfinds, hname, hkind⟩
  · intro i n x child hn hx hchild
    obtain ⟨name, hname⟩ := h.isNamed_of_mem_references hn
      (TypeNode.mem_references.2 (.inr (.inl hx)))
    obtain ⟨hfinds, rfl⟩ := finds_of_names h hlabelled hname hchild
    refine ⟨hfinds, ?_⟩
    intro hempty
    have hglobal := hindexed.nameless x (hempty ▸ hindexed.fullName?_of_names hname)
    exact (h.consistent.node i n hn).children_nonglobal (hglobal ▸ hx)

end Registry

end TypeAtlas
