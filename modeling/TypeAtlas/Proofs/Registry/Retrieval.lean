import TypeAtlas.Proofs.Registry.Resolution
import TypeAtlas.Proofs.Registry.Seeking

/-!
# Names before and after resolving

A resolved universe keeps the names of its registry, but it looks them up on its own. Where
resolving has added no slot, the two agree on every name but one kind: a built-in name stands for
itself only in a registry, while the resolved universe takes it for another spelling of it like any
other name.

## Main definitions

* `Registry.FoldsBuiltin` — a built-in name that only another spelling of it is known of.

The main statement is `Registry.retrieves_resolve`.
-/

namespace TypeAtlas

/-- What letter case is ignored for in a resolved universe: any name. -/
theorem TypeGraph.lookupId?_eq_or (g : TypeGraph) (name : String) :
    g.lookupId? name = g.names[name]?.or
      (if g.foldsCase then g.foldedNames[Text.lowercase name]? else none) := by
  unfold lookupId?
  cases g.names[name]? <;> rfl

namespace Registry

variable {r s : Registry} {name : String}

/-- A registry that has not gained a slot is the same. -/
theorem Grows.eq_of_size (h : r.Grows s) (hsize : s.size = r.size) : s = r := by
  cases h with
  | refl => rfl
  | refer h | parameter h =>
    have := h.size_le
    rw [size_push] at hsize
    omega

/-- What letter case is ignored for in a registry: a name that is not built in. -/
theorem find?_eq_or (r : Registry) (name : String) : r.find? name = r.names[name]?.or
    (if r.foldsCase && !r.isBuiltin name then r.foldedNames[Text.lowercase name]? else none) := by
  unfold find?
  cases r.names[name]? <;> rfl

/-- A name that is read as itself is looked up as it is. -/
theorem lookup?_of_canonical (hne : name ≠ "") (htrimmed : Text.trimmed name = name)
    (hparsed : (r.parser.parse name).fullName = name) : r.lookup? name = r.find? name := by
  have hkey : r.keyOf name = name := by
    simp [keyOf, hparsed]
  rw [lookup?_of_trimmed hne htrimmed, if_pos hkey, Option.or_none]

/-- Where resolving adds no slot, the universe has the names of the registry. -/
theorem lookupId?_resolve_of_size (hsize : r.resolve.1.size = r.size) :
    r.resolve.1.lookupId? name = r.names[name]?.or
      (if r.foldsCase then r.foldedNames[Text.lowercase name]? else none) := by
  have hsettle : r.settle = r := r.grows_settle.eq_of_size (r.size_resolve ▸ hsize)
  have hfolded : r.resolve.1.foldedNames = r.settle.foldedNames := rfl
  have hfolds : r.resolve.1.foldsCase = r.settle.foldsCase := rfl
  rw [TypeGraph.lookupId?_eq_or, names_resolve, hfolded, hfolds, hsettle]

/-- The name is built in and letter case is ignored; no slot has the name as it is written, but
some slot has another spelling of it. -/
structure FoldsBuiltin (r : Registry) (name : String) : Prop where
  folds : r.foldsCase = true
  builtin : r.isBuiltin name = true
  fresh : r.names[name]? = none
  spelled : ∃ other id, other ≠ "" ∧ Text.lowercase other = Text.lowercase name ∧
    r.names[other]? = some id

/-- The lower case of a name leads to the slot of its first spelling, if it has any. -/
theorem Indexed.foldedNames_cases (h : r.Indexed) (name : String) :
    (r.foldedNames[Text.lowercase name]? = none ∧
      ∀ other id, other ≠ "" → r.names[other]? = some id →
        Text.lowercase other ≠ Text.lowercase name) ∨
    ∃ first id, r.firstSpelling? (Text.lowercase name) = some first ∧ first ≠ "" ∧
      Text.lowercase first = Text.lowercase name ∧ r.names[first]? = some id ∧
      r.foldedNames[Text.lowercase name]? = some id := by
  cases hfirst : r.firstSpelling? (Text.lowercase name) with
  | none =>
    refine .inl ⟨by rw [h.folded, hfirst]; rfl, ?_⟩
    intro other id hne hid hlower
    obtain ⟨first, hspelling⟩ := h.exists_firstSpelling? hid hne
    simp [hlower, hfirst] at hspelling
  | some first =>
    obtain ⟨id, hid⟩ := h.names_of_firstSpelling? hfirst
    have hlower : Text.lowercase first = Text.lowercase name := by
      simpa using List.find?_some hfirst
    refine .inr ⟨first, id, rfl, h.firstSpelling?_ne_empty hfirst, hlower, hid, ?_⟩
    rw [h.folded, hfirst, Option.bind_some, hid]

/-- A built-in name of another spelling is unknown to the registry. -/
theorem FoldsBuiltin.find?_eq_none (h : r.FoldsBuiltin name) : r.find? name = none := by
  rw [find?_eq_or, h.fresh, h.builtin]
  simp

/-- In a registry that is filled by references and definitions in any order, and which resolving
adds no slot to, a name that is read as itself leads to the same slot before and after resolving,
unless it is a built-in name that only another spelling of it is known of. Such a name is unknown to
the registry, and leads to the slot of the first spelling in the resolved universe. -/
theorem retrieves_resolve (origin : Universe) (settings : RegistrySettings)
    (parser : DeclarationParser) (acts : List Interning) (r : Registry)
    (hr : r = (Registry.empty origin settings parser).internAll acts)
    (hsize : r.resolve.1.size = r.size) (name : String) (hne : name ≠ "")
    (htrimmed : Text.trimmed name = name) (hparsed : (r.parser.parse name).fullName = name) :
    (r.resolve.1.lookupId? name = r.lookup? name ↔ ¬ r.FoldsBuiltin name) ∧
      (r.FoldsBuiltin name → r.lookup? name = none ∧ ∃ first id, first ≠ name ∧
        r.firstSpelling? (Text.lowercase name) = some first ∧ r.names[first]? = some id ∧
        r.resolve.1.lookupId? name = some id) := by
  have h : r.Indexed :=
    (hr ▸ (Interned.empty origin settings parser).internAll acts : r.Interned).toIndexed
  have hlookup : r.lookup? name = r.find? name := lookup?_of_canonical hne htrimmed hparsed
  -- What a built-in name of another spelling leads to.
  have hleads : r.FoldsBuiltin name → ∃ first id, first ≠ name ∧
      r.firstSpelling? (Text.lowercase name) = some first ∧ r.names[first]? = some id ∧
      r.resolve.1.lookupId? name = some id := by
    intro hfolds
    obtain ⟨other, id, hother, hlower, hid⟩ := hfolds.spelled
    rcases h.foldedNames_cases name with ⟨-, hnone⟩ | ⟨first, found, hfirst, -, -, hfound, hfolded⟩
    · exact absurd hlower (hnone other id hother hid)
    · refine ⟨first, found, ?_, hfirst, hfound, ?_⟩
      · rintro rfl
        simp [hfolds.fresh] at hfound
      · rw [lookupId?_resolve_of_size hsize, hfolds.fresh, Option.none_or, if_pos hfolds.folds,
          hfolded]
  refine ⟨⟨?_, ?_⟩, fun hfolds => ⟨by rw [hlookup, hfolds.find?_eq_none], hleads hfolds⟩⟩
  · intro hagree hfolds
    obtain ⟨first, id, -, -, -, hid⟩ := hleads hfolds
    rw [hagree, hlookup, hfolds.find?_eq_none] at hid
    simp at hid
  · intro hfolds
    rw [hlookup, lookupId?_resolve_of_size hsize, find?_eq_or]
    -- The two differ in what they ignore letter case for, which matters for a built-in name only.
    cases hname : r.names[name]? with
    | some id => rfl
    | none =>
      cases hcase : r.foldsCase with
      | false => rfl
      | true =>
        cases hbuiltin : r.isBuiltin name with
        | false => rfl
        | true =>
          rcases h.foldedNames_cases name with ⟨hnone, -⟩ | ⟨first, id, -, hne, hlower, hid, -⟩
          · simp [hnone]
          · exact absurd ⟨hcase, hbuiltin, hname, first, id, hne, hlower, hid⟩ hfolds

/-- A managed universe with a class whose name is a built-in one but for its letter case. -/
def capitalized : Registry :=
  (Registry.empty .managed (.ofPreset .standard)).internAll
    [.define (Compound.empty "b" .managed "Bool" .classType)]

/-- The built-in name is unknown before resolving, and leads to the class afterwards. -/
theorem retrieves_resolve_capitalized :
    capitalized.FoldsBuiltin "bool" ∧ capitalized.lookup? "bool" = none ∧
      capitalized.resolve.1.lookupId? "bool" = some ⟨1⟩ ∧
      ¬ capitalized.resolve.1.lookupId? "bool" = capitalized.lookup? "bool" := by
  have hfolds : capitalized.FoldsBuiltin "bool" := by
    refine ⟨?_, ?_, ?_, "Bool", ⟨1⟩, ?_, ?_, ?_⟩ <;> decide +kernel
  have hiff := retrieves_resolve .managed (.ofPreset .standard) .standard
    [.define (Compound.empty "b" .managed "Bool" .classType)] capitalized rfl (by decide +kernel)
    "bool" (by decide) (by decide +kernel) (by decide +kernel)
  exact ⟨hfolds, (hiff.2 hfolds).1, by decide +kernel, fun hagree => hiff.1.1 hagree hfolds⟩

end Registry

end TypeAtlas
