import TypeAtlas.Proofs.Declaration.Spacing
import TypeAtlas.Proofs.Registry.Arena

/-!
# Interning

A registry is filled by references and by definitions, in any order. Whatever the order, a name
leads to the last slot that carries it, the first spelling of a folded name decides what the folded
name leads to, and a name has more than one slot only where a definition left a placeholder behind.

## Main definitions

* `Interning`, `Registry.internAll` — a reference or a definition, and a sequence of them.
* `Registry.Change` — the ways in which interning changes a registry.
* `Registry.Interned` — the invariant of a registry that is filled by interning.
* `Registry.Identity` — what the names of a registry stand for.

The main statement is `Registry.identity_internAll`.
-/

namespace TypeAtlas

/-- An act that interns a name. -/
inductive Interning where
  | refer (reference : String)
  | define (c : Compound)
  deriving Repr

theorem Slot.not_isPlaceholder {slot : Slot} (h : slot.compound?.isSome) :
    slot.isPlaceholder = false := by
  cases horigin : slot.origin <;> simp_all [Slot.isPlaceholder, Slot.compound?]

namespace Registry

variable {r grown : Registry} {id : TypeId} {name : String}

/-- The slot that an act interns, and the registry after it. -/
def intern (r : Registry) : Interning → TypeId × Registry
  | .refer reference => r.getOrCreate reference
  | .define c => r.define c

/-- The registry after a sequence of acts. -/
def internAll (r : Registry) (acts : List Interning) : Registry :=
  acts.foldl (fun r act => (r.intern act).2) r

@[simp] theorem internAll_nil (r : Registry) : r.internAll [] = r := rfl

@[simp] theorem internAll_concat (r : Registry) (acts : List Interning) (act : Interning) :
    r.internAll (acts ++ [act]) = ((r.internAll acts).intern act).2 := by
  simp [internAll]

theorem defineAll_eq_internAll (r : Registry) (cs : List Compound) :
    r.defineAll cs = r.internAll (cs.map .define) := by
  simp [defineAll, internAll, List.foldl_map, intern]

/-! ## Changes -/

/-- The origin of a slot of which only the name is known. -/
def placeholder (r : Registry) (key : String) : SlotOrigin :=
  if r.isBuiltin key then .primitive else .facade

theorem isPlaceholder_placeholder (r : Registry) (key fullName : String) :
    (Slot.mk fullName (r.placeholder key)).isPlaceholder = true := by
  unfold placeholder
  split <;> rfl

/-- The ways in which interning changes a registry. -/
inductive Change (r : Registry) : Registry → Prop where
  | keep : Change r r
  /-- A name without a slot is referred to. -/
  | refer (key : String) (hne : key ≠ "") (htrimmed : Text.trimmed key = key)
      (hfresh : r.names[key]? = none) : Change r (r.push key (r.placeholder key)).2
  /-- A name without a slot is defined. -/
  | define (key : String) (c : Compound) (hne : key ≠ "") (htrimmed : Text.trimmed key = key)
      (hfresh : r.names[key]? = none) : Change r (r.push key (.compound c)).2
  /-- A definition leaves the slot of its name behind. -/
  | leave (key : String) (c : Compound) (id : TypeId) (slot : Slot) (hne : key ≠ "")
      (htrimmed : Text.trimmed key = key) (hid : r.names[key]? = some id)
      (hslot : r.slot? id = some slot) (hplaceholder : slot.isPlaceholder = true)
      (hleave : r.settings.upgradeFacades = false) : Change r (r.push key (.compound c)).2
  /-- A definition fills the slot of its name. -/
  | fill (c : Compound) (id : TypeId) (slot : Slot) (hslot : r.slot? id = some slot)
      (hfill : slot.compound?.isSome ∨
        slot.isPlaceholder = true ∧ r.settings.upgradeFacades = true) :
      Change r (r.setOrigin id (.compound c))

theorem keyOf_ne_empty (r : Registry) (hne : name ≠ "") : r.keyOf name ≠ "" := by
  unfold keyOf
  dsimp only
  split
  · exact hne
  · assumption

theorem trimmed_keyOf (r : Registry) (htrimmed : Text.trimmed name = name) :
    Text.trimmed (r.keyOf name) = r.keyOf name := by
  unfold keyOf
  dsimp only
  split
  · exact htrimmed
  · exact r.parser.trimmed_fullName_parse name

theorem names_of_find? (h : r.find? name = none) : r.names[name]? = none := by
  unfold find? at h
  split at h
  · simp at h
  · assumption

theorem find?_of_names (h : r.names[name]? = some id) : r.find? name = some id := by
  unfold find?
  rw [h]

/-- What a reference leads to has a name that leads to it. -/
theorem Indexed.isNamed_of_lookup? {reference : String} (h : r.Indexed)
    (hid : r.lookup? reference = some id) : r.IsNamed id := by
  have hfind : ∀ {name}, r.find? name = some id → r.IsNamed id := by
    intro name hname
    unfold find? at hname
    split at hname
    · next found hfound => exact ⟨name, hname ▸ hfound⟩
    · split at hname
      · exact h.isNamed_of_folded hname
      · simp at hname
  unfold lookup? at hid
  dsimp only at hid
  split at hid
  · obtain rfl := Option.some.inj hid
    exact ⟨"", h.names_empty⟩
  · rcases Option.or_eq_some_iff.1 hid with hid | ⟨-, hid⟩
    · exact hfind hid
    · split at hid
      · simp at hid
      · exact hfind hid

theorem lookup?_of_trimmed (hne : name ≠ "") (htrimmed : Text.trimmed name = name) :
    r.lookup? name = (r.find? name).or
      (if r.keyOf name = name then none else r.find? (r.keyOf name)) := by
  simp only [lookup?, htrimmed, if_neg hne]

/-- A reference that is not found has a name, and the name of its type has no slot. -/
theorem names_keyOf_of_lookup? {reference : String} (h : r.lookup? reference = none) :
    Text.trimmed reference ≠ "" ∧ r.find? (Text.trimmed reference) = none ∧
      r.names[r.keyOf (Text.trimmed reference)]? = none := by
  unfold lookup? at h
  dsimp only at h
  split at h
  · simp at h
  · next hne =>
    obtain ⟨hfind, hkey⟩ := Option.or_eq_none_iff.1 h
    refine ⟨hne, hfind, ?_⟩
    split at hkey
    · next heq => rw [heq]; exact names_of_find? hfind
    · exact names_of_find? hkey

theorem change_getOrCreate (r : Registry) (reference : String) :
    Change r (r.getOrCreate reference).2 := by
  unfold getOrCreate
  split
  · exact .keep
  · next h =>
    obtain ⟨hne, -, hfresh⟩ := names_keyOf_of_lookup? h
    exact .refer _ (r.keyOf_ne_empty hne) (r.trimmed_keyOf (by simp)) hfresh

theorem define_fresh {c : Compound} (hne : Text.trimmed c.fullName ≠ "")
    (hfresh : r.names[Text.trimmed c.fullName]? = none) :
    r.define c = r.push (Text.trimmed c.fullName) (.compound c) := by
  unfold define
  dsimp only
  rw [if_neg hne, hfresh]

theorem change_define (r : Registry) (c : Compound) : Change r (r.define c).2 := by
  have hleave : ∀ key id slot, key ≠ "" → Text.trimmed key = key → r.names[key]? = some id →
      r.slot? id = some slot → slot.isPlaceholder = true →
      Change r (r.replacePlaceholder id key c).2 := by
    intro key id slot hne htrimmed hid hslot hplaceholder
    unfold replacePlaceholder
    split
    · next hsettings => exact .fill c id slot hslot (.inr ⟨hplaceholder, hsettings⟩)
    · next hsettings =>
      exact .leave key c id slot hne htrimmed hid hslot hplaceholder (by simpa using hsettings)
  unfold define
  dsimp only
  split
  · exact .keep
  · next hne =>
    split
    · next hfresh => exact .define _ c hne (by simp) hfresh
    · next id hid =>
      split
      · exact .keep
      · next slot hslot =>
        split
        · next known horigin =>
          exact .fill _ id slot hslot (.inl (by simp [Slot.compound?, horigin]))
        · next horigin =>
          exact hleave _ id slot hne (by simp) hid hslot (by simp [Slot.isPlaceholder, horigin])
        · next horigin =>
          exact hleave _ id slot hne (by simp) hid hslot (by simp [Slot.isPlaceholder, horigin])
        · exact .keep

theorem change_intern (r : Registry) (act : Interning) : Change r (r.intern act).2 := by
  cases act with
  | refer reference => exact change_getOrCreate r reference
  | define c => exact change_define r c

namespace Change

theorem settings_eq (h : Change r grown) : grown.settings = r.settings := by
  cases h <;> rfl

theorem origin_eq (h : Change r grown) : grown.origin = r.origin := by
  cases h <;> rfl

theorem parser_eq (h : Change r grown) : grown.parser = r.parser := by
  cases h <;> rfl

theorem size_le (h : Change r grown) : grown.size ≤ r.size + 1 := by
  cases h <;> simp

/-- A slot keeps its name. -/
theorem fullName? (h : Change r grown) (hid : r.fullName? id = some name) :
    grown.fullName? id = some name := by
  cases h with
  | keep => exact hid
  | refer | define | leave => exact fullName?_push_of_some hid
  | fill => simpa using hid

end Change

theorem parser_defineAll (r : Registry) (cs : List Compound) :
    (r.defineAll cs).parser = r.parser := by
  induction cs generalizing r with
  | nil => rfl
  | cons c cs ih => exact (ih _).trans (change_define r c).parser_eq

/-! ## The invariant -/

/-- A slot that a definition has left behind, and the slot of the definition. -/
def LeftBehind (r : Registry) (i j : TypeId) : Prop :=
  r.settings.upgradeFacades = false ∧ (∃ slot, r.slot? i = some slot ∧ slot.isPlaceholder = true) ∧
    ∃ slot, r.slot? j = some slot ∧ slot.compound?.isSome

/-- What is left behind is not what it is left behind for. -/
theorem LeftBehind.not_trans {i j k : TypeId} (hij : r.LeftBehind i j) : ¬ r.LeftBehind j k := by
  rintro ⟨-, ⟨slot, hslot, hplaceholder⟩, -⟩
  obtain ⟨-, -, slot', hslot', hcompound⟩ := hij
  obtain rfl := Option.some.inj (hslot.symm.trans hslot')
  simp [Slot.not_isPlaceholder hcompound] at hplaceholder

/-- The invariant of a registry that is filled by interning. -/
structure Interned (r : Registry) : Prop extends Indexed r where
  trimmed : ∀ id name, r.fullName? id = some name → Text.trimmed name = name
  leftBehind : ∀ i j name, r.fullName? i = some name → r.fullName? j = some name →
    i.index < j.index → r.LeftBehind i j
  /-- There are no type parameters yet. -/
  content : ∀ id slot, r.slot? id = some slot → id ≠ .global →
    slot.compound?.isSome ∨ slot.isPlaceholder = true

namespace Interned

theorem empty (origin : Universe) (settings : RegistrySettings) (parser : DeclarationParser) :
    (Registry.empty origin settings parser).Interned := by
  have hsize : (Registry.empty origin settings parser).size = 1 := rfl
  refine ⟨Indexed.empty origin settings parser, ?_, ?_, ?_⟩
  · intro id name hid
    have hlt := index_lt_of_fullName? hid
    rw [hsize, Nat.lt_one_iff] at hlt
    obtain rfl : id = .global := TypeId.eq_of_index hlt
    obtain rfl : "" = name := by
      simpa [Registry.fullName?, slot?, Registry.empty, TypeId.global] using hid
    decide
  · intro i j name hi hj hlt
    have := index_lt_of_fullName? hj
    omega
  · intro id slot hslot hne
    have hlt : id.index < 1 := (Array.getElem?_eq_some_iff.1 hslot).1
    rw [Nat.lt_one_iff] at hlt
    exact absurd (TypeId.eq_of_index hlt) hne

/-- A new slot keeps the invariant if it is a definition that leaves the slots of its name
behind. -/
theorem push {key : String} {origin : SlotOrigin} (h : r.Interned) (hne : key ≠ "")
    (htrimmed : Text.trimmed key = key)
    (hcontent : (Slot.mk key origin).compound?.isSome ∨
      (Slot.mk key origin).isPlaceholder = true)
    (hleave : ∀ i, r.fullName? i = some key → r.settings.upgradeFacades = false ∧
      (∃ slot, r.slot? i = some slot ∧ slot.isPlaceholder = true) ∧ ∃ c, origin = .compound c) :
    (r.push key origin).2.Interned := by
  refine ⟨h.toIndexed.push hne, ?_, ?_, ?_⟩
  · intro id name hid
    rw [fullName?_push] at hid
    split at hid
    · obtain rfl := Option.some.inj hid
      exact htrimmed
    · exact h.trimmed id name hid
  · intro i j name hi hj hlt
    have hj' := index_lt_of_fullName? hj
    rw [size_push] at hj'
    have hi' : i ≠ ⟨r.size⟩ := by
      rintro rfl
      dsimp only at hlt
      omega
    rw [fullName?_push, if_neg hi'] at hi
    rw [fullName?_push] at hj
    split at hj
    · next hnew =>
      obtain rfl := Option.some.inj hj
      obtain ⟨hsettings, ⟨slot, hslot, hplaceholder⟩, c, rfl⟩ := hleave i hi
      refine ⟨hsettings, ⟨slot, slot?_push_of_some hslot, hplaceholder⟩, ?_⟩
      exact ⟨_, by rw [slot?_push, if_pos hnew], rfl⟩
    · obtain ⟨hsettings, ⟨slot, hslot, hplaceholder⟩, slot', hslot', hcompound⟩ :=
        h.leftBehind i j name hi hj hlt
      exact ⟨hsettings, ⟨slot, slot?_push_of_some hslot, hplaceholder⟩, slot',
        slot?_push_of_some hslot', hcompound⟩
  · intro id slot hslot hglobal
    rw [slot?_push] at hslot
    split at hslot
    · obtain rfl := Option.some.inj hslot
      exact hcontent
    · exact h.content id slot hslot hglobal

/-- The slot that a definition leaves behind is the only one of its name. -/
theorem unique_of_placeholder {slot : Slot} (h : r.Interned) (hid : r.names[name]? = some id)
    (hslot : r.slot? id = some slot) (hplaceholder : slot.isPlaceholder = true) (i : TypeId)
    (hi : r.fullName? i = some name) : i = id := by
  obtain ⟨hname, hmax⟩ := h.isLast_of_names name id hid
  rcases Nat.lt_or_eq_of_le (hmax i hi) with hlt | heq
  · obtain ⟨-, -, slot', hslot', hcompound⟩ := h.leftBehind i id name hi hname hlt
    obtain rfl := Option.some.inj (hslot.symm.trans hslot')
    simp [Slot.not_isPlaceholder hcompound] at hplaceholder
  · exact TypeId.eq_of_index heq

theorem setOrigin {slot : Slot} {c : Compound} (h : r.Interned) (hslot : r.slot? id = some slot)
    (hfill : slot.compound?.isSome ∨
      slot.isPlaceholder = true ∧ r.settings.upgradeFacades = true) :
    (r.setOrigin id (.compound c)).Interned := by
  have hglobal : id ≠ .global := by
    rintro rfl
    rw [h.global] at hslot
    obtain rfl := Option.some.inj hslot
    simp [Slot.compound?, Slot.isPlaceholder] at hfill
  refine ⟨h.toIndexed.setOrigin hglobal, ?_, ?_, ?_⟩
  · simpa using h.trimmed
  · intro i j name hi hj hlt
    rw [fullName?_setOrigin] at hi hj
    obtain ⟨hsettings, ⟨si, hsi, hplaceholder⟩, sj, hsj, hcompound⟩ :=
      h.leftBehind i j name hi hj hlt
    -- With facades left behind only definitions are filled, so the earlier slot stays as it is.
    have hne : id ≠ i := by
      rintro rfl
      obtain rfl := Option.some.inj (hslot.symm.trans hsi)
      rcases hfill with hfill | ⟨-, hfill⟩
      · simp [Slot.not_isPlaceholder hfill] at hplaceholder
      · simp [hfill] at hsettings
    refine ⟨hsettings, ⟨si, by rw [slot?_setOrigin, if_neg hne, hsi], hplaceholder⟩, ?_⟩
    rw [slot?_setOrigin, hsj]
    split
    · exact ⟨_, rfl, rfl⟩
    · exact ⟨sj, rfl, hcompound⟩
  · intro id' slot' hslot' hne
    rw [slot?_setOrigin] at hslot'
    split at hslot'
    · obtain ⟨known, -, rfl⟩ := Option.map_eq_some_iff.1 hslot'
      exact .inl rfl
    · exact h.content id' slot' hslot' hne

/-- Interning keeps the invariant. -/
theorem change (h : r.Interned) (hchange : Change r grown) : grown.Interned := by
  cases hchange with
  | keep => exact h
  | refer key hne htrimmed hfresh =>
    exact h.push hne htrimmed (.inr (r.isPlaceholder_placeholder key key))
      fun i hi => absurd hi (h.toIndexed.fullName?_ne hfresh i)
  | define key c hne htrimmed hfresh =>
    exact h.push hne htrimmed (.inl rfl)
      fun i hi => absurd hi (h.toIndexed.fullName?_ne hfresh i)
  | leave key c id slot hne htrimmed hid hslot hplaceholder hleave =>
    refine h.push hne htrimmed (.inl rfl) fun i hi => ⟨hleave, ⟨slot, ?_, hplaceholder⟩, c, rfl⟩
    rw [h.unique_of_placeholder hid hslot hplaceholder i hi, hslot]
  | fill c id slot hslot hfill => exact h.setOrigin hslot hfill

theorem internAll (h : r.Interned) (acts : List Interning) : (r.internAll acts).Interned := by
  induction acts using List.reverseRecOn with
  | nil => exact h
  | append_singleton acts act ih =>
    rw [internAll_concat]
    exact ih.change (change_intern _ act)

theorem lookup?_fullName (h : r.Interned) (hid : r.fullName? id = some name) :
    r.lookup? name = r.names[name]? := by
  by_cases hname : name = ""
  · subst hname
    have hglobal := h.nameless id hid
    subst hglobal
    obtain ⟨last, hlast⟩ := Option.isSome_iff_exists.1 (h.names_isSome .global "" hid)
    rw [hlast, h.nameless last (h.fullName?_of_names hlast)]
    rfl
  · obtain ⟨last, hlast⟩ := Option.isSome_iff_exists.1 (h.names_isSome id name hid)
    rw [lookup?_of_trimmed hname (h.trimmed id name hid), find?_of_names hlast, hlast,
      Option.some_or]

end Interned

/-! ## References -/

/-- A name is found under `key`: it is this name, or is so but for the letter case where this is
ignored. -/
def Matches (r : Registry) (name key : String) : Prop :=
  name = key ∨ (r.foldsCase && !r.isBuiltin name) = true ∧ Text.lowercase name = Text.lowercase key

/-- The text of a reference or the name that is read in it is found under `key`. -/
def Resembles (r : Registry) (reference key : String) : Prop :=
  r.Matches (Text.trimmed reference) key ∨ r.Matches (r.keyOf (Text.trimmed reference)) key

/-- A name that was not found before leads to a new slot iff it is found under the name of it. -/
theorem find?_push_of_none (key : String) (origin : SlotOrigin) (h : r.find? name = none) :
    (r.push key origin).2.find? name = some ⟨r.size⟩ ∧ r.Matches name key ∨
      (r.push key origin).2.find? name = none ∧ ¬ r.Matches name key := by
  have hnames := names_of_find? h
  have hcond : ((r.push key origin).2.foldsCase && !(r.push key origin).2.isBuiltin name) =
      (r.foldsCase && !r.isBuiltin name) := rfl
  unfold Matches
  simp only [find?, hnames] at h
  simp only [find?, names_push, hcond, foldedNames_push, hnames]
  by_cases hkey : key = name
  · simp [hkey]
  · rw [if_neg hkey]
    dsimp only
    by_cases hfolds : (r.foldsCase && !r.isBuiltin name) = true
    · rw [if_pos hfolds] at h ⊢
      by_cases hlower : Text.lowercase key = Text.lowercase name
      · -- The folded name is still free, since the name would have been found under it.
        have hfree : r.foldedNameTaken key = false := by
          simp [foldedNameTaken, hlower, h]
        simp [hfree, hlower, hfolds]
      · simp [h, hlower, Ne.symm hkey, Ne.symm hlower]
    · simp [hfolds, Ne.symm hkey]

theorem lookup?_push_of_none {reference : String} (key : String) (origin : SlotOrigin)
    (h : r.lookup? reference = none) :
    (r.push key origin).2.lookup? reference = some ⟨r.size⟩ ∧ r.Resembles reference key ∨
      (r.push key origin).2.lookup? reference = none ∧ ¬ r.Resembles reference key := by
  obtain ⟨hne, hfind, -⟩ := names_keyOf_of_lookup? h
  unfold Resembles
  generalize hname : Text.trimmed reference = name at *
  have hread : r.keyOf name ≠ name → r.find? (r.keyOf name) = none := by
    intro hread
    simpa [lookup?, hname, hne, hfind, hread] using h
  have hkeyOf : (r.push key origin).2.keyOf name = r.keyOf name := rfl
  simp only [lookup?, hname, if_neg hne, hkeyOf]
  rcases find?_push_of_none key origin hfind with ⟨htext, hmatches⟩ | ⟨htext, hmatches⟩
  · simp [htext, hmatches]
  · rw [htext, Option.none_or]
    by_cases heq : r.keyOf name = name
    · simp [heq, hmatches]
    · rw [if_neg heq]
      rcases find?_push_of_none key origin (hread heq) with ⟨hkey, hmatches'⟩ | ⟨hkey, hmatches'⟩
      · simp [hkey, hmatches']
      · simp [hkey, hmatches, hmatches']

/-- Behind a new slot for the name of a type, the text of the reference leads to this slot. -/
theorem lookup?_push_keyOf {reference : String} {origin : SlotOrigin}
    (h : r.lookup? reference = none) :
    (r.push (r.keyOf (Text.trimmed reference)) origin).2.lookup? reference = some ⟨r.size⟩ := by
  obtain ⟨hfound, -⟩ | ⟨-, hnot⟩ := lookup?_push_of_none _ origin h
  · exact hfound
  · exact absurd (.inr (.inl rfl)) hnot

theorem lookup?_getOrCreate (r : Registry) (reference : String) :
    (r.getOrCreate reference).2.lookup? reference = some (r.getOrCreate reference).1 := by
  unfold getOrCreate
  split
  · assumption
  · next h => exact lookup?_push_keyOf h

theorem getOrCreate_of_lookup? {reference : String} (h : r.lookup? reference = some id) :
    r.getOrCreate reference = (id, r) := by
  unfold getOrCreate
  rw [h]

/-! ## Identity -/

/-- What the names of a registry stand for. -/
structure Identity (r : Registry) : Prop where
  /-- The first slot is the global namespace, which alone has no name. -/
  global : r.slot? .global = some { fullName := "", origin := .globalNamespace }
  nameless : ∀ id, r.fullName? id = some "" → id = .global
  /-- The name of a slot leads to the last slot that carries it. -/
  lookup_fullName : ∀ id name, r.fullName? id = some name →
    ∃ last, r.lookup? name = some last ∧ r.IsLast name last
  /-- Where definitions fill the slots of their names, each name has one slot. -/
  unique : r.settings.upgradeFacades = true → ∀ i j name, r.fullName? i = some name →
    r.fullName? j = some name → i = j
  /-- Where they leave them behind, a name has at most two slots, that of a placeholder and, behind
  it, that of a definition. -/
  twice : r.settings.upgradeFacades = false → ∀ i j name, r.fullName? i = some name →
    r.fullName? j = some name → i.index < j.index →
    (∃ slot, r.slot? i = some slot ∧ slot.isPlaceholder = true) ∧
      (∃ slot, r.slot? j = some slot ∧ slot.compound?.isSome) ∧
      ∀ k, r.fullName? k = some name → k = i ∨ k = j
  /-- A reference leads to the slot that it was given, and interning it again changes nothing. -/
  lookup_getOrCreate : ∀ reference, (r.getOrCreate reference).2.lookup? reference =
    some (r.getOrCreate reference).1
  getOrCreate_again : ∀ reference, (r.getOrCreate reference).2.getOrCreate reference =
    r.getOrCreate reference
  size_getOrCreate : ∀ reference, (r.getOrCreate reference).2.size ≤ r.size + 1
  /-- Whatever is interned next, a slot keeps its name. -/
  stable : ∀ act id name, r.fullName? id = some name →
    (r.intern act).2.fullName? id = some name
  /-- A folded name leads to the slot that its first spelling leads to. -/
  folded : ∀ folded id, r.foldedNames[folded]? = some id ↔
    ∃ name, r.firstSpelling? folded = some name ∧ r.IsLast name id

theorem Interned.identity (h : r.Interned) : r.Identity where
  global := h.global
  nameless := h.nameless
  lookup_fullName := by
    intro id name hid
    obtain ⟨last, hlast⟩ := Option.isSome_iff_exists.1 (h.names_isSome id name hid)
    exact ⟨last, (h.lookup?_fullName hid).trans hlast, h.isLast_of_names name last hlast⟩
  unique := by
    intro hsettings i j name hi hj
    rcases Nat.lt_trichotomy i.index j.index with hlt | heq | hlt
    · simp [(h.leftBehind i j name hi hj hlt).1] at hsettings
    · exact TypeId.eq_of_index heq
    · simp [(h.leftBehind j i name hj hi hlt).1] at hsettings
  twice := by
    intro hsettings i j name hi hj hlt
    have hij := h.leftBehind i j name hi hj hlt
    refine ⟨hij.2.1, hij.2.2, ?_⟩
    intro k hk
    by_contra hk'
    have hki : k.index ≠ i.index := by
      intro heq
      exact hk' (.inl (TypeId.eq_of_index heq))
    have hkj : k.index ≠ j.index := by
      intro heq
      exact hk' (.inr (TypeId.eq_of_index heq))
    -- A third slot would make one of the three both a placeholder and a definition.
    rcases Nat.lt_or_gt_of_ne hki with hlt' | hgt
    · exact (h.leftBehind k i name hk hi hlt').not_trans hij
    · rcases Nat.lt_or_gt_of_ne hkj with hlt' | hgt'
      · exact (h.leftBehind i k name hi hk hgt).not_trans (h.leftBehind k j name hk hj hlt')
      · exact hij.not_trans (h.leftBehind j k name hj hk hgt')
  lookup_getOrCreate := r.lookup?_getOrCreate
  getOrCreate_again := by
    intro reference
    rw [getOrCreate_of_lookup? (r.lookup?_getOrCreate reference)]
  size_getOrCreate := fun reference => (change_getOrCreate r reference).size_le
  stable := fun act id name hid => (change_intern r act).fullName? hid
  folded := by
    intro folded id
    rw [h.folded, Option.bind_eq_some_iff]
    simp only [h.names_eq_some_iff]

/-- Whatever the universe, the settings, the parser and the order of references and definitions, the
names of a registry stand for what they should. -/
theorem identity_internAll (origin : Universe) (settings : RegistrySettings)
    (parser : DeclarationParser) (acts : List Interning) :
    ((Registry.empty origin settings parser).internAll acts).Identity :=
  ((Interned.empty origin settings parser).internAll acts).identity

end Registry

end TypeAtlas
