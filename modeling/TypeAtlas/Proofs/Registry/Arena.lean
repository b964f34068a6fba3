import Mathlib.Tactic.ByContra
import Std.Data.TreeMap.Lemmas
import TypeAtlas.Registry.Basic

/-!
# The arena and its name tables

A registry keeps its slots in an arena and finds them through two tables of names. The tables are a
function of the names that the slots carry: a name leads to the last slot that carries it, and a
folded name leads to where the first of its spellings leads. The two ways in which a registry
changes, a new slot and another content for a slot, preserve this.

## Main definitions

* `Registry.fullName?`, `Registry.fullNames` — the names that the slots carry.
* `Registry.IsLast` — the last slot that carries a name.
* `Registry.IsNamed` — a slot that some name leads to.
* `Registry.firstSpelling?` — the first name with a given folded form.
* `Registry.Indexed` — the tables agree with the slots.
-/

namespace TypeAtlas

theorem TypeId.eq_of_index {i j : TypeId} (h : i.index = j.index) : i = j := by
  cases i
  cases j
  simpa using h

namespace Registry

variable {r : Registry} {id : TypeId} {key name : String} {origin : SlotOrigin}

/-! ## Names of slots -/

/-- The name that a slot carries. -/
def fullName? (r : Registry) (id : TypeId) : Option String :=
  (r.slot? id).map (·.fullName)

/-- The names of all slots, in order. -/
def fullNames (r : Registry) : List String :=
  r.slots.toList.map (·.fullName)

theorem fullName?_eq (r : Registry) (id : TypeId) : r.fullName? id = r.fullNames[id.index]? := by
  simp [fullName?, fullNames, slot?]

theorem fullName?_eq_some : r.fullName? id = some name ↔ ∃ slot, r.slot? id = some slot ∧
    slot.fullName = name := by
  simp [fullName?]

theorem index_lt_of_fullName? (h : r.fullName? id = some name) : id.index < r.size := by
  rw [fullName?_eq, List.getElem?_eq_some_iff] at h
  obtain ⟨hlt, -⟩ := h
  simpa [fullNames, size] using hlt

/-- The last slot that carries a name. -/
def IsLast (r : Registry) (name : String) (id : TypeId) : Prop :=
  r.fullName? id = some name ∧ ∀ other, r.fullName? other = some name → other.index ≤ id.index

theorem IsLast.unique {i j : TypeId} (hi : r.IsLast name i) (hj : r.IsLast name j) : i = j := by
  have hle := hj.2 i hi.1
  have hge := hi.2 j hj.1
  apply TypeId.eq_of_index
  omega

/-- Some name leads to the slot. -/
def IsNamed (r : Registry) (id : TypeId) : Prop :=
  ∃ name : String, r.names[name]? = some id

/-- The first name with a folded form. The global namespace is found by its empty name only. -/
def firstSpelling? (r : Registry) (folded : String) : Option String :=
  r.fullNames.tail.find? (Text.lowercase · == folded)

/-! ## A new slot -/

@[simp] theorem id_push (r : Registry) (key : String) (origin : SlotOrigin) :
    (r.push key origin).1 = ⟨r.size⟩ := rfl

@[simp] theorem origin_push (r : Registry) (key : String) (origin : SlotOrigin) :
    (r.push key origin).2.origin = r.origin := rfl

@[simp] theorem settings_push (r : Registry) (key : String) (origin : SlotOrigin) :
    (r.push key origin).2.settings = r.settings := rfl

@[simp] theorem parser_push (r : Registry) (key : String) (origin : SlotOrigin) :
    (r.push key origin).2.parser = r.parser := rfl

@[simp] theorem size_push (r : Registry) (key : String) (origin : SlotOrigin) :
    (r.push key origin).2.size = r.size + 1 := by
  simp [push, size]

theorem slot?_push (r : Registry) (key : String) (origin : SlotOrigin) (id : TypeId) :
    (r.push key origin).2.slot? id =
      if id = ⟨r.size⟩ then some { fullName := key, origin } else r.slot? id := by
  cases id
  simp [push, slot?, size, Array.getElem?_push]

theorem slot?_push_of_some {slot : Slot} (h : r.slot? id = some slot) :
    (r.push key origin).2.slot? id = some slot := by
  have hne : id ≠ ⟨r.size⟩ := by
    rintro rfl
    simp [slot?, size] at h
  rw [slot?_push, if_neg hne, h]

theorem fullName?_push (r : Registry) (key : String) (origin : SlotOrigin) (id : TypeId) :
    (r.push key origin).2.fullName? id =
      if id = ⟨r.size⟩ then some key else r.fullName? id := by
  unfold fullName?
  rw [slot?_push]
  split <;> rfl

/-- A slot keeps its name when there is a new one. -/
theorem fullName?_push_of_some (h : r.fullName? id = some name) :
    (r.push key origin).2.fullName? id = some name := by
  obtain ⟨slot, hslot, hname⟩ := fullName?_eq_some.1 h
  exact fullName?_eq_some.2 ⟨slot, slot?_push_of_some hslot, hname⟩

theorem names_push (r : Registry) (key : String) (origin : SlotOrigin) (name : String) :
    (r.push key origin).2.names[name]? =
      if key = name then some ⟨r.size⟩ else r.names[name]? := by
  simp only [push, Std.TreeMap.getElem?_insert, Std.compare_eq_iff_eq]
  rfl

theorem foldedNames_push (r : Registry) (key : String) (origin : SlotOrigin) (folded : String) :
    (r.push key origin).2.foldedNames[folded]? =
      if r.foldedNameTaken key = false ∧ Text.lowercase key = folded then some ⟨r.size⟩
      else r.foldedNames[folded]? := by
  simp only [push]
  cases r.foldedNameTaken key with
  | false => simp [Std.TreeMap.getElem?_insert, size]
  | true => simp

theorem fullNames_push (r : Registry) (key : String) (origin : SlotOrigin) :
    (r.push key origin).2.fullNames = r.fullNames ++ [key] := by
  simp [push, fullNames]

/-! ## Another content for a slot -/

theorem slot?_setOrigin (r : Registry) (changed : TypeId) (origin : SlotOrigin) (id : TypeId) :
    (r.setOrigin changed origin).slot? id =
      if changed = id then (r.slot? id).map fun slot => { slot with origin } else r.slot? id := by
  cases id
  cases changed
  simp [setOrigin, slot?, Array.getElem?_modify]

@[simp] theorem fullName?_setOrigin (r : Registry) (changed : TypeId) (origin : SlotOrigin)
    (id : TypeId) : (r.setOrigin changed origin).fullName? id = r.fullName? id := by
  unfold fullName?
  rw [slot?_setOrigin]
  split
  · simp [Function.comp_def]
  · rfl

@[simp] theorem size_setOrigin (r : Registry) (changed : TypeId) (origin : SlotOrigin) :
    (r.setOrigin changed origin).size = r.size := by
  simp [setOrigin, size]

@[simp] theorem names_setOrigin (r : Registry) (changed : TypeId) (origin : SlotOrigin) :
    (r.setOrigin changed origin).names = r.names := rfl

@[simp] theorem foldedNames_setOrigin (r : Registry) (changed : TypeId) (origin : SlotOrigin) :
    (r.setOrigin changed origin).foldedNames = r.foldedNames := rfl

@[simp] theorem fullNames_setOrigin (r : Registry) (changed : TypeId) (origin : SlotOrigin) :
    (r.setOrigin changed origin).fullNames = r.fullNames := by
  refine List.ext_getElem? ?_
  intro i
  have := fullName?_setOrigin r changed origin ⟨i⟩
  rwa [fullName?_eq, fullName?_eq] at this

@[simp] theorem firstSpelling?_setOrigin (r : Registry) (changed : TypeId) (origin : SlotOrigin)
    (folded : String) :
    (r.setOrigin changed origin).firstSpelling? folded = r.firstSpelling? folded := by
  simp [firstSpelling?]

/-! ## Agreement of the tables with the slots -/

/-- The tables of a registry agree with its slots. The first slot is the global namespace, which
alone has no name. -/
structure Indexed (r : Registry) : Prop where
  global : r.slot? .global = some { fullName := "", origin := .globalNamespace }
  nameless : ∀ id, r.fullName? id = some "" → id = .global
  isLast_of_names : ∀ name id, r.names[name]? = some id → r.IsLast name id
  names_isSome : ∀ id name, r.fullName? id = some name → r.names[name]?.isSome
  folded : ∀ folded, r.foldedNames[folded]? =
    (r.firstSpelling? folded).bind fun name : String => r.names[name]?

namespace Indexed

theorem names_eq_some_iff (h : r.Indexed) : r.names[name]? = some id ↔ r.IsLast name id := by
  refine ⟨h.isLast_of_names name id, ?_⟩
  intro hlast
  obtain ⟨found, hfound⟩ := Option.isSome_iff_exists.1 (h.names_isSome id name hlast.1)
  rw [hfound, (h.isLast_of_names name found hfound).unique hlast]

theorem fullName?_of_names (h : r.Indexed) (hname : r.names[name]? = some id) :
    r.fullName? id = some name :=
  (h.isLast_of_names name id hname).1

/-- No slot carries a name that leads nowhere. -/
theorem fullName?_ne (h : r.Indexed) (hfresh : r.names[name]? = none) (id : TypeId) :
    r.fullName? id ≠ some name := by
  intro hid
  have hsome := h.names_isSome id name hid
  simp [hfresh] at hsome

theorem index_lt_of_names (h : r.Indexed) (hname : r.names[name]? = some id) :
    id.index < r.size :=
  index_lt_of_fullName? (h.fullName?_of_names hname)

theorem index_lt_of_isNamed (h : r.Indexed) (hid : r.IsNamed id) : id.index < r.size :=
  hid.elim fun _ hname => h.index_lt_of_names hname

theorem names_empty (h : r.Indexed) : r.names[""]? = some .global := by
  have hsome := h.names_isSome .global "" (by rw [Registry.fullName?, h.global]; rfl)
  obtain ⟨last, hlast⟩ := Option.isSome_iff_exists.1 hsome
  rw [hlast, h.nameless last (h.fullName?_of_names hlast)]

theorem isNamed_of_folded (h : r.Indexed) {folded : String}
    (hfolded : r.foldedNames[folded]? = some id) : r.IsNamed id := by
  rw [h.folded] at hfolded
  obtain ⟨name, -, hname⟩ := Option.bind_eq_some_iff.1 hfolded
  exact ⟨name, hname⟩

/-- Where no two slots carry one name, each slot has its name. -/
theorem names_of_nodup (h : r.Indexed) (hnodup : r.fullNames.Nodup)
    (hid : r.fullName? id = some name) : r.names[name]? = some id := by
  obtain ⟨found, hfound⟩ := Option.isSome_iff_exists.1 (h.names_isSome id name hid)
  have hfull := h.fullName?_of_names hfound
  have hlt := index_lt_of_fullName? hid
  rw [fullName?_eq] at hid hfull
  have hindex := (List.getElem?_inj (by simpa [fullNames, size] using hlt) hnodup).1
    (hid.trans hfull.symm)
  rw [hfound, TypeId.eq_of_index hindex]

theorem fullNames_ne_nil (h : r.Indexed) : r.fullNames ≠ [] := by
  intro hnil
  have hglobal := h.global
  have hempty : r.slots = #[] := by simpa [fullNames] using hnil
  simp [slot?, hempty] at hglobal

theorem empty (origin : Universe) (settings : RegistrySettings) (parser : DeclarationParser) :
    (Registry.empty origin settings parser).Indexed := by
  have hname : ∀ id, (Registry.empty origin settings parser).fullName? id =
      if id = .global then some "" else none := by
    rintro ⟨_ | i⟩
    · rfl
    · simp [fullName?, Registry.empty, slot?, TypeId.global]
  have hnames : ∀ name, (Registry.empty origin settings parser).names[name]? =
      if "" = name then some .global else none := by
    intro name
    simp [Registry.empty, Std.TreeMap.getElem?_insert]
  refine ⟨rfl, ?_, ?_, ?_, ?_⟩
  · intro id hid
    by_contra hne
    simp [hname, hne] at hid
  · intro name id hid
    obtain ⟨rfl, rfl⟩ : "" = name ∧ TypeId.global = id := by simpa [hnames] using hid
    refine ⟨by simp [hname], ?_⟩
    intro other hother
    obtain rfl : other = .global := by
      by_contra hne
      simp [hname, hne] at hother
    exact Nat.le_refl _
  · intro id name hid
    by_cases hglobal : id = .global
    · obtain rfl : "" = name := by simpa [hname, hglobal] using hid
      simp [hnames]
    · simp [hname, hglobal] at hid
  · intro folded
    simp [firstSpelling?, fullNames, Registry.empty]

/-- A new slot is the last one that carries its name, and no other name is led elsewhere. -/
theorem isLast_push (h : r.Indexed) (hid : (r.push key origin).2.names[name]? = some id) :
    (r.push key origin).2.IsLast name id := by
  rw [names_push] at hid
  split at hid
  · next hname =>
    obtain rfl : (⟨r.size⟩ : TypeId) = id := by simpa using hid
    refine ⟨by simp [fullName?_push, hname], ?_⟩
    intro other hother
    have hlt := index_lt_of_fullName? hother
    rw [size_push] at hlt
    exact Nat.le_of_lt_succ hlt
  · next hne =>
    obtain ⟨hid, hmax⟩ := h.isLast_of_names name id hid
    refine ⟨fullName?_push_of_some hid, ?_⟩
    intro other hother
    rw [fullName?_push] at hother
    split at hother
    · simp_all
    · exact hmax other hother

theorem firstSpelling?_push (h : r.Indexed) (key : String) (origin : SlotOrigin)
    (folded : String) : (r.push key origin).2.firstSpelling? folded =
      (r.firstSpelling? folded).or (if Text.lowercase key = folded then some key else none) := by
  have htail : (r.fullNames ++ [key]).tail = r.fullNames.tail ++ [key] :=
    List.tail_append_of_ne_nil h.fullNames_ne_nil
  simp only [firstSpelling?, fullNames_push, htail, List.find?_append, List.find?_singleton,
    beq_iff_eq]

/-- The first spelling of a folded form is the name of the slot that it leads to. -/
theorem exists_slot_of_firstSpelling? (h : r.Indexed) {folded : String}
    (hname : r.firstSpelling? folded = some name) :
    ∃ holder slot, r.names[name]? = some holder ∧ r.foldedNames[folded]? = some holder ∧
      r.slot? holder = some slot ∧ slot.fullName = name := by
  have hmem : name ∈ r.fullNames := List.mem_of_mem_tail (List.mem_of_find?_eq_some hname)
  obtain ⟨i, hi⟩ := List.mem_iff_getElem?.1 hmem
  obtain ⟨holder, hholder⟩ := Option.isSome_iff_exists.1
    (h.names_isSome ⟨i⟩ name (by rw [fullName?_eq]; exact hi))
  obtain ⟨slot, hslot, hfull⟩ := fullName?_eq_some.1 (h.fullName?_of_names hholder)
  refine ⟨holder, slot, hholder, ?_, hslot, hfull⟩
  rw [h.folded, hname, Option.bind_some, hholder]

/-- A folded form is taken over with its first spelling. -/
theorem folded_push (h : r.Indexed) (key : String) (origin : SlotOrigin) (folded : String) :
    (r.push key origin).2.foldedNames[folded]? =
      ((r.push key origin).2.firstSpelling? folded).bind
        fun name : String => (r.push key origin).2.names[name]? := by
  rw [foldedNames_push, h.firstSpelling?_push]
  cases hspelling : r.firstSpelling? folded with
  | none =>
    have hfolded : r.foldedNames[folded]? = none := by rw [h.folded, hspelling]; rfl
    by_cases hkf : Text.lowercase key = folded
    · subst hkf
      simp [foldedNameTaken, hfolded, names_push]
    · simp [hkf, hfolded]
  | some first =>
    obtain ⟨holder, slot, hholder, hfolded, hslot, hfull⟩ :=
      h.exists_slot_of_firstSpelling? hspelling
    have hfirst : Text.lowercase first = folded := by simpa using List.find?_some hspelling
    simp only [Option.some_or, Option.bind_some, names_push]
    by_cases hkey : key = first
    · subst hkey
      simp [foldedNameTaken, hfirst, hfolded, hslot, hfull]
    · by_cases hkf : Text.lowercase key = folded
      · have htaken : r.foldedNameTaken key = true := by
          simp [foldedNameTaken, hkf, hfolded, hslot, hfull, Ne.symm hkey]
        simp [htaken, hfolded, hholder, hkey]
      · simp [hkf, hfolded, hholder, hkey]

/-- A new slot takes its name over. Its folded form is taken over as well, unless another name with
this form came first. -/
theorem push (h : r.Indexed) (hkey : key ≠ "") : (r.push key origin).2.Indexed where
  global := slot?_push_of_some h.global
  nameless := by
    intro id hid
    rw [fullName?_push] at hid
    split at hid
    · simp_all
    · exact h.nameless id hid
  isLast_of_names _ _ := h.isLast_push
  names_isSome := by
    intro id name hid
    rw [names_push]
    split
    · rfl
    · rw [fullName?_push] at hid
      split at hid
      · simp_all
      · exact h.names_isSome id name hid
  folded := h.folded_push key origin

theorem setOrigin (h : r.Indexed) (hid : id ≠ .global) : (r.setOrigin id origin).Indexed := by
  refine ⟨?_, ?_, ?_, ?_, ?_⟩
  · rw [slot?_setOrigin, if_neg hid, h.global]
  · simpa using h.nameless
  · simpa [IsLast] using h.isLast_of_names
  · simpa using h.names_isSome
  · simpa using h.folded

end Indexed

end Registry

end TypeAtlas
