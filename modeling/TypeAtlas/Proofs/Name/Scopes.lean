import TypeAtlas.Name

/-!
# Scopes

A scope is around a name if the name goes on with a dot behind it. The innermost scope around a name
is what stands before its last dot, and the others are the ones around that.

## Main definitions

* `Name.Encloses` — a scope is around a name.

The main statements are `Name.mem_ancestors` and `Name.encloses_iff_of_scope?`.
-/

namespace TypeAtlas.Name

open Text

variable {sep : Char} {s t before after : List Char} {name scope other : String}

/-! ## Last segments -/

theorem not_mem_of_cutLast?_eq_none (h : cutLast? sep s = none) : sep ∉ s := by
  induction s with
  | nil => simp
  | cons c s ih =>
    rw [cutLast?] at h
    split at h
    · simp at h
    · next hrest =>
      split at h
      · simp at h
      · next hc => simpa [Ne.symm hc] using ih hrest

theorem not_mem_of_cutLast? (h : cutLast? sep s = some (before, after)) : sep ∉ after := by
  induction s generalizing before with
  | nil => simp [cutLast?] at h
  | cons c s ih =>
    rw [cutLast?] at h
    split at h
    · next b a hrest =>
      obtain ⟨-, rfl⟩ : c :: b = before ∧ a = after := by simpa using h
      exact ih hrest
    · next hrest =>
      split at h
      · obtain ⟨-, rfl⟩ : [] = before ∧ s = after := by simpa using h
        exact not_mem_of_cutLast?_eq_none hrest
      · simp at h

/-- No dot is in the last segment of a name. -/
theorem not_mem_short (name : String) : '.' ∉ (short name).toList := by
  unfold short split
  split
  · next hcut => simpa using not_mem_of_cutLast? hcut
  · next hcut => exact not_mem_of_cutLast?_eq_none hcut

/-- A name without a leading dot is its last segment inside its scope. -/
theorem qualify_split (h : ∀ c ∈ name.toList.head?, c ≠ '.') :
    qualify (split name).1 (short name) = name := by
  unfold short split
  split
  · next scope segment hcut =>
    have heq := eq_of_cutLast? hcut
    have hscope : String.ofList scope ≠ "" := by
      intro hempty
      obtain rfl : scope = [] := by simpa using congrArg String.toList hempty
      exact h '.' (by simp [heq]) rfl
    rw [qualify, if_neg hscope]
    apply String.toList_injective
    simpa using heq.symm
  · simp [qualify]

theorem not_mem_of_scope?_eq_none (h : scope? name = none) : '.' ∉ name.toList :=
  not_mem_of_cutLast?_eq_none (Option.map_eq_none_iff.1 h)

/-! ## Scopes around a name -/

/-- The scope is around the name. -/
def Encloses (scope name : String) : Prop :=
  ∃ rest, name = scope ++ "." ++ rest

theorem encloses_iff :
    Encloses scope name ↔ ∃ rest, name.toList = scope.toList ++ '.' :: rest := by
  constructor
  · rintro ⟨rest, rfl⟩
    exact ⟨rest.toList, by simp⟩
  · rintro ⟨rest, h⟩
    exact ⟨String.ofList rest, String.toList_injective (by simpa using h)⟩

theorem Encloses.trans (h : Encloses scope other) (h' : Encloses other name) :
    Encloses scope name := by
  obtain ⟨middle, rfl⟩ := h
  obtain ⟨rest, rfl⟩ := h'
  exact ⟨middle ++ "." ++ rest, by simp [String.append_assoc]⟩

theorem Encloses.length_lt (h : Encloses scope name) :
    scope.toList.length < name.toList.length := by
  obtain ⟨rest, hrest⟩ := encloses_iff.1 h
  rw [hrest, List.length_append, List.length_cons]
  omega

theorem encloses_of_scope? (h : scope? name = some scope) : Encloses scope name :=
  encloses_iff.2 ⟨_, toList_of_scope? h⟩

theorem Encloses.exists_scope? (h : Encloses scope name) : ∃ inner, scope? name = some inner := by
  obtain ⟨rest, hrest⟩ := encloses_iff.1 h
  rw [← Option.ne_none_iff_exists']
  intro hnone
  exact not_mem_of_scope?_eq_none hnone (by simp [hrest])

/-- The scopes around a name are the innermost one and those around it. -/
theorem encloses_iff_of_scope? {inner : String} (h : scope? name = some inner) :
    Encloses scope name ↔ scope = inner ∨ Encloses scope inner := by
  constructor
  · intro hscope
    obtain ⟨rest, hrest⟩ := encloses_iff.1 hscope
    rw [toList_of_scope? h] at hrest
    -- The dot behind the scope is the last one, or it lies before that.
    rcases List.append_eq_append_iff.1 hrest with ⟨y, hy, hshort⟩ | ⟨y, hy, hdot⟩
    · cases y with
      | nil => exact .inl (String.toList_injective (by simpa using hy))
      | cons c y =>
        have hmem : '.' ∈ (short name).toList := by
          rw [(List.cons.inj hshort).2]
          simp
        exact absurd hmem (not_mem_short name)
    · cases y with
      | nil => exact .inl (String.toList_injective (by simpa using hy.symm))
      | cons c y =>
        obtain rfl : '.' = c := (List.cons.inj hdot).1
        exact .inr (encloses_iff.2 ⟨y, hy⟩)
  · rintro (rfl | hscope)
    · exact encloses_of_scope? h
    · exact hscope.trans (encloses_of_scope? h)

theorem mem_scopesOf : t ∈ scopesOf s ↔ ∃ rest, s = t ++ '.' :: rest := by
  induction s generalizing t with
  | nil => simp [scopesOf]
  | cons c s ih =>
    have hinner : ∀ d u, d :: u ∈ (scopesOf s).map (c :: ·) ↔
        c = d ∧ ∃ rest, s = u ++ '.' :: rest := by
      intro d u
      rw [← ih, List.mem_map]
      simp only [List.cons.injEq]
      grind
    rw [scopesOf]
    cases t with
    | nil => split <;> simp_all
    | cons d t =>
      split
      · rw [List.mem_cons, or_iff_right (by simp), hinner]
        simp
      · rw [hinner]
        simp

theorem mem_ancestors : scope ∈ ancestors name ↔ Encloses scope name := by
  unfold ancestors
  rw [encloses_iff, ← mem_scopesOf, List.mem_map]
  constructor
  · rintro ⟨t, ht, rfl⟩
    simpa using ht
  · intro h
    exact ⟨scope.toList, h, by simp⟩

end TypeAtlas.Name
