/-!
# Searching in text

The first occurrence of a text in another one, replacement of all occurrences, and cutting a text at
the last occurrence of a character.

## Main definitions

* `behind?` — the part after a needle at the start.
* `cutAt?` — the parts before and after the first occurrence of a needle.
* `replace` — every occurrence, from left to right and without overlap, replaced.
* `cutLast?` — the parts before and after the last occurrence of a character.
-/

namespace TypeAtlas.Text

/-- The part of a text after `needle`, if it starts with it. -/
def behind? : List Char → List Char → Option (List Char)
  | [], s => some s
  | _ :: _, [] => none
  | a :: needle, c :: cs => if a = c then behind? needle cs else none

theorem behind?_eq_some_iff {needle s after : List Char} :
    behind? needle s = some after ↔ s = needle ++ after := by
  induction needle generalizing s with
  | nil => simp [behind?]
  | cons a needle ih =>
    cases s with
    | nil => simp [behind?]
    | cons c cs => grind [behind?]

/-- The parts before and after the first occurrence of `needle`, if there is one. -/
def cutAt? (needle : List Char) : List Char → Option (List Char × List Char)
  | [] => (behind? needle []).map ([], ·)
  | c :: cs =>
    match behind? needle (c :: cs) with
    | some after => some ([], after)
    | none => (cutAt? needle cs).map fun (before, after) => (c :: before, after)

/-- Whether `needle` occurs in the text. -/
def occursIn (needle s : List Char) : Bool :=
  (cutAt? needle s).isSome

/-- Every occurrence of the non-empty text `old` replaced by `new`, from left to right and without
overlap; the first argument counts the characters of an occurrence that are still to be skipped. -/
def replaceFrom (skip : Nat) (old new : List Char) : List Char → List Char
  | [] => []
  | c :: cs =>
    match skip with
    | n + 1 => replaceFrom n old new cs
    | 0 =>
      if old.isPrefixOf (c :: cs) then new ++ replaceFrom (old.length - 1) old new cs
      else c :: replaceFrom 0 old new cs

/-- Every occurrence of the non-empty text `old` replaced by `new`, from left to right and without
overlap. -/
def replace (old new s : List Char) : List Char :=
  replaceFrom 0 old new s

/-- The parts before and after the last occurrence of `sep`, if there is one. -/
def cutLast? (sep : Char) : List Char → Option (List Char × List Char)
  | [] => none
  | c :: cs =>
    match cutLast? sep cs with
    | some (before, after) => some (c :: before, after)
    | none => if c = sep then some ([], cs) else none

theorem eq_of_cutAt? {needle s before after : List Char}
    (h : cutAt? needle s = some (before, after)) : s = before ++ needle ++ after := by
  induction s generalizing before with
  | nil =>
    cases needle with
    | nil => simp_all [cutAt?, behind?]
    | cons a p => simp [cutAt?, behind?] at h
  | cons c cs ih =>
    simp only [cutAt?] at h
    split at h
    · next r hr =>
      simp only [Option.some.injEq, Prod.mk.injEq] at h
      obtain ⟨rfl, rfl⟩ := h
      simpa using behind?_eq_some_iff.1 hr
    · obtain ⟨⟨b, a⟩, hb, heq⟩ := Option.map_eq_some_iff.1 h
      simp only [Prod.mk.injEq] at heq
      obtain ⟨rfl, rfl⟩ := heq
      simp [ih hb]

theorem eq_of_cutLast? {sep : Char} {s before after : List Char}
    (h : cutLast? sep s = some (before, after)) : s = before ++ sep :: after := by
  induction s generalizing before with
  | nil => simp [cutLast?] at h
  | cons c cs ih =>
    simp only [cutLast?] at h
    split at h
    · next hb =>
      simp only [Option.some.injEq, Prod.mk.injEq] at h
      obtain ⟨rfl, rfl⟩ := h
      simp [ih hb]
    · split at h <;> simp_all

theorem cutLast?_eq_none {sep : Char} {s : List Char} (h : sep ∉ s) : cutLast? sep s = none := by
  induction s with
  | nil => rfl
  | cons c cs ih =>
    rw [List.mem_cons, not_or] at h
    rw [cutLast?, ih h.2]
    exact if_neg (Ne.symm h.1)

/-- A text is cut where no later part has the character. -/
theorem cutLast?_append {sep : Char} (before : List Char) {after : List Char} (h : sep ∉ after) :
    cutLast? sep (before ++ sep :: after) = some (before, after) := by
  induction before with
  | nil => rw [List.nil_append, cutLast?, cutLast?_eq_none h, if_pos rfl]
  | cons c before ih => rw [List.cons_append, cutLast?, ih]

end TypeAtlas.Text
