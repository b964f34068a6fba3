import Mathlib.Data.List.Infix
import TypeAtlas.Text.Search

/-!
# Occurrences

A search finds a needle exactly if the needle is an infix of the text. A character that is not in
the needle parts a text: every occurrence lies before it or behind it. A text without occurrences
stays as it is when they are replaced.

## Main definitions

* `Text.Balanced` — a text whose brackets of one kind are matched.

The main statements are `Text.cutAt?_eq_none_iff`, `Text.infix_append_cons` and
`Text.replace_of_cutAt?`.
-/

namespace TypeAtlas.Text

variable {needle s t before after : List Char} {c : Char}

/-! ## Deciding

A condition on the characters of a text is decided on the text. There are finitely many characters,
so it could be decided on all of them, but not within reasonable time. -/

section Deciding

variable {p : Char → Prop} [DecidablePred p]

instance decidableForallMem (s : List Char) : Decidable (∀ c ∈ s, p c) :=
  List.decidableBAll p s

instance decidableExistsMem (s : List Char) : Decidable (∃ c ∈ s, p c) :=
  List.decidableBEx p s

instance decidableForallMemOption (o : Option Char) : Decidable (∀ c ∈ o, p c) :=
  Option.decidableForallMem o

end Deciding

/-! ## Searching -/

/-- A needle is not found exactly if it does not occur. -/
theorem cutAt?_eq_none_iff : cutAt? needle s = none ↔ ¬ needle <:+: s := by
  induction s with
  | nil => cases needle <;> simp [cutAt?, behind?]
  | cons c s ih =>
    rw [cutAt?, List.infix_cons_iff, not_or, ← ih]
    cases hb : behind? needle (c :: s) with
    | some after =>
      have hstart : needle <+: c :: s := ⟨after, (behind?_eq_some_iff.1 hb).symm⟩
      simp [hstart]
    | none =>
      have hstart : ¬ needle <+: c :: s := by
        rintro ⟨after, hafter⟩
        simp [behind?_eq_some_iff.2 hafter.symm] at hb
      simp [hstart]

theorem occursIn_iff : occursIn needle s = true ↔ needle <:+: s := by
  rw [occursIn, ← Option.ne_none_iff_isSome, ne_eq, cutAt?_eq_none_iff, not_not]

/-- The first occurrence is found behind a text in which none starts. -/
theorem cutAt?_append_left (h : ∀ x, x ≠ [] → x <:+ s → ¬ needle <+: x ++ t) :
    cutAt? needle (s ++ t) = (cutAt? needle t).map fun (before, after) => (s ++ before, after) := by
  induction s with
  | nil => simp
  | cons c s ih =>
    have hstart : behind? needle (c :: (s ++ t)) = none := by
      rw [Option.eq_none_iff_forall_ne_some]
      intro after hafter
      exact h (c :: s) (by simp) (List.suffix_refl _) ⟨after, (behind?_eq_some_iff.1 hafter).symm⟩
    have hrest := ih fun x hx hs => h x hx (hs.trans (List.suffix_cons c s))
    rw [List.cons_append, cutAt?, hstart, hrest]
    cases cutAt? needle t <;> rfl

/-- A needle that the text starts with is found there. -/
theorem cutAt?_append_self (needle after : List Char) :
    cutAt? needle (needle ++ after) = some ([], after) := by
  have hstart : behind? needle (needle ++ after) = some after := behind?_eq_some_iff.2 rfl
  generalize needle ++ after = s at hstart ⊢
  cases s with
  | nil => rw [cutAt?, hstart]; rfl
  | cons c s => rw [cutAt?, hstart]

/-! ## Parted texts -/

theorem prefix_append_cons (hc : c ∉ needle) : needle <+: s ++ c :: t ↔ needle <+: s := by
  refine ⟨?_, fun h => h.trans (List.prefix_append s (c :: t))⟩
  rintro ⟨rest, hrest⟩
  rcases List.append_eq_append_iff.1 hrest with ⟨y, rfl, -⟩ | ⟨y, rfl, hy⟩
  · exact List.prefix_append _ _
  · cases y with
    | nil => simp
    | cons d y =>
      obtain rfl : c = d := (List.cons.inj hy).1
      simp at hc

/-- Every occurrence lies before or behind a character that is not in the needle. -/
theorem infix_append_cons (hc : c ∉ needle) :
    needle <:+: s ++ c :: t ↔ needle <:+: s ∨ needle <:+: t := by
  induction s with
  | nil =>
    rw [List.nil_append, List.infix_cons_iff, List.infix_nil]
    have hstart : needle <+: c :: t ↔ needle = [] := by
      simpa using prefix_append_cons (s := []) (t := t) hc
    rw [hstart]
  | cons d s ih =>
    rw [List.cons_append, List.infix_cons_iff, List.infix_cons_iff, ih, ← List.cons_append,
      prefix_append_cons hc, or_assoc]

/-- An occurrence lies before or behind a character, or goes over it. -/
theorem infix_append_cons_cases (h : needle <:+: s ++ c :: t) : needle <:+: s ∨ needle <:+: t ∨
    ∃ x y, needle = x ++ c :: y ∧ x <:+ s ∧ y <+: t := by
  obtain ⟨u, v, huv⟩ := h
  rw [List.append_assoc] at huv
  rcases List.append_eq_append_iff.1 huv with ⟨x, rfl, hx⟩ | ⟨x, rfl, hx⟩
  · rcases List.append_eq_append_iff.1 hx with ⟨y, rfl, -⟩ | ⟨y, rfl, hy⟩
    · exact .inl ⟨u, y, by simp⟩
    · cases y with
      | nil => exact .inl ⟨u, [], by simp⟩
      | cons d y =>
        obtain ⟨rfl, rfl⟩ := List.cons.inj hy
        exact .inr (.inr ⟨x, y, rfl, ⟨u, rfl⟩, ⟨v, rfl⟩⟩)
  · cases x with
    | nil =>
      cases needle with
      | nil => exact .inl (List.nil_infix)
      | cons d needle =>
        obtain ⟨rfl, rfl⟩ := List.cons.inj hx
        exact .inr (.inr ⟨[], needle, rfl, List.nil_suffix, ⟨v, rfl⟩⟩)
    | cons d x =>
      obtain ⟨rfl, rfl⟩ := List.cons.inj hx
      exact .inr (.inl ⟨x, v, by simp⟩)

/-- A text without the first character of the needle can be left out at the start. -/
theorem infix_append_left (hne : needle ≠ []) (hs : ∀ c ∈ needle.head?, c ∉ s) :
    needle <:+: s ++ t ↔ needle <:+: t := by
  cases needle with
  | nil => exact absurd rfl hne
  | cons d needle =>
    induction s with
    | nil => rw [List.nil_append]
    | cons c s ih =>
      have hd : d ∉ c :: s := hs d rfl
      have hstart : ¬ d :: needle <+: c :: (s ++ t) := fun hprefix =>
        hd (by simp [(List.cons_prefix_cons.1 hprefix).1])
      rw [List.cons_append, List.infix_cons_iff, ih fun e he => ?_]
      · simp [hstart]
      · obtain rfl : d = e := by simpa using he
        exact fun hmem => hd (List.mem_cons_of_mem c hmem)

theorem not_infix_of_mem (hc : c ∈ needle) (hs : c ∉ s) : ¬ needle <:+: s :=
  fun h => hs (h.subset hc)

/-! ## Replacing -/

section Replace

variable {old new : List Char}

theorem replaceFrom_drop (n : Nat) (s : List Char) :
    replaceFrom n old new s = replaceFrom 0 old new (s.drop n) := by
  induction n generalizing s with
  | zero => rfl
  | succ n ih =>
    cases s with
    | nil => rfl
    | cons c s => rw [replaceFrom, ih, List.drop_succ_cons]

/-- The first occurrence is replaced, and those behind it. -/
theorem replace_of_cutAt? (hold : old ≠ []) (h : cutAt? old s = some (before, after)) :
    replace old new s = before ++ new ++ replace old new after := by
  induction s generalizing before with
  | nil => cases old <;> simp_all [cutAt?, behind?]
  | cons c s ih =>
    rw [cutAt?] at h
    cases hb : behind? old (c :: s) with
    | some rest =>
      obtain ⟨rfl, rfl⟩ : before = [] ∧ rest = after := by simpa [hb, eq_comm] using h
      have heq := behind?_eq_some_iff.1 hb
      have hstart : old.isPrefixOf (c :: s) = true :=
        List.isPrefixOf_iff_prefix.2 ⟨rest, heq.symm⟩
      have hrest : s.drop (old.length - 1) = rest := by
        obtain ⟨d, old, rfl⟩ := List.exists_cons_of_ne_nil hold
        obtain rfl : s = old ++ rest := (List.cons.inj heq).2
        simp
      rw [replace, replaceFrom, hstart, replaceFrom_drop, hrest]
      simp [replace]
    | none =>
      rw [hb] at h
      obtain ⟨⟨b, a⟩, hcut, heq⟩ := Option.map_eq_some_iff.1 h
      obtain ⟨rfl, rfl⟩ : c :: b = before ∧ a = after := by simpa using heq
      have hstart : old.isPrefixOf (c :: s) = false := by
        rw [← Bool.not_eq_true, List.isPrefixOf_iff_prefix]
        rintro ⟨rest, hrest⟩
        simp [behind?_eq_some_iff.2 hrest.symm] at hb
      rw [replace, replaceFrom, hstart, ← replace.eq_def, ih hcut]
      simp

theorem replace_eq_self (h : ¬ old <:+: s) : replace old new s = s := by
  induction s with
  | nil => rfl
  | cons c s ih =>
    rw [List.infix_cons_iff, not_or] at h
    have hstart : old.isPrefixOf (c :: s) = false := by
      rw [← Bool.not_eq_true, List.isPrefixOf_iff_prefix]
      exact h.1
    rw [replace, replaceFrom, hstart, ← replace.eq_def, ih h.2]
    simp

end Replace

/-! ## Matched brackets -/

/-- A text in which every opening bracket has a closing one behind it, and the other way round. -/
inductive Balanced (opening closing : Char) : List Char → Prop where
  | nil : Balanced opening closing []
  | cons {c : Char} {s : List Char} (hopen : c ≠ opening) (hclose : c ≠ closing)
      (hs : Balanced opening closing s) : Balanced opening closing (c :: s)
  | nest {s t : List Char} (hs : Balanced opening closing s) (ht : Balanced opening closing t) :
      Balanced opening closing (opening :: (s ++ closing :: t))

namespace Balanced

variable {opening closing : Char}

theorem append (hs : Balanced opening closing s) (ht : Balanced opening closing t) :
    Balanced opening closing (s ++ t) := by
  induction hs with
  | nil => exact ht
  | cons hopen hclose _ ih => exact .cons hopen hclose ih
  | nest hinner _ _ ih =>
    rw [List.cons_append, List.append_assoc, List.cons_append]
    exact .nest hinner ih

theorem of_forall (h : ∀ c ∈ s, c ≠ opening ∧ c ≠ closing) : Balanced opening closing s := by
  induction s with
  | nil => exact .nil
  | cons c s ih =>
    exact .cons (h c (by simp)).1 (h c (by simp)).2 (ih fun d hd => h d (List.mem_cons_of_mem c hd))

theorem intercalate (hs : Balanced opening closing s) {ss : List (List Char)}
    (hss : ∀ t ∈ ss, Balanced opening closing t) : Balanced opening closing (s.intercalate ss) := by
  induction ss with
  | nil => exact .nil
  | cons t ts ih =>
    have hrest := ih fun u hu => hss u (List.mem_cons_of_mem t hu)
    cases ts with
    | nil => simpa using hss t (by simp)
    | cons u us =>
      rw [List.intercalate_cons_cons]
      exact ((hss t (by simp)).append hs).append hrest

theorem wrap (hs : Balanced opening closing s) :
    Balanced opening closing (opening :: (s ++ [closing])) :=
  .nest hs .nil

end Balanced

end TypeAtlas.Text
