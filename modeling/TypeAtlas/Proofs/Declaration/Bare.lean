import TypeAtlas.Proofs.Declaration.Stripping
import TypeAtlas.Proofs.Declaration.Words

/-!
# Bare declarations

A declaration is bare if it has no annotations, keywords and character references. All that is done
to it before the grammar is applied is that it is brought into normal form, also behind a leading
`const`. Bare texts can be joined at a character that none of the things to be taken out goes over.

## Main definitions

* `Entity.references` — the character references.
* `DeclarationParser.IsBare` — a text with nothing to be taken out.

The main statements are `DeclarationParser.parse_of_isBare` and
`DeclarationParser.IsBare.append_cons`.
-/

namespace TypeAtlas

open Text

namespace Name

variable {s t : List Char} {c : Char}

/-- A text is put into dotted form in parts. -/
theorem dotted_append_cons (hc : c ≠ ':') (s t : List Char) :
    dotted (s ++ c :: t) = dotted s ++ c :: dotted t := by
  fun_induction dotted s with
  | case1 s ih => simpa [dotted] using ih
  | case2 d s hd ih =>
    rw [List.cons_append, dotted, ih, List.cons_append]
    intro rest hcolon hrest
    cases s with
    | nil => exact hc (List.cons.inj hrest).1
    | cons e s => exact hd s hcolon (by rw [(List.cons.inj hrest).1])
  | case3 => simp [dotted, hc]

theorem dotted_append_of_head (ht : t.head? ≠ some ':') (s : List Char) :
    dotted (s ++ t) = dotted s ++ dotted t := by
  cases t with
  | nil => simp [dotted]
  | cons c t =>
    have hc : c ≠ ':' := by simpa using ht
    have hown : dotted (c :: t) = c :: dotted t := dotted_append_cons hc [] t
    rw [dotted_append_cons hc, hown]

theorem dotted_eq_self (hs : ':' ∉ s) : dotted s = s := by
  simpa [dotted] using dotted_append hs []

end Name

namespace Entity

/-- The character references. -/
def references : List (List Char) :=
  ["&amp;".toList, "&lt;".toList, "&gt;".toList, "&#42;".toList]

/-- A text without character references stays. -/
theorem decode_eq_self_of_not_infix {s : List Char} (h : ∀ e ∈ references, ¬ e <:+: s) :
    decode s = s := by
  simp only [references, List.forall_mem_cons] at h
  obtain ⟨hamp, hlt, hgt, hstar, -⟩ := h
  unfold decode
  dsimp only
  rw [replace_eq_self hamp, replace_eq_self hlt, replace_eq_self hgt, replace_eq_self hstar]

end Entity

namespace DeclarationParser

variable {s t : List Char} {c : Char}

/-- A text with nothing to be taken out of it. -/
structure IsBare (s : List Char) : Prop where
  annotations : ∀ a ∈ Annotation.builtin, ¬ a.token <:+: s
  keywords : Keyword.all s = []
  references : ∀ e ∈ Entity.references, ¬ e <:+: s

instance : Decidable (IsBare s) :=
  decidable_of_iff ((∀ a ∈ Annotation.builtin, ¬ a.token <:+: s) ∧ Keyword.all s = [] ∧
      ∀ e ∈ Entity.references, ¬ e <:+: s)
    ⟨fun h => ⟨h.1, h.2.1, h.2.2⟩, fun h => ⟨h.annotations, h.keywords, h.references⟩⟩

/-! ## Reading -/

/-- The leading `const` of a declaration. -/
def constPrefix (isConst : Bool) : List Char :=
  if isConst then "const ".toList else []

/-- Blanks in front of a text are left out of its normal form. -/
theorem normalize_append_of_blank (hs : ∀ c ∈ s, isBlank c = true) (t : List Char) :
    Spacing.normalize (s ++ t) = Spacing.normalize t := by
  have hcolon : ':' ∉ s := fun hmem => absurd (hs ':' hmem) (by decide)
  rw [Spacing.normalize_eq, Name.dotted_append hcolon, Spacing.packed_append_of_blank hs,
    ← Spacing.normalize_eq]

/-- A token with a blank has a comma before it. -/
theorem comma_mem_of_builtin {a : Annotation} (ha : a ∈ Annotation.builtin) {x y : List Char}
    (htoken : a.token = x ++ ' ' :: y) : ',' ∈ x := by
  have hfirm := Annotation.isFirm_builtin a ha
  have hspaced := hfirm.spaced
  rw [htoken, ← List.cons_append] at hspaced
  have hbefore := fun c hc => (List.isChain_append.1 hspaced).2.2 c hc ' ' (by simp) rfl
  cases hlast : x.getLast? with
  | none => exact absurd (hbefore ' ' (by simp [List.getLast?_cons, hlast])) (by decide)
  | some c =>
    obtain rfl := hbefore c (by simp [List.getLast?_cons, hlast])
    exact List.mem_of_getLast? hlast

theorem not_infix_constPrefix_append (h : IsBare s) (isConst : Bool) :
    ∀ a ∈ Annotation.builtin, ¬ a.token <:+: constPrefix isConst ++ s := by
  cases isConst with
  | false => exact h.annotations
  | true =>
    have hconst : ∀ a ∈ Annotation.builtin, occursIn a.token "const".toList = false := by
      decide +kernel
    intro a ha hin
    rcases infix_append_cons_cases (s := "const".toList) hin with hin | hin | ⟨x, y, htoken, hx, -⟩
    · rw [← occursIn_iff, hconst a ha] at hin
      exact absurd hin (by decide)
    · exact h.annotations a ha hin
    · have hcomma := hx.subset (comma_mem_of_builtin ha htoken)
      exact absurd hcomma (by decide)

theorem strip_constPrefix_append (h : IsBare s) (isConst : Bool) :
    ∃ blanks, (∀ c ∈ blanks, c = ' ') ∧
      Keyword.strip (constPrefix isConst ++ s) = blanks ++ s := by
  have hself := Keyword.strip_eq_self h.keywords
  cases isConst with
  | false => exact ⟨[], by simp, hself⟩
  | true =>
    have hblank : isWordChar ' ' = false := by decide
    have hconst : Keyword.strip "const".toList = [' '] := by decide +kernel
    have hstrip := Keyword.strip_append_cons hblank "const".toList s
    rw [hconst, hself] at hstrip
    exact ⟨[' ', ' '], by simp, hstrip⟩

theorem all_constPrefix_append (h : IsBare s) (isConst : Bool) :
    Keyword.all (constPrefix isConst ++ s) = if isConst then [.const] else [] := by
  cases isConst with
  | false => exact h.keywords
  | true =>
    have hblank : isWordChar ' ' = false := by decide
    have hconst : (Segment.wordsIn "const".toList).filterMap Keyword.ofWord? = [.const] := by
      decide +kernel
    have hwords := Segment.wordsIn_append_cons hblank "const".toList s
    have hall : Keyword.all (constPrefix true ++ s) =
        (Segment.wordsIn ("const".toList ++ ' ' :: s)).filterMap Keyword.ofWord? :=
      Keyword.all_eq _
    rw [hall, hwords, List.filterMap_append, hconst, ← Keyword.all_eq, h.keywords]
    rfl

/-- A bare declaration is brought into normal form; a leading `const` is a qualifier. -/
theorem clean_of_isBare {raw : String} {isConst : Bool}
    (hraw : raw.toList = constPrefix isConst ++ s) (h : IsBare s) :
    standard.clean raw = ({ raw, qualifiers := { isConst } }, Spacing.normalize s) := by
  obtain ⟨blanks, hblanks, hstrip⟩ := strip_constPrefix_append h isConst
  have hfree : ∀ e ∈ Entity.references, ¬ e <:+: blanks ++ s := by
    have hne : ∀ e ∈ Entity.references, e ≠ [] ∧ ' ' ∉ e := by decide
    intro e he
    rw [infix_append_left (hne e he).1 fun c hc hmem =>
      (hne e he).2 (hblanks c hmem ▸ List.mem_of_head? hc)]
    exact h.references e he
  have hreference : Entity.marksReference (blanks ++ s) = false := by
    rw [Entity.marksReference, ← Bool.not_eq_true, occursIn_iff]
    exact hfree _ (by simp [Entity.references])
  have hqualifiers : Keyword.qualifiers (constPrefix isConst ++ s) = { isConst } := by
    cases isConst <;> simp [Keyword.qualifiers, all_constPrefix_append h]
  have hnormal : Spacing.normalize (blanks ++ s) = Spacing.normalize s :=
    normalize_append_of_blank (fun c hc => hblanks c hc ▸ by decide) s
  have hall := Annotation.stripAll_eq_self (not_infix_constPrefix_append h isConst)
  simp only [clean, standard, hraw, hall, hstrip, hqualifiers, hreference,
    Entity.decode_eq_self_of_not_infix hfree, hnormal]

/-- The type that a bare declaration declares is read from its normal form. -/
theorem parse_of_isBare {raw : String} {isConst : Bool}
    (hraw : raw.toList = constPrefix isConst ++ s) (h : IsBare s) :
    standard.parse raw =
      Descriptor.ofText { raw, qualifiers := { isConst } } (Spacing.normalize s) := by
  rw [parse, clean_of_isBare hraw h]

/-! ## Joined texts -/

/-- Bare texts stay bare when they are joined at a character that no annotation and no character
reference goes over. -/
theorem IsBare.append_cons (hs : IsBare s) (ht : IsBare t) (hc : isWordChar c = false)
    (hannotations : ∀ a ∈ Annotation.builtin, ∀ x y, a.token = x ++ c :: y → ¬ x <:+ s)
    (hreferences : ∀ e ∈ Entity.references, c ∉ e) : IsBare (s ++ c :: t) := by
  refine ⟨fun a ha hin => ?_, ?_, fun e he => ?_⟩
  · rcases infix_append_cons_cases hin with hin | hin | ⟨x, y, htoken, hx, -⟩
    · exact hs.annotations a ha hin
    · exact ht.annotations a ha hin
    · exact hannotations a ha x y htoken hx
  · rw [Keyword.all_eq, Segment.wordsIn_append_cons hc, List.filterMap_append, ← Keyword.all_eq,
      ← Keyword.all_eq, hs.keywords, ht.keywords, List.append_nil]
  · rw [infix_append_cons (hreferences e he)]
    exact not_or.2 ⟨hs.references e he, ht.references e he⟩

end DeclarationParser

end TypeAtlas
