import TypeAtlas.Proofs.Declaration.Identifiers
import TypeAtlas.Proofs.Declaration.Layout
import TypeAtlas.Proofs.Text.Occurrences

/-!
# The words of a declaration

Keywords and most annotations are found in the words of a text. No step of reading makes a word: the
words of the normal form are words of the text that it was made of, less the keywords.

## Main definitions

* `Segment.wordsIn` — the words of a text.

The main statements are `Segment.exists_mem_wordsIn_of_infix`, `Keyword.wordsIn_strip`,
`Entity.wordsIn_decode_subset` and `Spacing.wordsIn_normalize`.
-/

namespace TypeAtlas

open Text

namespace Segment

variable {s t w needle : List Char} {c : Char}

/-- The characters of a segment that is a word. -/
def word? : Segment → Option (List Char)
  | .word w => some w
  | .other _ => none

/-- The words of a text. -/
def wordsIn (s : List Char) : List (List Char) :=
  (ofText s).filterMap word?

@[simp] theorem wordsIn_nil : wordsIn [] = [] := rfl

/-- A text is cut where a character is no part of a word. -/
theorem wordsIn_append_cons (hc : isWordChar c = false) (s t : List Char) :
    wordsIn (s ++ c :: t) = wordsIn s ++ wordsIn t := by
  simp [wordsIn, ofText_append_cons hc, word?, List.filterMap_cons]

theorem wordsIn_cons (hc : isWordChar c = false) (s : List Char) : wordsIn (c :: s) = wordsIn s :=
  wordsIn_append_cons hc [] s

theorem wordsIn_of_word (hne : w ≠ []) (hw : ∀ c ∈ w, isWordChar c = true) : wordsIn w = [w] := by
  rw [wordsIn, ofText_word hne hw]
  rfl

/-- A text is one word, or it is cut where a character is no part of a word. -/
@[elab_as_elim]
theorem parts_induction {P : List Char → Prop} (nil : P [])
    (word : ∀ w, w ≠ [] → (∀ c ∈ w, isWordChar c = true) → P w)
    (cut : ∀ s c t, isWordChar c = false → P s → P t → P (s ++ c :: t)) (s : List Char) : P s := by
  by_cases hs : ∀ c ∈ s, isWordChar c = true
  · cases s with
    | nil => exact nil
    | cons c s => exact word _ (by simp) hs
  · push Not at hs
    obtain ⟨c, hmem, hc⟩ := hs
    obtain ⟨before, after, rfl⟩ := List.append_of_mem hmem
    exact cut before c after (by simpa using hc) (parts_induction nil word cut before)
      (parts_induction nil word cut after)
termination_by s.length

theorem wordsIn_of_other (hs : ∀ c ∈ s, isWordChar c = false) : wordsIn s = [] := by
  induction s with
  | nil => rfl
  | cons c s ih =>
    rw [wordsIn_cons (hs c (by simp))]
    exact ih fun d hd => hs d (List.mem_cons_of_mem c hd)

/-- Two texts are cut at their joint if no word goes over it. -/
theorem wordsIn_append (h : (∀ c ∈ s.getLast?, isWordChar c = false) ∨
    ∀ c ∈ t.head?, isWordChar c = false) : wordsIn (s ++ t) = wordsIn s ++ wordsIn t := by
  rcases h with h | h
  · cases hs : s.getLast? with
    | none => simp [List.getLast?_eq_none_iff.1 hs]
    | some c =>
      obtain ⟨before, rfl⟩ := List.getLast?_eq_some_iff.1 hs
      have hc := h c (by simp)
      rw [List.append_assoc, List.singleton_append, wordsIn_append_cons hc, wordsIn_append_cons hc]
      simp
  · cases t with
    | nil => simp
    | cons c t => rw [wordsIn_append_cons (h c (by simp)), wordsIn_cons (h c (by simp))]

theorem infix_of_mem_wordsIn (hw : w ∈ wordsIn s) : w <:+: s := by
  induction s using parts_induction with
  | nil => simp at hw
  | word s hne hs =>
    rw [wordsIn_of_word hne hs, List.mem_singleton] at hw
    exact hw ▸ List.infix_refl _
  | cut s c t hc ihs iht =>
    rw [wordsIn_append_cons hc, List.mem_append] at hw
    rcases hw with hw | hw
    · exact (ihs hw).trans (List.prefix_append _ _).isInfix
    · exact (iht hw).trans ((List.suffix_cons c t).trans (List.suffix_append _ _)).isInfix

theorem isWordChar_of_mem_wordsIn (hw : w ∈ wordsIn s) : ∀ c ∈ w, isWordChar c = true := by
  induction s using parts_induction with
  | nil => simp at hw
  | word s hne hs =>
    rw [wordsIn_of_word hne hs, List.mem_singleton] at hw
    exact hw ▸ hs
  | cut s c t hc ihs iht =>
    rw [wordsIn_append_cons hc, List.mem_append] at hw
    exact hw.elim ihs iht

/-- A needle that is a word occurs in a word of the text. -/
theorem exists_mem_wordsIn_of_infix (hne : needle ≠ [])
    (hneedle : ∀ c ∈ needle, isWordChar c = true) (h : needle <:+: s) :
    ∃ w ∈ wordsIn s, needle <:+: w := by
  induction s using parts_induction with
  | nil => exact absurd (List.infix_nil.1 h) hne
  | word s hs hword => exact ⟨s, by simp [wordsIn_of_word hs hword], h⟩
  | cut s c t hc ihs iht =>
    have hout : c ∉ needle := fun hmem => by simp [hneedle c hmem] at hc
    rw [wordsIn_append_cons hc]
    rcases (infix_append_cons hout).1 h with h | h
    · obtain ⟨w, hw, hin⟩ := ihs h
      exact ⟨w, List.mem_append_left _ hw, hin⟩
    · obtain ⟨w, hw, hin⟩ := iht h
      exact ⟨w, List.mem_append_right _ hw, hin⟩

/-! ## Characters in front of a text -/

theorem exists_ofText_cons (hc : isWordChar c = true) (s : List Char) :
    ∃ w rest, ofText (c :: s) = .word w :: rest := by
  rw [show ofText (c :: s) = cons c (ofText s) from rfl]
  generalize ofText s = segments
  rcases segments with _ | ⟨_ | _, _⟩ <;> simp [cons, hc]

/-- A character of a word goes into the first word behind it, or makes one. -/
theorem wordsIn_cons_word (hc : isWordChar c = true) (s : List Char) :
    wordsIn (c :: s) = if s.head?.any isWordChar then
      (c :: (wordsIn s).head?.getD []) :: (wordsIn s).tail else [c] :: wordsIn s := by
  cases s with
  | nil => rw [wordsIn_of_word (by simp) (by simpa using hc)]; rfl
  | cons d s =>
    have hcons : ofText (c :: d :: s) = cons c (ofText (d :: s)) := rfl
    cases hd : isWordChar d with
    | true =>
      obtain ⟨w, rest, hrest⟩ := exists_ofText_cons hd s
      simp [wordsIn, hcons, hrest, cons, hc, hd, word?]
    | false =>
      have hrest : ofText (d :: s) = .other d :: ofText s := ofText_append_cons hd [] s
      simp [wordsIn, hcons, hrest, cons, hc, hd, word?]

/-- A character in front of two texts keeps their words the same. -/
theorem wordsIn_cons_congr (hwords : wordsIn s = wordsIn t)
    (hhead : s.head?.any isWordChar = t.head?.any isWordChar) (c : Char) :
    wordsIn (c :: s) = wordsIn (c :: t) := by
  cases hc : isWordChar c with
  | true => rw [wordsIn_cons_word hc, wordsIn_cons_word hc, hwords, hhead]
  | false => rw [wordsIn_cons hc, wordsIn_cons hc, hwords]

end Segment

open Segment (wordsIn wordsIn_append wordsIn_append_cons wordsIn_cons wordsIn_of_word
  wordsIn_of_other)

/-! ## Keywords -/

namespace Keyword

variable {s : List Char}

theorem all_eq (s : List Char) : all s = (wordsIn s).filterMap ofWord? := by
  rw [all, wordsIn, List.filterMap_filterMap]
  congr 1
  funext segment
  cases segment <;> rfl

/-- The keywords are taken out of the words. -/
theorem wordsIn_strip (s : List Char) :
    wordsIn (strip s) = (wordsIn s).filter (ofWord? · = none) := by
  induction s using Segment.parts_induction with
  | nil => rfl
  | word s hne hs =>
    rw [wordsIn_of_word hne hs, strip, Segment.ofText_word hne hs]
    cases hkeyword : ofWord? s with
    | none => simp [ofSegment?, hkeyword, Segment.text, wordsIn_of_word hne hs]
    | some keyword =>
      have hblank : isWordChar ' ' = false := by decide
      simp [ofSegment?, hkeyword, wordsIn_cons hblank]
  | cut s c t hc ihs iht =>
    rw [strip_append_cons hc, wordsIn_append_cons hc, wordsIn_append_cons hc, ihs, iht,
      List.filter_append]

/-- A text without keywords stays. -/
theorem strip_eq_self (h : all s = []) : strip s = s := by
  induction s using Segment.parts_induction with
  | nil => rfl
  | word s hne hs =>
    refine strip_word hne hs ?_
    simpa [all_eq, wordsIn_of_word hne hs] using h
  | cut s c t hc ihs iht =>
    rw [all_eq, wordsIn_append_cons hc, List.filterMap_append, List.append_eq_nil_iff, ← all_eq,
      ← all_eq] at h
    rw [strip_append_cons hc, ihs h.1, iht h.2]

end Keyword

/-! ## Character references -/

namespace Entity

variable {old new s : List Char}

/-- What is put in place of a text that starts and ends outside of words makes no word. -/
theorem wordsIn_replace_subset (hold : old ≠ []) (hfirst : ∀ c ∈ old.head?, isWordChar c = false)
    (hlast : ∀ c ∈ old.getLast?, isWordChar c = false) (hnew : ∀ c ∈ new, isWordChar c = false)
    (hne : new ≠ []) (s : List Char) : wordsIn (replace old new s) ⊆ wordsIn s := by
  cases hcut : cutAt? old s with
  | none => rw [replace_eq_self (cutAt?_eq_none_iff.1 hcut)]; exact List.Subset.refl _
  | some parts =>
    obtain ⟨before, after⟩ := parts
    have hs := eq_of_cutAt? hcut
    have hlength : after.length < s.length := by
      have := List.length_pos_iff.2 hold
      simp only [hs, List.length_append]
      omega
    have hjoint : ∀ t, wordsIn (before ++ new ++ t) = wordsIn before ++ wordsIn t := by
      intro t
      rw [wordsIn_append (.inl fun c hc => by
          refine hnew c (List.mem_of_getLast? ?_)
          rwa [List.getLast?_append_of_ne_nil _ hne] at hc),
        wordsIn_append (.inr fun c hc => hnew c (List.mem_of_head? hc)), wordsIn_of_other hnew,
        List.append_nil]
    have hwhole : wordsIn s = wordsIn before ++ wordsIn old ++ wordsIn after := by
      rw [hs, wordsIn_append (.inl fun c hc => by
          refine hlast c ?_
          rwa [List.getLast?_append_of_ne_nil _ hold] at hc), wordsIn_append (.inr hfirst)]
    rw [replace_of_cutAt? hold hcut, hjoint, hwhole]
    have hrest := wordsIn_replace_subset hold hfirst hlast hnew hne after
    grind
termination_by s.length

theorem wordsIn_decode_subset (s : List Char) : wordsIn (decode s) ⊆ wordsIn s := by
  unfold decode
  dsimp only
  iterate 3
    refine List.Subset.trans (wordsIn_replace_subset (by decide) (by decide) (by decide) (by decide)
      (by decide) _) ?_
  exact wordsIn_replace_subset (by decide) (by decide) (by decide) (by decide) (by decide) _

end Entity

/-! ## Spacing -/

namespace Spacing

theorem isWordChar_of_isBlank {c : Char} (h : isBlank c = true) : isWordChar c = false := by
  have hword : ∀ n ∈ [9, 10, 11, 12, 13, 32, 0x85, 0xa0, 0x1680, 0x2000, 0x2001, 0x2002, 0x2003,
      0x2004, 0x2005, 0x2006, 0x2007, 0x2008, 0x2009, 0x200a, 0x2028, 0x2029, 0x202f, 0x205f,
      0x3000], isWordChar (Char.ofNat n) = false := by decide +kernel
  rw [← Char.ofNat_toNat c]
  apply hword
  simp [isBlank, Char.le_def, UInt32.le_iff_toNat_le, Char.ext_iff, ← UInt32.toNat_inj] at h
  have hnat : c.toNat = c.val.toNat := rfl
  simp only [List.mem_cons, List.not_mem_nil, or_false]
  omega

theorem isWordChar_of_isPunctuation {c : Char} (h : isPunctuation c = true) :
    isWordChar c = false := by
  have hall : ("<>,*&^?[].%()".toList.all fun c => !isWordChar c) = true := by decide +kernel
  simpa using List.all_eq_true.1 hall c (by simpa [isPunctuation] using h)

theorem wordsIn_dotted (s : List Char) : wordsIn (Name.dotted s) = wordsIn s := by
  have hdot : isWordChar '.' = false := by decide
  have hcolon : isWordChar ':' = false := by decide
  have hboth : wordsIn (Name.dotted s) = wordsIn s ∧
      (Name.dotted s).head?.any isWordChar = s.head?.any isWordChar := by
    fun_induction Name.dotted s with
    | case1 s ih =>
      refine ⟨?_, by simp [hdot, hcolon]⟩
      rw [wordsIn_cons hdot, wordsIn_cons hcolon, wordsIn_cons hcolon, ih.1]
    | case2 c s _ ih => exact ⟨Segment.wordsIn_cons_congr ih.1 ih.2 c, rfl⟩
    | case3 => exact ⟨rfl, rfl⟩
  exact hboth.1

/-- No word of a text is lost or joined to another one when blanks are left out. -/
theorem wordsIn_layout (s : List Char) (previous : Char) (pending : Bool) :
    wordsIn (layout previous pending s) = wordsIn s ∧
      (isPunctuation previous = false → (layout previous pending s).head?.any isWordChar =
        (!pending && s.head?.any isWordChar)) := by
  have hspace : isWordChar ' ' = false := by decide
  induction s generalizing previous pending with
  | nil => simp [layout]
  | cons c s ih =>
    cases hc : isBlank c with
    | true =>
      have hword := isWordChar_of_isBlank hc
      rw [layout, if_pos hc, wordsIn_cons hword]
      exact ⟨(ih previous true).1, fun hp => by simp [(ih previous true).2 hp, hword]⟩
    | false =>
      have hwhole : wordsIn (c :: layout c false s) = wordsIn (c :: s) := by
        cases hword : isWordChar c with
        | false => rw [wordsIn_cons hword, wordsIn_cons hword, (ih c false).1]
        | true =>
          have hp : isPunctuation c = false := by
            rw [← Bool.not_eq_true]
            intro hp
            simp [isWordChar_of_isPunctuation hp] at hword
          exact Segment.wordsIn_cons_congr (ih c false).1 (by simpa using (ih c false).2 hp) c
      rw [layout, hc, if_neg Bool.false_ne_true]
      split
      · next hdue =>
        simp only [Bool.and_eq_true, Bool.not_eq_true'] at hdue
        exact ⟨by rw [wordsIn_cons hspace, hwhole], by simp [hspace, hdue.1.1]⟩
      · next hdue =>
        refine ⟨hwhole, fun hp => ?_⟩
        cases pending with
        | false => simp
        | true =>
          have hc : isPunctuation c = true := by simpa [hp] using hdue
          simp [isWordChar_of_isPunctuation hc]

theorem wordsIn_packed (s : List Char) : wordsIn (packed s) = wordsIn s :=
  (wordsIn_layout s ',' false).1

/-- The normal form has the words of the text. -/
theorem wordsIn_normalize (s : List Char) : wordsIn (normalize s) = wordsIn s := by
  have hdot : isWordChar '.' = false := by decide
  have hdrop : ∀ t : List Char, wordsIn (t.dropWhile (· == '.')) = wordsIn t := by
    intro t
    induction t with
    | nil => rfl
    | cons c t ih =>
      rw [List.dropWhile_cons]
      split
      · next hc =>
        obtain rfl : c = '.' := by simpa using hc
        rw [ih, wordsIn_cons hdot]
      · rfl
  rw [normalize_eq, hdrop, wordsIn_packed, wordsIn_dotted]

end Spacing

end TypeAtlas
