import TypeAtlas.Documentation
import TypeAtlas.Proofs.Declaration.Understood

/-!
# Folded documentation

The fold of a brief and a detailed text keeps every word, in order. A text says nothing exactly if
it has no words, so the fold says nothing exactly if neither text shows anything.

## Main definitions

* `Text.readWords` — the words of a text, found without looking at how texts are collapsed.
* `Paragraph.words`, `DocText.words`, `Content.words` — the words that a reader sees, in order.

The main statements are `Content.isEmpty_ofDoc`, `Content.ofDoc_of_isEmpty` and
`Content.keepsWords_ofDoc`.
-/

namespace TypeAtlas

namespace Text

variable {s : List Char} {c : Char}

/-! ## Words -/

/-- The words that a reader finds in a text: the non-empty pieces between blanks. -/
def readWords (s : List Char) : List (List Char) :=
  (s.splitOnP isBlank).filter (!·.isEmpty)

@[simp] theorem readWords_nil : readWords [] = [] := by simp [readWords]

/-- A blank parts the words of a text. -/
theorem readWords_append_cons (hc : isBlank c = true) (s t : List Char) :
    readWords (s ++ c :: t) = readWords s ++ readWords t := by
  rw [readWords, List.splitOnP_append_cons s t hc, List.filter_append, ← readWords, ← readWords]

theorem readWords_of_isSolid (hs : IsSolid s) : readWords s = [s] := by
  simp [readWords, List.splitOnP_eq_singleton hs.2, hs.1]

theorem readWords_eq_nil_iff : readWords s = [] ↔ ∀ c ∈ s, isBlank c = true := by
  induction s with
  | nil => simp
  | cons c s ih =>
    obtain ⟨p, ps, hp⟩ := List.exists_cons_of_ne_nil (List.splitOnP_ne_nil isBlank s)
    rw [readWords, hp] at ih
    rw [readWords, List.splitOnP_cons_eq_if_modifyHead, hp]
    cases hc : isBlank c <;> simp [hc, ih]

/-- Collapsing puts together what a reader finds. -/
theorem words_eq_readWords (s : List Char) : words s = readWords s := by
  induction s with
  | nil => rfl
  | cons c s ih =>
    cases hc : isBlank c with
    | true =>
      rw [words_cons_of_blank hc, ih]
      exact (readWords_append_cons hc [] s).symm
    | false =>
      cases s with
      | nil => rw [words_cons_of_head hc (by simp), readWords_of_isSolid (isSolid_singleton hc),
          words_nil]
      | cons d s =>
        obtain ⟨p, ps, hp⟩ := List.exists_cons_of_ne_nil (List.splitOnP_ne_nil isBlank s)
        cases hd : isBlank d with
        | true =>
          rw [words_cons_of_head hc (by simpa using hd), ih]
          simp [readWords, List.splitOnP_cons_eq_if_modifyHead, hc, hd]
        | false =>
          have hrest : words (d :: s) = (d :: p) :: ps.filter (!·.isEmpty) := by
            rw [ih]
            simp [readWords, List.splitOnP_cons_eq_if_modifyHead, hd, hp]
          rw [words_cons_cons hc hd hrest]
          simp [readWords, List.splitOnP_cons_eq_if_modifyHead, hc, hd, hp]

theorem readWords_intercalate (ss : List (List Char)) :
    readWords ([' '].intercalate ss) = ss.flatMap readWords := by
  induction ss with
  | nil => simp
  | cons s ss ih =>
    cases ss with
    | nil => simp
    | cons t ts =>
      rw [List.intercalate_cons_cons, List.append_assoc, List.singleton_append,
        readWords_append_cons (by decide), ih]
      simp

@[simp] theorem readWords_collapse (s : List Char) : readWords (collapse s) = readWords s := by
  have hone : ∀ w ∈ words s, readWords w = [w] := fun w hw =>
    readWords_of_isSolid (isSolid_of_mem_words hw)
  rw [collapse, readWords_intercalate, List.flatMap_congr hone, List.flatMap_singleton',
    words_eq_readWords]

/-- Trimming leaves nothing exactly of a text without words. -/
theorem trimmed_eq_empty_iff {s : String} : trimmed s = "" ↔ readWords s.toList = [] := by
  rw [← String.toList_eq_nil_iff, toList_trimmed, readWords_eq_nil_iff]
  obtain ⟨before, after, hbefore, hafter, hs⟩ := exists_trim s.toList
  constructor
  · intro h
    rw [hs, h]
    grind
  · intro h
    rw [trim, trimWith, List.dropWhile_eq_nil_iff.2 h]
    rfl

end Text

open Text

/-! ## Paragraphs -/

namespace Paragraph

variable {p : Paragraph}

/-- The words of the visible text. -/
def words (p : Paragraph) : List (List Char) :=
  readWords p.visibleChars

theorem words_plainText (p : Paragraph) : readWords p.plainText.toList = p.words := by
  simp [plainText, words]

/-- Runs that each show nothing show nothing together. -/
theorem words_eq_nil_iff : p.words = [] ↔ p.isBlank = true := by
  simp only [words, readWords_eq_nil_iff, isBlank, visibleChars, List.all_eq_true, beq_iff_eq,
    trimmed_eq_empty_iff, List.mem_flatMap]
  grind

end Paragraph

namespace DocText

variable {doc : DocText}

/-- The words of the paragraphs. -/
def words (doc : DocText) : List (List Char) :=
  doc.paragraphs.flatMap Paragraph.words

theorem words_eq_nil_iff : doc.words = [] ↔ doc.isBlank = true := by
  simp [words, isBlank, Paragraph.words_eq_nil_iff]

/-- No word is in a paragraph that is left out. -/
theorem flatMap_words_nonBlank (doc : DocText) :
    doc.nonBlank.flatMap Paragraph.words = doc.words := by
  unfold nonBlank words
  induction doc.paragraphs with
  | nil => rfl
  | cons p ps ih =>
    have hblank := Paragraph.words_eq_nil_iff (p := p)
    grind

end DocText

/-! ## Contents -/

namespace Content

variable {brief detailed : DocText} {content : Content}

/-- The words of the summary, of the description and of the paragraphs. -/
def words (content : Content) : List (List Char) :=
  readWords content.summary.toList ++ readWords content.description.toList ++
    content.paragraphs.flatMap Paragraph.words

theorem words_eq_nil_iff : content.words = [] ↔ content.isEmpty = true := by
  simp [words, isEmpty, trimmed_eq_empty_iff, Paragraph.words_eq_nil_iff, and_assoc]

/-- The brief paragraphs are joined in the summary. -/
theorem words_summary (brief : DocText) :
    readWords (" ".intercalate (brief.nonBlank.map Paragraph.plainText)).toList = brief.words := by
  have hspace : " ".toList = [' '] := by decide
  rw [String.toList_intercalate, hspace, readWords_intercalate, ← brief.flatMap_words_nonBlank]
  simp [List.flatMap_map, Paragraph.words_plainText]

/-- The detailed paragraphs are parted into the description and the rest. -/
theorem words_description (detailed : DocText) :
    readWords ((detailed.nonBlank.head?.map Paragraph.plainText).getD "").toList ++
      detailed.nonBlank.tail.flatMap Paragraph.words = detailed.words := by
  rw [← detailed.flatMap_words_nonBlank]
  cases detailed.nonBlank with
  | nil => simp
  | cons p ps => simp [Paragraph.words_plainText]

theorem words_ofDoc (brief detailed : DocText) :
    (ofDoc brief detailed).words = brief.words ++ detailed.words := by
  have hsummary := words_summary brief
  have hdescription := words_description detailed
  unfold ofDoc
  dsimp only
  split
  · next hempty =>
    -- The brief text has no words then, so nothing is passed by the description.
    rw [hempty] at hsummary
    simp [words, ← hsummary, ← hdescription]
  · simp [words, ← hsummary, ← hdescription]

/-- A content says nothing exactly if both texts are blank. -/
theorem isEmpty_ofDoc :
    (ofDoc brief detailed).isEmpty = true ↔ brief.isBlank = true ∧ detailed.isBlank = true := by
  rw [← words_eq_nil_iff, words_ofDoc, List.append_eq_nil_iff, DocText.words_eq_nil_iff,
    DocText.words_eq_nil_iff]

/-- A content that says nothing is the empty one. -/
theorem ofDoc_of_isEmpty (h : (ofDoc brief detailed).isEmpty = true) :
    ofDoc brief detailed = {} := by
  have hnone : ∀ {doc : DocText}, doc.isBlank = true → doc.nonBlank = [] := by
    simp [DocText.nonBlank, DocText.isBlank]
  obtain ⟨hbrief, hdetailed⟩ := isEmpty_ofDoc.1 h
  unfold ofDoc
  rw [hnone hbrief, hnone hdetailed]
  simp

/-- Folding keeps every word of the two texts, in order. It makes the empty content of blank texts,
and of no others. -/
theorem keepsWords_ofDoc (brief detailed : DocText) :
    (ofDoc brief detailed).words = brief.words ++ detailed.words ∧
      ((ofDoc brief detailed).isEmpty = true ↔ brief.isBlank = true ∧ detailed.isBlank = true) ∧
      ((ofDoc brief detailed).isEmpty = true ↔ ofDoc brief detailed = {}) := by
  refine ⟨words_ofDoc brief detailed, isEmpty_ofDoc, ofDoc_of_isEmpty, fun h => ?_⟩
  rw [h]
  decide

end Content

end TypeAtlas
