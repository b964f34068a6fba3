/-!
# Blank characters

Trimming, splitting into words and collapsing of runs of blanks. Text is worked on as a list of
characters; the functions on `String` wrap the ones on lists.

## Main definitions

* `isBlank` — the characters that separate words.
* `trim`, `trimWith` — the text without the unwanted characters at its two ends.
* `words`, `collapse` — the maximal blank-free pieces, and these pieces one space apart.
-/

namespace TypeAtlas.Text

/-- A character with the Unicode property `White_Space`. -/
def isBlank (c : Char) : Bool :=
  c == ' ' || ('\t' ≤ c && c ≤ '\r') || c == '\u0085' || c == '\u00a0' || c == '\u1680'
    || ('\u2000' ≤ c && c ≤ '\u200a') || c == '\u2028' || c == '\u2029' || c == '\u202f'
    || c == '\u205f' || c == '\u3000'

/-! ## Trimming -/

/-- The text without the characters in `p` at its end. -/
def trimEnd (p : Char → Bool) (s : List Char) : List Char :=
  (s.reverse.dropWhile p).reverse

/-- The text without the characters in `p` at its two ends. -/
def trimWith (p : Char → Bool) (s : List Char) : List Char :=
  trimEnd p (s.dropWhile p)

/-- The text without the blanks at its two ends. -/
def trim (s : List Char) : List Char :=
  trimWith isBlank s

/-- The string without the blanks at its two ends. -/
def trimmed (s : String) : String :=
  String.ofList (trim s.toList)

@[simp] theorem toList_trimmed (s : String) : (trimmed s).toList = trim s.toList := by
  simp [trimmed]

theorem trimEnd_length_le (p : Char → Bool) (s : List Char) : (trimEnd p s).length ≤ s.length := by
  have := (List.dropWhile_suffix p (l := s.reverse)).length_le
  simpa [trimEnd] using this

theorem trim_length_le (s : List Char) : (trim s).length ≤ s.length :=
  Nat.le_trans (trimEnd_length_le _ _) (List.dropWhile_suffix isBlank).length_le

/-! ## Words -/

/-- The maximal blank-free pieces of a text, in order. -/
def words : List Char → List (List Char)
  | [] => []
  | c :: cs =>
    if isBlank c then words cs
    else match cs with
      | [] => [[c]]
      | d :: _ =>
        if isBlank d then [c] :: words cs
        else match words cs with
          | [] => [[c]]
          | w :: ws => (c :: w) :: ws

@[simp] theorem words_nil : words [] = [] := rfl

/-- A blank is part of no word. -/
theorem words_cons_of_blank {c : Char} (hc : isBlank c = true) (s : List Char) :
    words (c :: s) = words s := by
  rw [words.eq_def]
  exact if_pos hc

/-- A character with a blank or nothing behind it is a word. -/
theorem words_cons_of_head {c : Char} {s : List Char} (hc : isBlank c = false)
    (hs : ∀ d ∈ s.head?, isBlank d = true) : words (c :: s) = [c] :: words s := by
  rw [words.eq_def]
  cases s with
  | nil => simp [hc]
  | cons d s => simp [hc, hs d rfl]

/-- A character is the first one of the word that starts right behind it. -/
theorem words_cons_cons {c d : Char} {s w : List Char} {ws : List (List Char)}
    (hc : isBlank c = false) (hd : isBlank d = false) (hw : words (d :: s) = w :: ws) :
    words (c :: d :: s) = (c :: w) :: ws := by
  rw [words.eq_def]
  simp [hc, hd, hw]

theorem words_ne_nil {c : Char} (hc : isBlank c = false) (s : List Char) :
    words (c :: s) ≠ [] := by
  rw [words.eq_def]
  cases s with
  | nil => simp [hc]
  | cons d s =>
    cases hd : isBlank d with
    | true => simp [hc, hd]
    | false =>
      simp only [hc, hd, Bool.false_eq_true, if_false]
      split <;> simp

/-- The words of a text one space apart. -/
def collapse (s : List Char) : List Char :=
  [' '].intercalate (words s)

end TypeAtlas.Text
