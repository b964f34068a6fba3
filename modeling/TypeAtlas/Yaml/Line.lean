import TypeAtlas.Yaml.Character

/-!
# Lines

## Main definitions

* `YamlLine` — a line and its end.
* `endLine?` — the text behind the current line, if nothing but a comment is left of it.
-/

namespace TypeAtlas

open Yaml

/-- A line and the character that ends it; the end of a text needs none. -/
structure YamlLine where
  text : List Char
  ending : Option Char
  deriving DecidableEq, Repr

namespace YamlLine

/-- The lines of a text. -/
def ofText : List Char → List YamlLine
  | [] => []
  | c :: cs =>
    if isBreak c then { text := [], ending := some c } :: ofText cs
    else
      match ofText cs with
      | [] => [{ text := [c], ending := none }]
      | line :: lines => { line with text := c :: line.text } :: lines

/-- The text that lines make up. -/
def toText (lines : List YamlLine) : List Char :=
  lines.flatMap fun line => line.text ++ line.ending.toList

/-- The number of spaces at the start of a line. -/
def indentation (line : YamlLine) : Nat :=
  (line.text.takeWhile (· == ' ')).length

/-- The line behind an indentation; an empty one is left empty. -/
def indented (indent : Nat) (line : YamlLine) : YamlLine :=
  { line with text := if line.text = [] then [] else List.replicate indent ' ' ++ line.text }

/-- The lines of a text make it up. -/
theorem toText_ofText (s : List Char) : toText (ofText s) = s := by
  induction s with
  | nil => rfl
  | cons c cs ih =>
    unfold ofText
    split
    · simpa [toText] using ih
    · split
      · next h =>
        rw [h] at ih
        simp only [toText, List.flatMap_nil] at ih
        simp [toText, ← ih]
      · next line lines h =>
        rw [h] at ih
        simpa [toText] using ih

end YamlLine

namespace Yaml

/-- The text behind a comment, if the text starts with one. -/
def dropComment (s : List Char) : List Char :=
  if s.head? = some '#' then s.dropWhile (!isBreak ·) else s

/-- The text behind the line if there is nothing else on it but white space and a comment. -/
def endLine? (s : List Char) : Option (List Char) :=
  match dropComment (s.dropWhile isBlank) with
  | [] => some []
  | c :: cs => if isBreak c then some cs else none

theorem dropComment_length (s : List Char) : (dropComment s).length ≤ s.length := by
  unfold dropComment
  split
  · exact (List.dropWhile_suffix _).length_le
  · exact Nat.le_refl _

theorem endLine?_length {s r : List Char} (h : endLine? s = some r) : r.length ≤ s.length := by
  have h1 := (List.dropWhile_suffix isBlank (l := s)).length_le
  have h2 := dropComment_length (s.dropWhile isBlank)
  unfold endLine? at h
  split at h
  · simp_all
  · next c cs heq =>
    split at h
    · obtain rfl : cs = r := by simpa using h
      rw [heq] at h2
      simp only [List.length_cons] at h2
      omega
    · simp at h

end Yaml

end TypeAtlas
