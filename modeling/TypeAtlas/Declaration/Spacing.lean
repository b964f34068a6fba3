import TypeAtlas.Name

/-!
# Spacing of declarations

The normal form of the text of a declaration: dots for double colons, single spaces between words,
none beside punctuation, and no leading dot.

## Main definitions

* `Spacing.isPunctuation` — the characters that need no space beside them.
* `Spacing.tighten` — the text without spaces beside punctuation.
* `Spacing.normalize` — the normal form.
-/

namespace TypeAtlas.Spacing

open Text

/-- The characters that need no space beside them. -/
def isPunctuation (c : Char) : Bool :=
  "<>,*&^?[].%()".toList.contains c

/-- The text that follows `previous` without the spaces beside punctuation. -/
def tighten (previous : Char) : List Char → List Char
  | [] => []
  | c :: cs =>
    if c = ' ' && (isPunctuation previous || isPunctuation (cs.headD ' ')) then tighten c cs
    else c :: tighten c cs

/-- The normal form of the text of a declaration. -/
def normalize (s : List Char) : List Char :=
  (tighten ' ' (collapse (Name.dotted s))).dropWhile (· == '.')

end TypeAtlas.Spacing
