/-!
# Characters of YAML

The classes of characters that YAML tells apart. A line ends with a line feed or with one of the two
separators for lines and paragraphs; the other ways to end a line are replaced by a line feed before
a text is read.

## Main definitions

* `normalizeBreaks` — the text in which every line ends in one of these ways.
* `isBreak`, `isBlank`, `atGap` — white space.
* `isReadable`, `isPrintable` — the characters that a text may hold, and those that are written as
  they are.
* `startsMarker` — the marks between documents.
-/

namespace TypeAtlas.Yaml

/-- The text whose carriage returns and next-line characters are line feeds. -/
def normalizeBreaks : List Char → List Char
  | '\r' :: '\n' :: cs => '\n' :: normalizeBreaks cs
  | c :: cs => (if c = '\r' ∨ c = '\u0085' then '\n' else c) :: normalizeBreaks cs
  | [] => []

/-- A character that ends a line. -/
def isBreak (c : Char) : Bool :=
  c == '\n' || c == '\u2028' || c == '\u2029'

/-- White space within a line. -/
def isBlank (c : Char) : Bool :=
  c == ' ' || c == '\t'

/-- White space. -/
def isGap (c : Char) : Bool :=
  isBlank c || isBreak c

/-- Whether a text is at its end or goes on with white space. -/
def atGap : List Char → Bool
  | [] => true
  | c :: _ => isGap c

/-- A character that a text may hold. -/
def isReadable (c : Char) : Bool :=
  c == '\t' || c == '\n' || c == '\r' || (' ' ≤ c && c ≤ '~') || c == '\u0085'
    || ('\u00a0' ≤ c && c.toNat ≤ 0xfffd) || 0x10000 ≤ c.toNat

/-- A character that is written as it is. -/
def isPrintable (c : Char) : Bool :=
  c == '\n' || (' ' ≤ c && c ≤ '~') || ('\u00a0' ≤ c && c.toNat ≤ 0xfffd && c.toNat != 0xfeff)
    || 0x10000 ≤ c.toNat

/-- A character of the name of an anchor. -/
def isNameChar (c : Char) : Bool :=
  c.isAlphanum || c == '_' || c == '-'

/-- A character that separates or encloses the items of a flow collection. -/
def isFlowMark (c : Char) : Bool :=
  c == ',' || c == '[' || c == ']' || c == '{' || c == '}'

/-- Whether three times the character, and then a gap, stand at the start of a text. -/
def startsTriple (mark : Char) : List Char → Bool
  | a :: b :: c :: cs => a == mark && b == mark && c == mark && atGap cs
  | _ => false

/-- Whether the mark of the start or of the end of a document stands at the start of a line. -/
def startsMarker (s : List Char) : Bool :=
  startsTriple '-' s || startsTriple '.' s

end TypeAtlas.Yaml
