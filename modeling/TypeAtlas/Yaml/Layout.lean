import TypeAtlas.Yaml.Block
import TypeAtlas.Yaml.Scalar
import TypeAtlas.Yaml.Token

/-!
# The layout of a text

Outside of brackets the columns of a text decide where its block collections start and end. A layout
is a place in a text with the columns of the collections that are open there. Reading on from it
gives tokens and the next layout.

A key without a question mark in front is known by the colon behind it, which has to stand on the
same line; so the reader looks ahead for one wherever a key may start.

## Main definitions

* `YamlLexeme`, `YamlLexeme.read?` — a scalar, a reference or a property of a node.
* `YamlLayout`, `YamlLayout.read?` — a layout, and the tokens at its place.
* `YamlLayout.tokens?` — the tokens of a text.
-/

namespace TypeAtlas

open Yaml

/-! ## Lexemes -/

/-- A scalar, a reference or a property of a node, and the place behind it. -/
structure YamlLexeme where
  token : YamlToken
  column : Nat
  rest : List Char
  /-- Whether there is a line break in it or in the white space that was skipped behind it. -/
  spansLines : Bool := false
  /-- Whether only white space lies between the place behind it and the start of a line. -/
  atNewLine : Bool := false
  deriving DecidableEq, Repr

namespace YamlLexeme

/-- A scalar with the style. -/
def ofExtent (style : ScalarStyle) (e : YamlExtent) : YamlLexeme where
  token := .scalar style (String.ofList e.text)
  column := e.column
  rest := e.rest
  spansLines := e.spansLines
  atNewLine := e.atNewLine

/-- The characters that do not start a plain scalar. -/
def reserved : List Char :=
  ['-', '?', ':', ',', '[', ']', '{', '}', '#', '&', '*', '!', '|', '>', '\x27', '"', '%', '@',
   '\x60']

/-- Whether a plain scalar starts with the character `c`. A dash, a question mark or a colon starts
one if no gap follows, the latter two only outside of brackets. -/
def startsPlain (isFlow : Bool) (c : Char) (cs : List Char) : Bool :=
  if c = '-' then !atGap cs
  else if c = '?' ∨ c = ':' then !isFlow && !atGap cs
  else !isGap c && !reserved.contains c

/-- The lexeme that starts with the character `c`. -/
def read? (isFlow : Bool) (margin column : Nat) (c : Char) (cs : List Char) : Option YamlLexeme :=
  if c = '*' then
    (YamlToken.readName? cs).map fun (name, rest) =>
      { token := .reference (String.ofList name), column := column + 1 + name.length, rest }
  else if c = '&' then
    (YamlToken.readName? cs).map fun (name, rest) =>
      { token := .anchor (String.ofList name), column := column + 1 + name.length, rest }
  else if c = '!' then
    (YamlToken.readTag? isFlow cs).map fun (token, rest) =>
      { token, column := column + 1 + (cs.length - rest.length), rest }
  else if c = '\x27' then
    (YamlExtent.singleQuoted? .none (column + 1) cs).map (ofExtent .singleQuoted)
  else if c = '"' then
    (YamlExtent.doubleQuoted? .none (column + 1) cs).map (ofExtent .doubleQuoted)
  else if startsPlain isFlow c cs then
    (YamlExtent.plain? isFlow margin column c cs).map (ofExtent .plain)
  else
    none

/-- The place behind a property of a node and the blanks behind it, if the text starts with one. -/
def skipProperty (isFlow : Bool) (margin : Nat) : Nat × List Char → Nat × List Char
  | (column, []) => (column, [])
  | (column, c :: cs) =>
    if c = '&' ∨ c = '!' then
      match read? isFlow margin column c cs with
      | some x =>
        (x.column + (x.rest.takeWhile isBlank).length, x.rest.dropWhile isBlank)
      | none => (column, c :: cs)
    else
      (column, c :: cs)

/-- The greatest distance between the start of a key and its colon. -/
def keyLimit : Nat := 1024

/-- Whether a key with its properties starts the text: a scalar or a reference with a colon behind
it on the same line. -/
def startsKey (isFlow : Bool) (margin column : Nat) (s : List Char) : Bool :=
  match skipProperty isFlow margin (skipProperty isFlow margin (column, s)) with
  | (_, []) => false
  | (start, c :: cs) =>
    match read? isFlow margin start c cs with
    | none => false
    | some x =>
      match x.rest.dropWhile isBlank with
      | ':' :: cs =>
        c != '&' && c != '!' && !x.spansLines && (isFlow || atGap cs)
          && x.column + (x.rest.takeWhile isBlank).length ≤ column + keyLimit
      | _ => false

theorem read?_length {isFlow : Bool} {margin column : Nat} {c : Char} {cs : List Char}
    {x : YamlLexeme} (h : read? isFlow margin column c cs = some x) :
    x.rest.length ≤ cs.length := by
  unfold read? at h
  split at h
  · obtain ⟨⟨name, rest⟩, hn, rfl⟩ := Option.map_eq_some_iff.1 h
    exact YamlToken.readName?_length hn
  · split at h
    · obtain ⟨⟨name, rest⟩, hn, rfl⟩ := Option.map_eq_some_iff.1 h
      exact YamlToken.readName?_length hn
    · split at h
      · obtain ⟨⟨token, rest⟩, hn, rfl⟩ := Option.map_eq_some_iff.1 h
        exact YamlToken.readTag?_length hn
      · split at h
        · obtain ⟨e, he, rfl⟩ := Option.map_eq_some_iff.1 h
          exact YamlExtent.singleQuoted?_length he
        · split at h
          · obtain ⟨e, he, rfl⟩ := Option.map_eq_some_iff.1 h
            exact YamlExtent.doubleQuoted?_length he
          · split at h
            · obtain ⟨e, he, rfl⟩ := Option.map_eq_some_iff.1 h
              exact YamlExtent.plain?_length he
            · simp at h

end YamlLexeme

/-! ## Layouts -/

/-- A place in a text, with what decides how the text is read from there on. -/
structure YamlLayout where
  column : Nat := 0
  rest : List Char
  /-- The margins of the open block collections, innermost first. What belongs to a collection
  starts at its margin or behind it; its items and keys stand one column before. -/
  margins : List Nat := []
  /-- The number of brackets that are open. -/
  flowDepth : Nat := 0
  /-- Whether a key or a block collection may start here. -/
  keyAllowed : Bool := true
  /-- Whether the colon of a key is still to come. -/
  keyPending : Bool := false
  deriving DecidableEq, Repr

namespace YamlLayout

/-- Whether the place lies between brackets. -/
def isFlow (l : YamlLayout) : Bool :=
  l.flowDepth != 0

/-- The margin of the innermost block collection. -/
def margin (l : YamlLayout) : Nat :=
  l.margins.headD 0

/-- Whether what starts here has to be a key, since it stands where the keys of the innermost
collection do. -/
def keyRequired (l : YamlLayout) : Bool :=
  !l.isFlow && l.keyAllowed && l.margin == l.column + 1

/-- The layout at a place further on in the line. -/
def past (l : YamlLayout) (width : Nat) (rest : List Char) (keyAllowed : Bool) : YamlLayout :=
  { l with column := l.column + width, rest, keyAllowed }

/-! ### White space and comments -/

/-- The place behind white space and comments, and whether a key may start there. Outside of
brackets a key may start on a new line, and a tab must not stand in front of one. A mark of the byte
order at the start of a line takes the place of a space. -/
def skipGap (isFlow inComment keyAllowed : Bool) (column : Nat) :
    List Char → Bool × Nat × List Char
  | [] => (keyAllowed, column, [])
  | c :: cs =>
    if isBreak c then skipGap isFlow false (keyAllowed || !isFlow) 0 cs
    else if inComment || c == ' ' || (c == '\t' && (isFlow || !keyAllowed))
        || (c == '\ufeff' && column == 0) then
      skipGap isFlow inComment keyAllowed (column + 1) cs
    else if c = '#' then skipGap isFlow true keyAllowed (column + 1) cs
    else (keyAllowed, column, c :: cs)

/-- The layout behind white space and comments. -/
def skip (l : YamlLayout) : YamlLayout :=
  let (keyAllowed, column, rest) := skipGap l.isFlow false l.keyAllowed l.column l.rest
  { l with keyAllowed, column, rest }

/-! ### Block collections -/

/-- The ends of the block collections whose margins are greater than the given one. -/
def closeTo (margin : Nat) (l : YamlLayout) : List YamlToken × YamlLayout :=
  if l.isFlow then ([], l)
  else
    (List.replicate (l.margins.takeWhile (margin < ·)).length .blockEnd,
      { l with margins := l.margins.dropWhile (margin < ·) })

/-- The ends of the block collections that the column of the place is not part of. -/
def dedent (l : YamlLayout) : List YamlToken × YamlLayout :=
  l.closeTo (l.column + 1)

/-- The start of a block collection, unless one is open at the column of the place. -/
def openAt (start : YamlToken) (l : YamlLayout) : List YamlToken × YamlLayout :=
  if !l.isFlow && l.margin ≤ l.column then
    ([start], { l with margins := (l.column + 1) :: l.margins })
  else
    ([], l)

/-! ### Tokens -/

/-- An item or a key with a mark of its own, or the colon in front of a value that has no such
key. -/
def readIndicator? (l : YamlLayout) (token : YamlToken) (cs : List Char) :
    Option (List YamlToken × YamlLayout) :=
  if l.isFlow then
    some ([token], l.past 1 cs (token == .entry))
  else if l.keyAllowed then
    let (starts, l) := l.openAt (if token = .entry then .sequenceStart else .mappingStart)
    some (starts ++ [token], l.past 1 cs true)
  else
    none

/-- A directive or the mark of the start or of the end of a document, which close everything. -/
def readMarker? (l : YamlLayout) (c : Char) (cs : List Char) :
    Option (List YamlToken × YamlLayout) :=
  let (ends, l) := l.closeTo 0
  if c = '%' then
    (YamlToken.readDirective? cs).map fun (token, rest) =>
      (ends ++ [token], { l with column := 0, rest, keyAllowed := false })
  else
    let token := if c = '-' then .documentStart else .documentEnd
    some (ends ++ [token], l.past 3 (cs.drop 2) false)

/-- A bracket or a comma. -/
def readFlowMark? (l : YamlLayout) (c : Char) (cs : List Char) :
    Option (List YamlToken × YamlLayout) :=
  let opening (token : YamlToken) :=
    if l.keyRequired then none
    else some ([token], { l.past 1 cs true with flowDepth := l.flowDepth + 1 })
  let closing (token : YamlToken) :=
    some ([token], { l.past 1 cs false with flowDepth := l.flowDepth - 1 })
  match c with
  | '[' => opening .sequenceOpen
  | '{' => opening .mappingOpen
  | ']' => closing .sequenceClose
  | '}' => closing .mappingClose
  | _ => some ([.comma], l.past 1 cs true)

/-- The mark in front of a key if one starts here. -/
def announceKey? (l : YamlLayout) : Option (List YamlToken × YamlLayout) :=
  if l.keyAllowed && YamlLexeme.startsKey l.isFlow l.margin l.column l.rest then
    let (starts, l) := l.openAt .mappingStart
    some (starts ++ [.key], { l with keyPending := true })
  else if l.keyRequired then none
  else some ([], l)

/-- A scalar that is not a block, a reference or a property of a node. -/
def readLexeme? (l : YamlLayout) (c : Char) (cs : List Char) :
    Option (List YamlToken × YamlLayout) := do
  let x ← YamlLexeme.read? l.isFlow l.margin l.column c cs
  let (tokens, l) ← l.announceKey?
  return (tokens ++ [x.token],
    { l with column := x.column, rest := x.rest, keyAllowed := x.atNewLine })

/-- The tokens at the place, where the character `c` starts the text. -/
def read? (l : YamlLayout) (c : Char) (cs : List Char) : Option (List YamlToken × YamlLayout) :=
  if l.column = 0 ∧ (c = '%' ∨ startsMarker (c :: cs)) then l.readMarker? c cs
  else if isFlowMark c then l.readFlowMark? c cs
  else if c = '-' ∧ atGap cs then l.readIndicator? .entry cs
  else if c = '?' ∧ (l.isFlow ∨ atGap cs) then l.readIndicator? .key cs
  else if c = ':' ∧ (l.isFlow ∨ atGap cs) then
    if l.keyPending then some ([.value], { l.past 1 cs false with keyPending := false })
    else l.readIndicator? .value cs
  else if (c = '|' ∨ c = '>') ∧ !l.isFlow then
    (readBlock? (c == '>') l.margin cs).map fun (text, rest) =>
      ([.scalar (if c = '>' then .folded else .literal) (String.ofList text)],
        { l with column := 0, rest, keyAllowed := true })
  else l.readLexeme? c cs

theorem skipGap_length (isFlow inComment keyAllowed : Bool) (column : Nat) (s : List Char) :
    (skipGap isFlow inComment keyAllowed column s).2.2.length ≤ s.length := by
  induction s generalizing inComment keyAllowed column with
  | nil => simp [skipGap]
  | cons c cs ih =>
    unfold skipGap
    split
    · exact Nat.le_succ_of_le (ih ..)
    · split
      · exact Nat.le_succ_of_le (ih ..)
      · split
        · exact Nat.le_succ_of_le (ih ..)
        · simp

theorem skip_length (l : YamlLayout) : l.skip.rest.length ≤ l.rest.length :=
  skipGap_length ..

theorem readIndicator?_length {l m : YamlLayout} {token : YamlToken} {cs : List Char}
    {ts : List YamlToken} (h : l.readIndicator? token cs = some (ts, m)) :
    m.rest.length ≤ cs.length := by
  unfold readIndicator? at h
  split at h
  · obtain ⟨-, rfl⟩ : _ ∧ _ = m := by simpa using h
    simp [past]
  · split at h
    · obtain ⟨-, rfl⟩ : _ ∧ _ = m := by simpa using h
      simp [past]
    · simp at h

theorem readMarker?_length {l m : YamlLayout} {c : Char} {cs : List Char} {ts : List YamlToken}
    (h : l.readMarker? c cs = some (ts, m)) : m.rest.length ≤ cs.length := by
  unfold readMarker? at h
  simp only at h
  split at h
  · obtain ⟨⟨token, rest⟩, ht, heq⟩ := Option.map_eq_some_iff.1 h
    obtain ⟨-, rfl⟩ : _ ∧ _ = m := by simpa using heq
    exact YamlToken.readDirective?_length ht
  · obtain ⟨-, rfl⟩ : _ ∧ _ = m := by simpa using h
    simp [past]

theorem readFlowMark?_length {l m : YamlLayout} {c : Char} {cs : List Char} {ts : List YamlToken}
    (h : l.readFlowMark? c cs = some (ts, m)) : m.rest.length ≤ cs.length := by
  unfold readFlowMark? at h
  simp only at h
  split at h
  all_goals first
    | (split at h
       · simp at h
       · obtain ⟨-, rfl⟩ : _ ∧ _ = m := by simpa using h
         simp [past])
    | (obtain ⟨-, rfl⟩ : _ ∧ _ = m := by simpa using h
       simp [past])

theorem readLexeme?_length {l m : YamlLayout} {c : Char} {cs : List Char} {ts : List YamlToken}
    (h : l.readLexeme? c cs = some (ts, m)) : m.rest.length ≤ cs.length := by
  unfold readLexeme? at h
  obtain ⟨x, hx, h⟩ := Option.bind_eq_some_iff.1 h
  obtain ⟨⟨tokens, l1⟩, -, h⟩ := Option.bind_eq_some_iff.1 h
  obtain ⟨-, rfl⟩ : _ ∧ _ = m := by simpa using h
  exact YamlLexeme.read?_length hx

theorem read?_length {l m : YamlLayout} {c : Char} {cs : List Char} {ts : List YamlToken}
    (h : l.read? c cs = some (ts, m)) : m.rest.length < (c :: cs).length := by
  refine Nat.lt_succ_of_le ?_
  unfold read? at h
  split at h
  · exact readMarker?_length h
  · split at h
    · exact readFlowMark?_length h
    · split at h
      · exact readIndicator?_length h
      · split at h
        · exact readIndicator?_length h
        · split at h
          · split at h
            · obtain ⟨-, rfl⟩ : _ ∧ _ = m := by simpa using h
              simp [past]
            · exact readIndicator?_length h
          · split at h
            · obtain ⟨⟨text, rest⟩, ht, heq⟩ := Option.map_eq_some_iff.1 h
              obtain ⟨-, rfl⟩ : _ ∧ _ = m := by simpa using heq
              exact readBlock?_length ht
            · exact readLexeme?_length h

/-- The tokens from a place on. The end of the text closes everything, the document too. -/
def tokens? (l : YamlLayout) : Option (List YamlToken) :=
  match _start : l.skip.rest with
  | [] => some ((l.skip.closeTo 0).1 ++ [.documentEnd])
  | c :: cs =>
    match _read : l.skip.dedent.2.read? c cs with
    | none => none
    | some (tokens, next) => next.tokens?.map ((l.skip.dedent.1 ++ tokens) ++ ·)
termination_by l.rest.length
decreasing_by
  have h1 := read?_length _read
  have h2 := l.skip_length
  rw [_start] at h2
  omega

end YamlLayout

end TypeAtlas
