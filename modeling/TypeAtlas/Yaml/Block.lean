import TypeAtlas.Yaml.Line

/-!
# Reading block scalars

A block scalar is written on lines of its own, all of them indented. A head says whether their line
breaks are kept or folded, what becomes of the breaks at the end, and how deep the indentation is;
if it does not say how deep, the first line that is not blank does.

## Main definitions

* `BlockHead`, `BlockHead.ofText?` — the head of a block scalar.
* `BlockBody.ofLines?` — the lines of a block scalar, and the lines behind it.
* `readBlock?` — a block scalar, and the text behind it.
-/

namespace TypeAtlas

open Yaml

/-! ## Heads -/

/-- What becomes of the line breaks at the end of a block scalar. -/
inductive BlockEnding where
  /-- Only the first one is kept. -/
  | clip
  /-- None is kept. -/
  | strip
  /-- All are kept. -/
  | keep
  deriving DecidableEq, Repr

/-- The head of a block scalar. -/
structure BlockHead where
  ending : BlockEnding
  /-- How much deeper than its surroundings the scalar is, if the head says so. -/
  depth : Option Nat
  deriving DecidableEq, Repr

namespace BlockHead

/-- The sign for the line breaks at the end, if the text starts with one, and the text behind it. -/
def readEnding : List Char → Option BlockEnding × List Char
  | '-' :: cs => (some .strip, cs)
  | '+' :: cs => (some .keep, cs)
  | cs => (none, cs)

/-- The digit for the depth, if the text starts with one, and the text behind it. -/
def readDepth : List Char → Option Nat × List Char
  | c :: cs => if c.isDigit then (some (c.toNat - '0'.toNat), cs) else (none, c :: cs)
  | [] => (none, [])

/-- The head at the start of a text, and the lines behind it. -/
def ofText? (s : List Char) : Option (BlockHead × List Char) := do
  let (before, s) := readEnding s
  let (depth, s) := readDepth s
  let (behind, s) := if before.isNone && depth.isSome then readEnding s else (none, s)
  if depth = some 0 then none
  else return ({ ending := (before.or behind).getD .clip, depth }, ← endLine? s)

theorem readEnding_length (s : List Char) : (readEnding s).2.length ≤ s.length := by
  unfold readEnding
  split <;> simp

theorem readDepth_length (s : List Char) : (readDepth s).2.length ≤ s.length := by
  unfold readDepth
  split
  · split <;> simp
  · simp

theorem ofText?_length {s r : List Char} {head : BlockHead} (h : ofText? s = some (head, r)) :
    r.length ≤ s.length := by
  unfold ofText? at h
  have h1 := readEnding_length s
  have h2 := readDepth_length (readEnding s).2
  have h3 := readEnding_length (readDepth (readEnding s).2).2
  simp only at h
  split at h
  · simp at h
  · obtain ⟨t, ht, h⟩ := Option.bind_eq_some_iff.1 h
    obtain ⟨-, rfl⟩ : _ ∧ t = r := by simpa using h
    have h4 := endLine?_length ht
    split at h4
    · omega
    · simp only at h4
      omega

end BlockHead

/-! ## Bodies -/

/-- The lines of a block scalar, joined, and what is behind them. -/
structure BlockBody where
  text : List Char
  /-- The end of the last line. -/
  lastBreak : Option Char
  /-- The ends of the blank lines behind it. -/
  moreBreaks : List Char
  /-- The lines behind the scalar. -/
  rest : List YamlLine
  deriving DecidableEq, Repr

namespace BlockBody

/-- What joins two lines of a scalar between which `last` and then `blanks` end lines. A folded
break becomes a space or gives way to the ends of blank lines, unless one of the lines starts with a
blank. -/
def joint (isFolded : Bool) (last : Option Char) (blanks : List Char) : List Char :=
  if isFolded && last == some '\n' then
    if blanks.isEmpty then [' '] else blanks
  else
    last.toList ++ blanks

/-- The lines at an indentation. The arguments in the middle tell how the lines before ended: the
end of the last one that is not blank, whether it starts with a blank, and the ends of those behind
it. -/
def ofLines? (isFolded : Bool) (indent : Nat) (last : Option Char) (afterBlank : Bool)
    (blanks : List Char) : List YamlLine → Option BlockBody
  | [] => some { text := [], lastBreak := last, moreBreaks := blanks, rest := [] }
  | line :: lines =>
    match line.text.drop (min indent line.indentation) with
    | [] =>
      match line.ending with
      | some b => ofLines? isFolded indent last afterBlank (blanks ++ [b]) lines
      | none => some { text := [], lastBreak := last, moreBreaks := blanks, rest := [] }
    | c :: cs =>
      if line.indentation < indent then
        if c = '\t' then none
        else some { text := [], lastBreak := last, moreBreaks := blanks, rest := line :: lines }
      else
        (ofLines? isFolded indent line.ending (isBlank c) [] lines).map fun body =>
          { body with
            text := joint (isFolded && !afterBlank && !isBlank c) last blanks ++ c :: cs
              ++ body.text }

/-- The indentation that the lines show: that of the first one that is not blank, or that of a
deeper blank one before it. A tab must not follow the indentation. -/
def deepest? : List YamlLine → Option Nat
  | [] => some 0
  | line :: lines =>
    match line.text.drop line.indentation with
    | [] => (deepest? lines).map (max line.indentation)
    | c :: _ => if c = '\t' then none else some line.indentation

/-- The indentation of a scalar whose surroundings have the margin. -/
def indent? (margin : Nat) (depth : Option Nat) (lines : List YamlLine) : Option Nat :=
  match depth with
  | some n => some (margin - 1 + n)
  | none => (deepest? lines).map fun n => max 1 (max margin n)

/-- The text of the scalar with the line breaks that are kept at its end. -/
def textWith (ending : BlockEnding) (body : BlockBody) : List Char :=
  match ending with
  | .strip => body.text
  | .clip => body.text ++ body.lastBreak.toList
  | .keep => body.text ++ body.lastBreak.toList ++ body.moreBreaks

theorem ofLines?_rest {isFolded afterBlank : Bool} {indent : Nat} {last : Option Char}
    {blanks : List Char} {lines : List YamlLine} {body : BlockBody}
    (h : ofLines? isFolded indent last afterBlank blanks lines = some body) :
    body.rest <:+ lines := by
  induction lines generalizing last afterBlank blanks body with
  | nil =>
    simp only [ofLines?, Option.some.injEq] at h
    subst h
    exact List.suffix_refl _
  | cons line lines ih =>
    unfold ofLines? at h
    split at h
    · split at h
      · exact (ih h).trans (List.suffix_cons ..)
      · simp only [Option.some.injEq] at h
        subst h
        exact List.nil_suffix
    · split at h
      · split at h
        · simp at h
        · simp only [Option.some.injEq] at h
          subst h
          exact List.suffix_refl _
      · obtain ⟨d, hd, rfl⟩ := Option.map_eq_some_iff.1 h
        exact (ih hd).trans (List.suffix_cons ..)

end BlockBody

/-- The block scalar whose head starts the text, and the text behind it, which starts a line. -/
def readBlock? (isFolded : Bool) (margin : Nat) (s : List Char) :
    Option (List Char × List Char) := do
  let (head, s) ← BlockHead.ofText? s
  let lines := YamlLine.ofText s
  let indent ← BlockBody.indent? margin head.depth lines
  let body ← BlockBody.ofLines? isFolded indent none false [] lines
  return (body.textWith head.ending, YamlLine.toText body.rest)

theorem readBlock?_length {isFolded : Bool} {margin : Nat} {s text r : List Char}
    (h : readBlock? isFolded margin s = some (text, r)) : r.length ≤ s.length := by
  unfold readBlock? at h
  obtain ⟨⟨head, t⟩, ht, h⟩ := Option.bind_eq_some_iff.1 h
  obtain ⟨indent, -, h⟩ := Option.bind_eq_some_iff.1 h
  obtain ⟨body, hbody, h⟩ := Option.bind_eq_some_iff.1 h
  obtain ⟨-, rfl⟩ : _ ∧ YamlLine.toText body.rest = r := by simpa using h
  obtain ⟨before, hb⟩ := BlockBody.ofLines?_rest hbody
  have h1 := BlockHead.ofText?_length ht
  have h2 := congrArg (fun l => (YamlLine.toText l).length) hb
  simp only [YamlLine.toText_ofText] at h2
  simp only [YamlLine.toText, List.flatMap_append, List.length_append] at h2 ⊢
  omega

end TypeAtlas
