import TypeAtlas.Text.Hex
import TypeAtlas.Yaml.Character

/-!
# Reading plain and quoted scalars

A scalar may run over several lines. White space within a line is part of it; white space with a
line break in it is folded: one break becomes a space, and of several all but the first are kept.

## Main definitions

* `YamlGap`, `YamlGap.fold` — white space inside a scalar, and the text that it stands for.
* `YamlExtent` — a scalar that has been read, and the place behind it.
* `YamlExtent.plain?`, `YamlExtent.singleQuoted?`, `YamlExtent.doubleQuoted?` — the scalar at the
  start of a text.
-/

namespace TypeAtlas

open Yaml

/-! ## Folding -/

/-- White space inside a scalar. -/
inductive YamlGap where
  /-- White space within a line. -/
  | blanks (chars : List Char)
  /-- White space with line breaks; the first one is missing if it is escaped. -/
  | breaks (first : Option Char) (others : List Char)
  deriving DecidableEq, Repr

namespace YamlGap

/-- No white space. -/
def none : YamlGap := .blanks []

def isEmpty : YamlGap → Bool
  | .blanks [] => true
  | _ => false

/-- Whether there is a line break. -/
def hasBreak : YamlGap → Bool
  | .blanks _ => false
  | .breaks .. => true

/-- The gap with one more character. -/
def push : YamlGap → Char → YamlGap
  | .blanks cs, c => if isBreak c then .breaks (some c) [] else .blanks (cs ++ [c])
  | .breaks first others, c => .breaks first (if isBreak c then others ++ [c] else others)

/-- The text that a gap stands for. -/
def fold : YamlGap → List Char
  | .blanks cs => cs
  | .breaks (some '\n') [] => [' ']
  | .breaks (some '\n') others => others
  | .breaks first others => first.toList ++ others

@[simp] theorem fold_none : none.fold = [] := rfl

end YamlGap

/-! ## Extents -/

/-- A scalar that has been read, and the place behind it. -/
structure YamlExtent where
  text : List Char
  /-- The column of the place behind it. -/
  column : Nat
  /-- The text behind it. -/
  rest : List Char
  /-- Whether there is a line break in it or in the white space that was skipped behind it. -/
  spansLines : Bool
  /-- Whether only white space lies between the place behind it and the start of a line. -/
  atNewLine : Bool
  deriving DecidableEq, Repr

namespace YamlExtent

/-- The extent with a gap and then some text in front of it. -/
def prepend (gap : YamlGap) (text : List Char) (e : YamlExtent) : YamlExtent :=
  { e with text := gap.fold ++ text ++ e.text, spansLines := gap.hasBreak || e.spansLines }

/-- The column behind a character. -/
def columnAfter (column : Nat) (c : Char) : Nat :=
  if isBreak c then 0 else column + 1

/-! ### Plain scalars -/

/-- Whether a plain scalar ends before the character `c`, to which the gap leads. -/
def endsPlain (isFlow : Bool) (margin : Nat) (gap : YamlGap) (column : Nat) (c : Char)
    (cs : List Char) : Bool :=
  (!gap.isEmpty && ((!isFlow && column < margin) || c == '#'))
    || (column == 0 && startsMarker (c :: cs))
    || (c == ':' && atGap cs)
    || (isFlow && isFlowMark c)

/-- Whether a colon is followed by a mark of a flow collection, which is refused inside of one. -/
def isLostColon (c : Char) (cs : List Char) : Bool :=
  c == ':' && cs.head?.any fun d => d == '?' || isFlowMark d

/-- The rest of a plain scalar, behind the gap. Outside of flow collections each of its lines starts
at the margin or behind it. -/
def plainRest? (isFlow : Bool) (margin : Nat) (gap : YamlGap) (column : Nat) :
    List Char → Option YamlExtent
  | [] =>
    some { text := [], column, rest := [], spansLines := gap.hasBreak, atNewLine := gap.hasBreak }
  | c :: cs =>
    if isGap c then
      if c = '\t' ∧ gap.hasBreak ∧ column < margin then none
      else plainRest? isFlow margin (gap.push c) (columnAfter column c) cs
    else if endsPlain isFlow margin gap column c cs then
      some
        { text := [], column, rest := c :: cs, spansLines := gap.hasBreak
          atNewLine := gap.hasBreak }
    else if isFlow && isLostColon c cs then
      none
    else
      (plainRest? isFlow margin .none (column + 1) cs).map (prepend gap [c])

/-- The plain scalar that starts with the character `c`. -/
def plain? (isFlow : Bool) (margin column : Nat) (c : Char) (cs : List Char) : Option YamlExtent :=
  (plainRest? isFlow margin .none (column + 1) cs).map (prepend .none [c])

/-! ### Quoted scalars -/

/-- A quoted scalar that ends behind the gap. -/
def close (gap : YamlGap) (column : Nat) (rest : List Char) : YamlExtent where
  text := gap.fold
  column
  rest
  spansLines := gap.hasBreak
  atNewLine := false

/-- The rest of a scalar in single quotes, behind the gap. Two quotes stand for one. -/
def singleQuoted? (gap : YamlGap) (column : Nat) : List Char → Option YamlExtent
  | [] => none
  | '\x27' :: '\x27' :: cs =>
    (singleQuoted? .none (column + 2) cs).map (prepend gap ['\x27'])
  | '\x27' :: cs => some (close gap (column + 1) cs)
  | c :: cs =>
    if isGap c then
      singleQuoted? (gap.push c) (columnAfter column c) cs
    else if column = 0 ∧ startsMarker (c :: cs) then
      none
    else
      (singleQuoted? .none (column + 1) cs).map (prepend gap [c])

/-- The character that a letter stands for behind a backslash. -/
def escaped? : Char → Option Char
  | '0' => some '\x00'
  | 'a' => some '\x07'
  | 'b' => some '\x08'
  | 't' => some '\t'
  | '\t' => some '\t'
  | 'n' => some '\n'
  | 'v' => some '\x0b'
  | 'f' => some '\x0c'
  | 'r' => some '\r'
  | 'e' => some '\x1b'
  | ' ' => some ' '
  | '"' => some '"'
  | '/' => some '/'
  | '\\' => some '\\'
  | 'N' => some '\u0085'
  | '_' => some '\u00a0'
  | 'L' => some '\u2028'
  | 'P' => some '\u2029'
  | _ => none

/-- The number of hexadecimal digits behind a backslash and the letter. -/
def escapeWidth? : Char → Option Nat
  | 'x' => some 2
  | 'u' => some 4
  | 'U' => some 8
  | _ => none

/-- The character whose number is written with the hexadecimal digits. -/
def numbered? (digits : List Char) : Option Char := do
  let n ← digits.foldlM (fun n c => (Text.hexValue? c).map (n * 16 + ·)) 0
  if n < 0xd800 || (0xdfff < n && n ≤ 0x10ffff) then some (Char.ofNat n) else none

/-- The character that is written behind a backslash, the number of characters that this takes, and
the text behind them. -/
def readEscape? (c : Char) (cs : List Char) : Option (Char × Nat × List Char) :=
  match escaped? c with
  | some d => some (d, 1, cs)
  | none => do
    let width ← escapeWidth? c
    if cs.length < width then none
    else return (← numbered? (cs.take width), width + 1, cs.drop width)

theorem readEscape?_length {c d : Char} {cs r : List Char} {n : Nat}
    (h : readEscape? c cs = some (d, n, r)) : r.length ≤ cs.length := by
  unfold readEscape? at h
  split at h
  · obtain ⟨-, -, rfl⟩ : _ ∧ _ ∧ cs = r := by simpa using h
    exact Nat.le_refl _
  · obtain ⟨width, -, h⟩ := Option.bind_eq_some_iff.1 h
    split at h
    · simp at h
    · obtain ⟨e, -, h⟩ := Option.bind_eq_some_iff.1 h
      obtain ⟨-, -, rfl⟩ : _ ∧ _ ∧ cs.drop width = r := by simpa using h
      simp

/-- The rest of a scalar in double quotes, behind the gap. A line break behind a backslash stands
for nothing. -/
def doubleQuoted? (gap : YamlGap) (column : Nat) (s : List Char) : Option YamlExtent :=
  match s with
  | [] => none
  | '"' :: cs => some (close gap (column + 1) cs)
  | ['\\'] => none
  | '\\' :: c :: cs =>
    if isBreak c then
      (doubleQuoted? (.breaks none []) 0 cs).map (prepend gap [])
    else
      match _escape : readEscape? c cs with
      | none => none
      | some (d, width, rest) =>
        (doubleQuoted? .none (column + 1 + width) rest).map (prepend gap [d])
  | c :: cs =>
    if isGap c then
      doubleQuoted? (gap.push c) (columnAfter column c) cs
    else if column = 0 ∧ startsMarker (c :: cs) then
      none
    else
      (doubleQuoted? .none (column + 1) cs).map (prepend gap [c])
termination_by s.length
decreasing_by
  all_goals simp only [List.length_cons]
  all_goals first
    | omega
    | exact Nat.lt_succ_of_lt (Nat.lt_succ_of_le (readEscape?_length _escape))

/-! ### Nothing is read twice -/

@[simp] theorem prepend_rest (gap : YamlGap) (text : List Char) (e : YamlExtent) :
    (e.prepend gap text).rest = e.rest := rfl

theorem length_of_map_prepend {o : Option YamlExtent} {gap : YamlGap} {text : List Char}
    {e : YamlExtent} {n : Nat} (h : o.map (prepend gap text) = some e)
    (ho : ∀ d, o = some d → d.rest.length ≤ n) : e.rest.length ≤ n := by
  obtain ⟨d, hd, rfl⟩ := Option.map_eq_some_iff.1 h
  simpa using ho d hd

theorem plainRest?_length {isFlow : Bool} {margin column : Nat} {gap : YamlGap} {s : List Char}
    {e : YamlExtent} (h : plainRest? isFlow margin gap column s = some e) :
    e.rest.length ≤ s.length := by
  induction s generalizing gap column e with
  | nil =>
    simp only [plainRest?, Option.some.injEq] at h
    subst h
    simp
  | cons c cs ih =>
    unfold plainRest? at h
    split at h
    · split at h
      · simp at h
      · exact Nat.le_succ_of_le (ih h)
    · split at h
      · simp only [Option.some.injEq] at h
        subst h
        simp
      · split at h
        · simp at h
        · exact Nat.le_succ_of_le (length_of_map_prepend h fun d hd => ih hd)

theorem plain?_length {isFlow : Bool} {margin column : Nat} {c : Char} {cs : List Char}
    {e : YamlExtent} (h : plain? isFlow margin column c cs = some e) :
    e.rest.length ≤ cs.length :=
  length_of_map_prepend h fun _ hd => plainRest?_length hd

theorem singleQuoted?_length {gap : YamlGap} {column : Nat} {s : List Char} {e : YamlExtent}
    (h : singleQuoted? gap column s = some e) : e.rest.length ≤ s.length := by
  fun_induction singleQuoted? gap column s generalizing e with
  | case1 => simp at h
  | case2 gap column cs ih =>
    have := length_of_map_prepend h fun d hd => ih hd
    simp only [List.length_cons]
    omega
  | case3 gap column cs =>
    simp only [Option.some.injEq] at h
    subst h
    simp [close]
  | case4 gap column c cs _ _ _ ih => exact Nat.le_succ_of_le (ih h)
  | case5 => simp at h
  | case6 gap column c cs _ _ _ _ ih =>
    exact Nat.le_succ_of_le (length_of_map_prepend h fun d hd => ih hd)

theorem doubleQuoted?_length {gap : YamlGap} {column : Nat} {s : List Char} {e : YamlExtent}
    (h : doubleQuoted? gap column s = some e) : e.rest.length ≤ s.length := by
  fun_induction doubleQuoted? gap column s generalizing e with
  | case1 => simp at h
  | case2 gap column cs =>
    simp only [Option.some.injEq] at h
    subst h
    simp [close]
  | case3 => simp at h
  | case4 gap column c cs _ ih =>
    have := length_of_map_prepend h fun d hd => ih hd
    simp only [List.length_cons]
    omega
  | case5 => simp at h
  | case6 gap column c cs _ d width rest hc ih =>
    have := length_of_map_prepend h fun d hd => ih hd
    have := readEscape?_length hc
    simp only [List.length_cons]
    omega
  | case7 gap column c cs _ _ _ _ ih => exact Nat.le_succ_of_le (ih h)
  | case8 => simp at h
  | case9 gap column c cs _ _ _ _ _ ih =>
    exact Nat.le_succ_of_le (length_of_map_prepend h fun d hd => ih hd)

end YamlExtent

end TypeAtlas
