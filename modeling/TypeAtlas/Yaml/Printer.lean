import TypeAtlas.Yaml.Layout
import TypeAtlas.Yaml.Word

/-!
# Writing YAML

Every item and every key has a line of its own. The items of a sequence stand in the column of the
key whose value they are, and the keys of a mapping two columns behind it. An empty collection is
written with brackets. A text with line feeds is written line by line, as a block two columns behind
the key or the dash in front of it.

## Main definitions

* `YamlScalar.ofText` — the scalar that is written for a text: without quotes if that leaves no
  doubt, and as a block if there are line feeds in it.
* `YamlScalar.chars` — the written form of a scalar.
* `Yaml.print` — the written form of a document.
-/

namespace TypeAtlas

namespace YamlScalar

open Yaml

/-! ## Styles -/

/-- Whether a colon or a hash sign ends a plain scalar within the text. -/
def hasIndicator (afterGap : Bool) : List Char → Bool
  | [] => false
  | c :: cs => (c == ':' && atGap cs) || (c == '#' && afterGap) || hasIndicator (isGap c) cs

/-- Whether all characters can be written as they are on one line. -/
def isOneLine (s : List Char) : Bool :=
  s.all fun c => isPrintable c && !isBreak c

/-- Whether the text can be written without quotes. -/
def isPlain (s : List Char) : Bool :=
  match s with
  | [] => false
  | c :: cs =>
    isOneLine s && YamlLexeme.startsPlain false c cs && !hasIndicator false s
      && s.getLast? != some ' ' && !(["---".toList, "...".toList].contains (s.take 3))

/-- Whether a space stands at the end of a line. -/
def hasTrailingSpace : List Char → Bool
  | [] => false
  | c :: cs => (c == ' ' && cs.head?.all (· == '\n')) || hasTrailingSpace cs

/-- Whether the text can be written as a block: line by line, all other characters as they are. -/
def isBlock (s : List Char) : Bool :=
  s.all (fun c => c == '\n' || (isPrintable c && !isBreak c)) && !hasTrailingSpace s

/-- The style in which a text is written. -/
def styleOf (text : String) : ScalarStyle :=
  if isOneLine text.toList then
    if isPlain text.toList && !isAmbiguous text then .plain else .singleQuoted
  else if isBlock text.toList then .literal
  else .doubleQuoted

/-- The scalar that is written for a text. -/
def ofText (text : String) : YamlScalar where
  style := styleOf text
  text

/-! ## Written forms -/

/-- The letter that is written behind a backslash for a character. -/
def escapeLetter? (c : Char) : Option Char :=
  match c with
  | '\x00' => some '0'
  | '\x07' => some 'a'
  | '\x08' => some 'b'
  | '\t' => some 't'
  | '\n' => some 'n'
  | '\x0b' => some 'v'
  | '\x0c' => some 'f'
  | '\r' => some 'r'
  | '\x1b' => some 'e'
  | '"' => some '"'
  | '\\' => some '\\'
  | '\u0085' => some 'N'
  | '\u00a0' => some '_'
  | '\u2028' => some 'L'
  | '\u2029' => some 'P'
  | _ => none

/-- The digit for a value below sixteen. -/
def hexDigit (n : Nat) : Char :=
  if n < 10 then Char.ofNat ('0'.toNat + n) else Char.ofNat ('A'.toNat + (n - 10))

/-- The last digits of a number, in base sixteen. -/
def hexDigits : Nat → Nat → List Char
  | 0, _ => []
  | width + 1, n => hexDigits width (n / 16) ++ [hexDigit (n % 16)]

/-- The number of a character behind a backslash. -/
def numberChars (c : Char) : List Char :=
  if c.toNat ≤ 0xff then 'x' :: hexDigits 2 c.toNat
  else if c.toNat ≤ 0xffff then 'u' :: hexDigits 4 c.toNat
  else 'U' :: hexDigits 8 c.toNat

/-- A character inside double quotes. -/
def escapeChar (c : Char) : List Char :=
  if isPrintable c && !isBreak c && c != '"' && c != '\\' then [c]
  else
    match escapeLetter? c with
    | some letter => ['\\', letter]
    | none => '\\' :: numberChars c

/-- A text between double quotes. -/
def doubleQuoted (s : List Char) : List Char :=
  '"' :: s.flatMap escapeChar ++ ['"']

/-- A text between single quotes, each of which is doubled inside. -/
def singleQuoted (s : List Char) : List Char :=
  '\x27' :: s.flatMap (fun c => if c = '\x27' then [c, c] else [c]) ++ ['\x27']

/-- What the head of a block says of a text: how deep it is, where the first line does not show it,
and what becomes of the line feeds at its end. -/
def blockHead (s : List Char) : BlockHead where
  ending :=
    if s.getLast? ≠ some '\n' then .strip
    else if s = ['\n'] ∨ s.dropLast.getLast? = some '\n' then .keep
    else .clip
  depth := if s.head? = some ' ' ∨ s.head? = some '\n' then some 2 else none

/-- The written form of the head of a block. -/
def headChars (head : BlockHead) : List Char :=
  head.depth.toList.map Nat.digitChar ++
    match head.ending with
    | .clip => []
    | .strip => ['-']
    | .keep => ['+']

/-- The text without the line feed at its end. -/
def dropLastBreak (s : List Char) : List Char :=
  if s.getLast? = some '\n' then s.dropLast else s

/-- A text as a block with the indentation. The end of its last line is left to what follows. -/
def literal (indent : Nat) (s : List Char) : List Char :=
  '|' :: (headChars (blockHead s) ++ '\n' ::
    YamlLine.toText ((YamlLine.ofText (dropLastBreak s)).map (·.indented indent)))

/-- The written form of a scalar whose lines behind the first have the indentation; one that was
read from a folded block is written between double quotes. -/
def chars (indent : Nat) (scalar : YamlScalar) : List Char :=
  match scalar.style with
  | .plain => scalar.text.toList
  | .singleQuoted => singleQuoted scalar.text.toList
  | .literal => literal indent scalar.text.toList
  | .doubleQuoted | .folded => doubleQuoted scalar.text.toList

end YamlScalar

namespace Yaml

/-! ## Documents -/

/-- A new line that is indented. -/
def newLine (indent : Nat) : List Char :=
  '\n' :: List.replicate indent ' '

mutual

/-- A node whose lines have the indentation, the first of which has begun already. -/
def nodeChars (indent : Nat) (v : Yaml) : List Char :=
  match v with
  | .scalar s => s.chars indent
  | .sequence [] => ['[', ']']
  | .sequence (v :: vs) => '-' :: ' ' :: (nodeChars (indent + 2) v ++ itemChars indent vs)
  | .mapping [] => ['{', '}']
  | .mapping ((key, v) :: rest) =>
    key.chars indent ++ ':' :: (valueChars indent v ++ entryChars indent rest)

/-- The items behind the first one. -/
def itemChars (indent : Nat) (vs : List Yaml) : List Char :=
  match vs with
  | [] => []
  | v :: vs =>
    newLine indent ++ '-' :: ' ' :: (nodeChars (indent + 2) v ++ itemChars indent vs)

/-- The entries behind the first one. -/
def entryChars (indent : Nat) (entries : List (YamlScalar × Yaml)) : List Char :=
  match entries with
  | [] => []
  | (key, v) :: rest =>
    newLine indent
      ++ (key.chars indent ++ ':' :: (valueChars indent v ++ entryChars indent rest))

/-- The value of a key whose line has the indentation. -/
def valueChars (indent : Nat) (v : Yaml) : List Char :=
  match v with
  | .scalar s => ' ' :: s.chars (indent + 2)
  | .sequence [] => [' ', '[', ']']
  | .sequence (v :: vs) =>
    newLine indent ++ '-' :: ' ' :: (nodeChars (indent + 2) v ++ itemChars indent vs)
  | .mapping [] => [' ', '{', '}']
  | .mapping ((key, v) :: rest) =>
    newLine (indent + 2)
      ++ (key.chars (indent + 2)
        ++ ':' :: (valueChars (indent + 2) v ++ entryChars (indent + 2) rest))

end

/-- A document written with one item or key a line. -/
def print (root : Yaml) : String :=
  String.ofList (nodeChars 0 root ++ ['\n'])

end Yaml

end TypeAtlas
