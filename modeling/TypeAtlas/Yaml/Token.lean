import TypeAtlas.Text.Decimal
import TypeAtlas.Text.Percent
import TypeAtlas.Yaml.Basic
import TypeAtlas.Yaml.Line

/-!
# YAML tokens

The tokens of a text, with the starts and ends of block collections that are written as indentation.

## Main definitions

* `YamlToken` — a token.
* `YamlToken.readName?`, `YamlToken.readTag?` — the properties of a node.
* `YamlToken.readDirective?` — a line in front of a document.
-/

namespace TypeAtlas

open Yaml

/-- A token. -/
inductive YamlToken where
  /-- The start of a block sequence. -/
  | sequenceStart
  /-- The start of a block mapping. -/
  | mappingStart
  /-- The end of a block collection. -/
  | blockEnd
  /-- A dash in front of an item. -/
  | entry
  /-- A key follows. -/
  | key
  /-- The colon in front of a value. -/
  | value
  | sequenceOpen | sequenceClose | mappingOpen | mappingClose | comma
  /-- The name that the next node gets. -/
  | anchor (name : String)
  /-- A node that has been named before. -/
  | reference (name : String)
  /-- The type of the next node: the handle stands for a text in front of the rest. -/
  | tag (handle : String) (rest : String)
  | scalar (style : ScalarStyle) (text : String)
  | documentStart | documentEnd
  /-- The version of YAML. -/
  | version (major : Nat) (minor : Nat)
  /-- What a handle stands for. -/
  | tagHandle (handle : String) (expansion : String)
  deriving DecidableEq, Repr

namespace YamlToken

/-! ## Properties of nodes -/

/-- Whether the name of an anchor may end before the text. -/
def endsName : List Char → Bool
  | [] => true
  | c :: _ => isGap c || ['?', ':', ',', ']', '}', '%', '@', '\x60'].contains c

/-- The name of an anchor, and the text behind it. -/
def readName? (s : List Char) : Option (List Char × List Char) :=
  let name := s.takeWhile isNameChar
  let rest := s.dropWhile isNameChar
  if !name.isEmpty && endsName rest then some (name, rest) else none

/-- A character of the name of a type. -/
def isTagChar (c : Char) : Bool :=
  isNameChar c || ";/?:@&=+$.!~*'()".toList.contains c

/-- A character of the name of a type that is written in full. -/
def isFullTagChar (c : Char) : Bool :=
  isTagChar c || c == ',' || c == '[' || c == ']'

/-- The name that a text is, up to the first null character. -/
def nameOf (text : List Char) : String :=
  String.ofList (text.takeWhile (· != '\x00'))

/-- The type behind an exclamation mark, whatever the text behind it. -/
def readTagName? (s : List Char) : Option (YamlToken × List Char) :=
  match s with
  | '<' :: s =>
    match Text.percentText? isFullTagChar s with
    | some (c :: name, '>' :: rest) => some (.tag "" (nameOf (c :: name)), rest)
    | _ => none
  | s =>
    let first := s.takeWhile isNameChar
    match s.dropWhile isNameChar with
    | '!' :: s =>
      match Text.percentText? isTagChar s with
      | some (c :: name, rest) =>
        some (.tag ("!" ++ String.ofList first ++ "!") (nameOf (c :: name)), rest)
      | _ => none
    | s =>
      (Text.percentText? isTagChar s).map fun (name, rest) =>
        let name := nameOf (first ++ name)
        (if name == "" then .tag "" "!" else .tag "!" name, rest)

/-- The type behind an exclamation mark, and the text behind it. -/
def readTag? (isFlow : Bool) (s : List Char) : Option (YamlToken × List Char) :=
  (readTagName? s).filter fun (_, rest) => atGap rest || (isFlow && rest.head? == some ',')

/-! ## Directives -/

/-- A number of at most nine digits, and the text behind it. -/
def readNumber? (s : List Char) : Option (Nat × List Char) :=
  let digits := s.takeWhile Char.isDigit
  if 0 < digits.length ∧ digits.length ≤ 9 then
    some (Text.digitsValue digits, s.dropWhile Char.isDigit)
  else
    none

/-- Two numbers with a point between them, and the text behind them. -/
def readVersion? (s : List Char) : Option (YamlToken × List Char) := do
  let (major, s) ← readNumber? s
  match s with
  | '.' :: s =>
    let (minor, s) ← readNumber? s
    return (.version major minor, s)
  | _ => none

/-- Whether a text can stand for the start of the names of types. -/
def isHandle (s : List Char) : Bool :=
  s == ['!'] ||
    (2 ≤ s.length && s.head? == some '!' && s.getLast? == some '!'
      && (s.drop 1).dropLast.all isNameChar)

/-- A handle and what it stands for, and the text behind them. -/
def readHandle? (s : List Char) : Option (YamlToken × List Char) := do
  let handle := s.takeWhile (!isGap ·)
  let (name, rest) ← Text.percentText? isFullTagChar ((s.dropWhile (!isGap ·)).dropWhile isBlank)
  if isHandle handle && !name.isEmpty && atGap rest then
    return (.tagHandle (String.ofList handle) (nameOf name), rest)
  else
    none

/-- The arguments of the directive with the given name, and the text behind them. -/
def readArguments? (name s : List Char) : Option (YamlToken × List Char) :=
  if name = "YAML".toList then readVersion? s
  else if name = "TAG".toList then readHandle? s
  else none

/-- The directive behind a percent sign, and the text behind its line. -/
def readDirective? (s : List Char) : Option (YamlToken × List Char) := do
  let rest := s.dropWhile isNameChar
  guard (atGap rest)
  let (token, rest) ← readArguments? (s.takeWhile isNameChar) (rest.dropWhile isBlank)
  return (token, ← endLine? rest)

/-! ## Nothing is read twice -/

theorem dropWhile_length (p : Char → Bool) (s : List Char) : (s.dropWhile p).length ≤ s.length :=
  (List.dropWhile_suffix p).length_le

theorem readName?_length {s name r : List Char} (h : readName? s = some (name, r)) :
    r.length ≤ s.length := by
  simp only [readName?] at h
  split at h
  · obtain ⟨-, rfl⟩ : _ ∧ s.dropWhile isNameChar = r := by simpa using h
    exact dropWhile_length ..
  · simp at h

theorem readTagName?_length {s r : List Char} {t : YamlToken} (h : readTagName? s = some (t, r)) :
    r.length ≤ s.length := by
  unfold readTagName? at h
  split at h
  · next s =>
    split at h
    · next c name rest heq =>
      have h1 := Text.percentText?_length heq
      obtain ⟨-, rfl⟩ : _ ∧ rest = r := by simpa using h
      simp only [List.length_cons] at h1 ⊢
      omega
    · simp at h
  · have h1 := dropWhile_length isNameChar s
    simp only at h
    split at h
    · next s1 heq =>
      rw [heq] at h1
      split at h
      · next c name rest heq =>
        have h2 := Text.percentText?_length heq
        obtain ⟨-, rfl⟩ : _ ∧ rest = r := by simpa using h
        simp only [List.length_cons] at h1
        omega
      · simp at h
    · obtain ⟨⟨name, rest⟩, h2, heq⟩ := Option.map_eq_some_iff.1 h
      obtain ⟨-, rfl⟩ : _ ∧ rest = r := by simpa using heq
      exact Nat.le_trans (Text.percentText?_length h2) h1

theorem readTag?_length {isFlow : Bool} {s r : List Char} {t : YamlToken}
    (h : readTag? isFlow s = some (t, r)) : r.length ≤ s.length :=
  readTagName?_length (Option.filter_eq_some_iff.1 h).1

theorem readNumber?_length {s r : List Char} {n : Nat} (h : readNumber? s = some (n, r)) :
    r.length ≤ s.length := by
  simp only [readNumber?] at h
  split at h
  · obtain ⟨-, rfl⟩ : _ ∧ s.dropWhile Char.isDigit = r := by simpa using h
    exact dropWhile_length ..
  · simp at h

theorem readVersion?_length {s r : List Char} {t : YamlToken} (h : readVersion? s = some (t, r)) :
    r.length ≤ s.length := by
  unfold readVersion? at h
  obtain ⟨⟨major, s1⟩, h1, h⟩ := Option.bind_eq_some_iff.1 h
  have := readNumber?_length h1
  simp only at h
  split at h
  · next s2 =>
    obtain ⟨⟨minor, s3⟩, h3, h⟩ := Option.bind_eq_some_iff.1 h
    obtain ⟨-, rfl⟩ : _ ∧ s3 = r := by simpa using h
    have := readNumber?_length h3
    simp only [List.length_cons] at *
    omega
  · simp at h

theorem readHandle?_length {s r : List Char} {t : YamlToken} (h : readHandle? s = some (t, r)) :
    r.length ≤ s.length := by
  obtain ⟨⟨name, rest⟩, hn, h⟩ := Option.bind_eq_some_iff.1 h
  have h1 := dropWhile_length (!isGap ·) s
  have h2 := dropWhile_length isBlank (s.dropWhile (!isGap ·))
  have h3 := Text.percentText?_length hn
  simp only at h
  split at h
  · obtain ⟨-, rfl⟩ : _ ∧ rest = r := by simpa using h
    omega
  · simp at h

theorem readArguments?_length {name s r : List Char} {t : YamlToken}
    (h : readArguments? name s = some (t, r)) : r.length ≤ s.length := by
  unfold readArguments? at h
  split at h
  · exact readVersion?_length h
  · split at h
    · exact readHandle?_length h
    · simp at h

theorem readDirective?_length {s r : List Char} {t : YamlToken}
    (h : readDirective? s = some (t, r)) : r.length ≤ s.length := by
  unfold readDirective? at h
  obtain ⟨-, -, h⟩ := Option.bind_eq_some_iff.1 h
  obtain ⟨⟨token, s1⟩, h1, h⟩ := Option.bind_eq_some_iff.1 h
  obtain ⟨s2, h2, h⟩ := Option.bind_eq_some_iff.1 h
  obtain ⟨-, rfl⟩ : _ ∧ s2 = r := by simpa using h
  have h3 := dropWhile_length isNameChar s
  have h4 := dropWhile_length isBlank (s.dropWhile isNameChar)
  have h5 := readArguments?_length h1
  have h6 := endLine?_length h2
  omega

end YamlToken

end TypeAtlas
