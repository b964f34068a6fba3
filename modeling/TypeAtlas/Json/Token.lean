import TypeAtlas.Json.Basic
import TypeAtlas.Text.Decimal
import TypeAtlas.Text.Hex
import TypeAtlas.Text.Search

/-!
# JSON tokens

The lexical level of JSON: punctuation, literals, numbers and strings.

## Main definitions

* `JsonToken`, `JsonToken.ofText?` — a token, and the tokens of a text.
* `JsonToken.readString?`, `JsonToken.readNumber?` — the two tokens of unbounded length.
-/

namespace TypeAtlas

/-- A token; a scalar is a token with its value. -/
inductive JsonToken where
  | openBrace | closeBrace | openBracket | closeBracket | comma | colon
  | scalar (value : Json)
  deriving Repr

namespace JsonToken

/-! ## Strings -/

/-- The value of four hexadecimal digits. -/
def hexUnit? (a b c d : Char) : Option Nat := do
  let high := (← Text.hexValue? a) * 16 + (← Text.hexValue? b)
  let low := (← Text.hexValue? c) * 16 + (← Text.hexValue? d)
  return high * 256 + low

/-- The character that a letter stands for behind a backslash. -/
def escaped? : Char → Option Char
  | '"' => some '"'
  | '\\' => some '\\'
  | '/' => some '/'
  | 'b' => some '\x08'
  | 'f' => some '\x0c'
  | 'n' => some '\n'
  | 'r' => some '\r'
  | 't' => some '\t'
  | _ => none

/-- The character that one or two written code units stand for, and the text behind them. A unit of
a pair alone stands for nothing. -/
def readUnits? (unit : Nat) (rest : List Char) : Option (Char × List Char) :=
  if unit < 0xd800 || 0xdfff < unit then some (Char.ofNat unit, rest)
  else if unit < 0xdc00 then
    match rest with
    | '\\' :: 'u' :: a :: b :: c :: d :: rest => do
      let low ← hexUnit? a b c d
      if 0xdc00 ≤ low && low ≤ 0xdfff then
        some (Char.ofNat (0x10000 + (unit - 0xd800) * 0x400 + (low - 0xdc00)), rest)
      else
        none
    | _ => none
  else
    none

/-- The first character of the inside of a string, and the text behind it. -/
def readChar? : List Char → Option (Char × List Char)
  | '\\' :: 'u' :: a :: b :: c :: d :: rest => do readUnits? (← hexUnit? a b c d) rest
  | '\\' :: c :: rest => (escaped? c).map (·, rest)
  | c :: rest => if c < ' ' || c = '\\' then none else some (c, rest)
  | [] => none

theorem readUnits?_suffix {unit : Nat} {s r : List Char} {c : Char}
    (h : readUnits? unit s = some (c, r)) : r <:+ s := by
  unfold readUnits? at h
  split at h
  · obtain ⟨-, rfl⟩ : _ ∧ s = r := by simpa using h
    exact List.suffix_refl _
  · split at h
    · split at h
      · next a b d e rest =>
        obtain ⟨low, -, hr⟩ := Option.bind_eq_some_iff.1 h
        split at hr
        · obtain ⟨-, rfl⟩ : _ ∧ rest = r := by simpa using hr
          exact ⟨['\\', 'u', a, b, d, e], rfl⟩
        · simp at hr
      · simp at h
    · simp at h

theorem readChar?_length {s r : List Char} {c : Char} (h : readChar? s = some (c, r)) :
    r.length < s.length := by
  unfold readChar? at h
  split at h
  · obtain ⟨unit, -, hr⟩ := Option.bind_eq_some_iff.1 h
    have := (readUnits?_suffix hr).length_le
    simp only [List.length_cons]
    omega
  · obtain ⟨d, -, hd⟩ := Option.map_eq_some_iff.1 h
    obtain ⟨-, rfl⟩ : _ ∧ _ = r := by simpa using hd
    simp only [List.length_cons]
    omega
  · split at h
    · simp at h
    · obtain ⟨-, rfl⟩ : _ ∧ _ = r := by simpa using h
      simp
  · simp at h

/-- The characters of a string up to its closing quote, and the text behind the quote. -/
def readString? (s : List Char) : Option (List Char × List Char) :=
  if s.head? = some '"' then some ([], s.tail)
  else
    match _read : readChar? s with
    | none => none
    | some (c, rest) => (readString? rest).map fun (cs, rest) => (c :: cs, rest)
termination_by s.length
decreasing_by exact readChar?_length _read

theorem readString?_length {s cs r : List Char} (h : readString? s = some (cs, r)) :
    r.length < s.length := by
  fun_induction readString? s generalizing cs with
  | case1 s hs =>
    obtain ⟨-, rfl⟩ : _ ∧ s.tail = r := by simpa using h
    cases s <;> simp_all
  | case2 => simp at h
  | case3 s hs c rest hc ih =>
    obtain ⟨⟨ds, t⟩, hd, heq⟩ := Option.map_eq_some_iff.1 h
    obtain ⟨-, rfl⟩ : _ ∧ t = r := by simpa using heq
    have := readChar?_length hc
    have := ih hd
    omega

/-! ## Numbers -/

/-- The number with the given parts: the digits before and behind the point, and the exponent. -/
def numberOf? (negative : Bool) (whole : List Char) (fraction : Option (List Char))
    (exponent : Option Int) : Option JsonNumber :=
  let n := Text.digitsValue whole
  let decimal (mantissa : Nat) (exponent : Int) : Option JsonNumber :=
    if Text.isOutOfRange mantissa exponent then none else some (.decimal negative mantissa exponent)
  match fraction, exponent with
  | none, none =>
    if negative then
      if n ≠ 0 ∧ n ≤ UInt64.size / 2 then some (.integer (-n)) else decimal n 0
    else
      if n < UInt64.size then some (.integer n) else decimal n 0
  | _, _ =>
    let fraction := fraction.getD []
    decimal (Text.digitsValue (whole ++ fraction)) (exponent.getD 0 - fraction.length)

/-- The digits at the start of a text, at least one, and the text behind them. -/
def readDigits? (s : List Char) : Option (List Char × List Char) :=
  if (s.takeWhile Char.isDigit).isEmpty then none
  else some (s.takeWhile Char.isDigit, s.dropWhile Char.isDigit)

/-- The digits before the point, without a leading zero, and the text behind them. -/
def readWhole? : List Char → Option (List Char × List Char)
  | '0' :: rest => some (['0'], rest)
  | s => readDigits? s

/-- A point with the digits behind it, if the text starts with one, and the text behind them. -/
def readFraction? : List Char → Option (Option (List Char) × List Char)
  | '.' :: rest => (readDigits? rest).map fun (digits, rest) => (some digits, rest)
  | s => some (none, s)

/-- An exponent, if the text starts with one, and the text behind it. -/
def readExponent? (s : List Char) : Option (Option Int × List Char) :=
  match s with
  | c :: rest =>
    if c = 'e' ∨ c = 'E' then
      match rest with
      | '-' :: rest =>
        (readDigits? rest).map fun (digits, rest) => (some (-(Text.digitsValue digits : Int)), rest)
      | '+' :: rest =>
        (readDigits? rest).map fun (digits, rest) => (some (Text.digitsValue digits : Int), rest)
      | rest =>
        (readDigits? rest).map fun (digits, rest) => (some (Text.digitsValue digits : Int), rest)
    else
      some (none, s)
  | [] => some (none, [])

/-- The sign at the start of a text, and the text behind it. -/
def readSign : List Char → Bool × List Char
  | '-' :: rest => (true, rest)
  | s => (false, s)

/-- The number at the start of a text, and the text behind it. -/
def readNumber? (s : List Char) : Option (JsonNumber × List Char) := do
  let sign := readSign s
  let (whole, rest) ← readWhole? sign.2
  let (fraction, rest) ← readFraction? rest
  let (exponent, rest) ← readExponent? rest
  return (← numberOf? sign.1 whole fraction exponent, rest)

theorem readDigits?_length {s d r : List Char} (h : readDigits? s = some (d, r)) :
    r.length < s.length := by
  unfold readDigits? at h
  split at h
  · simp at h
  · next hne =>
    obtain ⟨rfl, rfl⟩ : _ = d ∧ _ = r := by simpa using h
    have h1 := congrArg List.length (List.takeWhile_append_dropWhile (p := Char.isDigit) (l := s))
    have h2 : s.takeWhile Char.isDigit ≠ [] := by simpa using hne
    have h3 := List.length_pos_iff.2 h2
    simp only [List.length_append] at h1
    omega

theorem readWhole?_length {s d r : List Char} (h : readWhole? s = some (d, r)) :
    r.length < s.length := by
  unfold readWhole? at h
  split at h
  · obtain ⟨-, rfl⟩ : _ ∧ _ = r := by simpa using h
    simp
  · exact readDigits?_length h

theorem readFraction?_length {s r : List Char} {d : Option (List Char)}
    (h : readFraction? s = some (d, r)) : r.length ≤ s.length := by
  unfold readFraction? at h
  split at h
  · obtain ⟨⟨e, t⟩, he, heq⟩ := Option.map_eq_some_iff.1 h
    obtain ⟨-, rfl⟩ : _ ∧ t = r := by simpa using heq
    have := readDigits?_length he
    simp only [List.length_cons]
    omega
  · obtain ⟨-, rfl⟩ : _ ∧ _ = r := by simpa using h
    exact Nat.le_refl _

theorem readExponent?_length {s r : List Char} {e : Option Int}
    (h : readExponent? s = some (e, r)) : r.length ≤ s.length := by
  unfold readExponent? at h
  split at h
  · split at h
    · split at h <;>
      · obtain ⟨⟨d, t⟩, hd, heq⟩ := Option.map_eq_some_iff.1 h
        obtain ⟨-, rfl⟩ : _ ∧ t = r := by simpa using heq
        have := readDigits?_length hd
        simp only [List.length_cons]
        omega
    · obtain ⟨-, rfl⟩ : _ ∧ _ = r := by simpa using h
      exact Nat.le_refl _
  · obtain ⟨-, rfl⟩ : none = e ∧ [] = r := by simpa using h
    exact Nat.le_refl _

theorem readSign_length_le (s : List Char) : (readSign s).2.length ≤ s.length := by
  unfold readSign
  split <;> simp

theorem readNumber?_length {s r : List Char} {n : JsonNumber} (h : readNumber? s = some (n, r)) :
    r.length < s.length := by
  unfold readNumber? at h
  obtain ⟨⟨whole, r1⟩, h1, h⟩ := Option.bind_eq_some_iff.1 h
  obtain ⟨⟨fraction, r2⟩, h2, h⟩ := Option.bind_eq_some_iff.1 h
  obtain ⟨⟨exponent, r3⟩, h3, h⟩ := Option.bind_eq_some_iff.1 h
  obtain ⟨m, -, h⟩ := Option.bind_eq_some_iff.1 h
  obtain ⟨-, rfl⟩ : _ ∧ r3 = r := by simpa using h
  have := readSign_length_le s
  have := readWhole?_length h1
  have := readFraction?_length h2
  have := readExponent?_length h3
  omega

/-! ## Tokens -/

/-- A character that may stand between tokens. -/
def isSpace (c : Char) : Bool :=
  c == ' ' || c == '\n' || c == '\t' || c == '\r'

/-- The punctuation tokens. -/
def punctuation? : Char → Option JsonToken
  | '{' => some .openBrace
  | '}' => some .closeBrace
  | '[' => some .openBracket
  | ']' => some .closeBracket
  | ',' => some .comma
  | ':' => some .colon
  | _ => none

/-- The words that are values. -/
def literals : List (List Char × Json) :=
  [("null".toList, .null), ("true".toList, .bool true), ("false".toList, .bool false)]

/-- The literal at the start of a text, and the text behind it. -/
def readLiteral? (s : List Char) : Option (Json × List Char) :=
  literals.findSome? fun (word, value) => (Text.behind? word s).map (value, ·)

/-- The token that starts with the character `c`, and the text behind it. -/
def read? (c : Char) (cs : List Char) : Option (JsonToken × List Char) :=
  match punctuation? c with
  | some token => some (token, cs)
  | none =>
    if c = '"' then
      (readString? cs).map fun (text, rest) => (.scalar (.string (String.ofList text)), rest)
    else if c = '-' || c.isDigit then
      (readNumber? (c :: cs)).map fun (n, rest) => (.scalar (.number n), rest)
    else
      (readLiteral? (c :: cs)).map fun (value, rest) => (.scalar value, rest)

theorem readLiteral?_length {s r : List Char} {v : Json} (h : readLiteral? s = some (v, r)) :
    r.length < s.length := by
  obtain ⟨⟨word, value⟩, hmem, hword⟩ := List.exists_of_findSome?_eq_some h
  obtain ⟨t, ht, heq⟩ := Option.map_eq_some_iff.1 hword
  obtain ⟨-, rfl⟩ : _ ∧ t = r := by simpa using heq
  have hpos : 0 < word.length := by
    have : ∀ p ∈ literals, 0 < p.1.length := by decide
    exact this _ hmem
  have hlen := congrArg List.length (Text.behind?_eq_some_iff.1 ht)
  rw [List.length_append] at hlen
  omega

theorem read?_length {c : Char} {cs r : List Char} {t : JsonToken} (h : read? c cs = some (t, r)) :
    r.length < (c :: cs).length := by
  unfold read? at h
  split at h
  · obtain ⟨-, rfl⟩ : _ ∧ cs = r := by simpa using h
    simp
  · split at h
    · obtain ⟨⟨text, rest⟩, hs, heq⟩ := Option.map_eq_some_iff.1 h
      obtain ⟨-, rfl⟩ : _ ∧ rest = r := by simpa using heq
      have := readString?_length hs
      simp only [List.length_cons]
      omega
    · split at h
      · obtain ⟨⟨n, rest⟩, hn, heq⟩ := Option.map_eq_some_iff.1 h
        obtain ⟨-, rfl⟩ : _ ∧ rest = r := by simpa using heq
        exact readNumber?_length hn
      · obtain ⟨⟨v, rest⟩, hv, heq⟩ := Option.map_eq_some_iff.1 h
        obtain ⟨-, rfl⟩ : _ ∧ rest = r := by simpa using heq
        exact readLiteral?_length hv

/-- The tokens of a text. -/
def ofText? (s : List Char) : Option (List JsonToken) :=
  match _start : s.dropWhile isSpace with
  | [] => some []
  | c :: cs =>
    match _read : read? c cs with
    | none => none
    | some (token, rest) => (ofText? rest).map (token :: ·)
termination_by s.length
decreasing_by
  have h1 := read?_length _read
  have h2 := (List.dropWhile_suffix isSpace (l := s)).length_le
  rw [_start] at h2
  omega

end JsonToken

end TypeAtlas
