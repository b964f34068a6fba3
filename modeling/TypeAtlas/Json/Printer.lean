import TypeAtlas.Json.Basic

/-!
# Writing JSON

The written form of a value, on one line or with one item or member a line.

## Main definitions

* `Json.compact` — the form without any space.
* `Json.pretty` — the form with an indentation of two spaces a level.
-/

namespace TypeAtlas.Json

/-! ## Scalars -/

/-- The digit for a value below sixteen. -/
def hexDigit (n : Nat) : Char :=
  if n < 10 then Char.ofNat ('0'.toNat + n) else Char.ofNat ('a'.toNat + (n - 10))

/-- A character inside a string: quotes, backslashes and control characters are escaped. -/
def escapeChar (c : Char) : List Char :=
  if c = '"' then ['\\', '"']
  else if c = '\\' then ['\\', '\\']
  else if c = '\n' then ['\\', 'n']
  else if c = '\r' then ['\\', 'r']
  else if c = '\t' then ['\\', 't']
  else if c = '\x08' then ['\\', 'b']
  else if c = '\x0c' then ['\\', 'f']
  else if c < ' ' then ['\\', 'u', '0', '0', hexDigit (c.toNat / 16), hexDigit (c.toNat % 16)]
  else [c]

/-- A string between quotes. -/
def quote (text : String) : List Char :=
  '"' :: text.toList.flatMap escapeChar ++ ['"']

/-- The digits of a natural number. -/
def natChars (n : Nat) : List Char :=
  Nat.toDigits 10 n

/-- The digits of an integer. -/
def intChars : Int → List Char
  | .ofNat n => natChars n
  | .negSucc n => '-' :: natChars (n + 1)

/-- A number. -/
def numberChars : JsonNumber → List Char
  | .integer n => intChars n
  | .decimal negative mantissa exponent =>
    (if negative then ['-'] else []) ++ natChars mantissa ++ 'e' :: intChars exponent

/-! ## One line -/

mutual

/-- A value without any space. -/
def compactChars (v : Json) : List Char :=
  match v with
  | .null => "null".toList
  | .bool true => "true".toList
  | .bool false => "false".toList
  | .number n => numberChars n
  | .string text => quote text
  | .array [] => ['[', ']']
  | .array (v :: vs) => '[' :: (compactChars v ++ compactItems vs)
  | .object [] => ['{', '}']
  | .object ((name, v) :: rest) =>
    '{' :: (quote name ++ ':' :: (compactChars v ++ compactMembers rest))

/-- The items behind the first one, and the end of their array. -/
def compactItems (vs : List Json) : List Char :=
  match vs with
  | [] => [']']
  | v :: vs => ',' :: (compactChars v ++ compactItems vs)

/-- The members behind the first one, and the end of their object. -/
def compactMembers (members : List (String × Json)) : List Char :=
  match members with
  | [] => ['}']
  | (name, v) :: rest => ',' :: (quote name ++ ':' :: (compactChars v ++ compactMembers rest))

end

/-- A value written without any space. -/
def compact (v : Json) : String :=
  String.ofList (compactChars v)

/-! ## One item a line -/

/-- A new line at an indentation level. -/
def newLine (level : Nat) : List Char :=
  '\n' :: List.replicate (2 * level) ' '

mutual

/-- A value at an indentation level. -/
def prettyChars (level : Nat) (v : Json) : List Char :=
  match v with
  | .array (v :: vs) =>
    '[' :: (newLine (level + 1) ++ (prettyChars (level + 1) v ++ prettyItems level vs))
  | .object ((name, v) :: rest) =>
    '{' :: (newLine (level + 1) ++ (quote name ++ ':' :: ' ' ::
      (prettyChars (level + 1) v ++ prettyMembers level rest)))
  | v => compactChars v

/-- The items behind the first one, and the end of their array. -/
def prettyItems (level : Nat) (vs : List Json) : List Char :=
  match vs with
  | [] => newLine level ++ [']']
  | v :: vs =>
    ',' :: (newLine (level + 1) ++ (prettyChars (level + 1) v ++ prettyItems level vs))

/-- The members behind the first one, and the end of their object. -/
def prettyMembers (level : Nat) (members : List (String × Json)) : List Char :=
  match members with
  | [] => newLine level ++ ['}']
  | (name, v) :: rest =>
    ',' :: (newLine (level + 1) ++ (quote name ++ ':' :: ' ' ::
      (prettyChars (level + 1) v ++ prettyMembers level rest)))

end

/-- A value written with one item or member a line. -/
def pretty (v : Json) : String :=
  String.ofList (prettyChars 0 v)

end TypeAtlas.Json
