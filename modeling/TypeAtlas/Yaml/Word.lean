import TypeAtlas.Text.Decimal
import TypeAtlas.Text.Hex

/-!
# Words that stand for values

A plain scalar can be read as a null, a truth value or a number. A text that could be taken for one
of them is written between quotes.

## Main definitions

* `isNull`, `bool?`, `natural?` — the values of words.
* `isInteger`, `isFloat` — the words that are numbers.
* `isAmbiguous` — the texts that need quotes.
-/

namespace TypeAtlas.Yaml

/-- Whether the text is a word for a missing value. -/
def isNull (text : String) : Bool :=
  ["~", "null", "Null", "NULL"].contains text

/-- The truth value that a word stands for. -/
def bool? (text : String) : Option Bool :=
  if ["true", "True", "TRUE"].contains text then some true
  else if ["false", "False", "FALSE"].contains text then some false
  else none

/-! ## Integers -/

/-- The digit with a value below the base. -/
def digitIn? (base : Nat) (c : Char) : Option Nat :=
  (Text.hexValue? c).filter (· < base)

/-- The number that is written with digits of the base. -/
def numeral? (base : Nat) (digits : List Char) : Option Nat :=
  if digits.isEmpty then none
  else digits.foldlM (fun n c => (digitIn? base c).map (n * base + ·)) 0

/-- Whether the text has several decimal digits of which the first one is a zero. -/
def hasLeadingZero (s : List Char) : Bool :=
  1 < s.length && s.head? == some '0' && s.all Char.isDigit

/-- The number without a sign that a text writes, in base ten or with the mark of another base. -/
def unsigned? (s : List Char) : Option Nat :=
  match s with
  | '0' :: 'x' :: digits => numeral? 16 digits
  | '0' :: 'o' :: digits => numeral? 8 digits
  | '0' :: 'b' :: digits => numeral? 2 digits
  | s => if hasLeadingZero s then none else numeral? 10 s

/-- The natural number that a word stands for. -/
def natural? (text : String) : Option Nat :=
  match text.toList with
  | '+' :: s => unsigned? s
  | s => unsigned? s

/-- Whether a word is an integer of 128 bits, with a sign or without one. -/
def isInteger (text : String) : Bool :=
  match text.toList with
  | '-' :: s => (unsigned? s).any (· ≤ Nat.pow 2 127)
  | _ => (natural? text).any (· < Nat.pow 2 128)

/-! ## Other numbers -/

/-- The text without its sign. -/
def dropSign : List Char → List Char
  | '+' :: s => s
  | '-' :: s => s
  | s => s

/-- The exponent that a text consists of, where an empty one is zero. -/
def exponent? (s : List Char) : Option Int :=
  match s with
  | [] => some 0
  | c :: s =>
    if c = 'e' ∨ c = 'E' then
      (numeral? 10 (dropSign s)).map fun n => if s.head? = some '-' then -n else n
    else
      none

/-- Whether a text without a sign is a decimal number with a finite value: digits with at most one
point among them, and an exponent. -/
def isDecimal (s : List Char) : Bool :=
  let whole := s.takeWhile Char.isDigit
  let rest := s.dropWhile Char.isDigit
  let afterPoint := if rest.head? = some '.' then rest.tail else []
  let fraction := afterPoint.takeWhile Char.isDigit
  let rest := if rest.head? = some '.' then afterPoint.dropWhile Char.isDigit else rest
  !(whole ++ fraction).isEmpty
    && (exponent? rest).any fun e =>
      !Text.isOutOfRange (Text.digitsValue (whole ++ fraction)) (e - fraction.length)

/-- Whether a word is a number with a point or an exponent, infinite or no number at all. -/
def isFloat (text : String) : Bool :=
  let s := text.toList
  [".inf", ".Inf", ".INF"].any (·.toList == dropSign s) || [".nan", ".NaN", ".NAN"].contains text
    || (!hasLeadingZero (dropSign s) && isDecimal (dropSign s))

/-- Whether a text could be taken for something else than a text. -/
def isAmbiguous (text : String) : Bool :=
  text == "" || isNull text || (bool? text).isSome
    || isInteger text || isFloat text || hasLeadingZero (dropSign text.toList)

end TypeAtlas.Yaml
