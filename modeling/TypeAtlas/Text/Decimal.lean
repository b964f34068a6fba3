/-!
# Decimal numbers

## Main definitions

* `digitsValue` — the number that decimal digits write.
* `isOutOfRange` — whether a decimal number is too great for a binary number of double precision.
-/

namespace TypeAtlas.Text

/-- The number that a list of decimal digits writes. -/
def digitsValue (digits : List Char) : Nat :=
  digits.foldl (fun n c => n * 10 + (c.toNat - '0'.toNat)) 0

/-- Whether `mantissa * 10 ^ exponent` lies beyond every finite binary number of double
precision. -/
def isOutOfRange (mantissa : Nat) (exponent : Int) : Bool :=
  let digits : Int := (Nat.toDigits 10 mantissa).length
  if mantissa = 0 then false
  else if digits + exponent ≤ 300 then false
  else if 320 < digits + exponent then true
  else
    let value :=
      if exponent < 0 then mantissa / Nat.pow 10 (-exponent).toNat
      else mantissa * Nat.pow 10 exponent.toNat
    Nat.pow 2 1024 - Nat.pow 2 970 ≤ value

end TypeAtlas.Text
