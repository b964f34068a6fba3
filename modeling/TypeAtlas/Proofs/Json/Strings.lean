import Mathlib.Data.List.Basic
import Mathlib.Tactic.SplitIfs
import TypeAtlas.Json.Printer
import TypeAtlas.Json.Parser

/-!
# Written strings and numbers

A text between quotes is read back, whatever characters it has, and so are the digits of a natural
number of 64 bits.

The main statements are `JsonToken.readString?_escaped` and `JsonToken.readNumber?_natChars`.
-/

namespace TypeAtlas.JsonToken

open Json (escapeChar hexDigit natChars)

variable {rest : List Char}

/-! ## Strings -/

/-- The code unit of a control character. -/
theorem hexUnit?_hexDigit {n : Nat} (h : n < 32) :
    hexUnit? '0' '0' (hexDigit (n / 16)) (hexDigit (n % 16)) = some n := by
  have hall : ∀ n < 32, hexUnit? '0' '0' (hexDigit (n / 16)) (hexDigit (n % 16)) = some n := by
    decide
  exact hall n h

theorem readUnits?_of_lt {unit : Nat} (h : unit < 0xd800) :
    readUnits? unit rest = some (Char.ofNat unit, rest) := by
  simp [readUnits?, h]

/-- A control character is read back from its number. -/
theorem readChar?_unit {c : Char} (h : c < ' ') :
    readChar? ('\\' :: 'u' :: '0' :: '0' :: hexDigit (c.toNat / 16) :: hexDigit (c.toNat % 16)
      :: rest) = some (c, rest) := by
  have hlt : c.toNat < 32 := h
  simp only [readChar?, hexUnit?_hexDigit hlt, Option.bind_eq_bind, Option.bind_some]
  rw [readUnits?_of_lt (by omega), Char.ofNat_toNat]

/-- A character that needs no backslash is read back. -/
theorem readChar?_bare {c : Char} (hslash : c ≠ '\\') (hcontrol : ¬c < ' ') :
    readChar? (c :: rest) = some (c, rest) := by
  unfold readChar?
  split <;> simp_all

theorem readChar?_escapeChar (c : Char) (rest : List Char) :
    readChar? (escapeChar c ++ rest) = some (c, rest) := by
  unfold escapeChar
  split_ifs with hquote hslash hfeed hreturn htab hback hform hcontrol
  iterate 7
    · subst c
      rfl
  · exact readChar?_unit hcontrol
  · exact readChar?_bare hslash hcontrol

theorem head?_escapeChar (c : Char) (rest : List Char) :
    (escapeChar c ++ rest).head? ≠ some '"' := by
  unfold escapeChar
  split_ifs <;> simp_all

/-- A text between quotes is read back. -/
theorem readString?_escaped (s rest : List Char) :
    readString? (s.flatMap escapeChar ++ '"' :: rest) = some (s, rest) := by
  induction s with
  | nil => rw [readString?]; rfl
  | cons c s ih =>
    rw [List.flatMap_cons, List.append_assoc, readString?,
      if_neg (head?_escapeChar c _)]
    split
    · next h => simp [readChar?_escapeChar] at h
    · next d r h =>
      obtain ⟨rfl, rfl⟩ : c = d ∧ _ = r := by simpa [readChar?_escapeChar] using h
      rw [ih, Option.map_some]

/-! ## Numbers -/

theorem isDigit_of_mem_natChars {c : Char} {n : Nat} (h : c ∈ natChars n) : c.isDigit :=
  Nat.isDigit_of_mem_toDigits (by decide) (by decide) h

theorem natChars_ne_nil (n : Nat) : natChars n ≠ [] :=
  Nat.toDigits_ne_nil

theorem digitsValue_natChars (n : Nat) : Text.digitsValue (natChars n) = n := by
  have hvalue : Nat.ofDigitChars 10 (natChars n) 0 = n := Nat.ofDigitChars_ten_toDigits
  rw [Nat.ofDigitChars_eq_foldl] at hvalue
  simpa only [Text.digitsValue, Nat.mul_comm] using hvalue

/-- Only zero is written with a zero in front. -/
theorem head?_natChars {n : Nat} (h : n ≠ 0) : (natChars n).head? ≠ some '0' := by
  induction n using Nat.strongRecOn with
  | ind n ih =>
    unfold natChars at ih ⊢
    by_cases hlt : n < 10
    · have hall : ∀ n < 10, n ≠ 0 → [n.digitChar].head? ≠ some '0' := by decide
      rw [Nat.toDigits_of_lt_base hlt]
      exact hall n hlt h
    · rw [Nat.toDigits_of_base_le (by decide) (by omega), List.head?_append_of_ne_nil]
      · exact ih (n / 10) (by omega) (by omega)
      · exact Nat.toDigits_ne_nil

/-- A text that does not go on with a number. -/
def EndsNumber (rest : List Char) : Prop :=
  ∀ c ∈ rest.head?, c = ',' ∨ c = '\n'

theorem takeWhile_natChars (n : Nat) (hrest : EndsNumber rest) :
    (natChars n ++ rest).takeWhile Char.isDigit = natChars n := by
  rw [List.takeWhile_append_of_pos fun c hc => isDigit_of_mem_natChars hc]
  cases rest with
  | nil => simp
  | cons c rest => obtain rfl | rfl := hrest c rfl <;> simp

theorem dropWhile_natChars (n : Nat) (hrest : EndsNumber rest) :
    (natChars n ++ rest).dropWhile Char.isDigit = rest := by
  rw [List.dropWhile_append_of_pos fun c hc => isDigit_of_mem_natChars hc]
  cases rest with
  | nil => simp
  | cons c rest => obtain rfl | rfl := hrest c rfl <;> simp

theorem readWhole?_natChars (n : Nat) (hrest : EndsNumber rest) :
    readWhole? (natChars n ++ rest) = some (natChars n, rest) := by
  have hne := natChars_ne_nil n
  unfold readWhole?
  split
  · next r heq =>
    -- a zero in front is the whole number
    have hhead := congrArg List.head? heq
    rw [List.head?_append_of_ne_nil _ hne, List.head?_cons] at hhead
    obtain rfl : n = 0 := by_contra fun h => head?_natChars h hhead
    have hzero : natChars 0 = ['0'] := rfl
    rw [hzero] at heq ⊢
    simp_all
  · rw [readDigits?, takeWhile_natChars n hrest, dropWhile_natChars n hrest]
    simp [hne]

theorem readSign_natChars (n : Nat) :
    readSign (natChars n ++ rest) = (false, natChars n ++ rest) := by
  unfold readSign
  split
  · next r heq =>
    cases hn : natChars n with
    | nil => exact absurd hn (natChars_ne_nil n)
    | cons c cs =>
      have hdigit : c.isDigit := isDigit_of_mem_natChars (hn ▸ List.mem_cons_self)
      simp_all
  · rfl

theorem readFraction?_of_ends (h : EndsNumber rest) : readFraction? rest = some (none, rest) := by
  unfold readFraction?
  split
  · next r => exact absurd (h '.' rfl) (by decide)
  · rfl

theorem readExponent?_of_ends (h : EndsNumber rest) : readExponent? rest = some (none, rest) := by
  unfold readExponent?
  cases rest with
  | nil => rfl
  | cons c rest => obtain rfl | rfl := h c rfl <;> rfl

/-- The digits of a natural number of 64 bits are read back. -/
theorem readNumber?_natChars {n : Nat} (h : n < UInt64.size) (hrest : EndsNumber rest) :
    readNumber? (natChars n ++ rest) = some (.integer n, rest) := by
  simp [readNumber?, readSign_natChars, readWhole?_natChars n hrest, readFraction?_of_ends hrest,
    readExponent?_of_ends hrest, numberOf?, digitsValue_natChars, h]

end TypeAtlas.JsonToken
