import TypeAtlas.Text.Hex

/-!
# Percent escapes

A character that must not stand in a text as it is can be written with a percent sign and two
hexadecimal digits for every octet of its UTF-8 form. The first octet says how many there are. The
replacement character stands for octets that look like a character but are none, such as those of a
surrogate.

## Main definitions

* `percentOctet?`, `percentChar?` — an escaped octet and an escaped character.
* `percentText?` — a text of characters of a class and of escapes.
-/

namespace TypeAtlas.Text

/-- The octet that is escaped at the start of a text, and the text behind it. -/
def percentOctet? : List Char → Option (Nat × List Char)
  | '%' :: high :: low :: s => do return (16 * (← hexValue? high) + (← hexValue? low), s)
  | _ => none

/-- The number of octets that follow the first octet of a character. -/
def octetsBehind? (first : Nat) : Option Nat :=
  if first < 0x80 then some 0
  else if first < 0xc0 then none
  else if first < 0xe0 then some 1
  else if first < 0xf0 then some 2
  else if first < 0xf8 then some 3
  else none

/-- Escaped octets that are not the first one of their character, and the text behind them. -/
def percentOctetsBehind? : Nat → List Char → Option (List Nat × List Char)
  | 0, s => some ([], s)
  | n + 1, s => do
    let (octet, s) ← percentOctet? s
    guard (0x80 ≤ octet ∧ octet < 0xc0)
    let (octets, s) ← percentOctetsBehind? n s
    return (octet :: octets, s)

/-- The character with the given octets. -/
def charOfOctets (octets : List Nat) : Char :=
  (ByteArray.utf8DecodeChar? ⟨(octets.map Nat.toUInt8).toArray⟩ 0).getD '\ufffd'

/-- The character that is escaped at the start of a text, and the text behind it. -/
def percentChar? (s : List Char) : Option (Char × List Char) := do
  let (first, s) ← percentOctet? s
  let (octets, s) ← percentOctetsBehind? (← octetsBehind? first) s
  return (charOfOctets (first :: octets), s)

theorem percentOctet?_length {s r : List Char} {n : Nat} (h : percentOctet? s = some (n, r)) :
    r.length < s.length := by
  unfold percentOctet? at h
  split at h
  · next high low s =>
    obtain ⟨a, -, h⟩ := Option.bind_eq_some_iff.1 h
    obtain ⟨b, -, h⟩ := Option.bind_eq_some_iff.1 h
    obtain ⟨-, rfl⟩ : _ ∧ s = r := by simpa using h
    simp only [List.length_cons]
    omega
  · simp at h

theorem percentOctetsBehind?_length {n : Nat} {s r : List Char} {octets : List Nat}
    (h : percentOctetsBehind? n s = some (octets, r)) : r.length ≤ s.length := by
  induction n generalizing s octets with
  | zero =>
    cases h
    exact Nat.le_refl _
  | succ n ih =>
    obtain ⟨⟨octet, s1⟩, h1, h⟩ := Option.bind_eq_some_iff.1 h
    obtain ⟨-, -, h⟩ := Option.bind_eq_some_iff.1 h
    obtain ⟨⟨octets, s2⟩, h2, h⟩ := Option.bind_eq_some_iff.1 h
    obtain ⟨-, rfl⟩ : _ ∧ s2 = r := by simpa using h
    exact Nat.le_trans (ih h2) (Nat.le_of_lt (percentOctet?_length h1))

theorem percentChar?_length {s r : List Char} {c : Char} (h : percentChar? s = some (c, r)) :
    r.length < s.length := by
  obtain ⟨⟨first, s1⟩, h1, h⟩ := Option.bind_eq_some_iff.1 h
  obtain ⟨n, -, h⟩ := Option.bind_eq_some_iff.1 h
  obtain ⟨⟨octets, s2⟩, h2, h⟩ := Option.bind_eq_some_iff.1 h
  obtain ⟨-, rfl⟩ : _ ∧ s2 = r := by simpa using h
  exact Nat.lt_of_le_of_lt (percentOctetsBehind?_length h2) (percentOctet?_length h1)

/-- The longest text of characters of the class and of escapes, with the escapes replaced by what
they stand for, and the text behind it. Every percent sign has to start an escape. -/
def percentText? (isMember : Char → Bool) (s : List Char) : Option (List Char × List Char) :=
  match s with
  | [] => some ([], [])
  | c :: cs =>
    if c = '%' then
      match _escape : percentChar? (c :: cs) with
      | none => none
      | some (x, rest) => (percentText? isMember rest).map fun (text, rest) => (x :: text, rest)
    else if isMember c then
      (percentText? isMember cs).map fun (text, rest) => (c :: text, rest)
    else
      some ([], c :: cs)
termination_by s.length
decreasing_by
  · exact percentChar?_length _escape
  · simp

theorem percentText?_length {isMember : Char → Bool} {s text r : List Char}
    (h : percentText? isMember s = some (text, r)) : r.length ≤ s.length := by
  fun_induction percentText? isMember s generalizing text with
  | case1 => simp_all
  | case2 => simp at h
  | case3 cs x rest escape ih =>
    obtain ⟨⟨t, u⟩, ht, heq⟩ := Option.map_eq_some_iff.1 h
    obtain ⟨-, rfl⟩ : _ ∧ u = r := by simpa using heq
    exact Nat.le_of_lt (Nat.lt_of_le_of_lt (ih ht) (percentChar?_length escape))
  | case4 c cs _ _ ih =>
    obtain ⟨⟨t, u⟩, ht, heq⟩ := Option.map_eq_some_iff.1 h
    obtain ⟨-, rfl⟩ : _ ∧ u = r := by simpa using heq
    exact Nat.le_succ_of_le (ih ht)
  | case5 c cs =>
    obtain ⟨-, rfl⟩ : _ ∧ c :: cs = r := by simpa using h
    exact Nat.le_refl _

end TypeAtlas.Text
