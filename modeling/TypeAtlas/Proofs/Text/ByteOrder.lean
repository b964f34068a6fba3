import Mathlib.Tactic.ByContra
import Mathlib.Tactic.SplitIfs
import TypeAtlas.Text.Blank

/-!
# Byte order

The encoding of a character begins with how many octets it has, and its remaining bits follow from
the highest to the lowest. So two texts compare by their octets as they compare by their characters.

## Main definitions

* `Text.octets` — the octets of a text.

The main statement is `Text.octets_lt_octets_iff`.
-/

namespace TypeAtlas.Text

/-- The octets of a text in UTF-8. -/
def octets (s : String) : List UInt8 :=
  s.toUTF8.data.toList

theorem octets_eq_flatMap (s : String) : octets s = s.toList.flatMap String.utf8EncodeChar := by
  have hbytes : s.toUTF8 = s.toList.utf8Encode := String.utf8Encode_toList.symm
  rw [octets, hbytes]
  simp [List.utf8Encode]

/-- The octets of the lesser character come first, whatever follows. -/
theorem utf8EncodeChar_append_lt {c d : Char} (h : c < d) (s t : List UInt8) :
    String.utf8EncodeChar c ++ s < String.utf8EncodeChar d ++ t := by
  have hlt : c.val.toNat < d.val.toNat := UInt32.lt_iff_toNat_lt.1 h
  have hd : d.val.toNat < 0x110000 := by
    have hvalid : Nat.isValidChar d.val.toNat := d.valid
    unfold Nat.isValidChar at hvalid
    omega
  unfold String.utf8EncodeChar
  dsimp only
  generalize c.val.toNat = x at hlt
  generalize d.val.toNat = y at hlt hd
  have hdigits : ∀ n, n / 4096 = n / 64 / 64 ∧ n / 262144 = n / 64 / 64 / 64 := by
    intro n
    simp only [Nat.div_div_eq_div_mul, Nat.reduceMul, and_self]
  simp only [hdigits]
  -- With as many octets, the first one that differs is the lesser one; with fewer, the very first.
  split_ifs
  all_goals
    simp only [List.cons_append, List.nil_append, List.cons_lt_cons_iff, UInt8.lt_iff_toNat_lt,
      ← UInt8.toNat_inj, UInt8.toNat_ofNat', Nat.reducePow]
    omega

theorem flatMap_utf8EncodeChar_lt {s t : List Char} (h : s < t) :
    s.flatMap String.utf8EncodeChar < t.flatMap String.utf8EncodeChar := by
  induction h with
  | nil =>
    rename_i d t
    obtain ⟨octet, rest, hd⟩ := List.exists_cons_of_ne_nil (String.utf8EncodeChar_ne_nil (c := d))
    rw [List.flatMap_cons, hd]
    exact List.nil_lt_cons _ _
  | rel hlt => exact utf8EncodeChar_append_lt hlt _ _
  | cons _ ih =>
    rw [List.flatMap_cons, List.flatMap_cons]
    exact List.append_left_lt ih

variable {a b : String}

theorem octets_lt_octets (h : a < b) : octets a < octets b := by
  rw [octets_eq_flatMap, octets_eq_flatMap]
  exact flatMap_utf8EncodeChar_lt h

/-- Texts compare by their octets as they compare by their characters. -/
theorem octets_lt_octets_iff : octets a < octets b ↔ a < b := by
  refine ⟨fun h => ?_, octets_lt_octets⟩
  by_contra hlt
  by_cases heq : b = a
  · exact List.lt_irrefl _ (heq ▸ h)
  · have hgt : b < a := Std.lt_of_le_of_ne (String.not_lt.1 hlt) heq
    exact List.lt_asymm h (octets_lt_octets hgt)

end TypeAtlas.Text
