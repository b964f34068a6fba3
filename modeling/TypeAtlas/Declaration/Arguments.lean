import TypeAtlas.Text.Blank

/-!
# Type argument lists

A list of type arguments is split at the commas that stand outside all angle brackets. The pieces
are trimmed, and empty ones are left out.

## Main definitions

* `Arguments.pieces` — what stands between separating commas.
* `Arguments.split` — the type arguments in a list of them.
-/

namespace TypeAtlas.Arguments

open Text

/-- The bracket depth after one more character; a closing bracket too many is not counted. -/
def depthAfter (depth : Nat) (c : Char) : Nat :=
  if c = '<' then depth + 1 else if c = '>' then depth - 1 else depth

/-- The pieces between separating commas, as they stand; the first one starts at the given depth. -/
def pieces (depth : Nat) : List Char → List (List Char)
  | [] => [[]]
  | c :: cs =>
    if c = ',' ∧ depth = 0 then [] :: pieces 0 cs
    else match pieces (depthAfter depth c) cs with
      | [] => [[c]]
      | p :: ps => (c :: p) :: ps

/-- The trimmed non-empty pieces between separating commas. -/
def splitChars (s : List Char) : List (List Char) :=
  ((pieces 0 s).map trim).filter (!·.isEmpty)

/-- The type arguments in a list of them. -/
def split (s : String) : List String :=
  (splitChars s.toList).map String.ofList

theorem length_le_of_mem_pieces {depth : Nat} {s p : List Char} (h : p ∈ pieces depth s) :
    p.length ≤ s.length := by
  induction s generalizing depth p with
  | nil => simp_all [pieces]
  | cons c cs ih =>
    unfold pieces at h
    split at h
    · rcases List.mem_cons.1 h with rfl | h
      · simp
      · exact Nat.le_succ_of_le (ih h)
    · split at h
      · simp_all
      · next q qs hq =>
        rcases List.mem_cons.1 h with rfl | h
        · simpa using ih (hq ▸ List.mem_cons_self)
        · exact Nat.le_succ_of_le (ih (hq ▸ List.mem_cons_of_mem _ h))

theorem length_le_of_mem_splitChars {s p : List Char} (h : p ∈ splitChars s) :
    p.length ≤ s.length := by
  obtain ⟨q, hq, rfl⟩ := List.mem_map.1 (List.mem_filter.1 h).1
  exact Nat.le_trans (trim_length_le q) (length_le_of_mem_pieces hq)

end TypeAtlas.Arguments
