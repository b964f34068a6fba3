import TypeAtlas.Proofs.Declaration.Stripping
import TypeAtlas.Proofs.Loop

/-!
# Taking annotations out in rounds

The tokens of a table are taken out in rounds, in each of which one occurrence is replaced by a
blank, or the next token gets its turn. The text need not get shorter, and a search starts from its
beginning again. Yet there are no more rounds than tokens and characters other than blanks: no token
is blank, so that each occurrence takes such a character with it. At the end no token without blanks
is left, since none comes up again once its turn is over.

## Main definitions

* `Stripping`, `Stripping.round?` — what is done and what is still to do, and a round.

The main statement is `DeclarationParser.finishes_stripAll`.
-/

namespace TypeAtlas

open Text

theorem Marks.union_union_self (m n : Marks) : (m.union n).union n = m.union n := by
  simp [Marks.union]

/-- How far the tokens of a table have been taken out of a text. -/
structure Stripping where
  /-- The annotations that are still to be looked for, in this order. -/
  pending : List Annotation
  text : List Char
  marks : Marks

namespace Stripping

open Annotation Loop

variable {a : Annotation} {later : List Annotation} {s before after : List Char} {m : Marks}

/-- The state after a round, if there is anything left to do: the first occurrence of the token that
is looked for is taken out, or there is none and the next token gets its turn. -/
def round? (state : Stripping) : Option Stripping :=
  match state.pending with
  | [] => none
  | a :: later =>
    match cutAt? a.token state.text with
    | none => some { state with pending := later }
    | some (before, after) =>
      some { state with
        text := before ++ ' ' :: dropArgument after
        marks := state.marks.union a.marks }

theorem round?_of_cutAt? (h : cutAt? a.token s = some (before, after)) :
    round? ⟨a :: later, s, m⟩ =
      some ⟨a :: later, before ++ ' ' :: dropArgument after, m.union a.marks⟩ := by
  rw [round?]
  dsimp only
  rw [h]

theorem round?_of_absent (h : ¬ a.token <:+: s) :
    round? ⟨a :: later, s, m⟩ = some ⟨later, s, m⟩ := by
  rw [round?]
  dsimp only
  rw [cutAt?_eq_none_iff.2 h]

/-- One token is worked off in a round for each of its occurrences and one more, and every
occurrence takes a character other than a blank with it. -/
theorem exists_after?_stripStep (a : Annotation) (later : List Annotation) (s : List Char)
    (m : Marks) : ∃ n,
      n + (stripStep (s, m) a).1.countP (fun c => !isBlank c)
        ≤ s.countP (fun c => !isBlank c) + 1 ∧
      after? round? n ⟨a :: later, s, m⟩ =
        some ⟨later, (stripStep (s, m) a).1, (stripStep (s, m) a).2⟩ := by
  fun_induction strip a s generalizing m with
  | case1 s hnone =>
    have habsent := cutAt?_eq_none_iff.1 hnone
    have hstep : stripStep (s, m) a = (s, m) := stripStep_of_not_infix habsent
    refine ⟨1, ?_, ?_⟩
    · rw [hstep]
      exact Nat.le_of_eq (Nat.add_comm ..)
    · rw [hstep, after?_succ (round?_of_absent habsent)]
      rfl
  | case2 s before after hfound ih =>
    obtain ⟨n, hn, hafter⟩ := ih (m.union a.marks)
    have hfewer := countP_strip_lt a hfound
    -- a further occurrence of the same token adds no mark
    have hstep : stripStep (before ++ ' ' :: dropArgument after, m.union a.marks) a =
        stripStep (s, m) a := by
      unfold stripStep
      rw [strip_of_cutAt? hfound]
      dsimp only
      generalize a.strip (before ++ ' ' :: dropArgument after) = result
      obtain ⟨rest, hit⟩ := result
      cases hit
      · rfl
      · exact congrArg (Prod.mk rest) (Marks.union_union_self m a.marks)
    rw [hstep] at hn hafter
    refine ⟨n + 1, by omega, ?_⟩
    rw [after?_succ (round?_of_cutAt? hfound)]
    exact hafter

/-- A whole table is worked off. -/
theorem exists_after?_foldl (table : List Annotation) (found : List Char × Marks) : ∃ n,
    n + (table.foldl stripStep found).1.countP (fun c => !isBlank c)
      ≤ found.1.countP (fun c => !isBlank c) + table.length ∧
    after? round? n ⟨table, found.1, found.2⟩ =
      some ⟨[], (table.foldl stripStep found).1, (table.foldl stripStep found).2⟩ := by
  induction table generalizing found with
  | nil => exact ⟨0, by simp, rfl⟩
  | cons a table ih =>
    obtain ⟨n, hn, hfirst⟩ := exists_after?_stripStep a table found.1 found.2
    obtain ⟨k, hk, hrest⟩ := ih (stripStep found a)
    refine ⟨n + k, ?_, ?_⟩
    · have hstep : stripStep (found.1, found.2) a = stripStep found a := rfl
      rw [hstep] at hn
      rw [List.foldl_cons, List.length_cons]
      omega
    · rw [after?_of_after? hfirst, hrest, List.foldl_cons]

end Stripping

namespace DeclarationParser

open Annotation Loop

/-- Whatever further tokens a reader knows, the rounds in which it takes annotations out of a text
come to an end, and none of its tokens is left then in which there is no blank. -/
theorem finishes_stripAll (extras : List String) (raw : String) :
    let table := (withExtras extras).annotations
    (∃ n ≤ table.length + raw.toList.countP (fun c => !isBlank c),
      after? Stripping.round? n ⟨table, raw.toList, {}⟩ =
        some ⟨[], (stripAll table raw.toList).1, (stripAll table raw.toList).2⟩) ∧
      ∀ a ∈ table, ' ' ∉ a.token → ¬ a.token <:+: (stripAll table raw.toList).1 := by
  intro table
  refine ⟨?_, fun a ha hblank => not_infix_stripAll ha hblank raw.toList⟩
  obtain ⟨n, hn, hafter⟩ := Stripping.exists_after?_foldl table (raw.toList, {})
  refine ⟨n, ?_, hafter⟩
  dsimp only at hn
  omega

/-- The parts around `_In_` make no other token. Those around `zz` make one with a blank, which is
left because its turn is over. -/
theorem finishes_stripAll_parted :
    let table := (withExtras ["a b", "\t", " zz "]).annotations
    let text := (stripAll table "_I_In_(n)n_ azzb".toList).1
    (∃ a ∈ table, ' ' ∉ a.token ∧ a.token = "zz".toList ∧ ¬ a.token <:+: text) ∧
      text = "_I n_ a b".toList := by
  intro table text
  have hgiven : " zz " ∈ ["a b", "\t", " zz "] := by simp
  obtain ⟨a, ha, htoken⟩ : ∃ a ∈ table, a.token = "zz".toList :=
    exists_mem_withExtras hgiven (by decide)
  have hblank : ' ' ∉ a.token := by
    rw [htoken]
    decide
  refine ⟨⟨a, ha, hblank, htoken, ?_⟩, by decide +kernel⟩
  exact (finishes_stripAll ["a b", "\t", " zz "] "_I_In_(n)n_ azzb").2 a ha hblank

end DeclarationParser

end TypeAtlas
