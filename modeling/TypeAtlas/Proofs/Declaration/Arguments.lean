import TypeAtlas.Proofs.Declaration.Understood

/-!
# Lists of arguments, taken apart and put together

A list of pieces is proper if the pieces can be told apart once they are joined: no comma of a piece
stands outside all brackets, and only the last piece may leave a bracket open. Whatever the text,
splitting makes a proper list of it, and on proper lists it is inverse to joining.

The invariant is `Delimited`: behind a separating comma the depth is zero again, so that every piece
but the first starts there.

## Main definitions

* `Arguments.IsWhole` — a text without a comma outside all brackets.
* `Arguments.Delimited` — texts as they stand between separating commas.
* `Arguments.IsProper` — a proper list of pieces.

The main statement is `Arguments.inverse_split`.
-/

namespace TypeAtlas.Arguments

open Text

variable {depth : Nat} {s t : List Char} {c : Char} {ps : List (List Char)}

/-! ## Blanks -/

theorem depthAfter_of_isBlank (hc : isBlank c = true) : depthAfter depth c = depth := by
  have hopen : c ≠ '<' := ne_of_isBlank hc (by decide)
  have hclose : c ≠ '>' := ne_of_isBlank hc (by decide)
  simp [depthAfter, hopen, hclose]

theorem depthBehind_of_blank (hs : ∀ c ∈ s, isBlank c = true) : depthBehind depth s = depth := by
  induction s with
  | nil => rfl
  | cons c s ih => grind [depthAfter_of_isBlank]

theorem depthBehind_trim (depth : Nat) (s : List Char) :
    depthBehind depth (trim s) = depthBehind depth s := by
  obtain ⟨before, after, hbefore, hafter, hs⟩ := exists_trim s
  have hown : depthBehind depth s = depthBehind depth (before ++ (trim s ++ after)) := by rw [← hs]
  simp [hown, depthBehind_of_blank hbefore, depthBehind_of_blank hafter]

/-- Blanks in front of a list do not count. -/
theorem splitChars_cons_of_blank (hc : isBlank c = true) (s : List Char) :
    splitChars (c :: s) = splitChars s := by
  obtain ⟨p, ps, hp⟩ := exists_pieces 0 s
  have hcomma : c ≠ ',' := ne_of_isBlank hc (by decide)
  have hpieces : pieces 0 (c :: s) = (c :: p) :: ps :=
    pieces_cons (fun h => hcomma h.1) (by rw [depthAfter_of_isBlank hc, hp])
  have htrim : trim (c :: p) = trim p := by simp [trim, trimWith, hc]
  simp [splitChars, hpieces, hp, htrim]

/-! ## Whole texts -/

/-- No comma stands outside all brackets, in a text that starts at the given depth. -/
def IsWhole (depth : Nat) (s : List Char) : Prop :=
  ∀ before after, s = before ++ ',' :: after → depthBehind depth before ≠ 0

@[simp] theorem isWhole_nil : IsWhole depth [] := by simp [IsWhole]

theorem isWhole_cons :
    IsWhole depth (c :: s) ↔ ¬ (c = ',' ∧ depth = 0) ∧ IsWhole (depthAfter depth c) s := by
  constructor
  · intro h
    refine ⟨?_, fun before after hs => ?_⟩
    · have hfirst := h [] s
      grind
    · have hlater := h (c :: before) after
      grind
  · rintro ⟨hc, hs⟩ before after heq
    cases before with
    | nil => grind
    | cons d before =>
      have hlater := hs before after
      grind

theorem isWhole_append :
    IsWhole depth (s ++ t) ↔ IsWhole depth s ∧ IsWhole (depthBehind depth s) t := by
  induction s generalizing depth with
  | nil => simp
  | cons c s ih => grind [isWhole_cons]

instance decidableIsWhole (depth : Nat) : (s : List Char) → Decidable (IsWhole depth s)
  | [] => .isTrue isWhole_nil
  | c :: s =>
    have := decidableIsWhole (depthAfter depth c) s
    decidable_of_iff _ isWhole_cons.symm

namespace IsWhole

theorem trim (h : IsWhole 0 s) : IsWhole 0 (trim s) := by
  obtain ⟨before, after, hbefore, -, hs⟩ := exists_trim s
  rw [hs, isWhole_append, isWhole_append, depthBehind_of_blank hbefore] at h
  exact h.2.1

theorem pieces_eq (h : IsWhole depth s) : pieces depth s = [s] := by
  induction s generalizing depth with
  | nil => rfl
  | cons c s ih => grind [pieces, isWhole_cons]

theorem splitChars_eq (h : IsWhole 0 s) (htrimmed : IsTrimmed s) (hne : s ≠ []) :
    splitChars s = [s] := by
  simp [splitChars, h.pieces_eq, trim_eq_self htrimmed, hne]

end IsWhole

/-! ## Texts between commas -/

/-- Texts as they stand between separating commas: each is whole, and each but the last ends outside
all brackets. Only the first one starts at the given depth. -/
def Delimited (depth : Nat) : List (List Char) → Prop
  | [] => True
  | p :: ps => IsWhole depth p ∧ (ps ≠ [] → depthBehind depth p = 0) ∧ Delimited 0 ps

theorem delimited_zero_iff : Delimited 0 ps ↔
    (∀ p ∈ ps, IsWhole 0 p) ∧ ∀ p ∈ ps.dropLast, depthBehind 0 p = 0 := by
  induction ps with
  | nil => simp [Delimited]
  | cons p ps ih => cases ps <;> grind [Delimited]

theorem delimited_pieces (depth : Nat) (s : List Char) : Delimited depth (pieces depth s) := by
  induction s generalizing depth with
  | nil => simp [pieces, Delimited]
  | cons c s ih =>
    obtain ⟨p, ps, hp⟩ := exists_pieces (depthAfter depth c) s
    have hrest := ih (depthAfter depth c)
    grind [pieces, Delimited, isWhole_nil, isWhole_cons]

namespace Delimited

theorem map_trim (h : Delimited 0 ps) : Delimited 0 (ps.map trim) := by
  induction ps with
  | nil => trivial
  | cons p ps ih =>
    obtain ⟨hwhole, hclosed, hrest⟩ := h
    exact ⟨hwhole.trim, by simpa [depthBehind_trim] using hclosed, ih hrest⟩

/-- A piece that is left out leaves no trace: the depth is zero before and behind it. -/
theorem filter (h : Delimited 0 ps) (q : List Char → Bool) : Delimited 0 (ps.filter q) := by
  induction ps with
  | nil => trivial
  | cons p ps ih => grind [Delimited]

end Delimited

theorem delimited_splitChars (s : List Char) : Delimited 0 (splitChars s) :=
  (delimited_pieces 0 s).map_trim.filter _

/-- Delimited texts are found again when they have been joined. -/
theorem splitChars_joined (hps : Delimited 0 ps) (h : ∀ p ∈ ps, p ≠ [] ∧ IsTrimmed p) :
    splitChars ([',', ' '].intercalate ps) = ps := by
  induction ps with
  | nil => rfl
  | cons p ps ih =>
    obtain ⟨⟨hne, htrimmed⟩, hrest⟩ := List.forall_mem_cons.1 h
    obtain ⟨hwhole, hclosed, hdelimited⟩ := hps
    have hown : splitChars p = [p] := hwhole.splitChars_eq htrimmed hne
    cases ps with
    | nil => simpa using hown
    | cons q qs =>
      calc splitChars ([',', ' '].intercalate (p :: q :: qs))
          = splitChars (p ++ ',' :: ' ' :: [',', ' '].intercalate (q :: qs)) := by
            simp [List.intercalate_cons_cons]
        _ = splitChars p ++ splitChars (' ' :: [',', ' '].intercalate (q :: qs)) :=
            splitChars_append_comma (hclosed (by simp)) _
        _ = [p] ++ (q :: qs) := by
            rw [hown, splitChars_cons_of_blank (by decide), ih hdelimited hrest]

/-! ## Proper lists -/

/-- A list of pieces that can be joined and told apart again. -/
structure IsProper (ps : List String) : Prop where
  ne_empty : ∀ p ∈ ps, p ≠ ""
  trimmed : ∀ p ∈ ps, trimmed p = p
  whole : ∀ p ∈ ps, IsWhole 0 p.toList
  closed : ∀ p ∈ ps.dropLast, depthBehind 0 p.toList = 0

theorem isProper_iff {ps : List String} : IsProper ps ↔
    Delimited 0 (ps.map String.toList) ∧ ∀ p ∈ ps.map String.toList, p ≠ [] ∧ IsTrimmed p := by
  rw [delimited_zero_iff, ← List.map_dropLast]
  simp only [List.forall_mem_map, ne_eq, String.toList_eq_nil_iff, isTrimmed_iff]
  exact ⟨fun h => ⟨⟨h.whole, h.closed⟩, fun p hp => ⟨h.ne_empty p hp, h.trimmed p hp⟩⟩,
    fun h => ⟨fun p hp => (h.2 p hp).1, fun p hp => (h.2 p hp).2, h.1.1, h.1.2⟩⟩

theorem isProper_split (s : String) : IsProper (split s) := by
  have hchars : (split s).map String.toList = splitChars s.toList := by
    simp [split, Function.comp_def]
  rw [isProper_iff, hchars]
  refine ⟨delimited_splitChars _, fun piece hpiece => ?_⟩
  obtain ⟨p, -, rfl⟩ := List.mem_map.1 (List.mem_filter.1 hpiece).1
  exact ⟨Descriptor.ne_nil_of_mem_splitChars hpiece, isTrimmed_trim p⟩

theorem split_joined {ps : List String} (h : IsProper ps) : split (", ".intercalate ps) = ps := by
  obtain ⟨hdelimited, hpieces⟩ := isProper_iff.1 h
  have hcomma : ", ".toList = [',', ' '] := by decide
  rw [split, String.toList_intercalate, hcomma, splitChars_joined hdelimited hpieces, List.map_map]
  simp [Function.comp_def]

/-- Splitting makes a proper list of every text, and joining is undone by it on proper lists. So a
text that has been split and joined, however its brackets stand, is split as before. -/
theorem inverse_split : (∀ s, IsProper (split s)) ∧
    (∀ ps, IsProper ps → split (", ".intercalate ps) = ps) ∧
    ∀ s, split (", ".intercalate (split s)) = split s :=
  ⟨isProper_split, fun _ => split_joined, fun s => split_joined (isProper_split s)⟩

/-- A piece may close a bracket too many, and the last one may leave brackets open. -/
theorem inverse_split_unbalanced : IsProper ["A>", "B<C, D>", "E<F, G"] ∧
    split "A>, B<C, D>, E<F, G" = ["A>", "B<C, D>", "E<F, G"] := by
  have hproper : IsProper ["A>", "B<C, D>", "E<F, G"] :=
    ⟨by decide +kernel, by decide +kernel, by decide +kernel, by decide +kernel⟩
  have hjoined : ", ".intercalate ["A>", "B<C, D>", "E<F, G"] = "A>, B<C, D>, E<F, G" := by
    decide +kernel
  refine ⟨hproper, ?_⟩
  rw [← hjoined]
  exact inverse_split.2.1 _ hproper

end TypeAtlas.Arguments
