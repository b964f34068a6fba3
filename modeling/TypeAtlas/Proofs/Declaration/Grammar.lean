import Mathlib.Data.List.TakeWhile
import TypeAtlas.Declaration.Grammar
import TypeAtlas.Proofs.Declaration.Spacing
import TypeAtlas.Proofs.Text.Occurrences

/-!
# The grammar of declarations, read both ways

A text is understood exactly if it is put together from a name, marks, type arguments and an array
suffix. A list of texts with matched brackets is split into what each of them is split into on its
own.

## Main definitions

* `Arguments.Unsplit` — a text without a comma at which a list of arguments is split.
* `Arguments.depthBehind` — the bracket depth behind a text.
* `Shape.bracketed`, `Shape.suffix` — the type arguments and the marks of a shape as written.
* `Shape.Spells` — a shape as the parts of a text.

The main statements are `Arguments.splitChars_intercalate`, `Shape.spells_of_ofText?`,
`Descriptor.ofText_of_shape` and `Descriptor.ofText_of_parts`.
-/

namespace TypeAtlas

open Text

/-! ## Lists of arguments -/

namespace Arguments

variable {depth : Nat} {s t : List Char} {c : Char}

theorem exists_pieces (depth : Nat) (s : List Char) : ∃ p ps, pieces depth s = p :: ps := by
  fun_cases pieces depth s <;> grind

theorem pieces_cons (hc : ¬ (c = ',' ∧ depth = 0)) {p : List Char} {ps : List (List Char)}
    (h : pieces (depthAfter depth c) s = p :: ps) : pieces depth (c :: s) = (c :: p) :: ps := by
  rw [pieces, if_neg hc, h]

/-- The pieces of a text with the commas between them are the text. -/
theorem intercalate_pieces (depth : Nat) (s : List Char) :
    [','].intercalate (pieces depth s) = s := by
  induction s generalizing depth with
  | nil => rfl
  | cons c s ih =>
    by_cases hc : c = ',' ∧ depth = 0
    · obtain ⟨p, ps, hp⟩ := exists_pieces 0 s
      rw [pieces, if_pos hc, hp, List.intercalate_cons_cons, ← hp, ih, hc.1]
      rfl
    · obtain ⟨p, ps, hp⟩ := exists_pieces (depthAfter depth c) s
      have hrest := ih (depthAfter depth c)
      rw [hp] at hrest
      rw [pieces_cons hc hp, ← hrest]
      cases ps <;> simp [List.intercalate_cons_cons]

/-- What the parts of a text before and behind a comma have is had by its pieces. -/
theorem forall_mem_pieces {P : List Char → Prop} (hcut : ∀ u v, P (u ++ ',' :: v) → P u ∧ P v)
    (hs : P s) : ∀ p ∈ pieces depth s, P p := by
  rw [← intercalate_pieces depth s] at hs
  generalize pieces depth s = ps at hs
  induction ps with
  | nil => simp
  | cons p ps ih =>
    cases ps with
    | nil => simpa using hs
    | cons q qs =>
      rw [List.intercalate_cons_cons, List.append_assoc, List.singleton_append] at hs
      obtain ⟨hfirst, hrest⟩ := hcut _ _ hs
      exact List.forall_mem_cons.2 ⟨hfirst, ih hrest⟩

/-- The same for the arguments in a list, if trimming does not change what has it. -/
theorem forall_mem_splitChars {P : List Char → Prop}
    (hcut : ∀ u v, P (u ++ ',' :: v) → P u ∧ P v) (htrim : ∀ p, P p → trim p = p) (hs : P s) :
    ∀ piece ∈ splitChars s, P piece := by
  intro piece hpiece
  obtain ⟨p, hp, rfl⟩ := List.mem_map.1 (List.mem_filter.1 hpiece).1
  have hpiece := forall_mem_pieces hcut hs p hp
  rwa [htrim p hpiece]

/-- A text that stays in one piece at a depth, together with what follows it up to the next
separating comma. -/
def Unsplit (depth : Nat) (s : List Char) : Prop :=
  ∀ t p ps, pieces depth t = p :: ps → pieces depth (s ++ t) = (s ++ p) :: ps

namespace Unsplit

theorem append (hs : Unsplit depth s) (ht : Unsplit depth t) : Unsplit depth (s ++ t) := by
  intro u p ps hp
  rw [List.append_assoc, hs _ _ _ (ht _ _ _ hp), List.append_assoc]

theorem of_forall (hs : ∀ c ∈ s, c ≠ '<' ∧ c ≠ '>' ∧ c ≠ ',') : Unsplit depth s := by
  induction s with
  | nil => exact fun t p ps hp => hp
  | cons c s ih =>
    intro t p ps hp
    obtain ⟨hopen, hclose, hcomma⟩ := hs c (by simp)
    have hrest := ih (fun d hd => hs d (List.mem_cons_of_mem c hd)) t p ps hp
    refine pieces_cons (by simp [hcomma]) ?_
    simpa [depthAfter, hopen, hclose] using hrest

/-- Inside of brackets nothing is split as long as they are open. -/
theorem wrap (hs : Unsplit (depth + 1) s) : Unsplit depth ('<' :: (s ++ ['>'])) := by
  intro t p ps hp
  have hclose : pieces (depth + 1) ('>' :: t) = ('>' :: p) :: ps :=
    pieces_cons (by simp) (by simpa [depthAfter] using hp)
  have hinner := hs _ _ _ hclose
  have hopen : pieces depth ('<' :: (s ++ '>' :: t)) = ('<' :: (s ++ '>' :: p)) :: ps :=
    pieces_cons (by simp) (by simpa [depthAfter] using hinner)
  simpa using hopen

theorem of_balanced (hs : Balanced '<' '>' s) (depth : Nat) : Unsplit (depth + 1) s := by
  induction hs generalizing depth with
  | nil => exact fun t p ps hp => hp
  | cons hopen hclose _ ih =>
    intro t p ps hp
    refine pieces_cons (by simp) ?_
    simpa [depthAfter, hopen, hclose] using ih depth t p ps hp
  | nest _ _ ihs iht => simpa using (ihs (depth + 1)).wrap.append (iht depth)

theorem pieces_eq (hs : Unsplit 0 s) : pieces 0 s = [s] := by
  simpa using hs [] [] [] rfl

end Unsplit

/-! ### Depth -/

/-- The bracket depth behind a text that starts at the given one. -/
def depthBehind (depth : Nat) (s : List Char) : Nat :=
  s.foldl depthAfter depth

@[simp, grind =] theorem depthBehind_nil : depthBehind depth [] = depth := rfl

@[simp, grind =] theorem depthBehind_cons :
    depthBehind depth (c :: s) = depthBehind (depthAfter depth c) s := rfl

@[simp, grind =] theorem depthBehind_append :
    depthBehind depth (s ++ t) = depthBehind (depthBehind depth s) t :=
  List.foldl_append

theorem depthBehind_of_balanced (hs : Balanced '<' '>' s) (depth : Nat) :
    depthBehind depth s = depth := by
  induction hs generalizing depth with
  | nil => rfl
  | cons => grind [depthAfter]
  | nest => grind [depthAfter]

/-- A list is split at a comma outside all brackets, whatever stands before it. -/
theorem pieces_append_comma (hs : depthBehind depth s = 0) (t : List Char) :
    pieces depth (s ++ ',' :: t) = pieces depth s ++ pieces 0 t := by
  induction s generalizing depth with
  | nil => simp_all [pieces]
  | cons c s ih =>
    obtain ⟨p, ps, hp⟩ := exists_pieces (depthAfter depth c) s
    grind [pieces, depthAfter]

theorem splitChars_append_comma (hs : depthBehind 0 s = 0) (t : List Char) :
    splitChars (s ++ ',' :: t) = splitChars s ++ splitChars t := by
  simp [splitChars, pieces_append_comma hs]

/-- A list of texts with matched brackets is split into what each text is split into. -/
theorem splitChars_intercalate {ss : List (List Char)} (hss : ∀ s ∈ ss, Balanced '<' '>' s) :
    splitChars ([','].intercalate ss) = ss.flatMap splitChars := by
  induction ss with
  | nil => rfl
  | cons s ss ih =>
    cases ss with
    | nil => simp
    | cons t ts =>
      rw [List.intercalate_cons_cons, List.append_assoc, List.singleton_append,
        splitChars_append_comma (depthBehind_of_balanced (hss s (by simp)) 0),
        ih fun u hu => hss u (List.mem_cons_of_mem s hu)]
      rfl

theorem splitChars_of_unsplit (hs : Unsplit 0 s) (htrimmed : IsTrimmed s) (hne : s ≠ []) :
    splitChars s = [s] := by
  simp [splitChars, hs.pieces_eq, trim_eq_self htrimmed, hne]

end Arguments

/-! ## Shapes as they are written -/

namespace Shape

variable {s n m array : List Char} {arguments : Option (List Char)} {shape : Shape} {rank : Nat}

/-- Type arguments as they are written. -/
def bracketed : Option (List Char) → List Char
  | none => []
  | some arguments => '<' :: (arguments ++ ['>'])

/-- The marks of a shape before and behind its type arguments. -/
def suffix (shape : Shape) : List Char :=
  shape.asterisks ++ (bif shape.isQueried then ['?'] else []) ++ shape.marks

/-- A shape as the parts of a text with an array suffix. -/
structure Spells (shape : Shape) (array s : List Char) : Prop where
  text : s = shape.name ++ (shape.asterisks ++ ((bif shape.isQueried then ['?'] else []) ++
    (bracketed shape.arguments ++ (shape.marks ++ array))))
  startsName : shape.name.head?.any startsName = true
  continuesName : ∀ c ∈ shape.name, continuesName c = true
  asterisks : ∀ c ∈ shape.asterisks, c = '*'
  marks : ∀ c ∈ shape.marks, isMark c = true
  array : arrayRank? array = some shape.arrayRank

/-! ### From a text to its parts -/

theorem takeAsterisks_spec (s : List Char) :
    s = (takeAsterisks s).1 ++ (takeAsterisks s).2 ∧ ∀ c ∈ (takeAsterisks s).1, c = '*' := by
  fun_cases takeAsterisks s <;> simp

theorem takeQuery_spec (s : List Char) :
    s = (bif (takeQuery s).1 then ['?'] else []) ++ (takeQuery s).2 := by
  fun_cases takeQuery s <;> simp

theorem takeArguments?_spec {rest : List Char}
    (h : takeArguments? s = some (arguments, rest)) : s = bracketed arguments ++ rest := by
  unfold takeArguments? at h
  split at h
  · next s =>
    obtain ⟨⟨before, after⟩, hcut, heq⟩ := Option.map_eq_some_iff.1 h
    obtain ⟨rfl, rfl⟩ : some before = arguments ∧ after = rest := by simpa using heq
    rw [eq_of_cutLast? hcut]
    simp [bracketed]
  · obtain ⟨rfl, rfl⟩ : none = arguments ∧ s = rest := by simpa using h
    rfl

/-- A text that is understood is put together from its parts. -/
theorem spells_of_ofText? (h : ofText? s = some shape) : ∃ array, shape.Spells array s := by
  unfold ofText? at h
  dsimp only at h
  split at h
  · next hstart =>
    have hasterisks := takeAsterisks_spec (s.dropWhile Shape.continuesName)
    have hquery := takeQuery_spec (takeAsterisks (s.dropWhile Shape.continuesName)).2
    split at h
    · simp at h
    · next arguments rest hrest =>
      obtain ⟨rank, hrank, rfl⟩ := Option.map_eq_some_iff.1 h
      refine ⟨rest.dropWhile isMark, ?_, hstart, fun c => List.mem_takeWhile_imp, hasterisks.2,
        fun c => List.mem_takeWhile_imp, hrank⟩
      dsimp only
      rw [List.takeWhile_append_dropWhile, ← takeArguments?_spec hrest, ← hquery, ← hasterisks.1,
        List.takeWhile_append_dropWhile]
  · simp at h

/-! ### From the parts to a text -/

theorem not_continuesName_of_isMark {c : Char} (h : isMark c = true) : continuesName c = false := by
  simp only [isMark, Bool.or_eq_true, beq_iff_eq] at h
  rcases h with (((rfl | rfl) | rfl) | rfl) | rfl <;> decide

/-- The array suffixes. -/
theorem arrayRank?_eq_some (h : arrayRank? array = some rank) :
    array = [] ∧ rank = 0 ∨ array = ['[', ',', ']'] ∧ rank = 2 ∨
      ∃ digits, (∀ d ∈ digits, isDecimalDigit d = true) ∧ array = '[' :: (digits ++ [']']) ∧
        rank = 1 := by
  unfold arrayRank? at h
  split at h
  · exact .inl ⟨rfl, by simpa using h.symm⟩
  · exact .inr (.inl ⟨rfl, by simpa using h.symm⟩)
  · next s _ =>
    split at h
    · next hclose =>
      refine .inr (.inr ⟨s.takeWhile isDecimalDigit, fun d => List.mem_takeWhile_imp, ?_,
        by simpa using h.symm⟩)
      rw [← hclose, List.takeWhile_append_dropWhile]
    · simp at h
  · simp at h

theorem isDecimalDigit_ne {c d : Char} (h : isDecimalDigit c = true)
    (hd : isDecimalDigit d = false) : c ≠ d := by
  rintro rfl
  simp [h] at hd

/-- An array suffix starts with its bracket, which is no mark and no part of a name. -/
theorem head?_array (h : arrayRank? array = some rank) : ∀ c ∈ array.head?, c = '[' := by
  obtain ⟨rfl, -⟩ | ⟨rfl, -⟩ | ⟨digits, -, rfl, -⟩ := arrayRank?_eq_some h <;> simp

theorem not_mem_array (h : arrayRank? array = some rank) : '<' ∉ array ∧ '>' ∉ array := by
  obtain ⟨rfl, -⟩ | ⟨rfl, -⟩ | ⟨digits, hdigits, rfl, -⟩ := arrayRank?_eq_some h
  · simp
  · simp
  · have hopen : '<' ∉ digits := fun hmem => isDecimalDigit_ne (hdigits _ hmem) (by decide) rfl
    have hclose : '>' ∉ digits := fun hmem => isDecimalDigit_ne (hdigits _ hmem) (by decide) rfl
    simp [hopen, hclose]

/-- A text is cut where a condition stops to hold. -/
theorem splitWhile {p : Char → Bool} (hs : ∀ c ∈ s, p c = true) {t : List Char}
    (ht : ∀ c ∈ t.head?, p c = false) :
    (s ++ t).takeWhile p = s ∧ (s ++ t).dropWhile p = t := by
  have hnone : t.takeWhile p = [] := by
    cases t with
    | nil => rfl
    | cons c t => simp [ht c (by simp)]
  rw [List.takeWhile_append_of_pos hs, List.dropWhile_append_of_pos hs, dropWhile_eq_self ht, hnone]
  simp

/-- The level that a shape describes depends on its marks all together. -/
theorem formOfShape_suffix (base : TypeForm) (hasterisks : ∀ c ∈ shape.asterisks, c = '*') :
    Descriptor.formOfShape base shape = Descriptor.formOfShape base
      { shape with asterisks := [], isQueried := false, marks := shape.suffix } := by
  obtain ⟨k, hk⟩ : ∃ k, shape.asterisks = List.replicate k '*' :=
    ⟨_, List.eq_replicate_iff.2 ⟨rfl, hasterisks⟩⟩
  cases hquery : shape.isQueried <;>
    simp [Descriptor.formOfShape, suffix, hk, hquery, List.contains_eq_mem, List.mem_replicate]

/-- Marks and an array suffix do not go on with a name. -/
theorem head?_marks_array (hm : ∀ c ∈ m, isMark c = true) (harray : arrayRank? array = some rank) :
    ∀ c ∈ (m ++ array).head?, continuesName c = false := by
  intro c hc
  rw [List.head?_append] at hc
  rcases Option.or_eq_some_iff.1 hc with hc | ⟨-, hc⟩
  · exact not_continuesName_of_isMark (hm c (List.mem_of_head? hc))
  · rw [head?_array harray c hc]
    decide

/-- A name with marks behind it and an array suffix is understood. -/
theorem ofText?_marked (hstart : n.head?.any startsName = true)
    (hname : ∀ c ∈ n, continuesName c = true) (hm : ∀ c ∈ m, isMark c = true)
    (harray : arrayRank? array = some rank) :
    ∃ shape, ofText? (n ++ (m ++ array)) = some shape ∧ shape.name = n ∧ shape.arguments = none ∧
      shape.suffix = m ∧ shape.arrayRank = rank := by
  have hend := head?_marks_array hm harray
  have hsuffix : ∀ c ∈ array.head?, isMark c = false := by
    intro c hc
    rw [head?_array harray c hc]
    decide
  obtain ⟨htake, hdrop⟩ := splitWhile hname hend
  obtain ⟨hmarks, hrest⟩ := splitWhile hm hsuffix
  obtain ⟨hasterisks, hall⟩ := takeAsterisks_spec (m ++ array)
  have hquery := takeQuery_spec (takeAsterisks (m ++ array)).2
  rw [ofText?, htake, hdrop, if_pos hstart]
  generalize takeAsterisks (m ++ array) = first at *
  obtain ⟨asterisks, behind⟩ := first
  dsimp only at *
  generalize takeQuery behind = second at *
  obtain ⟨isQueried, rest⟩ := second
  dsimp only at *
  have hfirst : ∀ c ∈ asterisks, isMark c = true := fun c hc => hall c hc ▸ rfl
  have hsecond : ∀ c ∈ (bif isQueried then ['?'] else []), isMark c = true := by
    cases isQueried <;> simp [isMark]
  rw [hasterisks, hquery, List.takeWhile_append_of_pos hfirst,
    List.takeWhile_append_of_pos hsecond] at hmarks
  rw [hasterisks, hquery, List.dropWhile_append_of_pos hfirst,
    List.dropWhile_append_of_pos hsecond] at hrest
  have hopen : rest.head? ≠ some '<' := by
    intro hhead
    have hwhole : '<' ∈ m ++ array := by
      rw [hasterisks, hquery]
      simp [List.mem_of_head? hhead]
    rcases List.mem_append.1 hwhole with hin | hin
    · exact absurd (hm _ hin) (by decide)
    · exact (not_mem_array harray).1 hin
  rw [takeArguments?_of_ne hopen]
  dsimp only
  rw [hrest, harray, Option.map_some]
  exact ⟨_, rfl, rfl, rfl, by simpa [suffix] using hmarks, rfl⟩

/-- A name with type arguments behind it, then marks and an array suffix, is understood. -/
theorem ofText?_bracketed (hstart : n.head?.any startsName = true)
    (hname : ∀ c ∈ n, continuesName c = true) (hm : ∀ c ∈ m, isMark c = true)
    (harray : arrayRank? array = some rank) (a : List Char) :
    ofText? (n ++ (bracketed (some a) ++ (m ++ array))) =
      some ⟨n, [], false, some a, m, rank⟩ := by
  have hsuffix : ∀ c ∈ array.head?, isMark c = false := by
    intro c hc
    rw [head?_array harray c hc]
    decide
  have hclose : '>' ∉ m ++ array := by
    intro hmem
    rcases List.mem_append.1 hmem with hin | hin
    · exact absurd (hm _ hin) (by decide)
    · exact (not_mem_array harray).2 hin
  have hwritten : bracketed (some a) ++ (m ++ array) = '<' :: (a ++ '>' :: (m ++ array)) := by
    simp [bracketed]
  have hopen : ∀ c ∈ ('<' :: (a ++ '>' :: (m ++ array))).head?, continuesName c = false := by
    intro c hc
    obtain rfl : '<' = c := by simpa using hc
    decide
  obtain ⟨htake, hdrop⟩ := splitWhile hname hopen
  obtain ⟨hmarks, hrest⟩ := splitWhile hm hsuffix
  rw [hwritten, ofText?, htake, hdrop, if_pos hstart]
  simp [takeAsterisks, takeQuery, takeArguments?, cutLast?_append a hclose, hmarks, hrest, harray]

/-- What is put together from a name, type arguments, marks and an array suffix is understood. -/
theorem ofText?_of_parts (hstart : n.head?.any startsName = true)
    (hname : ∀ c ∈ n, continuesName c = true) (hm : ∀ c ∈ m, isMark c = true)
    (harray : arrayRank? array = some rank) (arguments : Option (List Char)) :
    ∃ shape, ofText? (n ++ (bracketed arguments ++ (m ++ array))) = some shape ∧
      shape.arguments = arguments ∧ ∀ base, Descriptor.formOfShape base shape =
        Descriptor.formOfShape base ⟨n, [], false, arguments, m, rank⟩ := by
  cases arguments with
  | none =>
    obtain ⟨shape, hshape, hn, ha, hs, hr⟩ := ofText?_marked hstart hname hm harray
    obtain ⟨_, hspells⟩ := spells_of_ofText? hshape
    refine ⟨shape, hshape, ha, fun base => ?_⟩
    rw [formOfShape_suffix base hspells.asterisks, hs, hn, ha, hr]
  | some a =>
    exact ⟨_, ofText?_bracketed hstart hname hm harray a, rfl, fun base => rfl⟩

end Shape

/-! ## Types from texts -/

namespace Descriptor

variable {base : TypeForm} {s : List Char} {shape : Shape}

/-- The types that are read from the type arguments of a shape. -/
def argumentsOf (arguments : Option (List Char)) : List Descriptor :=
  (arguments.elim [] Arguments.splitChars).map fun piece => ofText (argumentBase piece) piece

theorem ofText_of_none (h : Shape.ofText? (repairSystem s) = none) :
    ofText base s = { toTypeForm := formOfUnknown base (repairSystem s) } := by
  rw [ofText, h]

theorem ofText_of_shape (h : Shape.ofText? (repairSystem s) = some shape) :
    ofText base s =
      { toTypeForm := formOfShape base shape, arguments := argumentsOf shape.arguments } := by
  obtain ⟨name, asterisks, isQueried, arguments, marks, rank⟩ := shape
  rw [ofText, h]
  cases arguments <;> simp [argumentsOf]

/-- The role of a type is the one that it is read in. -/
theorem ofText_argument (base : TypeForm) (raw : String) (s : List Char) :
    ofText { base with raw, isArgument := true } s =
      { ofText base s with raw, isArgument := true } := by
  rw [ofText, ofText]
  split
  · rfl
  · simp only [formOfShape]

/-- The type that is read from a text that is put together from its parts. -/
theorem ofText_of_parts {n m array : List Char} {rank : Nat}
    (hstart : n.head?.any Shape.startsName = true) (hname : ∀ c ∈ n, Shape.continuesName c = true)
    (hm : ∀ c ∈ m, Shape.isMark c = true) (harray : Shape.arrayRank? array = some rank)
    (arguments : Option (List Char)) (hs : s = n ++ (Shape.bracketed arguments ++ (m ++ array)))
    (hsteady : repairSystem s = s) :
    ofText base s =
      { toTypeForm := formOfShape base ⟨n, [], false, arguments, m, rank⟩
        arguments := argumentsOf arguments } := by
  obtain ⟨shape, hshape, harguments, hform⟩ :=
    Shape.ofText?_of_parts hstart hname hm harray arguments
  rw [← hs, ← hsteady] at hshape
  rw [ofText_of_shape hshape, hform, harguments]

end Descriptor

end TypeAtlas
