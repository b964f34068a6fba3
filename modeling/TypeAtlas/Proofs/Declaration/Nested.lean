import TypeAtlas.Proofs.Declaration.Bare
import TypeAtlas.Proofs.Declaration.Understood

/-!
# Type arguments read on their own

A declaration with nothing to be taken out of it is read as a type argument as it is read on its
own, with two exceptions. The list of arguments is split at the comma of an array suffix of rank
two, and a separator in front of a declaration is left out of the whole declaration only.

## Main definitions

* `DeclarationParser.nested` — declarations as the type arguments of a name.
* `DeclarationParser.IsArgument` — a declaration that is understood, with nothing to be taken out.
* `DeclarationParser.startsWithSeparator` — whether a declaration starts with a dot or two colons.

The main statement is `DeclarationParser.parse_nested`.
-/

namespace TypeAtlas

open Text

/-! ## Normal forms of arguments -/

namespace Spacing

variable {s : List Char}

theorem head?_packed (s : List Char) : (packed s).head? = (s.dropWhile isBlank).head? := by
  have hsplit := List.takeWhile_append_dropWhile (p := isBlank) (l := s)
  rw [← hsplit, packed_append_of_blank fun c => List.mem_takeWhile_imp, hsplit]
  cases hs : s.dropWhile isBlank with
  | nil => rfl
  | cons c cs =>
    have hc : isBlank c = false := by
      have hhead := head?_dropWhile_not (p := isBlank) (s := s) c (by simp [hs])
      simpa using hhead
    simp [packed, layout, hc]

end Spacing

namespace DeclarationParser

variable {t : String} {ts : List String}

/-- A declaration that is understood on its own, with nothing to be taken out of it. -/
structure IsArgument (t : String) : Prop where
  isBare : IsBare t.toList
  named : (standard.parse t).fullName ≠ ""
  understood : (standard.parse t).firstAmbiguous? = none

instance : Decidable (IsArgument t) :=
  decidable_of_iff (IsBare t.toList ∧ (standard.parse t).fullName ≠ "" ∧
      (standard.parse t).firstAmbiguous? = none)
    ⟨fun h => ⟨h.1, h.2.1, h.2.2⟩, fun h => ⟨h.isBare, h.named, h.understood⟩⟩

/-- The text from which a declaration is read as a type argument. -/
def argumentText (t : String) : List Char :=
  Spacing.packed (Name.dotted t.toList)

/-- Whether a declaration starts with a dot or two colons. -/
def startsWithSeparator (t : String) : Bool :=
  (Name.dotted (t.toList.dropWhile isBlank)).head? == some '.'

/-- Declarations as the type arguments of a name. -/
def nested (ts : List String) : String :=
  "Name<" ++ ", ".intercalate ts ++ ">"

theorem parse_bare (h : IsBare t.toList) :
    standard.parse t = Descriptor.ofText { raw := t } (Spacing.normalize t.toList) :=
  @parse_of_isBare _ t false rfl h

/-- The normal form of an argument is understood. -/
theorem IsArgument.normal (h : IsArgument t) :
    Descriptor.Understood (Spacing.normalize t.toList) := by
  have hread := h.understood
  rw [parse_bare h.isBare, Descriptor.firstAmbiguous?_ofText_eq_none rfl] at hread
  refine hread.resolve_left fun hnil => h.named ?_
  have hnone : Shape.ofText? (Descriptor.repairSystem []) = none := by decide
  rw [parse_bare h.isBare, hnil, Descriptor.ofText_of_none hnone]
  rfl

/-! ## Separators in front -/

theorem head?_argumentText (t : String) :
    (argumentText t).head? = (Name.dotted (t.toList.dropWhile isBlank)).head? := by
  have hcolon : ':' ∉ t.toList.takeWhile isBlank :=
    fun hmem => absurd (List.mem_takeWhile_imp hmem) (by decide)
  have hhead : ∀ c ∈ (Name.dotted (t.toList.dropWhile isBlank)).head?, isBlank c = false := by
    have hnot := head?_dropWhile_not (p := isBlank) (s := t.toList)
    generalize t.toList.dropWhile isBlank = s at hnot
    intro c hc
    unfold Name.dotted at hc
    split at hc
    · obtain rfl : '.' = c := by simpa using hc
      decide
    · exact hnot c hc
    · simp at hc
  rw [argumentText, ← List.takeWhile_append_dropWhile (p := isBlank) (l := t.toList),
    Name.dotted_append hcolon, Spacing.packed_append_of_blank fun c => List.mem_takeWhile_imp,
    Spacing.head?_packed, dropWhile_eq_self hhead, List.takeWhile_append_dropWhile]

theorem exists_dots (t : String) : ∃ dots, (∀ c ∈ dots, c = '.') ∧
    argumentText t = dots ++ Spacing.normalize t.toList := by
  refine ⟨(argumentText t).takeWhile (· == '.'), fun c hc => ?_, ?_⟩
  · simpa using List.mem_takeWhile_imp hc
  · rw [Spacing.normalize_eq, ← argumentText, List.takeWhile_append_dropWhile]

/-- A type argument is understood unless there is a separator in front of it. -/
theorem IsArgument.understood_iff (h : IsArgument t) :
    Descriptor.Understood (argumentText t) ↔ startsWithSeparator t = false := by
  rw [startsWithSeparator, ← head?_argumentText]
  constructor
  · intro hunderstood
    have hstart := hunderstood.head?
    cases hhead : (argumentText t).head? with
    | none => rfl
    | some c =>
      rw [hhead] at hstart
      have hc : c ≠ '.' := by
        rintro rfl
        exact absurd hstart (by decide)
      simp [hc]
  · intro hhead
    obtain ⟨dots, hdots, heq⟩ := exists_dots t
    cases dots with
    | nil => exact heq ▸ h.normal
    | cons d dots =>
      obtain rfl := hdots d (by simp)
      simp [heq] at hhead

/-! ## Arguments in a list -/

theorem IsArgument.core (h : IsArgument t) : ∃ array core,
    Shape.arrayRank? array = some (standard.parse t).arrayRank ∧
      Shape.Core array (argumentText t) core := by
  obtain ⟨shape, array, core, hspells, hcore, hrank⟩ := h.normal.core
  obtain ⟨dots, hdots, heq⟩ := exists_dots t
  have hplain : ∀ c ∈ dots, c ≠ '<' ∧ c ≠ '>' ∧ c ≠ ',' := fun c hc => hdots c hc ▸ by decide
  refine ⟨array, dots ++ core, ?_, by rw [heq, hcore.text, List.append_assoc],
    .append (.of_forall fun c hc => ⟨(hplain c hc).1, (hplain c hc).2.1⟩) hcore.balanced,
    .append (.of_forall hplain) hcore.unsplit⟩
  rw [parse_bare h.isBare, hrank, hspells.array]

theorem IsArgument.balanced (h : IsArgument t) : Balanced '<' '>' (argumentText t) := by
  obtain ⟨array, core, harray, hcore⟩ := h.core
  rw [hcore.text]
  refine hcore.balanced.append (.of_forall fun c hc => ⟨?_, ?_⟩) <;> rintro rfl
  · exact (Shape.not_mem_array harray).1 hc
  · exact (Shape.not_mem_array harray).2 hc

theorem IsArgument.ne_nil (h : IsArgument t) : argumentText t ≠ [] := by
  obtain ⟨dots, -, heq⟩ := exists_dots t
  have hstart := h.normal.head?
  intro hempty
  rw [hempty] at heq
  simp [(List.append_eq_nil_iff.1 heq.symm).2] at hstart

theorem isTrimmed_argumentText (t : String) : IsTrimmed (argumentText t) := by
  obtain ⟨dots, hdots, heq⟩ := exists_dots t
  have htight := Spacing.tight_normalize t.toList
  rw [heq]
  cases dots with
  | nil => exact htight.isTrimmed
  | cons d dots =>
    have hsolid : IsSolid (d :: dots) := ⟨by simp, fun c hc => hdots c hc ▸ by decide⟩
    exact ((Spacing.tight_of_isSolid hsolid).append htight).isTrimmed

/-- An argument stays whole unless it is an array of rank two. -/
theorem IsArgument.splitChars_eq (h : IsArgument t) (hrank : (standard.parse t).arrayRank ≠ 2) :
    Arguments.splitChars (argumentText t) = [argumentText t] := by
  obtain ⟨array, core, harray, hcore⟩ := h.core
  have hcomma : Arguments.Unsplit 0 array := by
    refine .of_forall fun c hc => ⟨?_, ?_, ?_⟩ <;> rintro rfl
    · exact (Shape.not_mem_array harray).1 hc
    · exact (Shape.not_mem_array harray).2 hc
    · obtain ⟨rfl, -⟩ | ⟨-, htwo⟩ | ⟨digits, hdigits, rfl, -⟩ := Shape.arrayRank?_eq_some harray
      · simp at hc
      · exact hrank htwo
      · have hdigit : ',' ∉ digits :=
          fun hmem => Shape.isDecimalDigit_ne (hdigits _ hmem) (by decide) rfl
        simp [hdigit] at hc
  refine Arguments.splitChars_of_unsplit ?_ (isTrimmed_argumentText t) h.ne_nil
  rw [hcore.text]
  exact hcore.unsplit.append hcomma

/-- An array of rank two falls into two pieces. -/
theorem IsArgument.splitChars_of_rank (h : IsArgument t)
    (hrank : (standard.parse t).arrayRank = 2) :
    ∃ piece, Arguments.splitChars (argumentText t) = [piece, [']']] := by
  obtain ⟨array, core, harray, hcore⟩ := h.core
  rw [hrank] at harray
  obtain ⟨-, hzero⟩ | ⟨rfl, -⟩ | ⟨digits, -, -, hone⟩ := Shape.arrayRank?_eq_some harray
  · exact absurd hzero (by decide)
  · have hpieces : Arguments.pieces 0 (argumentText t) = [core ++ ['['], [']']] := by
      rw [hcore.text]
      exact hcore.unsplit _ _ _ rfl
    have hclose : trim [']'] = [']'] := by decide
    have hne : trim (core ++ ['[']) ≠ [] := by
      intro hempty
      obtain ⟨before, after, hbefore, hafter, heq⟩ := exists_trim (core ++ ['['])
      have hmem : '[' ∈ before ++ after := by
        rw [hempty, List.nil_append] at heq
        simp [← heq]
      exact absurd ((List.mem_append.1 hmem).elim (hbefore _) (hafter _)) (by decide)
    exact ⟨trim (core ++ ['[']), by simp [Arguments.splitChars, hpieces, hclose, hne]⟩
  · exact absurd hone (by decide)

/-! ## Joined arguments -/

/-- No declaration that is understood ends in an open array suffix with a word in it. -/
theorem IsArgument.not_suffix (h : IsArgument t) {w : List Char} (hne : w ≠ [])
    (hw : ∀ c ∈ w, c.isAlpha = true) : ¬ '[' :: w <:+ t.toList := by
  rintro ⟨u, hu⟩
  have halnum : ∀ c ∈ w, c.isAlphanum = true := fun c hc => by simp [Char.isAlphanum, hw c hc]
  have hpacked : Spacing.packed w = w :=
    Spacing.packed_of_forall fun c hc => isBlank_of_isAlphanum (halnum c hc)
  have hcolon : ':' ∉ w := fun hmem => absurd (hw ':' hmem) (by decide)
  have htext : argumentText t = Spacing.packed (Name.dotted u) ++ '[' :: w := by
    rw [argumentText, ← hu, Name.dotted_append_cons (by decide), Name.dotted_eq_self hcolon,
      Spacing.packed_append_cons (by decide), hpacked]
  obtain ⟨dots, hdots, heq⟩ := exists_dots t
  have hbracket : '[' ∈ Spacing.normalize t.toList := by
    have hmem : '[' ∈ dots ++ Spacing.normalize t.toList := by
      rw [← heq, htext]
      simp
    refine (List.mem_append.1 hmem).resolve_left fun hin => ?_
    exact absurd (hdots _ hin) (by decide)
  obtain ⟨c, hc⟩ : ∃ c, w.getLast? = some c := ⟨_, List.getLast?_eq_some_getLast hne⟩
  have hlast : (Spacing.normalize t.toList).getLast? = some c := by
    have hwhole : (dots ++ Spacing.normalize t.toList).getLast? = some c := by
      rw [← heq, htext]
      simp [List.getLast?_append, List.getLast?_cons, hc]
    rwa [List.getLast?_append_of_ne_nil _ (List.ne_nil_of_mem hbracket)] at hwhole
  have hword : Shape.continuesName c = true := by
    have hc := halnum c (List.mem_of_getLast? hc)
    simp [Shape.continuesName, Shape.isWordChar_of_alphanumeric hc]
  obtain ⟨shape, array, core, hspells, -, -⟩ := h.normal.core
  rw [hspells.eq_name ⟨c, hlast, hword⟩] at hbracket
  exact absurd (hspells.continuesName _ hbracket) (by decide)

/-- In front of the comma of a known token there is a bracket with a word. -/
theorem exists_word_of_builtin {a : Annotation} (ha : a ∈ Annotation.builtin) {x y : List Char}
    (htoken : a.token = x ++ ',' :: y) :
    ∃ w, x = '[' :: w ∧ w ≠ [] ∧ ∀ c ∈ w, c.isAlpha = true := by
  have hcount : ∀ a ∈ Annotation.builtin, a.token.count ',' ≤ 1 := by decide +kernel
  have hfront : ∀ a ∈ Annotation.builtin, ',' ∈ a.token →
      (a.token.takeWhile (· != ',')).head? = some '[' ∧
        (a.token.takeWhile (· != ',')).tail ≠ [] ∧
        ∀ c ∈ (a.token.takeWhile (· != ',')).tail, c.isAlpha = true := by
    decide +kernel
  have hx : ',' ∉ x := by
    intro hmem
    have hmany := hcount a ha
    have hpos := List.count_pos_iff.2 hmem
    rw [htoken, List.count_append, List.count_cons_self] at hmany
    omega
  have htake : a.token.takeWhile (· != ',') = x := by
    rw [htoken]
    refine (Shape.splitWhile (fun c hc => ?_) (by simp)).1
    simpa using fun h : c = ',' => hx (h ▸ hc)
  obtain ⟨hhead, hne, hword⟩ := hfront a ha (by simp [htoken])
  rw [htake] at hhead hne hword
  cases x with
  | nil => simp at hhead
  | cons c w =>
    obtain rfl : c = '[' := by simpa using hhead
    exact ⟨w, rfl, hne, hword⟩

theorem isBare_nil : IsBare [] :=
  ⟨fun a _ => Annotation.not_infix_nil a, rfl, by decide⟩

theorem IsBare.cons_blank {s : List Char} (h : IsBare s) : IsBare (' ' :: s) := by
  refine isBare_nil.append_cons h (by decide) (fun a ha x y htoken hx => ?_) (by decide)
  have hcomma := comma_mem_of_builtin ha htoken
  simp [List.suffix_nil.1 hx] at hcomma

/-- Nothing has to be taken out of a list of arguments. -/
theorem isBare_intercalate (hts : ∀ t ∈ ts, IsArgument t) :
    IsBare (", ".toList.intercalate (ts.map String.toList)) := by
  induction ts with
  | nil => exact isBare_nil
  | cons t ts ih =>
    have ht := hts t (by simp)
    have hrest := ih fun u hu => hts u (List.mem_cons_of_mem t hu)
    cases ts with
    | nil => simpa using ht.isBare
    | cons u us =>
      have hjoin : ", ".toList.intercalate ((t :: u :: us).map String.toList) =
          t.toList ++ ',' :: ' ' :: ", ".toList.intercalate ((u :: us).map String.toList) := by
        simp [List.intercalate_cons_cons]
      rw [hjoin]
      refine ht.isBare.append_cons hrest.cons_blank (by decide) (fun a ha x y htoken hx => ?_)
        (by decide)
      -- a token over the comma would leave an open bracket with a word at the end of `t`
      obtain ⟨w, rfl, hne, hw⟩ := exists_word_of_builtin ha htoken
      exact ht.not_suffix hne hw hx

theorem isBare_nested (hts : ∀ t ∈ ts, IsArgument t) : IsBare (nested ts).toList := by
  have hname : IsBare "Name".toList := by decide +kernel
  have hangle : ∀ c, c = '<' ∨ c = '>' → ∀ a ∈ Annotation.builtin, ∀ x y,
      a.token ≠ x ++ c :: y := by
    have hnone : ∀ a ∈ Annotation.builtin, '<' ∉ a.token ∧ '>' ∉ a.token := by decide +kernel
    intro c hc a ha x y htoken
    rcases hc with rfl | rfl
    · exact (hnone a ha).1 (by simp [htoken])
    · exact (hnone a ha).2 (by simp [htoken])
  have hlist : IsBare (", ".toList.intercalate (ts.map String.toList) ++ '>' :: []) :=
    (isBare_intercalate hts).append_cons isBare_nil (by decide)
      (fun a ha x y htoken _ => hangle '>' (.inr rfl) a ha x y htoken) (by decide)
  have hwhole := hname.append_cons hlist (c := '<') (by decide)
    (fun a ha x y htoken _ => hangle '<' (.inl rfl) a ha x y htoken) (by decide)
  simpa [nested] using hwhole

/-- The normal form of a list of arguments is made of those of the arguments. -/
theorem packed_intercalate (ts : List String) :
    Spacing.packed (Name.dotted (", ".toList.intercalate (ts.map String.toList))) =
      [','].intercalate (ts.map argumentText) := by
  have hjoin : ∀ s t : List Char, Spacing.packed (Name.dotted (s ++ ',' :: ' ' :: t)) =
      Spacing.packed (Name.dotted s) ++ ',' :: Spacing.packed (Name.dotted t) := by
    intro s t
    have hblank : Name.dotted (' ' :: t) = ' ' :: Name.dotted t :=
      Name.dotted_append_cons (by decide) [] t
    rw [Name.dotted_append_cons (by decide), hblank, Spacing.packed_append_comma]
  rw [Spacing.map_intercalate (f := fun s => Spacing.packed (Name.dotted s)) rfl hjoin,
    List.map_map]
  rfl

theorem normalize_nested (ts : List String) :
    Spacing.normalize (nested ts).toList =
      "Name".toList ++ '<' :: ([','].intercalate (ts.map argumentText) ++ ['>']) := by
  have htext : (nested ts).toList =
      "Name".toList ++ '<' :: (", ".toList.intercalate (ts.map String.toList) ++ '>' :: []) := by
    simp [nested]
  have hname : Spacing.packed (Name.dotted "Name".toList) = "Name".toList := by decide +kernel
  rw [Spacing.normalize_eq, htext, Name.dotted_append_cons (by decide),
    Name.dotted_append_cons (by decide), Spacing.packed_append_cons (by decide),
    Spacing.packed_append_cons (by decide), packed_intercalate, hname]
  simp [Name.dotted]

/-! ## Reading a list of arguments -/

/-- A list of arguments is read as a name with a descriptor for each piece of it. -/
theorem parse_nested_eq (hts : ∀ t ∈ ts, IsArgument t) :
    standard.parse (nested ts) =
      { toTypeForm := Descriptor.formOfShape { raw := nested ts } ⟨"Name".toList, [], false,
          some ([','].intercalate (ts.map argumentText)), [], 0⟩
        arguments := (ts.flatMap fun t => Arguments.splitChars (argumentText t)).map fun piece =>
          Descriptor.ofText (Descriptor.argumentBase piece) piece } := by
  have hsplit : Arguments.splitChars ([','].intercalate (ts.map argumentText)) =
      ts.flatMap fun t => Arguments.splitChars (argumentText t) := by
    rw [Arguments.splitChars_intercalate, List.flatMap_map]
    intro s hs
    obtain ⟨t, ht, rfl⟩ := List.mem_map.1 hs
    exact (hts t ht).balanced
  rw [parse_bare (isBare_nested hts), normalize_nested]
  have hrank : Shape.arrayRank? [] = some 0 := rfl
  rw [← hsplit]
  refine Descriptor.ofText_of_parts (m := []) (by decide) (by decide +kernel) (by simp) hrank
    (some ([','].intercalate (ts.map argumentText))) (by simp [Shape.bracketed]) ?_
  simp [Descriptor.repairSystem, behind?]

/-- What is read as a type argument differs from what is read on its own in the text and the role
only. -/
theorem IsArgument.ofText_eq (h : IsArgument t) (hstart : startsWithSeparator t = false) :
    Descriptor.ofText (Descriptor.argumentBase (argumentText t)) (argumentText t) =
      { standard.parse t with raw := String.ofList (argumentText t), isArgument := true } := by
  have htext : argumentText t = Spacing.normalize t.toList := by
    obtain ⟨dots, hdots, heq⟩ := exists_dots t
    rw [startsWithSeparator, ← head?_argumentText] at hstart
    cases dots with
    | nil => exact heq
    | cons d dots =>
      obtain rfl := hdots d (by simp)
      simp [heq] at hstart
  rw [parse_bare h.isBare, ← htext]
  exact Descriptor.ofText_argument { raw := t } (String.ofList (argumentText t)) (argumentText t)

theorem IsArgument.length_splitChars (h : IsArgument t) :
    (Arguments.splitChars (argumentText t)).length =
      if (standard.parse t).arrayRank == 2 then 2 else 1 := by
  by_cases hrank : (standard.parse t).arrayRank = 2
  · obtain ⟨piece, hpieces⟩ := h.splitChars_of_rank hrank
    simp [hpieces, hrank]
  · simp [h.splitChars_eq hrank, hrank]

theorem length_flatMap_splitChars (hts : ∀ t ∈ ts, IsArgument t) :
    (ts.flatMap fun t => Arguments.splitChars (argumentText t)).length =
      ts.length + ts.countP fun t => (standard.parse t).arrayRank == 2 := by
  induction ts with
  | nil => rfl
  | cons t ts ih =>
    rw [List.flatMap_cons, List.length_append, (hts t (by simp)).length_splitChars,
      ih fun u hu => hts u (List.mem_cons_of_mem t hu), List.length_cons, List.countP_cons]
    split <;> omega

/-- All that an argument is split into is understood exactly if it stays whole and has no separator
in front. -/
theorem IsArgument.understood_splitChars (h : IsArgument t) :
    (∀ piece ∈ Arguments.splitChars (argumentText t), Descriptor.Understood piece) ↔
      (standard.parse t).arrayRank ≠ 2 ∧ startsWithSeparator t = false := by
  by_cases hrank : (standard.parse t).arrayRank = 2
  · obtain ⟨piece, hpieces⟩ := h.splitChars_of_rank hrank
    have hclose : ¬ Descriptor.Understood [']'] := fun hread => absurd hread.head? (by decide)
    simp [hpieces, hrank, hclose]
  · simp [h.splitChars_eq hrank, hrank, h.understood_iff]

/-- A type argument is read as it is on its own, unless it is an array of rank two or starts with a
separator; an array of rank two is taken for two arguments. -/
theorem parse_nested (hts : ∀ t ∈ ts, IsArgument t) :
    let d := standard.parse (nested ts)
    d.isAmbiguous = false ∧ d.fullName = "Name" ∧
      d.arguments.length = ts.length + ts.countP (fun t => (standard.parse t).arrayRank == 2) ∧
      (d.firstAmbiguous? = none ↔
        ∀ t ∈ ts, (standard.parse t).arrayRank ≠ 2 ∧ startsWithSeparator t = false) ∧
      (d.firstAmbiguous? = none → d.arguments = ts.map fun t =>
        { standard.parse t with raw := String.ofList (argumentText t), isArgument := true }) := by
  intro d
  have hd : d = _ := parse_nested_eq hts
  have hunderstood : d.firstAmbiguous? = none ↔
      ∀ t ∈ ts, (standard.parse t).arrayRank ≠ 2 ∧ startsWithSeparator t = false := by
    have hpieces : d.firstAmbiguous? = none ↔
        ∀ t ∈ ts, ∀ piece ∈ Arguments.splitChars (argumentText t), Descriptor.Understood piece := by
      rw [hd, Descriptor.firstAmbiguous?_eq_none]
      simp only [List.forall_mem_map, List.mem_flatMap, forall_exists_index, and_imp]
      constructor
      · rintro ⟨-, hread⟩ t ht piece hpiece
        have hnone := hread piece t ht hpiece
        rw [Descriptor.firstAmbiguous?_ofText_eq_none rfl] at hnone
        exact hnone.resolve_left (Descriptor.ne_nil_of_mem_splitChars hpiece)
      · refine fun hread => ⟨rfl, fun piece t ht hpiece => ?_⟩
        rw [Descriptor.firstAmbiguous?_ofText_eq_none rfl]
        exact .inr (hread t ht piece hpiece)
    rw [hpieces]
    exact forall₂_congr fun t ht => (hts t ht).understood_splitChars
  have hname : String.ofList (trimWith (· == '.') "Name".toList) = "Name" := by decide +kernel
  refine ⟨by rw [hd]; rfl, by rw [hd]; exact hname, ?_, hunderstood, fun hnone => ?_⟩
  · rw [hd, List.length_map, length_flatMap_splitChars hts]
  · have hwhole : (ts.flatMap fun t => Arguments.splitChars (argumentText t)) =
        ts.map argumentText := by
      rw [List.map_eq_flatMap]
      refine List.flatMap_congr fun t ht => (hts t ht).splitChars_eq ?_
      exact (hunderstood.1 hnone t ht).1
    rw [hd, hwhole, List.map_map]
    refine List.map_congr_left fun t ht => (hts t ht).ofText_eq ?_
    exact (hunderstood.1 hnone t ht).2

/-- Two arguments on their own, three in a list. -/
theorem parse_nested_ranked :
    (∀ t ∈ ["std::map<Key, Value*>&", "double[,]"], IsArgument t) ∧
      (standard.parse "Name<std::map<Key, Value*>&, double[,]>").arguments.length = 3 ∧
      (standard.parse "Name<std::map<Key, Value*>&, double[,]>").firstAmbiguous? ≠ none := by
  have hts : ∀ t ∈ ["std::map<Key, Value*>&", "double[,]"], IsArgument t := by decide +kernel
  have hnested : nested ["std::map<Key, Value*>&", "double[,]"] =
      "Name<std::map<Key, Value*>&, double[,]>" := by decide +kernel
  have hrank : (standard.parse "double[,]").arrayRank = 2 := by decide +kernel
  obtain ⟨-, -, hlength, hunderstood, -⟩ := parse_nested hts
  rw [hnested] at hlength hunderstood
  refine ⟨hts, hlength.trans (by decide +kernel), fun hnone => ?_⟩
  exact (hunderstood.1 hnone "double[,]" (by simp)).1 hrank

end DeclarationParser

end TypeAtlas
