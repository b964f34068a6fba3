import TypeAtlas.Proofs.Declaration.Bare
import TypeAtlas.Proofs.Declaration.Understood

/-!
# Names that reading leaves alone

The names that are read from an understood declaration, those of its type arguments included, are
settled: nothing in them is taken out, replaced or repaired when they are read again. Their words
are words of the declaration without its annotations and keywords.

## Main definitions

* `Segment.IsFree` — a word that is no keyword and holds no annotation.
* `Shape.IsSettled` — a name that is read as it stands.
* `Descriptor.Settled` — a type with settled names at all its levels.
* `DeclarationParser.IsReadable` — a settled type with marks that can be written.

The main statements are `Descriptor.settled_ofText` for a text in normal form and
`DeclarationParser.isReadable_parse` for a declaration.
-/

namespace TypeAtlas

open Text
open Segment (wordsIn wordsIn_append wordsIn_append_cons wordsIn_cons)

/-! ## Words that stay -/

namespace Segment

variable {s t u w : List Char}

/-- A word that is no keyword and holds no annotation. -/
structure IsFree (w : List Char) : Prop where
  keyword : Keyword.ofWord? w = none
  annotations : ∀ a ∈ Annotation.builtin, ¬ a.token <:+: w

/-- A text whose words are all free. -/
def AllFree (s : List Char) : Prop :=
  ∀ w ∈ wordsIn s, IsFree w

theorem allFree_nil : AllFree [] :=
  fun w hw => by simp at hw

theorem AllFree.append_cons {c : Char} (hc : isWordChar c = false) (hs : AllFree s)
    (ht : AllFree t) : AllFree (s ++ c :: t) := by
  unfold AllFree
  rw [wordsIn_append_cons hc]
  exact fun w hw => (List.mem_append.1 hw).elim (hs w) (ht w)

theorem AllFree.of_append_cons {c : Char} (hc : isWordChar c = false) (h : AllFree (s ++ c :: t)) :
    AllFree s ∧ AllFree t := by
  unfold AllFree at h
  rw [wordsIn_append_cons hc] at h
  exact ⟨fun w hw => h w (List.mem_append_left _ hw), fun w hw => h w (List.mem_append_right _ hw)⟩

/-- A part of a text has no further words if no word goes over the joint. -/
theorem AllFree.of_append (hjoint : ∀ c ∈ t.head?, isWordChar c = false) (h : AllFree (s ++ t)) :
    AllFree s := by
  unfold AllFree at h
  rw [wordsIn_append (.inr hjoint)] at h
  exact fun w hw => h w (List.mem_append_left _ hw)

theorem exists_first_word (hs : s.head?.any isWordChar = true) :
    ∃ first rest, wordsIn s = first :: rest ∧ first.head? = s.head? := by
  cases s with
  | nil => simp at hs
  | cons c s =>
    rw [wordsIn_cons_word (by simpa using hs)]
    split
    · exact ⟨_, _, rfl, rfl⟩
    · exact ⟨_, _, rfl, rfl⟩

/-- Characters of a word in front of a text go into its first word. -/
theorem wordsIn_append_word {first : List Char} {rest : List (List Char)}
    (hu : ∀ c ∈ u, isWordChar c = true) (hs : s.head?.any isWordChar = true)
    (hfirst : wordsIn s = first :: rest) : wordsIn (u ++ s) = (u ++ first) :: rest := by
  induction u with
  | nil => exact hfirst
  | cons c u ih =>
    have hrest := ih fun d hd => hu d (List.mem_cons_of_mem c hd)
    have hhead : (u ++ s).head?.any isWordChar = true := by
      cases u with
      | nil => exact hs
      | cons d u => simpa using hu d (by simp)
    rw [List.cons_append, wordsIn_cons_word (hu c (by simp)), if_pos hhead, hrest]
    rfl

/-- Keywords start with a small letter. -/
theorem ofWord?_of_isUpper {c : Char} (hc : c.isUpper = true) (w : List Char) :
    Keyword.ofWord? (c :: w) = none := by
  have hsmall : ∀ entry ∈ Keyword.table, entry.1.toList.head?.any Char.isUpper = false := by
    decide +kernel
  rw [Keyword.ofWord?, Option.map_eq_none_iff, List.find?_eq_none]
  intro entry hentry heq
  have hhead := hsmall entry hentry
  rw [eq_of_beq heq] at hhead
  simp [hc] at hhead

/-- The dot behind `System` makes no word that would be taken out. -/
theorem AllFree.repairSystem (h : AllFree s) : AllFree (Descriptor.repairSystem s) := by
  rcases Descriptor.repairSystem_cases s with hs | ⟨c, cs, hc, hs, hrepaired⟩
  · rwa [hs]
  · have hword := Shape.isWordChar_of_isUpper hc
    have hsystem : ∀ c ∈ "System".toList, isWordChar c = true := by decide
    have hhead : (c :: cs).head?.any isWordChar = true := by simpa using hword
    obtain ⟨first, rest, hfirst, hstart⟩ := exists_first_word hhead
    have hdot : isWordChar '.' = false := by decide
    have hwords : wordsIn (Descriptor.repairSystem s) = "System".toList :: first :: rest := by
      have hcut := wordsIn_append_cons hdot "System".toList (c :: cs)
      rw [Segment.wordsIn_of_word (by decide) hsystem, hfirst] at hcut
      rw [hrepaired]
      exact hcut
    -- without the dot, `System` and the word behind it are one word
    have hjoined : IsFree ("System".toList ++ first) ∧ ∀ w ∈ rest, IsFree w := by
      unfold AllFree at h
      rw [hs, wordsIn_append_word hsystem hhead hfirst, List.forall_mem_cons] at h
      exact h
    have hown : IsFree "System".toList := by
      refine ⟨by decide, fun a ha hin => hjoined.1.annotations a ha (hin.trans ?_)⟩
      exact (List.prefix_append _ _).isInfix
    have hbehind : IsFree first := by
      obtain ⟨w, rfl⟩ : ∃ w, first = c :: w := by
        cases first with
        | nil => simp at hstart
        | cons d w => exact ⟨w, by rw [Option.some.inj hstart]⟩
      refine ⟨ofWord?_of_isUpper hc w, fun a ha hin => hjoined.1.annotations a ha (hin.trans ?_)⟩
      exact (List.suffix_append _ _).isInfix
    unfold AllFree
    rw [hwords, List.forall_mem_cons, List.forall_mem_cons]
    exact ⟨hown, hbehind, hjoined.2⟩

end Segment

/-! ## Names that stay -/

namespace Shape

open Descriptor (repairSystem repairSystem_cases)
open Segment (AllFree)

variable {s : List Char} {shape : Shape}

/-- A name that is read as it stands. -/
structure IsSettled (name : List Char) : Prop where
  startsName : name.head?.any startsName = true
  continuesName : ∀ c ∈ name, continuesName c = true
  last : ∀ c ∈ name.getLast?, c ≠ '.'
  tight : Spacing.Tight name
  isSteady : repairSystem name = name
  allFree : AllFree name

/-- The dot behind `System` is put once. -/
theorem repairSystem_repairSystem (s : List Char) :
    repairSystem (repairSystem s) = repairSystem s := by
  rcases repairSystem_cases s with hs | ⟨c, cs, hc, -, hrepaired⟩
  · rw [hs, hs]
  · rw [hrepaired]
    have hsystem : repairSystem "System".toList = "System".toList := by decide
    exact repairSystem_append (t := '.' :: c :: cs) hsystem (by simp)

theorem repairSystem_of_prefix {n : List Char} (hs : repairSystem s = s) (hn : n <+: s) :
    repairSystem n = n := by
  rcases repairSystem_cases n with hself | ⟨c, cs, hc, heq, -⟩
  · exact hself
  · obtain ⟨rest, rfl⟩ := hn
    rw [heq, List.append_assoc, List.cons_append, repairSystem_of_isUpper hc] at hs
    simp at hs

/-- The name of an understood text, and the dots that are left out behind it. -/
theorem exists_trimmed_name (hshape : ofText? s = some shape) :
    ∃ n dots, trimWith (· == '.') shape.name = n ∧ shape.name = n ++ dots ∧
      (∀ c ∈ dots, c = '.') ∧ n.head?.any startsName = true ∧ (∀ c ∈ n.getLast?, c ≠ '.') ∧
      (Spacing.Tight s → Spacing.Tight n) := by
  obtain ⟨array, hspells⟩ := spells_of_ofText? hshape
  have hhead := head?_beq_dot hspells.startsName
  obtain ⟨dots, hdots, heq⟩ := exists_trimEnd (· == '.') shape.name
  have htrim : trimWith (· == '.') shape.name = trimEnd (· == '.') shape.name := by
    rw [trimWith, dropWhile_eq_self hhead]
  have hlast := getLast?_trimEnd (· == '.') shape.name
  refine ⟨trimEnd (· == '.') shape.name, dots, htrim, heq, fun c hc => by simpa using hdots c hc,
    ?_, fun c hc => by simpa using hlast c hc, fun htight =>
      (tight_name htight hshape).trimEnd fun c => Spacing.isPunctuation_of_beq_dot⟩
  have hstart := hspells.startsName
  cases hn : trimEnd (· == '.') shape.name with
  | cons c n => rwa [heq, hn] at hstart
  | nil =>
    -- the name would consist of dots, with which no name starts
    rw [hn, List.nil_append] at heq
    cases dots with
    | nil => simp [heq] at hstart
    | cons d dots =>
      have hdot := hdots d (by simp)
      simp [hhead d (by simp [heq])] at hdot

/-- The name of an understood text is settled. -/
theorem isSettled_name (hshape : ofText? (repairSystem s) = some shape) (htight : Spacing.Tight s)
    (hfree : AllFree s) : IsSettled (trimWith (· == '.') shape.name) := by
  obtain ⟨array, hspells⟩ := spells_of_ofText? hshape
  have hsplit : repairSystem s =
      shape.name ++ (repairSystem s).dropWhile Shape.continuesName := by
    rw [Shape.name_eq hshape, List.takeWhile_append_dropWhile]
  obtain ⟨n, dots, htrim, heq, hdots, hstart, hlast, hspacing⟩ := exists_trimmed_name hshape
  rw [htrim]
  -- a dot that is missing in the name is missing in the text
  have hprefix : n <+: repairSystem s := by
    rw [hsplit, heq, List.append_assoc]
    exact List.prefix_append _ _
  have hallFree : AllFree shape.name := by
    have hrepaired := hfree.repairSystem
    rw [hsplit] at hrepaired
    exact hrepaired.of_append fun c hc =>
      not_isWordChar_of_continuesName (head?_dropWhile_not c hc)
  refine ⟨hstart, fun c hc => hspells.continuesName c (heq ▸ List.mem_append_left _ hc), hlast,
    hspacing (Descriptor.tight_repairSystem htight),
    repairSystem_of_prefix (repairSystem_repairSystem s) hprefix, ?_⟩
  rw [heq] at hallFree
  refine hallFree.of_append fun c hc => ?_
  rw [hdots c (List.mem_of_head? hc)]
  decide

/-- The type arguments stand between two brackets of the text. -/
theorem Spells.exists_brackets {array : List Char} (h : shape.Spells array s) {a : List Char}
    (ha : a ∈ shape.arguments) : ∃ before after, s = before ++ '<' :: (a ++ '>' :: after) := by
  refine ⟨shape.name ++ (shape.asterisks ++ (bif shape.isQueried then ['?'] else [])),
    shape.marks ++ array, ?_⟩
  rw [h.text, Option.mem_def.1 ha, bracketed]
  simp

end Shape

/-! ## Types that stay -/

namespace Arguments

variable {s piece : List Char}

/-- The arguments in a list have its spacing and its words. -/
theorem of_mem_splitChars (htight : Spacing.Tight s) (hfree : Segment.AllFree s)
    (hpiece : piece ∈ splitChars s) : Spacing.Tight piece ∧ Segment.AllFree piece := by
  have hpunctuation : Spacing.isPunctuation ',' = true := by decide
  have hword : isWordChar ',' = false := by decide
  refine forall_mem_splitChars (P := fun s => Spacing.Tight s ∧ Segment.AllFree s) ?_ ?_
    ⟨htight, hfree⟩ piece hpiece
  · rintro u v ⟨htight, hfree⟩
    obtain ⟨hu, hv⟩ := hfree.of_append_cons hword
    exact ⟨⟨htight.left hpunctuation, hu⟩, htight.right hpunctuation, hv⟩
  · exact fun p hp => trim_eq_self hp.1.isTrimmed

end Arguments

namespace Descriptor

/-- A type with settled names at all its levels, and without arguments where it is not generic. -/
inductive Settled : Descriptor → Prop where
  | intro {d : Descriptor} (hname : Shape.IsSettled d.fullName.toList)
      (hgeneric : d.isGeneric = false → d.arguments = [])
      (harguments : ∀ e ∈ d.arguments, Settled e) : Settled d

/-- The type that is read from an understood text is settled. -/
theorem settled_ofText {s : List Char} (h : Understood s) (htight : Spacing.Tight s)
    (hfree : Segment.AllFree s) (base : TypeForm) : Settled (ofText base s) := by
  induction h generalizing base with
  | @intro s shape hshape _ ih =>
    rw [ofText_of_shape hshape]
    refine .intro ?_ (fun hnone => ?_) fun e he => ?_
    · simpa [formOfShape] using Shape.isSettled_name hshape htight hfree
    · have harguments : shape.arguments = none := by simpa [formOfShape] using hnone
      simp [argumentsOf, harguments]
    · obtain ⟨a, ha, piece, hpiece, rfl⟩ := mem_argumentsOf.1 he
      obtain ⟨array, hspells⟩ := Shape.spells_of_ofText? hshape
      obtain ⟨before, after, heq⟩ := hspells.exists_brackets ha
      have hopen : isWordChar '<' = false := by decide
      have hclose : isWordChar '>' = false := by decide
      have hspacing := tight_repairSystem htight
      have hwords := hfree.repairSystem
      rw [heq] at hspacing hwords
      have hinner := (hspacing.right (by decide)).left (by decide)
      have hfree := ((hwords.of_append_cons hopen).2.of_append_cons hclose).1
      obtain ⟨hpieceTight, hpieceFree⟩ := Arguments.of_mem_splitChars hinner hfree hpiece
      exact ih a ha piece hpiece hpieceTight hpieceFree _

end Descriptor

namespace DeclarationParser

open Annotation (builtin stripAll)

theorem parse_eq (s : String) :
    standard.parse s = Descriptor.ofText (standard.clean s).1 (standard.clean s).2 := by
  rw [parse]

theorem clean_text (s : String) : (standard.clean s).2 =
    Spacing.normalize (Entity.decode (Keyword.strip (stripAll builtin s.toList).1)) := by
  simp only [clean, standard]

theorem tight_clean (s : String) : Spacing.Tight (standard.clean s).2 := by
  rw [clean_text]
  exact Spacing.tight_normalize _

/-- Nothing that is taken out of a declaration is left in the words of its normal form. -/
theorem allFree_clean (s : String) : Segment.AllFree (standard.clean s).2 := by
  intro w hw
  rw [clean_text, Spacing.wordsIn_normalize] at hw
  have hmem := Entity.wordsIn_decode_subset _ hw
  rw [Keyword.wordsIn_strip, List.mem_filter] at hmem
  refine ⟨by simpa using hmem.2, fun a ha hin => ?_⟩
  have hword := Segment.isWordChar_of_mem_wordsIn hmem.1
  by_cases hblank : ' ' ∈ a.token
  · exact absurd (hword ' ' (hin.subset hblank)) (by decide)
  · refine Annotation.not_infix_stripAll ha hblank s.toList (hin.trans ?_)
    exact Segment.infix_of_mem_wordsIn hmem.1

/-- A settled type as it is read from a declaration: what is known of its outermost level follows
from its name, and its marks can be written. -/
structure IsReadable (d : Descriptor) : Prop where
  settled : d.Settled
  typeName : d.typeName = Name.short d.fullName
  scope : d.scope = (Name.split d.fullName).1
  isPointer : d.isPointer = (d.pointerDepth != 0)
  pointerDepth : d.pointerDepth ≤ 2
  arrayRank : d.arrayRank ≤ 2

/-- The type that is read from an understood declaration can be read again. -/
theorem isReadable_parse {s : String} (hname : (standard.parse s).fullName ≠ "")
    (hread : (standard.parse s).firstAmbiguous? = none) : IsReadable (standard.parse s) := by
  have hunderstood : Descriptor.Understood (standard.clean s).2 := by
    have hbase : (standard.clean s).1.isAmbiguous = false := by simp only [clean]
    rw [parse_eq, Descriptor.firstAmbiguous?_ofText_eq_none hbase] at hread
    refine hread.resolve_left fun hnil => hname ?_
    have hnone : Shape.ofText? (Descriptor.repairSystem []) = none := by decide
    rw [parse_eq, hnil, Descriptor.ofText_of_none hnone]
    rfl
  have hsettled := Descriptor.settled_ofText hunderstood (tight_clean s) (allFree_clean s)
    (standard.clean s).1
  cases hunderstood with
  | @intro _ shape hshape _ =>
    obtain ⟨array, hspells⟩ := Shape.spells_of_ofText? hshape
    have hrank : shape.arrayRank ≤ 2 := by
      obtain ⟨-, hrank⟩ | ⟨-, hrank⟩ | ⟨-, -, -, hrank⟩ := Shape.arrayRank?_eq_some hspells.array
        <;> omega
    rw [parse_eq]
    refine ⟨hsettled, ?_, ?_, ?_, ?_, ?_⟩ <;> rw [Descriptor.ofText_of_shape hshape]
    · rfl
    · rfl
    · exact Descriptor.isPointer_formOfShape _ shape
    · exact Nat.min_le_right _ _
    · exact hrank

end DeclarationParser

end TypeAtlas
