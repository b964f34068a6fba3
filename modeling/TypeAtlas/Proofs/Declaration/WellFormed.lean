import TypeAtlas.Proofs.Declaration.Layout
import TypeAtlas.Proofs.Declaration.Settled
import TypeAtlas.Proofs.Name.Scopes

/-!
# Well-formed types

Whatever a declaration is, the type that is read from it is well formed at all its levels: its names
are in normal form, a level that was not understood is nothing but a name, and one that was
understood has a qualified name and decorations that go with each other. The normal form of a
declaration has no double colon, and every text that is cut out of it for a type argument is in
normal form like the whole.

## Main definitions

* `Spacing.Normal` — a text without double colons, with the spacing of the normal form.
* `Descriptor.IsUnread`, `Descriptor.IsNamed` — a level that is nothing but a name, and one with a
  qualified name.
* `Descriptor.WellFormed` — a well-formed level of a type.
* `Descriptor.Throughout` — a condition on all levels of a type.

The main statement is `DeclarationParser.wellFormed_parse`.
-/

namespace TypeAtlas

open Text

/-! ## Texts in normal form -/

namespace Spacing

variable {s t : List Char} {c previous : Char}

/-- Not both of two characters are colons. -/
def Uncoupled (a b : Char) : Prop :=
  ¬ (a = ':' ∧ b = ':')

theorem not_infix_of_isChain (h : s.IsChain Uncoupled) : ¬ [':', ':'] <:+: s := by
  intro hin
  have hpair := h.infix hin
  simp [Uncoupled] at hpair

/-- A dot is put for every double colon, so that none is left. -/
theorem isChain_dotted (s : List Char) :
    (Name.dotted s).IsChain Uncoupled ∧
      ((Name.dotted s).head? = some ':' → s.head? = some ':') := by
  fun_induction Name.dotted s with
  | case1 s ih =>
    refine ⟨List.isChain_cons.2 ⟨?_, ih.1⟩, by simp⟩
    exact fun _ _ => by simp [Uncoupled]
  | case2 c s hsingle ih =>
    refine ⟨List.isChain_cons.2 ⟨?_, ih.1⟩, by simp⟩
    rintro d hd ⟨rfl, rfl⟩
    -- a colon in front of another one would have been read with it
    cases s with
    | nil => simp [Name.dotted] at hd
    | cons d s => exact hsingle s rfl (by rw [Option.some.inj (ih.2 hd)])
  | case3 => simp

/-- A blank between two colons is not taken out, since they are no punctuation. -/
theorem isChain_layout (pending : Bool) (hs : s.IsChain Uncoupled)
    (hprevious : pending = false → ∀ c ∈ s.head?, Uncoupled previous c) :
    (previous :: layout previous pending s).IsChain Uncoupled := by
  have hblank : ∀ c, Uncoupled c ' ' ∧ Uncoupled ' ' c := by simp [Uncoupled]
  induction s generalizing previous pending with
  | nil => simp [layout]
  | cons c s ih =>
    obtain ⟨hnext, hrest⟩ := List.isChain_cons.1 hs
    have hbehind := @ih c false hrest fun _ => hnext
    rw [layout]
    split
    · exact ih true hrest (by simp)
    · split
      · exact .cons_cons (hblank previous).1 (.cons_cons (hblank c).2 hbehind)
      · next hdirect =>
        refine .cons_cons ?_ hbehind
        cases pending with
        | false => exact hprevious rfl c (by simp)
        | true =>
          rintro ⟨rfl, rfl⟩
          exact hdirect (by decide)

/-- A text without double colons, with the spacing of the normal form. -/
structure Normal (s : List Char) : Prop where
  tight : Tight s
  uncoupled : ¬ [':', ':'] <:+: s

theorem normal_normalize (s : List Char) : Normal (normalize s) := by
  refine ⟨tight_normalize s, fun hin => ?_⟩
  rw [normalize_eq] at hin
  have hpacked : (packed (Name.dotted s)).IsChain Uncoupled := by
    refine (isChain_layout false (isChain_dotted s).1 fun _ c _ => ?_).of_cons
    simp [Uncoupled]
  exact not_infix_of_isChain hpacked (hin.trans (List.dropWhile_suffix _).isInfix)

/-- Punctuation parts a text in normal form into two others. -/
theorem Normal.cut (hc : isPunctuation c = true) (h : Normal (s ++ c :: t)) :
    Normal s ∧ Normal t := by
  refine ⟨⟨h.tight.left hc, fun hin => ?_⟩, h.tight.right hc, fun hin => ?_⟩
  · exact h.uncoupled (hin.trans (List.prefix_append s (c :: t)).isInfix)
  · exact h.uncoupled (hin.trans ((List.suffix_cons c t).trans (List.suffix_append s _)).isInfix)

/-- The dot behind `System` does not matter for the normal form. -/
theorem Normal.repairSystem (h : Normal s) : Normal (Descriptor.repairSystem s) := by
  refine ⟨Descriptor.tight_repairSystem h.tight, ?_⟩
  rcases Descriptor.repairSystem_cases s with hs | ⟨c, cs, -, hs, hrepaired⟩
  · rw [hs]
    exact h.uncoupled
  · have hsystem : ∀ d ∈ [':', ':'].head?, d ∉ "System.".toList := by decide
    rw [hrepaired, infix_append_left (by simp) hsystem]
    exact fun hin => h.uncoupled (hs ▸ hin.trans (List.suffix_append _ _).isInfix)

theorem Normal.of_mem_splitChars {piece : List Char} (h : Normal s)
    (hpiece : piece ∈ Arguments.splitChars s) : Normal piece :=
  Arguments.forall_mem_splitChars (fun _ _ hp => hp.cut (by decide))
    (fun _ hp => trim_eq_self hp.tight.isTrimmed) h piece hpiece

theorem Tight.isSpaced (h : Tight s) {a b : Char} (hin : [a, b] <:+: s) (ha : isBlank a = true) :
    isBlank b = false := by
  have hfits : Fits a b := by simpa using h.isChain.infix hin
  exact (hfits.1 ha).1

/-- The type arguments of a text in normal form are in normal form. -/
theorem Normal.arguments {shape : Shape} (h : Normal s) (hshape : Shape.ofText? s = some shape)
    {a piece : List Char} (ha : a ∈ shape.arguments) (hpiece : piece ∈ Arguments.splitChars a) :
    Normal piece := by
  obtain ⟨array, hspells⟩ := Shape.spells_of_ofText? hshape
  obtain ⟨before, after, rfl⟩ := hspells.exists_brackets ha
  have hinner := (h.cut (by decide)).2
  exact (hinner.cut (by decide)).1.of_mem_splitChars hpiece

end Spacing

/-! ## Levels of a type -/

namespace Descriptor

/-- A level that was not understood: nothing but a name. -/
structure IsUnread (d : Descriptor) : Prop where
  fullName : d.fullName ≠ ""
  typeName : d.typeName = d.fullName
  scope : d.scope = ""
  isGeneric : d.isGeneric = false
  isPointer : d.isPointer = false
  isArray : d.isArray = false
  arguments : d.arguments = []

/-- A level with a qualified name. -/
structure IsNamed (d : Descriptor) : Prop where
  characters : ∀ c ∈ d.fullName.toList,
    isWordChar c = true ∨ c = '$' ∨ c = '@' ∨ c = ' ' ∨ c = '.'
  first : ∀ c ∈ d.fullName.toList.head?, c ≠ '.'
  last : ∀ c ∈ d.fullName.toList.getLast?, c ≠ '.'
  typeName : '.' ∉ d.typeName.toList
  qualified : d.fullName = Name.qualify d.scope d.typeName

/-- A well-formed level of a type. -/
structure WellFormed (d : Descriptor) : Prop where
  uncoupled : ¬ [':', ':'] <:+: d.fullName.toList
  isTrimmed : IsTrimmed d.fullName.toList
  isSpaced : ∀ a b, [a, b] <:+: d.fullName.toList → isBlank a = true → isBlank b = false
  isUnread : d.isAmbiguous = true → d.IsUnread
  isNamed : d.isAmbiguous = false → d.fullName ≠ "" → d.IsNamed
  pointerDepth : d.pointerDepth ≤ 2
  isPointer : d.isPointer = true ↔ 0 < d.pointerDepth
  isArray : d.isArray = true ↔ d.arrayRank = 1 ∨ d.arrayRank = 2
  arrayRank : d.isArray = false → d.arrayRank = 0
  isGeneric : d.arguments ≠ [] → d.isGeneric = true
  arguments : ∀ e ∈ d.arguments, e.isArgument = true ∧ e.fullName ≠ ""

/-- A condition that holds of a type, of its arguments, of their arguments and so on. -/
inductive Throughout (P : Descriptor → Prop) : Descriptor → Prop where
  | intro {d : Descriptor} (level : P d) (arguments : ∀ e ∈ d.arguments, Throughout P e) :
      Throughout P d

variable {base : TypeForm} {s : List Char} {shape : Shape}

/-- A level of which at most the declaration, its marks and its keywords are known. -/
structure IsFresh (base : TypeForm) : Prop where
  isArray : base.isArray = false
  arrayRank : base.arrayRank = 0
  isPointer : base.isPointer = false
  pointerDepth : base.pointerDepth = 0
  isGeneric : base.isGeneric = false
  isAmbiguous : base.isAmbiguous = false

theorem isFresh_argumentBase (s : List Char) : IsFresh (argumentBase s) :=
  ⟨rfl, rfl, rfl, rfl, rfl, rfl⟩

/-- A text that is not understood is the name of the level that is read from it. -/
theorem wellFormed_formOfUnknown (hbase : IsFresh base) (h : Spacing.Normal s) :
    WellFormed { toTypeForm := formOfUnknown base s } := by
  constructor
  case uncoupled => simpa [formOfUnknown] using h.uncoupled
  case isTrimmed => simpa [formOfUnknown] using h.tight.isTrimmed
  case isSpaced =>
    intro a b hin
    exact h.tight.isSpaced (by simpa [formOfUnknown] using hin)
  case isUnread =>
    intro hambiguous
    have hne : s ≠ [] := by simpa [formOfUnknown] using hambiguous
    exact ⟨by simpa [formOfUnknown] using hne, rfl, rfl, hbase.isGeneric, hbase.isPointer,
      hbase.isArray, rfl⟩
  case isNamed =>
    -- a level without a name is the only one that is not ambiguous
    intro hplain hname
    have hempty : s = [] := by simpa [formOfUnknown] using hplain
    simp [formOfUnknown, hempty] at hname
  case pointerDepth => simp [formOfUnknown, hbase.pointerDepth]
  case isPointer => simp [formOfUnknown, hbase.isPointer, hbase.pointerDepth]
  case isArray => simp [formOfUnknown, hbase.isArray, hbase.arrayRank]
  case arrayRank => exact fun _ => hbase.arrayRank
  case isGeneric => simp
  case arguments => simp

/-- The name that is cut out of an understood text is qualified. -/
theorem isNamed_formOfShape (hshape : Shape.ofText? s = some shape)
    (arguments : List Descriptor) :
    IsNamed { toTypeForm := formOfShape base shape, arguments } := by
  obtain ⟨array, hspells⟩ := Shape.spells_of_ofText? hshape
  obtain ⟨n, dots, htrim, heq, -, hstart, hlast, -⟩ := Shape.exists_trimmed_name hshape
  have hname : (formOfShape base shape).fullName = String.ofList n := by rw [formOfShape, htrim]
  have hfirst : ∀ c ∈ n.head?, c ≠ '.' := by simpa using Shape.head?_beq_dot hstart
  refine ⟨?_, ?_, ?_, Name.not_mem_short _, ?_⟩
  · intro c hc
    rw [hname, String.toList_ofList] at hc
    have hcontinues := hspells.continuesName c (heq ▸ List.mem_append_left dots hc)
    simpa [Shape.continuesName, or_assoc] using hcontinues
  · simpa [hname] using hfirst
  · simpa [hname] using hlast
  · refine (Name.qualify_split ?_).symm
    simpa [hname] using hfirst

/-- What is read from a text that is not empty has a name. -/
theorem fullName_ofText_ne_empty (base : TypeForm) (hs : s ≠ []) :
    (ofText base s).fullName ≠ "" := by
  have hne : ∀ n : List Char, n ≠ [] → String.ofList n ≠ "" := by
    intro n hn hempty
    exact hn (by simpa using congrArg String.toList hempty)
  cases hshape : Shape.ofText? (repairSystem s) with
  | none =>
    rw [ofText_of_none hshape]
    exact hne _ fun hempty => hs (repairSystem_eq_nil.1 hempty)
  | some shape =>
    obtain ⟨n, -, htrim, -, -, hstart, -⟩ := Shape.exists_trimmed_name hshape
    rw [ofText_of_shape hshape, formOfShape, htrim]
    refine hne n ?_
    rintro rfl
    simp at hstart

/-- The level that is read from an understood text. -/
theorem wellFormed_formOfShape (hbase : IsFresh base) (h : Spacing.Normal s)
    (hshape : Shape.ofText? s = some shape) :
    WellFormed
      { toTypeForm := formOfShape base shape, arguments := argumentsOf shape.arguments } := by
  obtain ⟨array, hspells⟩ := Shape.spells_of_ofText? hshape
  obtain ⟨n, dots, htrim, heq, -, -, -, htight⟩ := Shape.exists_trimmed_name hshape
  have hname : (formOfShape base shape).fullName = String.ofList n := by rw [formOfShape, htrim]
  have hrank : shape.arrayRank ≤ 2 := by
    obtain ⟨-, hrank⟩ | ⟨-, hrank⟩ | ⟨-, -, -, hrank⟩ := Shape.arrayRank?_eq_some hspells.array
      <;> omega
  have hin : n <:+: s := by
    rw [hspells.text, heq, List.append_assoc]
    exact (List.prefix_append _ _).isInfix
  constructor
  case uncoupled => simpa [hname] using fun hcolons => h.uncoupled (hcolons.trans hin)
  case isTrimmed => simpa [hname] using (htight h.tight).isTrimmed
  case isSpaced => simpa [hname] using fun a b => (htight h.tight).isSpaced
  case isUnread =>
    intro hambiguous
    simp [formOfShape, hbase.isAmbiguous] at hambiguous
  case isNamed => exact fun _ _ => isNamed_formOfShape hshape _
  case pointerDepth => exact Nat.min_le_right _ _
  case isPointer =>
    show (formOfShape base shape).isPointer = true ↔ 0 < (formOfShape base shape).pointerDepth
    rw [isPointer_formOfShape, bne_iff_ne, Nat.pos_iff_ne_zero]
  case isArray =>
    simp only [formOfShape, bne_iff_ne]
    omega
  case arrayRank => simp [formOfShape]
  case isGeneric =>
    intro hne
    cases hnone : shape.arguments with
    | none => simp [argumentsOf, hnone] at hne
    | some a => simp [formOfShape, hnone]
  case arguments =>
    intro e he
    obtain ⟨a, -, piece, hpiece, rfl⟩ := mem_argumentsOf.1 he
    have hargument := ofText_argument {} (String.ofList piece) piece
    exact ⟨congrArg (fun d => d.isArgument) hargument,
      fullName_ofText_ne_empty _ (ne_nil_of_mem_splitChars hpiece)⟩

/-- What is read from a text in normal form is well formed at all levels. -/
theorem throughout_ofText {base : TypeForm} {s : List Char} (hbase : IsFresh base)
    (h : Spacing.Normal s) : Throughout WellFormed (ofText base s) := by
  have hrepaired := h.repairSystem
  cases hshape : Shape.ofText? (repairSystem s) with
  | none =>
    rw [ofText_of_none hshape]
    exact .intro (wellFormed_formOfUnknown hbase hrepaired) (by simp)
  | some shape =>
    rw [ofText_of_shape hshape]
    refine .intro (wellFormed_formOfShape hbase hrepaired hshape) fun e he => ?_
    obtain ⟨a, ha, piece, hpiece, rfl⟩ := mem_argumentsOf.1 he
    have := Shape.length_arguments hshape ha
    have := length_repairSystem_le s
    have := Arguments.length_le_of_mem_splitChars hpiece
    exact throughout_ofText (isFresh_argumentBase piece) (hrepaired.arguments hshape ha hpiece)
termination_by s.length
decreasing_by omega

end Descriptor

/-- Whatever a declaration is, the type that is read from it is well formed at all its levels. -/
theorem DeclarationParser.wellFormed_parse (parser : DeclarationParser) (raw : String) :
    (parser.parse raw).Throughout Descriptor.WellFormed := by
  have hbase : Descriptor.IsFresh (parser.clean raw).1 := by constructor <;> simp only [clean]
  rw [parse]
  exact Descriptor.throughout_ofText hbase (Spacing.normal_normalize _)

/-- A type that was understood can have arguments of both kinds. -/
example : (DeclarationParser.standard.parse "Map< ::Key, List<V :: W *>[ ] >").arguments.map
    (fun d => (d.fullName, d.isAmbiguous)) = [(".Key", true), ("List", false)] := by
  decide +kernel

end TypeAtlas
