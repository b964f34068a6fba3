import TypeAtlas.Proofs.Declaration.Bare
import TypeAtlas.Proofs.Declaration.Settled

/-!
# Types written out and read back

The written form of a type that was read from an understood declaration is a bare declaration. Its
normal form is the name with the type arguments behind it, then the marks and the array suffix, so
the same type is read from it, and it is written out in the same way.

## Main definitions

* `NameTree`, `Descriptor.nameTree` — the full names of a type and of its type arguments.
* `Descriptor.packedName` — the normal form of the name with its type arguments.
* `Descriptor.reread` — a type argument as it is read from its normal form.
* `Descriptor.markText`, `Shape.arrayText` — the marks of a type as they are written.
* `Descriptor.ReadsAs` — what a type that was read back has in common with the type.

The main statement is `DeclarationParser.parse_display`.
-/

namespace TypeAtlas

open Text
open Segment (AllFree wordsIn)
open Shape (bracketed)

/-- The full names of a type and of its type arguments at all levels. -/
inductive NameTree where
  | node (name : String) (arguments : List NameTree)

/-! ## Written forms -/

namespace Shape

/-- The array suffix of a rank as it is written. -/
def arrayText : Nat → List Char
  | 0 => []
  | 2 => ['[', ',', ']']
  | _ => ['[', ']']

theorem arrayRank?_arrayText {rank : Nat} (h : rank ≤ 2) :
    arrayRank? (arrayText rank) = some rank := by
  obtain rfl | rfl | rfl : rank = 0 ∨ rank = 1 ∨ rank = 2 := by omega
  all_goals decide

theorem mem_arrayText {rank : Nat} {c : Char} (hc : c ∈ arrayText rank) :
    c = '[' ∨ c = ',' ∨ c = ']' := by
  unfold arrayText at hc
  split at hc <;> simp at hc <;> grind

end Shape

namespace Descriptor

variable {d : Descriptor}

mutual

/-- The full names of a type. -/
def nameTree (d : Descriptor) : NameTree :=
  match d with
  | ⟨form, arguments⟩ => .node form.fullName (nameTrees arguments)

/-- The full names of several types. -/
def nameTrees (ds : List Descriptor) : List NameTree :=
  match ds with
  | [] => []
  | d :: ds => nameTree d :: nameTrees ds

end

theorem nameTrees_eq (ds : List Descriptor) : nameTrees ds = ds.map nameTree := by
  induction ds with
  | nil => rfl
  | cons d ds ih => rw [nameTrees, ih, List.map_cons]

theorem nameTree_eq (d : Descriptor) :
    d.nameTree = .node d.fullName (d.arguments.map nameTree) := by
  obtain ⟨form, arguments⟩ := d
  rw [nameTree, nameTrees_eq]

theorem displayNames_eq (ds : List Descriptor) : displayNames ds = ds.map displayName := by
  induction ds with
  | nil => rfl
  | cons d ds ih => rw [displayNames, ih, List.map_cons]

/-- Texts with a separator between them, if there are any. -/
def listed (separator : List Char) : List (List Char) → Option (List Char)
  | [] => none
  | ss => some (separator.intercalate ss)

/-- The type arguments are written in angle brackets behind the full name. -/
theorem toList_displayName (h : d.isGeneric = false → d.arguments = []) :
    d.displayName.toList = d.fullName.toList ++
      bracketed (listed ", ".toList (d.arguments.map fun e => e.displayName.toList)) := by
  obtain ⟨form, arguments⟩ := d
  cases arguments with
  | nil =>
    have hplain : displayName ⟨form, []⟩ = form.fullName := by
      unfold displayName
      cases form.isGeneric <;> rfl
    simp [hplain, listed, bracketed]
  | cons e es =>
    have hgeneric : form.isGeneric = true := by
      by_contra hnot
      simpa using h (by simpa using hnot)
    have hnames : (e :: es).map (fun e => e.displayName.toList) =
        ((e :: es).map displayName).map String.toList := by simp
    have hwritten : displayName ⟨form, e :: es⟩ =
        form.fullName ++ "<" ++ ", ".intercalate ((e :: es).map displayName) ++ ">" := by
      rw [← displayNames_eq]
      conv_lhs => unfold displayName
      rw [hgeneric]
    rw [hwritten, hnames]
    simp [listed, bracketed, String.toList_intercalate]

/-- The marks of a type as they are written. -/
def markText (d : Descriptor) : List Char :=
  (if d.isRuntimeClass then ['^'] else []) ++ (List.replicate d.pointerDepth '*' ++
    ((if d.isReference then ['&'] else []) ++ (if d.isNullable then ['?'] else [])))

theorem toList_display (d : Descriptor) :
    d.display.toList = DeclarationParser.constPrefix d.qualifiers.isConst ++
      (d.displayName.toList ++ (d.markText ++ Shape.arrayText d.arrayRank)) := by
  have hsuffix : ∀ (condition : Bool) (text : String),
      (suffixIf condition text).toList = if condition then text.toList else [] := by
    intro condition text
    cases condition <;> rfl
  have harray : ∀ rank, (match rank with
      | 0 => ""
      | 2 => "[,]"
      | _ => "[]").toList = Shape.arrayText rank := by
    intro rank
    unfold Shape.arrayText
    split <;> rfl
  simp only [display, String.toList_append, String.toList_ofList, hsuffix, markText,
    List.append_assoc]
  rw [← harray]
  rfl

theorem mem_markText {c : Char} (hc : c ∈ d.markText) : c = '^' ∨ c = '*' ∨ c = '&' ∨ c = '?' := by
  simp only [markText, List.mem_append, List.mem_ite_nil_right, List.mem_singleton,
    List.mem_replicate] at hc
  grind

theorem isMark_of_mem_markText {c : Char} (hc : c ∈ d.markText) : Shape.isMark c = true := by
  obtain rfl | rfl | rfl | rfl := mem_markText hc <;> decide

/-! ## Characters and words of names -/

/-- What holds of the names and is kept when texts are joined by brackets, commas and blanks holds
of a name with its type arguments. -/
theorem Settled.displayName_induction {P : List Char → Prop} (h : Settled d) (hnil : P [])
    (hname : ∀ n, Shape.IsSettled n → P n)
    (hjoin : ∀ s t, ∀ c ∈ ['<', '>', ',', ' '], P s → P t → P (s ++ c :: t)) :
    P d.displayName.toList := by
  induction h with
  | @intro d hsettled hgeneric _ ih =>
    have hlist : ∀ es : List Descriptor, (∀ e ∈ es, P e.displayName.toList) →
        P (", ".toList.intercalate (es.map fun e => e.displayName.toList)) := by
      intro es hes
      induction es with
      | nil => exact hnil
      | cons e es ihes =>
        have hrest := ihes fun a ha => hes a (List.mem_cons_of_mem e ha)
        cases es with
        | nil => simpa using hes e (by simp)
        | cons a es =>
          have hjoined := hjoin _ _ ',' (by simp) (hes e (by simp))
            (hjoin [] _ ' ' (by simp) hnil hrest)
          simpa [List.intercalate_cons_cons] using hjoined
    rw [toList_displayName hgeneric]
    cases hcase : d.arguments with
    | nil => simpa [listed, bracketed] using hname _ hsettled
    | cons e es =>
      have hinner := hjoin _ _ '>' (by simp) (hlist d.arguments ih) hnil
      have houter := hjoin _ _ '<' (by simp) (hname _ hsettled) hinner
      simpa [hcase, listed, bracketed] using houter

/-- Every word of a name with its type arguments is free. -/
theorem Settled.allFree (h : Settled d) : AllFree d.displayName.toList := by
  have hall : ∀ c ∈ ['<', '>', ',', ' '], isWordChar c = false := by decide
  exact h.displayName_induction Segment.allFree_nil (fun n hn => hn.allFree)
    fun s t c hc hs ht => hs.append_cons (hall c hc) ht

/-- A name with its type arguments has no colons, semicolons and square brackets. -/
theorem Settled.not_mem (h : Settled d) {c : Char} (hc : c ∈ [':', ';', '[', ']']) :
    c ∉ d.displayName.toList := by
  have hall : ∀ c ∈ [':', ';', '[', ']'],
      Shape.continuesName c = false ∧ c ∉ ['<', '>', ',', ' '] := by decide
  obtain ⟨hname, hjoint⟩ := hall c hc
  refine h.displayName_induction (P := fun s => c ∉ s) (by simp) (fun n hn hmem => ?_)
    fun s t e he hs ht hmem => ?_
  · exact absurd (hn.continuesName c hmem) (by simp [hname])
  · rcases List.mem_append.1 hmem with hmem | hmem
    · exact hs hmem
    · rcases List.mem_cons.1 hmem with rfl | hmem
      · exact hjoint he
      · exact ht hmem

/-! ## Normal forms -/

/-- The normal form of the name with its type arguments. -/
def packedName (d : Descriptor) : List Char :=
  Spacing.packed d.displayName.toList

/-- A type argument as it is read from its normal form. -/
def reread (d : Descriptor) : Descriptor :=
  ofText (argumentBase d.packedName) d.packedName

/-- The parts of a type that is written in normal form. -/
def shapeOf (d : Descriptor) (marks : List Char) (rank : Nat) : Shape :=
  ⟨d.fullName.toList, [], false, listed [','] (d.arguments.map packedName), marks, rank⟩

/-- A name that is read as it stands is in normal form. -/
theorem packed_of_isSettled {n : List Char} (h : Shape.IsSettled n) : Spacing.packed n = n := by
  refine Spacing.packed_eq_self h.tight fun c hc hblank => ?_
  have hname := h.continuesName c hc
  have hpunctuation : ∀ c, c = '$' ∨ c = '@' ∨ c = '.' → isBlank c = false := by
    rintro c (rfl | rfl | rfl) <;> decide
  simp only [Shape.continuesName, Spacing.isWordChar_of_isBlank hblank, Bool.or_eq_true,
    beq_iff_eq] at hname
  by_contra hne
  simp [hpunctuation c (by grind)] at hblank

/-- The normal form has commas only between the type arguments. -/
theorem packedName_eq (h : Settled d) : d.packedName =
    d.fullName.toList ++ bracketed (listed [','] (d.arguments.map packedName)) := by
  obtain ⟨hsettled, hgeneric, -⟩ := h
  have hname := packed_of_isSettled hsettled
  rw [packedName, toList_displayName hgeneric]
  cases hcase : d.arguments with
  | nil => simpa [listed, bracketed] using hname
  | cons e es =>
    have hlist := Spacing.map_intercalate (f := Spacing.packed) rfl Spacing.packed_append_comma
      (d.arguments.map fun e => e.displayName.toList)
    rw [List.map_map] at hlist
    have hpacked : Spacing.packed (d.fullName.toList ++ '<' ::
        (", ".toList.intercalate (d.arguments.map fun e => e.displayName.toList) ++ '>' :: [])) =
        d.fullName.toList ++ '<' :: ([','].intercalate (d.arguments.map packedName) ++ ['>']) := by
      rw [Spacing.packed_append_cons (by decide), Spacing.packed_append_cons (by decide), hname,
        hlist]
      rfl
    simpa [hcase, listed, bracketed] using hpacked

theorem mem_listed {separator a : List Char} {ss : List (List Char)}
    (h : a ∈ listed separator ss) : a = separator.intercalate ss := by
  cases ss with
  | nil => simp [listed] at h
  | cons s ss => simpa [listed] using h.symm

/-- A type in normal form is put together from its parts. -/
theorem spells_shapeOf (h : Settled d) {m array : List Char} {rank : Nat}
    (hm : ∀ c ∈ m, Shape.isMark c = true) (harray : Shape.arrayRank? array = some rank) :
    (d.shapeOf m rank).Spells array (d.packedName ++ (m ++ array)) := by
  have hpacked := packedName_eq h
  obtain ⟨hsettled, -, -⟩ := h
  refine ⟨?_, hsettled.startsName, hsettled.continuesName, by simp [shapeOf], hm, harray⟩
  rw [hpacked]
  simp [shapeOf]

/-- The brackets of a type in normal form are matched, and no comma stands outside of them. -/
theorem balanced_packedName (h : Settled d) :
    Balanced '<' '>' d.packedName ∧ Arguments.Unsplit 0 d.packedName := by
  induction h with
  | @intro d hsettled hgeneric harguments ih =>
    have hcomma : Balanced '<' '>' [','] := .of_forall (by simp)
    have hspells := spells_shapeOf (.intro hsettled hgeneric harguments) (m := []) (by simp)
      (show Shape.arrayRank? [] = some 0 from rfl)
    obtain ⟨core, hcore⟩ := hspells.core fun a ha => by
      rw [mem_listed ha]
      refine hcomma.intercalate fun s hs => ?_
      obtain ⟨e, he, rfl⟩ := List.mem_map.1 hs
      exact (ih e he).1
    have htext : d.packedName = core := by simpa using hcore.text
    exact htext ▸ ⟨hcore.balanced, hcore.unsplit⟩

theorem head?_packedName (h : Settled d) : d.packedName.head?.any Shape.startsName = true := by
  have hpacked := packedName_eq h
  obtain ⟨hsettled, -, -⟩ := h
  have hstart := hsettled.startsName
  rw [hpacked]
  cases hname : d.fullName.toList with
  | nil => simp [hname] at hstart
  | cons c cs => simpa [hname] using hstart

theorem packedName_ne_nil (h : Settled d) : d.packedName ≠ [] := by
  intro hnil
  simpa [hnil] using head?_packedName h

/-- Marks and array suffixes stand behind a name in normal form. -/
theorem normalize_displayName (h : Settled d) {t : List Char}
    (ht : ∀ c ∈ t, Spacing.isPunctuation c = true) :
    Spacing.normalize (d.displayName.toList ++ t) = d.packedName ++ t := by
  have hblank : ∀ c ∈ t, isBlank c = false := fun c hc => Spacing.isBlank_of_isPunctuation (ht c hc)
  have hhead : ∀ c ∈ t.head?, isBlank c = false := fun c hc => hblank c (List.mem_of_head? hc)
  have hcolon : ':' ∉ d.displayName.toList ++ t := by
    intro hmem
    rcases List.mem_append.1 hmem with hmem | hmem
    · exact h.not_mem (by simp) hmem
    · exact absurd (ht _ hmem) (by decide)
  have hpacked : Spacing.packed (d.displayName.toList ++ t) = d.packedName ++ t := by
    rw [Spacing.packed_append, Spacing.packed_of_forall hblank, packedName]
    rw [dropWhile_eq_self hhead]
    exact fun c hc => ht c (List.mem_of_head? hc)
  rw [Spacing.normalize_eq, Name.dotted_eq_self hcolon, hpacked,
    Shape.dropWhile_dot (head?_packedName h)]

theorem isTrimmed_packedName (h : Settled d) : IsTrimmed d.packedName := by
  have hnormal := normalize_displayName h (t := []) (by simp)
  rw [List.append_nil, List.append_nil] at hnormal
  exact hnormal ▸ (Spacing.tight_normalize _).isTrimmed

/-- The type arguments of a type in normal form. -/
theorem argumentsOf_listed {ds : List Descriptor} (h : ∀ e ∈ ds, Settled e) :
    argumentsOf (listed [','] (ds.map packedName)) = ds.map reread := by
  have hsplit : Arguments.splitChars ([','].intercalate (ds.map packedName)) =
      ds.map packedName := by
    rw [Arguments.splitChars_intercalate, List.flatMap_map, List.map_eq_flatMap]
    · refine List.flatMap_congr fun e he => ?_
      have he := h e he
      exact Arguments.splitChars_of_unsplit (balanced_packedName he).2 (isTrimmed_packedName he)
        (packedName_ne_nil he)
    · intro s hs
      obtain ⟨e, he, rfl⟩ := List.mem_map.1 hs
      exact (balanced_packedName (h e he)).1
  cases ds with
  | nil => rfl
  | cons e es =>
    have hlisted : listed [','] ((e :: es).map packedName) =
        some ([','].intercalate ((e :: es).map packedName)) := rfl
    rw [argumentsOf, hlisted, Option.elim_some, hsplit, List.map_map]
    rfl

theorem formOfShape_shapeOf (h : Shape.IsSettled d.fullName.toList) (base : TypeForm)
    (m : List Char) (rank : Nat) :
    let form := formOfShape base (d.shapeOf m rank)
    form.isAmbiguous = base.isAmbiguous ∧ form.fullName = d.fullName ∧
      (form.isGeneric = false → d.arguments = []) := by
  refine ⟨by simp only [formOfShape], ?_, fun hnone => ?_⟩
  · simp [formOfShape, shapeOf, Shape.trimWith_dot h.startsName h.last]
  · cases hcase : d.arguments with
    | nil => rfl
    | cons e es => simp [formOfShape, shapeOf, hcase, listed] at hnone

section Written

variable {m array : List Char} {rank : Nat} (hm : ∀ c ∈ m, Shape.isMark c = true)
  (harray : Shape.arrayRank? array = some rank)

include hm harray

/-- The type that is read from a type in normal form. -/
theorem ofText_packedName (h : Settled d) (base : TypeForm) :
    ofText base (d.packedName ++ (m ++ array)) =
      { toTypeForm := formOfShape base (d.shapeOf m rank)
        arguments := d.arguments.map reread } := by
  have hpacked := packedName_eq h
  obtain ⟨hsettled, -, harguments⟩ := h
  have htext : d.packedName ++ (m ++ array) = d.fullName.toList ++
      (bracketed (listed [','] (d.arguments.map packedName)) ++ (m ++ array)) := by
    rw [hpacked, List.append_assoc]
  have hend : ∀ c ∈ (bracketed (listed [','] (d.arguments.map packedName)) ++ (m ++ array)).head?,
      c.isAlphanum = false := by
    intro c hc
    rw [List.head?_append] at hc
    rcases Option.or_eq_some_iff.1 hc with hc | ⟨-, hc⟩
    · cases hlisted : listed [','] (d.arguments.map packedName) with
      | none => simp [hlisted, bracketed] at hc
      | some a =>
        obtain rfl : '<' = c := by simpa [hlisted, bracketed] using hc
        decide
    · exact Shape.not_alphanumeric_of_continuesName (Shape.head?_marks_array hm harray c hc)
  rw [ofText_of_parts hsettled.startsName hsettled.continuesName hm harray _ htext ?_,
    argumentsOf_listed harguments]
  · rfl
  · rw [htext]
    exact Shape.repairSystem_append hsettled.isSteady hend

/-- A type in normal form is read with the same names and written out in the same way. -/
theorem names_ofText_packedName (h : Settled d) {base : TypeForm}
    (hbase : base.isAmbiguous = false) :
    let e := ofText base (d.packedName ++ (m ++ array))
    e.firstAmbiguous? = none ∧ e.fullName = d.fullName ∧ e.nameTree = d.nameTree ∧
      e.displayName = d.displayName := by
  induction h generalizing base m array rank with
  | @intro d hsettled hgeneric harguments ih =>
    have hread := ofText_packedName hm harray (.intro hsettled hgeneric harguments) base
    have hempty : Shape.arrayRank? [] = some 0 := rfl
    -- the arguments are written without marks, so that they are read with the rest empty
    have hinner : ∀ e ∈ d.arguments, e.reread.firstAmbiguous? = none ∧
        e.reread.nameTree = e.nameTree ∧ e.reread.displayName = e.displayName := by
      intro e he
      have hplain : (argumentBase e.packedName).isAmbiguous = false := rfl
      have hnames := ih e he (m := []) (by simp) hempty hplain
      simp only [List.append_nil] at hnames
      exact ⟨hnames.1, hnames.2.2⟩
    have htrees : (d.arguments.map reread).map nameTree = d.arguments.map nameTree := by
      rw [List.map_map]
      exact List.map_congr_left fun e he => (hinner e he).2.1
    have hwritten : (d.arguments.map reread).map (fun e => e.displayName.toList) =
        d.arguments.map fun e => e.displayName.toList := by
      rw [List.map_map]
      exact List.map_congr_left fun e he => congrArg String.toList (hinner e he).2.2
    obtain ⟨hstate, hname, hsome⟩ := formOfShape_shapeOf hsettled base m rank
    rw [hbase] at hstate
    rw [hread]
    generalize formOfShape base (d.shapeOf m rank) = form at hstate hname hsome
    refine ⟨firstAmbiguous?_eq_none.2 ⟨hstate, fun a ha => ?_⟩, hname, ?_, ?_⟩
    · obtain ⟨e, he, rfl⟩ := List.mem_map.1 ha
      exact (hinner e he).1
    · rw [nameTree_eq, nameTree_eq, htrees]
      exact congrArg (NameTree.node · _) hname
    · rw [← String.toList_inj, toList_displayName, toList_displayName hgeneric, hwritten]
      · exact congrArg (String.toList · ++ _) hname
      · exact fun hnone => by simp [hsome hnone]

end Written

/-- What a type that was read back has in common with the type that was written out. -/
structure ReadsAs (e d : Descriptor) : Prop where
  firstAmbiguous? : e.firstAmbiguous? = none
  display : e.display = d.display
  fullName : e.fullName = d.fullName
  scope : e.scope = d.scope
  typeName : e.typeName = d.typeName
  isConst : e.qualifiers.isConst = d.qualifiers.isConst
  isRuntimeClass : e.isRuntimeClass = d.isRuntimeClass
  isPointer : e.isPointer = d.isPointer
  pointerDepth : e.pointerDepth = d.pointerDepth
  isReference : e.isReference = d.isReference
  isNullable : e.isNullable = d.isNullable
  arrayRank : e.arrayRank = d.arrayRank
  nameTree : e.nameTree = d.nameTree

end Descriptor

/-! ## Reading what was written -/

namespace DeclarationParser

variable {d : Descriptor}

/-- A token that annotates a declaration is a word or starts with a square bracket. -/
theorem token_cases {a : Annotation} (ha : a ∈ Annotation.builtin) :
    (∀ c ∈ a.token, isWordChar c = true) ∨ a.token.head? = some '[' := by
  have hall : ∀ a ∈ Annotation.builtin,
      (∀ c ∈ a.token, isWordChar c = true) ∨ a.token.head? = some '[' := by
    decide +kernel
  exact hall a ha

theorem mem_tail {c : Char} (hc : c ∈ d.markText ++ Shape.arrayText d.arrayRank) :
    c ∈ ['^', '*', '&', '?', '[', ',', ']'] := by
  rcases List.mem_append.1 hc with hc | hc
  · obtain rfl | rfl | rfl | rfl := Descriptor.mem_markText hc <;> simp
  · obtain rfl | rfl | rfl := Shape.mem_arrayText hc <;> simp

/-- No token that starts with a square bracket is in the tail of a written type. -/
theorem not_infix_tail {a : Annotation} (ha : a ∈ Annotation.builtin) (hrank : d.arrayRank ≤ 2)
    (hbracket : a.token.head? = some '[') :
    ¬ a.token <:+: d.markText ++ Shape.arrayText d.arrayRank := by
  have hmarks : ∀ c ∈ a.token.head?, c ∉ d.markText := by
    rw [hbracket]
    rintro c hc hmem
    obtain rfl : '[' = c := by simpa using hc
    exact absurd (Descriptor.mem_markText hmem) (by decide)
  have harray : ∀ a ∈ Annotation.builtin, ∀ rank ∈ [0, 1, 2],
      occursIn a.token (Shape.arrayText rank) = false := by
    decide +kernel
  rw [infix_append_left a.token_ne_nil hmarks, ← occursIn_iff]
  simp [harray a ha d.arrayRank (by simp; omega)]

/-- Nothing has to be taken out of what is written behind a leading `const`. -/
theorem isBare_display (h : IsReadable d) :
    IsBare (d.displayName.toList ++ (d.markText ++ Shape.arrayText d.arrayRank)) := by
  have hsettled := h.settled
  have hother : ∀ c ∈ d.markText ++ Shape.arrayText d.arrayRank, isWordChar c = false := by
    have hall : ∀ c ∈ ['^', '*', '&', '?', '[', ',', ']'], isWordChar c = false := by decide
    exact fun c hc => hall c (mem_tail hc)
  have hwords : wordsIn (d.displayName.toList ++ (d.markText ++ Shape.arrayText d.arrayRank)) =
      wordsIn d.displayName.toList := by
    rw [Segment.wordsIn_append (.inr fun c hc => hother c (List.mem_of_head? hc)),
      Segment.wordsIn_of_other hother, List.append_nil]
  refine ⟨fun a ha hin => ?_, ?_, fun e he => ?_⟩
  · rcases token_cases ha with hword | hbracket
    · -- a token that is a word would be in a word of the name
      obtain ⟨w, hw, hinside⟩ :=
        Segment.exists_mem_wordsIn_of_infix a.token_ne_nil hword hin
      rw [hwords] at hw
      exact (hsettled.allFree w hw).annotations a ha hinside
    · -- a token in brackets would start behind the name, which has none
      have hname : ∀ c ∈ a.token.head?, c ∉ d.displayName.toList := by
        rw [hbracket]
        intro c hc
        obtain rfl : '[' = c := by simpa using hc
        exact hsettled.not_mem (by simp)
      rw [infix_append_left a.token_ne_nil hname] at hin
      exact not_infix_tail ha h.arrayRank hbracket hin
  · rw [Keyword.all_eq, hwords, List.filterMap_eq_nil_iff]
    exact fun w hw => (hsettled.allFree w hw).keyword
  · have hsemicolon : ∀ e ∈ Entity.references, ';' ∈ e := by decide +kernel
    refine not_infix_of_mem (hsemicolon e he) fun hmem => ?_
    rcases List.mem_append.1 hmem with hmem | hmem
    · exact hsettled.not_mem (by simp) hmem
    · exact absurd (mem_tail hmem) (by decide)

/-- A type that was written out is read from its normal form. -/
theorem parse_display_eq (h : IsReadable d) :
    standard.parse d.display =
      Descriptor.ofText { raw := d.display, qualifiers := { isConst := d.qualifiers.isConst } }
        (d.packedName ++ (d.markText ++ Shape.arrayText d.arrayRank)) := by
  have hpunctuation : ∀ c ∈ ['^', '*', '&', '?', '[', ',', ']'],
      Spacing.isPunctuation c = true := by decide
  rw [parse_of_isBare d.toList_display (isBare_display h),
    Descriptor.normalize_displayName h.settled fun c hc => hpunctuation c (mem_tail hc)]

/-- The marks that are written are the marks that are read. -/
theorem formOfShape_markText (h : IsReadable d) {base : TypeForm}
    (hbase : base.isReference = false) :
    let form := Descriptor.formOfShape base (d.shapeOf d.markText d.arrayRank)
    form.isRuntimeClass = d.isRuntimeClass ∧ form.isPointer = d.isPointer ∧
      form.pointerDepth = d.pointerDepth ∧ form.isReference = d.isReference ∧
      form.isNullable = d.isNullable := by
  have hcount : d.markText.count '*' = d.pointerDepth := by
    unfold Descriptor.markText
    cases d.isRuntimeClass <;> cases d.isReference <;> cases d.isNullable <;> simp
  refine ⟨?_, ?_, ?_, ?_, ?_⟩
  · simp [Descriptor.formOfShape, Descriptor.shapeOf, Descriptor.markText]
  · simp [Descriptor.formOfShape, Descriptor.shapeOf, hcount, h.isPointer]
  · simp [Descriptor.formOfShape, Descriptor.shapeOf, hcount, h.pointerDepth]
  · simp [Descriptor.formOfShape, Descriptor.shapeOf, Descriptor.markText, hbase]
  · simp [Descriptor.formOfShape, Descriptor.shapeOf, Descriptor.markText]

theorem formOfShape_name (base : TypeForm) (shape : Shape) :
    let form := Descriptor.formOfShape base shape
    form.typeName = Name.short form.fullName ∧ form.scope = (Name.split form.fullName).1 ∧
      form.qualifiers = base.qualifiers ∧ form.arrayRank = shape.arrayRank :=
  ⟨rfl, rfl, rfl, rfl⟩

/-- What is read from the normal form of a written type is the type that was written. -/
theorem readsAs_ofText (h : IsReadable d) {base : TypeForm} (hbase : base.isAmbiguous = false)
    (hplain : base.isReference = false)
    (hconst : base.qualifiers.isConst = d.qualifiers.isConst) :
    (Descriptor.ofText base
      (d.packedName ++ (d.markText ++ Shape.arrayText d.arrayRank))).ReadsAs d := by
  have hmarks : ∀ c ∈ d.markText, Shape.isMark c = true :=
    fun c hc => Descriptor.isMark_of_mem_markText hc
  have harray := Shape.arrayRank?_arrayText h.arrayRank
  obtain ⟨hnone, hfull, htree, hwritten⟩ :=
    Descriptor.names_ofText_packedName hmarks harray h.settled hbase
  obtain ⟨hruntime, hpointer, hdepth, hreference, hnullable⟩ := formOfShape_markText h hplain
  obtain ⟨htype, hscope, hqualifiers, hrank⟩ :=
    formOfShape_name base (d.shapeOf d.markText d.arrayRank)
  have hform := Descriptor.ofText_packedName hmarks harray h.settled base
  generalize
    Descriptor.ofText base (d.packedName ++ (d.markText ++ Shape.arrayText d.arrayRank)) = e at *
  generalize Descriptor.formOfShape base (d.shapeOf d.markText d.arrayRank) = form at *
  subst hform
  dsimp only at *
  rw [← hqualifiers] at hconst
  refine ⟨hnone, ?_, hfull, ?_, ?_, hconst, hruntime, hpointer, hdepth, hreference, hnullable,
    hrank, htree⟩
  · simp only [Descriptor.display, hconst, hwritten, hruntime, hdepth, hreference, hnullable, hrank]
    rfl
  · rw [hscope, hfull, h.scope]
  · rw [htype, hfull, h.typeName]

theorem readsAs_parse (h : IsReadable d) : (standard.parse d.display).ReadsAs d := by
  rw [parse_display_eq h]
  exact readsAs_ofText h rfl rfl rfl

/-- A type that was read and is written out is read again as the same type. -/
theorem parse_display {s : String} (hname : (standard.parse s).fullName ≠ "")
    (hread : (standard.parse s).firstAmbiguous? = none) :
    (standard.parse (standard.parse s).display).ReadsAs (standard.parse s) :=
  readsAs_parse (isReadable_parse hname hread)

/-- Annotations, keywords, character references and the repair of `System` are gone from what is
written, and the decorations of type arguments with them. -/
theorem parse_display_map :
    (standard.parse "[in] const SystemMap&lt;ns::Key, List<V*>^&gt; &amp;[,]").display =
        "const System.Map<ns.Key, List<V>>&[,]" ∧
      (standard.parse "const System.Map<ns.Key, List<V>>&[,]").ReadsAs
        (standard.parse "[in] const SystemMap&lt;ns::Key, List<V*>^&gt; &amp;[,]") := by
  have hread : (standard.parse "[in] const SystemMap&lt;ns::Key, List<V*>^&gt; &amp;[,]").fullName ≠
        "" ∧
      (standard.parse "[in] const SystemMap&lt;ns::Key, List<V*>^&gt; &amp;[,]").firstAmbiguous? =
        none ∧
      (standard.parse "[in] const SystemMap&lt;ns::Key, List<V*>^&gt; &amp;[,]").display =
        "const System.Map<ns.Key, List<V>>&[,]" := by
    decide +kernel
  obtain ⟨hname, hnone, hdisplay⟩ := hread
  have hagain := parse_display hname hnone
  rw [hdisplay] at hagain
  exact ⟨hdisplay, hagain⟩

end DeclarationParser

end TypeAtlas
