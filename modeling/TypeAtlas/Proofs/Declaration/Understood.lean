import TypeAtlas.Proofs.Declaration.Grammar
import TypeAtlas.Proofs.Declaration.Identifiers

/-!
# Understood declarations

A text is understood if the grammar covers it and, level by level, its type arguments. The angle
brackets of an understood text are matched, and no comma stands outside of them but the one of an
array suffix of rank two.

## Main definitions

* `Descriptor.Understood` — the texts that are understood.
* `Shape.Core` — an understood text up to its array suffix.

The main statements are `Descriptor.firstAmbiguous?_ofText_eq_none`, `Shape.Spells.eq_name` and
`Descriptor.Understood.core`.
-/

namespace TypeAtlas

open Text

namespace Descriptor

variable {base : TypeForm} {s : List Char} {shape : Shape}

/-! ## Ambiguity -/

/-- A text that the grammar covers, and all of its type arguments with it. -/
inductive Understood : List Char → Prop where
  | intro {s : List Char} {shape : Shape} (hshape : Shape.ofText? (repairSystem s) = some shape)
      (harguments : ∀ a ∈ shape.arguments, ∀ piece ∈ Arguments.splitChars a, Understood piece) :
      Understood s

theorem firstAmbiguousOf?_eq_none {ds : List Descriptor} :
    firstAmbiguousOf? ds = none ↔ ∀ d ∈ ds, d.firstAmbiguous? = none := by
  induction ds with
  | nil => simp [firstAmbiguousOf?]
  | cons d ds ih => simp [firstAmbiguousOf?, ih]

theorem firstAmbiguous?_eq_none {d : Descriptor} :
    d.firstAmbiguous? = none ↔
      d.isAmbiguous = false ∧ ∀ e ∈ d.arguments, e.firstAmbiguous? = none := by
  obtain ⟨form, arguments⟩ := d
  cases h : form.isAmbiguous <;> simp [firstAmbiguous?, h, firstAmbiguousOf?_eq_none]

theorem mem_argumentsOf {arguments : Option (List Char)} {d : Descriptor} :
    d ∈ argumentsOf arguments ↔ ∃ a ∈ arguments, ∃ piece ∈ Arguments.splitChars a,
      ofText (argumentBase piece) piece = d := by
  cases arguments <;> simp [argumentsOf]

/-- A dot is put behind a leading `System`, or the text stays. -/
theorem repairSystem_cases (s : List Char) : repairSystem s = s ∨ ∃ c cs, c.isUpper = true ∧
    s = "System".toList ++ c :: cs ∧ repairSystem s = "System.".toList ++ c :: cs := by
  unfold repairSystem
  split
  · next c cs h =>
    split
    · next hc => exact .inr ⟨c, cs, hc, behind?_eq_some_iff.1 h, rfl⟩
    · exact .inl rfl
  · exact .inl rfl

theorem repairSystem_eq_nil : repairSystem s = [] ↔ s = [] := by
  rcases repairSystem_cases s with h | ⟨c, cs, -, hs, h⟩
  · rw [h]
  · rw [h, hs]
    simp

theorem ne_nil_of_mem_splitChars {a piece : List Char} (h : piece ∈ Arguments.splitChars a) :
    piece ≠ [] := by
  simpa using (List.mem_filter.1 h).2

/-- A descriptor is unambiguous exactly if its text is understood, or if there is none. -/
theorem firstAmbiguous?_ofText_eq_none {base : TypeForm} {s : List Char}
    (hbase : base.isAmbiguous = false) :
    (ofText base s).firstAmbiguous? = none ↔ s = [] ∨ Understood s := by
  cases hshape : Shape.ofText? (repairSystem s) with
  | none =>
    have hnot : ¬ Understood s := by
      rintro ⟨h⟩
      simp [hshape] at h
    rw [ofText_of_none hshape, firstAmbiguous?_eq_none]
    simp [formOfUnknown, repairSystem_eq_nil, hnot]
  | some shape =>
    have hne : s ≠ [] := by
      rintro rfl
      simp [repairSystem, behind?, Shape.ofText?] at hshape
    have hpieces : ∀ a ∈ shape.arguments, ∀ piece ∈ Arguments.splitChars a,
        ((ofText (argumentBase piece) piece).firstAmbiguous? = none ↔ Understood piece) := by
      intro a ha piece hpiece
      have := Shape.length_arguments hshape ha
      have := length_repairSystem_le s
      have := Arguments.length_le_of_mem_splitChars hpiece
      rw [firstAmbiguous?_ofText_eq_none rfl]
      simp [ne_nil_of_mem_splitChars hpiece]
    rw [ofText_of_shape hshape, firstAmbiguous?_eq_none]
    constructor
    · rintro ⟨-, harguments⟩
      refine .inr (.intro hshape fun a ha piece hpiece => (hpieces a ha piece hpiece).1 ?_)
      exact harguments _ (mem_argumentsOf.2 ⟨a, ha, piece, hpiece, rfl⟩)
    · intro hunderstood
      obtain ⟨hshape', harguments⟩ := hunderstood.resolve_left hne
      obtain rfl : shape = _ := Option.some.inj (hshape.symm.trans hshape')
      refine ⟨hbase, fun d hd => ?_⟩
      obtain ⟨a, ha, piece, hpiece, rfl⟩ := mem_argumentsOf.1 hd
      exact (hpieces a ha piece hpiece).2 (harguments a ha piece hpiece)
termination_by s.length
decreasing_by omega

end Descriptor

/-! ## Texts in front of the missing dot -/

namespace Shape

open Descriptor (repairSystem repairSystem_cases)

variable {array s : List Char} {shape : Shape}

theorem repairSystem_of_isUpper {c : Char} (hc : c.isUpper = true) (cs : List Char) :
    repairSystem ("System".toList ++ c :: cs) = "System.".toList ++ c :: cs := by
  have hbehind : behind? "System".toList ("System".toList ++ c :: cs) = some (c :: cs) :=
    behind?_eq_some_iff.2 rfl
  rw [repairSystem, hbehind]
  dsimp only
  rw [if_pos hc]

theorem alphanumeric_of_isUpper {c : Char} (hc : c.isUpper = true) : c.isAlphanum = true := by
  have hkinds : c.isAlphanum = (c.isUpper || c.isLower || c.isDigit) := rfl
  rw [hkinds, hc]
  rfl

/-- No dot is missing in a text if none is in its name. -/
theorem repairSystem_append {t : List Char} (hs : repairSystem s = s)
    (ht : ∀ c ∈ t.head?, c.isAlphanum = false) : repairSystem (s ++ t) = s ++ t := by
  rcases repairSystem_cases (s ++ t) with hst | ⟨c, cs, hc, hst, -⟩
  · exact hst
  · have halnum := alphanumeric_of_isUpper hc
    exfalso
    rcases List.append_eq_append_iff.1 hst with ⟨y, hy, rfl⟩ | ⟨y, rfl, hy⟩
    · -- the name ends within `System` or right behind it
      cases y with
      | nil => simp [ht c (by simp)] at halnum
      | cons e y =>
        have hword : ∀ e ∈ "System".toList, e.isAlphanum = true := by decide
        have he := hword e (by rw [hy]; simp)
        simp [ht e (by simp)] at he
    · cases y with
      | nil =>
        obtain rfl : c :: cs = t := hy
        simp [ht c (by simp)] at halnum
      | cons e y =>
        obtain rfl : c = e := (List.cons.inj hy).1
        rw [repairSystem_of_isUpper hc] at hs
        simp at hs

theorem isWordChar_of_alphanumeric {c : Char} (h : c.isAlphanum = true) : isWordChar c = true := by
  have := range_of_isAlphanum h
  exact isWordChar_of_isAlphanum h (by omega)

theorem not_isWordChar_of_continuesName {c : Char} (h : continuesName c = false) :
    isWordChar c = false := by
  rw [← Bool.not_eq_true]
  intro hword
  simp [continuesName, hword] at h

theorem not_alphanumeric_of_continuesName {c : Char} (h : continuesName c = false) :
    c.isAlphanum = false := by
  rw [← Bool.not_eq_true]
  intro halnum
  simp [continuesName, isWordChar_of_alphanumeric halnum] at h

theorem isWordChar_of_isUpper {c : Char} (hc : c.isUpper = true) : isWordChar c = true :=
  isWordChar_of_alphanumeric (alphanumeric_of_isUpper hc)

theorem continuesName_of_isUpper {c : Char} (hc : c.isUpper = true) : continuesName c = true := by
  simp [continuesName, isWordChar_of_isUpper hc]

/-- A text in which the dot behind `System` is missing has the parts of the text with the dot, but
for the name. -/
theorem exists_spells (h : ofText? (repairSystem s) = some shape) :
    ∃ name array, repairSystem name = shape.name ∧ { shape with name }.Spells array s := by
  obtain ⟨array, hspells⟩ := spells_of_ofText? h
  rcases repairSystem_cases s with hs | ⟨c, cs, hc, hs, hrepaired⟩
  · refine ⟨shape.name, array, ?_, hs ▸ hspells⟩
    rcases repairSystem_cases shape.name with hname | ⟨c, cs, hc, hname, -⟩
    · exact hname
    · have htext := hspells.text
      rw [hs, hname, List.append_assoc, List.cons_append] at htext
      rw [htext, repairSystem_of_isUpper hc] at hs
      simp at hs
  · have hdotted : ∀ d ∈ "System.".toList, continuesName d = true := by decide +kernel
    have hword : ∀ d ∈ "System".toList, continuesName d = true := by decide +kernel
    have hname : shape.name = "System.".toList ++ (c :: cs.takeWhile continuesName) := by
      rw [name_eq h, hrepaired, List.takeWhile_append_of_pos hdotted,
        List.takeWhile_cons_of_pos (continuesName_of_isUpper hc)]
    refine ⟨"System".toList ++ (c :: cs.takeWhile continuesName), array, ?_, ?_, rfl, ?_,
      hspells.asterisks, hspells.marks, hspells.array⟩
    · rw [repairSystem_of_isUpper hc, hname]
    · have htext := hspells.text
      rw [hrepaired, hname, List.append_assoc] at htext
      rw [hs, List.append_assoc, List.append_cancel_left htext]
    · intro d hd
      rcases List.mem_append.1 hd with hd | hd
      · exact hword d hd
      · refine hspells.continuesName d ?_
        rw [hname]
        exact List.mem_append_right _ hd

/-! ## Texts that start with a name -/

theorem head?_beq_dot {n : List Char} (h : n.head?.any startsName = true) :
    ∀ c ∈ n.head?, (c == '.') = false := by
  intro c hc
  rw [Option.mem_def.1 hc] at h
  rw [beq_eq_false_iff_ne]
  rintro rfl
  exact absurd h (by decide)

/-- No dots are left out in front of a name. -/
theorem dropWhile_dot {n : List Char} (h : n.head?.any startsName = true) (t : List Char) :
    (n ++ t).dropWhile (· == '.') = n ++ t := by
  have hne : n ≠ [] := by
    rintro rfl
    simp at h
  refine dropWhile_eq_self ?_
  rw [List.head?_append_of_ne_nil _ hne]
  exact head?_beq_dot h

theorem trimWith_dot {n : List Char} (h : n.head?.any startsName = true)
    (hlast : ∀ c ∈ n.getLast?, c ≠ '.') : trimWith (· == '.') n = n :=
  trimWith_eq_self (head?_beq_dot h) fun c hc => by simpa using hlast c hc

/-! ## Brackets and commas -/

/-- An understood text up to its array suffix. -/
structure Core (array s core : List Char) : Prop where
  text : s = core ++ array
  balanced : Balanced '<' '>' core
  unsplit : Arguments.Unsplit 0 core

theorem plain_of_continuesName {c : Char} (h : continuesName c = true) :
    c ≠ '<' ∧ c ≠ '>' ∧ c ≠ ',' := by
  refine ⟨?_, ?_, ?_⟩ <;> rintro rfl <;> exact absurd h (by decide)

theorem plain_of_isMark {c : Char} (h : isMark c = true) : c ≠ '<' ∧ c ≠ '>' ∧ c ≠ ',' := by
  refine ⟨?_, ?_, ?_⟩ <;> rintro rfl <;> exact absurd h (by decide)

/-- The brackets of a text are matched if those in its type arguments are. -/
theorem Spells.core (h : shape.Spells array s)
    (harguments : ∀ a ∈ shape.arguments, Balanced '<' '>' a) : ∃ core, Core array s core := by
  have hplain : ∀ t : List Char, (∀ c ∈ t, c ≠ '<' ∧ c ≠ '>' ∧ c ≠ ',') →
      Balanced '<' '>' t ∧ Arguments.Unsplit 0 t := by
    exact fun t ht => ⟨.of_forall fun c hc => ⟨(ht c hc).1, (ht c hc).2.1⟩, .of_forall ht⟩
  obtain ⟨hname, hname'⟩ := hplain _ fun c hc => plain_of_continuesName (h.continuesName c hc)
  obtain ⟨hfirst, hfirst'⟩ := hplain shape.asterisks fun c hc => h.asterisks c hc ▸ by decide
  obtain ⟨hquery, hquery'⟩ := hplain (bif shape.isQueried then ['?'] else []) <| by
    cases shape.isQueried <;> simp
  obtain ⟨hmarks, hmarks'⟩ := hplain _ fun c hc => plain_of_isMark (h.marks c hc)
  obtain ⟨hbracketed, hbracketed'⟩ : Balanced '<' '>' (bracketed shape.arguments) ∧
      Arguments.Unsplit 0 (bracketed shape.arguments) := by
    cases ha : shape.arguments with
    | none => exact ⟨.nil, .of_forall (by simp [bracketed])⟩
    | some a =>
      have hbalanced := harguments a ha
      exact ⟨hbalanced.wrap, (Arguments.Unsplit.of_balanced hbalanced 0).wrap⟩
  refine ⟨shape.name ++ (shape.asterisks ++ ((bif shape.isQueried then ['?'] else []) ++
    (bracketed shape.arguments ++ shape.marks))), by rw [h.text]; simp, ?_, ?_⟩
  · exact hname.append (hfirst.append (hquery.append (hbracketed.append hmarks)))
  · exact hname'.append (hfirst'.append (hquery'.append (hbracketed'.append hmarks')))

theorem getLast?_append_of {p : Char → Bool} {s t : List Char}
    (hs : ∀ c ∈ s.getLast?, p c = false) (ht : ∀ c ∈ t.getLast?, p c = false) :
    ∀ c ∈ (s ++ t).getLast?, p c = false := by
  intro c hc
  rw [List.getLast?_append] at hc
  rcases Option.or_eq_some_iff.1 hc with hc | ⟨-, hc⟩
  · exact ht c hc
  · exact hs c hc

/-- A text that ends like a name is a name. -/
theorem Spells.eq_name (h : shape.Spells array s)
    (hlast : ∃ c ∈ s.getLast?, Shape.continuesName c = true) : s = shape.name := by
  have htail : ∀ c ∈ (shape.asterisks ++ ((bif shape.isQueried then ['?'] else []) ++
      (bracketed shape.arguments ++ (shape.marks ++ array)))).getLast?,
      Shape.continuesName c = false := by
    refine getLast?_append_of (fun c hc => ?_) (getLast?_append_of ?_ (getLast?_append_of ?_
      (getLast?_append_of (fun c hc => ?_) ?_)))
    · rw [h.asterisks c (List.mem_of_getLast? hc)]
      decide
    · intro c hc
      cases hquery : shape.isQueried with
      | false => simp [hquery] at hc
      | true =>
        obtain rfl : '?' = c := by simpa [hquery] using hc
        decide
    · cases shape.arguments with
      | none => simp [bracketed]
      | some a =>
        intro c hc
        obtain rfl : '>' = c := by simpa [bracketed, List.getLast?_cons] using hc
        decide
    · exact not_continuesName_of_isMark (h.marks c (List.mem_of_getLast? hc))
    · intro c hc
      obtain ⟨rfl, -⟩ | ⟨rfl, -⟩ | ⟨digits, -, rfl, -⟩ := arrayRank?_eq_some h.array
      · simp at hc
      · obtain rfl : ']' = c := by simpa using hc
        decide
      · obtain rfl : ']' = c := by simpa [List.getLast?_cons] using hc
        decide
  obtain ⟨c, hc, hname⟩ := hlast
  rw [h.text, List.getLast?_append] at hc
  rcases Option.or_eq_some_iff.1 hc with hc | ⟨hnone, -⟩
  · simp [htail c hc] at hname
  · rw [h.text, List.getLast?_eq_none_iff.1 hnone, List.append_nil]

end Shape

/-! ## Understood texts -/

namespace Text

theorem exists_trimEnd (p : Char → Bool) (s : List Char) :
    ∃ after, (∀ c ∈ after, p c = true) ∧ s = trimEnd p s ++ after := by
  refine ⟨(s.reverse.takeWhile p).reverse,
    fun c hc => List.mem_takeWhile_imp (List.mem_reverse.1 hc), ?_⟩
  rw [trimEnd, ← List.reverse_append, List.takeWhile_append_dropWhile, List.reverse_reverse]

/-- A text as what is left of it when it is trimmed, and what is taken off around that. -/
theorem exists_trimWith (p : Char → Bool) (s : List Char) :
    ∃ before after, (∀ c ∈ before, p c = true) ∧ (∀ c ∈ after, p c = true) ∧
      s = before ++ (trimWith p s ++ after) := by
  obtain ⟨after, hafter, heq⟩ := exists_trimEnd p (s.dropWhile p)
  refine ⟨s.takeWhile p, after, fun c => List.mem_takeWhile_imp, hafter, ?_⟩
  rw [trimWith, ← heq, List.takeWhile_append_dropWhile]

theorem exists_trim (s : List Char) : ∃ before after, (∀ c ∈ before, isBlank c = true) ∧
    (∀ c ∈ after, isBlank c = true) ∧ s = before ++ (trim s ++ after) :=
  exists_trimWith isBlank s

end Text

namespace Arguments

/-- The brackets of a list are matched if those of its arguments are. -/
theorem balanced_of_splitChars {s : List Char}
    (hs : ∀ piece ∈ splitChars s, Balanced '<' '>' piece) : Balanced '<' '>' s := by
  have hblank : ∀ t : List Char, (∀ c ∈ t, isBlank c = true) → Balanced '<' '>' t :=
    fun t ht => .of_forall fun c hc =>
      ⟨ne_of_isBlank (ht c hc) (by decide), ne_of_isBlank (ht c hc) (by decide)⟩
  have hpieces : ∀ p ∈ pieces 0 s, Balanced '<' '>' p := by
    intro p hp
    obtain ⟨before, after, hbefore, hafter, heq⟩ := exists_trim p
    rw [heq]
    refine (hblank before hbefore).append (.append ?_ (hblank after hafter))
    by_cases hempty : trim p = []
    · rw [hempty]
      exact .nil
    · refine hs _ (List.mem_filter.2 ⟨List.mem_map.2 ⟨p, hp, rfl⟩, ?_⟩)
      simpa using hempty
  have hcomma : Balanced '<' '>' [','] := .of_forall (by simp)
  rw [← intercalate_pieces 0 s]
  exact hcomma.intercalate hpieces

end Arguments

namespace Descriptor

/-- An understood text is put together from its parts. Its brackets are matched, and what stands in
front of its array suffix is not split. -/
theorem Understood.core {s : List Char} (h : Understood s) : ∃ shape : Shape, ∃ array core,
    shape.Spells array s ∧ Shape.Core array s core ∧
      ∀ base, (ofText base s).arrayRank = shape.arrayRank := by
  induction h with
  | @intro s shape hshape _ ih =>
    obtain ⟨name, array, -, hspells⟩ := Shape.exists_spells hshape
    have harguments : ∀ a ∈ shape.arguments, Balanced '<' '>' a := by
      refine fun a ha => Arguments.balanced_of_splitChars fun piece hpiece => ?_
      obtain ⟨shape, array, core, hspells, hcore, -⟩ := ih a ha piece hpiece
      have harray : Balanced '<' '>' array := by
        refine .of_forall fun c hc => ⟨?_, ?_⟩ <;> rintro rfl
        · exact (Shape.not_mem_array hspells.array).1 hc
        · exact (Shape.not_mem_array hspells.array).2 hc
      rw [hcore.text]
      exact hcore.balanced.append harray
    obtain ⟨core, hcore⟩ := hspells.core harguments
    refine ⟨_, array, core, hspells, hcore, fun base => ?_⟩
    rw [ofText_of_shape hshape]
    rfl

/-- An understood text starts with its name. -/
theorem Understood.head? {s : List Char} (h : Understood s) :
    s.head?.any Shape.startsName = true := by
  obtain ⟨shape, array, core, hspells, -, -⟩ := h.core
  have hstart := hspells.startsName
  rw [hspells.text]
  cases hname : shape.name with
  | nil => simp [hname] at hstart
  | cons c cs => simpa [hname] using hstart

end Descriptor

end TypeAtlas
