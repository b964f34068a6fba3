import TypeAtlas.Proofs.Declaration.Bare
import TypeAtlas.Proofs.Declaration.Understood

/-!
# Decorated names

A chain of identifiers can be decorated with a leading `const`, a leading separator, marks with
blanks between them, and an array suffix. The decorations show in the fields that they are about
and nowhere else: the name is the chain with dots between its identifiers.

## Main definitions

* `ArraySuffix`, `DecoratedName` — decorations as they are written, and a chain with them.
* `DecoratedName.IsProper` — the chain consists of identifiers and there are no annotations.
* `DecoratedName.Describes` — what is read from a decorated name.

The main statement is `DecoratedName.describes_parse`.
-/

namespace TypeAtlas

open Text
open DeclarationParser (standard IsBare constPrefix)

/-- An array suffix as it is written. -/
inductive ArraySuffix where
  | none
  | one (digits : List Char)
  | two

namespace ArraySuffix

def text : ArraySuffix → List Char
  | none => []
  | one digits => '[' :: (digits ++ [']'])
  | two => ['[', ',', ']']

def rank : ArraySuffix → Nat
  | none => 0
  | one _ => 1
  | two => 2

/-- What stands in the brackets is a number. -/
def IsProper : ArraySuffix → Prop
  | one digits => ∀ c ∈ digits, isDecimalDigit c = true
  | _ => True

end ArraySuffix

/-- A chain of identifiers with decorations. -/
structure DecoratedName where
  isConst : Bool
  /-- Whether there are colons in front of the chain. -/
  isGlobal : Bool
  first : List Char
  /-- The further identifiers, each with whether there are colons or a dot in front of it. -/
  rest : List (Bool × List Char)
  suffix : List Char
  array : ArraySuffix

namespace DecoratedName

/-- A letter, a digit or an underscore. -/
def isNamePart (c : Char) : Bool :=
  c.isAlphanum || c == '_'

/-- An identifier does not start with a digit. -/
def isIdentifier (s : List Char) : Bool :=
  s.head?.any (fun c => c.isAlpha || c == '_') && s.all isNamePart

/-- What stands in front of an identifier. -/
def separator (colons : Bool) : List Char :=
  if colons then [':', ':'] else ['.']

/-- The identifiers with their separators. -/
def chain (first : List Char) : List (Bool × List Char) → List Char
  | [] => first
  | (colons, second) :: rest => first ++ (separator colons ++ chain second rest)

variable (d : DecoratedName)

/-- The identifiers of the chain. -/
def segments : List (List Char) :=
  d.first :: d.rest.map (·.2)

/-- What stands behind a leading `const`. -/
def body : List Char :=
  (if d.isGlobal then [':', ':'] else []) ++ (chain d.first d.rest ++ (d.suffix ++ d.array.text))

/-- The decorated name as it is written. -/
def text : String :=
  String.ofList (constPrefix d.isConst ++ d.body)

/-- The identifiers as strings. -/
def names : List String :=
  d.segments.map String.ofList

/-- The name without its decorations. -/
def plain : String :=
  ".".intercalate d.names

/-- The chain consists of identifiers, none of them a keyword, the suffix of marks and blanks, and
there are no annotations. -/
structure IsProper : Prop where
  identifiers : ∀ s ∈ d.segments, isIdentifier s = true
  noKeyword : ∀ s ∈ d.segments, Keyword.ofWord? s = none
  /-- No dot is missing behind a leading `System`. -/
  isSteady : ∀ c cs, d.first = "System".toList ++ c :: cs → c.isUpper = false
  suffix : ∀ c ∈ d.suffix, c ∈ "*&^%? ".toList
  array : d.array.IsProper
  free : ∀ a ∈ Annotation.builtin, ¬ a.token <:+: d.text.toList

/-- A descriptor says what the decorations of a name say, and names the chain. -/
structure Describes (parsed : Descriptor) : Prop where
  firstAmbiguous? : parsed.firstAmbiguous? = none
  fullName : parsed.fullName = d.plain
  scope : parsed.scope = ".".intercalate d.names.dropLast
  typeName : d.names.getLast? = some parsed.typeName
  isConst : parsed.qualifiers.isConst = d.isConst
  pointerDepth : parsed.pointerDepth = min 2 (d.suffix.count '*')
  isReference : parsed.isReference = (d.suffix.contains '&' || d.suffix.contains '%')
  isRuntimeClass : parsed.isRuntimeClass = d.suffix.contains '^'
  isNullable : parsed.isNullable = d.suffix.contains '?'
  arrayRank : parsed.arrayRank = d.array.rank

variable {d}

/-! ## Characters -/

theorem isNamePart_cases {c : Char} (h : isNamePart c = true) : c.isAlphanum = true ∨ c = '_' := by
  simpa [isNamePart] using h

theorem isWordChar_of_isNamePart {c : Char} (h : isNamePart c = true) : isWordChar c = true := by
  rcases isNamePart_cases h with h | rfl
  · exact Shape.isWordChar_of_alphanumeric h
  · decide

theorem isBlank_of_isWordChar {c : Char} (h : isWordChar c = true) : isBlank c = false := by
  rw [← Bool.not_eq_true]
  intro hblank
  simp [Spacing.isWordChar_of_isBlank hblank] at h

theorem isWordChar_of_isDecimalDigit {c : Char} (h : isDecimalDigit c = true) :
    isWordChar c = true := by
  have hranges : (decimalDigitRanges.all fun r =>
      wordRanges.any fun q => Nat.ble q.1 r.1 && Nat.ble r.2 q.2) = true := by
    decide +kernel
  unfold isDecimalDigit at h
  unfold isWordChar
  split at h
  · simp [Char.isAlphanum, *]
  · next hc =>
    obtain ⟨r, hr, hin⟩ := List.any_eq_true.1 h
    obtain ⟨q, hq, hcovers⟩ := List.any_eq_true.1 (List.all_eq_true.1 hranges r hr)
    simp only [Bool.and_eq_true, Nat.ble_eq] at hcovers
    simp only [Bool.and_eq_true, decide_eq_true_eq] at hin
    rw [if_neg hc]
    refine List.any_eq_true.2 ⟨q, hq, ?_⟩
    simp only [Bool.and_eq_true, decide_eq_true_eq]
    omega

theorem suffix_cases {c : Char} (h : c ∈ "*&^%? ".toList) :
    c = ' ' ∨ Shape.isMark c = true ∧ Spacing.isPunctuation c = true := by
  have hall : ∀ c ∈ "*&^%? ".toList,
      c = ' ' ∨ Shape.isMark c = true ∧ Spacing.isPunctuation c = true := by
    decide +kernel
  exact hall c h

theorem isWordChar_of_suffix {c : Char} (h : c ∈ "*&^%? ".toList) : isWordChar c = false := by
  have hall : ∀ c ∈ "*&^%? ".toList, isWordChar c = false := by decide +kernel
  exact hall c h

/-- A character that is no part of a word occurs in the tail of a decorated name only if it is one
of these. -/
theorem mem_tail (h : d.IsProper) {c : Char} (hc : c ∈ d.suffix ++ d.array.text)
    (hword : isWordChar c = false) : c ∈ "*&^%? [,]".toList := by
  rcases List.mem_append.1 hc with hc | hc
  · have hall : ∀ c ∈ "*&^%? ".toList, c ∈ "*&^%? [,]".toList := by decide +kernel
    exact hall c (h.suffix c hc)
  · have hall : ∀ c ∈ ['[', ',', ']'], c ∈ "*&^%? [,]".toList := by decide +kernel
    refine hall c ?_
    have harray := h.array
    cases hcase : d.array with
    | none => simp [hcase, ArraySuffix.text] at hc
    | two => simpa [hcase, ArraySuffix.text] using hc
    | one digits =>
      rw [hcase] at hc harray
      rcases List.mem_cons.1 hc with rfl | hc
      · simp
      · rcases List.mem_append.1 hc with hc | hc
        · simp [isWordChar_of_isDecimalDigit (harray c hc)] at hword
        · simp [List.mem_singleton.1 hc]

theorem head?_tail (h : d.IsProper) : ∀ c ∈ (d.suffix ++ d.array.text).head?,
    isWordChar c = false := by
  intro c hc
  rw [List.head?_append] at hc
  rcases Option.or_eq_some_iff.1 hc with hc | ⟨-, hc⟩
  · exact isWordChar_of_suffix (h.suffix c (List.mem_of_head? hc))
  · cases hcase : d.array with
    | none => simp [hcase, ArraySuffix.text] at hc
    | two =>
      obtain rfl : '[' = c := by simpa [hcase, ArraySuffix.text] using hc
      decide
    | one digits =>
      obtain rfl : '[' = c := by simpa [hcase, ArraySuffix.text] using hc
      decide

/-! ## Chains -/

section Chain

variable {first : List Char} {rest : List (Bool × List Char)}

theorem ne_nil_of_isIdentifier {s : List Char} (h : isIdentifier s = true) : s ≠ [] := by
  rintro rfl
  simp [isIdentifier] at h

theorem isNamePart_of_mem {s : List Char} (h : isIdentifier s = true) :
    ∀ c ∈ s, isNamePart c = true := by
  rw [isIdentifier, Bool.and_eq_true] at h
  exact List.all_eq_true.1 h.2

theorem not_mem_of_isIdentifier {s : List Char} (h : isIdentifier s = true) {c : Char}
    (hc : isNamePart c = false) : c ∉ s := by
  intro hmem
  simp [isNamePart_of_mem h c hmem] at hc

/-- The dotted form of a chain has a dot for every separator. -/
theorem dotted_chain (h : ∀ s ∈ first :: rest.map (·.2), isIdentifier s = true) :
    Name.dotted (chain first rest) = ['.'].intercalate (first :: rest.map (·.2)) := by
  induction rest generalizing first with
  | nil =>
    have hcolon := not_mem_of_isIdentifier (h first (by simp)) (c := ':') (by decide)
    simpa [chain] using Name.dotted_eq_self hcolon
  | cons p rest ih =>
    obtain ⟨colons, second⟩ := p
    have hcolon := not_mem_of_isIdentifier (h first (by simp)) (c := ':') (by decide)
    have hrest := @ih second fun s hs => h s (List.mem_cons_of_mem first hs)
    have hseparator : Name.dotted (separator colons ++ chain second rest) =
        '.' :: Name.dotted (chain second rest) := by
      cases colons <;> simp [separator, Name.dotted]
    rw [chain, Name.dotted_append hcolon, hseparator, hrest]
    simp [List.intercalate_cons_cons]

/-- The words of a chain are its identifiers. -/
theorem wordsIn_chain (h : ∀ s ∈ first :: rest.map (·.2), isIdentifier s = true) :
    Segment.wordsIn (chain first rest) = first :: rest.map (·.2) := by
  have hword : ∀ s, isIdentifier s = true → Segment.wordsIn s = [s] := fun s hs =>
    Segment.wordsIn_of_word (ne_nil_of_isIdentifier hs) fun c hc =>
      isWordChar_of_isNamePart (isNamePart_of_mem hs c hc)
  have hdot : isWordChar '.' = false := by decide
  have hcolon : isWordChar ':' = false := by decide
  induction rest generalizing first with
  | nil => exact hword first (h first (by simp))
  | cons p rest ih =>
    obtain ⟨colons, second⟩ := p
    have hrest := @ih second fun s hs => h s (List.mem_cons_of_mem first hs)
    rw [chain]
    cases colons with
    | false =>
      have hcut := Segment.wordsIn_append_cons hdot first (chain second rest)
      simpa [separator, hword first (h first (by simp)), hrest] using hcut
    | true =>
      have hcut := Segment.wordsIn_append_cons hcolon first (':' :: chain second rest)
      rw [Segment.wordsIn_cons hcolon] at hcut
      simpa [separator, hword first (h first (by simp)), hrest] using hcut

theorem mem_chain {c : Char} (hc : c ∈ chain first rest) :
    (∃ s ∈ first :: rest.map (·.2), c ∈ s) ∨ c = ':' ∨ c = '.' := by
  induction rest generalizing first with
  | nil => exact .inl ⟨first, by simp, hc⟩
  | cons p rest ih =>
    obtain ⟨colons, second⟩ := p
    rw [chain] at hc
    rcases List.mem_append.1 hc with hc | hc
    · exact .inl ⟨first, by simp, hc⟩
    · rcases List.mem_append.1 hc with hc | hc
      · cases colons <;> simp [separator] at hc <;> simp [hc]
      · obtain ⟨s, hs, hmem⟩ | hother := ih hc
        · exact .inl ⟨s, List.mem_cons_of_mem first hs, hmem⟩
        · exact .inr hother

end Chain

/-! ## Normal form -/

theorem wordsIn_tail (h : d.IsProper) : ∀ w ∈ Segment.wordsIn (d.suffix ++ d.array.text),
    Keyword.ofWord? w = none := by
  have hsuffix : ∀ c ∈ d.suffix, isWordChar c = false :=
    fun c hc => isWordChar_of_suffix (h.suffix c hc)
  rw [Segment.wordsIn_append (.inl fun c hc => hsuffix c (List.mem_of_getLast? hc)),
    Segment.wordsIn_of_other hsuffix, List.nil_append]
  have harray := h.array
  cases hcase : d.array with
  | none => simp [ArraySuffix.text]
  | two => simp [ArraySuffix.text, Segment.wordsIn_of_other (s := ['[', ',', ']']) (by decide)]
  | one digits =>
    rw [hcase] at harray
    have hopen : isWordChar '[' = false := by decide
    have hclose : isWordChar ']' = false := by decide
    have hwords : Segment.wordsIn (ArraySuffix.one digits).text = Segment.wordsIn digits := by
      rw [ArraySuffix.text, Segment.wordsIn_cons hopen, Segment.wordsIn_append_cons hclose]
      simp
    -- every keyword has a letter
    have hletter : ∀ entry ∈ Keyword.table, ∃ c ∈ entry.1.toList, isDecimalDigit c = false := by
      decide +kernel
    intro w hw
    rw [hwords] at hw
    rw [Keyword.ofWord?, Option.map_eq_none_iff, List.find?_eq_none]
    intro entry hentry heq
    obtain ⟨c, hc, hdigit⟩ := hletter entry hentry
    have hmem := (Segment.infix_of_mem_wordsIn hw).subset (eq_of_beq heq ▸ hc)
    simp [harray c hmem] at hdigit

theorem isBare_body (h : d.IsProper) : IsBare d.body := by
  have hcolon : isWordChar ':' = false := by decide
  refine ⟨fun a ha hin => ?_, ?_, fun e he => ?_⟩
  · refine h.free a ha (hin.trans ?_)
    rw [text, String.toList_ofList]
    exact (List.suffix_append _ _).isInfix
  · have hglobal : Segment.wordsIn d.body =
        Segment.wordsIn (chain d.first d.rest ++ (d.suffix ++ d.array.text)) := by
      rw [body]
      cases d.isGlobal with
      | false => rfl
      | true =>
        rw [if_pos rfl, List.cons_append, List.cons_append, Segment.wordsIn_cons hcolon,
          Segment.wordsIn_cons hcolon]
        rfl
    rw [Keyword.all_eq, hglobal, Segment.wordsIn_append (.inr (head?_tail h)),
      wordsIn_chain h.identifiers, List.filterMap_eq_nil_iff]
    intro w hw
    rcases List.mem_append.1 hw with hw | hw
    · exact h.noKeyword w hw
    · exact wordsIn_tail h w hw
  · have hsemicolon : ∀ e ∈ Entity.references, ';' ∈ e := by decide +kernel
    refine not_infix_of_mem (hsemicolon e he) fun hmem => ?_
    rcases List.mem_append.1 hmem with hmem | hmem
    · cases hglobal : d.isGlobal <;> simp [hglobal] at hmem
    · rcases List.mem_append.1 hmem with hmem | hmem
      · obtain ⟨s, hs, hin⟩ | hother := mem_chain hmem
        · exact not_mem_of_isIdentifier (h.identifiers s hs) (by decide) hin
        · simp at hother
      · exact absurd (mem_tail h hmem (by decide)) (by decide +kernel)

/-- The marks of the suffix without the blanks between them. -/
def marks (d : DecoratedName) : List Char :=
  d.suffix.filter (· != ' ')

/-- The chain with dots between its identifiers. -/
def dotted (d : DecoratedName) : List Char :=
  ['.'].intercalate d.segments

theorem packed_array (h : d.array.IsProper) : Spacing.packed d.array.text = d.array.text := by
  refine Spacing.packed_of_forall fun c hc => ?_
  cases hcase : d.array with
  | none => simp [hcase, ArraySuffix.text] at hc
  | two =>
    rw [hcase] at hc
    have hall : ∀ c ∈ ArraySuffix.two.text, isBlank c = false := by decide
    exact hall c hc
  | one digits =>
    rw [hcase] at hc h
    rcases List.mem_cons.1 hc with rfl | hc
    · decide
    · rcases List.mem_append.1 hc with hc | hc
      · exact isBlank_of_isWordChar (isWordChar_of_isDecimalDigit (h c hc))
      · rw [List.mem_singleton.1 hc]
        decide

theorem packed_suffix {s : List Char} (hs : ∀ c ∈ s, c ∈ "*&^%? ".toList) (t : List Char) :
    Spacing.packed (s ++ t) = s.filter (· != ' ') ++ Spacing.packed t := by
  induction s with
  | nil => rfl
  | cons c s ih =>
    have hrest := ih fun e he => hs e (List.mem_cons_of_mem c he)
    rcases suffix_cases (hs c (by simp)) with rfl | ⟨-, hc⟩
    · have hblank := Spacing.packed_append_of_blank (s := [' ']) (t := s ++ t) (by decide)
      simpa [hrest] using hblank
    · have hne : c ≠ ' ' := by
        rintro rfl
        exact absurd hc (by decide)
      rw [List.cons_append, Spacing.packed_cons hc, hrest]
      simp [hne]

/-- The first character behind the chain that is no blank is punctuation. -/
theorem isPunctuation_tail (d : DecoratedName) {s : List Char} (hs : ∀ c ∈ s, c ∈ "*&^%? ".toList) :
    ∀ c ∈ ((s ++ d.array.text).dropWhile isBlank).head?, Spacing.isPunctuation c = true := by
  induction s with
  | nil =>
    intro c hc
    have hopen : isBlank '[' = false := by decide
    cases hcase : d.array with
    | none => simp [hcase, ArraySuffix.text] at hc
    | one digits =>
      obtain rfl : '[' = c := by simpa [hcase, ArraySuffix.text, hopen] using hc
      decide
    | two =>
      obtain rfl : '[' = c := by simpa [hcase, ArraySuffix.text, hopen] using hc
      decide
  | cons c s ih =>
    rcases suffix_cases (hs c (by simp)) with rfl | ⟨-, hc⟩
    · rw [List.cons_append, List.dropWhile_cons_of_pos (by decide)]
      exact ih fun e he => hs e (List.mem_cons_of_mem ' ' he)
    · have hblank := Spacing.isBlank_of_isPunctuation hc
      rw [List.cons_append, List.dropWhile_cons_of_neg (by simp [hblank])]
      simpa using hc

theorem forall_mem_dotted (h : d.IsProper) : ∀ c ∈ d.dotted, isNamePart c = true ∨ c = '.' := by
  refine IdentifierChain.forall_mem_chars (by simp) fun s hs c hc => .inl ?_
  exact isNamePart_of_mem (h.identifiers s hs) c hc

theorem startsName_dotted (h : d.IsProper) : d.dotted.head?.any Shape.startsName = true := by
  have hfirst := h.identifiers d.first (by simp [segments])
  have hhead : d.dotted.head? = d.first.head? := by
    rw [dotted, segments]
    cases d.rest with
    | nil => simp
    | cons p rest =>
      rw [List.map_cons, List.intercalate_cons_cons, List.append_assoc,
        List.head?_append_of_ne_nil _ (ne_nil_of_isIdentifier hfirst)]
  rw [isIdentifier, Bool.and_eq_true] at hfirst
  rw [hhead]
  cases hcase : d.first with
  | nil => simp [hcase] at hfirst
  | cons c cs =>
    have hc : c.isAlpha = true ∨ c = '_' := by simpa [hcase] using hfirst.1
    rcases hc with hc | rfl <;> simp [Shape.startsName, *]

/-- The normal form has a dot for every separator and no blanks. -/
theorem normalize_body (h : d.IsProper) :
    Spacing.normalize d.body = d.dotted ++ (d.marks ++ d.array.text) := by
  have htail : Name.dotted (d.suffix ++ d.array.text) = d.suffix ++ d.array.text := by
    refine Name.dotted_eq_self fun hmem => ?_
    exact absurd (mem_tail h hmem (by decide)) (by decide +kernel)
  have hhead : (d.suffix ++ d.array.text).head? ≠ some ':' := by
    intro hc
    have hmem := mem_tail h (List.mem_of_head? hc) (by decide)
    exact absurd hmem (by decide +kernel)
  have hchain : Name.dotted (chain d.first d.rest ++ (d.suffix ++ d.array.text)) =
      d.dotted ++ (d.suffix ++ d.array.text) := by
    rw [Name.dotted_append_of_head hhead, dotted_chain h.identifiers, htail]
    rfl
  have hname : Spacing.packed d.dotted = d.dotted := by
    refine Spacing.packed_of_forall fun c hc => ?_
    rcases forall_mem_dotted h c hc with hc | rfl
    · exact isBlank_of_isWordChar (isWordChar_of_isNamePart hc)
    · decide
  have hpacked : Spacing.packed (d.dotted ++ (d.suffix ++ d.array.text)) =
      d.dotted ++ (d.marks ++ d.array.text) := by
    rw [Spacing.packed_append (isPunctuation_tail d h.suffix), hname, packed_suffix h.suffix,
      packed_array h.array, marks]
  have hstart := Shape.dropWhile_dot (startsName_dotted h) (d.marks ++ d.array.text)
  rw [Spacing.normalize_eq, body]
  cases d.isGlobal with
  | false =>
    rw [if_neg Bool.false_ne_true, List.nil_append, hchain, hpacked, hstart]
  | true =>
    have hglobal : Name.dotted ((if true = true then [':', ':'] else []) ++
        (chain d.first d.rest ++ (d.suffix ++ d.array.text))) =
          '.' :: (d.dotted ++ (d.suffix ++ d.array.text)) := by
      rw [← hchain]
      rfl
    rw [hglobal, Spacing.packed_cons (by decide), hpacked, List.dropWhile_cons_of_pos (by decide),
      hstart]

/-! ## Reading -/

theorem intercalate_concat {α : Type} (separator : List α) (ss : List (List α)) (s : List α) :
    separator.intercalate (ss ++ [s]) =
      if ss = [] then s else separator.intercalate ss ++ (separator ++ s) := by
  induction ss with
  | nil => simp
  | cons t ts ih =>
    rw [if_neg (by simp)]
    cases ts with
    | nil => simp [List.intercalate_cons_cons]
    | cons u us =>
      rw [if_neg (by simp)] at ih
      rw [List.cons_append, List.cons_append, List.intercalate_cons_cons, ← List.cons_append, ih,
        List.intercalate_cons_cons]
      simp

/-- The last identifier of the chain, and what stands before it. -/
theorem exists_last (h : d.IsProper) : ∃ init last, d.segments = init ++ [last] ∧
    isIdentifier last = true ∧ d.dotted = if init = [] then last else
      ['.'].intercalate init ++ '.' :: last := by
  have hne : d.segments ≠ [] := by simp [segments]
  have hsplit := List.dropLast_append_getLast hne
  refine ⟨d.segments.dropLast, d.segments.getLast hne, hsplit.symm,
    h.identifiers _ (List.getLast_mem hne), ?_⟩
  rw [dotted]
  nth_rewrite 1 [← hsplit]
  rw [intercalate_concat]
  rfl

theorem ofList_intercalate (ss : List (List Char)) :
    String.ofList (['.'].intercalate ss) = ".".intercalate (ss.map String.ofList) := by
  rw [← String.toList_inj, String.toList_intercalate, List.map_map]
  have hself : String.toList ∘ String.ofList = id := by
    funext s
    simp
  simp [hself]

theorem plain_eq (d : DecoratedName) : d.plain = String.ofList d.dotted :=
  (ofList_intercalate d.segments).symm

/-- The plain name is cut at its last dot. -/
theorem split_plain (h : d.IsProper) : ∃ short, d.names.getLast? = some short ∧
    Name.split d.plain = (".".intercalate d.names.dropLast, short) := by
  obtain ⟨init, last, hsegments, hlast, hdotted⟩ := exists_last h
  have hnames : d.names = init.map String.ofList ++ [String.ofList last] := by
    rw [names, hsegments, List.map_append]
    rfl
  have hdot : '.' ∉ last := not_mem_of_isIdentifier hlast (by decide)
  refine ⟨String.ofList last, by simp [hnames], ?_⟩
  rw [plain_eq, Name.split, String.toList_ofList, hdotted, hnames, List.dropLast_concat]
  by_cases hinit : init = []
  · rw [if_pos hinit, cutLast?_eq_none hdot, hinit]
    rfl
  · rw [if_neg hinit, cutLast?_append _ hdot, ← ofList_intercalate]

theorem getLast?_dotted (h : d.IsProper) : ∀ c ∈ d.dotted.getLast?, isNamePart c = true := by
  obtain ⟨init, last, -, hlast, hdotted⟩ := exists_last h
  obtain ⟨before, hbefore⟩ : ∃ before, d.dotted = before ++ last := by
    rw [hdotted]
    split
    · exact ⟨[], rfl⟩
    · exact ⟨['.'].intercalate init ++ ['.'], by simp⟩
  rw [hbefore, List.getLast?_append_of_ne_nil _ (ne_nil_of_isIdentifier hlast)]
  exact fun c hc => isNamePart_of_mem hlast c (List.mem_of_getLast? hc)

theorem trimWith_dotted (h : d.IsProper) : trimWith (· == '.') d.dotted = d.dotted := by
  refine Shape.trimWith_dot (startsName_dotted h) fun c hc => ?_
  rintro rfl
  exact absurd (getLast?_dotted h '.' hc) (by decide)

theorem isMark_of_mem_marks (h : d.IsProper) : ∀ c ∈ d.marks, Shape.isMark c = true := by
  intro c hc
  obtain ⟨hmem, hne⟩ := List.mem_filter.1 hc
  exact ((suffix_cases (h.suffix c hmem)).resolve_left (by simpa using hne)).1

theorem arrayRank?_text (h : d.array.IsProper) :
    Shape.arrayRank? d.array.text = some d.array.rank := by
  cases hcase : d.array with
  | none => rfl
  | two => rfl
  | one digits =>
    rw [hcase] at h
    have hclose : ∀ c ∈ [']'].head?, isDecimalDigit c = false := by decide
    have hdigits := (Shape.splitWhile h hclose).2
    have hcomma : ∀ cs, digits ++ [']'] ≠ ',' :: cs := by
      intro cs heq
      cases digits with
      | nil => simp at heq
      | cons e digits =>
        obtain rfl : e = ',' := (List.cons.inj heq).1
        exact absurd (h ',' (by simp)) (by decide)
    rw [ArraySuffix.text, ArraySuffix.rank, Shape.arrayRank?, if_pos hdigits]
    exact fun heq => hcomma _ heq

/-- No dot is missing behind a leading `System`. -/
theorem repairSystem_normal (h : d.IsProper) :
    Descriptor.repairSystem (d.dotted ++ (d.marks ++ d.array.text)) =
      d.dotted ++ (d.marks ++ d.array.text) := by
  have hfirst : Descriptor.repairSystem d.first = d.first := by
    rcases Descriptor.repairSystem_cases d.first with hself | ⟨c, cs, hc, heq, -⟩
    · exact hself
    · simp [h.isSteady c cs heq] at hc
  have hdotted : Descriptor.repairSystem d.dotted = d.dotted := by
    rw [dotted, segments]
    cases d.rest with
    | nil => simpa using hfirst
    | cons p rest =>
      rw [List.map_cons, List.intercalate_cons_cons, List.append_assoc]
      exact Shape.repairSystem_append hfirst (by simp)
  refine Shape.repairSystem_append hdotted fun c hc => Shape.not_alphanumeric_of_continuesName ?_
  exact Shape.head?_marks_array (isMark_of_mem_marks h) (arrayRank?_text h.array) c hc

/-- A decorated name is read as its chain with the decorations around it. -/
theorem parse_text (h : d.IsProper) :
    standard.parse d.text =
      { toTypeForm :=
          Descriptor.formOfShape { raw := d.text, qualifiers := { isConst := d.isConst } }
            ⟨d.dotted, [], false, none, d.marks, d.array.rank⟩ } := by
  have hname : ∀ c ∈ d.dotted, Shape.continuesName c = true := by
    intro c hc
    rcases forall_mem_dotted h c hc with hc | rfl
    · simp [Shape.continuesName, isWordChar_of_isNamePart hc]
    · decide
  have hraw : d.text.toList = constPrefix d.isConst ++ d.body := by simp [text]
  rw [DeclarationParser.parse_of_isBare hraw (isBare_body h), normalize_body h]
  exact Descriptor.ofText_of_parts (startsName_dotted h) hname (isMark_of_mem_marks h)
    (arrayRank?_text h.array) none rfl (repairSystem_normal h)

/-- What is read from a decorated name is its chain and what its decorations say. -/
theorem describes_parse (h : d.IsProper) : d.Describes (standard.parse d.text) := by
  have hname : String.ofList (trimWith (· == '.') d.dotted) = d.plain := by
    rw [trimWith_dotted h, plain_eq]
  obtain ⟨short, hlast, hsplit⟩ := split_plain h
  have hmem : ∀ c, c ≠ ' ' → (c ∈ d.marks ↔ c ∈ d.suffix) := by
    intro c hc
    simp [marks, List.mem_filter, hc]
  have hcount : d.marks.count '*' = d.suffix.count '*' := List.count_filter (by decide)
  rw [parse_text h]
  refine ⟨rfl, hname, ?_, ?_, rfl, ?_, ?_, ?_, ?_, rfl⟩
  · simp [Descriptor.formOfShape, hname, hsplit]
  · simp [Descriptor.formOfShape, hname, Name.short, hsplit, hlast]
  · simp [Descriptor.formOfShape, hcount, Nat.min_comm]
  · simp [Descriptor.formOfShape, hmem]
  · simp [Descriptor.formOfShape, hmem]
  · simp [Descriptor.formOfShape, hmem]

end DecoratedName

end TypeAtlas
