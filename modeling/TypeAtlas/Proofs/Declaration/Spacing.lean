import Mathlib.Data.List.Chain
import TypeAtlas.Declaration.Parser

/-!
# Spacing of names

The normal form of a declaration has single blanks, none of them at an end or beside punctuation.
The grammar cuts a name out of it at punctuation, so that a name has no blanks at its ends either.

## Main definitions

* `Text.IsTrimmed` — no blank at either end.
* `Spacing.Tight` — the spacing of a text in normal form.

The main statement is `DeclarationParser.trimmed_fullName_parse`: the name that is read from a
declaration is trimmed.
-/

namespace TypeAtlas

namespace Text

/-! ## Trimmed texts -/

/-- No blank at either end. -/
def IsTrimmed (s : List Char) : Prop :=
  (∀ c ∈ s.head?, isBlank c = false) ∧ ∀ c ∈ s.getLast?, isBlank c = false

theorem dropWhile_eq_self {p : Char → Bool} {s : List Char} (h : ∀ c ∈ s.head?, p c = false) :
    s.dropWhile p = s := by
  cases s with
  | nil => rfl
  | cons c cs => simp [h c (by simp)]

theorem trim_eq_self {s : List Char} (h : IsTrimmed s) : trim s = s := by
  unfold trim trimWith trimEnd
  rw [dropWhile_eq_self h.1, dropWhile_eq_self (by simpa using h.2), List.reverse_reverse]

theorem head?_dropWhile_not {p : Char → Bool} {s : List Char} :
    ∀ c ∈ (s.dropWhile p).head?, p c = false := by
  intro c hc
  have := List.head?_dropWhile_not p s
  rw [Option.mem_def.1 hc] at this
  exact this

theorem getLast?_trimEnd (p : Char → Bool) (s : List Char) :
    ∀ c ∈ (trimEnd p s).getLast?, p c = false := by
  rw [trimEnd, List.getLast?_reverse]
  exact head?_dropWhile_not

/-- What is left of a text when it is trimmed has none of the unwanted characters at an end. -/
theorem ends_trimWith (p : Char → Bool) (s : List Char) :
    (∀ c ∈ (trimWith p s).head?, p c = false) ∧ ∀ c ∈ (trimWith p s).getLast?, p c = false := by
  refine ⟨?_, getLast?_trimEnd p _⟩
  unfold trimWith trimEnd
  intro c hc
  rw [List.head?_reverse] at hc
  have hlast : (s.dropWhile p).reverse.getLast? = some c := by
    obtain ⟨t, ht⟩ := List.dropWhile_suffix p (l := (s.dropWhile p).reverse)
    rw [← ht, List.getLast?_append, Option.mem_def.1 hc]
    rfl
  rw [List.getLast?_reverse] at hlast
  exact head?_dropWhile_not c hlast

theorem isTrimmed_trim (s : List Char) : IsTrimmed (trim s) :=
  ends_trimWith isBlank s

theorem isTrimmed_iff {s : String} : IsTrimmed s.toList ↔ trimmed s = s := by
  constructor
  · intro h
    rw [trimmed, trim_eq_self h, String.ofList_toList]
  · intro h
    rw [← h, toList_trimmed]
    exact isTrimmed_trim _

@[simp] theorem trim_trim (s : List Char) : trim (trim s) = trim s :=
  trim_eq_self (isTrimmed_trim s)

@[simp] theorem trimmed_trimmed (s : String) : trimmed (trimmed s) = trimmed s := by
  simp [trimmed]

theorem isBlank_of_isUpper {c : Char} (h : c.isUpper = true) : isBlank c = false := by
  have hrange : 65 ≤ c.toNat ∧ c.toNat ≤ 90 := by
    obtain ⟨hlow, hhigh⟩ := of_decide_eq_true h
    exact ⟨UInt32.le_iff_toNat_le.1 hlow, UInt32.le_iff_toNat_le.1 hhigh⟩
  rw [Bool.eq_false_iff]
  intro hblank
  simp [isBlank, Char.le_def, UInt32.le_iff_toNat_le, Char.ext_iff, ← UInt32.toNat_inj] at hblank
  omega

theorem ne_of_isBlank {c d : Char} (hc : isBlank c = true) (hd : isBlank d = false) : c ≠ d := by
  rintro rfl
  simp [hc] at hd

/-! ## Words -/

/-- A non-empty text without blanks. -/
def IsSolid (w : List Char) : Prop :=
  w ≠ [] ∧ ∀ c ∈ w, isBlank c = false

theorem isSolid_cons {c : Char} {w : List Char} (hc : isBlank c = false) (hw : IsSolid w) :
    IsSolid (c :: w) := by
  refine ⟨by simp, ?_⟩
  intro d hd
  rcases List.mem_cons.1 hd with rfl | hd
  · exact hc
  · exact hw.2 d hd

theorem isSolid_singleton {c : Char} (hc : isBlank c = false) : IsSolid [c] :=
  ⟨by simp, by simpa using hc⟩

/-- The words of a text are solid. -/
theorem isSolid_of_mem_words {s w : List Char} (h : w ∈ words s) : IsSolid w := by
  fun_induction words s generalizing w <;> grind [isSolid_cons, isSolid_singleton]

end Text

open Text

namespace Spacing

/-! ## Tight texts -/

/-- What may follow a character in a text in normal form. -/
def Fits (a b : Char) : Prop :=
  (isBlank a = true → isBlank b = false ∧ isPunctuation b = false) ∧
    (isBlank b = true → isPunctuation a = false)

/-- The spacing of a text in normal form: no blank stands at an end, beside another blank or beside
punctuation. -/
structure Tight (s : List Char) : Prop where
  isTrimmed : IsTrimmed s
  isChain : s.IsChain Fits

theorem fits_of_solid {a b : Char} (ha : isBlank a = false) (hb : isBlank b = false) :
    Fits a b := by
  simp [Fits, ha, hb]

theorem tight_nil : Tight [] :=
  ⟨by simp [IsTrimmed], .nil⟩

theorem tight_of_isSolid {w : List Char} (h : IsSolid w) : Tight w := by
  refine ⟨⟨fun c hc => h.2 c (List.mem_of_head? hc), fun c hc => h.2 c (List.mem_of_getLast? hc)⟩,
    ?_⟩
  exact (List.pairwise_of_forall_mem_list fun a ha b hb =>
    fits_of_solid (h.2 a ha) (h.2 b hb)).isChain

/-- Two tight texts may follow each other directly. -/
theorem Tight.append {s t : List Char} (hs : Tight s) (ht : Tight t) : Tight (s ++ t) := by
  refine ⟨⟨?_, ?_⟩, List.isChain_append.2 ⟨hs.isChain, ht.isChain, ?_⟩⟩
  · intro c hc
    rw [List.head?_append] at hc
    rcases Option.or_eq_some_iff.1 hc with hc | ⟨-, hc⟩
    · exact hs.isTrimmed.1 c hc
    · exact ht.isTrimmed.1 c hc
  · intro c hc
    rw [List.getLast?_append] at hc
    rcases Option.or_eq_some_iff.1 hc with hc | ⟨-, hc⟩
    · exact ht.isTrimmed.2 c hc
    · exact hs.isTrimmed.2 c hc
  · exact fun a ha b hb => fits_of_solid (hs.isTrimmed.2 a ha) (ht.isTrimmed.1 b hb)

/-- Behind punctuation a tight text is tight. -/
theorem Tight.right {s t : List Char} {c : Char} (h : Tight (s ++ c :: t))
    (hc : isPunctuation c = true) : Tight t := by
  have hchain := (List.isChain_append.1 h.isChain).2.1
  refine ⟨⟨?_, ?_⟩, hchain.of_cons⟩
  · intro d hd
    have hfits := (List.isChain_cons.1 hchain).1 d hd
    cases hb : isBlank d with
    | false => rfl
    | true => simp [hfits.2 hb] at hc
  · intro d hd
    refine h.isTrimmed.2 d ?_
    rw [List.getLast?_append, List.getLast?_cons, Option.mem_def.1 hd]
    rfl

/-- Before punctuation a tight text is tight. -/
theorem Tight.left {s t : List Char} {c : Char} (h : Tight (s ++ c :: t))
    (hc : isPunctuation c = true) : Tight s := by
  obtain ⟨hs, -, hjoint⟩ := List.isChain_append.1 h.isChain
  refine ⟨⟨?_, ?_⟩, hs⟩
  · intro d hd
    refine h.isTrimmed.1 d ?_
    rw [List.head?_append, Option.mem_def.1 hd]
    rfl
  · intro d hd
    have hfits := hjoint d hd c (by simp)
    cases hb : isBlank d with
    | false => rfl
    | true => simp [(hfits.1 hb).2] at hc

theorem Tight.dropWhile {s : List Char} {p : Char → Bool} (h : Tight s)
    (hp : ∀ c, p c = true → isPunctuation c = true) : Tight (s.dropWhile p) := by
  induction s with
  | nil => exact h
  | cons c cs ih =>
    rw [List.dropWhile_cons]
    split
    · next hc => exact ih (Tight.right (s := []) h (hp c hc))
    · exact h

theorem Tight.trimEnd {s : List Char} {p : Char → Bool} (h : Tight s)
    (hp : ∀ c, p c = true → isPunctuation c = true) : Tight (Text.trimEnd p s) := by
  induction s using List.reverseRecOn with
  | nil => exact h
  | append_singleton s c ih =>
    rw [Text.trimEnd, List.reverse_append, List.reverse_singleton, List.singleton_append,
      List.dropWhile_cons]
    split
    · next hc => exact ih (h.left (hp c hc))
    · simpa using h

theorem isPunctuation_of_beq_dot {c : Char} (h : (c == '.') = true) : isPunctuation c = true := by
  obtain rfl : c = '.' := by simpa using h
  decide

/-! ## The normal form -/

theorem tighten_append {w : List Char} (hw : IsSolid w) (previous : Char) (t : List Char) :
    tighten previous (w ++ t) = w ++ tighten (w.getLast hw.1) t := by
  induction w generalizing previous with
  | nil => exact absurd rfl hw.1
  | cons c cs ih =>
    have hc : c ≠ ' ' := by
      rintro rfl
      exact absurd (hw.2 ' ' (by simp)) (by decide)
    cases cs with
    | nil => simp [tighten, hc]
    | cons d ds =>
      have hds : IsSolid (d :: ds) := ⟨by simp, fun x hx => hw.2 x (List.mem_cons_of_mem c hx)⟩
      have := ih hds c
      simp only [List.cons_append] at this ⊢
      rw [tighten, if_neg (by simp [hc]), this, List.getLast_cons hds.1]

/-- A space may stand between two tight texts that have no punctuation beside it. -/
theorem Tight.append_space {s t : List Char} (hs : Tight s) (ht : Tight t) (hnonempty : s ≠ [])
    (hnonempty' : t ≠ []) (hlast : ∀ c ∈ s.getLast?, isPunctuation c = false)
    (hfirst : ∀ c ∈ t.head?, isPunctuation c = false) : Tight (s ++ ' ' :: t) := by
  refine ⟨⟨?_, ?_⟩, List.isChain_append.2 ⟨hs.isChain, List.isChain_cons.2 ⟨?_, ht.isChain⟩, ?_⟩⟩
  · intro c hc
    rw [List.head?_append_of_ne_nil _ hnonempty] at hc
    exact hs.isTrimmed.1 c hc
  · intro c hc
    rw [List.getLast?_append_cons, List.getLast?_cons_of_ne_nil hnonempty'] at hc
    exact ht.isTrimmed.2 c hc
  · intro b hb
    have hblank := ht.isTrimmed.1 b hb
    exact ⟨fun _ => ⟨hblank, hfirst b hb⟩, by simp [hblank]⟩
  · intro a ha b hb
    obtain rfl : ' ' = b := by simpa using hb
    exact ⟨by simp [hs.isTrimmed.2 a ha], fun _ => hlast a ha⟩

theorem head?_join {w : List Char} (hw : w ≠ []) (ws : List (List Char)) :
    ([' '].intercalate (w :: ws)).head? = w.head? := by
  cases ws with
  | nil => simp
  | cons v vs =>
    rw [List.intercalate_cons_cons, List.append_assoc, List.head?_append_of_ne_nil _ hw]

/-- Words that are joined by single spaces become tight once the spaces beside punctuation are
taken out. The first word stays in front. -/
theorem tight_tighten_join {w : List Char} {ws : List (List Char)} (hw : IsSolid w)
    (hws : ∀ v ∈ ws, IsSolid v) (previous : Char) :
    Tight (tighten previous ([' '].intercalate (w :: ws))) ∧
      (tighten previous ([' '].intercalate (w :: ws))).head? = w.head? := by
  induction ws generalizing w previous with
  | nil =>
    have hone : [' '].intercalate [w] = w ++ [] := by simp
    rw [hone, tighten_append hw]
    simpa [tighten] using tight_of_isSolid hw
  | cons v vs ih =>
    have hv : IsSolid v := hws v (by simp)
    obtain ⟨htight, hhead⟩ := ih hv (fun u hu => hws u (List.mem_cons_of_mem v hu)) ' '
    have hjoin : [' '].intercalate (w :: v :: vs) = w ++ ' ' :: [' '].intercalate (v :: vs) := by
      simp [List.intercalate_cons_cons]
    rw [hjoin, tighten_append hw, tighten]
    refine ⟨?_, by split <;> exact List.head?_append_of_ne_nil _ hw.1⟩
    split
    · exact (tight_of_isSolid hw).append htight
    · next hno =>
      simp only [List.headD_eq_head?_getD, head?_join hv.1, Bool.and_eq_true, decide_eq_true_eq,
        Bool.or_eq_true, true_and, not_or, Bool.not_eq_true] at hno
      refine (tight_of_isSolid hw).append_space htight hw.1 ?_ ?_ ?_
      · intro hnil
        rw [hnil] at hhead
        exact hv.1 (List.head?_eq_none_iff.1 hhead.symm)
      · intro c hc
        obtain rfl : w.getLast hw.1 = c := by
          simpa [List.getLast?_eq_some_getLast hw.1] using hc
        exact hno.1
      · intro c hc
        rw [hhead] at hc
        simpa [Option.mem_def.1 hc] using hno.2

theorem tight_normalize (s : List Char) : Tight (normalize s) := by
  refine Tight.dropWhile ?_ fun c => isPunctuation_of_beq_dot
  unfold collapse
  cases hw : words (Name.dotted s) with
  | nil => simpa [tighten] using tight_nil
  | cons w ws =>
    have hsolid : ∀ v ∈ w :: ws, IsSolid v := fun v hv => isSolid_of_mem_words (hw ▸ hv)
    exact (tight_tighten_join (hsolid w (by simp))
      (fun v hv => hsolid v (List.mem_cons_of_mem w hv)) ' ').1

end Spacing

/-! ## Names -/

namespace Shape

/-- The name of a declaration ends with the declaration or before punctuation. -/
theorem isPunctuation_of_head?_dropWhile {s : List Char} {shape : Shape}
    (h : ofText? s = some shape) :
    ∀ c ∈ (s.dropWhile continuesName).head?, Spacing.isPunctuation c = true := by
  intro c hc
  obtain ⟨cs, hcs⟩ : ∃ cs, s.dropWhile continuesName = c :: cs := by
    cases hd : s.dropWhile continuesName with
    | nil => simp [hd] at hc
    | cons d ds => exact ⟨ds, by simp_all⟩
  by_contra hno
  have hstar : c ≠ '*' := fun h => hno (h ▸ by decide)
  have hquery : c ≠ '?' := fun h => hno (h ▸ by decide)
  have hopen : c ≠ '<' := fun h => hno (h ▸ by decide)
  have hbracket : c ≠ '[' := fun h => hno (h ▸ by decide)
  have hmark : isMark c = false := by
    by_contra hmark
    simp only [isMark, Bool.not_eq_false, Bool.or_eq_true, beq_iff_eq] at hmark
    rcases hmark with (((rfl | rfl) | rfl) | rfl) | rfl <;> exact hno (by decide)
  have h1 : takeAsterisks (c :: cs) = ([], c :: cs) := takeAsterisks_of_ne (by simpa using hstar)
  have h2 : takeQuery (c :: cs) = (false, c :: cs) := takeQuery_of_ne (by simpa using hquery)
  have h3 : takeArguments? (c :: cs) = some (none, c :: cs) :=
    takeArguments?_of_ne (by simpa using hopen)
  have h4 : arrayRank? (c :: cs) = none := by
    unfold arrayRank?
    split <;> simp_all
  simp [ofText?, hcs, h1, h2, h3, hmark, h4] at h

theorem name_eq {s : List Char} {shape : Shape} (h : ofText? s = some shape) :
    shape.name = s.takeWhile continuesName := by
  unfold ofText? at h
  dsimp only at h
  split at h
  · split at h
    · simp at h
    · obtain ⟨rank, -, rfl⟩ := Option.map_eq_some_iff.1 h
      rfl
  · simp at h

theorem tight_name {s : List Char} {shape : Shape} (hs : Spacing.Tight s)
    (h : ofText? s = some shape) : Spacing.Tight shape.name := by
  have hsplit := List.takeWhile_append_dropWhile (p := continuesName) (l := s)
  rw [name_eq h]
  cases hd : s.dropWhile continuesName with
  | nil =>
    rw [hd, List.append_nil] at hsplit
    rwa [hsplit]
  | cons c cs =>
    rw [hd] at hsplit
    rw [← hsplit] at hs
    exact hs.left (isPunctuation_of_head?_dropWhile h c (by simp [hd]))

end Shape

namespace Descriptor

theorem tight_repairSystem {s : List Char} (h : Spacing.Tight s) :
    Spacing.Tight (repairSystem s) := by
  unfold repairSystem
  split
  · next c cs hs =>
    split
    · next hupper =>
      rw [behind?_eq_some_iff.1 hs] at h
      have hc : isBlank c = false := isBlank_of_isUpper hupper
      have hrest := List.isChain_append.1 h.isChain
      have hlast : ∀ d ∈ (c :: cs).getLast?, isBlank d = false := by
        intro d hd
        refine h.isTrimmed.2 d ?_
        rw [List.getLast?_append, Option.mem_def.1 hd]
        rfl
      have hsystem : IsSolid "System.".toList := by
        have hblanks : "System.".toList.all (!isBlank ·) = true := by decide +kernel
        refine ⟨by simp, ?_⟩
        intro d hd
        rw [← Bool.not_eq_true', List.all_eq_true.1 hblanks d hd]
      exact (Spacing.tight_of_isSolid hsystem).append
        ⟨⟨by simpa using hc, hlast⟩, hrest.2.1⟩
    · exact h
  · exact h

/-- The name that is read from a text in normal form has no blanks at its ends. -/
theorem isTrimmed_fullName_ofText (base : TypeForm) {s : List Char} (h : Spacing.Tight s) :
    IsTrimmed (ofText base s).fullName.toList := by
  have hrepaired := tight_repairSystem h
  rw [ofText]
  split
  · simpa [formOfUnknown] using hrepaired.isTrimmed
  · next shape hshape =>
    have hname := (Shape.tight_name hrepaired hshape).dropWhile
      fun c => Spacing.isPunctuation_of_beq_dot
    simpa [formOfShape, trimWith] using
      (hname.trimEnd fun c => Spacing.isPunctuation_of_beq_dot).isTrimmed

end Descriptor

/-- The name that is read from a declaration has no blanks at its ends. -/
theorem DeclarationParser.trimmed_fullName_parse (parser : DeclarationParser) (raw : String) :
    trimmed (parser.parse raw).fullName = (parser.parse raw).fullName := by
  have h := Descriptor.isTrimmed_fullName_ofText (parser.clean raw).1
    (s := (parser.clean raw).2) (Spacing.tight_normalize _)
  rw [trimmed, parse, trim_eq_self h, String.ofList_toList]

end TypeAtlas
