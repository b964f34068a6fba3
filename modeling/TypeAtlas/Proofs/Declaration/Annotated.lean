import Mathlib.Data.List.ReduceOption
import TypeAtlas.Proofs.Declaration.Bare

/-!
# Annotated declarations

Annotations in front of a declaration leave their marks on its type and change nothing else. The
tokens of a table are taken out one after the other; since the table is in order, the token that is
taken out next occurs in none of the annotations that are still there but in its own uses.

## Main definitions

* `Annotation.Use` — an annotation as it is written, with the argument that may follow it.
* `Annotation.Use.Fits` — a use of an annotation of a table.
* `Annotation.written` — uses of annotations in a row, some of them taken out already.
* `DeclarationParser.annotated` — a declaration behind uses of annotations.

The main statements are `Annotation.strip_written` for one token,
`Annotation.foldl_stripStep_written` for a table and `DeclarationParser.parse_annotated` for what is
read.
-/

namespace TypeAtlas

open Text

namespace Annotation

variable {a : Annotation} {table : List Annotation} {r : List Char}

/-! ## Arguments -/

/-- A text with matched parentheses closes none of those around it. -/
theorem afterClosing?_balanced {s : List Char} (hs : Balanced '(' ')' s) (depth : Nat)
    (t : List Char) : afterClosing? (depth + 1) (s ++ t) = afterClosing? (depth + 1) t := by
  induction hs generalizing depth t with
  | nil => rfl
  | cons hopen hclose _ ih => rw [List.cons_append, afterClosing?, if_neg hopen, if_neg hclose, ih]
  | @nest s u _ _ ihs ihu =>
    calc afterClosing? (depth + 1) ('(' :: (s ++ ')' :: u) ++ t)
        = afterClosing? (depth + 2) (s ++ ')' :: (u ++ t)) := by simp [afterClosing?]
      _ = afterClosing? (depth + 2) (')' :: (u ++ t)) := ihs (depth + 1) _
      _ = afterClosing? (depth + 1) (u ++ t) := by simp [afterClosing?]
      _ = afterClosing? (depth + 1) t := ihu depth t

theorem dropArgument_parenthesised {s : List Char} (hs : Balanced '(' ')' s) (t : List Char) :
    dropArgument ('(' :: (s ++ ')' :: t)) = t := by
  have hclose : afterClosing? 0 ('(' :: (s ++ ')' :: t)) = some t := by
    rw [afterClosing?, if_pos rfl, afterClosing?_balanced hs]
    simp [afterClosing?]
  simp [dropArgument, hclose]

/-! ## Uses of annotations -/

/-- An annotation of a declaration, with what stands between the parentheses behind it. -/
structure Use where
  source : Annotation
  argument : Option (List Char)

namespace Use

/-- What is written behind the token. -/
def tail (use : Use) : List Char :=
  match use.argument with
  | none => []
  | some argument => '(' :: (argument ++ [')'])

/-- The annotation as it is written. -/
def text (use : Use) : List Char :=
  use.source.token ++ use.tail

/-- A use of an annotation of a table: the parentheses in its argument are matched, and no token
occurs there. -/
structure Fits (table : List Annotation) (use : Use) : Prop where
  known : use.source ∈ table
  balanced : ∀ argument ∈ use.argument, Balanced '(' ')' argument
  free : ∀ argument ∈ use.argument, ∀ a ∈ table, ¬ a.token <:+: argument

/-- The marks that any of the annotations leaves. -/
def marks (uses : List Use) : Marks where
  isIn := uses.any (·.source.marks.isIn)
  isOut := uses.any (·.source.marks.isOut)
  isOptional := uses.any (·.source.marks.isOptional)
  isComPointer := uses.any (·.source.marks.isComPointer)

variable {use : Use}

theorem dropArgument_tail (h : use.Fits table) (t : List Char) :
    dropArgument (use.tail ++ ' ' :: t) = ' ' :: t := by
  unfold tail
  cases harg : use.argument with
  | none => rfl
  | some argument =>
    have hdrop := dropArgument_parenthesised (h.balanced argument harg) (' ' :: t)
    simpa using hdrop

/-- A token occurs in the uses of the annotations only whose tokens it occurs in. -/
theorem not_infix_text (h : use.Fits table) (ha : a ∈ table) (hfirm : IsFirm a.token)
    (htoken : ¬ a.token <:+: use.source.token) : ¬ a.token <:+: use.text := by
  unfold text tail
  cases harg : use.argument with
  | none => simpa using htoken
  | some argument =>
    rw [infix_append_cons hfirm.parentheses.1, infix_append_cons hfirm.parentheses.2]
    exact not_or.2 ⟨htoken, not_or.2 ⟨h.free argument harg a ha, not_infix_nil a⟩⟩

theorem getLast?_text (hfirm : IsFirm use.source.token) :
    ∀ c ∈ use.text.getLast?, c ≠ ',' := by
  intro c hc
  unfold text tail at hc
  cases harg : use.argument with
  | none =>
    rw [harg, List.append_nil] at hc
    exact (hfirm.last c hc).2
  | some argument =>
    obtain rfl : ')' = c := by
      simpa [harg, List.getLast?_append, List.getLast?_cons] using hc
    decide

end Use

theorem mem_of_mem_trim {c : Char} {s : List Char} (h : c ∈ trim s) : c ∈ s := by
  rw [trim, trimWith, trimEnd, List.mem_reverse] at h
  exact (List.dropWhile_suffix _).subset
    (List.mem_reverse.1 ((List.dropWhile_suffix _).subset h))

/-! ## Taking out one token -/

/-- Uses of annotations in a row, each with a blank behind it; a blank stands for a use that was
taken out. -/
def written (slots : List (Option Use)) : List Char :=
  slots.flatMap fun slot => slot.elim [' '] Use.text ++ [' ']

/-- Whether a use of the annotation is still there. -/
def holds (a : Annotation) (slot : Option Use) : Bool :=
  slot.any (·.source.token == a.token)

/-- What is left when the uses of the annotation are taken out. -/
def clear (a : Annotation) (slot : Option Use) : Option Use :=
  slot.filter (·.source.token != a.token)

variable {use : Use} {slots : List (Option Use)}

@[simp] theorem clear_none : clear a none = none := rfl

theorem clear_of_eq (h : use.source.token = a.token) : clear a (some use) = none := by
  simp [clear, h]

theorem clear_of_ne (h : use.source.token ≠ a.token) : clear a (some use) = some use := by
  simp [clear, h]

theorem closed_blanks (hfirm : IsFirm a.token) : Closed a.token [' ', ' '] := by
  refine closed_of_isFirm (s := [' ']) hfirm (fun hin => ?_) (by simp)
  obtain ⟨c, hc, hsolid⟩ := List.any_eq_true.1 a.solid
  obtain rfl : c = ' ' := by simpa using hin.subset hc
  simp [isBlank] at hsolid

/-- A token is taken out where it is used, and nowhere else. -/
theorem strip_written (hordered : Ordered (a :: table)) (hfirm : ∀ b ∈ a :: table, IsFirm b.token)
    (hslots : ∀ use, some use ∈ slots → use.Fits (a :: table)) (hr : ¬ a.token <:+: r) :
    a.strip (written slots ++ r) = (written (slots.map (clear a)) ++ r, slots.any (holds a)) := by
  have hself : IsFirm a.token := hfirm a (by simp)
  have hblanks := strip_append_of_closed (closed_blanks hself)
  induction slots with
  | nil => exact strip_eq_self hr
  | cons slot slots ih =>
    have hrest := ih fun use huse => hslots use (List.mem_cons_of_mem slot huse)
    have hcons : ∀ slot slots, written (slot :: slots) ++ r =
        (slot.elim [' '] Use.text ++ [' ']) ++ (written slots ++ r) := by simp [written]
    rw [List.map_cons, List.any_cons, hcons, hcons]
    cases slot with
    | none =>
      rw [Option.elim_none, List.singleton_append, hblanks, hrest]
      rfl
    | some use =>
      have hfits := hslots use (by simp)
      by_cases htoken : use.source.token = a.token
      · have hcut : cutAt? a.token ((use.text ++ [' ']) ++ (written slots ++ r)) =
            some ([], use.tail ++ ' ' :: (written slots ++ r)) := by
          have hfound := cutAt?_append_self a.token (use.tail ++ ' ' :: (written slots ++ r))
          simpa [Use.text, htoken] using hfound
        have hout := hblanks (written slots ++ r)
        simp only [List.cons_append, List.nil_append] at hout
        rw [Option.elim_some, strip_of_cutAt? hcut, Use.dropArgument_tail hfits, clear_of_eq htoken]
        simp [hout, hrest, holds, htoken]
      · have hother : ¬ a.token <:+: use.source.token := by
          rcases List.mem_cons.1 hfits.known with rfl | hmem
          · exact absurd rfl htoken
          · exact (List.pairwise_cons.1 hordered).1 _ hmem
        have hclosed := closed_of_isFirm hself (Use.not_infix_text hfits (by simp) hself hother)
          (Use.getLast?_text (hfirm _ hfits.known))
        rw [Option.elim_some, strip_append_of_closed hclosed, hrest, clear_of_ne htoken]
        simp [holds, htoken]

/-! ## Taking out the tokens of a table -/

/-- An annotation leaves its marks where it is used; the others leave theirs later. -/
theorem any_reduceOption (f : Marks → Bool)
    (hslots : ∀ use, some use ∈ slots → use.source.token = a.token → use.source = a) :
    slots.reduceOption.any (f ·.source.marks) =
      (slots.any (holds a) && f a.marks ||
        (slots.map (clear a)).reduceOption.any (f ·.source.marks)) := by
  induction slots with
  | nil => rfl
  | cons slot slots ih =>
    have hrest := ih fun use huse => hslots use (List.mem_cons_of_mem slot huse)
    cases slot with
    | none => simpa [holds] using hrest
    | some use =>
      rw [List.reduceOption_cons_of_some, List.any_cons, hrest, List.any_cons, List.map_cons]
      by_cases htoken : use.source.token = a.token
      · have hsame := hslots use (by simp) htoken
        cases h : f a.marks <;> simp [holds, clear_of_eq htoken, hsame, h]
      · simp [holds, clear_of_ne htoken, beq_eq_false_iff_ne.2 htoken, Bool.or_left_comm]

/-- The marks of an annotation and those of the uses behind it are the marks of all uses. -/
theorem union_marks_clear (marks : Marks)
    (hslots : ∀ use, some use ∈ slots → use.source.token = a.token → use.source = a) :
    (if slots.any (holds a) then marks.union a.marks else marks).union
        (Use.marks (slots.map (clear a)).reduceOption) =
      marks.union (Use.marks slots.reduceOption) := by
  simp only [Use.marks, Marks.union, any_reduceOption Marks.isIn hslots,
    any_reduceOption Marks.isOut hslots, any_reduceOption Marks.isOptional hslots,
    any_reduceOption Marks.isComPointer hslots]
  cases slots.any (holds a) <;> simp [Bool.or_assoc]

/-- What is left is used with the tokens behind the one that was taken out. -/
theorem fits_of_mem_clear (hslots : ∀ use, some use ∈ slots → use.Fits (a :: table))
    (huse : some use ∈ slots.map (clear a)) : use.Fits table := by
  obtain ⟨slot, hslot, heq⟩ := List.mem_map.1 huse
  obtain ⟨rfl, htoken⟩ := Option.filter_eq_some_iff.1 heq
  have hfits := hslots use hslot
  refine ⟨(List.mem_cons.1 hfits.known).resolve_left ?_, hfits.balanced,
    fun argument harg b hb => hfits.free argument harg b (List.mem_cons_of_mem a hb)⟩
  rintro hself
  simp [hself] at htoken

/-- All uses are taken out, and the marks of each one are left. -/
theorem foldl_stripStep_written (hordered : Ordered table) (hfirm : ∀ a ∈ table, IsFirm a.token)
    (hslots : ∀ use, some use ∈ slots → use.Fits table) (hr : ∀ a ∈ table, ¬ a.token <:+: r)
    (marks : Marks) :
    table.foldl stripStep (written slots ++ r, marks) =
      (written (slots.map fun _ => none) ++ r, marks.union (Use.marks slots.reduceOption)) := by
  induction table generalizing slots marks with
  | nil =>
    have hnone : ∀ slot ∈ slots, slot = none := by
      rintro (_ | use) hmem
      · rfl
      · simpa using (hslots use hmem).known
    obtain ⟨n, rfl⟩ : ∃ n, slots = List.replicate n none :=
      ⟨slots.length, List.eq_replicate_iff.2 ⟨rfl, hnone⟩⟩
    simp [Use.marks, Marks.union, List.reduceOption_replicate_none]
  | cons a table ih =>
    have hsame : ∀ use, some use ∈ slots → use.source.token = a.token →
        use.source = a := by
      intro use huse htoken
      refine (List.mem_cons.1 (hslots use huse).known).resolve_right fun hmem => ?_
      exact (List.pairwise_cons.1 hordered).1 _ hmem (htoken ▸ List.infix_refl _)
    have hstep : stripStep (written slots ++ r, marks) a = (written (slots.map (clear a)) ++ r,
        if slots.any (holds a) then marks.union a.marks else marks) := by
      rw [stripStep, strip_written hordered hfirm hslots (hr a (by simp))]
      cases slots.any (holds a) <;> rfl
    rw [List.foldl_cons, hstep, ih (List.pairwise_cons.1 hordered).2
      (fun b hb => hfirm b (List.mem_cons_of_mem a hb)) (fun _ => fits_of_mem_clear hslots)
      (fun b hb => hr b (List.mem_cons_of_mem a hb)), union_marks_clear marks hsame, List.map_map]
    rfl

/-- A token of letters, digits and underscores is firm. -/
theorem isFirm_of_forall (ha : ∀ c ∈ a.token, c.isAlphanum = true ∨ c = '_') : IsFirm a.token := by
  have hout : ∀ d, d.isAlphanum = false → d ≠ '_' → d ∉ a.token := by
    intro d hd hne hmem
    rcases ha d hmem with h | h
    · simp [h] at hd
    · exact hne h
  have hblank := hout ' ' (by decide) (by decide)
  have hcomma := hout ',' (by decide) (by decide)
  refine ⟨?_, ?_, hout '(' (by decide) (by decide), hout ')' (by decide) (by decide)⟩
  · refine (List.pairwise_cons.2 ⟨fun d hd hspace => ?_, ?_⟩).isChain
    · exact absurd (hspace ▸ hd) hblank
    · exact List.pairwise_of_forall_mem_list fun c _ d hd hspace => absurd (hspace ▸ hd) hblank
  · intro c hc
    have hmem := List.mem_of_getLast? hc
    exact ⟨fun h => hblank (h ▸ hmem), fun h => hcomma (h ▸ hmem)⟩

theorem isFirm_withExtras {extras : List String}
    (hextras : ∀ extra ∈ extras, ∀ c ∈ extra.toList, c.isAlphanum = true ∨ c = '_') :
    ∀ a ∈ withExtras extras, IsFirm a.token :=
  forall_mem_withExtras isFirm_builtin fun extra hextra _ =>
    isFirm_of_forall fun c hc => hextras extra hextra c (mem_of_mem_trim hc)

end Annotation

/-! ## Reading -/

open Annotation (Ordered Use written stripAll foldl_stripStep_written ordered_withExtras
  isFirm_withExtras)

namespace Entity

variable {old new s t : List Char}

theorem decode_append_of_not_mem (hs : '&' ∉ s) (t : List Char) :
    decode (s ++ t) = s ++ decode t := by
  have hreplace : ∀ old new t,
      replace ('&' :: old) new (s ++ t) = s ++ replace ('&' :: old) new t := by
    intro old new t
    induction s with
    | nil => rfl
    | cons c s ih =>
      rw [List.mem_cons, not_or] at hs
      have hstart : ('&' :: old).isPrefixOf (c :: (s ++ t)) = false := by
        simp [List.isPrefixOf, hs.1]
      rw [List.cons_append, replace, replaceFrom, hstart, ← replace.eq_def, ih hs.2]
      rfl
  have hamp : "&amp;".toList = '&' :: "amp;".toList := by decide
  have hlt : "&lt;".toList = '&' :: "lt;".toList := by decide
  have hgt : "&gt;".toList = '&' :: "gt;".toList := by decide
  have hstar : "&#42;".toList = '&' :: "#42;".toList := by decide
  unfold decode
  dsimp only
  rw [hamp, hlt, hgt, hstar, hreplace, hreplace, hreplace, hreplace]

end Entity

namespace Descriptor

/-- The text and the marks that are known of a type beforehand stay with it. -/
theorem ofText_marked (base : TypeForm) (raw : String) (marks : Marks) (s : List Char) :
    ofText { base with raw, marks := base.marks.union marks } s =
      { ofText base s with raw, marks := (ofText base s).marks.union marks } := by
  rw [ofText, ofText]
  split
  · rfl
  · simp [formOfShape, Marks.union, Bool.or_right_comm]

end Descriptor

namespace DeclarationParser

variable {parser : DeclarationParser} {uses : List Use} {s : List Char}

/-- A declaration behind uses of annotations, each with a blank behind it. -/
def annotated (uses : List Use) (declaration : String) : String :=
  String.ofList (uses.flatMap (fun use => use.text ++ [' ']) ++ declaration.toList)

/-- Blanks in front of a text change nothing in what is read from it. -/
theorem read_blanks_append (hs : ∀ c ∈ s, c = ' ') (t : List Char) :
    Keyword.qualifiers (s ++ t) = Keyword.qualifiers t ∧
      Entity.marksReference (Keyword.strip (s ++ t)) = Entity.marksReference (Keyword.strip t) ∧
      Spacing.normalize (Entity.decode (Keyword.strip (s ++ t))) =
        Spacing.normalize (Entity.decode (Keyword.strip t)) := by
  have hword : ∀ c ∈ s, isWordChar c = false := by
    intro c hc
    rw [hs c hc]
    decide
  have hblank : ∀ c ∈ s, isBlank c = true := by
    intro c hc
    rw [hs c hc]
    decide
  have hamp : '&' ∉ s := fun hmem => absurd (hs '&' hmem) (by decide)
  have hall : Keyword.all (s ++ t) = Keyword.all t := by
    have hlast : ∀ c ∈ s.getLast?, isWordChar c = false :=
      fun c hc => hword c (List.mem_of_getLast? hc)
    rw [Keyword.all_eq, Keyword.all_eq, Segment.wordsIn_append (.inl hlast),
      Segment.wordsIn_of_other hword, List.nil_append]
  have hopen : Annotation.IsOpen s := fun c hc => hs c (List.mem_of_getLast? hc)
  have hstrip : Keyword.strip (s ++ t) = s ++ Keyword.strip t := by
    have hself : Keyword.all s = [] := by
      rw [Keyword.all_eq, Segment.wordsIn_of_other hword, List.filterMap_nil]
    rw [Keyword.strip_append hopen, Keyword.strip_eq_self hself]
  have hreference : Entity.marksReference (s ++ Keyword.strip t) =
      Entity.marksReference (Keyword.strip t) := by
    rw [Bool.eq_iff_iff, Entity.marksReference, Entity.marksReference, occursIn_iff, occursIn_iff,
      infix_append_left (by decide)]
    intro c hc hmem
    obtain rfl : '&' = c := by simpa using hc
    exact hamp hmem
  rw [hstrip, Entity.decode_append_of_not_mem hamp, normalize_append_of_blank hblank, hreference,
    Keyword.qualifiers, Keyword.qualifiers, hall]
  exact ⟨rfl, rfl, rfl⟩

section Annotated

variable {extras : List String} {declaration : String}
  (hextras : ∀ extra ∈ extras, ∀ c ∈ extra.toList, c.isAlphanum = true ∨ c = '_')
  (huses : ∀ use ∈ uses, use.Fits (withExtras extras).annotations)
  (hdeclaration : ∀ a ∈ (withExtras extras).annotations, ¬ a.token <:+: declaration.toList)

include hextras huses hdeclaration

theorem clean_annotated :
    (withExtras extras).clean (annotated uses declaration) =
      ({ ((withExtras extras).clean declaration).1 with
          raw := annotated uses declaration
          marks := ((withExtras extras).clean declaration).1.marks.union (Use.marks uses) },
        ((withExtras extras).clean declaration).2) := by
  have hwritten : (annotated uses declaration).toList =
      written (uses.map some) ++ declaration.toList := by
    simp [annotated, written, List.flatMap_map]
  have hslots : ∀ use, some use ∈ uses.map some → use.Fits (withExtras extras).annotations :=
    fun use hmem => huses use (by simpa using hmem)
  have hstrip : stripAll (withExtras extras).annotations (annotated uses declaration).toList =
      (written (uses.map fun _ => none) ++ declaration.toList, Use.marks uses) := by
    have hordered : Ordered (withExtras extras).annotations := ordered_withExtras extras
    rw [stripAll, hwritten, foldl_stripStep_written hordered (isFirm_withExtras hextras) hslots
      hdeclaration, List.map_map]
    simp [List.reduceOption, Marks.union, Function.comp_def]
  have hblanks : ∀ c ∈ written (uses.map fun _ => none), c = ' ' := by
    simp [written]
  obtain ⟨hqualifiers, hreference, htext⟩ := read_blanks_append hblanks declaration.toList
  have hbare := Annotation.stripAll_eq_self hdeclaration
  simp only [clean, hstrip, hbare, hqualifiers, hreference, htext]
  simp [Marks.union]

end Annotated

end DeclarationParser

end TypeAtlas
