import Mathlib.Data.List.TakeWhile
import TypeAtlas.Proofs.Declaration.Spacing
import TypeAtlas.Compound.Native

/-!
# Chains of identifiers

A name that is written as identifiers with double colons between them is read as the same
identifiers with dots between them, by those who define it and by those who refer to it alike.
Annotations and keywords in front of it make no difference. The one exception is a name that starts
with `System` and a capital letter directly behind it, which a reference gets a dot into.

## Main definitions

* `IdentifierChain` — a name of identifiers, none of them a keyword, in both spellings.
* `IdentifierChain.IsRepaired` — the names that references change.
* `DeclarationParser.Discards` — a text of which nothing is left but blanks.

The main statements are `IdentifierChain.fullNameOf_written` and
`IdentifierChain.fullName_parse_behind`.
-/

namespace TypeAtlas

open Text

/-! ## Annotations -/

namespace Text

variable {needle s t : List Char}

/-- No occurrence of the needle starts in one text and ends in the other one. -/
def Apart (needle s t : List Char) : Prop :=
  ∀ x y, needle = x ++ y → y ≠ [] → y <+: t → ¬ x <:+ s

theorem Apart.tail {c : Char} (h : Apart needle (c :: s) t) : Apart needle s t :=
  fun x y hneedle hy ht hx => h x y hneedle hy ht (hx.trans (List.suffix_cons c s))

/-- A needle at the start of two texts is at the start of the first one. -/
theorem behind?_append (h : Apart needle s t) :
    behind? needle (s ++ t) = (behind? needle s).map (· ++ t) := by
  cases hs : behind? needle s with
  | some after =>
    rw [behind?_eq_some_iff] at hs
    rw [Option.map_some, behind?_eq_some_iff, hs, List.append_assoc]
  | none =>
    rw [Option.map_none, Option.eq_none_iff_forall_ne_some]
    intro after hafter
    rw [behind?_eq_some_iff] at hafter
    rcases List.append_eq_append_iff.1 hafter with ⟨y, hneedle, ht⟩ | ⟨rest, hs', -⟩
    · cases y with
      | nil =>
        rw [List.append_nil] at hneedle
        have hwhole : behind? needle s = some [] := by
          rw [behind?_eq_some_iff, hneedle, List.append_nil]
        simp [hwhole] at hs
      | cons c y => exact h s (c :: y) hneedle (by simp) ⟨after, ht.symm⟩ (List.suffix_refl s)
    · have hfound : behind? needle s = some rest := behind?_eq_some_iff.2 hs'
      simp [hfound] at hs

/-- A needle that does not occur in the second of two texts, and not at their joint, occurs in the
first one. -/
theorem cutAt?_append (h : Apart needle s t) (ht : cutAt? needle t = none) :
    cutAt? needle (s ++ t) = (cutAt? needle s).map fun (before, after) => (before, after ++ t) := by
  induction s with
  | nil =>
    have hempty : cutAt? needle [] = none := by
      cases needle with
      | nil => cases t <;> simp [cutAt?, behind?] at ht
      | cons c needle => rfl
    rw [List.nil_append, ht, hempty]
    rfl
  | cons c s ih =>
    rw [List.cons_append, cutAt?, cutAt?, ← List.cons_append, behind?_append h, ih h.tail]
    cases behind? needle (c :: s) with
    | some after => rfl
    | none =>
      rw [Option.map_none]
      dsimp only
      rw [Option.map_map, Option.map_map]
      rfl

end Text

namespace Annotation

variable {a : Annotation} {s t : List Char}

/-- A character of a name that is written with double colons. -/
def isNameChar (c : Char) : Bool :=
  c.isAlphanum || c == ':'

/-- A token that ends with characters of a name has no blank right in front of them, and does not
consist of them alone. It is then neither in a name nor at the joint of a name and a blank. -/
def leavesNames (a : Annotation) : Bool :=
  match a.token.reverse.dropWhile isNameChar with
  | [] => false
  | c :: _ => c != ' ' || !a.token.reverse.head?.any isNameChar

theorem leavesNames_builtin : builtin.all leavesNames = true := by
  decide +kernel

/-- A text that has nothing or a blank at its end. -/
def IsOpen (s : List Char) : Prop :=
  ∀ c ∈ s.getLast?, c = ' '

theorem isOpen_nil : IsOpen [] := by
  simp [IsOpen]

theorem isOpen_concat (s : List Char) : IsOpen (s ++ [' ']) := by
  simp [IsOpen]

theorem IsOpen.suffix (h : IsOpen s) (ht : t <:+ s) : IsOpen t := by
  obtain ⟨before, rfl⟩ := ht
  intro c hc
  refine h c ?_
  rw [List.getLast?_append, Option.mem_def.1 hc]
  rfl

/-- Behind an open text, no occurrence of a token goes on into a name. -/
theorem apart_of_leavesNames (ha : a.leavesNames = true) (hs : IsOpen s)
    (ht : t.all isNameChar = true) : Apart a.token s t := by
  intro x y htoken hy hstart hsuffix
  obtain ⟨c, y, rfl⟩ := List.exists_cons_of_ne_nil hy
  have hall : ∀ d ∈ (c :: y).reverse, isNameChar d = true := by
    intro d hd
    exact List.all_eq_true.1 ht d (hstart.subset (List.mem_reverse.1 hd))
  have hlast : a.token.reverse.head?.any isNameChar = true := by
    rw [htoken, List.reverse_append, List.head?_append]
    cases hrev : (c :: y).reverse with
    | nil => simp at hrev
    | cons d rest => simpa using hall d (by simp [hrev])
  have hdrop : a.token.reverse.dropWhile isNameChar = x.reverse.dropWhile isNameChar := by
    rw [htoken, List.reverse_append, List.dropWhile_append_of_pos hall]
  rw [leavesNames, hdrop, hlast] at ha
  cases hx : x.reverse with
  | nil => simp [hx] at ha
  | cons d rest =>
    have hd : d = ' ' := by
      refine (hs.suffix hsuffix) d ?_
      rw [← List.head?_reverse, hx]
      rfl
    subst hd
    have hblank : isNameChar ' ' = false := by decide
    simp [hx, hblank] at ha

/-- A token does not occur in a name. -/
theorem cutAt?_of_leavesNames (ha : a.leavesNames = true) (ht : t.all isNameChar = true) :
    cutAt? a.token t = none := by
  rw [Option.eq_none_iff_forall_ne_some]
  rintro ⟨before, after⟩ hcut
  have hall : ∀ d ∈ a.token.reverse, isNameChar d = true := by
    intro d hd
    refine List.all_eq_true.1 ht d ?_
    rw [eq_of_cutAt? hcut]
    simp_all
  have hdrop : a.token.reverse.dropWhile isNameChar = [] :=
    List.dropWhile_eq_nil_iff.2 hall
  simp [leavesNames, hdrop] at ha

theorem afterClosing?_append {depth : Nat} (ht : t.all isNameChar = true) (s : List Char) :
    afterClosing? depth (s ++ t) = (afterClosing? depth s).map (· ++ t) := by
  induction s generalizing depth with
  | nil =>
    rw [List.nil_append, afterClosing?, Option.map_none]
    induction t with
    | nil => rfl
    | cons c t ih =>
      rw [List.all_cons, Bool.and_eq_true] at ht
      have hopen : c ≠ '(' := by
        rintro rfl
        exact absurd ht.1 (by decide)
      have hclose : c ≠ ')' := by
        rintro rfl
        exact absurd ht.1 (by decide)
      rw [afterClosing?, if_neg hopen, if_neg hclose, ih ht.2]
  | cons c s ih =>
    rw [List.cons_append, afterClosing?, afterClosing?]
    split
    · exact ih
    · split
      · split
        · rfl
        · exact ih
      · exact ih

theorem dropArgument_append (ht : t.all isNameChar = true) (s : List Char) :
    dropArgument (s ++ t) = dropArgument s ++ t := by
  cases s with
  | nil =>
    unfold dropArgument
    split
    · next cs heq =>
      rw [List.nil_append] at heq
      rw [heq] at ht
      exact absurd ht (by simp [isNameChar])
    · rfl
  | cons c s =>
    unfold dropArgument
    by_cases hc : c = '('
    · subst hc
      have happend := @afterClosing?_append _ 0 ht ('(' :: s)
      rw [List.cons_append] at happend ⊢
      rw [happend]
      cases afterClosing? 0 ('(' :: s) with
      | none => rfl
      | some rest => rfl
    · simp [hc]

theorem isOpen_join (before : List Char) {after : List Char} (h : IsOpen after) :
    IsOpen (before ++ ' ' :: dropArgument after) := by
  intro c hc
  rw [List.getLast?_append, List.getLast?_cons] at hc
  cases hlast : (dropArgument after).getLast? with
  | none => simpa [hlast] using hc.symm
  | some d =>
    obtain rfl : d = c := by simpa [hlast] using hc
    exact h.suffix (dropArgument_suffix after) d hlast

/-- A token is taken out of what stands in front of a name. -/
theorem strip_append (ha : a.leavesNames = true) (hs : IsOpen s) (ht : t.all isNameChar = true) :
    a.strip (s ++ t) = ((a.strip s).1 ++ t, (a.strip s).2) ∧ IsOpen (a.strip s).1 := by
  fun_induction strip a s with
  | case1 s hnone =>
    have hcut := cutAt?_append (apart_of_leavesNames ha hs ht) (cutAt?_of_leavesNames ha ht)
    rw [hnone, Option.map_none] at hcut
    rw [strip, hcut]
    exact ⟨rfl, hs⟩
  | case2 s before after hfound ih =>
    have hcut := cutAt?_append (apart_of_leavesNames ha hs ht) (cutAt?_of_leavesNames ha ht)
    rw [hfound, Option.map_some] at hcut
    have hafter : IsOpen after := by
      refine hs.suffix ⟨before ++ a.token, ?_⟩
      exact (eq_of_cutAt? hfound).symm
    have hjoin := ih (isOpen_join before hafter)
    rw [List.append_assoc, List.cons_append] at hjoin
    rw [strip, hcut]
    dsimp only
    rw [dropArgument_append ht, hjoin.1]
    exact ⟨rfl, hjoin.2⟩

/-- The tokens of a table are taken out of what stands in front of a name. -/
theorem foldl_stripStep_append {table : List Annotation} (htable : table.all leavesNames = true)
    (hs : IsOpen s) (ht : t.all isNameChar = true) (marks : Marks) :
    (table.foldl stripStep (s ++ t, marks)).1 = (table.foldl stripStep (s, marks)).1 ++ t ∧
      IsOpen (table.foldl stripStep (s, marks)).1 := by
  induction table generalizing s marks with
  | nil => exact ⟨rfl, hs⟩
  | cons a table ih =>
    rw [List.all_cons, Bool.and_eq_true] at htable
    obtain ⟨hstrip, hopen⟩ := strip_append htable.1 hs ht
    rw [List.foldl_cons, List.foldl_cons, stripStep, stripStep, hstrip]
    generalize a.strip s = found at hopen ⊢
    obtain ⟨rest, hit⟩ := found
    cases hit with
    | false => exact ih htable.2 hopen marks
    | true => exact ih htable.2 hopen (marks.union a.marks)

theorem stripAll_append {table : List Annotation} (htable : table.all leavesNames = true)
    (hs : IsOpen s) (ht : t.all isNameChar = true) :
    (stripAll table (s ++ t)).1 = (stripAll table s).1 ++ t ∧ IsOpen (stripAll table s).1 :=
  foldl_stripStep_append htable hs ht {}

theorem strip_nil (a : Annotation) : a.strip [] = ([], false) := by
  have hcut : cutAt? a.token [] = none := by
    cases htoken : a.token with
    | nil =>
      have hsolid := a.solid
      simp [htoken] at hsolid
    | cons c token => rfl
  rw [strip, hcut]

theorem stripAll_nil (table : List Annotation) : (stripAll table []).1 = [] := by
  have hfold : ∀ marks, (table.foldl stripStep ([], marks)).1 = [] := by
    induction table with
    | nil => simp
    | cons a table ih =>
      intro marks
      rw [List.foldl_cons, stripStep, strip_nil]
      exact ih marks
  exact hfold {}

end Annotation

open Annotation (isNameChar leavesNames IsOpen isOpen_nil isOpen_concat stripAll stripAll_nil
  stripAll_append)

/-! ## Keywords -/

namespace Segment

variable {s t : List Char} {c : Char}

theorem foldr_cons_other (s : List Char) (c : Char) (rest : List Segment) :
    s.foldr cons (.other c :: rest) = ofText s ++ .other c :: rest := by
  induction s with
  | nil => rfl
  | cons d s ih =>
    rw [List.foldr_cons, ih, show ofText (d :: s) = cons d (ofText s) from rfl]
    unfold cons
    cases ofText s with
    | nil => split <;> rfl
    | cons segment segments => cases segment <;> split <;> rfl

/-- A text is cut where a character is no part of a word. -/
theorem ofText_append_cons (hc : isWordChar c = false) (s t : List Char) :
    ofText (s ++ c :: t) = ofText s ++ .other c :: ofText t := by
  have hcons : cons c (ofText t) = .other c :: ofText t := by simp [cons, hc]
  have hrest : (c :: t).foldr cons [] = .other c :: ofText t := hcons
  rw [ofText, List.foldr_append, hrest, foldr_cons_other]

theorem ofText_word (hs : s ≠ []) (hword : ∀ c ∈ s, isWordChar c = true) :
    ofText s = [.word s] := by
  induction s with
  | nil => exact absurd rfl hs
  | cons c s ih =>
    have hc := hword c (by simp)
    rw [show ofText (c :: s) = cons c (ofText s) from rfl]
    cases s with
    | nil => simp [cons, hc, ofText]
    | cons d s =>
      rw [ih (by simp) fun e he => hword e (List.mem_cons_of_mem c he)]
      simp [cons, hc]

end Segment

namespace Keyword

variable {s t : List Char}

theorem strip_append_cons {c : Char} (hc : isWordChar c = false) (s t : List Char) :
    strip (s ++ c :: t) = strip s ++ c :: strip t := by
  rw [strip, Segment.ofText_append_cons hc, List.flatMap_append, List.flatMap_cons]
  rfl

/-- The keywords in front of a text are taken out of what stands in front of it. -/
theorem strip_append (hs : IsOpen s) : strip (s ++ t) = strip s ++ strip t := by
  cases hlast : s.getLast? with
  | none =>
    rw [List.getLast?_eq_none_iff] at hlast
    rw [hlast]
    rfl
  | some c =>
    obtain rfl : c = ' ' := hs c hlast
    obtain ⟨before, rfl⟩ := List.getLast?_eq_some_iff.1 hlast
    have hblank : isWordChar ' ' = false := by decide
    rw [List.append_assoc, List.singleton_append, strip_append_cons hblank,
      strip_append_cons hblank]
    rw [List.append_assoc]
    rfl

/-- A word that is no keyword stays. -/
theorem strip_word (hs : s ≠ []) (hword : ∀ c ∈ s, isWordChar c = true)
    (hkeyword : ofWord? s = none) : strip s = s := by
  simp [strip, Segment.ofText_word hs hword, ofSegment?, hkeyword, Segment.text]

end Keyword

/-! ## Character references and spacing -/

namespace Entity

theorem replaceFrom_eq_self {old new s : List Char} (hs : '&' ∉ s) :
    replaceFrom 0 ('&' :: old) new s = s := by
  induction s with
  | nil => rfl
  | cons c s ih =>
    rw [List.mem_cons, not_or] at hs
    have hstart : ('&' :: old).isPrefixOf (c :: s) = false := by
      simp [List.isPrefixOf, hs.1]
    rw [replaceFrom, hstart, ih hs.2]
    rfl

/-- A text without an ampersand holds no character references. -/
theorem decode_eq_self {s : List Char} (hs : '&' ∉ s) : decode s = s := by
  have hreplace : ∀ old new, replace ('&' :: old) new s = s :=
    fun old new => replaceFrom_eq_self hs
  have hamp : "&amp;".toList = '&' :: "amp;".toList := by decide
  have hlt : "&lt;".toList = '&' :: "lt;".toList := by decide
  have hgt : "&gt;".toList = '&' :: "gt;".toList := by decide
  have hstar : "&#42;".toList = '&' :: "#42;".toList := by decide
  unfold decode
  dsimp only
  rw [hamp, hlt, hgt, hstar, hreplace, hreplace, hreplace, hreplace]

end Entity

namespace Name

theorem dotted_append {s : List Char} (hs : ':' ∉ s) (t : List Char) :
    dotted (s ++ t) = s ++ dotted t := by
  induction s with
  | nil => rfl
  | cons c s ih =>
    rw [List.mem_cons, not_or] at hs
    rw [List.cons_append, dotted, ih hs.2, List.cons_append]
    rintro cs rfl
    exact absurd rfl hs.1

end Name

namespace Text

theorem words_append_of_blank {s : List Char} (hs : ∀ c ∈ s, isBlank c = true) (t : List Char) :
    words (s ++ t) = words t := by
  induction s with
  | nil => rfl
  | cons c s ih =>
    rw [List.cons_append, words_cons_of_blank (hs c (by simp)),
      ih fun d hd => hs d (List.mem_cons_of_mem c hd)]

theorem words_of_isSolid {s : List Char} (hs : IsSolid s) : words s = [s] := by
  induction s with
  | nil => exact absurd rfl hs.1
  | cons c s ih =>
    have hc : isBlank c = false := hs.2 c (by simp)
    cases s with
    | nil => exact words_cons_of_head hc (by simp)
    | cons d s =>
      have hd : isBlank d = false := hs.2 d (by simp)
      exact words_cons_cons hc hd
        (ih ⟨by simp, fun e he => hs.2 e (List.mem_cons_of_mem c he)⟩)

end Text

namespace Spacing

/-- Blanks in front of a text without blanks disappear. -/
theorem normalize_append {s t : List Char} (hs : ∀ c ∈ s, isBlank c = true)
    (ht : IsSolid (Name.dotted t)) (hdot : (Name.dotted t).head? ≠ some '.') :
    normalize (s ++ t) = Name.dotted t := by
  have hcolon : ':' ∉ s := by
    intro hmem
    exact absurd (hs _ hmem) (by decide)
  have hcollapse : collapse (Name.dotted (s ++ t)) = Name.dotted t := by
    rw [collapse, Name.dotted_append hcolon, words_append_of_blank hs, words_of_isSolid ht]
    simp
  have htighten := tighten_append ht ' ' []
  rw [List.append_nil, tighten, List.append_nil] at htighten
  rw [normalize, hcollapse, htighten]
  apply dropWhile_eq_self
  intro c hc
  simpa using fun h : c = '.' => hdot (h ▸ hc)

end Spacing

/-! ## The grammar -/

namespace Shape

/-- A text that is a name as a whole. -/
theorem ofText?_name {s : List Char} (hstart : s.head?.any startsName = true)
    (hname : s.all continuesName = true) :
    ofText? s = some ⟨s, [], false, none, [], 0⟩ := by
  have htake : s.takeWhile continuesName = s :=
    List.takeWhile_eq_self_iff.2 (List.all_eq_true.1 hname)
  have hdrop : s.dropWhile continuesName = [] :=
    List.dropWhile_eq_nil_iff.2 (List.all_eq_true.1 hname)
  simp [ofText?, htake, hdrop, hstart, takeAsterisks, takeQuery, takeArguments?, arrayRank?]

end Shape

namespace Descriptor

/-- A name without dots at its ends is read as it is, unless a dot is put into it. -/
theorem fullName_ofText (base : TypeForm) {s : List Char}
    (hstart : s.head?.any Shape.startsName = true) (hname : s.all Shape.continuesName = true)
    (hdots : trimWith (· == '.') s = s) (hsteady : repairSystem s = s) :
    (ofText base s).fullName = String.ofList s := by
  have hshape := Shape.ofText?_name hstart hname
  rw [ofText]
  split
  · next hnone =>
    rw [hsteady, hshape] at hnone
    simp at hnone
  · next shape hsome =>
    rw [hsteady, hshape] at hsome
    obtain rfl := Option.some.inj hsome
    simp [formOfShape, hdots]

end Descriptor

/-! ## Chains -/

/-- An ASCII letter followed by ASCII letters and digits. -/
def isIdentifier (s : List Char) : Bool :=
  s.head?.any Char.isAlpha && s.all Char.isAlphanum

theorem range_of_isAlphanum {c : Char} (h : c.isAlphanum = true) :
    48 ≤ c.toNat ∧ c.toNat ≤ 122 := by
  unfold Char.isAlphanum Char.isAlpha Char.isUpper Char.isLower Char.isDigit at h
  simp only [Bool.or_eq_true, Bool.and_eq_true, decide_eq_true_eq, ge_iff_le,
    UInt32.le_iff_toNat_le] at h
  have hnat : c.toNat = c.val.toNat := rfl
  rcases h with (⟨hlow, hhigh⟩ | ⟨hlow, hhigh⟩) | ⟨hlow, hhigh⟩
  all_goals
    simp at hlow hhigh
    omega

theorem isBlank_of_isAlphanum {c : Char} (h : c.isAlphanum = true) : isBlank c = false := by
  have hrange := range_of_isAlphanum h
  rw [Bool.eq_false_iff]
  intro hblank
  simp [isBlank, Char.le_def, UInt32.le_iff_toNat_le, Char.ext_iff, ← UInt32.toNat_inj] at hblank
  have hnat : c.toNat = c.val.toNat := rfl
  omega

theorem trimWith_eq_self {p : Char → Bool} {s : List Char} (hhead : ∀ c ∈ s.head?, p c = false)
    (hlast : ∀ c ∈ s.getLast?, p c = false) : trimWith p s = s := by
  rw [trimWith, trimEnd, dropWhile_eq_self hhead,
    dropWhile_eq_self (by simpa using hlast), List.reverse_reverse]

/-- A name of identifiers, none of them a keyword. -/
structure IdentifierChain where
  segments : List (List Char)
  nonempty : segments ≠ []
  identifier : ∀ s ∈ segments, isIdentifier s = true
  noKeyword : ∀ s ∈ segments, Keyword.ofWord? s = none

namespace IdentifierChain

/-- The characters of identifiers with something between them. -/
def chars (separator : List Char) (segments : List (List Char)) : List Char :=
  separator.intercalate segments

theorem chars_cons_cons (separator s t : List Char) (rest : List (List Char)) :
    chars separator (s :: t :: rest) = s ++ (separator ++ chars separator (t :: rest)) := by
  simp [chars, List.intercalate_cons_cons]

theorem chars_singleton (separator s : List Char) : chars separator [s] = s := by
  simp [chars]

variable {separator : List Char} {segments : List (List Char)}

/-- A condition on all characters of a chain. -/
theorem forall_mem_chars {P : Char → Prop} (hseparator : ∀ c ∈ separator, P c)
    (hsegments : ∀ s ∈ segments, ∀ c ∈ s, P c) : ∀ c ∈ chars separator segments, P c := by
  induction segments with
  | nil => simp [chars]
  | cons s rest ih =>
    cases rest with
    | nil =>
      rw [chars_singleton]
      exact hsegments s (by simp)
    | cons t rest =>
      rw [chars_cons_cons]
      intro c hc
      rcases List.mem_append.1 hc with hc | hc
      · exact hsegments s (by simp) c hc
      · rcases List.mem_append.1 hc with hc | hc
        · exact hseparator c hc
        · exact ih (fun u hu => hsegments u (List.mem_cons_of_mem s hu)) c hc

/-- The condition on the segments of a chain. -/
def Identifiers (segments : List (List Char)) : Prop :=
  ∀ s ∈ segments, isIdentifier s = true

theorem ne_nil_of_identifier {s : List Char} (h : isIdentifier s = true) : s ≠ [] := by
  rintro rfl
  simp [isIdentifier] at h

theorem isAlphanum_of_identifier {s : List Char} (h : isIdentifier s = true) :
    ∀ c ∈ s, c.isAlphanum = true := by
  rw [isIdentifier, Bool.and_eq_true] at h
  exact List.all_eq_true.1 h.2

/-- A chain starts with a letter. -/
theorem head?_chars (hne : segments ≠ []) (h : Identifiers segments) :
    (chars separator segments).head?.any Char.isAlpha = true := by
  cases segments with
  | nil => exact absurd rfl hne
  | cons s rest =>
    have hs := h s (by simp)
    have hhead : (chars separator (s :: rest)).head? = s.head? := by
      obtain ⟨c, cs, rfl⟩ := List.exists_cons_of_ne_nil (ne_nil_of_identifier hs)
      cases rest with
      | nil => rw [chars_singleton]
      | cons t rest => rw [chars_cons_cons]; rfl
    rw [isIdentifier, Bool.and_eq_true] at hs
    rw [hhead, hs.1]

/-- A chain ends with a letter or a digit. -/
theorem getLast?_chars (hne : segments ≠ []) (h : Identifiers segments) :
    (chars separator segments).getLast?.any Char.isAlphanum = true := by
  induction segments with
  | nil => exact absurd rfl hne
  | cons s rest ih =>
    cases rest with
    | nil =>
      have hs := h s (by simp)
      rw [chars_singleton, List.getLast?_eq_some_getLast (ne_nil_of_identifier hs)]
      exact isAlphanum_of_identifier hs _ (List.getLast_mem _)
    | cons t rest =>
      have hrest := ih (by simp) fun u hu => h u (List.mem_cons_of_mem s hu)
      rw [chars_cons_cons, List.getLast?_append, List.getLast?_append]
      cases hlast : (chars separator (t :: rest)).getLast? with
      | none => simp [hlast] at hrest
      | some c => simpa [hlast] using hrest

/-- Double colons become dots. -/
theorem dotted_chars (h : Identifiers segments) :
    Name.dotted (chars [':', ':'] segments) = chars ['.'] segments := by
  have hcolon : ∀ s ∈ segments, ':' ∉ s := by
    intro s hs hmem
    exact absurd (isAlphanum_of_identifier (h s hs) _ hmem) (by decide)
  induction segments with
  | nil => rfl
  | cons s rest ih =>
    cases rest with
    | nil =>
      have hdotted := Name.dotted_append (hcolon s (by simp)) []
      rw [List.append_nil, Name.dotted, List.append_nil] at hdotted
      rw [chars_singleton, chars_singleton, hdotted]
    | cons t rest =>
      have hrest := ih (fun u hu => h u (List.mem_cons_of_mem s hu))
        fun u hu => hcolon u (List.mem_cons_of_mem s hu)
      rw [chars_cons_cons, chars_cons_cons, Name.dotted_append (hcolon s (by simp)), ← hrest]
      rfl

/-- No keyword is taken out. -/
theorem strip_chars (h : Identifiers segments)
    (hkeyword : ∀ s ∈ segments, Keyword.ofWord? s = none) :
    Keyword.strip (chars [':', ':'] segments) = chars [':', ':'] segments := by
  have hcolon : isWordChar ':' = false := by decide
  have hword : ∀ s ∈ segments, Keyword.strip s = s := by
    intro s hs
    refine Keyword.strip_word (ne_nil_of_identifier (h s hs)) ?_ (hkeyword s hs)
    intro c hc
    have halnum := isAlphanum_of_identifier (h s hs) c hc
    have hrange := range_of_isAlphanum halnum
    exact isWordChar_of_isAlphanum halnum (by omega)
  induction segments with
  | nil => rfl
  | cons s rest ih =>
    cases rest with
    | nil => rw [chars_singleton, hword s (by simp)]
    | cons t rest =>
      have hrest := ih (fun u hu => h u (List.mem_cons_of_mem s hu))
        (fun u hu => hkeyword u (List.mem_cons_of_mem s hu))
        fun u hu => hword u (List.mem_cons_of_mem s hu)
      have htwo := Keyword.strip_append_cons hcolon [] (chars [':', ':'] (t :: rest))
      rw [chars_cons_cons, List.cons_append, List.singleton_append,
        Keyword.strip_append_cons hcolon, hword s (by simp)]
      rw [List.nil_append] at htwo
      rw [htwo, hrest]
      rfl

variable (chain : IdentifierChain)

/-- The name as sources write it. -/
def written : String :=
  String.ofList (chars [':', ':'] chain.segments)

/-- The full name. -/
def dotted : String :=
  String.ofList (chars ['.'] chain.segments)

/-- A capital letter stands directly behind a leading `System`, so that references get a dot in
between. -/
def IsRepaired : Prop :=
  ∃ c rest, chain.dotted.toList = "System".toList ++ c :: rest ∧ c.isUpper = true

theorem toList_written : chain.written.toList = chars [':', ':'] chain.segments := by
  simp [written]

theorem toList_dotted : chain.dotted.toList = chars ['.'] chain.segments := by
  simp [dotted]

theorem isNameChar_written : chain.written.toList.all isNameChar = true := by
  rw [toList_written, List.all_eq_true]
  refine forall_mem_chars (by simp [isNameChar]) ?_
  intro s hs c hc
  simp [isNameChar, isAlphanum_of_identifier (chain.identifier s hs) c hc]

theorem isBlank_of_isNameChar {c : Char} (h : isNameChar c = true) :
    isBlank c = false := by
  rw [isNameChar, Bool.or_eq_true, beq_iff_eq] at h
  rcases h with h | rfl
  · exact isBlank_of_isAlphanum h
  · decide

theorem isSolid_written : IsSolid chain.written.toList := by
  refine ⟨?_, fun c hc => isBlank_of_isNameChar (List.all_eq_true.1 chain.isNameChar_written c hc)⟩
  intro hempty
  have hhead := @head?_chars [':', ':'] _ chain.nonempty chain.identifier
  simp [← toList_written, hempty] at hhead

theorem written_ne_empty : chain.written ≠ "" := by
  intro hempty
  exact chain.isSolid_written.1 (by simp [hempty])

theorem trim_written : trim chain.written.toList = chain.written.toList :=
  trim_eq_self ⟨fun c hc => chain.isSolid_written.2 c (List.mem_of_head? hc),
    fun c hc => chain.isSolid_written.2 c (List.mem_of_getLast? hc)⟩

theorem trimmed_written : trimmed chain.written = chain.written := by
  rw [trimmed, trim_written, String.ofList_toList]

theorem dotted_written : Name.dotted chain.written.toList = chain.dotted.toList := by
  rw [toList_written, toList_dotted, dotted_chars chain.identifier]

theorem mem_dotted {c : Char} (hc : c ∈ chain.dotted.toList) : c.isAlphanum = true ∨ c = '.' := by
  have hall : ∀ d ∈ chars ['.'] chain.segments, d.isAlphanum = true ∨ d = '.' :=
    forall_mem_chars (by simp)
      fun s hs d hd => .inl (isAlphanum_of_identifier (chain.identifier s hs) d hd)
  rw [toList_dotted] at hc
  exact hall c hc

theorem head?_dotted : chain.dotted.toList.head?.any Char.isAlpha = true := by
  rw [toList_dotted]
  exact head?_chars chain.nonempty chain.identifier

theorem getLast?_dotted : chain.dotted.toList.getLast?.any Char.isAlphanum = true := by
  rw [toList_dotted]
  exact getLast?_chars chain.nonempty chain.identifier

theorem isSolid_dotted : IsSolid chain.dotted.toList := by
  constructor
  · intro hempty
    have hhead := chain.head?_dotted
    simp [hempty] at hhead
  · intro c hc
    rcases chain.mem_dotted hc with hc | rfl
    · exact isBlank_of_isAlphanum hc
    · decide

theorem dotted_ne_empty : chain.dotted ≠ "" := by
  intro hempty
  exact chain.isSolid_dotted.1 (by simp [hempty])

theorem trimmed_dotted : trimmed chain.dotted = chain.dotted := by
  have htrim : trim chain.dotted.toList = chain.dotted.toList :=
    trim_eq_self ⟨fun c hc => chain.isSolid_dotted.2 c (List.mem_of_head? hc),
      fun c hc => chain.isSolid_dotted.2 c (List.mem_of_getLast? hc)⟩
  rw [trimmed, htrim, String.ofList_toList]

/-- There is no dot at either end. -/
theorem trimWith_dotted : trimWith (· == '.') chain.dotted.toList = chain.dotted.toList := by
  apply trimWith_eq_self
  · intro c hc
    have hhead := chain.head?_dotted
    rw [Option.mem_def.1 hc] at hhead
    rw [beq_eq_false_iff_ne]
    rintro rfl
    exact absurd hhead (by decide)
  · intro c hc
    have hlast := chain.getLast?_dotted
    rw [Option.mem_def.1 hc] at hlast
    rw [beq_eq_false_iff_ne]
    rintro rfl
    exact absurd hlast (by decide)

/-- A definition is known under the name with dots. -/
theorem fullNameOf_written : NativeRecord.fullNameOf chain.written = chain.dotted := by
  have hbare : Name.bareChars chain.written.toList = chain.written.toList := by
    have htake : (chain.written.toList.takeWhile fun c => c != '<' && c != '(') =
        chain.written.toList := by
      rw [List.takeWhile_eq_self_iff]
      intro c hc
      have hname := List.all_eq_true.1 chain.isNameChar_written c hc
      have hangle : c ≠ '<' := by
        rintro rfl
        exact absurd hname (by decide)
      have hround : c ≠ '(' := by
        rintro rfl
        exact absurd hname (by decide)
      simp [hangle, hround]
    rw [Name.bareChars, htake, trim_written]
  have hplus : (chain.dotted.toList.map fun c => if c = '+' then '.' else c) =
      chain.dotted.toList := by
    refine (List.map_congr_left ?_).trans (List.map_id _)
    intro c hc
    rw [if_neg, id]
    rintro rfl
    rcases chain.mem_dotted hc with halnum | heq
    · exact absurd halnum (by decide)
    · exact absurd heq (by decide)
  unfold NativeRecord.fullNameOf Name.canonical Name.canonicalChars
  rw [Name.toList_bare, hbare, trim_written, dotted_written, hplus, trimWith_dotted,
    String.ofList_toList]

theorem repairSystem_dotted (h : ¬ chain.IsRepaired) :
    Descriptor.repairSystem chain.dotted.toList = chain.dotted.toList := by
  unfold Descriptor.repairSystem
  split
  · next c rest hbehind =>
    rw [if_neg]
    intro hupper
    exact h ⟨c, rest, behind?_eq_some_iff.1 hbehind, hupper⟩
  · rfl

end IdentifierChain

/-! ## Reading -/

namespace DeclarationParser

variable (parser : DeclarationParser)

/-- Nothing but annotations and keywords: what is read of the text in front of a name is blank. -/
def Discards (text : List Char) : Prop :=
  ∀ c ∈ Keyword.strip (stripAll parser.annotations text).1, isBlank c = true

theorem discards_nil : parser.Discards [] := by
  unfold Discards
  rw [stripAll_nil]
  simp [Keyword.strip, Segment.ofText]

end DeclarationParser

namespace IdentifierChain

variable (chain : IdentifierChain) {parser : DeclarationParser}

theorem startsName_dotted : chain.dotted.toList.head?.any Shape.startsName = true := by
  have hhead := chain.head?_dotted
  cases hc : chain.dotted.toList.head? with
  | none => simp [hc] at hhead
  | some c =>
    have halpha : c.isAlpha = true := by simpa [hc] using hhead
    simp [Shape.startsName, halpha]

theorem continuesName_dotted : chain.dotted.toList.all Shape.continuesName = true := by
  rw [List.all_eq_true]
  intro c hc
  rcases chain.mem_dotted hc with halnum | rfl
  · have hrange := range_of_isAlphanum halnum
    simp [Shape.continuesName, isWordChar_of_isAlphanum halnum (by omega)]
  · decide

/-- Behind annotations and keywords, a reference is cleaned to the name with dots. -/
theorem clean_behind (hparser : parser.annotations.all leavesNames = true)
    {decoration : List Char} (hopen : IsOpen decoration)
    (hdecoration : parser.Discards decoration) :
    (parser.clean (String.ofList (decoration ++ chain.written.toList))).2 =
      chain.dotted.toList := by
  have hdot : (Name.dotted chain.written.toList).head? ≠ some '.' := by
    intro hhead
    have halpha := chain.head?_dotted
    rw [← dotted_written, hhead] at halpha
    exact absurd halpha (by decide)
  obtain ⟨hstrip, hrest⟩ := stripAll_append hparser hopen chain.isNameChar_written
  have hkeyword : Keyword.strip chain.written.toList = chain.written.toList := by
    rw [toList_written]
    exact strip_chars chain.identifier chain.noKeyword
  have hamp : '&' ∉ Keyword.strip (stripAll parser.annotations decoration).1 ++
      chain.written.toList := by
    intro hmem
    rcases List.mem_append.1 hmem with hmem | hmem
    · exact absurd (hdecoration _ hmem) (by decide)
    · exact absurd (List.all_eq_true.1 chain.isNameChar_written _ hmem) (by decide)
  unfold DeclarationParser.clean
  dsimp only
  rw [String.toList_ofList, hstrip, Keyword.strip_append hrest, hkeyword,
    Entity.decode_eq_self hamp,
    Spacing.normalize_append hdecoration (chain.dotted_written ▸ chain.isSolid_dotted) hdot,
    dotted_written]

/-- Behind annotations and keywords, a reference reads the name with dots. -/
theorem fullName_parse_behind (hparser : parser.annotations.all leavesNames = true)
    (h : ¬ chain.IsRepaired) {decoration : List Char} (hopen : IsOpen decoration)
    (hdecoration : parser.Discards decoration) :
    (parser.parse (String.ofList (decoration ++ chain.written.toList))).fullName =
      chain.dotted := by
  unfold DeclarationParser.parse
  dsimp only
  rw [chain.clean_behind hparser hopen hdecoration,
    Descriptor.fullName_ofText _ chain.startsName_dotted chain.continuesName_dotted
      chain.trimWith_dotted (chain.repairSystem_dotted h), String.ofList_toList]

/-- A reference reads the name with dots. -/
theorem fullName_parse_written (hparser : parser.annotations.all leavesNames = true)
    (h : ¬ chain.IsRepaired) : (parser.parse chain.written).fullName = chain.dotted := by
  have hread := chain.fullName_parse_behind hparser h isOpen_nil parser.discards_nil
  rwa [List.nil_append, String.ofList_toList] at hread

end IdentifierChain

/-! ## Parameters -/

namespace NativeParamRecord

/-- What stands in front of the type of a parameter. -/
def decoration (r : NativeParamRecord) : List Char :=
  if trim r.attributes.toList = [] then [] else trim r.attributes.toList ++ [' ']

theorem isOpen_decoration (r : NativeParamRecord) : IsOpen r.decoration := by
  unfold decoration
  split
  · exact isOpen_nil
  · exact isOpen_concat _

/-- The declaration of a parameter whose type is a chain of identifiers. -/
theorem declaration_eq {r : NativeParamRecord} {chain : IdentifierChain}
    (h : r.rawType = chain.written) :
    r.declaration = String.ofList (r.decoration ++ chain.written.toList) := by
  have hjoin : (trimmed r.attributes ++ " " ++ trimmed r.rawType).toList =
      trim r.attributes.toList ++ ' ' :: chain.written.toList := by
    rw [h, chain.trimmed_written]
    simp
  have hblank : isBlank ' ' = true := by decide
  have hsolid := chain.isSolid_written
  unfold declaration decoration
  rw [trimmed, hjoin]
  split
  · next hempty =>
    have hdrop : trim (' ' :: chain.written.toList) = trim chain.written.toList := by
      simp [trim, trimWith, hblank]
    rw [hempty, List.nil_append, hdrop, chain.trim_written, List.nil_append]
  · next hne =>
    have htrimmed : IsTrimmed (trim r.attributes.toList ++ ' ' :: chain.written.toList) := by
      constructor
      · intro c hc
        obtain ⟨d, rest, hd⟩ := List.exists_cons_of_ne_nil hne
        refine (isTrimmed_trim r.attributes.toList).1 c ?_
        rw [hd] at hc ⊢
        exact hc
      · intro c hc
        rw [List.getLast?_append, List.getLast?_cons,
          List.getLast?_eq_some_getLast hsolid.1] at hc
        obtain rfl : chain.written.toList.getLast hsolid.1 = c := by simpa using hc
        exact hsolid.2 _ (List.getLast_mem _)
    rw [trim_eq_self htrimmed, List.append_assoc, List.singleton_append]

end NativeParamRecord

end TypeAtlas
