import Mathlib.Data.List.TakeWhile
import TypeAtlas.Proofs.Declaration.Spacing

/-!
# The normal form in one pass

The spacing of a declaration is brought into normal form by collapsing blanks and taking out those
beside punctuation. One pass that remembers the last character and whether a blank is due does the
same. Punctuation parts a text into pieces that are brought into normal form on their own.

## Main definitions

* `Spacing.layout` — the pass.
* `Spacing.packed` — the normal form of a whole text, leading dots included.

The main statements are `Spacing.normalize_eq`, `Spacing.packed_append_cons` and
`Spacing.packed_eq_self`.
-/

namespace TypeAtlas.Spacing

open Text

variable {s t : List Char} {c p previous : Char}

/-- The normal form of what follows `previous`; `pending` says that there are blanks in between. -/
def layout (previous : Char) (pending : Bool) : List Char → List Char
  | [] => []
  | c :: cs =>
    if isBlank c then layout previous true cs
    else if pending && !isPunctuation previous && !isPunctuation c then
      ' ' :: c :: layout c false cs
    else c :: layout c false cs

/-- The normal form of the spacing of a text. -/
def packed (s : List Char) : List Char :=
  layout ',' false s

theorem isBlank_of_isPunctuation (h : isPunctuation c = true) : isBlank c = false := by
  have hall : ("<>,*&^?[].%()".toList.all fun c => !isBlank c) = true := by decide +kernel
  simpa using List.all_eq_true.1 hall c (by simpa [isPunctuation] using h)

/-! ## The two passes and the one pass -/

/-- Words that start with a character are that character and either what follows it directly or
the words behind a blank. -/
theorem collapse_cons (hc : isBlank c = false) :
    collapse (c :: s) = c ::
      (if s.head?.any (!isBlank ·) then collapse s
        else if words s = [] then [] else ' ' :: collapse s) := by
  cases hs : s.head?.any (!isBlank ·) with
  | false =>
    have hblank : ∀ d ∈ s.head?, isBlank d = true := by
      intro d hd
      simpa [Option.mem_def.1 hd] using hs
    rw [collapse, words_cons_of_head hc hblank, collapse]
    cases words s <;> simp [List.intercalate_cons_cons]
  | true =>
    cases s with
    | nil => simp at hs
    | cons d s =>
      have hd : isBlank d = false := by simpa using hs
      obtain ⟨w, ws, hw⟩ := List.exists_cons_of_ne_nil (words_ne_nil hd s)
      rw [collapse, collapse, words_cons_cons hc hd hw, hw]
      cases ws <;> simp [List.intercalate_cons_cons]

theorem tighten_cons (hc : isBlank c = false) : tighten previous (c :: s) = c :: tighten c s := by
  have hne : c ≠ ' ' := (ne_of_isBlank (by decide) hc).symm
  simp [tighten, hne]

/-- Behind a character that is no blank the two passes do what the one pass does. -/
theorem tighten_eq_layout (s : List Char) (previous : Char) :
    (if words s = [] then [] else tighten previous (' ' :: collapse s)) = layout previous true s ∧
      (s.head?.any (!isBlank ·) = true →
        tighten previous (collapse s) = layout previous false s) := by
  induction s generalizing previous with
  | nil => simp [layout]
  | cons c s ih =>
    cases hc : isBlank c with
    | true =>
      have hwords := words_cons_of_blank hc s
      have hcollapse : collapse (c :: s) = collapse s := by rw [collapse, hwords, collapse]
      rw [hwords, hcollapse, layout, if_pos hc]
      exact ⟨(ih previous).1, by simp [hc]⟩
    | false =>
      obtain ⟨hpending, hdirect⟩ := ih c
      have htail : tighten c (if s.head?.any (!isBlank ·) then collapse s
          else if words s = [] then [] else ' ' :: collapse s) = layout c false s := by
        split
        · next hs => exact hdirect hs
        · next hs =>
          have hlayout : layout c false s = layout c true s := by
            cases s with
            | nil => rfl
            | cons d s => simp [layout, show isBlank d = true by simpa using hs]
          rw [hlayout, ← hpending]
          split <;> simp [tighten]
      have hwhole : ∀ previous, tighten previous (collapse (c :: s)) = c :: layout c false s := by
        intro previous
        rw [collapse_cons hc, tighten_cons hc, htail]
      refine ⟨?_, fun _ => ?_⟩
      · have hhead : (collapse (c :: s)).headD ' ' = c := by rw [collapse_cons hc]; rfl
        rw [if_neg (words_ne_nil hc s), tighten, hwhole, hhead, layout, hc]
        cases isPunctuation previous <;> cases isPunctuation c <;> simp
      · rw [hwhole, layout, hc]
        simp

/-- Behind punctuation no blank is due. -/
theorem layout_congr {q : Char} (hp : isPunctuation p = true) (hq : isPunctuation q = true)
    (duep dueq : Bool) : layout p duep s = layout q dueq s := by
  induction s generalizing duep dueq with
  | nil => rfl
  | cons c s ih =>
    rw [layout, layout, hp, hq, ih true true]
    simp

theorem layout_of_isPunctuation (hp : isPunctuation p = true) (pending : Bool) :
    layout p pending s = packed s :=
  layout_congr hp (by decide) pending false

theorem tighten_collapse (s : List Char) : tighten ' ' (collapse s) = packed s := by
  have hcomma : isPunctuation ',' = true := by decide
  rw [← layout_of_isPunctuation hcomma true, ← (tighten_eq_layout s ',').1, tighten, hcomma]
  split
  · next hs => simp [collapse, hs, tighten]
  · simp

theorem normalize_eq (s : List Char) :
    normalize s = (packed (Name.dotted s)).dropWhile (· == '.') := by
  rw [normalize, tighten_collapse]

/-! ## Pieces -/

@[simp] theorem packed_nil : packed [] = [] := rfl

theorem packed_cons (hp : isPunctuation p = true) : packed (p :: s) = p :: packed s := by
  rw [packed, layout, isBlank_of_isPunctuation hp, layout_of_isPunctuation hp]
  simp

/-- Blanks at the start are left out. -/
theorem packed_append_of_blank (hs : ∀ c ∈ s, isBlank c = true) : packed (s ++ t) = packed t := by
  have hcomma : isPunctuation ',' = true := by decide
  induction s with
  | nil => rfl
  | cons c s ih =>
    rw [List.cons_append, packed, layout, if_pos (hs c (by simp)), layout_of_isPunctuation hcomma,
      ih fun d hd => hs d (List.mem_cons_of_mem c hd)]

theorem layout_append_cons (hp : isPunctuation p = true) (previous : Char) (pending : Bool) :
    layout previous pending (s ++ p :: t) = layout previous pending s ++ p :: packed t := by
  induction s generalizing previous pending with
  | nil =>
    have hblank := isBlank_of_isPunctuation hp
    simp [layout, hblank, hp, layout_of_isPunctuation hp]
  | cons c s ih =>
    rw [List.cons_append, layout, layout, ih, ih]
    split_ifs <;> rfl

/-- Punctuation parts a text into pieces. -/
theorem packed_append_cons (hp : isPunctuation p = true) :
    packed (s ++ p :: t) = packed s ++ p :: packed t :=
  layout_append_cons hp ',' false

/-- Blanks at the end are left out. -/
theorem layout_append_of_blank (ht : ∀ c ∈ t, isBlank c = true) (previous : Char)
    (pending : Bool) : layout previous pending (s ++ t) = layout previous pending s := by
  induction s generalizing previous pending with
  | nil =>
    induction t generalizing pending with
    | nil => rfl
    | cons c t ih =>
      have hrest := ih (fun d hd => ht d (List.mem_cons_of_mem c hd)) true
      simpa [layout, ht c (by simp)] using hrest
  | cons c s ih => rw [List.cons_append, layout, layout, ih, ih]

theorem packed_append_blank (ht : ∀ c ∈ t, isBlank c = true) : packed (s ++ t) = packed s :=
  layout_append_of_blank ht ',' false

/-- A text is parted where the next character that is no blank is punctuation. -/
theorem packed_append (ht : ∀ c ∈ (t.dropWhile isBlank).head?, isPunctuation c = true) :
    packed (s ++ t) = packed s ++ packed t := by
  have hblank : ∀ c ∈ t.takeWhile isBlank, isBlank c = true := fun c => List.mem_takeWhile_imp
  have hnone := packed_append_blank (s := []) hblank
  rw [List.nil_append] at hnone
  rw [← List.takeWhile_append_dropWhile (p := isBlank) (l := t)]
  cases hrest : t.dropWhile isBlank with
  | nil =>
    rw [List.append_nil, packed_append_blank hblank, hnone, packed_nil, List.append_nil]
  | cons c rest =>
    have hc := ht c (by simp [hrest])
    rw [← List.append_assoc, packed_append_cons hc, packed_append_cons hc,
      packed_append_blank hblank, hnone, packed_nil, List.nil_append]

/-- What treats the texts of a list one by one puts them together with a comma. -/
theorem map_intercalate {f : List Char → List Char} (hnil : f [] = [])
    (hjoin : ∀ s t, f (s ++ ',' :: ' ' :: t) = f s ++ ',' :: f t) (ss : List (List Char)) :
    f (", ".toList.intercalate ss) = [','].intercalate (ss.map f) := by
  induction ss with
  | nil => exact hnil
  | cons s ss ih =>
    cases ss with
    | nil => simp
    | cons t ts =>
      have hlist : ", ".toList.intercalate (s :: t :: ts) =
          s ++ ',' :: ' ' :: ", ".toList.intercalate (t :: ts) := by
        simp [List.intercalate_cons_cons]
      rw [hlist, hjoin, ih]
      simp [List.intercalate_cons_cons]

theorem packed_append_comma (s t : List Char) :
    packed (s ++ ',' :: ' ' :: t) = packed s ++ ',' :: packed t := by
  have hblank := packed_append_of_blank (s := [' ']) (t := t) (by decide)
  rw [packed_append_cons (by decide)]
  exact congrArg (packed s ++ ',' :: ·) hblank

/-! ## Texts in normal form -/

theorem layout_eq_self (hs : ∀ c ∈ s, isBlank c = true → c = ' ')
    (hchain : (previous :: s).IsChain Fits) (hlast : ∀ c ∈ s.getLast?, isBlank c = false) :
    layout previous false s = s := by
  induction s generalizing previous with
  | nil => rfl
  | cons c s ih =>
    obtain ⟨hfits, hrest⟩ := List.isChain_cons_cons.1 hchain
    have hind := @ih c (fun d hd => hs d (List.mem_cons_of_mem c hd)) hrest
      fun d hd => hlast d (by grind)
    cases hc : isBlank c with
    | false => simp [layout, hc, hind]
    | true =>
      obtain rfl := hs c (by simp) hc
      -- behind the space there is a character that is neither a blank nor punctuation
      cases s with
      | nil => exact absurd (hlast ' ' (by simp)) (by simp [hc])
      | cons d s =>
        have hd := ((List.isChain_cons_cons.1 hrest).1.1 hc)
        have hbehind : layout d false s = s := by simpa [layout, hd.1] using hind
        simp [layout, hc, hd.1, hd.2, hfits.2 hc, hbehind]

/-- A text in normal form stays as it is. -/
theorem packed_eq_self (h : Tight s) (hs : ∀ c ∈ s, isBlank c = true → c = ' ') :
    packed s = s := by
  cases s with
  | nil => rfl
  | cons c s =>
    have hc := h.isTrimmed.1 c (by simp)
    have hrest := layout_eq_self (fun d hd => hs d (List.mem_cons_of_mem c hd)) h.isChain
      fun d hd => h.isTrimmed.2 d (by grind)
    simp [packed, layout, hc, hrest]

/-- A text without blanks stays as it is. -/
theorem packed_of_forall (hs : ∀ c ∈ s, isBlank c = false) : packed s = s := by
  cases s with
  | nil => rfl
  | cons c s =>
    refine packed_eq_self (tight_of_isSolid ⟨by simp, hs⟩) fun d hd hblank => ?_
    simp [hs d hd] at hblank

end TypeAtlas.Spacing
