import Mathlib.Data.List.Chain
import TypeAtlas.Proofs.Declaration.Table

/-!
# Taking annotations out

A text without tokens stays as it is. Every token that is taken out leaves a blank, so that no token
without blanks comes up between the parts around it: none is left in the end, and one that does not
occur in a declaration might as well not be in the table. A text that no
occurrence of a token goes out of is passed over, and what stands behind it is worked off as on its
own.

## Main definitions

* `Annotation.Closed` — a text that no occurrence of a needle starts in, whatever follows.
* `Annotation.IsFirm` — a token that a blank behind a text closes.

The main statements are `Annotation.stripAll_eq_self`, `Annotation.not_infix_stripAll`,
`Annotation.strip_append_of_closed` and `DeclarationParser.parse_withExtras`.
-/

namespace TypeAtlas.Annotation

open Text

variable {a : Annotation} {table : List Annotation} {needle s t : List Char}

theorem token_ne_nil (a : Annotation) : a.token ≠ [] := by
  intro hempty
  simpa [hempty] using a.solid

theorem not_infix_nil (a : Annotation) : ¬ a.token <:+: [] := by
  simpa using a.token_ne_nil

/-! ## Texts without tokens -/

theorem strip_eq_self (h : ¬ a.token <:+: s) : a.strip s = (s, false) := by
  rw [strip, cutAt?_eq_none_iff.2 h]

theorem strip_of_cutAt? {before after : List Char} (h : cutAt? a.token s = some (before, after)) :
    a.strip s = ((a.strip (before ++ ' ' :: dropArgument after)).1, true) := by
  rw [strip, h]

/-- A text without tokens stays as it is. -/
theorem stripAll_eq_self (h : ∀ a ∈ table, ¬ a.token <:+: s) : stripAll table s = (s, {}) := by
  unfold stripAll
  induction table with
  | nil => rfl
  | cons a table ih =>
    rw [List.foldl_cons, stripStep, strip_eq_self (h a (by simp))]
    exact ih fun b hb => h b (List.mem_cons_of_mem a hb)

/-! ## Texts from which tokens were taken out -/

theorem not_infix_strip (a : Annotation) (s : List Char) : ¬ a.token <:+: (a.strip s).1 := by
  fun_induction strip a s with
  | case1 s hnone => exact cutAt?_eq_none_iff.1 hnone
  | case2 s before after hfound ih => exact ih

/-- No needle without blanks comes up when a token is taken out. -/
theorem not_infix_strip_of_not_infix (hblank : ' ' ∉ needle) (h : ¬ needle <:+: s) :
    ¬ needle <:+: (a.strip s).1 := by
  fun_induction strip a s with
  | case1 s hnone => exact h
  | case2 s before after hfound ih =>
    refine ih fun hin => h ?_
    rw [eq_of_cutAt? hfound]
    rcases (infix_append_cons hblank).1 hin with hin | hin
    · exact hin.trans (List.append_assoc .. ▸ (List.prefix_append _ _).isInfix)
    · exact hin.trans ((dropArgument_suffix after).trans (List.suffix_append _ _)).isInfix

theorem fst_stripStep (found : List Char × Marks) (a : Annotation) :
    (stripStep found a).1 = (a.strip found.1).1 := by
  unfold stripStep
  generalize a.strip found.1 = result
  obtain ⟨rest, hit⟩ := result
  cases hit <;> rfl

/-- No needle without blanks comes up when the tokens of a table are taken out. -/
theorem not_infix_foldl_stripStep (hblank : ' ' ∉ needle) (table : List Annotation)
    {found : List Char × Marks} (h : ¬ needle <:+: found.1) :
    ¬ needle <:+: (table.foldl stripStep found).1 := by
  refine List.foldlRecOn (motive := fun found => ¬ needle <:+: found.1) table stripStep h ?_
  intro found h a _
  rw [fst_stripStep]
  exact not_infix_strip_of_not_infix hblank h

/-- No token without blanks is left. -/
theorem not_infix_stripAll (ha : a ∈ table) (hblank : ' ' ∉ a.token) (s : List Char) :
    ¬ a.token <:+: (stripAll table s).1 := by
  obtain ⟨earlier, later, rfl⟩ := List.append_of_mem ha
  rw [stripAll, List.foldl_append, List.foldl_cons]
  refine not_infix_foldl_stripStep hblank later ?_
  rw [fst_stripStep]
  exact not_infix_strip a _

/-! ## Tokens that do not occur -/

theorem stripStep_of_not_infix {found : List Char × Marks} (h : ¬ a.token <:+: found.1) :
    stripStep found a = found := by
  rw [stripStep, strip_eq_self h]

/-- A token without blanks that does not occur changes nothing, wherever it is put. -/
theorem foldl_stripStep_place {new : Annotation} (hblank : ' ' ∉ new.token)
    (table : List Annotation) {found : List Char × Marks} (h : ¬ new.token <:+: found.1) :
    (place new table).foldl stripStep found = table.foldl stripStep found := by
  induction table generalizing found with
  | nil => exact stripStep_of_not_infix h
  | cons a table ih =>
    unfold place
    split
    · rw [List.foldl_cons, stripStep_of_not_infix h]
    · have hstep : ¬ new.token <:+: (stripStep found a).1 :=
        not_infix_foldl_stripStep hblank [a] h
      exact ih hstep

theorem stripAll_insert {extra : String} (hblank : ' ' ∉ trim extra.toList)
    (h : trim extra.toList ≠ [] → ¬ trim extra.toList <:+: s) (table : List Annotation) :
    stripAll (insert table extra) s = stripAll table s := by
  unfold insert
  dsimp only
  split
  · next solid =>
    split
    · rfl
    · have hne : trim extra.toList ≠ [] := by
        intro hempty
        simp [hempty] at solid
      let new : Annotation := ⟨trim extra.toList, {}, solid⟩
      have hnew : ¬ new.token <:+: s := h hne
      exact foldl_stripStep_place hblank table hnew
  · rfl

/-- Further tokens change nothing for a text that holds none of them. -/
theorem stripAll_withExtras {extras : List String} (hblank : ∀ e ∈ extras, ' ' ∉ trim e.toList)
    (h : ∀ e ∈ extras, trim e.toList ≠ [] → ¬ trim e.toList <:+: s) :
    stripAll (withExtras extras) s = stripAll builtin s :=
  List.foldlRecOn (motive := fun table => stripAll table s = stripAll builtin s) extras insert rfl
    fun table htable e he => (stripAll_insert (hblank e he) (h e he) table).trans htable

/-! ## Texts that are passed over -/

/-- No occurrence of the needle starts in the text, whatever follows. -/
structure Closed (needle s : List Char) : Prop where
  inside : ¬ needle <:+: s
  across : ∀ x, x ≠ [] → x <:+ s → ¬ x <+: needle

/-- A closed text is passed over. -/
theorem strip_append_of_closed (h : Closed a.token s) (t : List Char) :
    a.strip (s ++ t) = (s ++ (a.strip t).1, (a.strip t).2) := by
  have hcut : ∀ t, cutAt? a.token (s ++ t) =
      (cutAt? a.token t).map fun cut => (s ++ cut.1, cut.2) := by
    intro t
    refine cutAt?_append_left fun x hx hs hstart => ?_
    rcases List.prefix_or_prefix_of_prefix hstart (List.prefix_append x t) with hin | hin
    · exact h.inside (hin.isInfix.trans hs.isInfix)
    · exact h.across x hx hs hin
  fun_induction strip a t with
  | case1 t hnone =>
    rw [strip, hcut, hnone]
    rfl
  | case2 t before after hfound ih =>
    rw [strip, hcut, hfound, Option.map_some]
    dsimp only
    rw [List.append_assoc, ih]

/-- A token without parentheses that does not start with a blank and has one behind commas only, and
neither a blank nor a comma at its end. -/
structure IsFirm (token : List Char) : Prop where
  spaced : (' ' :: token).IsChain fun x y => y = ' ' → x = ','
  last : ∀ c ∈ token.getLast?, c ≠ ' ' ∧ c ≠ ','
  parentheses : '(' ∉ token ∧ ')' ∉ token

theorem isFirm_builtin : ∀ a ∈ builtin, IsFirm a.token := by
  have hall : ∀ a ∈ builtin, ((' ' :: a.token).IsChain fun x y => y = ' ' → x = ',') ∧
      (∀ c ∈ a.token.getLast?, c ≠ ' ' ∧ c ≠ ',') ∧ '(' ∉ a.token ∧ ')' ∉ a.token := by
    decide +kernel
  exact fun a ha => ⟨(hall a ha).1, (hall a ha).2.1, (hall a ha).2.2⟩

/-- A blank closes a text without the token, unless a comma stands before it. -/
theorem closed_of_isFirm (hfirm : IsFirm a.token) (hs : ¬ a.token <:+: s)
    (hcomma : ∀ c ∈ s.getLast?, c ≠ ',') : Closed a.token (s ++ [' ']) := by
  constructor
  · rw [List.infix_concat_iff]
    rintro (hend | hin)
    · have hlast : ' ' ∈ a.token.getLast? := by
        obtain ⟨before, hbefore⟩ := hend
        have := congrArg List.getLast? hbefore
        rw [List.getLast?_append_of_ne_nil _ a.token_ne_nil] at this
        simpa using this
      exact (hfirm.last ' ' hlast).1 rfl
    · exact hs hin
  · intro x hne hend hstart
    obtain ⟨rest, hrest⟩ := hstart
    obtain ⟨y, rfl, hy⟩ : ∃ y, x = y ++ [' '] ∧ y <:+ s := by
      rcases List.suffix_concat_iff.1 hend with rfl | ⟨y, rfl, hy⟩
      · exact absurd rfl hne
      · exact ⟨y, rfl, hy⟩
    -- the blank stands behind a comma in the token, and behind the end of the text
    have hchain : ((' ' :: y) ++ ' ' :: rest).IsChain fun x y => y = ' ' → x = ',' := by
      simpa [← hrest] using hfirm.spaced
    have hbefore := fun x hx => (List.isChain_append.1 hchain).2.2 x hx ' ' (by simp) rfl
    cases hlast : y.getLast? with
    | none => exact absurd (hbefore ' ' (by simp [List.getLast?_cons, hlast])) (by decide)
    | some c =>
      obtain rfl := hbefore c (by simp [List.getLast?_cons, hlast])
      obtain ⟨before, rfl⟩ := hy
      exact hcomma ',' (by simp [List.getLast?_append, hlast]) rfl

end TypeAtlas.Annotation

namespace TypeAtlas.DeclarationParser

open Text

/-- Further tokens change nothing for a declaration that holds none of them. -/
theorem parse_withExtras {extras : List String} {raw : String}
    (hblank : ∀ e ∈ extras, ' ' ∉ trim e.toList)
    (h : ∀ e ∈ extras, trim e.toList ≠ [] → ¬ trim e.toList <:+: raw.toList) :
    (withExtras extras).parse raw = standard.parse raw := by
  simp only [parse, clean, withExtras, standard, Annotation.stripAll_withExtras hblank h]

/-- The parts around `_In_` make no `MYAPI`, those around `_Out_writes_` with its argument no
`Foo(Bar)`, and `_In_z_x` is looked for before `_In_z_` is. -/
theorem parse_withExtras_parted :
    (∀ e ∈ ["MYAPI", " _In_z_x ", "Foo(Bar)", "\t"], ' ' ∉ trim e.toList) ∧
      (∀ e ∈ ["MYAPI", " _In_z_x ", "Foo(Bar)", "\t"], trim e.toList ≠ [] →
        ¬ trim e.toList <:+: "MY_In_API _In_z_ Foo_Out_writes_((n))(Bar)".toList) ∧
      (withExtras ["MYAPI", " _In_z_x ", "Foo(Bar)", "\t"]).parse
          "MY_In_API _In_z_ Foo_Out_writes_((n))(Bar)" =
        standard.parse "MY_In_API _In_z_ Foo_Out_writes_((n))(Bar)" := by
  have hblank : ∀ e ∈ ["MYAPI", " _In_z_x ", "Foo(Bar)", "\t"], ' ' ∉ trim e.toList := by
    decide +kernel
  have habsent : ∀ e ∈ ["MYAPI", " _In_z_x ", "Foo(Bar)", "\t"], trim e.toList ≠ [] →
      ¬ trim e.toList <:+: "MY_In_API _In_z_ Foo_Out_writes_((n))(Bar)".toList := by
    have hsearch : ∀ e ∈ ["MYAPI", " _In_z_x ", "Foo(Bar)", "\t"], trim e.toList ≠ [] →
        occursIn (trim e.toList) "MY_In_API _In_z_ Foo_Out_writes_((n))(Bar)".toList = false := by
      decide +kernel
    intro e he hne
    rw [← occursIn_iff, hsearch e he hne]
    exact Bool.false_ne_true
  exact ⟨hblank, habsent, parse_withExtras hblank habsent⟩

end TypeAtlas.DeclarationParser
