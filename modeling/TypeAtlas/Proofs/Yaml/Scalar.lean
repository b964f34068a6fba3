import Mathlib.Algebra.Group.Nat.Defs
import Mathlib.Tactic.SplitIfs
import TypeAtlas.Yaml.Printer

/-!
# Written scalars

Plain and quoted scalars are read back from their written forms. A plain scalar is written on one
line; it ends at a colon with a gap behind it, or where the next line that is not blank starts
before the margin. A scalar between quotes ends at its closing quote.

The reader keeps the white space that it has just read as a gap, so what is read back is shown for a
gap and the text behind it.

The main statements are `YamlExtent.plain?_key`, `YamlExtent.plain?_line`,
`YamlExtent.singleQuoted?_written` and `YamlExtent.doubleQuoted?_written`.
-/

namespace TypeAtlas

open Yaml

namespace YamlGap

@[simp] theorem blanks_push {bs : List Char} {c : Char} (h : isBreak c = false) :
    (blanks bs).push c = .blanks (bs ++ [c]) := by
  simp [push, h]

@[simp] theorem fold_blanks (bs : List Char) : (blanks bs).fold = bs := rfl

@[simp] theorem hasBreak_blanks (bs : List Char) : (blanks bs).hasBreak = false := rfl

theorem none_eq : none = blanks [] := rfl

theorem isEmpty_blanks {bs : List Char} : (blanks bs).isEmpty = bs.isEmpty := by
  cases bs <;> rfl

end YamlGap

namespace YamlScalar

variable {c : Char} {cs : List Char}

theorem isOneLine_cons :
    isOneLine (c :: cs) ↔ (isPrintable c ∧ isBreak c = false) ∧ isOneLine cs := by
  simp [isOneLine]

/-- What a text is like that is written without quotes. -/
theorem properties_of_isPlain (h : isPlain (c :: cs)) :
    isOneLine (c :: cs) ∧ YamlLexeme.startsPlain false c cs
      ∧ hasIndicator false (c :: cs) = false ∧ (c :: cs).getLast? ≠ some ' ' := by
  simp only [isPlain, Bool.and_eq_true, Bool.not_eq_true', bne_iff_ne] at h
  obtain ⟨⟨⟨⟨hline, hstart⟩, hindicator⟩, hend⟩, -⟩ := h
  exact ⟨hline, hstart, hindicator, hend⟩

end YamlScalar

/-- A tab is not written as it is. -/
theorem Yaml.ne_tab_of_isPrintable {c : Char} (h : isPrintable c) : c ≠ '\t' := by
  rintro rfl
  revert h
  decide

namespace YamlExtent

open YamlScalar (isOneLine hasIndicator isPlain isOneLine_cons properties_of_isPlain)

variable {margin column : Nat} {bs s rest : List Char} {c : Char} {cs : List Char}

/-! ## Plain scalars -/

theorem atGap_append (h : atGap s = false) : atGap (s ++ rest) = false := by
  cases s with
  | nil => simp [atGap] at h
  | cons c s => exact h

/-- Inside a written text no character ends a plain scalar. -/
theorem endsPlain_eq_false (hmargin : margin ≤ column) (hcolumn : 0 < column)
    (hhash : (c == '#' && !bs.isEmpty) = false) (hcolon : (c == ':' && atGap cs) = false) :
    endsPlain false margin (.blanks bs) column c (cs ++ rest) = false := by
  have hcolon : (c == ':' && atGap (cs ++ rest)) = false := by
    rw [Bool.and_eq_false_iff] at hcolon ⊢
    exact hcolon.imp_right atGap_append
  have hstart : column ≠ 0 := by omega
  have hhash : bs ≠ [] → c ≠ '#' := by simpa [imp_not_comm] using hhash
  simpa [endsPlain, YamlGap.isEmpty_blanks, hcolon, hmargin, hstart] using hhash

theorem plainRest?_gap {isFlow : Bool} {gap : YamlGap} (hgap : isGap c) (htab : c ≠ '\t') :
    plainRest? isFlow margin gap column (c :: cs)
      = plainRest? isFlow margin (gap.push c) (columnAfter column c) cs := by
  rw [plainRest?, if_pos hgap, if_neg fun h => htab h.1]

/-- The text of a plain scalar is read up to its end, where the gap is empty. -/
theorem plainRest?_append {e : YamlExtent} (hline : isOneLine s)
    (hindicator : hasIndicator (!bs.isEmpty) s = false) (hend : s.getLast? ≠ some ' ')
    (hgap : s = [] → bs = []) (hmargin : margin ≤ column) (hcolumn : 0 < column)
    (he : plainRest? false margin .none (column + s.length) rest = some e) :
    plainRest? false margin (.blanks bs) column (s ++ rest)
      = some { e with text := bs ++ s ++ e.text } := by
  induction s generalizing bs column with
  | nil =>
    obtain rfl := hgap rfl
    simpa [YamlGap.none_eq] using he
  | cons c s ih =>
    obtain ⟨⟨hprintable, hbreak⟩, hline⟩ := isOneLine_cons.1 hline
    simp only [hasIndicator, Bool.or_eq_false_iff] at hindicator
    obtain ⟨⟨hcolon, hhash⟩, hindicator⟩ := hindicator
    have hend' : s.getLast? ≠ some ' ' := by
      cases s with
      | nil => simp
      | cons d s => simpa using hend
    have he' : plainRest? false margin .none (column + 1 + s.length) rest = some e := by
      rw [← he, List.length_cons, Nat.add_right_comm, Nat.add_assoc]
    rw [List.cons_append]
    by_cases hc : isGap c
    · -- a printed gap is a space, and some text follows it
      have hspace : c = ' ' := by
        simpa [isGap, isBlank, hbreak, ne_tab_of_isPrintable hprintable] using hc
      have hs : s ≠ [] := by
        rintro rfl
        simp [hspace] at hend
      have hgap' : (bs ++ [c]).isEmpty = false := by simp
      rw [plainRest?_gap hc (ne_tab_of_isPrintable hprintable), YamlGap.blanks_push hbreak,
        columnAfter, if_neg (by simp [hbreak]),
        ih hline (by simpa [hgap', hc] using hindicator) hend' (absurd · hs) (by omega) (by omega)
          he']
      simp
    · have hc : isGap c = false := by simpa using hc
      rw [plainRest?, if_neg (by simp [hc]), endsPlain_eq_false hmargin hcolumn hhash hcolon,
        if_neg (by simp), if_neg (by simp), YamlGap.none_eq,
        ih hline (by simpa [hc] using hindicator) hend' (fun _ => rfl) (by omega) (by omega) he']
      simp [prepend]

theorem not_isGap_of_startsPlain (h : YamlLexeme.startsPlain false c cs) : isGap c = false := by
  unfold YamlLexeme.startsPlain at h
  split_ifs at h with hdash hmark
  · subst c
    rfl
  · obtain rfl | rfl := hmark <;> rfl
  · simpa using (Bool.and_eq_true_iff.1 h).1

/-- A written plain scalar is read up to its end. -/
theorem plain?_append {e : YamlExtent} (h : isPlain (c :: cs)) (hmargin : margin ≤ column + 1)
    (he : plainRest? false margin .none (column + (c :: cs).length) rest = some e) :
    plain? false margin column c (cs ++ rest) = some { e with text := c :: cs ++ e.text } := by
  obtain ⟨hline, hstart, hindicator, hend⟩ := properties_of_isPlain h
  have hgap := not_isGap_of_startsPlain hstart
  have hline := (isOneLine_cons.1 hline).2
  simp only [hasIndicator, Bool.and_false, Bool.or_false, hgap, Bool.or_eq_false_iff]
    at hindicator
  have hend : cs.getLast? ≠ some ' ' := by
    cases cs with
    | nil => simp
    | cons d cs => simpa using hend
  have he : plainRest? false margin .none (column + 1 + cs.length) rest = some e := by
    rw [← he, List.length_cons, Nat.add_right_comm, Nat.add_assoc]
  rw [plain?, YamlGap.none_eq, plainRest?_append hline (by simpa using hindicator.2) hend
    (fun _ => rfl) hmargin (by omega) he]
  simp [prepend]

/-- A plain scalar ends at a colon with a gap behind it. -/
theorem plain?_key (h : isPlain (c :: cs)) (hmargin : margin ≤ column + 1)
    (hrest : atGap rest) :
    plain? false margin column c (cs ++ ':' :: rest)
      = some
        { text := c :: cs, column := column + (c :: cs).length, rest := ':' :: rest
          spansLines := false, atNewLine := false } := by
  have hends : endsPlain false margin .none (column + (c :: cs).length) ':' rest := by
    simp [endsPlain, hrest]
  rw [plain?_append h hmargin (e :=
    { text := [], column := column + (c :: cs).length, rest := ':' :: rest
      spansLines := false, atNewLine := false })]
  · simp
  · rw [plainRest?, if_neg (by decide), if_pos hends]
    rfl

/-- What follows a line break ends a plain scalar if it starts before the margin. -/
theorem plainRest?_spaces {first : Option Char} {n : Nat}
    (hrest : ∀ c ∈ rest.head?, column + n < margin ∧ isGap c = false) :
    plainRest? false margin (.breaks first []) column (List.replicate n ' ' ++ rest)
      = some
        { text := [], column := column + n, rest, spansLines := true, atNewLine := true } := by
  induction n generalizing column with
  | zero =>
    cases rest with
    | nil => rfl
    | cons c cs =>
      obtain ⟨hcolumn, hgap⟩ := hrest c rfl
      have hends : endsPlain false margin (.breaks first []) column c cs := by
        have hcolumn : column < margin := hcolumn
        simp [endsPlain, YamlGap.isEmpty, hcolumn]
      rw [List.replicate_zero, List.nil_append, plainRest?, if_neg (by simp [hgap]), if_pos hends]
      rfl
  | succ n ih =>
    have hrest : ∀ c ∈ rest.head?, column + 1 + n < margin ∧ isGap c = false := by
      rwa [Nat.add_right_comm, Nat.add_assoc]
    have hpush : (YamlGap.breaks first []).push ' ' = .breaks first [] := rfl
    have hcolumn : columnAfter column ' ' = column + 1 := rfl
    rw [List.replicate_succ, List.cons_append, plainRest?_gap rfl (by decide), hpush, hcolumn,
      ih hrest, Nat.add_right_comm, Nat.add_assoc]

/-- A plain scalar ends with its line if the next one starts before the margin. -/
theorem plain?_line {n : Nat} (h : isPlain (c :: cs)) (hmargin : margin ≤ column + 1)
    (hrest : ∀ c ∈ rest.head?, n < margin ∧ isGap c = false) :
    plain? false margin column c (cs ++ '\n' :: (List.replicate n ' ' ++ rest))
      = some
        { text := c :: cs, column := n, rest, spansLines := true, atNewLine := true } := by
  have hspaces := @plainRest?_spaces margin 0 rest (some '\n') n (by simpa using hrest)
  rw [Nat.zero_add] at hspaces
  rw [plain?_append h hmargin (e :=
    { text := [], column := n, rest, spansLines := true, atNewLine := true })]
  · simp
  · rw [plainRest?_gap rfl (by decide)]
    exact hspaces

/-! ## Single quotes -/

theorem singleQuoted?_cons {gap : YamlGap} (h : c ≠ '\x27') :
    singleQuoted? gap column (c :: cs)
      = if isGap c then singleQuoted? (gap.push c) (columnAfter column c) cs
        else if column = 0 ∧ startsMarker (c :: cs) then none
        else (singleQuoted? .none (column + 1) cs).map (prepend gap [c]) := by
  rw [singleQuoted?] <;> simp [h]

/-- A text in single quotes is read back. -/
theorem singleQuoted?_written (bs rest : List Char) (hline : isOneLine s)
    (hrest : rest.head? ≠ some '\x27') (hcolumn : 0 < column) :
    ∃ behind, singleQuoted? (.blanks bs) column
        (s.flatMap (fun c => if c = '\x27' then [c, c] else [c]) ++ '\x27' :: rest)
      = some
        { text := bs ++ s, column := behind, rest, spansLines := false, atNewLine := false } := by
  induction s generalizing bs column with
  | nil =>
    refine ⟨column + 1, ?_⟩
    rw [List.flatMap_nil, List.nil_append, singleQuoted?]
    · simp [close]
    · rintro cs rfl
      exact hrest rfl
  | cons c s ih =>
    obtain ⟨⟨hprintable, hbreak⟩, hline⟩ := isOneLine_cons.1 hline
    rw [List.flatMap_cons]
    split_ifs with hquote
    · subst c
      obtain ⟨behind, ih⟩ := @ih (column + 2) [] hline (by omega)
      refine ⟨behind, ?_⟩
      rw [List.append_assoc, List.cons_append, List.cons_append, List.nil_append, singleQuoted?,
        YamlGap.none_eq, ih]
      simp [prepend]
    · rw [List.append_assoc, List.singleton_append, singleQuoted?_cons hquote]
      -- a space is kept back until the next character shows that the line goes on
      split_ifs with hgap hmarker
      · obtain ⟨behind, ih⟩ := @ih (column + 1) (bs ++ [c]) hline (by omega)
        refine ⟨behind, ?_⟩
        rw [YamlGap.blanks_push hbreak, columnAfter, if_neg (by simp [hbreak]), ih]
        simp
      · omega
      · obtain ⟨behind, ih⟩ := @ih (column + 1) [] hline (by omega)
        refine ⟨behind, ?_⟩
        rw [YamlGap.none_eq, ih]
        simp [prepend]

/-! ## Double quotes -/

theorem hexValue?_hexDigit {n : Nat} (h : n < 16) :
    Text.hexValue? (YamlScalar.hexDigit n) = some n := by
  have hall : ∀ n < 16, Text.hexValue? (YamlScalar.hexDigit n) = some n := by decide
  exact hall n h

theorem length_hexDigits (width n : Nat) : (YamlScalar.hexDigits width n).length = width := by
  induction width generalizing n with
  | zero => rfl
  | succ width ih => simp [YamlScalar.hexDigits, ih]

/-- The last digits of a number, behind digits whose value is `first`. -/
theorem foldlM_hexDigits (width n first : Nat) :
    (YamlScalar.hexDigits width n).foldlM
        (fun n c => (Text.hexValue? c).map (n * 16 + ·)) first
      = some (first * 16 ^ width + n % 16 ^ width) := by
  induction width generalizing n with
  | zero => simp [YamlScalar.hexDigits, Nat.mod_one]
  | succ width ih =>
    have hmod := Nat.mod_lt n (show 16 > 0 by decide)
    rw [YamlScalar.hexDigits, List.foldlM_append, ih]
    simp only [Option.bind_eq_bind, Option.bind_some, List.foldlM_cons, hexValue?_hexDigit hmod,
      Option.map_some, List.foldlM_nil, Option.pure_def, Option.some.injEq]
    rw [Nat.pow_succ', Nat.mod_mul, Nat.add_mul, Nat.mul_assoc, Nat.mul_comm (16 ^ width) 16]
    omega

theorem toNat_valid (c : Char) : c.toNat < 0xd800 ∨ 0xdfff < c.toNat ∧ c.toNat < 0x110000 :=
  c.valid

/-- A character is read back from the digits of its number. -/
theorem numbered?_hexDigits {width : Nat} (h : c.toNat < 16 ^ width) :
    numbered? (YamlScalar.hexDigits width c.toNat) = some c := by
  have hvalid := toNat_valid c
  have hrange : (c.toNat < 0xd800 || (0xdfff < c.toNat && c.toNat ≤ 0x10ffff)) = true := by
    simp only [Bool.or_eq_true, Bool.and_eq_true, decide_eq_true_eq]
    omega
  simp only [numbered?, foldlM_hexDigits, Nat.zero_mul, Nat.zero_add, Nat.mod_eq_of_lt h,
    Option.bind_eq_bind, Option.bind_some, hrange, if_true, Char.ofNat_toNat]

/-- The letter for a character stands for it. -/
theorem escaped?_of_escapeLetter? {letter : Char}
    (h : YamlScalar.escapeLetter? c = some letter) :
    escaped? letter = some c ∧ isBreak letter = false := by
  unfold YamlScalar.escapeLetter? at h
  split at h
  case h_16 => simp at h
  all_goals
    obtain rfl := Option.some.inj h
    exact ⟨rfl, rfl⟩

/-- The number of a character has a letter that tells how many digits it has. -/
theorem numberChars_eq (c : Char) :
    ∃ mark width, YamlScalar.numberChars c = mark :: YamlScalar.hexDigits width c.toNat
      ∧ escaped? mark = none ∧ escapeWidth? mark = some width ∧ isBreak mark = false
      ∧ c.toNat < 16 ^ width := by
  unfold YamlScalar.numberChars
  split_ifs with hbyte hunit
  · exact ⟨'x', 2, rfl, rfl, rfl, rfl, by omega⟩
  · exact ⟨'u', 4, rfl, rfl, rfl, rfl, by omega⟩
  · refine ⟨'U', 8, rfl, rfl, rfl, rfl, ?_⟩
    have hvalid := toNat_valid c
    omega

theorem doubleQuoted?_cons {gap : YamlGap} (hquote : c ≠ '"') (hslash : c ≠ '\\') :
    doubleQuoted? gap column (c :: cs)
      = if isGap c then doubleQuoted? (gap.push c) (columnAfter column c) cs
        else if column = 0 ∧ startsMarker (c :: cs) then none
        else (doubleQuoted? .none (column + 1) cs).map (prepend gap [c]) := by
  rw [doubleQuoted?] <;> simp [hquote, hslash]

theorem doubleQuoted?_escape {gap : YamlGap} {d : Char} {width : Nat}
    (hbreak : isBreak c = false) (hread : readEscape? c cs = some (d, width, rest)) :
    doubleQuoted? gap column ('\\' :: c :: cs)
      = (doubleQuoted? .none (column + 1 + width) rest).map (prepend gap [d]) := by
  rw [doubleQuoted?, if_neg (by simp [hbreak])]
  split
  · next h => simp [hread] at h
  · next h => simp_all

/-- A character between double quotes that is no space is read back. -/
theorem doubleQuoted?_escapeChar (gap : YamlGap) (rest : List Char) (hcolumn : 0 < column)
    (hspace : c ≠ ' ') :
    ∃ behind, column < behind ∧
      doubleQuoted? gap column (YamlScalar.escapeChar c ++ rest)
        = (doubleQuoted? .none behind rest).map (prepend gap [c]) := by
  unfold YamlScalar.escapeChar
  split_ifs with hbare
  · refine ⟨column + 1, Nat.lt_succ_self _, ?_⟩
    simp only [Bool.and_eq_true, Bool.not_eq_true', bne_iff_ne] at hbare
    obtain ⟨⟨⟨hprintable, hbreak⟩, hquote⟩, hslash⟩ := hbare
    have hgap : isGap c = false := by
      simp [isGap, isBlank, hbreak, hspace, ne_tab_of_isPrintable hprintable]
    -- a mark between documents could only start in the first column
    rw [List.singleton_append, doubleQuoted?_cons hquote hslash, if_neg (by simp [hgap]),
      if_neg (by omega)]
  · split
    · next letter hletter =>
      obtain ⟨hescaped, hbreak⟩ := escaped?_of_escapeLetter? hletter
      have hread : readEscape? letter rest = some (c, 1, rest) := by simp [readEscape?, hescaped]
      exact ⟨column + 1 + 1, by omega, doubleQuoted?_escape hbreak hread⟩
    · obtain ⟨mark, width, hnumber, hescaped, hwidth, hbreak, hlt⟩ := numberChars_eq c
      have hlength := length_hexDigits width c.toNat
      have hread : readEscape? mark (YamlScalar.hexDigits width c.toNat ++ rest)
          = some (c, width + 1, rest) := by
        simp [readEscape?, hescaped, hwidth, hlength, numbered?_hexDigits hlt]
      refine ⟨column + 1 + (width + 1), by omega, ?_⟩
      rw [hnumber]
      exact doubleQuoted?_escape hbreak hread

/-- A text in double quotes is read back. -/
theorem doubleQuoted?_written (bs s rest : List Char) (hcolumn : 0 < column) :
    ∃ behind, doubleQuoted? (.blanks bs) column
        (s.flatMap YamlScalar.escapeChar ++ '"' :: rest)
      = some
        { text := bs ++ s, column := behind, rest, spansLines := false, atNewLine := false } := by
  induction s generalizing bs column with
  | nil =>
    refine ⟨column + 1, ?_⟩
    rw [List.flatMap_nil, List.nil_append, doubleQuoted?]
    simp [close]
  | cons c s ih =>
    rw [List.flatMap_cons, List.append_assoc]
    by_cases hspace : c = ' '
    · subst c
      obtain ⟨behind, ih⟩ := @ih (column + 1) (bs ++ [' ']) (by omega)
      refine ⟨behind, ?_⟩
      have hbare : YamlScalar.escapeChar ' ' = [' '] := rfl
      rw [hbare, List.singleton_append, doubleQuoted?_cons (by decide) (by decide),
        if_pos (by decide), YamlGap.blanks_push rfl]
      exact ih.trans (by simp)
    · obtain ⟨next, hnext, hread⟩ := doubleQuoted?_escapeChar (.blanks bs)
        (s.flatMap YamlScalar.escapeChar ++ '"' :: rest) hcolumn hspace
      obtain ⟨behind, ih⟩ := @ih next [] (by omega)
      refine ⟨behind, ?_⟩
      rw [hread, YamlGap.none_eq, ih]
      simp [prepend]

end YamlExtent

end TypeAtlas
