import TypeAtlas.Proofs.Yaml.Lexeme

/-!
# Block scalars that are written

A text that is written as a block is read back from its lines, whatever line stands behind it, if
that line starts further left. Behind the block the reader is at the start of this line.

The text is the lines that are closed and one line more, whose end the block leaves to what follows.
The sign for the line feeds at the end tells whether the last line is empty.

The main statement is `readBlock?_literal`.
-/

namespace TypeAtlas

open Yaml
open YamlLexeme (StartsBefore)

/-! ## Lines -/

namespace YamlLine

variable {s rest : List Char} {indent : Nat} {lines : List YamlLine}

theorem ofText_cons_break {c : Char} (h : isBreak c) :
    ofText (c :: s) = { text := [], ending := some c } :: ofText s := by
  rw [ofText, if_pos h]

theorem ofText_cons {c : Char} {line : YamlLine} (h : isBreak c = false)
    (hs : ofText s = line :: lines) :
    ofText (c :: s) = { line with text := c :: line.text } :: lines := by
  rw [ofText, if_neg (by simp [h]), hs]

/-- A line without breaks is read up to its end. -/
theorem ofText_line (hs : ∀ c ∈ s, isBreak c = false) (rest : List Char) :
    ofText (s ++ '\n' :: rest) = { text := s, ending := some '\n' } :: ofText rest := by
  induction s with
  | nil => exact ofText_cons_break rfl
  | cons c s ih =>
    obtain ⟨hc, hs⟩ := List.forall_mem_cons.1 hs
    exact ofText_cons hc (ih hs)

/-- The lines of a text in which nothing but line feeds ends a line: those that are closed, and what
stands behind them. -/
theorem exists_lines (hs : ∀ c ∈ s, isBreak c → c = '\n') :
    ∃ lines last, (∀ line ∈ lines, line.ending = some '\n') ∧
      (∀ line ∈ lines, ∀ c ∈ line.text, isBreak c = false) ∧ (∀ c ∈ last, isBreak c = false) ∧
      ofText s = lines ++ (if last = [] then [] else [{ text := last, ending := none }]) := by
  induction s with
  | nil => exact ⟨[], [], by simp [ofText]⟩
  | cons c s ih =>
    obtain ⟨hc, hs⟩ := List.forall_mem_cons.1 hs
    obtain ⟨lines, last, hends, hlines, hlast, htext⟩ := ih hs
    by_cases hbreak : isBreak c
    · obtain rfl := hc hbreak
      exact ⟨{ text := [], ending := some '\n' } :: lines, last, by simpa using hends,
        by simpa using hlines, hlast, by rw [ofText_cons_break rfl, htext, List.cons_append]⟩
    · rw [Bool.not_eq_true] at hbreak
      cases lines with
      | nil =>
        refine ⟨[], c :: last, by simp, by simp, by simpa [hbreak] using hlast, ?_⟩
        by_cases hnil : last = [] <;> simp [ofText, htext, hbreak, hnil]
      | cons line lines =>
        refine ⟨{ line with text := c :: line.text } :: lines, last, by simpa using hends, ?_,
          hlast, ofText_cons hbreak htext⟩
        simpa [hbreak] using hlines

/-- The lines of a text of which the last one is ended by a line feed behind the text. -/
structure Closes (lines : List YamlLine) (s : List Char) : Prop where
  ending : ∀ line ∈ lines, line.ending = some '\n'
  unbroken : ∀ line ∈ lines, ∀ c ∈ line.text, isBreak c = false
  made : toText lines = s ++ ['\n']
  /-- The indented lines are written with their ends. -/
  written : ∀ (indent : Nat) (rest : List Char),
    toText ((ofText s).map (·.indented indent)) ++ '\n' :: rest
      = toText (lines.map (·.indented indent)) ++ rest

theorem exists_closes (hs : ∀ c ∈ s, isBreak c → c = '\n') : ∃ lines, Closes lines s := by
  obtain ⟨lines, last, hends, hlines, hlast, htext⟩ := exists_lines hs
  have hself := toText_ofText s
  rw [htext] at hself
  refine ⟨lines ++ [{ text := last, ending := some '\n' }], ?_, ?_, ?_, fun indent rest => ?_⟩
  · simpa [or_imp, forall_and] using hends
  · simpa [or_imp, forall_and] using ⟨hlines, hlast⟩
  · rw [← hself]
    by_cases hnil : last = [] <;> simp [toText, hnil]
  · by_cases hnil : last = [] <;> simp [htext, toText, indented, hnil]

/-- The last line is empty only if there is no text or a line feed at its end. -/
theorem Closes.text_ne_nil {line : YamlLine} (h : Closes lines s)
    (hline : line ∈ lines.getLast?) (hs : s ≠ []) (hend : s.getLast? ≠ some '\n') :
    line.text ≠ [] := by
  intro hnil
  obtain ⟨others, rfl⟩ := List.getLast?_eq_some_iff.1 hline
  have hmade := h.made
  have hline := h.ending line (by simp)
  have hothers : toText others = s := by simpa [toText, hnil, hline] using hmade
  rcases List.eq_nil_or_concat others with rfl | ⟨init, before, rfl⟩
  · exact hs hothers.symm
  · have hbefore := h.ending before (by simp)
    refine hend ?_
    rw [← hothers]
    simp [toText, hbefore]

/-- The first line of a text that starts with no line feed starts as the text does. -/
theorem Closes.exists_cons {c : Char} (h : Closes lines s) (hs : (s ++ ['\n']).head? = some c)
    (hc : c ≠ '\n') : ∃ line others t, lines = line :: others ∧ line.text = c :: t := by
  rw [← h.made] at hs
  cases lines with
  | nil => simp [toText] at hs
  | cons line lines =>
    cases htext : line.text with
    | nil =>
      have hending := h.ending line List.mem_cons_self
      simp [toText, htext, hending, Ne.symm hc] at hs
    | cons d t =>
      obtain rfl : d = c := by simpa [toText, htext] using hs
      exact ⟨line, lines, t, rfl, htext⟩

/-- An indentation adds spaces only. -/
theorem mem_text_indented {c : Char} {line : YamlLine} (h : c ∈ (line.indented indent).text) :
    c = ' ' ∨ c ∈ line.text := by
  unfold indented at h
  split_ifs at h
  · simp at h
  · obtain h | h := List.mem_append.1 h
    · exact .inl (List.mem_replicate.1 h).2
    · exact .inr h

theorem mem_toText_indented {c : Char} (h : c ∈ toText (lines.map (·.indented indent))) :
    c = ' ' ∨ c ∈ toText lines := by
  simp only [toText, List.mem_flatMap, List.mem_map] at h ⊢
  obtain ⟨_, ⟨line, hline, rfl⟩, hc⟩ := h
  obtain hc | hc := List.mem_append.1 hc
  · exact (mem_text_indented hc).imp_right fun hc => ⟨line, hline, List.mem_append_left _ hc⟩
  · exact .inr ⟨line, hline, List.mem_append_right _ hc⟩

/-- Closed lines behind an indentation are read as they are. -/
theorem ofText_toText_indented (hends : ∀ line ∈ lines, line.ending = some '\n')
    (hlines : ∀ line ∈ lines, ∀ c ∈ line.text, isBreak c = false) (rest : List Char) :
    ofText (toText (lines.map (·.indented indent)) ++ rest)
      = lines.map (·.indented indent) ++ ofText rest := by
  induction lines with
  | nil => rfl
  | cons line lines ih =>
    obtain ⟨hend, hends⟩ := List.forall_mem_cons.1 hends
    obtain ⟨hline, hlines⟩ := List.forall_mem_cons.1 hlines
    have htext : ∀ c ∈ (line.indented indent).text, isBreak c = false := by
      intro c hc
      obtain rfl | hc := mem_text_indented hc
      · decide
      · exact hline c hc
    have hread := ofText_line htext (toText (lines.map (·.indented indent)) ++ rest)
    rw [ih hends hlines] at hread
    have hclosed : line.indented indent = { text := (line.indented indent).text
                                            ending := some '\n' } := by
      rw [← hend]
      rfl
    simpa [toText, hend, indented, hclosed] using hread

/-- The first line of a text, as far as it is known. -/
theorem exists_cons_ofText {c : Char} (hc : isBreak c = false) (n : Nat) (s : List Char) :
    ∃ (line : YamlLine) (lines : List YamlLine), ofText (List.replicate n ' ' ++ c :: s)
      = { line with text := List.replicate n ' ' ++ c :: line.text } :: lines := by
  induction n with
  | zero =>
    cases hs : ofText s with
    | nil => exact ⟨{ text := [], ending := none }, [], by simp [ofText, hc, hs]⟩
    | cons line lines => exact ⟨line, lines, ofText_cons hc hs⟩
  | succ n ih =>
    obtain ⟨line, lines, hs⟩ := ih
    exact ⟨line, lines, ofText_cons (by decide) hs⟩

theorem indentation_replicate {c : Char} (hc : c ≠ ' ') (n : Nat) (s : List Char)
    (ending : Option Char) :
    indentation { text := List.replicate n ' ' ++ c :: s, ending } = n := by
  simp [indentation, hc]

end YamlLine

/-! ## Bodies -/

namespace BlockBody

variable {indent margin : Nat} {last : Option Char} {afterBlank : Bool} {blanks rest : List Char}
  {lines others : List YamlLine}

/-- A block ends in front of a line that starts further left. -/
theorem ofLines?_of_startsBefore (h : StartsBefore margin rest) (hmargin : margin ≤ indent)
    (last : Option Char) (afterBlank : Bool) (blanks : List Char) :
    ofLines? false indent last afterBlank blanks (YamlLine.ofText rest)
      = some { text := [], lastBreak := last, moreBreaks := blanks
               rest := YamlLine.ofText rest } := by
  obtain ⟨n, content, rfl, hnil, hcontent⟩ := h
  cases content with
  | nil =>
    obtain rfl := hnil rfl
    rfl
  | cons c cs =>
    obtain ⟨hn, hgap, -⟩ := hcontent c rfl
    simp only [isGap, Bool.or_eq_false_iff, isBlank, beq_eq_false_iff_ne] at hgap
    obtain ⟨line, lines, hlines⟩ := YamlLine.exists_cons_ofText hgap.2 n cs
    have hindent := YamlLine.indentation_replicate hgap.1.1 n line.text line.ending
    have hdrop : min indent n = n := by omega
    rw [hlines, ofLines?, hindent, hdrop, List.drop_left' (List.length_replicate ..)]
    simp only
    rw [if_pos (by omega), if_neg hgap.1.2]

/-- The lines of a block are the text that they make up, in front of which the lines before end. If
the last line is not empty, its end is the last one. -/
theorem ofLines?_indented (hends : ∀ line ∈ lines, line.ending = some '\n')
    (hstop : ∀ last afterBlank blanks, ofLines? false indent last afterBlank blanks others
      = some { text := [], lastBreak := last, moreBreaks := blanks, rest := others }) :
    ∃ body, ofLines? false indent last afterBlank blanks
        (lines.map (·.indented indent) ++ others) = some body ∧ body.rest = others ∧
      body.text ++ (body.lastBreak.toList ++ body.moreBreaks)
        = last.toList ++ (blanks ++ YamlLine.toText lines) ∧
      (lines = [] → body.lastBreak = last ∧ body.moreBreaks = blanks) ∧
      ∀ line ∈ lines.getLast?, line.text ≠ [] →
        body.lastBreak = some '\n' ∧ body.moreBreaks = [] := by
  induction lines generalizing last afterBlank blanks with
  | nil => exact ⟨_, hstop last afterBlank blanks, rfl, by simp [YamlLine.toText], by simp⟩
  | cons line lines ih =>
    obtain ⟨hend, hends⟩ := List.forall_mem_cons.1 hends
    cases htext : line.text with
    | nil =>
      obtain ⟨body, hbody, hrest, hmade, -, hlast⟩ := @ih last afterBlank (blanks ++ ['\n']) hends
      refine ⟨body, ?_, hrest, ?_, by simp, ?_⟩
      · simpa [ofLines?, YamlLine.indented, htext, hend] using hbody
      · simpa [YamlLine.toText, htext, hend] using hmade
      · cases lines with
        | nil => simp [htext]
        | cons next lines => simpa using hlast
    | cons c cs =>
      obtain ⟨body, hbody, hrest, hmade, hnone, hlast⟩ := @ih (some '\n') (isBlank c) [] hends
      refine ⟨{ body with text := last.toList ++ blanks ++ c :: cs ++ body.text }, ?_, hrest, ?_,
        by simp, ?_⟩
      · have hline : line.indented indent
            = { text := List.replicate indent ' ' ++ c :: cs, ending := some '\n' } := by
          simp [YamlLine.indented, htext, hend]
        have hindent : indent ≤ (line.indented indent).indentation := by
          simp [hline, YamlLine.indentation]
        rw [List.map_cons, List.cons_append, ofLines?, Nat.min_eq_left hindent, hline]
        rw [hline] at hindent
        simp [Nat.not_lt.2 hindent, hbody, joint]
      · simpa [YamlLine.toText, htext, hend] using hmade
      · cases lines with
        | nil => simpa using fun _ => hnone rfl
        | cons next lines => simpa using hlast

end BlockBody

/-! ## Texts -/

namespace YamlScalar

variable {s : List Char}

theorem isBlock_cases (h : isBlock s) : ∀ c ∈ s, c = '\n' ∨ isPrintable c ∧ isBreak c = false := by
  simpa [isBlock] using fun c hc => List.all_eq_true.1 (Bool.and_eq_true_iff.1 h).1 c hc

/-- A text that needs several lines has a line feed. -/
theorem mem_of_isBlock (h : isBlock s) (hlines : ¬ isOneLine s) : '\n' ∈ s := by
  refine Decidable.byContradiction fun hnone => hlines (List.all_eq_true.2 fun c hc => ?_)
  obtain rfl | hline := isBlock_cases h c hc
  · exact absurd hc hnone
  · simpa using hline

theorem ofText?_headChars (s rest : List Char) :
    BlockHead.ofText? (headChars (blockHead s) ++ '\n' :: rest) = some (blockHead s, rest) := by
  unfold blockHead headChars
  split_ifs <;> rfl

theorem dropLastBreak_append (h : s.getLast? = some '\n') : dropLastBreak s ++ ['\n'] = s := by
  obtain ⟨t, rfl⟩ := List.getLast?_eq_some_iff.1 h
  simp [dropLastBreak]

theorem mem_of_mem_dropLastBreak {c : Char} (h : c ∈ dropLastBreak s) : c ∈ s := by
  unfold dropLastBreak at h
  split_ifs at h
  · exact List.dropLast_subset _ h
  · exact h

/-- The ends of lines behind a text are kept as far as they are part of it. -/
theorem textWith_blockHead {body : BlockBody} (hs : s ≠ [])
    (hmade : body.text ++ (body.lastBreak.toList ++ body.moreBreaks) = dropLastBreak s ++ ['\n'])
    (hlast : dropLastBreak s ≠ [] → (dropLastBreak s).getLast? ≠ some '\n' →
      body.lastBreak = some '\n' ∧ body.moreBreaks = []) :
    body.textWith (blockHead s).ending = s := by
  by_cases hend : s.getLast? = some '\n'
  · rw [dropLastBreak_append hend] at hmade
    by_cases hkeep : s = ['\n'] ∨ s.dropLast.getLast? = some '\n'
    · simpa [blockHead, hend, hkeep, BlockBody.textWith] using hmade
    · have hdrop : dropLastBreak s = s.dropLast := if_pos hend
      have hmore : body.moreBreaks = [] := by
        refine (hlast ?_ ?_).2
        · intro hnil
          have hself := dropLastBreak_append hend
          rw [hnil] at hself
          exact hkeep (.inl hself.symm)
        · rw [hdrop]
          exact fun hblank => hkeep (.inr hblank)
      simpa [blockHead, hend, hkeep, BlockBody.textWith, hmore] using hmade
  · have hdrop : dropLastBreak s = s := if_neg hend
    rw [hdrop] at hmade hlast
    obtain ⟨hlast, hmore⟩ := hlast hs hend
    simpa [blockHead, hend, BlockBody.textWith, hlast, hmore] using hmade

/-- The indentation of a block is said by its head or shown by its first line. -/
theorem indent?_blockHead {lines others : List YamlLine} {margin : Nat} (hmargin : 0 < margin)
    (hs : s ≠ []) (h : isBlock s) (hlines : YamlLine.Closes lines (dropLastBreak s)) :
    BlockBody.indent? margin (blockHead s).depth (lines.map (·.indented (margin + 1)) ++ others)
      = some (margin + 1) := by
  obtain ⟨c, cs, rfl⟩ := List.exists_cons_of_ne_nil hs
  by_cases hdepth : c = ' ' ∨ c = '\n'
  · have hsum : margin - 1 + 2 = margin + 1 := by omega
    simp [blockHead, hdepth, BlockBody.indent?, hsum]
  · obtain ⟨hspace, hfeed⟩ := not_or.1 hdepth
    have hc := (isBlock_cases h c List.mem_cons_self).resolve_left hfeed
    have htab : c ≠ '\t' := by
      rintro rfl
      revert hc
      decide
    have hhead : (dropLastBreak (c :: cs) ++ ['\n']).head? = some c := by
      by_cases hend : (c :: cs).getLast? = some '\n'
      · rw [dropLastBreak_append hend, List.head?_cons]
      · simp [dropLastBreak, hend]
    obtain ⟨line, lines, t, rfl, htext⟩ := hlines.exists_cons hhead hfeed
    have hline : line.indented (margin + 1)
        = { text := List.replicate (margin + 1) ' ' ++ c :: t, ending := line.ending } := by
      simp [YamlLine.indented, htext]
    have hshown := YamlLine.indentation_replicate hspace (margin + 1) t line.ending
    have hdeepest : BlockBody.deepest?
        ((line :: lines).map (·.indented (margin + 1)) ++ others) = some (margin + 1) := by
      rw [List.map_cons, List.cons_append, BlockBody.deepest?, hline, hshown,
        List.drop_left' (List.length_replicate ..)]
      simp [htab]
    simp only [blockHead, List.head?_cons, Option.some.injEq, hspace, hfeed, or_self, if_false,
      BlockBody.indent?, hdeepest, Option.map_some]
    omega

end YamlScalar

open YamlScalar

/-- A text that is written as a block is read back, and the line behind it comes next. -/
theorem readBlock?_literal {s rest : List Char} {margin : Nat} (hlines : ¬ isOneLine s)
    (h : isBlock s) (hmargin : 0 < margin) (hrest : StartsBefore margin rest) :
    ∃ behind, literal (margin + 1) s ++ '\n' :: rest = '|' :: behind ∧
      readBlock? false margin behind = some (s, rest) := by
  have hs : s ≠ [] := List.ne_nil_of_mem (mem_of_isBlock h hlines)
  obtain ⟨lines, hclosed⟩ : ∃ lines, YamlLine.Closes lines (dropLastBreak s) := by
    refine YamlLine.exists_closes fun c hc hbreak => ?_
    refine (isBlock_cases h c (mem_of_mem_dropLastBreak hc)).resolve_right ?_
    simp [hbreak]
  have hread := @YamlLine.ofText_toText_indented (margin + 1) lines hclosed.ending
    hclosed.unbroken rest
  obtain ⟨body, hbody, hbehind, hmade, -, hlast⟩ :=
    @BlockBody.ofLines?_indented (margin + 1) none false [] lines _ hclosed.ending
      (BlockBody.ofLines?_of_startsBefore hrest (Nat.le_succ margin))
  have htext : body.textWith (blockHead s).ending = s := by
    refine textWith_blockHead hs (hmade.trans hclosed.made) fun hne hend => ?_
    obtain ⟨line, hline⟩ : ∃ line, line ∈ lines.getLast? := by
      cases lines with
      | nil => exact absurd hclosed.made (by simp [YamlLine.toText])
      | cons line lines => exact ⟨_, List.getLast?_eq_some_getLast (by simp)⟩
    exact hlast line hline (hclosed.text_ne_nil hline hne hend)
  refine ⟨headChars (blockHead s) ++ '\n' ::
    (YamlLine.toText (lines.map (·.indented (margin + 1))) ++ rest), ?_, ?_⟩
  · rw [← hclosed.written (margin + 1) rest]
    simp [literal]
  · rw [readBlock?, ofText?_headChars]
    simp only [Option.bind_eq_bind, Option.bind_some, hread, indent?_blockHead hmargin hs h hclosed,
      hbody, hbehind, htext, YamlLine.toText_ofText]
    rfl

end TypeAtlas
