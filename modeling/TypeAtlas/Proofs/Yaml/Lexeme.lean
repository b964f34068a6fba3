import TypeAtlas.Proofs.Yaml.Scalar

/-!
# Lexemes that are written

Where a written scalar stands, the reader finds it and nothing else. A key is known by the colon
behind it; a scalar with the end of its line behind it is no key.

## Main definitions

* `YamlScalar.IsInline`, `YamlScalar.IsWritten` — scalars that are read back: those on one line, and
  all of them.
* `YamlScalar.IsKey` — scalars that can be keys.
* `StartsScalar` — the first character of a scalar.
* `YamlLexeme.IsLast` — a scalar at the end of its line.
* `YamlLexeme.StartsBefore` — where the next line starts.
-/

namespace TypeAtlas

open Yaml

/-! ## Scalars -/

namespace YamlScalar

/-- A scalar that is written on one line. -/
inductive IsInline : YamlScalar → Prop
  | plain {text : String} (h : isPlain text.toList) : IsInline { style := .plain, text }
  | singleQuoted {text : String} (h : isOneLine text.toList) :
    IsInline { style := .singleQuoted, text }
  | doubleQuoted (text : String) : IsInline { style := .doubleQuoted, text }

/-- A scalar whose written form is read back. -/
inductive IsWritten : YamlScalar → Prop
  | inline {s : YamlScalar} (h : s.IsInline) : IsWritten s
  | literal {text : String} (hlines : ¬ isOneLine text.toList) (h : isBlock text.toList) :
    IsWritten { style := .literal, text }

theorem IsWritten.tag_eq {s : YamlScalar} (h : s.IsWritten) : s.tag = none := by
  cases h with
  | inline h => cases h <;> rfl
  | literal => rfl

/-- Every text has a scalar that is read back. -/
theorem isWritten_ofText (text : String) : (ofText text).IsWritten := by
  unfold ofText styleOf
  split_ifs with hline hplain hblock
  · exact .inline (.plain (Bool.and_eq_true_iff.1 hplain).1)
  · exact .inline (.singleQuoted hline)
  · exact .literal hline hblock
  · exact .inline (.doubleQuoted text)

/-- A short plain scalar that starts with a letter. -/
structure IsKey (key : YamlScalar) : Prop where
  style : key.style = .plain
  tag : key.tag = none
  plain : isPlain key.text.toList
  letter : key.text.toList.head?.any Char.isAlpha
  short : key.text.toList.length ≤ YamlLexeme.keyLimit

theorem IsKey.isWritten {key : YamlScalar} (h : key.IsKey) : key.IsWritten := by
  obtain ⟨style, text, tag⟩ := key
  obtain ⟨rfl, rfl, hplain, -, -⟩ := h
  exact .inline (.plain hplain)

end YamlScalar

/-- The first character of a written scalar, which is not taken for anything else. -/
structure StartsScalar (c : Char) (cs : List Char) : Prop where
  gap : isGap c = false
  mark : c ∉ [',', '[', ']', '{', '}', '#', '&', '!', '|', '>', '\ufeff']
  indicator : atGap cs → c ∉ ['-', '?', ':']

theorem StartsScalar.ne {c : Char} {cs : List Char} (h : StartsScalar c cs) (d : Char)
    (hd : d ∈ [',', '[', ']', '{', '}', '#', '&', '!', '|', '>', '\ufeff']) : c ≠ d := by
  rintro rfl
  exact h.mark hd

namespace YamlLexeme

variable {margin column : Nat} {c : Char} {cs rest : List Char}

theorem startsPlain_cases (h : startsPlain false c cs) :
    (atGap cs = false ∧ c ∈ ['-', '?', ':']) ∨ c ∉ reserved := by
  unfold startsPlain at h
  split_ifs at h with hdash hmark
  · exact .inl ⟨by simpa using h, by simp [hdash]⟩
  · exact .inl ⟨by simpa using h, by simpa using .inr hmark⟩
  · exact .inr (by simpa using (Bool.and_eq_true_iff.1 h).2)

theorem ne_of_startsPlain (h : startsPlain false c cs) :
    c ∉ [',', '[', ']', '{', '}', '#', '&', '*', '!', '|', '>', '\x27', '"', '%', '@', '\x60'] := by
  obtain ⟨-, hc⟩ | hc := startsPlain_cases h
  · simp only [List.mem_cons, List.not_mem_nil, or_false] at hc
    obtain rfl | rfl | rfl := hc <;> decide
  · exact fun hmem =>
      hc (List.mem_cons_of_mem _ (List.mem_cons_of_mem _ (List.mem_cons_of_mem _ hmem)))

/-- A plain scalar may start where the first character of one stands, whatever follows the text. -/
theorem startsPlain_append (h : startsPlain false c cs) (rest : List Char) :
    startsPlain false c (cs ++ rest) := by
  unfold startsPlain at h ⊢
  split_ifs at h ⊢ <;> simp_all [YamlExtent.atGap_append]

theorem read?_plain (h : startsPlain false c cs) :
    read? false margin column c cs
      = (YamlExtent.plain? false margin column c cs).map (ofExtent .plain) := by
  have hne := ne_of_startsPlain h
  simp only [List.mem_cons, not_or] at hne
  simp [read?, h, hne]

theorem startsScalar_of_startsPlain (h : startsPlain false c cs) (hprintable : isPrintable c) :
    StartsScalar c cs where
  gap := YamlExtent.not_isGap_of_startsPlain h
  mark := by
    have hne := ne_of_startsPlain h
    have hmark : c ≠ '\ufeff' := by
      rintro rfl
      revert hprintable
      decide
    simp only [List.mem_cons, not_or] at hne ⊢
    simp [hne, hmark]
  indicator hgap := by
    obtain ⟨hcs, -⟩ | hc := startsPlain_cases h
    · simp [hcs] at hgap
    · exact fun hmem => hc (List.mem_append_left (reserved.drop 3) hmem)

/-! ## Keys -/

/-- The first characters of a plain scalar. -/
theorem exists_cons_of_isPlain {s : List Char} (h : YamlScalar.isPlain s) :
    ∃ c cs, s = c :: cs ∧ startsPlain false c cs ∧ isPrintable c := by
  cases s with
  | nil => simp [YamlScalar.isPlain] at h
  | cons c cs =>
    obtain ⟨hline, hstart, -⟩ := YamlScalar.properties_of_isPlain h
    exact ⟨c, cs, rfl, hstart, (YamlScalar.isOneLine_cons.1 hline).1.1⟩

theorem skipProperty_of_ne (hand : c ≠ '&') (hbang : c ≠ '!') :
    skipProperty false margin (column, c :: cs) = (column, c :: cs) := by
  simp [skipProperty, hand, hbang]

/-- A key is read up to its colon, and is known by it. -/
theorem read?_key {key : YamlScalar} (h : key.IsKey) (hmargin : margin ≤ column + 1)
    (hrest : atGap rest) :
    ∃ c cs, key.text.toList ++ ':' :: rest = c :: cs ∧ c.isAlpha ∧ StartsScalar c cs
      ∧ read? false margin column c cs
        = some
          { token := .scalar key.style key.text, column := column + key.text.toList.length
            rest := ':' :: rest }
      ∧ startsKey false margin column (c :: cs) := by
  obtain ⟨c, cs, htext, hstart, hprintable⟩ := exists_cons_of_isPlain h.plain
  have hplain := h.plain
  have hletter := h.letter
  have hshort := h.short
  rw [htext] at hplain hletter hshort
  have hstart' := startsPlain_append hstart (':' :: rest)
  have hscalar := startsScalar_of_startsPlain hstart' hprintable
  have hread : read? false margin column c (cs ++ ':' :: rest) = some
      { token := .scalar key.style key.text, column := column + key.text.toList.length
        rest := ':' :: rest } := by
    have hkey : String.ofList (c :: cs) = key.text := by rw [← htext, String.ofList_toList]
    rw [read?_plain hstart', YamlExtent.plain?_key hplain hmargin hrest, htext, h.style]
    simp [ofExtent, hkey]
  refine ⟨c, cs ++ ':' :: rest, by rw [htext, List.cons_append], by simpa using hletter, hscalar,
    hread, ?_⟩
  have hproperty : skipProperty false margin (column, c :: (cs ++ ':' :: rest))
      = (column, c :: (cs ++ ':' :: rest)) :=
    skipProperty_of_ne (hscalar.ne '&' (by decide)) (hscalar.ne '!' (by decide))
  have hblank : (':' :: rest).dropWhile isBlank = ':' :: rest := rfl
  have htake : (':' :: rest).takeWhile isBlank = [] := rfl
  simpa [startsKey, hproperty, hread, hblank, htake, hscalar.ne '&', hscalar.ne '!', hrest, htext]
    using hshort

/-! ## The ends of lines -/

/-- A scalar at the end of its line. What is behind the lexeme is read as the lines behind it are,
and starts with no colon. -/
structure IsLast (x : YamlLexeme) (s : YamlScalar) (rest : List Char) : Prop where
  token : x.token = .scalar s.style s.text
  noColon : x.spansLines ∨ (x.rest.dropWhile isBlank).head? ≠ some ':'
  skip : YamlLayout.skipGap false false x.atNewLine x.column x.rest
    = YamlLayout.skipGap false false true 0 rest

/-- A scalar at the end of its line is no key. -/
theorem startsKey_of_isLast {x : YamlLexeme} {s : YamlScalar} (hstart : StartsScalar c cs)
    (hread : read? false margin column c cs = some x) (h : x.IsLast s rest) :
    startsKey false margin column (c :: cs) = false := by
  have hproperty : skipProperty false margin (column, c :: cs) = (column, c :: cs) :=
    skipProperty_of_ne (hstart.ne '&' (by decide)) (hstart.ne '!' (by decide))
  simp only [startsKey, hproperty, hread]
  split
  · next ds hrest =>
    obtain hspans | hhead := h.noColon
    · simp [hspans]
    · simp [hrest] at hhead
  · rfl

/-- The line that comes next, if there is one, starts before the margin and with no comment. -/
def StartsBefore (margin : Nat) (rest : List Char) : Prop :=
  ∃ n content, rest = List.replicate n ' ' ++ content ∧ (content = [] → n = 0)
    ∧ ∀ c ∈ content.head?, n < margin ∧ isGap c = false ∧ c ≠ '#' ∧ c ≠ '\ufeff'

theorem StartsBefore.mono {m : Nat} (h : StartsBefore margin rest) (hle : margin ≤ m) :
    StartsBefore m rest := by
  obtain ⟨n, content, hrest, hnil, hcontent⟩ := h
  exact ⟨n, content, hrest, hnil, fun c hc =>
    (hcontent c hc).imp_left fun hn => Nat.lt_of_lt_of_le hn hle⟩

theorem skipGap_spaces (isFlow keyAllowed : Bool) (column n : Nat) (s : List Char) :
    YamlLayout.skipGap isFlow false keyAllowed column (List.replicate n ' ' ++ s)
      = YamlLayout.skipGap isFlow false keyAllowed (column + n) s := by
  induction n generalizing column with
  | zero => rfl
  | succ n ih =>
    rw [List.replicate_succ, List.cons_append, YamlLayout.skipGap, if_neg (by decide),
      if_pos (by simp), ih, Nat.add_right_comm, Nat.add_assoc]

theorem isLast_quoted {style : ScalarStyle} {text : String} {behind : Nat} :
    (ofExtent style
      { text := text.toList, column := behind, rest := '\n' :: rest, spansLines := false
        atNewLine := false }).IsLast { style, text } rest where
  token := by simp [ofExtent]
  noColon := .inr (by simp [ofExtent, isBlank])
  skip := rfl

/-- Where a scalar that is written on one line stands at the end of the line, it is read. -/
theorem exists_isLast {s : YamlScalar} (h : s.IsInline) (hmargin : margin ≤ column + 1)
    (hrest : StartsBefore margin rest) (indent : Nat) :
    ∃ c cs, s.chars indent ++ '\n' :: rest = c :: cs ∧ StartsScalar c cs
      ∧ ∃ x, read? false margin column c cs = some x ∧ x.IsLast s rest := by
  cases h with
  | @plain text h =>
    obtain ⟨c, cs, htext, hstart, hprintable⟩ := exists_cons_of_isPlain h
    -- the reader goes on behind the line break, to see whether the scalar does
    obtain ⟨n, content, rfl, -, hcontent⟩ := hrest
    have hstart' := startsPlain_append hstart ('\n' :: (List.replicate n ' ' ++ content))
    refine ⟨c, cs ++ '\n' :: (List.replicate n ' ' ++ content), ?_,
      startsScalar_of_startsPlain hstart' hprintable, ?_⟩
    · simp [YamlScalar.chars, htext]
    · rw [htext] at h
      rw [read?_plain hstart', YamlExtent.plain?_line h hmargin fun c hc =>
        ⟨(hcontent c hc).1, (hcontent c hc).2.1⟩]
      refine ⟨_, rfl, ?_, .inl rfl, ?_⟩
      · simp [ofExtent, ← htext]
      · simp [ofExtent, skipGap_spaces]
  | @singleQuoted text h =>
    obtain ⟨behind, hquoted⟩ := YamlExtent.singleQuoted?_written [] ('\n' :: rest) h (by simp)
      (Nat.succ_pos column)
    refine ⟨'\x27', _, ?_, ⟨rfl, by decide, fun _ => by decide⟩, _,
      congrArg (Option.map (ofExtent .singleQuoted)) hquoted, isLast_quoted⟩
    simp [YamlScalar.chars, YamlScalar.singleQuoted]
  | doubleQuoted text =>
    obtain ⟨behind, hquoted⟩ := YamlExtent.doubleQuoted?_written [] text.toList ('\n' :: rest)
      (Nat.succ_pos column)
    refine ⟨'"', _, ?_, ⟨rfl, by decide, fun _ => by decide⟩, _,
      congrArg (Option.map (ofExtent .doubleQuoted)) hquoted, isLast_quoted⟩
    simp [YamlScalar.chars, YamlScalar.doubleQuoted]

end YamlLexeme

end TypeAtlas
