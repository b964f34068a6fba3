import TypeAtlas.Proofs.Yaml.Block

/-!
# The lines of a document

What a line of a written document adds to the tokens, and the layout that it leaves behind: a line
with a key, with a value, with an item, and the end of a collection in front of a line that starts
further left. A value or an item that is a block goes on to the lines of the block.

A line is read from its start, or, if it goes on behind a key, from there. Either way the layout
behind it is the start of the next line.
-/

namespace TypeAtlas

open Yaml
open YamlLexeme (StartsBefore)

namespace YamlLayout

variable {l : YamlLayout} {margins : List Nat} {column n : Nat} {c : Char} {cs rest : List Char}
  {s key : YamlScalar}

/-! ## One step -/

theorem tokens?_eq (l : YamlLayout) :
    l.tokens? = match l.skip.rest with
      | [] => some ((l.skip.closeTo 0).1 ++ [.documentEnd])
      | c :: cs => (l.skip.dedent.2.read? c cs).bind fun (tokens, next) =>
        next.tokens?.map ((l.skip.dedent.1 ++ tokens) ++ ·) := by
  rw [tokens?]
  split
  · next h => rw [h]
  · next c cs h =>
    rw [h]
    split
    · next hread => simp [hread]
    · next tokens next hread => simp [hread]

/-- White space does not matter. -/
theorem tokens?_congr {m : YamlLayout} (h : l.skip = m.skip) : l.tokens? = m.tokens? := by
  rw [tokens?_eq, tokens?_eq m, h]

/-- Nothing ends at a place that is not left of the innermost collection. -/
theorem closeTo_of_margin_le (h : l.margin ≤ n) : l.closeTo n = ([], l) := by
  obtain ⟨column, rest, margins, flowDepth, keyAllowed, keyPending⟩ := l
  unfold closeTo
  split
  · rfl
  · cases margins with
    | nil => rfl
    | cons a margins =>
      have ha : a ≤ n := h
      simp [ha]

/-- The tokens at a place where nothing ends. -/
theorem tokens?_read {m next : YamlLayout} {tokens : List YamlToken} (hskip : l.skip = m)
    (hrest : m.rest = c :: cs) (hmargin : m.margin ≤ m.column + 1)
    (hread : m.read? c cs = some (tokens, next)) :
    l.tokens? = next.tokens?.map (tokens ++ ·) := by
  have hdedent : m.dedent = ([], m) := closeTo_of_margin_le hmargin
  rw [tokens?_eq, hskip]
  simp [hrest, hdedent, hread]

/-! ## White space -/

/-- The start of a line, with the margins of the collections that are open. -/
def lineStart (margins : List Nat) (rest : List Char) : YamlLayout :=
  { rest, margins }

theorem skipGap_of_ne {isFlow keyAllowed : Bool} (hgap : isGap c = false) (hhash : c ≠ '#')
    (hmark : c ≠ '\ufeff') :
    skipGap isFlow false keyAllowed column (c :: cs) = (keyAllowed, column, c :: cs) := by
  simp only [isGap, isBlank, Bool.or_eq_false_iff, beq_eq_false_iff_ne] at hgap
  simp [skipGap, hgap, hhash, hmark]

/-- The end of a line leads to the start of the next one. -/
theorem tokens?_lineEnd {keyAllowed : Bool} :
    tokens? { column, rest := '\n' :: rest, margins, keyAllowed }
      = (lineStart margins rest).tokens? := by
  refine tokens?_congr ?_
  have hgap : skipGap false false keyAllowed column ('\n' :: rest)
      = skipGap false false true 0 rest := by
    simp [skipGap, isBreak]
  simp [skip, lineStart, isFlow, hgap]

/-- The first token of a line that does not start with a gap. -/
theorem skip_lineStart (hgap : isGap c = false) (hhash : c ≠ '#') (hmark : c ≠ '\ufeff') :
    (lineStart margins (List.replicate n ' ' ++ c :: cs)).skip
      = { column := n, rest := c :: cs, margins } := by
  have hskip := YamlLexeme.skipGap_spaces false true 0 n (c :: cs)
  rw [skipGap_of_ne hgap hhash hmark, Nat.zero_add] at hskip
  simp [skip, lineStart, isFlow, hskip]

/-! ## Keys -/

theorem startsMarker_of_ne (hdash : c ≠ '-') (hpoint : c ≠ '.') :
    startsMarker (c :: cs) = false := by
  unfold startsMarker startsTriple
  split <;> simp_all

theorem startsMarker_of_second_ne {d : Char} (hdash : d ≠ '-') (hpoint : d ≠ '.') :
    startsMarker (c :: d :: cs) = false := by
  unfold startsMarker startsTriple
  split <;> simp_all

/-- A letter starts no mark between documents. -/
theorem startsMarker_of_isAlpha (h : c.isAlpha) : startsMarker (c :: cs) = false := by
  refine startsMarker_of_ne ?_ ?_
  all_goals
    rintro rfl
    simp at h

/-- A written scalar is a lexeme. -/
theorem read?_of_startsScalar (h : StartsScalar c cs) (hflow : l.flowDepth = 0)
    (hcolumn : l.column = 0 → c.isAlpha) : l.read? c cs = l.readLexeme? c cs := by
  have hmarker : ¬(l.column = 0 ∧ (c = '%' ∨ startsMarker (c :: cs))) := by
    rintro ⟨hzero, rfl | hmarker⟩
    · simpa using hcolumn hzero
    · simp [startsMarker_of_isAlpha (hcolumn hzero)] at hmarker
  have hmark : isFlowMark c = false := by
    simp [isFlowMark, h.ne]
  have hdash : ¬(c = '-' ∧ atGap cs) := fun ⟨hc, hgap⟩ => h.indicator hgap (by simp [hc])
  have hquestion : ¬(c = '?' ∧ atGap cs) := fun ⟨hc, hgap⟩ => h.indicator hgap (by simp [hc])
  have hcolon : ¬(c = ':' ∧ atGap cs) := fun ⟨hc, hgap⟩ => h.indicator hgap (by simp [hc])
  have hblock : ¬(c = '|' ∨ c = '>') := by simp [h.ne]
  simp [read?, isFlow, hflow, hmarker, hmark, hdash, hquestion, hcolon, hblock]

theorem readLexeme?_eq {m : YamlLayout} {x : YamlLexeme} {tokens : List YamlToken}
    (hread : YamlLexeme.read? l.isFlow l.margin l.column c cs = some x)
    (hannounce : l.announceKey? = some (tokens, m)) :
    l.readLexeme? c cs = some (tokens ++ [x.token],
      { m with column := x.column, rest := x.rest, keyAllowed := x.atNewLine }) := by
  simp [readLexeme?, hread, hannounce]

theorem announceKey?_of_startsKey {m : YamlLayout} {starts : List YamlToken}
    (hallowed : l.keyAllowed)
    (h : YamlLexeme.startsKey l.isFlow l.margin l.column l.rest)
    (hopen : l.openAt .mappingStart = (starts, m)) :
    l.announceKey? = some (starts ++ [.key], { m with keyPending := true }) := by
  simp [announceKey?, hallowed, h, hopen]

/-- The colon behind a key. -/
theorem tokens?_colon (hmargin : margins.headD 0 ≤ column) (hgap : atGap rest) :
    tokens? { column, rest := ':' :: rest, margins, keyAllowed := false, keyPending := true }
      = (tokens? { column := column + 1, rest, margins, keyAllowed := false }).map
        ([.value] ++ ·) := by
  have hskip : skip { column, rest := ':' :: rest, margins, keyAllowed := false
                      keyPending := true }
      = { column, rest := ':' :: rest, margins, keyAllowed := false, keyPending := true } := rfl
  refine tokens?_read hskip rfl (Nat.le_succ_of_le hmargin) ?_
  have hmarker : startsMarker (':' :: rest) = false := startsMarker_of_ne (by decide) (by decide)
  simp [read?, isFlow, isFlowMark, past, hmarker, hgap]

/-- A line with a key, up to the value. If a mapping starts there, that is the first token. -/
theorem tokens?_keyWith {starts : List YamlToken} {inner : List Nat} (hkey : key.IsKey)
    (hgap : atGap rest) (hmargin : margins.headD 0 ≤ n + 1) (hinner : inner.headD 0 ≤ n + 1)
    (hopen : ∀ rest, openAt .mappingStart { column := n, rest, margins }
      = (starts, { column := n, rest, margins := inner })) :
    (lineStart margins (List.replicate n ' ' ++ (key.text.toList ++ ':' :: rest))).tokens?
      = (tokens? { column := n + key.text.toList.length + 1, rest, margins := inner
                   keyAllowed := false }).map
        ((starts ++ [.key, .scalar key.style key.text, .value]) ++ ·) := by
  obtain ⟨c, cs, htext, hletter, hstart, hread, hstarts⟩ :=
    YamlLexeme.read?_key hkey hmargin hgap
  have hskip : (lineStart margins (List.replicate n ' ' ++ c :: cs)).skip
      = { column := n, rest := c :: cs, margins } :=
    skip_lineStart hstart.gap (hstart.ne '#' (by decide)) (hstart.ne '\ufeff' (by decide))
  have hannounce : announceKey? { column := n, rest := c :: cs, margins }
      = some (starts ++ [.key],
        { column := n, rest := c :: cs, margins := inner, keyPending := true }) :=
    announceKey?_of_startsKey (l := { column := n, rest := c :: cs, margins }) rfl hstarts (hopen _)
  have hlexeme : read? { column := n, rest := c :: cs, margins } c cs = some
      (starts ++ [.key] ++ [.scalar key.style key.text],
        { column := n + key.text.toList.length, rest := ':' :: rest, margins := inner
          keyAllowed := false, keyPending := true }) := by
    rw [read?_of_startsScalar hstart rfl fun _ => hletter]
    exact readLexeme?_eq (l := { column := n, rest := c :: cs, margins }) hread hannounce
  have hlength : 0 < key.text.toList.length := by
    obtain ⟨c, cs, htext, -⟩ := YamlLexeme.exists_cons_of_isPlain hkey.plain
    simp [htext]
  rw [htext, tokens?_read hskip rfl hmargin hlexeme, tokens?_colon (by omega) hgap,
    Option.map_map]
  congr 1
  funext ts
  simp

/-- A line with a key of the innermost mapping. -/
theorem tokens?_key (hkey : key.IsKey) (hgap : atGap rest) :
    (lineStart ((n + 1) :: margins)
        (List.replicate n ' ' ++ (key.text.toList ++ ':' :: rest))).tokens?
      = (tokens? { column := n + key.text.toList.length + 1, rest, margins := (n + 1) :: margins
                   keyAllowed := false }).map
        ([.key, .scalar key.style key.text, .value] ++ ·) := by
  have hopen (rest : List Char) :
      openAt .mappingStart { column := n, rest, margins := (n + 1) :: margins }
        = ([], { column := n, rest, margins := (n + 1) :: margins }) := by
    simp [openAt, margin, isFlow]
  exact tokens?_keyWith hkey hgap (Nat.le_refl _) (Nat.le_refl _) hopen

/-- A line with a key to the right of the innermost collection starts a mapping. -/
theorem tokens?_mapping (hkey : key.IsKey) (hgap : atGap rest) (hmargin : margins.headD 0 ≤ n) :
    (lineStart margins (List.replicate n ' ' ++ (key.text.toList ++ ':' :: rest))).tokens?
      = (lineStart ((n + 1) :: margins)
          (List.replicate n ' ' ++ (key.text.toList ++ ':' :: rest))).tokens?.map
        ([.mappingStart] ++ ·) := by
  have hopen (rest : List Char) : openAt .mappingStart { column := n, rest, margins }
      = ([.mappingStart], { column := n, rest, margins := (n + 1) :: margins }) := by
    rw [openAt, if_pos]
    simpa [isFlow, margin] using hmargin
  rw [tokens?_key hkey hgap,
    tokens?_keyWith hkey hgap (Nat.le_succ_of_le hmargin) (by simp) hopen, Option.map_map]
  congr 1

/-! ## Values and items -/

theorem announceKey?_of_not_startsKey
    (h : (l.keyAllowed && YamlLexeme.startsKey l.isFlow l.margin l.column l.rest) = false)
    (hrequired : l.keyRequired = false) : l.announceKey? = some ([], l) := by
  rw [announceKey?, if_neg (by simp [h]), if_neg (by simp [hrequired])]

/-- A space is skipped. -/
theorem skip_space {keyAllowed : Bool} (hgap : isGap c = false) (hhash : c ≠ '#')
    (hmark : c ≠ '\ufeff') :
    skip { column, rest := ' ' :: c :: cs, margins, keyAllowed }
      = { column := column + 1, rest := c :: cs, margins, keyAllowed } := by
  have hskip : skipGap false false keyAllowed column (' ' :: c :: cs)
      = (keyAllowed, column + 1, c :: cs) := by
    rw [skipGap, if_neg (by decide), if_pos (by simp), skipGap_of_ne hgap hhash hmark]
  simp [skip, isFlow, hskip]

/-- A scalar on one line at the end of its line, behind a space. -/
theorem tokens?_inline {keyAllowed : Bool} (hs : s.IsInline) (hcolumn : n ≤ column)
    (hrest : StartsBefore (n + 1) rest) (indent : Nat) :
    tokens? { column, rest := ' ' :: (s.chars indent ++ '\n' :: rest)
              margins := (n + 1) :: margins, keyAllowed }
      = (lineStart ((n + 1) :: margins) rest).tokens?.map ([.scalar s.style s.text] ++ ·) := by
  obtain ⟨c, cs, hchars, hstart, x, hread, hlast⟩ :=
    @YamlLexeme.exists_isLast (n + 1) (column + 1) rest s hs (by omega) hrest indent
  let l : YamlLayout :=
    { column := column + 1, rest := c :: cs, margins := (n + 1) :: margins, keyAllowed }
  have hskip : skip { column, rest := ' ' :: c :: cs, margins := (n + 1) :: margins, keyAllowed }
      = l :=
    skip_space hstart.gap (hstart.ne '#' (by decide)) (hstart.ne '\ufeff' (by decide))
  have hnoKey : YamlLexeme.startsKey l.isFlow l.margin l.column l.rest = false :=
    YamlLexeme.startsKey_of_isLast hstart hread hlast
  -- only in the column of the mapping does there have to be a key
  have hrequired : l.keyRequired = false := by
    have hne : n ≠ column + 1 := by omega
    simp [keyRequired, margin, l, hne]
  have hannounce := announceKey?_of_not_startsKey (by rw [hnoKey, Bool.and_false]) hrequired
  have hlexeme : l.read? c cs = some ([] ++ [x.token],
      { l with column := x.column, rest := x.rest, keyAllowed := x.atNewLine }) := by
    rw [read?_of_startsScalar hstart rfl fun h => absurd h (Nat.succ_ne_zero column)]
    exact readLexeme?_eq hread hannounce
  have hmargin : n + 1 ≤ column + 1 + 1 := by omega
  rw [hchars, tokens?_read hskip rfl hmargin hlexeme, hlast.token]
  -- the lexeme may end inside the next line, so only the layouts behind the gap are the same
  refine congrArg _ (tokens?_congr ?_)
  simp [skip, isFlow, lineStart, hlast.skip, l]

/-- A text as a block, behind a space. -/
theorem tokens?_literal {text : String} {keyAllowed : Bool}
    (hlines : ¬ YamlScalar.isOneLine text.toList) (h : YamlScalar.isBlock text.toList)
    (hcolumn : n ≤ column) (hrest : StartsBefore (n + 1) rest) :
    tokens? { column, rest := ' ' :: (YamlScalar.literal (n + 2) text.toList ++ '\n' :: rest)
              margins := (n + 1) :: margins, keyAllowed }
      = (lineStart ((n + 1) :: margins) rest).tokens?.map ([.scalar .literal text] ++ ·) := by
  obtain ⟨behind, hchars, hread⟩ := readBlock?_literal hlines h (Nat.succ_pos n) hrest
  have hskip : skip { column, rest := ' ' :: '|' :: behind, margins := (n + 1) :: margins
                      keyAllowed }
      = { column := column + 1, rest := '|' :: behind, margins := (n + 1) :: margins
          keyAllowed } :=
    skip_space (by decide) (by decide) (by decide)
  have hmargin : n + 1 ≤ column + 1 + 1 := by omega
  have hblock : read? { column := column + 1, rest := '|' :: behind, margins := (n + 1) :: margins
                        keyAllowed } '|' behind
      = some ([.scalar .literal text], lineStart ((n + 1) :: margins) rest) := by
    simp [read?, isFlow, isFlowMark, margin, lineStart, hread]
  rw [hchars]
  exact tokens?_read hskip rfl hmargin hblock

/-- A scalar, behind a space. -/
theorem tokens?_scalar {keyAllowed : Bool} (hs : s.IsWritten) (hcolumn : n ≤ column)
    (hrest : StartsBefore (n + 1) rest) :
    tokens? { column, rest := ' ' :: (s.chars (n + 2) ++ '\n' :: rest)
              margins := (n + 1) :: margins, keyAllowed }
      = (lineStart ((n + 1) :: margins) rest).tokens?.map ([.scalar s.style s.text] ++ ·) := by
  cases hs with
  | inline h => exact tokens?_inline h hcolumn hrest (n + 2)
  | literal hlines h => exact tokens?_literal hlines h hcolumn hrest

/-- An item, in the column of the key whose value the sequence is. -/
theorem tokens?_item (hs : s.IsWritten) (hrest : StartsBefore (n + 1) rest) :
    (lineStart ((n + 1) :: margins)
        (List.replicate n ' ' ++ ('-' :: ' ' :: (s.chars (n + 2) ++ '\n' :: rest)))).tokens?
      = (lineStart ((n + 1) :: margins) rest).tokens?.map
        ([.entry, .scalar s.style s.text] ++ ·) := by
  let l : YamlLayout :=
    { column := n, rest := '-' :: ' ' :: (s.chars (n + 2) ++ '\n' :: rest)
      margins := (n + 1) :: margins }
  have hskip : (lineStart ((n + 1) :: margins)
        (List.replicate n ' ' ++ ('-' :: ' ' :: (s.chars (n + 2) ++ '\n' :: rest)))).skip = l :=
    skip_lineStart rfl (by decide) (by decide)
  have hdash : l.read? '-' (' ' :: (s.chars (n + 2) ++ '\n' :: rest)) = some ([.entry],
      { column := n + 1, rest := ' ' :: (s.chars (n + 2) ++ '\n' :: rest)
        margins := (n + 1) :: margins }) := by
    have hmarker : startsMarker ('-' :: ' ' :: (s.chars (n + 2) ++ '\n' :: rest)) = false :=
      startsMarker_of_second_ne (by decide) (by decide)
    have hopen : l.openAt .sequenceStart = ([], l) := by
      simp [openAt, margin, isFlow, l]
    simp [read?, isFlow, isFlowMark, hmarker, atGap, isGap, isBlank, readIndicator?, hopen, l, past]
  rw [tokens?_read hskip rfl (Nat.le_refl (n + 1)) hdash, tokens?_scalar hs (Nat.le_succ n) hrest,
    Option.map_map]
  rfl

/-- A sequence without items, behind a space. -/
theorem tokens?_noItems (hmargin : margins.headD 0 ≤ column + 1) :
    tokens? { column, rest := ' ' :: '[' :: ']' :: '\n' :: rest, margins, keyAllowed := false }
      = (lineStart margins rest).tokens?.map ([.sequenceOpen, .sequenceClose] ++ ·) := by
  have hopen : tokens? { column, rest := ' ' :: '[' :: ']' :: '\n' :: rest, margins
                         keyAllowed := false }
      = (tokens? { column := column + 2, rest := ']' :: '\n' :: rest, margins
                   flowDepth := 1 }).map ([.sequenceOpen] ++ ·) := by
    have hskip : skip { column, rest := ' ' :: '[' :: ']' :: '\n' :: rest, margins
                        keyAllowed := false }
        = { column := column + 1, rest := '[' :: ']' :: '\n' :: rest, margins
            keyAllowed := false } := rfl
    have hmargin : margins.headD 0 ≤ column + 1 + 1 := by omega
    refine tokens?_read hskip rfl hmargin ?_
    simp [read?, isFlow, isFlowMark, readFlowMark?, keyRequired, past]
  have hclose : tokens? { column := column + 2, rest := ']' :: '\n' :: rest, margins
                          flowDepth := 1 }
      = (tokens? { column := column + 3, rest := '\n' :: rest, margins
                   keyAllowed := false }).map ([.sequenceClose] ++ ·) := by
    have hskip : skip { column := column + 2, rest := ']' :: '\n' :: rest, margins
                        flowDepth := 1 }
        = { column := column + 2, rest := ']' :: '\n' :: rest, margins, flowDepth := 1 } := rfl
    have hmargin : margins.headD 0 ≤ column + 2 + 1 := by omega
    refine tokens?_read hskip rfl hmargin ?_
    simp [read?, isFlowMark, readFlowMark?, past]
  rw [hopen, hclose, tokens?_lineEnd, Option.map_map]
  rfl

/-! ## Ends -/

theorem closeTo_cons {a : Nat} (h : n < a) (hflow : l.flowDepth = 0) :
    closeTo n { l with margins := a :: l.margins }
      = (.blockEnd :: (l.closeTo n).1, (l.closeTo n).2) := by
  simp [closeTo, isFlow, hflow, h, List.replicate_succ]

/-- The innermost collection ends where a line starts further left. -/
theorem tokens?_blockEnd (hrest : StartsBefore n rest) :
    (lineStart ((n + 1) :: margins) rest).tokens?
      = (lineStart margins rest).tokens?.map ([.blockEnd] ++ ·) := by
  obtain ⟨k, content, rfl, -, hcontent⟩ := hrest
  rw [tokens?_eq, tokens?_eq (lineStart margins _)]
  cases content with
  | nil =>
    have hskip (margins : List Nat) : (lineStart margins (List.replicate k ' ' ++ [])).skip
        = { column := k, rest := [], margins } := by
      have hgap := YamlLexeme.skipGap_spaces false true 0 k []
      rw [Nat.zero_add] at hgap
      simp only [skip, lineStart, isFlow, bne_self_eq_false, hgap, skipGap]
    have hcons := closeTo_cons (l := { column := k, rest := [], margins }) (Nat.succ_pos n) rfl
    rw [hskip, hskip]
    simp [hcons]
  | cons c cs =>
    obtain ⟨hk, hgap, hhash, hmark⟩ := hcontent c rfl
    have hcons := closeTo_cons (l := { column := k, rest := c :: cs, margins })
      (Nat.succ_lt_succ hk) rfl
    rw [skip_lineStart hgap hhash hmark, skip_lineStart hgap hhash hmark]
    simp only [dedent, hcons, Option.map_bind, Function.comp_def, Option.map_map, List.cons_append,
      List.nil_append]

/-- The end of the text. -/
theorem tokens?_end : (lineStart [] []).tokens? = some [.documentEnd] := by
  rw [tokens?_eq]
  rfl

end YamlLayout

end TypeAtlas
