import Mathlib.Data.List.Forall2
import TypeAtlas.Proofs.Yaml.Lines
import TypeAtlas.Proofs.Yaml.Printable
import TypeAtlas.Yaml.Parser

/-!
# Documents that are written and read

A mapping is read back from its written form, if its keys are short words and its values are
scalars, sequences of scalars or such mappings, with no empty mapping among them.

The reader is followed from line to line, over the tokens that each line adds. A sequence in the
column of its key has no end of its own: it is over once a token comes that is no dash, so what is
said about it depends on what follows.

The main statement is `Yaml.parse?_print`.
-/

namespace TypeAtlas

open Yaml
open YamlLayout (lineStart)
open YamlLexeme (StartsBefore)

/-! ## Moves -/

namespace YamlReader

/-- The state behind the tokens of a text. -/
def run? (r : YamlReader) (l : YamlLayout) : Option YamlReader :=
  l.tokens?.bind (·.foldlM step? r)

/-- The state in front of a key of a block mapping. -/
def atKey (entries : List (YamlNode × YamlNode)) (stack : List YamlFrame) : YamlReader where
  phase := .separator
  stack := .keys none false entries :: stack

/-- The state in front of a value of a block mapping. -/
def atValue (entries : List (YamlNode × YamlNode)) (key : YamlNode) (stack : List YamlFrame) :
    YamlReader where
  phase := .node none none true
  stack := .value none false entries key :: stack

/-- The state behind an item of a sequence in the column of its key. -/
def atItem (items : List YamlNode) (entries : List (YamlNode × YamlNode)) (key : YamlNode)
    (stack : List YamlFrame) : YamlReader where
  phase := .separator
  stack := .sequence none .aligned items :: .value none false entries key :: stack

variable {r r' : YamlReader} {l m : YamlLayout} {entries : List (YamlNode × YamlNode)}
  {items : List YamlNode} {key : YamlNode} {stack : List YamlFrame} {s : YamlScalar}

theorem run?_congr (h : l.tokens? = m.tokens?) : r.run? l = r.run? m := by
  rw [run?, h, run?]

/-- Tokens that are known are moves that are known. -/
theorem run?_of_tokens {tokens : List YamlToken} (hl : l.tokens? = m.tokens?.map (tokens ++ ·))
    (hr : tokens.foldlM step? r = some r') : r.run? l = r'.run? m := by
  rw [run?, hl, run?]
  cases m.tokens? with
  | none => rfl
  | some rest => simp [List.foldlM_append, hr]

theorem steps_key (h : s.tag = none) :
    [.key, .scalar s.style s.text, .value].foldlM step? (atKey entries stack)
      = some (atValue entries (.scalar s) stack) := by
  obtain ⟨style, text, tag⟩ := s
  obtain rfl : tag = none := h
  rfl

theorem steps_scalar (h : s.tag = none) :
    [.scalar s.style s.text].foldlM step? (atValue entries key stack)
      = some (atKey ((key, .scalar s) :: entries) stack) := by
  obtain ⟨style, text, tag⟩ := s
  obtain rfl : tag = none := h
  rfl

theorem steps_noItems :
    [.sequenceOpen, .sequenceClose].foldlM step? (atValue entries key stack)
      = some (atKey ((key, .sequence []) :: entries) stack) :=
  rfl

theorem steps_firstItem (h : s.tag = none) :
    [.entry, .scalar s.style s.text].foldlM step? (atValue entries key stack)
      = some (atItem [.scalar s] entries key stack) := by
  obtain ⟨style, text, tag⟩ := s
  obtain rfl : tag = none := h
  rfl

theorem steps_item (h : s.tag = none) :
    [.entry, .scalar s.style s.text].foldlM step? (atItem items entries key stack)
      = some (atItem (.scalar s :: items) entries key stack) := by
  obtain ⟨style, text, tag⟩ := s
  obtain rfl : tag = none := h
  rfl

theorem steps_mappingStart :
    [.mappingStart].foldlM step? (atValue entries key stack)
      = some (atKey [] (.value none false entries key :: stack)) :=
  rfl

theorem steps_blockEnd {inner : List (YamlNode × YamlNode)} :
    [.blockEnd].foldlM step? (atKey inner (.value none false entries key :: stack))
      = some (atKey ((key, .mapping inner.reverse) :: entries) stack) :=
  rfl

/-- A token that is no dash ends a sequence in the column of its key. -/
theorem step?_atItem {token : YamlToken} (h : token ≠ .entry) :
    (atItem items entries key stack).step? token
      = (atKey ((key, .sequence items.reverse) :: entries) stack).step? token := by
  cases token with
  | entry => exact absurd rfl h
  | _ => rfl

/-- The line that comes next starts with no dash. -/
def EndsItems (l : YamlLayout) : Prop :=
  ∃ token rest, token ≠ .entry ∧ l.tokens? = Option.map ([token] ++ ·) rest

theorem EndsItems.of_tokens {token : YamlToken} {tokens : List YamlToken} (h : token ≠ .entry)
    (hl : l.tokens? = m.tokens?.map ((token :: tokens) ++ ·)) : EndsItems l := by
  refine ⟨token, m.tokens?.map (tokens ++ ·), h, ?_⟩
  rw [hl, Option.map_map]
  rfl

/-- A sequence in the column of its key ends where a line starts with no dash. -/
theorem run?_atItem (h : EndsItems l) :
    (atItem items entries key stack).run? l
      = (atKey ((key, .sequence items.reverse) :: entries) stack).run? l := by
  obtain ⟨token, rest, htoken, hl⟩ := h
  rw [run?, run?, hl]
  cases rest with
  | none => rfl
  | some rest => simp [List.foldlM_cons, step?_atItem htoken]

end YamlReader

/-! ## Nodes -/

namespace Yaml

/-- A node that is read back, with at most `depth` collections inside one another. -/
inductive Readable : Nat → Yaml → Prop
  | scalar {depth : Nat} {s : YamlScalar} (h : s.IsWritten) : Readable depth (.scalar s)
  | sequence {depth : Nat} {items : List YamlScalar} (h : ∀ s ∈ items, s.IsWritten) :
    Readable (depth + 1) (.sequence (items.map .scalar))
  | mapping {depth : Nat} {entries : List (YamlScalar × Yaml)} (hne : entries ≠ [])
    (hkeys : ∀ e ∈ entries, e.1.IsKey) (h : ∀ e ∈ entries, Readable depth e.2) :
    Readable (depth + 1) (.mapping entries)

/-- That a node with no references in it stands for `v`. -/
def StandsFor (depth : Nat) (node : YamlNode) (v : Yaml) : Prop :=
  ∀ a : YamlAnchors, a.resolve? depth node = some v

theorem standsFor_scalar (depth : Nat) (s : YamlScalar) :
    StandsFor depth (.scalar s) (.scalar s) := by
  intro a
  cases depth <;> rfl

theorem standsFor_sequence (depth : Nat) (items : List YamlScalar) :
    StandsFor (depth + 1) (.sequence (items.map .scalar)) (.sequence (items.map .scalar)) := by
  intro a
  have hitems : (items.map YamlNode.scalar).mapM (a.resolve? depth) = some (items.map .scalar) := by
    induction items with
    | nil => rfl
    | cons s items ih => simp [standsFor_scalar depth s a, ih]
  simp [YamlAnchors.resolve?, YamlAnchors.target?, hitems]

/-- The key and the value that an entry stands for. -/
def EntryStandsFor (depth : Nat) (node : YamlNode × YamlNode) (e : YamlScalar × Yaml) : Prop :=
  node.1 = .scalar e.1 ∧ StandsFor depth node.2 e.2

theorem standsFor_mapping {depth : Nat} {nodes : List (YamlNode × YamlNode)}
    {entries : List (YamlScalar × Yaml)} (h : List.Forall₂ (EntryStandsFor depth) nodes entries) :
    StandsFor (depth + 1) (.mapping nodes) (.mapping entries) := by
  intro a
  have hentries : nodes.mapM (fun (key, v) => do return (← a.scalar? key, ← a.resolve? depth v))
      = some entries := by
    induction h with
    | nil => rfl
    | @cons node e nodes entries hnode h ih =>
      obtain ⟨key, v⟩ := node
      obtain ⟨rfl, hv⟩ : key = .scalar e.1 ∧ StandsFor depth v e.2 := hnode
      have hkey : a.scalar? (.scalar e.1) = some e.1 := rfl
      rw [List.mapM_cons, ih]
      simp [hkey, hv a]
  exact congrArg (Option.map Yaml.mapping) hentries

end Yaml

/-! ## Lines -/

namespace YamlReader

variable {n depth : Nat} {margins : List Nat} {rest : List Char}
  {entries : List (YamlNode × YamlNode)} {key : YamlNode} {stack : List YamlFrame}

/-- The end of a line leads to the start of the next one. -/
theorem run?_lineEnd {r : YamlReader} :
    r.run? { rest := '\n' :: rest, margins } = r.run? (lineStart margins rest) :=
  run?_congr YamlLayout.tokens?_lineEnd

theorem startsBefore_spaces {c : Char} {cs : List Char} (h : StartsScalar c cs) :
    StartsBefore (n + 1) (List.replicate n ' ' ++ c :: cs) := by
  refine ⟨n, c :: cs, rfl, ?_⟩
  simpa using ⟨h.gap, h.ne '#' (by decide), h.ne '\ufeff' (by decide)⟩

/-! ### Items -/

/-- The items behind a place go on with another one, or the line ends. -/
theorem exists_itemChars (items : List YamlScalar) (hrest : StartsBefore (n + 1) rest) :
    ∃ tail, itemChars n (items.map .scalar) ++ '\n' :: rest = '\n' :: tail
      ∧ StartsBefore (n + 1) tail := by
  cases items with
  | nil => exact ⟨rest, rfl, hrest⟩
  | cons s items =>
    refine ⟨List.replicate n ' ' ++ '-' :: ' ' :: (s.chars (n + 2)
      ++ (itemChars n (items.map .scalar) ++ '\n' :: rest)), ?_, n, _, rfl, ?_⟩
    · simp [itemChars, nodeChars, newLine]
    · simp [isGap, isBlank, isBreak]

/-- One more item. -/
theorem run?_item {s : YamlScalar} {items : List YamlScalar} {r r' : YamlReader} {column : Nat}
    {keyAllowed : Bool} (hitems : ∀ t ∈ s :: items, t.IsWritten)
    (hrest : StartsBefore (n + 1) rest)
    (hsteps : [.entry, .scalar s.style s.text].foldlM step? r = some r') :
    r.run?
        { column, rest := itemChars n ((s :: items).map .scalar) ++ '\n' :: rest
          margins := (n + 1) :: margins, keyAllowed }
      = r'.run?
        { rest := itemChars n (items.map .scalar) ++ '\n' :: rest
          margins := (n + 1) :: margins } := by
  obtain ⟨tail, htail, hbefore⟩ := exists_itemChars items hrest
  have htext : itemChars n ((s :: items).map .scalar) ++ '\n' :: rest
      = '\n' :: (List.replicate n ' ' ++ '-' :: ' ' :: (s.chars (n + 2) ++ '\n' :: tail)) := by
    simp [itemChars, nodeChars, newLine, ← htail]
  rw [htext, run?_congr YamlLayout.tokens?_lineEnd,
    run?_of_tokens (YamlLayout.tokens?_item (hitems s List.mem_cons_self) hbefore) hsteps, htail,
    run?_lineEnd]

/-- The items behind the first one. -/
theorem run?_items {items : List YamlScalar} {before : List YamlNode}
    (hitems : ∀ s ∈ items, s.IsWritten) (hrest : StartsBefore (n + 1) rest) :
    (atItem before entries key stack).run?
        { rest := itemChars n (items.map .scalar) ++ '\n' :: rest, margins := (n + 1) :: margins }
      = (atItem ((items.map .scalar).reverse ++ before) entries key stack).run?
        (lineStart ((n + 1) :: margins) rest) := by
  induction items generalizing before with
  | nil => exact run?_lineEnd
  | cons s items ih =>
    rw [run?_item hitems hrest (steps_item (hitems s List.mem_cons_self).tag_eq),
      ih (List.forall_mem_cons.1 hitems).2]
    simp

/-- A sequence in the column of its key. -/
theorem run?_sequence {s : YamlScalar} {items : List YamlScalar} {column : Nat}
    {keyAllowed : Bool} (hitems : ∀ t ∈ s :: items, t.IsWritten)
    (hrest : StartsBefore (n + 1) rest)
    (hends : EndsItems (lineStart ((n + 1) :: margins) rest)) :
    (atValue entries key stack).run?
        { column, rest := itemChars n ((s :: items).map .scalar) ++ '\n' :: rest
          margins := (n + 1) :: margins, keyAllowed }
      = (atKey ((key, .sequence ((s :: items).map .scalar)) :: entries) stack).run?
        (lineStart ((n + 1) :: margins) rest) := by
  rw [run?_item hitems hrest (steps_firstItem (hitems s List.mem_cons_self).tag_eq),
    run?_items (List.forall_mem_cons.1 hitems).2 hrest, run?_atItem hends]
  simp

/-! ### Entries -/

/-- That a value is read back behind its key, if what comes next starts with no dash. -/
def ReadsAt (depth : Nat) (v : Yaml) : Prop :=
  ∀ (n column : Nat) (margins : List Nat) (rest : List Char)
    (entries : List (YamlNode × YamlNode)) (key : YamlNode) (stack : List YamlFrame),
    n ≤ column → StartsBefore (n + 1) rest → EndsItems (lineStart ((n + 1) :: margins) rest) →
    ∃ node, StandsFor depth node v ∧
      (atValue entries key stack).run?
          { column, rest := valueChars n v ++ '\n' :: rest, margins := (n + 1) :: margins
            keyAllowed := false }
        = (atKey ((key, node) :: entries) stack).run? (lineStart ((n + 1) :: margins) rest)

theorem atGap_valueChars (n : Nat) (v : Yaml) (s : List Char) : atGap (valueChars n v ++ s) := by
  cases v with
  | scalar t => rfl
  | sequence items => cases items <;> rfl
  | mapping es =>
    cases es with
    | nil => rfl
    | cons e es => rw [valueChars]; rfl

/-- A line with a key, and what follows the key. -/
theorem entryChars_cons {k : YamlScalar} {v : Yaml} {es : List (YamlScalar × Yaml)} {s : List Char}
    (hk : k.IsKey) :
    entryChars n ((k, v) :: es) ++ s
      = '\n' :: (List.replicate n ' ' ++ (k.text.toList ++ ':' ::
        (valueChars n v ++ (entryChars n es ++ s)))) := by
  simp [entryChars, newLine, YamlScalar.chars, hk.style]

/-- The entries behind a place go on with another key, or the line ends and the mapping too. -/
theorem exists_entryChars {es : List (YamlScalar × Yaml)} (margins : List Nat)
    (hkeys : ∀ e ∈ es, e.1.IsKey) (hrest : StartsBefore n rest) :
    ∃ tail, entryChars n es ++ '\n' :: rest = '\n' :: tail ∧ StartsBefore (n + 1) tail
      ∧ EndsItems (lineStart ((n + 1) :: margins) tail) := by
  cases es with
  | nil =>
    exact ⟨rest, rfl, hrest.mono (Nat.le_succ n),
      .of_tokens (by decide) (YamlLayout.tokens?_blockEnd hrest)⟩
  | cons e es =>
    obtain ⟨k, v⟩ := e
    obtain ⟨hk, -⟩ := List.forall_mem_cons.1 hkeys
    have hgap := atGap_valueChars n v (entryChars n es ++ '\n' :: rest)
    obtain ⟨c, cs, htext, -, hstart, -⟩ :=
      @YamlLexeme.read?_key (n + 1) n _ k hk (Nat.le_refl _) hgap
    refine ⟨_, entryChars_cons hk, ?_, .of_tokens (by decide) (YamlLayout.tokens?_key hk hgap)⟩
    rw [htext]
    exact startsBefore_spaces hstart

/-- The entries of a mapping. -/
theorem run?_entries {es : List (YamlScalar × Yaml)} {before : List (YamlNode × YamlNode)}
    (hkeys : ∀ e ∈ es, e.1.IsKey) (hvalues : ∀ e ∈ es, ReadsAt depth e.2)
    (hrest : StartsBefore n rest) :
    ∃ nodes, List.Forall₂ (EntryStandsFor depth) nodes es ∧
      (atKey before stack).run?
          { rest := entryChars n es ++ '\n' :: rest, margins := (n + 1) :: margins }
        = (atKey (nodes.reverse ++ before) stack).run? (lineStart ((n + 1) :: margins) rest) := by
  induction es generalizing before with
  | nil => exact ⟨[], .nil, run?_lineEnd⟩
  | cons e es ih =>
    obtain ⟨k, v⟩ := e
    obtain ⟨hk, hkeys⟩ := List.forall_mem_cons.1 hkeys
    obtain ⟨hv, hvalues⟩ := List.forall_mem_cons.1 hvalues
    obtain ⟨tail, htail, hbefore, hends⟩ := exists_entryChars margins hkeys hrest
    have hgap := atGap_valueChars n v (entryChars n es ++ '\n' :: rest)
    obtain ⟨node, hnode, hread⟩ := hv n (n + k.text.toList.length + 1) margins tail before
      (.scalar k) stack (by omega) hbefore hends
    obtain ⟨nodes, hnodes, hrun⟩ := @ih ((.scalar k, node) :: before) hkeys hvalues
    refine ⟨(.scalar k, node) :: nodes, .cons ⟨rfl, hnode⟩ hnodes, ?_⟩
    rw [entryChars_cons hk, run?_lineEnd,
      run?_of_tokens (YamlLayout.tokens?_key hk hgap) (steps_key hk.tag), htail, hread,
      ← run?_lineEnd, ← htail, hrun]
    simp

/-- A node that is readable is read back as a value. -/
theorem readsAt {v : Yaml} (h : v.Readable depth) : ReadsAt depth v := by
  induction h with
  | @scalar depth s h =>
    intro n column margins rest entries key stack hcolumn hrest _
    refine ⟨.scalar s, standsFor_scalar depth s, ?_⟩
    exact run?_of_tokens (YamlLayout.tokens?_scalar h hcolumn hrest) (steps_scalar h.tag_eq)
  | @sequence depth items h =>
    intro n column margins rest entries key stack hcolumn hrest hends
    refine ⟨.sequence (items.map .scalar), standsFor_sequence depth items, ?_⟩
    cases items with
    | nil =>
      exact run?_of_tokens (YamlLayout.tokens?_noItems (Nat.succ_le_succ hcolumn)) steps_noItems
    | cons s items => exact run?_sequence h hrest hends
  | @mapping depth es hne hkeys h ih =>
    intro n column margins rest entries key stack hcolumn hrest _
    obtain ⟨⟨k, v⟩, es, rfl⟩ := List.exists_cons_of_ne_nil hne
    obtain ⟨nodes, hnodes, hrun⟩ := @run?_entries (n + 2) depth ((n + 1) :: margins) rest
      (.value none false entries key :: stack) _ [] hkeys ih (hrest.mono (Nat.le_succ _))
    refine ⟨.mapping nodes, standsFor_mapping hnodes, ?_⟩
    have hk := hkeys (k, v) List.mem_cons_self
    have htext : valueChars n (.mapping ((k, v) :: es)) = entryChars (n + 2) ((k, v) :: es) := by
      simp [valueChars, entryChars]
    -- the mapping starts with the line of its first key, which is then read as the others are
    rw [htext, entryChars_cons hk, run?_congr YamlLayout.tokens?_lineEnd,
      run?_of_tokens (YamlLayout.tokens?_mapping hk (atGap_valueChars ..) (Nat.le_succ (n + 1)))
        steps_mappingStart,
      ← run?_lineEnd, ← entryChars_cons hk, hrun,
      run?_of_tokens (YamlLayout.tokens?_blockEnd (hrest.mono (Nat.le_succ _))) steps_blockEnd]
    simp

end YamlReader

/-! ## Documents -/

namespace Yaml

theorem isPrintable_of_mem_newLine {indent : Nat} {c : Char} (h : c ∈ newLine indent) :
    isPrintable c := by
  obtain rfl | h := List.mem_cons.1 h
  · rfl
  · obtain rfl := (List.mem_replicate.1 h).2
    rfl

theorem isPrintable_of_mem_itemChars (indent : Nat) {items : List YamlScalar} {c : Char}
    (hitems : ∀ s ∈ items, s.IsWritten) (h : c ∈ itemChars indent (items.map .scalar)) :
    isPrintable c := by
  induction items with
  | nil => simp [itemChars] at h
  | cons s items ih =>
    obtain ⟨hs, hitems⟩ := List.forall_mem_cons.1 hitems
    simp only [List.map_cons, itemChars, nodeChars, List.mem_append, List.mem_cons] at h
    obtain h | rfl | rfl | h | h := h
    · exact isPrintable_of_mem_newLine h
    · rfl
    · rfl
    · exact YamlScalar.isPrintable_of_mem_chars hs h
    · exact ih hitems h

theorem isPrintable_of_mem_entryChars (indent : Nat) {es : List (YamlScalar × Yaml)} {c : Char}
    (hkeys : ∀ e ∈ es, e.1.IsKey)
    (hvalues : ∀ e ∈ es, ∀ indent, ∀ c ∈ valueChars indent e.2, isPrintable c)
    (h : c ∈ entryChars indent es) : isPrintable c := by
  induction es with
  | nil => simp [entryChars] at h
  | cons e es ih =>
    obtain ⟨k, v⟩ := e
    obtain ⟨hk, hkeys⟩ := List.forall_mem_cons.1 hkeys
    obtain ⟨hv, hvalues⟩ := List.forall_mem_cons.1 hvalues
    simp only [entryChars, List.mem_append, List.mem_cons] at h
    obtain h | h | rfl | h | h := h
    · exact isPrintable_of_mem_newLine h
    · exact YamlScalar.isPrintable_of_mem_chars hk.isWritten h
    · rfl
    · exact hv indent c h
    · exact ih hkeys hvalues h

/-- A readable value is written with characters that are written as they are. -/
theorem isPrintable_of_mem_valueChars {depth : Nat} {v : Yaml} (hv : v.Readable depth) :
    ∀ indent, ∀ c ∈ valueChars indent v, isPrintable c := by
  induction hv with
  | @scalar depth s h =>
    intro indent c hc
    obtain rfl | hc := List.mem_cons.1 hc
    · rfl
    · exact YamlScalar.isPrintable_of_mem_chars h hc
  | @sequence depth items h =>
    intro indent c hc
    cases items with
    | nil =>
      have hall : ∀ c ∈ [' ', '[', ']'], isPrintable c := by decide
      exact hall c hc
    | cons s items =>
      refine isPrintable_of_mem_itemChars indent h ?_
      simpa [valueChars, itemChars] using hc
  | @mapping depth es hne hkeys h ih =>
    intro indent c hc
    obtain ⟨⟨k, v⟩, es, rfl⟩ := List.exists_cons_of_ne_nil hne
    refine isPrintable_of_mem_entryChars (indent + 2) hkeys ih ?_
    simpa [valueChars, entryChars] using hc

/-- A document is the lines of its entries, but for the line break in front. -/
theorem entryChars_eq_print (e : YamlScalar × Yaml) (es : List (YamlScalar × Yaml)) :
    entryChars 0 (e :: es) ++ ['\n'] = '\n' :: (Yaml.mapping (e :: es)).print.toList := by
  obtain ⟨k, v⟩ := e
  simp [print, entryChars, nodeChars, newLine]

theorem isPrintable_of_mem_print {depth : Nat} {e : YamlScalar × Yaml}
    {es : List (YamlScalar × Yaml)} (hkeys : ∀ f ∈ e :: es, f.1.IsKey)
    (h : ∀ f ∈ e :: es, Readable depth f.2) {c : Char}
    (hc : c ∈ (Yaml.mapping (e :: es)).print.toList) : isPrintable c := by
  have hc : c ∈ entryChars 0 (e :: es) ++ ['\n'] :=
    entryChars_eq_print e es ▸ List.mem_cons_of_mem '\n' hc
  obtain hc | hc := List.mem_append.1 hc
  · exact isPrintable_of_mem_entryChars 0 hkeys
      (fun f hf => isPrintable_of_mem_valueChars (h f hf)) hc
  · obtain rfl := List.mem_singleton.1 hc
    rfl

end Yaml

namespace YamlReader

theorem steps_documentEnd {entries : List (YamlNode × YamlNode)} :
    [.blockEnd, .documentEnd].foldlM step? (atKey entries [])
      = some { phase := .done (.mapping entries.reverse) } :=
  rfl

/-- A document is read from its first line to its end. -/
theorem run?_print {depth : Nat} {e : YamlScalar × Yaml} {es : List (YamlScalar × Yaml)}
    (hkeys : ∀ f ∈ e :: es, f.1.IsKey) (h : ∀ f ∈ e :: es, Readable depth f.2) :
    ∃ nodes, List.Forall₂ (EntryStandsFor depth) nodes (e :: es) ∧
      run? {} { rest := (Yaml.mapping (e :: es)).print.toList }
        = some { phase := .done (.mapping nodes) } := by
  have hk := hkeys e List.mem_cons_self
  have hend : StartsBefore 0 [] := ⟨0, [], rfl, by simp⟩
  obtain ⟨nodes, hnodes, hrun⟩ := @run?_entries 0 depth [] [] [] (e :: es) [] hkeys
    (fun f hf => readsAt (h f hf)) hend
  have hlines := entryChars_eq_print e es
  have hfirst := @entryChars_cons 0 e.1 e.2 es ['\n'] hk
  have htext := List.cons.inj (hlines.symm.trans hfirst)
  have hstart : [.mappingStart].foldlM step? {} = some (atKey [] []) := rfl
  refine ⟨nodes, hnodes, ?_⟩
  change run? {} (lineStart [] (Yaml.mapping (e :: es)).print.toList) = _
  rw [htext.2, run?_of_tokens
    (YamlLayout.tokens?_mapping hk (atGap_valueChars ..) (Nat.le_refl 0)) hstart,
    ← htext.2, ← run?_lineEnd, ← hlines, hrun, run?, YamlLayout.tokens?_blockEnd hend,
    YamlLayout.tokens?_end, List.append_nil]
  exact steps_documentEnd.trans (by rw [List.reverse_reverse])

end YamlReader

/-- A mapping that is readable is read back from its written form. -/
theorem Yaml.parse?_print {depth : Nat} {entries : List (YamlScalar × Yaml)}
    (h : (Yaml.mapping entries).Readable depth) :
    parse? depth (Yaml.mapping entries).print = some (.mapping entries) := by
  cases h with
  | @mapping depth _ hne hkeys h =>
    obtain ⟨e, es, rfl⟩ := List.exists_cons_of_ne_nil hne
    have hprintable : ∀ c ∈ (Yaml.mapping (e :: es)).print.toList, isPrintable c :=
      fun c hc => isPrintable_of_mem_print hkeys h hc
    have hreadable : guard ((Yaml.mapping (e :: es)).print.toList.all isReadable) = some () :=
      if_pos (List.all_eq_true.2 fun c hc => isReadable_of_isPrintable (hprintable c hc))
    obtain ⟨nodes, hnodes, hrun⟩ := YamlReader.run?_print hkeys h
    obtain ⟨tokens, htokens, hfold⟩ := Option.bind_eq_some_iff.1 hrun
    rw [parse?, hreadable, normalizeBreaks_eq hprintable, htokens]
    simp only [hfold, Option.bind_eq_bind, Option.bind_some]
    exact standsFor_mapping hnodes {}

end TypeAtlas
