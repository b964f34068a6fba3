import TypeAtlas.Proofs.Declaration.Decorated
import TypeAtlas.Proofs.Registry.Interning

/-!
# References to decorated names

Decorations do not change what a name refers to. A reference to a decorated name is trimmed, which
takes away the blanks at its end, and then read; what is found under the plain name is the answer.

## Main definitions

* `DecoratedName.tidy` — the decorated name without blanks at its end.

The main statements are `DecoratedName.getOrCreate_text` and `DecoratedName.parse_decorated`.
-/

namespace TypeAtlas

open Text
open DeclarationParser (standard constPrefix)

namespace DecoratedName

variable {d : DecoratedName}

/-! ## Trimmed names -/

theorem not_isBlank_of_mem_chain (h : d.IsProper) {c : Char} (hc : c ∈ chain d.first d.rest) :
    isBlank c = false := by
  obtain ⟨s, hs, hmem⟩ | rfl | rfl := mem_chain hc
  · exact isBlank_of_isWordChar
      (isWordChar_of_isNamePart (isNamePart_of_mem (h.identifiers s hs) c hmem))
  · decide
  · decide

/-- The decorated name without blanks at its end. -/
def tidy (d : DecoratedName) : DecoratedName :=
  match d.array with
  | .none => { d with suffix := trimEnd isBlank d.suffix }
  | _ => d

theorem exists_blanks (d : DecoratedName) : ∃ blanks, (∀ c ∈ blanks, isBlank c = true) ∧
    d.suffix ++ d.array.text = d.tidy.suffix ++ d.tidy.array.text ++ blanks := by
  cases hcase : d.array with
  | none =>
    obtain ⟨after, hafter, heq⟩ := exists_trimEnd isBlank d.suffix
    exact ⟨after, hafter, by simpa [tidy, hcase, ArraySuffix.text] using heq⟩
  | one digits => exact ⟨[], by simp, by simp [tidy, hcase]⟩
  | two => exact ⟨[], by simp, by simp [tidy, hcase]⟩

theorem text_tidy (d : DecoratedName) : ∃ blanks, (∀ c ∈ blanks, isBlank c = true) ∧
    d.text.toList = d.tidy.text.toList ++ blanks := by
  obtain ⟨blanks, hblanks, heq⟩ := d.exists_blanks
  have hrest : d.tidy.isConst = d.isConst ∧ d.tidy.isGlobal = d.isGlobal ∧
      d.tidy.first = d.first ∧ d.tidy.rest = d.rest := by
    unfold tidy
    split <;> exact ⟨rfl, rfl, rfl, rfl⟩
  refine ⟨blanks, hblanks, ?_⟩
  simp [text, body, hrest, heq]

theorem isProper_tidy (h : d.IsProper) : d.tidy.IsProper := by
  obtain ⟨blanks, -, htext⟩ := d.text_tidy
  have hfree : ∀ a ∈ Annotation.builtin, ¬ a.token <:+: d.tidy.text.toList := by
    refine fun a ha hin => h.free a ha (hin.trans ?_)
    rw [htext]
    exact (List.prefix_append _ _).isInfix
  cases hcase : d.array with
  | none =>
    simp only [tidy, hcase] at hfree ⊢
    refine ⟨h.identifiers, h.noKeyword, h.isSteady, fun c hc => h.suffix c ?_, trivial, hfree⟩
    exact List.mem_reverse.1 ((List.dropWhile_suffix _).subset (List.mem_reverse.1 hc))
  | one digits => simpa [tidy, hcase] using h
  | two => simpa [tidy, hcase] using h

theorem getLast?_tail_tidy (d : DecoratedName) :
    ∀ c ∈ (d.tidy.suffix ++ d.tidy.array.text).getLast?, isBlank c = false := by
  intro c hc
  cases hcase : d.array with
  | none =>
    simp only [tidy, hcase, ArraySuffix.text, List.append_nil] at hc
    exact getLast?_trimEnd isBlank d.suffix c hc
  | one digits =>
    obtain rfl : ']' = c := by
      simpa [tidy, hcase, ArraySuffix.text, List.getLast?_append, List.getLast?_cons] using hc
    decide
  | two =>
    obtain rfl : ']' = c := by
      simpa [tidy, hcase, ArraySuffix.text, List.getLast?_append] using hc
    decide

theorem chain_ne_nil (h : d.IsProper) : chain d.first d.rest ≠ [] := by
  have hfirst := ne_nil_of_isIdentifier (h.identifiers d.first (by simp [segments]))
  unfold chain
  split <;> simp [hfirst]

/-- The decorated name starts with something that is no blank. -/
theorem head?_text (h : d.IsProper) : ∀ c ∈ d.text.toList.head?, isBlank c = false := by
  intro c hc
  rw [text, String.toList_ofList, body] at hc
  cases hconst : d.isConst with
  | true =>
    obtain rfl : 'c' = c := by simpa [hconst, constPrefix] using hc
    decide
  | false =>
    cases hglobal : d.isGlobal with
    | true =>
      obtain rfl : ':' = c := by simpa [hconst, hglobal, constPrefix] using hc
      decide
    | false =>
      have hhead : c ∈ (chain d.first d.rest).head? := by
        have hne := chain_ne_nil h
        simpa [hconst, hglobal, constPrefix, List.head?_append_of_ne_nil _ hne] using hc
      exact not_isBlank_of_mem_chain h (List.mem_of_head? hhead)

/-- The blanks at the end are left out when a decorated name is trimmed. -/
theorem trimmed_text (h : d.IsProper) : trimmed d.text = d.tidy.text := by
  obtain ⟨blanks, hblanks, htext⟩ := d.text_tidy
  have htidy := isProper_tidy h
  have hlast : ∀ c ∈ d.tidy.text.toList.getLast?, isBlank c = false := by
    have hbehind := Shape.getLast?_append_of
      (fun c hc => not_isBlank_of_mem_chain htidy (List.mem_of_getLast? hc)) d.getLast?_tail_tidy
    have hne : chain d.tidy.first d.tidy.rest ++ (d.tidy.suffix ++ d.tidy.array.text) ≠ [] := by
      simp [chain_ne_nil htidy]
    rwa [text, String.toList_ofList, body, ← List.append_assoc,
      List.getLast?_append_of_ne_nil _ hne]
  have hend : trimEnd isBlank (d.tidy.text.toList ++ blanks) = d.tidy.text.toList := by
    have hdrop : ∀ c ∈ blanks.reverse, isBlank c = true :=
      fun c hc => hblanks c (List.mem_reverse.1 hc)
    rw [trimEnd, List.reverse_append, List.dropWhile_append_of_pos hdrop,
      dropWhile_eq_self (by simpa using hlast), List.reverse_reverse]
  have hhead := head?_text h
  rw [trimmed, trim, trimWith, dropWhile_eq_self hhead, htext, hend, String.ofList_toList]

/-- A decorated name without a character of a decoration is the plain name. -/
theorem text_eq_plain (h : d.IsProper)
    (hplain : ∀ c ∈ d.text.toList, c.isAlphanum = true ∨ c = '_' ∨ c = '.') :
    d.text = d.plain := by
  have hout : ∀ c, isNamePart c = false → c ≠ '.' → c ∉ d.text.toList := by
    intro c hc hdot hmem
    obtain halnum | rfl | rfl := hplain c hmem
    · simp [isNamePart, halnum] at hc
    · exact absurd hc (by decide)
    · exact hdot rfl
  have hblank := hout ' ' (by decide) (by decide)
  have hcolon := hout ':' (by decide) (by decide)
  have hopen := hout '[' (by decide) (by decide)
  rw [text, String.toList_ofList, body] at hblank hcolon hopen
  have hconst : d.isConst = false := by
    have hmem : ' ' ∈ constPrefix true := by decide
    rw [← Bool.not_eq_true]
    intro htrue
    exact hblank (List.mem_append_left _ (htrue ▸ hmem))
  have hglobal : d.isGlobal = false := by
    by_contra htrue
    simp [htrue] at hcolon
  have hsuffix : d.suffix = [] := by
    rw [List.eq_nil_iff_forall_not_mem]
    intro c hc
    have hall : ∀ c ∈ "*&^%? ".toList, isNamePart c = false ∧ c ≠ '.' := by decide +kernel
    obtain ⟨hpart, hdot⟩ := hall c (h.suffix c hc)
    exact hout c hpart hdot (by simp [text, body, hc])
  have harray : d.array.text = [] := by
    cases hcase : d.array with
    | none => rfl
    | one digits => simp [hcase, ArraySuffix.text] at hopen
    | two => simp [hcase, ArraySuffix.text] at hopen
  have hchain : chain d.first d.rest = d.dotted := by
    have hself : Name.dotted (chain d.first d.rest) = chain d.first d.rest :=
      Name.dotted_eq_self (by simp_all)
    rw [← hself]
    exact dotted_chain h.identifiers
  rw [plain_eq, text, body, hconst, hglobal, hsuffix, harray, hchain]
  simp [constPrefix]

theorem plain_tidy (d : DecoratedName) : d.tidy.plain = d.plain := by
  unfold tidy
  split <;> rfl

theorem plain_ne_empty (h : d.IsProper) : d.plain ≠ "" := by
  have hstart := startsName_dotted h
  rw [plain_eq]
  intro hempty
  rw [← String.toList_inj, String.toList_ofList] at hempty
  simp [hempty] at hstart

/-! ## Referring -/

/-- A native registry of plain names finds what has the plain name. -/
theorem getOrCreate_text (h : d.IsProper) {r : Registry} {id : TypeId}
    (horigin : r.origin = .native) (hparser : r.parser = standard)
    (hnames : ∀ (name : String) (other : TypeId), r.names[name]? = some other →
      ∀ c ∈ name.toList, c.isAlphanum = true ∨ c = '_' ∨ c = '.')
    (hid : r.names[d.plain]? = some id) : r.getOrCreate d.text = (id, r) := by
  have htidy := isProper_tidy h
  have hfold : r.foldsCase = false := by simp [Registry.foldsCase, horigin]
  have hfind : ∀ name, r.find? name = r.names[name]? := by
    intro name
    rw [Registry.find?, hfold]
    cases r.names[name]? <;> rfl
  have hkey : r.keyOf d.tidy.text = d.plain := by
    have hread := (describes_parse htidy).fullName
    rw [plain_tidy] at hread
    rw [Registry.keyOf, hparser, hread]
    simp [plain_ne_empty h]
  have hne : d.tidy.text ≠ "" := by
    intro hempty
    have hchain := chain_ne_nil htidy
    have hlist := congrArg String.toList hempty
    simp [text, body, hchain] at hlist
  have hlookup : r.lookup? d.text = some id := by
    rw [Registry.lookup?, trimmed_text h, if_neg hne, hfind, hfind, hkey, hid]
    cases hdirect : r.names[d.tidy.text]? with
    | some other =>
      have hsame := text_eq_plain htidy (hnames _ _ hdirect)
      rw [plain_tidy] at hsame
      rw [hsame, hid] at hdirect
      simpa using hdirect.symm
    | none =>
      have hother : d.plain ≠ d.tidy.text := by
        intro hsame
        rw [← hsame, hid] at hdirect
        simp at hdirect
      rw [if_neg hother]
      rfl
  rw [Registry.getOrCreate, hlookup]

/-- Decorations do not change what a name is: the descriptor names the chain, and in a native
registry of plain names a reference to the decorated name is one to the plain name. -/
theorem parse_decorated (h : d.IsProper) :
    d.Describes (standard.parse d.text) ∧
      ∀ (r : Registry) (id : TypeId), r.origin = .native → r.parser = standard →
        (∀ (name : String) (other : TypeId), r.names[name]? = some other →
          ∀ c ∈ name.toList, c.isAlphanum = true ∨ c = '_' ∨ c = '.') →
        r.names[d.plain]? = some id → r.getOrCreate d.text = (id, r) :=
  ⟨describes_parse h, fun _ _ horigin hparser hnames hid =>
    getOrCreate_text h horigin hparser hnames hid⟩

/-- All kinds of decorations at once. -/
theorem parse_decorated_vector :
    ∃ d : DecoratedName, d.IsProper ∧ d.text = "const ::winrt::Vector.Item_1 * & ?[,]" ∧
      d.plain = "winrt.Vector.Item_1" ∧
      d.Describes (standard.parse "const ::winrt::Vector.Item_1 * & ?[,]") ∧
      ((Registry.empty .native ⟨true, true, true⟩).push "winrt.Vector.Item_1" .facade).2.getOrCreate
          "const ::winrt::Vector.Item_1 * & ?[,]" =
        (Registry.empty .native ⟨true, true, true⟩).push "winrt.Vector.Item_1" .facade := by
  let d : DecoratedName := {
    isConst := true
    isGlobal := true
    first := "winrt".toList
    rest := [(true, "Vector".toList), (false, "Item_1".toList)]
    suffix := " * & ?".toList
    array := .two }
  have hproper : d.IsProper := by
    refine ⟨by decide +kernel, by decide +kernel, fun c cs heq => ?_, by decide +kernel, trivial,
      by decide +kernel⟩
    simp [d] at heq
  have htext : d.text = "const ::winrt::Vector.Item_1 * & ?[,]" := by decide +kernel
  have hplain : d.plain = "winrt.Vector.Item_1" := by decide +kernel
  obtain ⟨hdescribes, hfinds⟩ := parse_decorated hproper
  rw [htext] at hdescribes hfinds
  refine ⟨d, hproper, htext, hplain, hdescribes, hfinds _ _ rfl rfl (fun name other hname => ?_) ?_⟩
  · rw [Registry.names_push] at hname
    split at hname
    · next heq =>
      subst heq
      decide +kernel
    · have hempty : name = "" := by
        simp only [Registry.empty, Std.TreeMap.getElem?_insert, Std.compare_eq_iff_eq] at hname
        split at hname
        · next heq => exact heq.symm
        · simp at hname
      simp [hempty]
  · rw [hplain, Registry.names_push, if_pos rfl]
    rfl

end DecoratedName

end TypeAtlas
