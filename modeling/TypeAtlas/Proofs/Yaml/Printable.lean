import TypeAtlas.Proofs.Yaml.Block

/-!
# The characters of written documents

A written document has only characters that are written as they are; the others are escaped. So the
text that is read is the text that was written.

The main statements are `Yaml.isReadable_of_isPrintable` and `Yaml.normalizeBreaks_eq`.
-/

namespace TypeAtlas

open Yaml

variable {s : YamlScalar} {c : Char}

/-! ## Scalars -/

namespace YamlScalar

theorem isPrintable_hexDigit {n : Nat} (h : n < 16) : isPrintable (hexDigit n) := by
  have hall : ∀ n < 16, isPrintable (hexDigit n) := by decide
  exact hall n h

theorem isPrintable_of_mem_hexDigits {width n : Nat} (h : c ∈ hexDigits width n) :
    isPrintable c := by
  induction width generalizing n with
  | zero => simp [hexDigits] at h
  | succ width ih =>
    simp only [hexDigits, List.mem_append, List.mem_singleton] at h
    obtain h | rfl := h
    · exact ih h
    · exact isPrintable_hexDigit (Nat.mod_lt n (by decide))

theorem isPrintable_of_escapeLetter? {letter : Char} (h : escapeLetter? c = some letter) :
    isPrintable letter := by
  unfold escapeLetter? at h
  split at h
  case h_16 => simp at h
  all_goals
    obtain rfl := Option.some.inj h
    rfl

theorem isPrintable_of_mem_numberChars {d : Char} (h : d ∈ numberChars c) : isPrintable d := by
  unfold numberChars at h
  split_ifs at h
  all_goals
    obtain rfl | h := List.mem_cons.1 h
    · rfl
    · exact isPrintable_of_mem_hexDigits h

theorem isPrintable_of_mem_escapeChar {d : Char} (h : d ∈ escapeChar c) : isPrintable d := by
  unfold escapeChar at h
  split_ifs at h with hbare
  · obtain rfl := List.mem_singleton.1 h
    simp only [Bool.and_eq_true] at hbare
    exact hbare.1.1.1
  · split at h
    · next letter hletter =>
      obtain rfl | h := List.mem_cons.1 h
      · rfl
      · obtain rfl := List.mem_singleton.1 h
        exact isPrintable_of_escapeLetter? hletter
    · obtain rfl | h := List.mem_cons.1 h
      · rfl
      · exact isPrintable_of_mem_numberChars h

theorem isPrintable_of_isOneLine {text : List Char} (h : isOneLine text) (hc : c ∈ text) :
    isPrintable c :=
  (Bool.and_eq_true_iff.1 (List.all_eq_true.1 h c hc)).1

theorem isOneLine_of_isPlain {text : List Char} (h : isPlain text) : isOneLine text := by
  cases text with
  | nil => simp [isPlain] at h
  | cons c cs => exact (properties_of_isPlain h).1

theorem isPrintable_of_isInline (h : s.IsInline) {indent : Nat} (hc : c ∈ s.chars indent) :
    isPrintable c := by
  cases h with
  | plain h => exact isPrintable_of_isOneLine (isOneLine_of_isPlain h) hc
  | @singleQuoted text h =>
    simp only [chars, singleQuoted, List.cons_append, List.mem_cons, List.mem_append,
      List.mem_flatMap, List.not_mem_nil, or_false] at hc
    obtain rfl | ⟨d, hd, hc⟩ | rfl := hc
    · rfl
    · have hd := isPrintable_of_isOneLine h hd
      split_ifs at hc <;> simp_all
    · rfl
  | doubleQuoted text =>
    simp only [chars, doubleQuoted, List.cons_append, List.mem_cons, List.mem_append,
      List.mem_flatMap, List.not_mem_nil, or_false] at hc
    obtain rfl | ⟨d, -, hc⟩ | rfl := hc
    · rfl
    · exact isPrintable_of_mem_escapeChar hc
    · rfl

theorem isPrintable_of_mem_headChars {text : List Char} (h : c ∈ headChars (blockHead text)) :
    isPrintable c := by
  unfold headChars blockHead at h
  split_ifs at h
  all_goals revert c
  all_goals decide

theorem isPrintable_of_isBlock {text : List Char} (h : isBlock text) {indent : Nat}
    (hc : c ∈ literal indent text) : isPrintable c := by
  simp only [literal, List.mem_cons, List.mem_append] at hc
  obtain rfl | hc | rfl | hc := hc
  · rfl
  · exact isPrintable_of_mem_headChars hc
  · rfl
  · obtain rfl | hc := YamlLine.mem_toText_indented hc
    · rfl
    · rw [YamlLine.toText_ofText] at hc
      obtain rfl | hc := isBlock_cases h c (mem_of_mem_dropLastBreak hc)
      · rfl
      · exact hc.1

/-- A written scalar has only characters that are written as they are. -/
theorem isPrintable_of_mem_chars (h : s.IsWritten) {indent : Nat} (hc : c ∈ s.chars indent) :
    isPrintable c := by
  cases h with
  | inline h => exact isPrintable_of_isInline h hc
  | literal _ h => exact isPrintable_of_isBlock h hc

end YamlScalar

/-! ## Texts -/

namespace Yaml

theorem isReadable_of_isPrintable (h : isPrintable c) : isReadable c := by
  simp only [isPrintable, isReadable, Bool.or_eq_true, Bool.and_eq_true] at h ⊢
  grind

/-- The ends of lines in a text that is written are line feeds already. -/
theorem normalizeBreaks_eq {text : List Char} (h : ∀ c ∈ text, isPrintable c) :
    normalizeBreaks text = text := by
  induction text with
  | nil => rfl
  | cons c cs ih =>
    obtain ⟨hc, hcs⟩ := List.forall_mem_cons.1 h
    have hreturn : c ≠ '\r' := by
      rintro rfl
      revert hc
      decide
    have hnext : c ≠ '\u0085' := by
      rintro rfl
      revert hc
      decide
    rw [normalizeBreaks, if_neg (by simp [hreturn, hnext]), ih hcs]
    simp [hreturn]

end Yaml

end TypeAtlas
