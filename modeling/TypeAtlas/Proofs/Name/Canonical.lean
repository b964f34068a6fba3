import TypeAtlas.Proofs.Compound.Canonical
import TypeAtlas.Proofs.Declaration.Bare

/-!
# Canonical names

A name is canonical if it has no separators but dots, and neither a blank nor a dot at an end. The
canonical names are those that stay when they are brought into dotted form. The dotted form itself
need not be one of them: blanks are trimmed off before dots, so a blank between the name and the
separators around it is left at an end.

## Main definitions

* `Name.spelled` — a text with a dot for every separator.
* `Name.IsSeparators` — separators as sources write them.
* `Name.IsCanonical` — a name in dotted form.
* `Name.IsSpaced` — a name with blanks between it and the separators around it.

The main statements are `Name.isCanonical_iff` and `Name.isCanonical_canonical_iff`.
-/

namespace TypeAtlas

namespace Text

variable {p : Char → Bool} {s t : List Char} {c : Char}

/-! ## What trimming leaves -/

theorem infix_trimWith (p : Char → Bool) (s : List Char) : trimWith p s <:+: s := by
  obtain ⟨before, after, -, -, hs⟩ := exists_trimWith p s
  exact ⟨before, after, by rw [List.append_assoc, ← hs]⟩

theorem head?_trimWith (hs : ∀ c ∈ s, p c = true) (hc : p c = false) (t : List Char) :
    (trimWith p (s ++ c :: t)).head? = some c := by
  have hdrop : (s ++ c :: t).dropWhile p = c :: t := by
    simp [List.dropWhile_append_of_pos hs, hc]
  obtain ⟨after, hafter, heq⟩ := exists_trimEnd p (c :: t)
  rw [trimWith, hdrop]
  cases htrim : trimEnd p (c :: t) <;> grind

theorem getLast?_trimWith (hc : p c = false) (ht : ∀ c ∈ t, p c = true) (s : List Char) :
    (trimWith p (s ++ c :: t)).getLast? = some c := by
  obtain ⟨r, hdrop⟩ : ∃ r, (s ++ c :: t).dropWhile p = r ++ c :: t := by
    rw [List.dropWhile_append]
    split
    · exact ⟨[], by simp [hc]⟩
    · exact ⟨_, rfl⟩
  have hend : (r ++ c :: t).reverse = t.reverse ++ c :: r.reverse := by simp
  rw [trimWith, hdrop, trimEnd, hend, List.dropWhile_append_of_pos (by simpa using ht)]
  simp [hc]

end Text

open Text

namespace Name

variable {s u v : List Char} {c : Char} {name raw : String}

/-! ## Spelled texts -/

/-- The text with a dot for every separator. -/
def spelled (s : List Char) : List Char :=
  (dotted s).map fun c => if c = '+' then '.' else c

theorem canonicalChars_eq (s : List Char) :
    canonicalChars s = trimWith (· == '.') (spelled (trim s)) := rfl

@[simp, grind =] theorem spelled_nil : spelled [] = [] := rfl

@[simp, grind =] theorem spelled_colons (s : List Char) :
    spelled (':' :: ':' :: s) = '.' :: spelled s := by
  simp [spelled, dotted]

theorem spelled_cons (hc : c = ':' → s.head? ≠ some ':') :
    spelled (c :: s) = (if c = '+' then '.' else c) :: spelled s := by
  rw [spelled, dotted, List.map_cons, ← spelled]
  rintro cs rfl rfl
  exact hc rfl rfl

/-- A text is spelled one double colon or else one character at a time. -/
theorem spelled_induction {P : List Char → Prop} (nil : P [])
    (colons : ∀ s, P s → P (':' :: ':' :: s))
    (cons : ∀ c s, (c = ':' → s.head? ≠ some ':') → P s → P (c :: s)) (s : List Char) : P s := by
  fun_induction dotted s with
  | case1 s ih => exact colons s ih
  | case2 c s hc ih =>
    refine cons c s ?_ ih
    rintro rfl hs
    cases s with
    | nil => simp at hs
    | cons d s => exact hc s rfl (by simpa using hs)
  | case3 => exact nil

theorem not_mem_spelled (s : List Char) : '+' ∉ spelled s := by
  grind [spelled]

theorem head?_spelled (h : (spelled s).head? = some ':') : s.head? = some ':' := by
  induction s using spelled_induction with
  | nil => exact h
  | colons => rfl
  | cons c s hc => grind [spelled_cons hc]

/-- A colon is left only if no other one follows it. -/
theorem not_infix_spelled (s : List Char) : ¬ [':', ':'] <:+: spelled s := by
  induction s using spelled_induction with
  | nil => simp
  | colons s ih => simpa [List.infix_cons_iff] using ih
  | cons c s hc ih =>
    rw [spelled_cons hc, List.infix_cons_iff, not_or]
    refine ⟨fun hprefix => ?_, ih⟩
    obtain ⟨hfirst, r, hr⟩ := List.cons_prefix_cons.1 hprefix
    have hcolon : c = ':' := by grind
    exact hc hcolon (head?_spelled (by rw [← hr]; rfl))

theorem spelled_eq_self (hcolons : ¬ [':', ':'] <:+: s) (hplus : '+' ∉ s) : spelled s = s := by
  induction s using spelled_induction with
  | nil => rfl
  | colons s => exact absurd ⟨[], s, rfl⟩ hcolons
  | cons c s hc ih =>
    have hrest := ih fun h => hcolons (h.trans (List.suffix_cons c s).isInfix)
    grind [spelled_cons hc]

/-- A blank stays where it is, and parts what is spelled. -/
theorem spelled_append_cons (hc : isBlank c = true) (s t : List Char) :
    spelled (s ++ c :: t) = spelled s ++ c :: spelled t := by
  have hcolon : c ≠ ':' := ne_of_isBlank hc (by decide)
  have hplus : c ≠ '+' := ne_of_isBlank hc (by decide)
  simp [spelled, dotted_append_cons hcolon, hplus]

/-- Every blank of what is spelled stands in the text. -/
theorem exists_of_spelled (hc : isBlank c = true) (h : spelled s = u ++ c :: v) :
    ∃ x y, s = x ++ c :: y ∧ spelled x = u ∧ spelled y = v := by
  have hdot : c ≠ '.' := ne_of_isBlank hc (by decide)
  induction s using spelled_induction generalizing u with
  | nil => simp at h
  | colons s ih =>
    rw [spelled_colons] at h
    cases u with
    | nil => exact absurd (List.cons.inj h).1.symm hdot
    | cons d u =>
      obtain ⟨rfl, hrest⟩ := List.cons.inj h
      obtain ⟨x, y, rfl, rfl, rfl⟩ := ih hrest
      exact ⟨':' :: ':' :: x, y, rfl, spelled_colons x, rfl⟩
  | cons d s hd ih =>
    cases u with
    | nil => exact ⟨[], s, by grind [spelled_cons hd]⟩
    | cons e u =>
      obtain ⟨rfl, hrest⟩ := List.cons.inj ((spelled_cons hd).symm.trans h)
      obtain ⟨x, y, rfl, rfl, rfl⟩ := ih hrest
      exact ⟨d :: x, y, rfl, spelled_cons (by grind), rfl⟩

/-! ## Separators -/

/-- Separators as sources write them. -/
inductive IsSeparators : List Char → Prop where
  | nil : IsSeparators []
  | dot {s : List Char} (h : IsSeparators s) : IsSeparators ('.' :: s)
  | plus {s : List Char} (h : IsSeparators s) : IsSeparators ('+' :: s)
  | colons {s : List Char} (h : IsSeparators s) : IsSeparators (':' :: ':' :: s)

/-- Separators are what is spelled with dots alone. -/
theorem isSeparators_iff : IsSeparators s ↔ ∀ c ∈ spelled s, (c == '.') = true := by
  constructor
  · intro h
    induction h with
    | nil => simp
    | dot _ ih => simpa [spelled_cons] using ih
    | plus _ ih => simpa [spelled_cons] using ih
    | colons _ ih => simpa using ih
  · intro h
    induction s using spelled_induction with
    | nil => exact .nil
    | colons s ih => exact .colons (ih fun c hc => h c (by simp [hc]))
    | cons c s hc ih =>
      rw [spelled_cons hc, List.forall_mem_cons] at h
      have hrest := ih h.2
      by_cases hplus : c = '+'
      · exact hplus ▸ hrest.plus
      · obtain rfl : c = '.' := by simpa [hplus] using h.1
        exact hrest.dot

/-! ## Names in dotted form -/

/-- No separator but dots, and neither a blank nor a dot at an end. -/
structure IsCanonical (name : String) : Prop where
  colons : ¬ [':', ':'] <:+: name.toList
  plus : '+' ∉ name.toList
  isTrimmed : IsTrimmed name.toList
  isUndotted : IsUndotted name.toList

theorem not_infix_canonical (raw : String) : ¬ [':', ':'] <:+: (canonical raw).toList := by
  rw [toList_canonical, canonicalChars_eq]
  exact fun h => not_infix_spelled _ (h.trans (infix_trimWith _ _))

theorem not_mem_canonical (raw : String) : '+' ∉ (canonical raw).toList := by
  rw [toList_canonical, canonicalChars_eq]
  exact fun h => not_mem_spelled _ ((infix_trimWith _ _).subset h)

/-- The canonical names are those that stay. -/
theorem isCanonical_iff : IsCanonical name ↔ canonical name = name := by
  constructor
  · rintro ⟨hcolons, hplus, htrimmed, hhead, hlast⟩
    rw [canonical, canonicalChars_eq, trim_eq_self htrimmed, spelled_eq_self hcolons hplus,
      trimWith_eq_self hhead hlast, String.ofList_toList]
  · intro h
    have htrimmed : IsTrimmed name.toList := by
      by_cases hne : name = ""
      · simp [hne, IsTrimmed]
      · exact (isProper_of_canonical hne h).isTrimmed
    exact ⟨h ▸ not_infix_canonical name, h ▸ not_mem_canonical name, htrimmed,
      h ▸ isUndotted_canonical name⟩

/-- A blank stands behind the leading separators of a name or before its trailing ones. -/
def IsSpaced (raw : String) : Prop :=
  ∃ separators c rest, IsSeparators separators ∧ isBlank c = true ∧
    (trim raw.toList = separators ++ c :: rest ∨ trim raw.toList = rest ++ c :: separators)

/-- The blanks at the ends of the dotted form are those that the dots around it have hidden. -/
theorem isTrimmed_canonical_iff : IsTrimmed (canonical raw).toList ↔ ¬ IsSpaced raw := by
  have hdot : ∀ c, isBlank c = true → (c == '.') = false := fun c hc =>
    beq_eq_false_iff_ne.2 (ne_of_isBlank hc (by decide))
  rw [toList_canonical, canonicalChars_eq]
  constructor
  · rintro ⟨hhead, hlast⟩ ⟨separators, c, rest, hseparators, hc, heq | heq⟩
    · rw [heq, spelled_append_cons hc] at hhead
      have hfirst := head?_trimWith (isSeparators_iff.1 hseparators) (hdot c hc) (spelled rest)
      simp [hhead c hfirst] at hc
    · rw [heq, spelled_append_cons hc] at hlast
      have hfinal := getLast?_trimWith (p := (· == '.')) (hdot c hc)
        (isSeparators_iff.1 hseparators) (spelled rest)
      simp [hlast c hfinal] at hc
  · intro hspaced
    obtain ⟨before, after, hbefore, hafter, heq⟩ :=
      exists_trimWith (· == '.') (spelled (trim raw.toList))
    generalize trimWith (· == '.') (spelled (trim raw.toList)) = core at heq ⊢
    refine ⟨fun c hfirst => ?_, fun c hfinal => ?_⟩
    · by_contra hc
      rw [Bool.not_eq_false] at hc
      obtain ⟨core, rfl⟩ := List.head?_eq_some_iff.1 hfirst
      obtain ⟨x, y, hxy, rfl, -⟩ := exists_of_spelled hc heq
      exact hspaced ⟨x, c, y, isSeparators_iff.2 hbefore, hc, .inl hxy⟩
    · by_contra hc
      rw [Bool.not_eq_false] at hc
      obtain ⟨core, rfl⟩ := List.getLast?_eq_some_iff.1 hfinal
      have hparts : spelled (trim raw.toList) = (before ++ core) ++ c :: after := by simp [heq]
      obtain ⟨x, y, hxy, -, rfl⟩ := exists_of_spelled hc hparts
      exact hspaced ⟨y, c, x, isSeparators_iff.2 hafter, hc, .inr hxy⟩

/-- The dotted form of a name has no separators but dots, and no dot at an end. It is canonical, and
stays when it is brought into dotted form once more, unless blanks stand between the name and the
separators around it. -/
theorem isCanonical_canonical_iff (raw : String) :
    (¬ [':', ':'] <:+: (canonical raw).toList ∧ '+' ∉ (canonical raw).toList ∧
      IsUndotted (canonical raw).toList) ∧
    (IsCanonical (canonical raw) ↔ ¬ IsSpaced raw) ∧
    (canonical (canonical raw) = canonical raw ↔ ¬ IsSpaced raw) := by
  have hcolons := not_infix_canonical raw
  have hplus := not_mem_canonical raw
  have hundotted := isUndotted_canonical raw
  have hcanonical : IsCanonical (canonical raw) ↔ ¬ IsSpaced raw := by
    rw [← isTrimmed_canonical_iff]
    exact ⟨IsCanonical.isTrimmed, fun h => ⟨hcolons, hplus, h, hundotted⟩⟩
  exact ⟨⟨hcolons, hplus, hundotted⟩, hcanonical, isCanonical_iff.symm.trans hcanonical⟩

/-- A blank behind the leading separator is left at the start of the name. -/
theorem isCanonical_canonical_iff_spaced : IsSpaced ":: A" ∧ canonical ":: A" = " A" ∧
    ¬ IsCanonical (canonical ":: A") ∧ canonical (canonical ":: A") ≠ canonical ":: A" := by
  have hspaced : IsSpaced ":: A" :=
    ⟨[':', ':'], ' ', ['A'], .colons .nil, by decide, .inl (by decide +kernel)⟩
  obtain ⟨-, hcanonical, hstays⟩ := isCanonical_canonical_iff ":: A"
  exact ⟨hspaced, by decide +kernel, fun h => hcanonical.1 h hspaced, fun h => hstays.1 h hspaced⟩

end Name

end TypeAtlas
