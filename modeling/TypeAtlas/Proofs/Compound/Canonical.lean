import Mathlib.Tactic.ByContra
import TypeAtlas.Proofs.Atlas.Malformed
import TypeAtlas.Proofs.Compound.Enclosure
import TypeAtlas.Proofs.Compound.Identifiers
import TypeAtlas.Proofs.Declaration.Words

/-!
# Proper names

A proper name has a first and a last segment: it is not empty, and no blank and no dot stands at
either end. Dots are trimmed off a name after the blanks, so that it may be left with a blank at an
end, and an enumeration need not have a name at all. The names of managed records are not looked at
after their arity markers have been left out.

## Main definitions

* `Name.IsProper` — a name that stands for an entity.
* `NativeRecord.NamesCompounds`, `ManagedRecord.NamesCompounds` — how compounds are named, and which
  records are refused.

The main statement is `namesCompounds_build`.
-/

namespace TypeAtlas

open Text

/-! ## Names -/

namespace Name

variable {scope name : String}

/-- No dot at either end. -/
def IsUndotted (s : List Char) : Prop :=
  (∀ c ∈ s.head?, (c == '.') = false) ∧ ∀ c ∈ s.getLast?, (c == '.') = false

/-- The name is not empty, and neither a blank nor a dot stands at an end of it. -/
structure IsProper (name : String) : Prop where
  ne_empty : name ≠ ""
  isTrimmed : IsTrimmed name.toList
  isUndotted : IsUndotted name.toList

theorem isUndotted_canonical (raw : String) : IsUndotted (canonical raw).toList := by
  rw [toList_canonical]
  exact ends_trimWith _ _

/-- The dotted form of a text is no longer than what is left of it when it is trimmed. -/
theorem length_canonicalChars_le (s : List Char) :
    (canonicalChars s).length ≤ (trim s).length := by
  have hdotted : ∀ s : List Char, (dotted s).length ≤ s.length := by
    intro s
    fun_induction dotted s with
    | case1 s ih =>
      simp only [List.length_cons]
      omega
    | case2 c s _ ih => simpa using ih
    | case3 => exact Nat.le_refl _
  have hends := (trimEnd_length_le (· == '.') _).trans
    (List.dropWhile_suffix (· == '.')
      (l := (dotted (trim s)).map fun c => if c = '+' then '.' else c)).length_le
  rw [List.length_map] at hends
  exact hends.trans (hdotted _)

/-- A name in dotted form is proper, unless it is empty. -/
theorem isProper_of_canonical (hne : name ≠ "") (h : canonical name = name) : IsProper name := by
  refine ⟨hne, ?_, h ▸ isUndotted_canonical name⟩
  -- Nothing is trimmed off, since the dotted form would be shorter then.
  have hchars : canonicalChars name.toList = name.toList := by
    rw [← toList_canonical, h]
  have hlength := length_canonicalChars_le name.toList
  have htrim : (trim name.toList).Sublist name.toList := by
    have hend := (List.dropWhile_sublist isBlank
      (l := (name.toList.dropWhile isBlank).reverse)).reverse
    rw [List.reverse_reverse] at hend
    exact hend.trans (List.dropWhile_sublist isBlank)
  rw [hchars] at hlength
  rw [← htrim.eq_of_length_le hlength]
  exact isTrimmed_trim _

/-- A name without a dot at its end has a last segment. -/
theorem short_ne_empty (hne : name ≠ "") (h : IsUndotted name.toList) : short name ≠ "" := by
  intro hshort
  unfold short split at hshort
  split at hshort
  · next before after hcut =>
    obtain rfl : after = [] := by simpa using congrArg String.toList hshort
    have hlast := h.2 '.' (by simp [eq_of_cutLast? hcut])
    simp at hlast
  · exact hne hshort

/-- A character that may stand at an end of a proper name. -/
def IsEnd (c : Char) : Prop :=
  isBlank c = false ∧ c ≠ '.'

theorem isProper_iff : IsProper name ↔ name ≠ "" ∧ (∀ c ∈ name.toList.head?, IsEnd c) ∧
    ∀ c ∈ name.toList.getLast?, IsEnd c := by
  constructor
  · rintro ⟨hne, ⟨hhead, hlast⟩, hhead', hlast'⟩
    exact ⟨hne, fun c hc => ⟨hhead c hc, by simpa using hhead' c hc⟩,
      fun c hc => ⟨hlast c hc, by simpa using hlast' c hc⟩⟩
  · rintro ⟨hne, hhead, hlast⟩
    exact ⟨hne, ⟨fun c hc => (hhead c hc).1, fun c hc => (hlast c hc).1⟩,
      fun c hc => by simpa using (hhead c hc).2, fun c hc => by simpa using (hlast c hc).2⟩

/-- A name inside a scope ends with the name and starts with the scope. -/
theorem isProper_qualify_iff (h : scope ≠ "") : IsProper (qualify scope name) ↔
    (∀ c ∈ scope.toList.head?, IsEnd c) ∧ name ≠ "" ∧ ∀ c ∈ name.toList.getLast?, IsEnd c := by
  have hlist : (qualify scope name).toList = scope.toList ++ '.' :: name.toList := by
    simp [qualify, h]
  have hhead : (qualify scope name).toList.head? = scope.toList.head? := by
    rw [hlist, List.head?_append_of_ne_nil]
    simpa using h
  have hne : qualify scope name ≠ "" := by
    intro hempty
    simp [hempty] at hlist
  rw [isProper_iff, hhead, and_iff_right hne]
  refine and_congr_right fun _ => ?_
  rw [hlist]
  by_cases hname : name = ""
  · simp [hname, IsEnd]
  · have hlast : (scope.toList ++ '.' :: name.toList).getLast? = name.toList.getLast? := by
      rw [List.getLast?_append_of_ne_nil _ (List.cons_ne_nil _ _)]
      cases hchars : name.toList with
      | nil => exact absurd (by simpa using hchars) hname
      | cons c cs => exact List.getLast?_cons_cons
    rw [hlast, and_iff_right hname]

end Name

/-! ## Native records -/

namespace NativeRecord

variable {parser : DeclarationParser} {r : NativeRecord} {own : Compound}
  {nested : List Compound} {reports : Diagnostics} {name : String}

/-- How the compounds of a record are named, and when it is refused. -/
structure NamesCompounds (parser : DeclarationParser) (r : NativeRecord) : Prop where
  error : ∀ e, r.build parser = .error e → ∃ reason, e = .malformedInput r.id reason
  refused : (∃ e, r.build parser = .error e) ↔
    foldNativeKind? r.kind ≠ none ∧ ∀ name, r.name = some name → fullNameOf (trimmed name) = ""
  own : ∀ own nested reports, r.build parser = .ok (own :: nested, reports) →
    (∃ name, r.name = some name ∧ own.fullName = fullNameOf (trimmed name)) ∧
      own.fullName ≠ "" ∧ own.name ≠ "" ∧ Name.IsUndotted own.fullName.toList
  all : ∀ own nested reports, r.build parser = .ok (own :: nested, reports) →
    ((∀ c ∈ own :: nested, Name.IsProper c.fullName) ↔ trimmed own.fullName = own.fullName ∧
      ∀ name ∈ r.enumNames ++ r.functionNames, name ≠ "" ∧ name.toList.getLast? ≠ some '.')

/-- The names inside a record are trimmed. -/
theorem isTrimmed_of_mem (h : name ∈ r.enumNames ++ r.functionNames) :
    IsTrimmed name.toList := by
  rcases List.mem_append.1 h with henum | hfunction
  · obtain ⟨m, -, rfl⟩ := List.mem_map.1 henum
    rw [Name.toList_bare]
    exact isTrimmed_trim _
  · unfold functionNames at hfunction
    split at hfunction
    · obtain ⟨m, -, rfl⟩ := List.mem_map.1 (List.mem_eraseDups.1 hfunction)
      rw [toList_trimmed]
      exact isTrimmed_trim _
    · simp at hfunction

/-- A record has the name that it is built with, and that is not blank. -/
theorem rawName?_eq_ok_iff : r.rawName? = .ok name ↔
    name ≠ "" ∧ ∃ raw, r.name = some raw ∧ trimmed raw = name := by
  unfold rawName?
  cases r.name with
  | none => simp
  | some raw =>
    by_cases hblank : trimmed raw = ""
    · simp [hblank, eq_comm]
    · simp only [Option.map_some, if_neg hblank, Except.ok.injEq, Option.some.injEq,
        exists_eq_left']
      exact ⟨fun heq => ⟨heq ▸ hblank, heq⟩, fun h => h.2⟩

/-- A record is refused if its name stands for nothing. -/
theorem build_error_iff : (∃ e, r.build parser = .error e) ↔ foldNativeKind? r.kind ≠ none ∧
    ∀ name, r.name = some name → fullNameOf (trimmed name) = "" := by
  unfold build
  cases foldNativeKind? r.kind with
  | none => simp
  | some kind =>
    simp only [ne_eq, reduceCtorEq, not_false_eq_true, true_and]
    cases hname : r.rawName? with
    | error e =>
      simp only [bind, Except.bind, Except.error.injEq, exists_eq', true_iff]
      intro name heq
      by_contra hne
      have hblank : trimmed name ≠ "" := fun hblank => hne (by rw [hblank]; rfl)
      have hok : r.rawName? = .ok (trimmed name) := rawName?_eq_ok_iff.2 ⟨hblank, name, heq, rfl⟩
      rw [hname] at hok
      simp at hok
    | ok rawName =>
      obtain ⟨-, raw, heq, rfl⟩ := rawName?_eq_ok_iff.1 hname
      simp only [bind, Except.bind, heq, Option.some.injEq, forall_eq']
      by_cases hempty : fullNameOf (trimmed raw) = ""
      · simp [hempty, throw, throwThe, MonadExceptOf.throw]
      · simp [hempty, pure, Except.pure]

theorem own_of_build (h : r.build parser = .ok (own :: nested, reports)) :
    (∃ name, r.name = some name ∧ own.fullName = fullNameOf (trimmed name)) ∧
      own.fullName ≠ "" ∧ own.name ≠ "" ∧ Name.IsUndotted own.fullName.toList := by
  rcases cases_of_build h with ⟨-, hnone, -⟩ | ⟨kind, rawName, -, hname, hne, hcompounds, -⟩
  · simp at hnone
  · rw [NativeDraft.compounds, List.cons_append] at hcompounds
    have hfull : own.fullName = fullNameOf rawName := by rw [(List.cons.inj hcompounds).1]; rfl
    have hdots : Name.IsUndotted (fullNameOf rawName).toList := Name.isUndotted_canonical _
    obtain ⟨-, raw, hraw, heq⟩ := rawName?_eq_ok_iff.1 hname
    rw [Compound.name, hfull]
    exact ⟨⟨raw, hraw, by rw [heq]⟩, hne, Name.short_ne_empty hne hdots, hdots⟩

theorem isProper_build_iff (h : r.build parser = .ok (own :: nested, reports)) :
    (∀ c ∈ own :: nested, Name.IsProper c.fullName) ↔ trimmed own.fullName = own.fullName ∧
      ∀ name ∈ r.enumNames ++ r.functionNames, name ≠ "" ∧ name.toList.getLast? ≠ some '.' := by
  obtain ⟨-, hne, -, hdots⟩ := own_of_build h
  have hnames : nested.map (·.fullName) =
      (r.enumNames ++ r.functionNames).map (Name.qualify own.fullName) := by
    simpa [List.map_map, Function.comp_def] using
      congrArg (List.map Prod.snd) (map_nested_of_build h).2
  have hnested : (∀ c ∈ nested, Name.IsProper c.fullName) ↔
      ∀ name ∈ r.enumNames ++ r.functionNames, Name.IsProper (Name.qualify own.fullName name) := by
    rw [← List.forall_mem_map (f := fun c : Compound => c.fullName) (P := Name.IsProper), hnames,
      List.forall_mem_map]
  rw [List.forall_mem_cons, hnested, ← isTrimmed_iff]
  constructor
  · rintro ⟨hown, hall⟩
    refine ⟨hown.isTrimmed, fun name hname => ?_⟩
    obtain ⟨-, hname, hlast⟩ := (Name.isProper_qualify_iff hne).1 (hall name hname)
    exact ⟨hname, fun hdot => (hlast '.' hdot).2 rfl⟩
  · rintro ⟨htrimmed, hall⟩
    have hown : Name.IsProper own.fullName := ⟨hne, htrimmed, hdots⟩
    refine ⟨hown, fun name hname => ?_⟩
    obtain ⟨hname', hlast⟩ := hall name hname
    refine (Name.isProper_qualify_iff hne).2 ⟨(Name.isProper_iff.1 hown).2.1, hname', ?_⟩
    intro c hc
    refine ⟨(isTrimmed_of_mem hname).2 c hc, ?_⟩
    rintro rfl
    exact hlast hc

/-- The compound of a record may be left with a blank at an end of its name, and what is inside the
record may have no name or one that ends with a dot. Nothing else keeps a name from being proper. -/
theorem namesCompounds (parser : DeclarationParser) (r : NativeRecord) :
    r.NamesCompounds parser where
  error e h := r.ofRecord_outcome.error e h
  refused := build_error_iff
  own _ _ _ h := own_of_build h
  all _ _ _ h := isProper_build_iff h

end NativeRecord

/-! ## Managed records -/

namespace ManagedRecord

variable {parser : DeclarationParser} {r : ManagedRecord} {name : String}

/-- How the compounds of managed records are named, and which of the records are refused. -/
structure NamesCompounds (parser : DeclarationParser) (failOnMalformed : Bool)
    (records : List ManagedRecord) : Prop where
  error : ∀ r ∈ records, ∀ e, r.build parser = .error e → ∃ reason, e = .malformedInput r.id reason
  refused : ∀ r ∈ records, (∃ e, r.build parser = .error e) ↔
    ∀ name, r.name = some name → trimmed name = ""
  all : ∀ compounds, (buildAll parser failOnMalformed records).2 = .ok compounds →
    ((∀ c ∈ compounds, Name.IsProper c.fullName) ↔
      (∀ name, Declares records name → Name.IsProper name) ∧
        ∀ scope, Holds records scope → Name.IsProper scope)

/-- A record is refused if its name is blank. -/
theorem build_error_iff : (∃ e, r.build parser = .error e) ↔
    ∀ name, r.name = some name → trimmed name = "" := by
  unfold build rawName?
  cases r.name with
  | none => simp [Except.map]
  | some raw =>
    by_cases hblank : trimmed raw = ""
    · simp [hblank, Except.map]
    · simp [hblank, Except.map]

/-- The names of the records and the scopes around the outermost types are not checked. -/
theorem namesCompounds (parser : DeclarationParser) (failOnMalformed : Bool)
    (records : List ManagedRecord) : NamesCompounds parser failOnMalformed records where
  error r _ e h := by
    rcases r.outcome_cases parser with ⟨out, hok, -⟩ | ⟨reason, herror, -⟩
    · simp [hok] at h
    · exact ⟨reason, Except.error.inj (h.symm.trans herror)⟩
  refused _ _ := build_error_iff
  all compounds h := by
    have hnames : (∀ c ∈ compounds, Name.IsProper c.fullName) ↔
        ∀ name, (∃ c ∈ compounds, c.fullName = name) → Name.IsProper name := by
      constructor
      · rintro hall _ ⟨c, hc, rfl⟩
        exact hall c hc
      · exact fun hall c hc => hall c.fullName ⟨c, hc, rfl⟩
    rw [hnames, ← forall_and]
    exact forall_congr' fun name => by rw [exists_mem_buildAll_iff h, or_imp]

end ManagedRecord

/-- A record is refused if it has no name, a native one also if its name is empty in the dotted
form. All other names are taken as they are, proper or not. -/
theorem namesCompounds_build (parser : DeclarationParser) :
    (∀ r : NativeRecord, r.NamesCompounds parser) ∧
    (∀ failOnMalformed records, ManagedRecord.NamesCompounds parser failOnMalformed records) ∧
    ∀ c : Compound, Name.IsProper c.fullName → c.name ≠ "" :=
  ⟨NativeRecord.namesCompounds parser, ManagedRecord.namesCompounds parser,
    fun _ h => Name.short_ne_empty h.ne_empty h.isUndotted⟩

/-- A class with a separator and a blank before its name. -/
def indentedRecord : NativeRecord where
  id := "x"
  kind := "class"
  name := some ":: A"

/-- A class with an enumeration that has no name. -/
def stateRecord : NativeRecord where
  id := "w"
  kind := "class"
  name := some "W"
  members := [{ kind := "enum" }]

/-- A class of which the name is an arity marker. -/
def markerRecords : List ManagedRecord :=
  [{ name := some "\x601", kind := "class" }]

/-- None of these records is refused. -/
theorem namesCompounds_build_improper :
    (∃ own reports, indentedRecord.build .standard = .ok ([own], reports) ∧
      own.fullName = " A" ∧ ¬ Name.IsProper own.fullName) ∧
    (∃ own nested reports, stateRecord.build .standard = .ok ([own, nested], reports) ∧
      nested.fullName = "W." ∧ nested.name = "" ∧ ¬ Name.IsProper nested.fullName) ∧
    ∃ own, (ManagedRecord.buildAll .standard false markerRecords).2 = .ok [own] ∧
      own.fullName = "" ∧ ¬ Name.IsProper own.fullName := by
  obtain ⟨hnative, -, hshort⟩ := namesCompounds_build .standard
  refine ⟨?_, ?_, ?_⟩
  · obtain ⟨own, reports, hbuild, hname⟩ :
        ∃ own reports, indentedRecord.build .standard = .ok ([own], reports) ∧
          own.fullName = " A" := by
      refine ⟨_, _, rfl, ?_⟩
      decide +kernel
    refine ⟨own, reports, hbuild, hname, fun hproper => ?_⟩
    obtain ⟨htrimmed, -⟩ := ((hnative indentedRecord).all _ _ _ hbuild).1 (by simpa using hproper)
    rw [hname] at htrimmed
    exact absurd htrimmed (by decide +kernel)
  · obtain ⟨own, nested, reports, hbuild, hname⟩ :
        ∃ own nested reports, stateRecord.build .standard = .ok ([own, nested], reports) ∧
          nested.fullName = "W." ∧ nested.name = "" := by
      refine ⟨_, _, _, rfl, ?_⟩
      decide +kernel
    exact ⟨own, nested, reports, hbuild, hname.1, hname.2,
      fun hproper => hshort nested hproper hname.2⟩
  · obtain ⟨own, hbuild, hname⟩ :
        ∃ own, (ManagedRecord.buildAll .standard false markerRecords).2 = .ok [own] ∧
          own.fullName = "" := by
      refine ⟨_, rfl, ?_⟩
      decide +kernel
    exact ⟨own, hbuild, hname, fun hproper => hproper.ne_empty hname⟩

end TypeAtlas
