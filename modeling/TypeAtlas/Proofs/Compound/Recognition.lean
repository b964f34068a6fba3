import TypeAtlas.Proofs.Compound.Reading

/-!
# Constructors and destructors

A method of a class, a struct or an interface is a constructor if its bare name is the one of the
type, and a destructor if this is the bare name behind a tilde. The builder compares the name behind
the tilde as it is written, so that it misses a destructor with type arguments, and it looks for
both in every compound that is no namespace, also among the overloads of a function. All other
methods are read as they are meant.

## Main definitions

* `NativeMemberRecord.SharesName`, `NativeMemberRecord.Destroys` — members with the name of a type.
* `NativeMemberRecord.Recognises` — a member that is read from a method as it is meant.
* `NativeMemberRecord.IsPlain` — a method of which the name cannot be mistaken.

The main statement is `NativeRecord.recognises_build_iff`.
-/

namespace TypeAtlas

open Text

/-! ## Bare names -/

namespace Text

/-- Trimming takes nothing but blanks. -/
theorem filter_trim (s : List Char) :
    (trim s).filter (!isBlank ·) = s.filter (!isBlank ·) := by
  obtain ⟨before, after, hbefore, hafter, hs⟩ := exists_trim s
  have hnone : ∀ t : List Char, (∀ c ∈ t, isBlank c = true) → t.filter (!isBlank ·) = [] :=
    fun t ht => List.filter_eq_nil_iff.2 fun c hc => by simp [ht c hc]
  conv_rhs => rw [hs]
  rw [List.filter_append, List.filter_append, hnone before hbefore, hnone after hafter,
    List.nil_append, List.append_nil]

variable {c : Char} {s : List Char}

theorem count_trim (hc : isBlank c = false) : (trim s).count c = s.count c := by
  have hcount := congrArg (List.count c) (filter_trim s)
  rwa [List.count_filter (by simpa using hc), List.count_filter (by simpa using hc)] at hcount

theorem mem_trim (hc : isBlank c = false) : c ∈ trim s ↔ c ∈ s := by
  rw [← List.count_pos_iff, count_trim hc, List.count_pos_iff]

end Text

namespace Name

/-- The bare name behind a tilde is not the one with it. -/
theorem bare_tilde_ne (name : String) : bare ("~" ++ name) ≠ bare name := by
  intro h
  have hcount := congrArg (fun s => s.toList.count '~') h
  simp [bareChars, count_trim (show isBlank '~' = false by decide)] at hcount

/-- A name that is the bare name of something is bare. -/
theorem bare_of_trimmed_eq {name other : String} (h : trimmed name = bare other) :
    bare name = bare other := by
  have hchars : trim name.toList = bareChars other.toList := by
    simpa using congrArg String.toList h
  have hopen : ∀ c ∈ name.toList, (c != '<' && c != '(') = true := by
    intro c hc
    by_contra hopen
    have hblank : isBlank c = false := by
      obtain rfl | rfl : c = '<' ∨ c = '(' := by
        simpa [Classical.or_iff_not_imp_left] using hopen
      · decide
      · decide
    rw [← mem_trim hblank, hchars, bareChars, mem_trim hblank] at hc
    exact hopen (List.mem_takeWhile_imp (p := fun c => c != '<' && c != '(') hc)
  rw [← h, bare, trimmed, bareChars, List.takeWhile_eq_self_iff.2 hopen]

end Name

/-! ## Methods -/

namespace NativeMemberRecord

variable {parser : DeclarationParser} {own : Compound} {m : NativeMemberRecord}

/-- Whether the member has the bare name of a compound. -/
def SharesName (own : Compound) (m : NativeMemberRecord) : Prop :=
  Name.bare (trimmed m.name) = Name.bare own.name

/-- Whether the member has the bare name of a compound behind a tilde. -/
def Destroys (own : Compound) (m : NativeMemberRecord) : Prop :=
  ∃ name, trimmed m.name = "~" ++ name ∧ Name.bare name = Name.bare own.name

/-- Whether nothing but this bare name stands behind the tilde. -/
def DestroysPlainly (own : Compound) (m : NativeMemberRecord) : Prop :=
  ∃ name, trimmed m.name = "~" ++ name ∧ trimmed name = Name.bare own.name

/-- A member that is read from a method of `own` is the constructor or the destructor of a type
exactly if it has its name, and otherwise a method of the declared type. -/
structure Recognises (parser : DeclarationParser) (own : Compound) (m : NativeMemberRecord)
    (node : Member) : Prop where
  creates : own.kind.isComposite = true → m.SharesName own →
    node.kind = .constructor ∧ node.declaredType = .named own.fullName
  destroys : own.kind.isComposite = true → m.Destroys own →
    node.kind = .destructor ∧ node.declaredType = .named "void"
  other : (own.kind.isComposite = true → ¬ m.SharesName own ∧ ¬ m.Destroys own) →
    node.kind = .method ∧ node.declaredType = parser.parse m.rawType

/-- The name cannot be mistaken: a destructor of a type has no type arguments behind its name, and
what belongs neither to a type nor to a namespace does not share its name. -/
structure IsPlain (own : Compound) (m : NativeMemberRecord) : Prop where
  composite : own.kind.isComposite = true → m.Destroys own → m.DestroysPlainly own
  loose : own.kind.isComposite = false → own.kind ≠ .namespace →
    ¬ m.SharesName own ∧ ¬ m.DestroysPlainly own

theorem DestroysPlainly.destroys (h : m.DestroysPlainly own) : m.Destroys own := by
  obtain ⟨name, hname, hplain⟩ := h
  exact ⟨name, hname, Name.bare_of_trimmed_eq hplain⟩

/-- No member has the name of a compound both with and without a tilde. -/
theorem Destroys.not_sharesName (h : m.Destroys own) : ¬ m.SharesName own := by
  obtain ⟨name, hname, hbare⟩ := h
  intro hshares
  rw [SharesName, hname, ← hbare] at hshares
  exact Name.bare_tilde_ne name hshares

theorem destroyed?_eq_some_iff :
    destroyed? (trimmed m.name) = some (Name.bare own.name) ↔ m.DestroysPlainly own := by
  have htilde : ∀ name : String,
      trimmed m.name = "~" ++ name ↔ (trimmed m.name).toList = '~' :: name.toList := by
    intro name
    rw [← String.toList_inj, String.toList_append]
    rfl
  unfold destroyed? DestroysPlainly
  simp only [htilde]
  split
  · next cs hcs =>
    rw [hcs, Option.some.injEq]
    constructor
    · intro h
      exact ⟨String.ofList cs, by simp, by simpa [trimmed] using h⟩
    · rintro ⟨name, hname, h⟩
      obtain rfl := (List.cons.inj hname).2
      exact h
  · next hnone =>
    refine iff_of_false (by simp) ?_
    rintro ⟨name, hname, -⟩
    exact hnone name.toList hname

/-- What a method is read as. -/
theorem kindIn?_of_method (own : Compound)
    (h : MemberKind.fold? m.kind m.rawType = some .method) :
    (own.kind ≠ .namespace ∧ m.SharesName own ∧ m.kindIn? own = some .constructor) ∨
    (own.kind ≠ .namespace ∧ m.DestroysPlainly own ∧ m.kindIn? own = some .destructor) ∨
    ((own.kind ≠ .namespace → ¬ m.SharesName own ∧ ¬ m.DestroysPlainly own) ∧
      m.kindIn? own = some .method) := by
  rw [kindIn?, h, Option.map_some, ← destroyed?_eq_some_iff, SharesName]
  grind

/-- What is no method belongs to a type if it is read as it is meant. -/
theorem Recognises.isComposite {kind : MemberKind}
    (h : m.Recognises parser own (m.memberIn parser own kind)) (hkind : kind ≠ .method) :
    own.kind.isComposite = true := by
  by_contra hloose
  exact hkind (h.other fun hcomposite => absurd hcomposite hloose).1

/-- Outside of a namespace, what shares the name of a compound belongs to a type if it cannot be
mistaken. -/
theorem IsPlain.isComposite (h : m.IsPlain own) (hspace : own.kind ≠ .namespace)
    (hnamed : m.SharesName own ∨ m.DestroysPlainly own) : own.kind.isComposite = true := by
  by_contra hloose
  obtain ⟨hshares, hplain⟩ := h.loose (by simpa using hloose) hspace
  exact hnamed.elim hshares hplain

/-- A method is read as it is meant exactly if its name cannot be mistaken. -/
theorem recognises_memberIn_iff {kind : MemberKind}
    (h : MemberKind.fold? m.kind m.rawType = some .method) (hkind : m.kindIn? own = some kind) :
    m.Recognises parser own (m.memberIn parser own kind) ↔ m.IsPlain own := by
  have hspaced : own.kind.isComposite = true → own.kind ≠ .namespace := by
    intro hcomposite hspace
    simp [hspace, CompoundKind.isComposite] at hcomposite
  -- The name decides what the method is read as, and each of the three can be meant in one way.
  rcases kindIn?_of_method own h with
    ⟨hspace, hshares, hown⟩ | ⟨hspace, hplain, hown⟩ | ⟨hnone, hown⟩
  · obtain rfl := Option.some.inj (hown.symm.trans hkind)
    constructor
    · intro hread
      have hcomposite := hread.isComposite (by decide)
      exact ⟨fun _ hdestroys => absurd hshares hdestroys.not_sharesName,
        fun hloose => absurd hcomposite (by simp [hloose])⟩
    · intro hmeant
      have hcomposite := hmeant.isComposite hspace (.inl hshares)
      exact ⟨fun _ _ => ⟨rfl, rfl⟩, fun _ hdestroys => absurd hshares hdestroys.not_sharesName,
        fun hother => absurd hshares (hother hcomposite).1⟩
  · obtain rfl := Option.some.inj (hown.symm.trans hkind)
    constructor
    · intro hread
      have hcomposite := hread.isComposite (by decide)
      exact ⟨fun _ _ => hplain, fun hloose => absurd hcomposite (by simp [hloose])⟩
    · intro hmeant
      have hcomposite := hmeant.isComposite hspace (.inr hplain)
      exact ⟨fun _ hshares => absurd hshares hplain.destroys.not_sharesName, fun _ _ => ⟨rfl, rfl⟩,
        fun hother => absurd hplain.destroys (hother hcomposite).2⟩
  · obtain rfl := Option.some.inj (hown.symm.trans hkind)
    constructor
    · intro hread
      refine ⟨fun hcomposite hdestroys => ?_, fun _ hspace => hnone hspace⟩
      simpa [memberIn] using (hread.destroys hcomposite hdestroys).1
    · intro hmeant
      have hother := fun hcomposite => hnone (hspaced hcomposite)
      exact ⟨fun hcomposite hshares => absurd hshares (hother hcomposite).1,
        fun hcomposite hdestroys =>
          absurd (hmeant.composite hcomposite hdestroys) (hother hcomposite).2,
        fun _ => ⟨rfl, rfl⟩⟩

end NativeMemberRecord

/-! ## Records -/

namespace NativeRecord

open NativeDraft

variable {parser : DeclarationParser} {r : NativeRecord} {own : Compound} {nested : List Compound}
  {reports : Diagnostics} {m : NativeMemberRecord}

/-- A method of a record is in one of its compounds, and it is read as it is meant exactly if its
name cannot be mistaken. -/
theorem recognises_build_iff (h : r.build parser = .ok (own :: nested, reports))
    (hm : m ∈ r.members) (hmethod : MemberKind.fold? m.kind m.rawType = some .method) :
    ∃ kind, m.kindIn? own = some kind ∧
      (∃ c ∈ own :: nested, m.memberIn parser own kind ∈ c.members) ∧
      (m.Recognises parser own (m.memberIn parser own kind) ↔ m.IsPlain own) := by
  obtain ⟨kind, hkind, hvalue⟩ : ∃ kind, m.kindIn? own = some kind ∧ kind ≠ .enumValue := by
    rcases NativeMemberRecord.kindIn?_of_method own hmethod with
      ⟨-, -, hown⟩ | ⟨-, -, hown⟩ | ⟨-, hown⟩ <;> exact ⟨_, hown, by decide⟩
  refine ⟨kind, hkind, ?_, NativeMemberRecord.recognises_memberIn_iff hmethod hkind⟩
  rcases cases_of_build h with ⟨-, hnone, -⟩ | ⟨recordKind, rawName, -, -, -, hcompounds, -⟩
  · simp at hnone
  · obtain ⟨rfl, -⟩ := List.cons.inj hcompounds
    rw [hcompounds]
    unfold draftOf at hkind ⊢
    dsimp only at hkind ⊢
    rw [kindIn?_ofParts] at hkind
    rw [memberIn_ofParts]
    apply exists_mem_compounds
    · refine mem_readMembers.2 ⟨m, hm, kind, ?_, rfl⟩
      rw [NativeMemberRecord.ownKind?_eq, hkind]
    · simp [Member.isValue, NativeMemberRecord.memberIn, hvalue]

/-- A function with one overload. -/
def createRecord : NativeRecord where
  id := "f"
  kind := "function"
  name := some "Acme::Create"
  members := [{ kind := "function", name := "Create", rawType := "int" }]

/-- A class of which the destructor is written with its type arguments. -/
def vectorRecord : NativeRecord where
  id := "v"
  kind := "class"
  name := some "Acme::Vector<T>"
  members := [{ kind := "function", name := "~Vector<T>", rawType := "void" }]

/-- The overload is read as a constructor and the destructor as a method. -/
theorem recognises_build_iff_mistaken :
    (∃ own nested reports, createRecord.build .standard = .ok (own :: nested, reports) ∧
      own.members.map (·.kind) = [.constructor] ∧
      ∀ m ∈ createRecord.members, ∃ kind, m.kindIn? own = some kind ∧
        (∃ c ∈ own :: nested, m.memberIn .standard own kind ∈ c.members) ∧
        ¬ m.Recognises .standard own (m.memberIn .standard own kind)) ∧
    ∃ own nested reports, vectorRecord.build .standard = .ok (own :: nested, reports) ∧
      own.members.map (·.kind) = [.method] ∧
      ∀ m ∈ vectorRecord.members, ∃ kind, m.kindIn? own = some kind ∧
        (∃ c ∈ own :: nested, m.memberIn .standard own kind ∈ c.members) ∧
        ¬ m.Recognises .standard own (m.memberIn .standard own kind) := by
  constructor
  · obtain ⟨own, nested, reports, hbuild, hkind, hname, hmembers⟩ :
        ∃ own nested reports, createRecord.build .standard = .ok (own :: nested, reports) ∧
          own.kind = .function ∧ own.name = "Create" ∧
          own.members.map (·.kind) = [.constructor] := by
      refine ⟨_, _, _, rfl, ?_⟩
      decide +kernel
    refine ⟨own, nested, reports, hbuild, hmembers, fun m hm => ?_⟩
    obtain rfl := List.mem_singleton.1 hm
    obtain ⟨kind, hown, hmem, hiff⟩ := recognises_build_iff hbuild hm (by decide +kernel)
    refine ⟨kind, hown, hmem, fun hread => ?_⟩
    refine ((hiff.1 hread).loose (by simp [hkind, CompoundKind.isComposite]) (by simp [hkind])).1 ?_
    rw [NativeMemberRecord.SharesName, hname]
    decide +kernel
  · obtain ⟨own, nested, reports, hbuild, hkind, hname, hmembers⟩ :
        ∃ own nested reports, vectorRecord.build .standard = .ok (own :: nested, reports) ∧
          own.kind = .classType ∧ own.name = "Vector" ∧
          own.members.map (·.kind) = [.method] := by
      refine ⟨_, _, _, rfl, ?_⟩
      decide +kernel
    refine ⟨own, nested, reports, hbuild, hmembers, fun m hm => ?_⟩
    obtain rfl := List.mem_singleton.1 hm
    obtain ⟨kind, hown, hmem, hiff⟩ := recognises_build_iff hbuild hm (by decide +kernel)
    refine ⟨kind, hown, hmem, fun hread => ?_⟩
    have hplain := (hiff.1 hread).composite (by simp [hkind, CompoundKind.isComposite])
      ⟨"Vector<T>", by decide +kernel, by rw [hname]; decide +kernel⟩
    rw [← NativeMemberRecord.destroyed?_eq_some_iff, hname] at hplain
    exact absurd hplain (by decide +kernel)

end NativeRecord

end TypeAtlas
