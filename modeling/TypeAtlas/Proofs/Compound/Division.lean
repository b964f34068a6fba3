import TypeAtlas.Proofs.Compound.Reading

/-!
# Division of a namespace

The members of a namespace are divided over several compounds: each enumeration becomes a compound
of its own, and so do the functions of each name with all their overloads, while the rest stays with
the namespace. No member is lost or read twice, and what is no part of an interface leaves no trace.

## Main definitions

* `NativeRecord.foldedMembers` — the members of which the kind is part of the vocabulary.
* `NativeRecord.Divides` — the compounds of a namespace, as its record declares them.

The main statement is `NativeRecord.divides_build`.
-/

namespace TypeAtlas

namespace NativeDraft

open NativeRecord

variable {c : Compound}

/-- What is neither an enumeration nor of a known kind leaves no trace in a namespace. -/
theorem foldl_read_filter (hspace : c.kind = .namespace) (parser : DeclarationParser) (id : String)
    (members : List NativeMemberRecord) :
    (members.filter (·.isPart)).foldl (read parser id) { compound := c } =
      members.foldl (read parser id) { compound := c } := by
  induction members using List.reverseRecOn with
  | nil => rfl
  | append_singleton members r ih =>
    rw [List.filter_append, List.filter_singleton, List.foldl_append, ih, List.foldl_append]
    cases hpart : r.isPart with
    | true => rfl
    | false =>
      obtain ⟨henum, hfold⟩ : r.isEnum = false ∧ MemberKind.fold? r.kind r.rawType = none := by
        simpa [NativeMemberRecord.isPart] using hpart
      have hkind : r.kindIn? c = none := by
        rw [NativeMemberRecord.kindIn?_of_namespace hspace, hfold]
      rw [List.foldl_cons, List.foldl_nil, foldl_read, read_ofMembers,
        ofMembers_concat_of_none henum hkind, Parts.addValues, if_neg (by simp [hspace]),
        List.append_nil]
      rfl

end NativeDraft

namespace NativeRecord

open NativeDraft

variable {parser : DeclarationParser} {r : NativeRecord} {compounds : List Compound}
  {reports : Diagnostics}

/-! ## Namespaces -/

/-- The member records of which the kind is part of the vocabulary, with their kinds. -/
def foldedMembers (r : NativeRecord) : List (NativeMemberRecord × MemberKind) :=
  r.members.filterMap fun m => (MemberKind.fold? m.kind m.rawType).map (m, ·)

/-- The members of the namespace `c` that a record declares. -/
def membersIn (parser : DeclarationParser) (c : Compound)
    (members : List (NativeMemberRecord × MemberKind)) : List Member :=
  members.map fun m => m.1.memberIn parser c m.2

/-- The compound of a namespace, its enumerations and its functions, as the record declares them. -/
structure Divides (parser : DeclarationParser) (r : NativeRecord) (c : Compound)
    (enums functions : List Compound) : Prop where
  /-- All but the members and the children is known before the members are read. -/
  outline : ∃ rawName, r.rawName? = .ok rawName ∧
    c = { r.outline .namespace rawName (fullNameOf rawName) with
      members := c.members
      childNames := c.childNames }
  /-- There is one enumeration for each record of one. -/
  enumerations : enums = (r.members.filter (·.isEnum)).map (·.buildEnum r.id c)
  /-- There is one function for each name of a method. -/
  overloads : functions = functionsOf r.id c
    (membersIn parser c (r.foldedMembers.filter (·.2 == .method)))
  /-- The other members stay. -/
  rest : c.members = membersIn parser c (r.foldedMembers.filter (·.2 != .method))
  /-- The children are the listed entities, and the enumerations and functions among the members. -/
  children : c.childNames = (((r.innerNamespaces ++ r.innerClasses).map fullNameOf).filter
    (· != "") ++ r.members.filterMap (·.childName? c)).eraseDups
  /-- No member is lost or read twice. -/
  complete : (functions.flatMap (·.members) ++ c.members).Perm (membersIn parser c r.foldedMembers)

section Namespaces

variable {c : Compound} (hspace : c.kind = .namespace)

include hspace

theorem readMembers_of_namespace (parser : DeclarationParser) (r : NativeRecord) :
    readMembers parser c r.members = membersIn parser c r.foldedMembers := by
  unfold readMembers ownMembers membersIn foldedMembers
  simp only [NativeMemberRecord.ownKind?_eq, NativeMemberRecord.kindIn?_of_namespace hspace]

theorem overloads_of_namespace (parser : DeclarationParser) (r : NativeRecord) :
    (readMembers parser c r.members).filter (·.isOverload c) =
      membersIn parser c (r.foldedMembers.filter (·.2 == .method)) := by
  rw [readMembers_of_namespace hspace, membersIn, List.filter_map]
  congr 2
  funext m
  simp [Member.isOverload, hspace, NativeMemberRecord.memberIn]

theorem rest_of_namespace (parser : DeclarationParser) (r : NativeRecord) :
    (readMembers parser c r.members).filter (fun m => !m.isOverload c && !m.isValue c) =
      membersIn parser c (r.foldedMembers.filter (·.2 != .method)) := by
  rw [readMembers_of_namespace hspace, membersIn, List.filter_map]
  congr 2
  funext m
  simp [Member.isOverload, Member.isValue, hspace, NativeMemberRecord.memberIn, bne]

theorem flatMap_valuesIn_of_namespace (parser : DeclarationParser)
    (members : List NativeMemberRecord) : members.flatMap (·.valuesIn parser c) = [] := by
  simp [NativeMemberRecord.valuesIn, hspace]

end Namespaces

section Parts

variable {c : Compound} {p : Parts} {id : String}

theorem buildEnum_ofParts (recordId : String) (m : NativeMemberRecord) :
    m.buildEnum recordId (ofParts id c p).compound = m.buildEnum recordId c := rfl

theorem membersIn_ofParts (members : List (NativeMemberRecord × MemberKind)) :
    membersIn parser (ofParts id c p).compound members = membersIn parser c members := rfl

theorem functionsOf_ofParts (recordId : String) (overloads : List Member) :
    functionsOf recordId (ofParts id c p).compound overloads =
      functionsOf recordId c overloads := rfl

theorem childName?_ofParts (m : NativeMemberRecord) :
    m.childName? (ofParts id c p).compound = m.childName? c := rfl

end Parts

theorem divides_draftOf {rawName : String} (hname : r.rawName? = .ok rawName) :
    r.Divides parser (r.draftOf parser .namespace rawName).compound
      (r.draftOf parser .namespace rawName).enums
      (r.draftOf parser .namespace rawName).functions := by
  unfold draftOf
  dsimp only
  generalize houtline : r.outline .namespace rawName (fullNameOf rawName) = c
  have hspace : c.kind = .namespace := by rw [← houtline]; rfl
  have hmembers : c.members = [] := by rw [← houtline]; rfl
  have hchildren : c.childNames = r.innerNames.foldl addName [] := by rw [← houtline]; rfl
  have hoverloads := overloads_of_namespace hspace parser r
  have hrest := rest_of_namespace hspace parser r
  constructor
  case outline =>
    refine ⟨rawName, hname, ?_⟩
    rw [houtline]
    simp only [ofParts, Parts.ofMembers, flatMap_valuesIn_of_namespace hspace, List.append_nil]
  case enumerations =>
    simp only [buildEnum_ofParts]
    rfl
  case overloads =>
    rw [membersIn_ofParts, functionsOf_ofParts, ← hoverloads]
    rfl
  case rest =>
    rw [membersIn_ofParts, ← hrest]
    simp only [ofParts, Parts.ofMembers, hmembers, List.nil_append]
  case children =>
    simp only [childName?_ofParts]
    simp only [ofParts, Parts.ofMembers, hchildren]
    rw [← List.foldl_append, foldl_addName]
    rfl
  case complete =>
    -- The overloads are the members of the functions in another order, and all else is kept.
    have hvalue : ∀ m : Member, m.isValue c = false := by simp [Member.isValue, hspace]
    rw [membersIn_ofParts, ← readMembers_of_namespace hspace]
    simp only [ofParts, Parts.ofMembers, hmembers, List.nil_append, hvalue, Bool.not_false,
      Bool.and_true]
    exact (perm_members_functionsOf.append_right _).trans (List.filter_append_perm _ _)

/-- What is no part of an interface leaves no trace in a namespace. -/
theorem build_filter_isPart (hkind : foldNativeKind? r.kind = some .namespace)
    (parser : DeclarationParser) :
    { r with members := r.members.filter (·.isPart) }.build parser = r.build parser := by
  have hname : { r with members := r.members.filter (·.isPart) }.rawName? = r.rawName? := rfl
  have houtline : { r with members := r.members.filter (·.isPart) }.outline = r.outline := rfl
  have hread : ∀ rawName fullName, (r.members.filter (·.isPart)).foldl (read parser r.id)
      { compound := r.outline .namespace rawName fullName } = r.members.foldl (read parser r.id)
        { compound := r.outline .namespace rawName fullName } :=
    fun _ _ => foldl_read_filter rfl parser r.id r.members
  unfold build
  simp only [hkind, hname, houtline, hread]

/-- A namespace is divided without a loss, and what is no part of an interface leaves no trace. -/
theorem divides_build (hkind : foldNativeKind? r.kind = some .namespace)
    (h : r.build parser = .ok (compounds, reports)) :
    ∃ c enums functions, compounds = c :: (enums ++ functions) ∧
      r.Divides parser c enums functions ∧
      { r with members := r.members.filter (·.isPart) }.build parser =
        .ok (compounds, reports) := by
  rcases cases_of_build h with ⟨hpage, -⟩ | ⟨kind, rawName, hfold, hname, -, hcompounds, -⟩
  · simp [hkind] at hpage
  · obtain rfl : kind = .namespace := Option.some.inj (hfold.symm.trans hkind)
    refine ⟨_, _, _, ?_, divides_draftOf hname, (build_filter_isPart hkind parser).trans h⟩
    rw [hcompounds, NativeDraft.compounds, List.cons_append]

/-- A namespace with two overloads of a name around an enumeration, a variable, a macro and another
function. -/
def mixedRecord : NativeRecord where
  id := "n"
  kind := "namespace"
  name := some "Acme::Math"
  innerNamespaces := ["Acme::Math::Detail"]
  innerClasses := ["Acme::Math::Matrix", "Acme::Math::Norm"]
  members :=
    [{ kind := "function", name := "Scale" }, { kind := "enum", name := "Mode" },
     { kind := "variable", name := "Limit", rawType := "int" }, { kind := "define", name := "MAX" },
     { kind := "function", name := "Norm" },
     { kind := "Function", name := " Scale ", brief := .plain "Scales." }]

theorem divides_build_mixed :
    foldNativeKind? mixedRecord.kind = some .namespace ∧ ∃ compounds reports,
      mixedRecord.build .standard = .ok (compounds, reports) ∧
      compounds.map (fun c => (c.id, c.fullName, c.members.map (·.name), c.content.summary)) =
        [("n", "Acme.Math", ["Limit"], ""), ("n#Mode", "Acme.Math.Mode", [], ""),
         ("n#Scale", "Acme.Math.Scale", ["Scale", "Scale"], "Scales."),
         ("n#Norm", "Acme.Math.Norm", ["Norm"], "")] ∧
      compounds.head?.map (·.childNames) = some ["Acme.Math.Detail", "Acme.Math.Matrix",
        "Acme.Math.Norm", "Acme.Math.Scale", "Acme.Math.Mode"] ∧
      ∃ c enums functions, compounds = c :: (enums ++ functions) ∧
        mixedRecord.Divides .standard c enums functions ∧
        { mixedRecord with members := mixedRecord.members.filter (·.isPart) }.build .standard =
          .ok (compounds, reports) := by
  have hkind : foldNativeKind? mixedRecord.kind = some .namespace := by decide +kernel
  have hfacts : (mixedRecord.build .standard).toOption.any (fun out =>
      decide (out.1.map (fun c => (c.id, c.fullName, c.members.map (·.name), c.content.summary)) =
        [("n", "Acme.Math", ["Limit"], ""), ("n#Mode", "Acme.Math.Mode", [], ""),
         ("n#Scale", "Acme.Math.Scale", ["Scale", "Scale"], "Scales."),
         ("n#Norm", "Acme.Math.Norm", ["Norm"], "")]) &&
      decide (out.1.head?.map (·.childNames) = some ["Acme.Math.Detail", "Acme.Math.Matrix",
        "Acme.Math.Norm", "Acme.Math.Scale", "Acme.Math.Mode"])) = true := by decide +kernel
  cases hbuild : mixedRecord.build .standard with
  | error e => simp [hbuild, Except.toOption] at hfacts
  | ok out =>
    simp only [hbuild, Except.toOption, Option.any_some, Bool.and_eq_true,
      decide_eq_true_eq] at hfacts
    exact ⟨hkind, out.1, out.2, rfl, hfacts.1, hfacts.2, divides_build hkind hbuild⟩

end NativeRecord

end TypeAtlas
