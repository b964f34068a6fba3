import Mathlib.Data.List.Basic
import Mathlib.Data.List.Perm.Basic
import TypeAtlas.Compound.Native
import TypeAtlas.Proofs.Documentation.Folding

/-!
# Members that are read

The members of a record are read one by one, and what they lead to goes to several compounds: an
enumeration becomes a compound of its own, the overloads of a namespace go to one compound for each
name, the values of an enumeration are put on a list of their own, and the rest stays with the
compound of the record. The draft after the last member is a function of the list of members.

## Main definitions

* `NativeRecord.readMembers` — the members of a record that are part of an interface.
* `NativeRecord.functionsOf` — the functions of a namespace, with the overloads of each name.
* `NativeDraft.Parts.ofMembers` — what is read from members, by where it goes.
* `NativeRecord.draftOf` — the draft of a record after all of its members.

The main statements are `NativeDraft.foldl_read` and `NativeRecord.cases_of_build`.
-/

namespace TypeAtlas

open Text

/-! ## Names in the order of their first occurrences -/

section FirstOccurrences

variable {α β : Type} [BEq α] [LawfulBEq α]

theorem eraseDups_concat (xs : List α) (x : α) :
    (xs ++ [x]).eraseDups = if xs.contains x then xs.eraseDups else xs.eraseDups ++ [x] := by
  have hsingle : [x].eraseDups = [x] := by simp [List.eraseDups_cons]
  rw [List.eraseDups_append, List.removeAll, List.filter_cons, List.filter_nil]
  split
  · next h => rw [if_neg (by simpa using h), hsingle]
  · next h => rw [if_pos (by simpa using h), List.eraseDups_nil, List.append_nil]

theorem foldl_addName (names : List String) : names.foldl addName [] = names.eraseDups := by
  induction names using List.reverseRecOn with
  | nil => rfl
  | append_singleton names name ih =>
    rw [List.foldl_concat, ih, eraseDups_concat, addName]
    simp only [List.contains_iff_mem, List.mem_eraseDups]

/-- Items that are put together by their keys are the same items in another order. -/
theorem perm_flatMap_filter (key : β → α) (items : List β) :
    ((items.map key).eraseDups.flatMap fun k => items.filter (key · == k)).Perm items := by
  match items with
  | [] => simp
  | item :: rest =>
    -- The first key takes its items out, and the other keys have all of theirs among what is left.
    have hkeys : ((rest.map key).filter fun k => !k == key item) =
        (rest.filter fun i => !key i == key item).map key := List.filter_map
    have hothers : ∀ k ∈ ((rest.filter fun i => !key i == key item).map key).eraseDups,
        (item :: rest).filter (key · == k) =
          (rest.filter fun i => !key i == key item).filter (key · == k) := by
      intro k hk
      rw [List.mem_eraseDups, List.mem_map] at hk
      obtain ⟨other, hother, rfl⟩ := hk
      have hne : ¬ key other = key item := by simpa using (List.mem_filter.1 hother).2
      rw [List.filter_cons, if_neg (by simpa using Ne.symm hne), List.filter_filter]
      apply List.filter_congr
      intro i _
      by_cases hi : key i = key other
      · simp [hi, hne]
      · simp [hi]
    have hlength := List.length_filter_le (fun i => !key i == key item) rest
    have ih := perm_flatMap_filter key (rest.filter fun i => !key i == key item)
    rw [List.map_cons, List.eraseDups_cons, List.flatMap_cons, hkeys,
      List.flatMap_congr hothers]
    have hown : (item :: rest).filter (key · == key item) =
        item :: rest.filter (key · == key item) := by simp
    rw [hown, List.cons_append]
    exact ((ih.append_left _).trans (List.filter_append_perm _ rest)).cons item
termination_by items.length
decreasing_by
  rw [List.length_cons]
  omega

end FirstOccurrences

/-! ## Members -/

namespace NativeMemberRecord

variable {c : Compound} {r : NativeMemberRecord}

/-- The member of `enclosing` that a record declares, given its kind. -/
def memberIn (parser : DeclarationParser) (enclosing : Compound) (kind : MemberKind)
    (r : NativeMemberRecord) : Member where
  name := trimmed r.name
  kind
  rawType := r.rawType
  rawArguments := r.rawArguments
  declaredType := (r.typeIn parser enclosing kind).1
  parameters := (r.params.filter (!·.isVoid)).map fun p => (p.build parser).1
  content := .ofDoc r.brief r.detailed
  isStatic := r.isStatic

/-- A member without documentation has the empty content. -/
theorem content_memberIn_of_isEmpty (parser : DeclarationParser) (c : Compound) (kind : MemberKind)
    (r : NativeMemberRecord) (h : (r.memberIn parser c kind).content.isEmpty = true) :
    (r.memberIn parser c kind).content = {} :=
  Content.ofDoc_of_isEmpty h

/-- What is reported on a member of `enclosing`, given its kind. -/
def reportsIn (parser : DeclarationParser) (enclosing : Compound) (kind : MemberKind)
    (r : NativeMemberRecord) : Diagnostics :=
  (r.typeIn parser enclosing kind).2 ++
    (r.params.filter (!·.isVoid)).flatMap fun p => (p.build parser).2

theorem buildIn?_eq (parser : DeclarationParser) (c : Compound) (r : NativeMemberRecord) :
    r.buildIn? parser c = (r.kindIn? c).map fun kind =>
      (r.memberIn parser c kind, r.reportsIn parser c kind) := by
  unfold buildIn? memberIn reportsIn
  simp only [List.map_map, List.flatMap_map]
  rfl

/-- The kind of the member inside `enclosing`, unless it is a nested enumeration or no part of an
interface. -/
def ownKind? (enclosing : Compound) (r : NativeMemberRecord) : Option MemberKind :=
  if r.isEnum then none else r.kindIn? enclosing

/-- The word for an enumeration is none for a kind of member. -/
theorem fold?_of_isEnum (h : r.isEnum = true) : MemberKind.fold? r.kind r.rawType = none := by
  have hword : foldWord r.kind = "enum" := by simpa [isEnum] using h
  have hnone : MemberKind.nativeWords.lookup "enum" = none := by decide
  rw [MemberKind.fold?, hword, hnone, Option.map_none]

theorem kindIn?_of_isEnum (h : r.isEnum = true) (c : Compound) : r.kindIn? c = none := by
  rw [kindIn?, fold?_of_isEnum h, Option.map_none]

theorem isEnum_of_kindIn? {kind : MemberKind} (h : r.kindIn? c = some kind) :
    r.isEnum = false := by
  rw [Bool.eq_false_iff]
  intro henum
  simp [kindIn?_of_isEnum henum] at h

theorem ownKind?_eq (c : Compound) (r : NativeMemberRecord) : r.ownKind? c = r.kindIn? c := by
  unfold ownKind?
  split
  · next henum => rw [kindIn?_of_isEnum henum]
  · rfl

/-- In a namespace the word for the kind decides. -/
theorem kindIn?_of_namespace (h : c.kind = .namespace) (r : NativeMemberRecord) :
    r.kindIn? c = MemberKind.fold? r.kind r.rawType := by
  simp [kindIn?, h]

/-- Whether the record is of an enumeration or of a known kind of member. -/
def isPart (r : NativeMemberRecord) : Bool :=
  r.isEnum || (MemberKind.fold? r.kind r.rawType).isSome

/-- The name of the entity inside `enclosing` that a member leads to: an enumeration, or a function
of a namespace. -/
def childName? (enclosing : Compound) (r : NativeMemberRecord) : Option String :=
  if r.isEnum then some (Name.qualify enclosing.fullName (Name.bare (trimmed r.name)))
  else if enclosing.kind = .namespace ∧ MemberKind.fold? r.kind r.rawType = some .method then
    some (Name.qualify enclosing.fullName (trimmed r.name))
  else none

theorem childName?_of_isEnum_eq_false (h : r.isEnum = false) (c : Compound) :
    r.childName? c = if c.kind = .namespace ∧ r.kindIn? c = some .method then
      some (Name.qualify c.fullName (trimmed r.name)) else none := by
  have hkind : (c.kind = .namespace ∧ MemberKind.fold? r.kind r.rawType = some .method) ↔
      (c.kind = .namespace ∧ r.kindIn? c = some .method) :=
    and_congr_right fun hspace => by rw [kindIn?_of_namespace hspace]
  simp only [childName?, h, hkind, Bool.false_eq_true, if_false]

end NativeMemberRecord

namespace Member

/-- Whether a member of `enclosing` is an overload of one of its functions. -/
def isOverload (enclosing : Compound) (m : Member) : Bool :=
  enclosing.kind == .namespace && m.kind == .method

/-- Whether a member of `enclosing` is one of its values. -/
def isValue (enclosing : Compound) (m : Member) : Bool :=
  enclosing.kind == .enum && m.kind == .enumValue

/-- No compound is both a namespace and an enumeration. -/
theorem isValue_of_isOverload {c : Compound} {m : Member} (h : m.isOverload c = true) :
    m.isValue c = false := by
  rw [isOverload, Bool.and_eq_true, beq_iff_eq] at h
  simp [isValue, h.1]

/-- The value that a member stands for. -/
def toValue (m : Member) : EnumValue where
  name := m.name
  initializer := initializerOf? m.rawArguments
  content := m.content

end Member

namespace NativeRecord

variable {parser : DeclarationParser} {c : Compound}

/-- Those of the member records that are read as members of `enclosing`, with their kinds. -/
def ownMembers (enclosing : Compound) (members : List NativeMemberRecord) :
    List (NativeMemberRecord × MemberKind) :=
  members.filterMap fun m => (m.ownKind? enclosing).map (m, ·)

/-- The members that are read. -/
def readMembers (parser : DeclarationParser) (enclosing : Compound)
    (members : List NativeMemberRecord) : List Member :=
  (ownMembers enclosing members).map fun m => m.1.memberIn parser enclosing m.2

theorem readMembers_concat (parser : DeclarationParser) (c : Compound)
    (members : List NativeMemberRecord) (m : NativeMemberRecord) :
    readMembers parser c (members ++ [m]) =
      readMembers parser c members ++ ((m.ownKind? c).map (m.memberIn parser c)).toList := by
  unfold readMembers ownMembers
  rw [List.filterMap_append, List.map_append]
  cases hkind : m.ownKind? c <;> simp [hkind]

theorem mem_readMembers {members : List NativeMemberRecord} {m : Member} :
    m ∈ readMembers parser c members ↔
      ∃ r ∈ members, ∃ kind, r.ownKind? c = some kind ∧ r.memberIn parser c kind = m := by
  simp only [readMembers, ownMembers, List.mem_map, List.mem_filterMap, Option.map_eq_some_iff,
    Prod.exists]
  grind

/-! ## Functions -/

/-- The content of the first member that is documented. -/
def firstDocumented (members : List Member) : Content :=
  ((members.find? fun m => !m.content.isEmpty).map (·.content)).getD {}

theorem firstDocumented_concat {m : Member} (hm : m.content.isEmpty = true → m.content = {})
    (members : List Member) : firstDocumented (members ++ [m]) =
      if (firstDocumented members).isEmpty then m.content else firstDocumented members := by
  unfold firstDocumented
  rw [List.find?_append]
  cases hfound : members.find? fun m => !m.content.isEmpty with
  | some documented =>
    have hdocumented := List.find?_some hfound
    simp only [Bool.not_eq_true'] at hdocumented
    simp [hdocumented]
  | none =>
    have hempty : ({} : Content).isEmpty = true := by decide
    cases hown : m.content.isEmpty with
    | false => simp [hown, hempty]
    | true => simp [hempty, hm hown]

/-- The function inside `enclosing` that has the overloads of one name. -/
def functionOf (recordId : String) (enclosing : Compound) (overloads : List Member)
    (name : String) : Compound :=
  let own := overloads.filter (·.name == name)
  { Compound.empty (recordId ++ "#" ++ name) .native (Name.qualify enclosing.fullName name)
      .function with
    language := enclosing.language
    content := firstDocumented own
    members := own }

/-- The functions inside `enclosing`, in the order in which their names occur first. -/
def functionsOf (recordId : String) (enclosing : Compound) (overloads : List Member) :
    List Compound :=
  (overloads.map (·.name)).eraseDups.map (functionOf recordId enclosing overloads)

variable {id : String} {overloads : List Member} {m : Member}

theorem any_functionsOf (name : String) :
    (functionsOf id c overloads).any (·.fullName == Name.qualify c.fullName name) =
      (overloads.map (·.name)).contains name := by
  rw [Bool.eq_iff_iff, List.any_eq_true, List.contains_iff_mem]
  unfold functionsOf functionOf
  simp [Compound.empty, Name.qualify_inj]

/-- The first overload of a name leads to a function of its own. -/
theorem functionsOf_concat_of_new (h : m.name ∉ overloads.map (·.name)) :
    functionsOf id c (overloads ++ [m]) =
      functionsOf id c overloads ++ [functionOf id c [m] m.name] := by
  have hnone : overloads.filter (·.name == m.name) = [] := by
    rw [List.filter_eq_nil_iff]
    intro other hother hname
    exact h (List.mem_map.2 ⟨other, hother, by simpa using hname⟩)
  unfold functionsOf
  rw [List.map_append, List.map_singleton, eraseDups_concat,
    if_neg (by simpa [List.contains_iff_mem] using h), List.map_append]
  congr 1
  · apply List.map_congr_left
    intro name hname
    have hne : ¬ m.name = name := by
      rintro rfl
      exact h (List.mem_eraseDups.1 hname)
    simp [functionOf, List.filter_append, hne]
  · simp [functionOf, List.filter_append, hnone]

/-- A further overload goes to the function of its name. -/
theorem functionsOf_concat_of_known (hm : m.content.isEmpty = true → m.content = {})
    (h : m.name ∈ overloads.map (·.name)) :
    functionsOf id c (overloads ++ [m]) = (functionsOf id c overloads).map fun f =>
      if f.fullName = Name.qualify c.fullName m.name then
        { f with
          content := if f.content.isEmpty then m.content else f.content
          members := f.members ++ [m] }
      else f := by
  unfold functionsOf
  rw [List.map_append, List.map_singleton, eraseDups_concat,
    if_pos (by simpa [List.contains_iff_mem] using h), List.map_map]
  apply List.map_congr_left
  intro name _
  by_cases hname : name = m.name
  · subst hname
    simp [functionOf, Compound.empty, List.filter_append, firstDocumented_concat hm]
    rfl
  · simp [functionOf, Compound.empty, List.filter_append, Name.qualify_inj, hname, Ne.symm hname]

/-- Each overload is in one function. -/
theorem perm_members_functionsOf :
    ((functionsOf id c overloads).flatMap (·.members)).Perm overloads := by
  unfold functionsOf
  rw [List.flatMap_map]
  exact perm_flatMap_filter (·.name) overloads

end NativeRecord

/-! ## Reading members -/

namespace NativeMemberRecord

/-- The values of `enclosing` that a member leads to. -/
def valuesIn (parser : DeclarationParser) (enclosing : Compound) (r : NativeMemberRecord) :
    List EnumValue :=
  if r.isEnum ∨ enclosing.kind ≠ .enum then [] else
    r.enumValues.map EnumValueRecord.build ++
      if r.kindIn? enclosing = some .enumValue then
        [(r.memberIn parser enclosing .enumValue).toValue]
      else []

section Kinds

variable {c : Compound} {r : NativeMemberRecord} {kind : MemberKind}

theorem childName?_of_kindIn? (h : r.kindIn? c = some kind) (parser : DeclarationParser) :
    r.childName? c = if (r.memberIn parser c kind).isOverload c then
      some (Name.qualify c.fullName (trimmed r.name)) else none := by
  simp [childName?_of_isEnum_eq_false (isEnum_of_kindIn? h), h, Member.isOverload, memberIn]

theorem valuesIn_of_kindIn? (h : r.kindIn? c = some kind) (parser : DeclarationParser) :
    r.valuesIn parser c =
      (if c.kind = .enum then r.enumValues.map EnumValueRecord.build else []) ++
        if (r.memberIn parser c kind).isValue c then [(r.memberIn parser c kind).toValue]
        else [] := by
  have henum := isEnum_of_kindIn? h
  by_cases hvalue : kind = .enumValue
  · subst hvalue
    by_cases hc : c.kind = .enum <;> simp [valuesIn, henum, h, hc, Member.isValue, memberIn]
  · simp [valuesIn, henum, h, hvalue, Member.isValue, memberIn]

end Kinds

/-- What is reported on a member of `enclosing`, if it is read. -/
def ownReports (parser : DeclarationParser) (enclosing : Compound) (r : NativeMemberRecord) :
    Diagnostics :=
  ((r.ownKind? enclosing).map fun kind => r.reportsIn parser enclosing kind).getD []

end NativeMemberRecord

namespace NativeDraft

open NativeRecord

/-- What is read from members, by where it goes. -/
structure Parts where
  members : List Member := []
  enumValues : List EnumValue := []
  childNames : List String := []
  enums : List Compound := []
  overloads : List Member := []
  diagnostics : Diagnostics := []

/-- The draft of the compound `c` with further parts. -/
def ofParts (recordId : String) (c : Compound) (p : Parts) : NativeDraft where
  compound := { c with
    members := c.members ++ p.members
    enumValues := c.enumValues ++ p.enumValues
    childNames := p.childNames.foldl addName c.childNames }
  enums := p.enums
  functions := functionsOf recordId c p.overloads
  diagnostics := p.diagnostics

namespace Parts

/-- What is read from a list of members. -/
def ofMembers (parser : DeclarationParser) (recordId : String) (c : Compound)
    (members : List NativeMemberRecord) : Parts where
  members := (readMembers parser c members).filter fun m => !m.isOverload c && !m.isValue c
  enumValues := members.flatMap (·.valuesIn parser c)
  childNames := members.filterMap (·.childName? c)
  enums := (members.filter (·.isEnum)).map (·.buildEnum recordId c)
  overloads := (readMembers parser c members).filter (·.isOverload c)
  diagnostics := members.flatMap (·.ownReports parser c)

/-- One more member of `c`. -/
def addMember (c : Compound) (p : Parts) (m : Member) : Parts :=
  if m.isOverload c then
    { p with
      childNames := p.childNames ++ [Name.qualify c.fullName m.name]
      overloads := p.overloads ++ [m] }
  else if m.isValue c then
    { p with enumValues := p.enumValues ++ [m.toValue] }
  else
    { p with members := p.members ++ [m] }

/-- The values that a record in `c` brings with it. -/
def addValues (c : Compound) (p : Parts) (r : NativeMemberRecord) : Parts :=
  { p with
    enumValues := p.enumValues ++
      if c.kind = .enum then r.enumValues.map EnumValueRecord.build else [] }

/-- Further reports. -/
def report (p : Parts) (reports : Diagnostics) : Parts :=
  { p with diagnostics := p.diagnostics ++ reports }

/-- All overloads lead to names of children. -/
def Linked (c : Compound) (p : Parts) : Prop :=
  ∀ m ∈ p.overloads, Name.qualify c.fullName m.name ∈ p.childNames

end Parts

variable {parser : DeclarationParser} {id : String} {c : Compound} {p : Parts} {m : Member}
  {r : NativeMemberRecord}

/-- Parts do not change how members are read. -/
theorem buildIn?_ofParts (r : NativeMemberRecord) :
    r.buildIn? parser (ofParts id c p).compound = r.buildIn? parser c := by
  have hname : (ofParts id c p).compound.name = c.name := rfl
  unfold NativeMemberRecord.buildIn? NativeMemberRecord.kindIn? NativeMemberRecord.typeIn
  rw [hname]
  rfl

theorem kindIn?_ofParts (r : NativeMemberRecord) :
    r.kindIn? (ofParts id c p).compound = r.kindIn? c := rfl

theorem memberIn_ofParts (kind : MemberKind) (r : NativeMemberRecord) :
    r.memberIn parser (ofParts id c p).compound kind = r.memberIn parser c kind := rfl

theorem readMembers_ofParts (members : List NativeMemberRecord) :
    readMembers parser (ofParts id c p).compound members = readMembers parser c members := rfl

theorem addEnum_ofParts (nested : Compound) : (ofParts id c p).addEnum nested =
    ofParts id c { p with
      childNames := p.childNames ++ [nested.fullName]
      enums := p.enums ++ [nested] } := by
  simp [ofParts, addEnum, Compound.addChild]

theorem addValues_ofParts (r : NativeMemberRecord) : (ofParts id c p).addValues r =
    ofParts id c (p.addValues c r) := by
  unfold addValues Parts.addValues ofParts
  dsimp only
  split <;> simp

/-- An overload goes to the function of its name, or to a new one. -/
theorem addFunction_ofParts (hlinked : p.Linked c)
    (hm : m.content.isEmpty = true → m.content = {}) :
    (ofParts id c p).addFunction id m = ofParts id c { p with
      childNames := p.childNames ++ [Name.qualify c.fullName m.name]
      overloads := p.overloads ++ [m] } := by
  unfold addFunction ofParts
  dsimp only
  rw [any_functionsOf]
  split
  · next hknown =>
    rw [List.contains_iff_mem] at hknown
    -- The name of the function is among the children already.
    have hchild : Name.qualify c.fullName m.name ∈ p.childNames.foldl addName c.childNames := by
      obtain ⟨other, hother, hname⟩ := List.mem_map.1 hknown
      rw [← hname, mem_foldl_addName]
      exact .inr (hlinked other hother)
    rw [functionsOf_concat_of_known hm hknown, List.foldl_concat, addName,
      if_pos (List.contains_iff_mem.2 hchild)]
  · next hnew =>
    rw [List.contains_iff_mem] at hnew
    have hfirst : firstDocumented [m] = m.content := firstDocumented_concat hm []
    rw [functionsOf_concat_of_new hnew, List.foldl_concat]
    simp [Compound.addChild, functionOf, hfirst]

theorem addMember_ofParts (hlinked : p.Linked c) (hm : m.content.isEmpty = true → m.content = {})
    (hr : r.rawArguments = m.rawArguments) :
    (ofParts id c p).addMember id r m = ofParts id c (p.addMember c m) := by
  have hkind : (ofParts id c p).compound.kind = c.kind := rfl
  unfold addMember Parts.addMember Member.isOverload Member.isValue
  rw [hkind]
  split
  · next hspace hmethod =>
    rw [addFunction_ofParts hlinked hm, if_pos (by simp [hspace, hmethod])]
  · next henum hvalue =>
    rw [if_neg (by simp [henum]), if_pos (by simp [henum, hvalue])]
    simp [ofParts, Member.toValue, hr]
  · next hspace henum =>
    rw [if_neg (by simpa using hspace), if_neg (by simpa using henum)]
    simp [ofParts]

/-! ### Parts of one more member -/

/-- The name of an overload is put on the list of children when it is read. -/
theorem linked_ofMembers (parser : DeclarationParser) (id : String) (c : Compound)
    (members : List NativeMemberRecord) : (Parts.ofMembers parser id c members).Linked c := by
  intro m hm
  obtain ⟨hread, hoverload⟩ := List.mem_filter.1 hm
  obtain ⟨r, hr, kind, hkind, rfl⟩ := mem_readMembers.1 hread
  rw [NativeMemberRecord.ownKind?_eq] at hkind
  refine List.mem_filterMap.2 ⟨r, hr, ?_⟩
  rw [NativeMemberRecord.childName?_of_kindIn? hkind parser, if_pos hoverload]
  rfl

theorem ofMembers_concat_of_isEnum (h : r.isEnum = true) (members : List NativeMemberRecord) :
    Parts.ofMembers parser id c (members ++ [r]) =
      { Parts.ofMembers parser id c members with
        childNames := (Parts.ofMembers parser id c members).childNames ++
          [(r.buildEnum id c).fullName]
        enums := (Parts.ofMembers parser id c members).enums ++ [r.buildEnum id c] } := by
  have hown : r.ownKind? c = none := by simp [NativeMemberRecord.ownKind?, h]
  unfold Parts.ofMembers
  simp [readMembers_concat, hown, h, NativeMemberRecord.valuesIn, NativeMemberRecord.ownReports,
    NativeMemberRecord.childName?]
  rfl

theorem ofMembers_concat_of_none (henum : r.isEnum = false) (hkind : r.kindIn? c = none)
    (members : List NativeMemberRecord) :
    Parts.ofMembers parser id c (members ++ [r]) =
      (Parts.ofMembers parser id c members).addValues c r := by
  have hown : r.ownKind? c = none := (r.ownKind?_eq c).trans hkind
  have hchild : r.childName? c = none := by
    simp [NativeMemberRecord.childName?_of_isEnum_eq_false henum, hkind]
  have hvalues : r.valuesIn parser c =
      if c.kind = .enum then r.enumValues.map EnumValueRecord.build else [] := by
    simp [NativeMemberRecord.valuesIn, henum, hkind]
  unfold Parts.ofMembers Parts.addValues
  simp [readMembers_concat, hown, henum, hchild, hvalues, NativeMemberRecord.ownReports]

theorem ofMembers_concat_of_some {kind : MemberKind} (hkind : r.kindIn? c = some kind)
    (members : List NativeMemberRecord) :
    Parts.ofMembers parser id c (members ++ [r]) =
      (((Parts.ofMembers parser id c members).addValues c r).report
        (r.reportsIn parser c kind)).addMember c (r.memberIn parser c kind) := by
  have henum := NativeMemberRecord.isEnum_of_kindIn? hkind
  have hown : r.ownKind? c = some kind := (r.ownKind?_eq c).trans hkind
  have hchild := NativeMemberRecord.childName?_of_kindIn? hkind parser
  have hvalues := NativeMemberRecord.valuesIn_of_kindIn? hkind parser
  unfold Parts.ofMembers Parts.addValues Parts.report Parts.addMember
  cases hoverload : (r.memberIn parser c kind).isOverload c with
  | true =>
    rw [hoverload, if_pos rfl] at hchild
    simp [readMembers_concat, hown, henum, hchild, hvalues, NativeMemberRecord.ownReports,
      hoverload, Member.isValue_of_isOverload hoverload]
    rfl
  | false =>
    rw [hoverload, if_neg (by simp)] at hchild
    cases hvalue : (r.memberIn parser c kind).isValue c <;>
      simp [readMembers_concat, hown, henum, hchild, hvalues, NativeMemberRecord.ownReports,
        hoverload, hvalue]

/-- A class, a struct or an interface keeps all members that are read. -/
theorem members_ofParts_of_isComposite (hmembers : c.members = [])
    (h : c.kind.isComposite = true) (members : List NativeMemberRecord) :
    (ofParts id c (.ofMembers parser id c members)).compound.members =
      readMembers parser (ofParts id c (.ofMembers parser id c members)).compound members := by
  have hspace : c.kind ≠ .namespace := fun hkind => by simp [hkind, CompoundKind.isComposite] at h
  have henum : c.kind ≠ .enum := fun hkind => by simp [hkind, CompoundKind.isComposite] at h
  rw [readMembers_ofParts, ofParts, Parts.ofMembers, hmembers, List.nil_append]
  exact List.filter_eq_self.2 fun m _ => by simp [Member.isOverload, Member.isValue, hspace, henum]

/-- A member that is read is in one of the compounds, unless it is a value. -/
theorem exists_mem_compounds {members : List NativeMemberRecord}
    (hread : m ∈ readMembers parser c members) (hvalue : m.isValue c = false) :
    ∃ d ∈ (ofParts id c (.ofMembers parser id c members)).compounds, m ∈ d.members := by
  cases hoverload : m.isOverload c with
  | false =>
    refine ⟨_, List.mem_cons_self, List.mem_append_right _ (List.mem_filter.2 ⟨hread, ?_⟩)⟩
    simp [hoverload, hvalue]
  | true =>
    have hown : m ∈ (functionsOf id c ((readMembers parser c members).filter
        (·.isOverload c))).flatMap (·.members) :=
      perm_members_functionsOf.mem_iff.2 (List.mem_filter.2 ⟨hread, hoverload⟩)
    obtain ⟨f, hf, hmem⟩ := List.mem_flatMap.1 hown
    exact ⟨f, List.mem_append_right _ hf, hmem⟩

/-! ### Runs -/

/-- One more member is read. -/
theorem read_ofMembers (parser : DeclarationParser) (id : String) (c : Compound)
    (members : List NativeMemberRecord) (r : NativeMemberRecord) :
    (ofParts id c (.ofMembers parser id c members)).read parser id r =
      ofParts id c (.ofMembers parser id c (members ++ [r])) := by
  unfold read
  cases henum : r.isEnum with
  | true =>
    rw [if_pos rfl, addEnum_ofParts, ofMembers_concat_of_isEnum henum]
    rfl
  | false =>
    rw [if_neg (by simp), addValues_ofParts]
    dsimp only
    rw [buildIn?_ofParts, NativeMemberRecord.buildIn?_eq]
    cases hkind : r.kindIn? c with
    | none => rw [ofMembers_concat_of_none henum hkind, Option.map_none]
    | some kind =>
      rw [ofMembers_concat_of_some hkind, Option.map_some]
      dsimp only
      have hlinked : (((Parts.ofMembers parser id c members).addValues c r).report
          (r.reportsIn parser c kind)).Linked c := linked_ofMembers parser id c members
      rw [← addMember_ofParts hlinked (r.content_memberIn_of_isEmpty parser c kind) rfl]
      rfl

/-- What is read from members, one by one, into a draft that has nothing but a compound. -/
theorem foldl_read (parser : DeclarationParser) (id : String) (c : Compound)
    (members : List NativeMemberRecord) :
    members.foldl (read parser id) { compound := c } =
      ofParts id c (.ofMembers parser id c members) := by
  induction members using List.reverseRecOn with
  | nil => simp [ofParts, Parts.ofMembers, readMembers, ownMembers, functionsOf]
  | append_singleton members r ih => rw [List.foldl_concat, ih, read_ofMembers]

end NativeDraft

/-! ## Records -/

namespace NativeRecord

open NativeDraft

variable {parser : DeclarationParser} {r : NativeRecord} {compounds : List Compound}
  {reports : Diagnostics}

/-- The draft of a record with a kind and a name, after all of its members. -/
def draftOf (parser : DeclarationParser) (r : NativeRecord) (kind : CompoundKind)
    (rawName : String) : NativeDraft :=
  let outline := r.outline kind rawName (fullNameOf rawName)
  .ofParts r.id outline (.ofMembers parser r.id outline r.members)

/-- A page of documentation leads to nothing, and every other record to the compounds of its
draft. -/
theorem cases_of_build (h : r.build parser = .ok (compounds, reports)) :
    (foldNativeKind? r.kind = none ∧ compounds = [] ∧ reports = []) ∨
      ∃ kind rawName, foldNativeKind? r.kind = some kind ∧ r.rawName? = .ok rawName ∧
        fullNameOf rawName ≠ "" ∧ compounds = (r.draftOf parser kind rawName).compounds ∧
        reports = (r.draftOf parser kind rawName).diagnostics := by
  unfold build at h
  cases hkind : foldNativeKind? r.kind with
  | none => exact .inl (by simpa [hkind, eq_comm] using h)
  | some kind =>
    right
    cases hname : r.rawName? with
    | error e => simp [hkind, hname, bind, Except.bind] at h
    | ok rawName =>
      simp only [hkind, hname, bind, Except.bind, throw, throwThe, MonadExceptOf.throw, pure,
        Except.pure, foldl_read] at h
      split at h
      · simp at h
      · next hne =>
        rw [Except.ok.injEq, Prod.mk.injEq] at h
        exact ⟨kind, rawName, rfl, rfl, hne, h.1.symm, h.2.symm⟩

end NativeRecord

end TypeAtlas
