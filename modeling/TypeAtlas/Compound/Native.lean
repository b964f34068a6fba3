import TypeAtlas.Compound.Basic
import TypeAtlas.Declaration.Parser
import TypeAtlas.Error
import TypeAtlas.Record

/-!
# Compounds of native records

A native record leads to one compound of its own, one for each enumeration among its members, and,
if it is a namespace, one for each name of its functions, which holds the overloads of that name.

## Main definitions

* `NativeMemberRecord.kindIn?` — the kind of a member, with constructors and destructors recognised.
* `NativeDraft` — the compounds of a record, of which the members are read one by one.
* `NativeRecord.build` — the compounds of a record.
-/

namespace TypeAtlas

open Text

/-- The value behind the equals sign; none if nothing follows it. -/
def initializerOf? (raw : String) : Option String :=
  let value := trim ((trim raw.toList).dropWhile (· == '='))
  if value.isEmpty then none else some (String.ofList value)

/-- The value of an enumeration that a record declares. -/
def EnumValueRecord.build (r : EnumValueRecord) : EnumValue where
  name := trimmed r.name
  initializer := r.initializer.bind initializerOf?
  content := .ofDoc r.brief r.detailed

/-! ## Members -/

namespace NativeParamRecord

/-- Whether the record is the word for an empty parameter list. -/
def isVoid (r : NativeParamRecord) : Bool :=
  trimmed r.name == "" && trimmed r.rawType == "void"

/-- The declaration of the type; the direction attributes are annotations of it. -/
def declaration (r : NativeParamRecord) : String :=
  trimmed (trimmed r.attributes ++ " " ++ trimmed r.rawType)

/-- The parameter that a record declares. -/
def build (parser : DeclarationParser) (r : NativeParamRecord) : Parameter × Diagnostics :=
  let (declaredType, diagnostics) := parser.parseReporting r.declaration
  ({ name := trimmed r.name
     rawType := r.rawType
     declaredType
     content := .ofDoc r.description {} }, diagnostics)

end NativeParamRecord

namespace NativeMemberRecord

/-- Whether the record declares an enumeration. -/
def isEnum (r : NativeMemberRecord) : Bool :=
  foldWord r.kind == "enum"

/-- The name behind the tilde of a destructor. -/
def destroyed? (name : String) : Option String :=
  match name.toList with
  | '~' :: cs => some (String.ofList (trim cs))
  | _ => none

/-- The kind of a member of `enclosing`. Outside a namespace a function with the name of the
enclosing compound is a constructor, and one with this name behind a tilde is a destructor. -/
def kindIn? (enclosing : Compound) (r : NativeMemberRecord) : Option MemberKind :=
  (MemberKind.fold? r.kind r.rawType).map fun kind =>
    if kind = .method ∧ enclosing.kind ≠ .namespace then
      let name := trimmed r.name
      let enclosingName := Name.bare enclosing.name
      if Name.bare name = enclosingName then .constructor
      else if destroyed? name = some enclosingName then .destructor
      else kind
    else
      kind

/-- The type of a member of a known kind. Constructors and destructors have a type of their own,
whatever the record says. -/
def typeIn (parser : DeclarationParser) (enclosing : Compound) (kind : MemberKind)
    (r : NativeMemberRecord) : Descriptor × Diagnostics :=
  match kind with
  | .constructor => (.named enclosing.fullName, [])
  | .destructor => (.named "void", [])
  | .enumValue => ({}, [])
  | _ => parser.parseReporting r.rawType

/-- The member of `enclosing` that a record declares; none if it is no part of an interface. -/
def buildIn? (parser : DeclarationParser) (enclosing : Compound) (r : NativeMemberRecord) :
    Option (Member × Diagnostics) :=
  (r.kindIn? enclosing).map fun kind =>
    let (declaredType, typeDiagnostics) := r.typeIn parser enclosing kind
    let params := (r.params.filter (!·.isVoid)).map (·.build parser)
    ({ name := trimmed r.name
       kind
       rawType := r.rawType
       rawArguments := r.rawArguments
       declaredType
       parameters := params.map (·.1)
       content := .ofDoc r.brief r.detailed
       isStatic := r.isStatic },
      typeDiagnostics ++ params.flatMap (·.2))

/-- The enumeration inside `enclosing` that a record declares. -/
def buildEnum (recordId : String) (enclosing : Compound) (r : NativeMemberRecord) : Compound :=
  let name := Name.bare (trimmed r.name)
  let fullName := Name.qualify enclosing.fullName name
  { Compound.empty (recordId ++ "#" ++ name) .native fullName .enum with
    rawName := r.name
    language := enclosing.language
    content := .ofDoc r.brief r.detailed
    enumValues := r.enumValues.map EnumValueRecord.build }

end NativeMemberRecord

/-! ## Records -/

/-- The compounds of a record, as far as its members have been read. -/
structure NativeDraft where
  compound : Compound
  enums : List Compound := []
  functions : List Compound := []
  diagnostics : Diagnostics := []

namespace NativeDraft

/-- One more overload for the functions of a namespace. -/
def addFunction (recordId : String) (draft : NativeDraft) (m : Member) : NativeDraft :=
  let fullName := Name.qualify draft.compound.fullName m.name
  if draft.functions.any (·.fullName == fullName) then
    { draft with
      functions := draft.functions.map fun f =>
        if f.fullName = fullName then
          { f with
            content := if f.content.isEmpty then m.content else f.content
            members := f.members ++ [m] }
        else
          f }
  else
    { draft with
      compound := draft.compound.addChild fullName
      functions := draft.functions ++
        [{ Compound.empty (recordId ++ "#" ++ m.name) .native fullName .function with
           language := draft.compound.language
           content := m.content
           members := [m] }] }

/-- One more member. -/
def addMember (recordId : String) (draft : NativeDraft) (r : NativeMemberRecord) (m : Member) :
    NativeDraft :=
  match draft.compound.kind, m.kind with
  | .namespace, .method => draft.addFunction recordId m
  | .enum, .enumValue =>
    let value : EnumValue :=
      { name := m.name, initializer := initializerOf? r.rawArguments, content := m.content }
    { draft with
      compound := { draft.compound with enumValues := draft.compound.enumValues ++ [value] } }
  | _, _ =>
    { draft with compound := { draft.compound with members := draft.compound.members ++ [m] } }

/-- The values that a member of an enumeration brings with it, whatever its own kind. -/
def addValues (draft : NativeDraft) (r : NativeMemberRecord) : NativeDraft :=
  if draft.compound.kind = .enum then
    { draft with
      compound := { draft.compound with
        enumValues := draft.compound.enumValues ++ r.enumValues.map EnumValueRecord.build } }
  else
    draft

/-- One more nested enumeration. -/
def addEnum (draft : NativeDraft) (nested : Compound) : NativeDraft :=
  { draft with
    compound := draft.compound.addChild nested.fullName
    enums := draft.enums ++ [nested] }

/-- The draft after one more member record. -/
def read (parser : DeclarationParser) (recordId : String) (draft : NativeDraft)
    (r : NativeMemberRecord) : NativeDraft :=
  if r.isEnum then
    draft.addEnum (r.buildEnum recordId draft.compound)
  else
    let draft := draft.addValues r
    match r.buildIn? parser draft.compound with
    | none => draft
    | some (m, diagnostics) =>
      { draft with diagnostics := draft.diagnostics ++ diagnostics }.addMember recordId r m

/-- The compounds: the record's own one, its enumerations and its functions. -/
def compounds (draft : NativeDraft) : List Compound :=
  draft.compound :: draft.enums ++ draft.functions

end NativeDraft

namespace NativeRecord

/-- The name of a record that has one. -/
def rawName? (r : NativeRecord) : Except AtlasError String :=
  match r.name.map trimmed with
  | none => .error (.malformedInput r.id "compound has no name")
  | some name =>
    if name = "" then .error (.malformedInput r.id "compound has no name") else .ok name

/-- The dotted name that a name stands for. -/
def fullNameOf (rawName : String) : String :=
  Name.canonical (Name.bare rawName)

/-- The names of the entities that the record lists as its own. -/
def innerNames (r : NativeRecord) : List String :=
  ((r.innerNamespaces ++ r.innerClasses).map fullNameOf).filter (· != "")

/-- The compound of a record before its members are read. -/
def outline (r : NativeRecord) (kind : CompoundKind) (rawName fullName : String) : Compound :=
  { Compound.empty r.id .native fullName kind with
    rawName
    language := .ofWord r.language
    content := .ofDoc r.brief r.detailed
    baseNames := nonBlankNames r.baseNames
    derivedNames := nonBlankNames r.derivedNames
    templateParams := nonBlankNames r.templateParams
    childNames := r.innerNames.foldl addName [] }

/-- The compounds of a record, and what is reported on it. A page of documentation has none; a
record without a name is refused. -/
def build (parser : DeclarationParser) (r : NativeRecord) :
    Except AtlasError (List Compound × Diagnostics) :=
  match foldNativeKind? r.kind with
  | none => .ok ([], [])
  | some kind => do
    let rawName ← r.rawName?
    let fullName := fullNameOf rawName
    if fullName = "" then
      throw (.malformedInput r.id
        ("compound name '" ++ rawName ++ "' is empty after normalization"))
    let draft := r.members.foldl (NativeDraft.read parser r.id)
      { compound := r.outline kind rawName fullName }
    return (draft.compounds, draft.diagnostics)

end NativeRecord

end TypeAtlas
