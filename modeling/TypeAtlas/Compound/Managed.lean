import TypeAtlas.Compound.Namespaces
import TypeAtlas.Declaration.Parser
import TypeAtlas.Error
import TypeAtlas.Record

/-!
# Compounds of managed records

A managed record leads to one compound. All records together lead to these and to the namespaces
around them.

## Main definitions

* `managedName` — a name without arity markers and with a dot before a nested type.
* `ManagedRecord.build` — the compound of a record.
* `ManagedRecord.buildAll` — the compounds of all records.
-/

namespace TypeAtlas

open Text

/-- A name without arity markers and with a dot for the plus sign before a nested type. -/
def managedName (raw : String) : String :=
  String.ofList ((Name.withoutArity raw).toList.map fun c => if c = '+' then '.' else c)

/-! ## Members -/

/-- The parameter that a record declares. One that is not marked as output is input. -/
def ManagedParamRecord.build (parser : DeclarationParser) (r : ManagedParamRecord) :
    Parameter × Diagnostics :=
  let (declared, diagnostics) := parser.parseReporting (managedName (trimmed r.typeName))
  ({ name := trimmed r.name
     rawType := r.typeName
     declaredType := { declared with
       marks := declared.marks.union
         { isIn := !r.isOut, isOut := r.isOut, isOptional := r.isOptional } }
     content := .ofDoc r.description {} }, diagnostics)

namespace ManagedMemberRecord

/-- Whether the record declares the initializer of the type itself. -/
def isTypeInitializer (r : ManagedMemberRecord) : Bool :=
  [".cctor", "#cctor"].contains (trimmed r.name)

/-- Whether the record has the name of a constructor. -/
def namesConstructor (r : ManagedMemberRecord) : Bool :=
  [".ctor", "#ctor"].contains (trimmed r.name) || r.isTypeInitializer

/-- The kind of the member; none if it is no part of an interface. -/
def kind? (r : ManagedMemberRecord) : Option MemberKind :=
  (MemberKind.foldManaged? r.kind).map fun kind =>
    if r.namesConstructor then .constructor else kind

/-- The name and the type of a member of a known kind. -/
def typeIn (parser : DeclarationParser) (enclosing : Compound) (kind : MemberKind)
    (r : ManagedMemberRecord) : String × Descriptor × Diagnostics :=
  if kind = .constructor then (enclosing.name, .named enclosing.fullName, [])
  else (trimmed r.name, parser.parseReporting (managedName (trimmed r.typeName)))

/-- The member of `enclosing` that a record declares; none if it is no part of an interface. -/
def buildIn? (parser : DeclarationParser) (enclosing : Compound) (r : ManagedMemberRecord) :
    Option (Member × Diagnostics) :=
  r.kind?.map fun kind =>
    let (name, declaredType, typeDiagnostics) := r.typeIn parser enclosing kind
    let params := r.params.map (·.build parser)
    ({ name
       kind
       rawType := r.typeName
       declaredType
       parameters := params.map (·.1)
       content := .ofDoc r.summary r.remarks
       isStatic := r.isStatic || r.isTypeInitializer },
      typeDiagnostics ++ params.flatMap (·.2))

/-- Whether the record declares a constant of an enumeration, or the field behind it. -/
def isField (r : ManagedMemberRecord) : Bool :=
  foldWord r.kind == "field"

/-- The value of an enumeration that a record declares; none for the field behind the values. -/
def value? (r : ManagedMemberRecord) : Option EnumValue :=
  if trimmed r.name = "value__" then none
  else some
    { name := trimmed r.name
      initializer := r.value
      content := .ofDoc r.summary r.remarks }

/-- The compound and the reports on it after one more member record. -/
def addTo (parser : DeclarationParser) (found : Compound × Diagnostics) (r : ManagedMemberRecord) :
    Compound × Diagnostics :=
  let (c, diagnostics) := found
  if c.kind = .enum ∧ r.isField then
    ({ c with enumValues := c.enumValues ++ r.value?.toList }, diagnostics)
  else
    match r.buildIn? parser c with
    | none => (c, diagnostics)
    | some (m, reported) => ({ c with members := c.members ++ [m] }, diagnostics ++ reported)

end ManagedMemberRecord

/-! ## Records -/

namespace ManagedRecord

/-- What identifies a record. -/
def id (r : ManagedRecord) : String :=
  "T:" ++ Name.qualify (trimmed r.scope) ((r.name.map trimmed).getD "?")

/-- The name of a record that has one. -/
def rawName? (r : ManagedRecord) : Except AtlasError String :=
  match r.name.map trimmed with
  | none => .error (.malformedInput r.id "type has no name")
  | some name => if name = "" then .error (.malformedInput r.id "type has no name") else .ok name

/-- The traits that a record declares besides those of its kind. -/
def traits (r : ManagedRecord) (implied : Traits) : Traits :=
  { implied with
    isSealed := implied.isSealed || r.isSealed
    isStatic := implied.isStatic || r.isStatic }

/-- The compound of a record before its members are read. -/
def outline (r : ManagedRecord) (rawName : String) : Compound :=
  let fullName := Name.qualify (Name.canonical r.scope) (managedName rawName)
  let (kind, implied) := foldManagedKind r.kind
  { Compound.empty r.id .managed fullName kind with
    rawName
    language := .cSharp
    traits := r.traits implied
    content := .ofDoc r.summary r.remarks
    templateParams := nonBlankNames r.genericParams
    baseNames :=
      ((r.baseType.toList ++ r.interfaces).map fun name => managedName (trimmed name)).filter
        (· != "") }

/-- The compound of a record, and what is reported on it. A record without a name is refused. -/
def build (parser : DeclarationParser) (r : ManagedRecord) :
    Except AtlasError (Compound × Diagnostics) :=
  r.rawName?.map fun rawName =>
    r.members.foldl (ManagedMemberRecord.addTo parser) (r.outline rawName, [])

/-- The compounds of records one by one, behind those found before. A record that is refused is
reported and left out, or ends the run if `failOnMalformed` says so. -/
def buildEach (parser : DeclarationParser) (failOnMalformed : Bool) :
    List ManagedRecord → Diagnostics × Except AtlasError (List Compound)
  | [] => ([], .ok [])
  | r :: rest =>
    match r.build parser with
    | .ok (c, reported) =>
      let (diagnostics, outcome) := buildEach parser failOnMalformed rest
      (reported ++ diagnostics, outcome.map (c :: ·))
    | .error e =>
      if failOnMalformed || !e.isDocumentLocal then ([], .error e)
      else
        let (diagnostics, outcome) := buildEach parser failOnMalformed rest
        ({ kind := .malformedInput, subject := r.id, message := e.message } :: diagnostics, outcome)

/-- The compounds of all records and of the namespaces around them, and what is reported on the
records, also on those before one that ends the run. -/
def buildAll (parser : DeclarationParser) (failOnMalformed : Bool) (records : List ManagedRecord) :
    Diagnostics × Except AtlasError (List Compound) :=
  let (diagnostics, outcome) := buildEach parser failOnMalformed records
  (diagnostics, outcome.map fun types => types ++ synthesizeNamespaces types)

end ManagedRecord

end TypeAtlas
