import TypeAtlas.Graph.Basic

/-!
# Questions by name

The questions that can be asked of a node, for callers that have the question as a word.

## Main definitions

* `Query`, `Query.ofName?` — a question, and the question with a name.
* `Answer`, `Query.answer?` — the answer of a node, none if it cannot give one.
-/

namespace TypeAtlas

/-- A question to a node. -/
inductive Query where
  | isKind (kind : TypeKind)
  | traits
  | baseTypes
  | derivedTypes
  | genericParameters
  | enumValues
  | members
  /-- The members of one kind. -/
  | membersOf (kind : MemberKind)
  | destructor
  deriving DecidableEq, Repr

/-- The answer to a question. -/
inductive Answer where
  | truth (value : Bool)
  | traits (traits : Traits)
  | nodes (ids : List TypeId)
  | values (values : List EnumValue)
  | members (members : List BoundMember)
  | destructor (member : Option BoundMember)
  deriving Repr

namespace Query

/-- The questions by name. -/
def table : List (String × Query) :=
  [("is_namespace", .isKind .namespace),
   ("is_class", .isKind .classType),
   ("is_interface", .isKind .interface),
   ("is_struct", .isKind .struct),
   ("is_enum", .isKind .enum),
   ("is_function", .isKind .function),
   ("is_generic_parameter", .isKind .genericParameter),
   ("is_primitive", .isKind .primitive),
   ("traits", .traits),
   ("base_types", .baseTypes),
   ("derived_types", .derivedTypes),
   ("generic_parameters", .genericParameters),
   ("enum_values", .enumValues),
   ("members", .members),
   ("fields", .membersOf .field),
   ("properties", .membersOf .property),
   ("methods", .membersOf .method),
   ("constructors", .membersOf .constructor),
   ("events", .membersOf .event),
   ("destructor", .destructor)]

/-- The question with a name. -/
def ofName? (name : String) : Option Query :=
  table.lookup name

/-- The answer of a node to a question. A facade has none. -/
def answer? (query : Query) (n : TypeNode) : Option Answer :=
  match query with
  | isKind kind => (n.isKind? kind).map .truth
  | traits => n.traits?.map .traits
  | baseTypes => n.baseTypes?.map .nodes
  | derivedTypes => n.derivedTypes?.map .nodes
  | genericParameters => n.genericParameters?.map .nodes
  | enumValues => n.enumValues?.map .values
  | members => n.members?.map .members
  | membersOf kind => (n.membersOfKind? kind).map .members
  | destructor => n.destructor?.map .destructor

/-- The answer of a node to the question with a name; a name that is no question has none. -/
def answerNamed? (name : String) (n : TypeNode) : Option Answer :=
  (ofName? name).bind (·.answer? n)

end Query

end TypeAtlas
