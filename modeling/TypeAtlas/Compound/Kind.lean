import TypeAtlas.Text.Blank
import TypeAtlas.Text.Lowercase

/-!
# Kinds

Each source has its own words for the kinds of compounds, the kinds of their members and the
languages. They are folded onto one vocabulary; letter case and blanks around a word do not matter.

## Main definitions

* `CompoundKind`, `MemberKind`, `MemberFamily`, `Language`, `Traits` — the common vocabulary.
* `foldNativeKind?`, `foldManagedKind` — the kind of a compound from its word.
* `MemberKind.fold?` — the kind of a member from its word.
-/

namespace TypeAtlas

/-- Where a compound comes from. -/
inductive Source where
  | native | managed
  deriving DecidableEq, Repr

/-- The written name of a source. -/
def Source.name : Source → String
  | native => "native"
  | managed => "managed"

/-- The kind of a compound. -/
inductive CompoundKind where
  | namespace | classType | struct | interface | enum | function
  /-- A kind outside the vocabulary, by its word. -/
  | unknown (word : String)
  deriving DecidableEq, Repr

namespace CompoundKind

/-- The written name of a kind. -/
def name : CompoundKind → String
  | .namespace => "namespace"
  | .classType => "class"
  | .struct => "struct"
  | .interface => "interface"
  | .enum => "enum"
  | .function => "function"
  | .unknown word => word

/-- The kind with a written name. -/
def ofName (text : String) : CompoundKind :=
  ([.namespace, .classType, .struct, .interface, .enum, .function].find? (·.name == text)).getD
    (.unknown text)

/-- Whether a kind belongs to the vocabulary. -/
def isKnown : CompoundKind → Bool
  | .unknown _ => false
  | _ => true

/-- Classes, structs and interfaces. -/
def isComposite : CompoundKind → Bool
  | .classType => true
  | .struct => true
  | .interface => true
  | _ => false

end CompoundKind

/-- The kind of a member. -/
inductive MemberKind where
  | field | property | method | constructor | destructor | event | typedef | enumValue
  /-- A nested runtime class or a friend. -/
  | nestedClass
  deriving DecidableEq, Repr

/-- Kinds of members that correspond to each other in different sources. -/
inductive MemberFamily where
  | data | callable | constructor | destructor | event | type
  deriving DecidableEq, Repr

namespace MemberKind

/-- The written name of a kind. -/
def name : MemberKind → String
  | .field => "field"
  | .property => "property"
  | .method => "method"
  | .constructor => "constructor"
  | .destructor => "destructor"
  | .event => "event"
  | .typedef => "typedef"
  | .enumValue => "enum_value"
  | .nestedClass => "class"

/-- All kinds. -/
def all : List MemberKind :=
  [.field, .property, .method, .constructor, .destructor, .event, .typedef, .enumValue,
   .nestedClass]

/-- The kind with a written name. -/
def ofName? (text : String) : Option MemberKind :=
  all.find? (·.name == text)

@[simp] theorem ofName?_name (kind : MemberKind) : ofName? kind.name = some kind := by
  cases kind <;> decide

/-- The kinds that correspond to each other; a field of one source is a property of another. -/
def family : MemberKind → MemberFamily
  | .field => .data
  | .property => .data
  | .enumValue => .data
  | .method => .callable
  | .constructor => .constructor
  | .destructor => .destructor
  | .event => .event
  | .typedef => .type
  | .nestedClass => .type

end MemberKind

/-- The language that a compound is written in. -/
inductive Language where
  | cpp | cppCx | objC | cSharp | idl | other
  deriving DecidableEq, Repr

/-- What a compound is besides its kind. -/
structure Traits where
  isDelegate : Bool := false
  isAttribute : Bool := false
  isSealed : Bool := false
  isStatic : Bool := false
  deriving DecidableEq, Repr

/-! ## Folding -/

/-- A word as it is compared: no blanks around it, in lower case. -/
def foldWord (word : String) : String :=
  Text.asciiLowercase (Text.trimmed word)

namespace Language

/-- The written name of a language. -/
def name : Language → String
  | .cpp => "cpp"
  | .cppCx => "cppcx"
  | .objC => "objc"
  | .cSharp => "csharp"
  | .idl => "idl"
  | .other => "other"

/-- The words for the languages. -/
def words : List (String × Language) :=
  [("", .cpp), ("c++", .cpp), ("cpp", .cpp), ("c", .cpp),
   ("c++/cx", .cppCx), ("cppcx", .cppCx), ("cx", .cppCx),
   ("objective-c", .objC), ("objc", .objC), ("objective-c++", .objC),
   ("c#", .cSharp), ("csharp", .cSharp), ("cs", .cSharp),
   ("idl", .idl), ("midl", .idl)]

/-- The language of a word. A word that is missing stands for C++. -/
def ofWord (word : Option String) : Language :=
  match word with
  | none => .cpp
  | some word => (words.lookup (foldWord word)).getD .other

end Language

/-- The words that name pages of documentation, which are no compounds. -/
def pageWords : List String :=
  ["file", "dir", "page", "group", "example"]

/-- The words that native sources have for the kinds. -/
def nativeKindWords : List (String × CompoundKind) :=
  [("namespace", .namespace),
   ("class", .classType), ("friend", .classType), ("category", .classType),
   ("exception", .classType),
   ("struct", .struct), ("union", .struct),
   ("interface", .interface), ("protocol", .interface), ("service", .interface),
   ("singleton", .interface),
   ("enum", .enum), ("function", .function)]

/-- The kind of a native compound; none for a page of documentation. -/
def foldNativeKind? (word : String) : Option CompoundKind :=
  let folded := foldWord word
  if pageWords.contains folded then none
  else some ((nativeKindWords.lookup folded).getD (.unknown folded))

/-- The words that managed sources have for the kinds, with the traits that they imply. -/
def managedKindWords : List (String × CompoundKind × Traits) :=
  [("class", .classType, {}), ("interface", .interface, {}),
   ("struct", .struct, {}), ("valuetype", .struct, {}), ("enum", .enum, {}),
   ("delegate", .classType, { isDelegate := true }),
   ("attribute", .classType, { isAttribute := true }),
   ("namespace", .namespace, {})]

/-- The kind of a managed compound, and the traits that its word implies. -/
def foldManagedKind (word : String) : CompoundKind × Traits :=
  let folded := foldWord word
  (managedKindWords.lookup folded).getD (.unknown folded, {})

namespace MemberKind

/-- The words that native sources have for the kinds of members. -/
def nativeWords : List (String × MemberKind) :=
  [("variable", .field), ("field", .field), ("friend", .nestedClass),
   ("function", .method), ("method", .method), ("signal", .method), ("slot", .method),
   ("prototype", .method), ("dcop", .method),
   ("constructor", .constructor), ("destructor", .destructor),
   ("property", .property), ("event", .event), ("typedef", .typedef), ("using", .typedef),
   ("enumvalue", .enumValue), ("enum_value", .enumValue)]

/-- The kind of a native member; none for a member that is no part of an interface. A field whose
declared type refers to a runtime class is a nested class. -/
def fold? (word rawType : String) : Option MemberKind :=
  (nativeWords.lookup (foldWord word)).map fun kind =>
    if kind = .field && rawType.toList.contains '^' then .nestedClass else kind

/-- The words that managed sources have for the kinds of members. -/
def managedWords : List (String × MemberKind) :=
  [("field", .field), ("property", .property), ("method", .method),
   ("constructor", .constructor), ("event", .event)]

/-- The kind of a managed member; none for a member that is no part of an interface. -/
def foldManaged? (word : String) : Option MemberKind :=
  managedWords.lookup (foldWord word)

end MemberKind

end TypeAtlas
