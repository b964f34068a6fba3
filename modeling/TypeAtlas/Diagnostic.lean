/-!
# Diagnostics

Anomalies that do not stop a run are collected in the order in which they are met.

## Main definitions

* `Diagnostic`, `Diagnostic.display` — one anomaly, and its text.
* `Diagnostics` — the anomalies of a run.
-/

namespace TypeAtlas

/-- What is wrong. -/
inductive DiagnosticKind where
  /-- A declaration that the grammar does not cover; its text became a name. -/
  | parseAmbiguity
  /-- A name without a definition; a facade stands for it. -/
  | unknownReference
  /-- A question to a node that cannot answer it. -/
  | invalidAccess
  /-- A document that lacks a required part; it was left out. -/
  | malformedInput
  deriving DecidableEq, Repr

namespace DiagnosticKind

/-- The written name of a kind. -/
def name : DiagnosticKind → String
  | parseAmbiguity => "parse_ambiguity"
  | unknownReference => "unknown_reference"
  | invalidAccess => "invalid_access"
  | malformedInput => "malformed_input"

/-- All kinds. -/
def all : List DiagnosticKind :=
  [parseAmbiguity, unknownReference, invalidAccess, malformedInput]

/-- The kind with a written name. -/
def ofName? (text : String) : Option DiagnosticKind :=
  all.find? (·.name == text)

@[simp] theorem ofName?_name (kind : DiagnosticKind) : ofName? kind.name = some kind := by
  cases kind <;> decide

end DiagnosticKind

/-- One anomaly. -/
structure Diagnostic where
  kind : DiagnosticKind
  /-- The name, declaration or document that it is about. -/
  subject : String
  message : String
  deriving DecidableEq, Repr

/-- The text of an anomaly. -/
def Diagnostic.display (d : Diagnostic) : String :=
  "[" ++ d.kind.name ++ "] " ++ d.subject ++ ": " ++ d.message

/-- The anomalies of a run, oldest first. -/
abbrev Diagnostics := List Diagnostic

namespace Diagnostics

/-- The anomalies of one kind. -/
def ofKind (ds : Diagnostics) (kind : DiagnosticKind) : List Diagnostic :=
  ds.filter (·.kind == kind)

/-- The number of anomalies of one kind. -/
def countKind (ds : Diagnostics) (kind : DiagnosticKind) : Nat :=
  (ds.ofKind kind).length

/-- Whether some anomaly of a kind is about `subject`. -/
def mentions (ds : Diagnostics) (kind : DiagnosticKind) (subject : String) : Bool :=
  (ds.ofKind kind).any (·.subject == subject)

end Diagnostics

end TypeAtlas
