import TypeAtlas.Diagnostic
import TypeAtlas.Json.Fields

/-!
# The JSON form of diagnostics
-/

namespace TypeAtlas

/-- The kind of an anomaly that a value is the JSON form of. -/
def DiagnosticKind.ofJson? (v : Json) : Option DiagnosticKind := do
  DiagnosticKind.ofName? (← v.caseName?)

/-- The JSON form of an anomaly. -/
def Diagnostic.toJson (d : Diagnostic) : Json :=
  .object
    [("kind", .string d.kind.name), ("subject", .string d.subject), ("message", .string d.message)]

/-- The anomaly that a value is the JSON form of. -/
def Diagnostic.ofJson? (v : Json) : Option Diagnostic := do
  let f ← v.fields? ["kind", "subject", "message"]
  return {
    kind := ← Json.require? f "kind" DiagnosticKind.ofJson?
    subject := ← Json.require? f "subject" Json.string?
    message := ← Json.require? f "message" Json.string? }

/-- The JSON form of the anomalies of a run. -/
def Diagnostics.toJson (ds : Diagnostics) : Json :=
  .object [("entries", .ofList Diagnostic.toJson ds)]

end TypeAtlas
