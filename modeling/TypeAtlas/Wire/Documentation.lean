import TypeAtlas.Documentation
import TypeAtlas.Json.Fields

/-!
# The JSON form of documentation

A run carries the name of its case in the member `type`. In an array the name comes first.
-/

namespace TypeAtlas

namespace DocRun

/-- The JSON form of a run. -/
def toJson : DocRun → Json
  | text t => .object [("type", .string "text"), ("text", .string t)]
  | reference target t =>
    .object [("type", .string "ref"), ("target", .string target), ("text", .string t)]
  | link address t =>
    .object [("type", .string "link"), ("url", .string address), ("text", .string t)]

/-- The run of a case whose fields are given by name or in order. -/
def ofCase? (case : String) (fields : Json) : Option DocRun :=
  match case with
  | "text" => do
    let fields ← fields.fields? ["text"]
    return .text (← Json.require? fields "text" Json.string?)
  | "ref" => do
    let fields ← fields.fields? ["target", "text"]
    return .reference (← Json.require? fields "target" Json.string?)
      (← Json.require? fields "text" Json.string?)
  | "link" => do
    let fields ← fields.fields? ["url", "text"]
    return .link (← Json.require? fields "url" Json.string?)
      (← Json.require? fields "text" Json.string?)
  | _ => none

/-- The run that a value is the JSON form of. -/
def ofJson? : Json → Option DocRun
  | .object members => do
    ofCase? (← Json.require? members "type" Json.string?)
      (.object (members.filter (·.1 != "type")))
  | .array (case :: fields) => do ofCase? (← case.string?) (.array fields)
  | _ => none

end DocRun

/-- The JSON form of a paragraph. -/
def Paragraph.toJson (p : Paragraph) : Json :=
  .object [("runs", .ofList DocRun.toJson p.runs)]

/-- The paragraph that a value is the JSON form of. -/
def Paragraph.ofJson? (v : Json) : Option Paragraph := do
  let fields ← v.fields? ["runs"]
  return { runs := ← Json.require? fields "runs" (Json.list? DocRun.ofJson?) }

/-- The JSON form of documentation as a source delivers it. -/
def DocText.toJson (doc : DocText) : Json :=
  .object [("paragraphs", .ofList Paragraph.toJson doc.paragraphs)]

/-- The documentation that a value is the JSON form of. -/
def DocText.ofJson? (v : Json) : Option DocText := do
  let fields ← v.fields? ["paragraphs"]
  return { paragraphs := ← Json.fieldOr? fields "paragraphs" (Json.list? Paragraph.ofJson?) [] }

/-- The JSON form of documentation as a node carries it. -/
def Content.toJson (content : Content) : Json :=
  .object
    [("abstract", .string content.summary),
     ("description", .string content.description),
     ("paragraphs", .ofList Paragraph.toJson content.paragraphs)]

end TypeAtlas
