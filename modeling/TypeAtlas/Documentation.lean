import TypeAtlas.Text.Blank

/-!
# Documentation

A source delivers documentation as paragraphs of runs, a brief text and a detailed one. Nodes carry
it folded into a summary, a description and the paragraphs that remain.

## Main definitions

* `DocRun`, `Paragraph`, `DocText` — documentation as a source delivers it.
* `Content` — documentation as a node carries it.
* `Content.ofDoc` — the fold of a brief and a detailed text.
-/

namespace TypeAtlas

open Text

/-- A run of text with the same meaning throughout. -/
inductive DocRun where
  | text (text : String)
  /-- A reference to another documented entity. -/
  | reference (target : String) (text : String)
  /-- A link to a place outside. -/
  | link (address : String) (text : String)
  deriving DecidableEq, Repr

/-- What a reader sees of a run. -/
def DocRun.visibleText : DocRun → String
  | text t => t
  | reference _ t => t
  | link _ t => t

/-- The entity that a run refers to. -/
def DocRun.target? : DocRun → Option String
  | reference target _ => some target
  | _ => none

/-- A paragraph of runs. -/
structure Paragraph where
  runs : List DocRun := []
  deriving DecidableEq, Repr

namespace Paragraph

/-- A paragraph of one run without meaning. -/
def plain (text : String) : Paragraph where
  runs := [.text text]

/-- What a reader sees of a paragraph. -/
def visibleChars (p : Paragraph) : List Char :=
  p.runs.flatMap fun run => run.visibleText.toList

/-- The visible text, its words one space apart. -/
def plainText (p : Paragraph) : String :=
  String.ofList (collapse p.visibleChars)

/-- Whether no run shows anything. -/
def isBlank (p : Paragraph) : Bool :=
  p.runs.all fun run => trimmed run.visibleText == ""

end Paragraph

/-- Documentation as a source delivers it. -/
structure DocText where
  paragraphs : List Paragraph := []
  deriving DecidableEq, Repr

namespace DocText

/-- One paragraph of one run. -/
def plain (text : String) : DocText where
  paragraphs := [.plain text]

/-- Whether no paragraph shows anything. -/
def isBlank (doc : DocText) : Bool :=
  doc.paragraphs.all Paragraph.isBlank

/-- The paragraphs that show something. -/
def nonBlank (doc : DocText) : List Paragraph :=
  doc.paragraphs.filter (!·.isBlank)

end DocText

/-- Documentation as a node carries it. -/
structure Content where
  summary : String := ""
  description : String := ""
  paragraphs : List Paragraph := []
  deriving DecidableEq, Repr

namespace Content

instance : Inhabited Content := ⟨{}⟩

/-- The fold of a brief and a detailed text. The brief text becomes the summary and the first
detailed paragraph the description, which stands in for a summary that is missing. -/
def ofDoc (brief detailed : DocText) : Content :=
  let summary := " ".intercalate (brief.nonBlank.map Paragraph.plainText)
  let description := (detailed.nonBlank.head?.map Paragraph.plainText).getD ""
  let paragraphs := detailed.nonBlank.tail
  if summary = "" then { summary := description, paragraphs } else
    { summary, description, paragraphs }

/-- Whether the documentation says nothing. -/
def isEmpty (content : Content) : Bool :=
  trimmed content.summary == "" && trimmed content.description == ""
    && content.paragraphs.all Paragraph.isBlank

/-- The entities that the paragraphs refer to. -/
def references (content : Content) : List String :=
  (content.paragraphs.flatMap Paragraph.runs).filterMap DocRun.target?

end Content

end TypeAtlas
