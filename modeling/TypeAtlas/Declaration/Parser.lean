import TypeAtlas.Declaration.Annotation
import TypeAtlas.Declaration.Grammar
import TypeAtlas.Declaration.Keyword
import TypeAtlas.Declaration.Spacing
import TypeAtlas.Diagnostic

/-!
# Reading declarations

A declaration is read in four steps: its annotations and keywords are taken out, its character
references are replaced, the rest is brought into normal form, and the grammar is applied to it.
Reading never fails; what the grammar does not cover becomes a name and is reported.

## Main definitions

* `DeclarationParser` — a reader of declarations with its table of annotations.
* `DeclarationParser.parse` — the type that a declaration declares.
* `DeclarationParser.report` — the anomaly in a declaration, if there is one.
-/

namespace TypeAtlas

/-- A reader of declarations. -/
structure DeclarationParser where
  /-- The annotations that are taken out, in this order. -/
  annotations : List Annotation := Annotation.builtin

namespace DeclarationParser

/-- The reader that knows the usual annotations. -/
def standard : DeclarationParser := {}

/-- The reader that knows further annotations besides the usual ones. -/
def withExtras (extras : List String) : DeclarationParser where
  annotations := Annotation.withExtras extras

/-- The normal form of a declaration, and what is known of the type from the parts taken out. -/
def clean (parser : DeclarationParser) (raw : String) : TypeForm × List Char :=
  let (text, marks) := Annotation.stripAll parser.annotations raw.toList
  let bare := Keyword.strip text
  ({ raw, marks, qualifiers := Keyword.qualifiers text, isReference := Entity.marksReference bare },
    Spacing.normalize (Entity.decode bare))

/-- The type that a declaration declares. -/
def parse (parser : DeclarationParser) (raw : String) : Descriptor :=
  let (base, text) := parser.clean raw
  Descriptor.ofText base text

/-- The report on a declaration that was not understood in all its parts. -/
def report (raw : String) (descriptor : Descriptor) : List Diagnostic :=
  match descriptor.firstAmbiguous? with
  | none => []
  | some culprit =>
    [{ kind := .parseAmbiguity
       subject := raw
       message := "declaration did not match the type grammar; using '" ++ culprit.fullName
         ++ "' as the name" }]

/-- The type that a declaration declares, and the report on it. -/
def parseReporting (parser : DeclarationParser) (raw : String) : Descriptor × List Diagnostic :=
  let descriptor := parser.parse raw
  (descriptor, report raw descriptor)

end DeclarationParser

end TypeAtlas
