/-!
# YAML nodes

A YAML document is a tree of scalars, sequences and mappings. A scalar keeps the way in which it is
written, since only a plain one can stand for something else than its text. The keys of a mapping
are scalars.

## Main definitions

* `ScalarStyle`, `YamlScalar`, `Yaml` — a style, a scalar and a node.
-/

namespace TypeAtlas

/-- A way to write a scalar. -/
inductive ScalarStyle where
  | plain | singleQuoted | doubleQuoted
  /-- A block whose line breaks are kept. -/
  | literal
  /-- A block whose lines are joined. -/
  | folded
  deriving DecidableEq, Repr

/-- A text with the way in which it is written, and the type that its tag gives it. -/
structure YamlScalar where
  style : ScalarStyle
  text : String
  tag : Option String := none
  deriving DecidableEq, Repr

/-- A node of a document. -/
inductive Yaml where
  | scalar (value : YamlScalar)
  | sequence (items : List Yaml)
  | mapping (entries : List (YamlScalar × Yaml))
  deriving Repr

/-- The scalar that stands where nothing is written. -/
def YamlScalar.empty : YamlScalar where
  style := .plain
  text := ""

namespace Yaml

instance : Inhabited Yaml := ⟨.scalar .empty⟩

/-- A word without quotes. -/
def word (text : String) : Yaml :=
  .scalar { style := .plain, text }

/-- The scalar that a node is. -/
def scalar? : Yaml → Option YamlScalar
  | .scalar value => some value
  | _ => none

end Yaml

end TypeAtlas
