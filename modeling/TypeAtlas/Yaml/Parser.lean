import TypeAtlas.Yaml.Layout
import TypeAtlas.Yaml.Reference

/-!
# Reading YAML

Nodes are read from tokens by a machine with a stack of the collections that are still open. A node
of a block collection may be left out, and is an empty scalar then. A text holds one document.

An item of a sequence in brackets is no pair of a key and a value.

## Main definitions

* `YamlReader`, `YamlReader.step?` — the states of the machine, and its moves.
* `Yaml.parse?` — the root node of the document that a text holds.
-/

namespace TypeAtlas

/-- A way to write a sequence. -/
inductive SequenceForm where
  | block
  /-- A block sequence in the column of the key whose value it is, which has no end of its own. -/
  | aligned
  | flow
  deriving DecidableEq, Repr

/-- A collection that is still open, with what it holds so far, newest first. One that has a name
keeps the number of names that were given before it. -/
inductive YamlFrame where
  | sequence (before : Option Nat) (form : SequenceForm) (items : List YamlNode)
  /-- A mapping whose next key is to come. -/
  | keys (before : Option Nat) (isFlow : Bool) (entries : List (YamlNode × YamlNode))
  /-- A mapping in braces whose next key is to come and will have no value. -/
  | loneKey (before : Option Nat) (entries : List (YamlNode × YamlNode))
  /-- A mapping with a key whose value is to come. -/
  | value (before : Option Nat) (isFlow : Bool) (entries : List (YamlNode × YamlNode))
    (key : YamlNode)
  deriving Repr

/-- What a reader expects. -/
inductive YamlPhase where
  /-- The document, or directives in front of it. -/
  | start
  /-- The rest of a node whose name and type have been read, if it has them. -/
  | node (anchor : Option String) (tag : Option String) (isOptional : Bool)
  /-- An element of a flow collection, or its end. -/
  | element
  /-- What follows an element of the innermost collection. -/
  | separator
  /-- The end of the text. -/
  | done (root : YamlNode)
  deriving Repr

/-- A state of the reader. -/
structure YamlReader where
  phase : YamlPhase := .start
  stack : List YamlFrame := []
  anchors : YamlAnchors := {}
  hasVersion : Bool := false
  /-- What the handles of types stand for, as far as directives say. -/
  handles : List (String × String) := []
  deriving Repr

namespace YamlReader

/-! ## Types -/

/-- What the handles of types stand for if no directive says otherwise. -/
def commonHandles : List (String × String) :=
  [("", ""), ("!", "!"), ("!!", "tag:yaml.org,2002:")]

/-- The type that a handle and the rest of a name stand for. -/
def resolveTag? (r : YamlReader) (handle rest : String) : Option String :=
  ((r.handles ++ commonHandles).lookup handle).map (· ++ rest)

/-! ## Nodes that end -/

/-- The state behind a node of the innermost collection. -/
def deliver (r : YamlReader) (node : YamlNode) : YamlReader :=
  match r.stack with
  | [] => { r with phase := .done node }
  | .sequence before form items :: stack =>
    { r with phase := .separator, stack := .sequence before form (node :: items) :: stack }
  | .keys before isFlow entries :: stack =>
    { r with phase := .separator, stack := .value before isFlow entries node :: stack }
  | .loneKey before entries :: stack =>
    { r with
      phase := .separator
      stack := .keys before true ((node, .scalar .empty) :: entries) :: stack }
  | .value before isFlow entries key :: stack =>
    { r with
      phase := .separator
      stack := .keys before isFlow ((key, node) :: entries) :: stack }

/-- The state in which a node may have got a name, and the number of names given before that. -/
def give (r : YamlReader) (anchor : Option String) : Option Nat × YamlReader :=
  match anchor with
  | none => (none, r)
  | some name => (some r.anchors.names.length, { r with anchors := r.anchors.give name })

/-- The state behind a node that may have a name. -/
def finish (r : YamlReader) (before : Option Nat) (node : YamlNode) : YamlReader :=
  match before with
  | none => r.deliver node
  | some n => { r with anchors := r.anchors.finish n node }.deliver node

/-- The state behind a scalar. -/
def finishScalar (r : YamlReader) (anchor : Option String) (value : YamlScalar) : YamlReader :=
  let (before, r) := r.give anchor
  r.finish before (.scalar value)

/-- The state behind the innermost collection. -/
def close? (r : YamlReader) : Option YamlReader :=
  match r.stack with
  | .sequence before _ items :: stack =>
    some ({ r with stack }.finish before (.sequence items.reverse))
  | .keys before _ entries :: stack =>
    some ({ r with stack }.finish before (.mapping entries.reverse))
  | _ => none

/-! ## Nodes that are left out -/

/-- Whether a value of a block mapping is to come. -/
def awaitsBlockValue (r : YamlReader) : Bool :=
  match r.stack with
  | .value _ false _ _ :: _ => true
  | _ => false

/-- Whether the token starts a node or goes on with one; a dash does where it can start a sequence
in the column of its key. -/
def startsNode (r : YamlReader) : YamlToken → Bool
  | .anchor _ | .reference _ | .tag .. | .scalar .. => true
  | .sequenceStart | .mappingStart | .sequenceOpen | .mappingOpen => true
  | .entry => r.awaitsBlockValue
  | _ => false

/-- Supplies an empty scalar for a node that is left out before the token. -/
def settleNode (r : YamlReader) (token : YamlToken) : YamlReader :=
  match r.phase with
  | .node anchor tag true =>
    if r.startsNode token then r else r.finishScalar anchor { YamlScalar.empty with tag }
  | _ => r

/-- Ends a sequence in the column of its key before any token but a dash. -/
def settleSequence? (r : YamlReader) (token : YamlToken) : Option YamlReader :=
  match r.phase, r.stack with
  | .separator, .sequence _ .aligned _ :: _ => if token = .entry then some r else r.close?
  | _, _ => some r

/-- Supplies an empty value to a key before any token but a colon. -/
def settleValue (r : YamlReader) (token : YamlToken) : YamlReader :=
  match r.phase, r.stack with
  | .separator, .value .. :: _ => if token = .value then r else r.deliver (.scalar .empty)
  | _, _ => r

/-! ## Moves -/

/-- The state in which a node is to come. -/
def await (r : YamlReader) (isOptional : Bool) : YamlReader :=
  { r with phase := .node none none isOptional }

/-- The state in a new collection. -/
def enter (r : YamlReader) (anchor : Option String) (frame : Option Nat → YamlFrame)
    (phase : YamlPhase) : YamlReader :=
  let (before, r) := r.give anchor
  { r with phase, stack := frame before :: r.stack }

/-- The move where a node is to come. -/
def readNode? (r : YamlReader) (anchor tag : Option String) : YamlToken → Option YamlReader
  | .anchor name =>
    if anchor.isSome then none else some { r with phase := .node (some name) tag true }
  | .tag handle rest =>
    if tag.isSome then none
    else (r.resolveTag? handle rest).map fun tag => { r with phase := .node anchor (some tag) true }
  | .reference name =>
    if anchor.isSome || tag.isSome then none
    else (r.anchors.number? name).map fun number => r.deliver (.reference number)
  | .scalar style text => some (r.finishScalar anchor { style, text, tag })
  | .sequenceStart => some (r.enter anchor (.sequence · .block []) .separator)
  | .mappingStart => some (r.enter anchor (.keys · false []) .separator)
  | .sequenceOpen => some (r.enter anchor (.sequence · .flow []) .element)
  | .mappingOpen => some (r.enter anchor (.keys · true []) .element)
  | .entry =>
    if r.awaitsBlockValue then
      some (r.enter anchor (.sequence · .aligned []) (.node none none true))
    else
      none
  | _ => none

/-- The move where an element of a flow collection or its end is to come. -/
def readElement? (r : YamlReader) (token : YamlToken) : Option YamlReader :=
  match r.stack, token with
  | .sequence _ .flow _ :: _, .sequenceClose => r.close?
  | .sequence _ .flow _ :: _, token => r.readNode? none none token
  | .keys _ true _ :: _, .mappingClose => r.close?
  | .keys _ true _ :: _, .key => some (r.await true)
  | .keys before true entries :: stack, token =>
    { r with stack := .loneKey before entries :: stack }.readNode? none none token
  | _, _ => none

/-- The move behind an element of the innermost collection. -/
def readSeparator? (r : YamlReader) (token : YamlToken) : Option YamlReader :=
  match r.stack, token with
  | .sequence _ .block _ :: _, .entry => some (r.await true)
  | .sequence _ .block _ :: _, .blockEnd => r.close?
  | .sequence _ .aligned _ :: _, .entry => some (r.await true)
  | .sequence _ .flow _ :: _, .comma => some { r with phase := .element }
  | .sequence _ .flow _ :: _, .sequenceClose => r.close?
  | .keys _ false _ :: _, .key => some (r.await true)
  | .keys _ false _ :: _, .blockEnd => r.close?
  | .keys _ true _ :: _, .comma => some { r with phase := .element }
  | .keys _ true _ :: _, .mappingClose => r.close?
  | .value .. :: _, .value => some (r.await true)
  | _, _ => none

/-- The versions of YAML that are read. -/
def knownVersions : List (Nat × Nat) := [(1, 1), (1, 2)]

/-- The move in front of the document. A document behind directives has a mark at its start. -/
def readStart? (r : YamlReader) : YamlToken → Option YamlReader
  | .version major minor =>
    if r.hasVersion || !knownVersions.contains (major, minor) then none
    else some { r with hasVersion := true }
  | .tagHandle handle expansion =>
    if (r.handles.lookup handle).isSome then none
    else some { r with handles := (handle, expansion) :: r.handles }
  | .documentStart => some (r.await true)
  | token =>
    if r.hasVersion || !r.handles.isEmpty then none
    else (r.await false).readNode? none none token

/-- The state after one more token. -/
def step? (r : YamlReader) (token : YamlToken) : Option YamlReader := do
  let r ← (r.settleNode token).settleSequence? token
  let r := r.settleValue token
  match r.phase with
  | .start => r.readStart? token
  | .node anchor tag _ => r.readNode? anchor tag token
  | .element => r.readElement? token
  | .separator => r.readSeparator? token
  | .done _ => if token = .documentEnd then some r else none

/-- The root node if the document is over, with at most `depth` collections inside one another. -/
def root? (r : YamlReader) (depth : Nat) : Option Yaml :=
  match r.phase with
  | .done root => r.anchors.resolve? depth root
  | _ => none

end YamlReader

namespace Yaml

/-- The root node of the document that a text holds, with at most `depth` collections inside one
another. -/
def parse? (depth : Nat) (text : String) : Option Yaml := do
  guard (text.toList.all isReadable)
  let tokens ← YamlLayout.tokens? { rest := normalizeBreaks text.toList }
  (← tokens.foldlM YamlReader.step? {}).root? depth

end Yaml

end TypeAtlas
