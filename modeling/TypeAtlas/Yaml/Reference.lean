import TypeAtlas.Yaml.Basic

/-!
# References

A node can get a name, and a reference with this name can stand in its place. Where a node gets a
name, the name gets a number: that of the different names so far. So a new name gets a number of its
own, while a name that is given again shares its number with the next name. A reference stands for
the last node of the document whose name got the number that the name of the reference has where the
reference stands.

## Main definitions

* `YamlNode` — a node with references in it.
* `YamlAnchors` — the names of nodes, and the nodes that have them.
* `YamlAnchors.resolve?` — the node with what its references stand for.
-/

namespace TypeAtlas

/-- A node in which references stand for others. -/
inductive YamlNode where
  | reference (number : Nat)
  | scalar (value : YamlScalar)
  | sequence (items : List YamlNode)
  | mapping (entries : List (YamlNode × YamlNode))
  deriving Repr

/-- The names of nodes, as far as a document has been read. -/
structure YamlAnchors where
  /-- The names in the order in which nodes got them, the last one first, with their numbers. -/
  names : List (String × Nat) := []
  /-- The nodes whose ends have been read, each with the number of names that were given before its
  own. -/
  nodes : List (Nat × YamlNode) := []
  deriving Repr

namespace YamlAnchors

/-- The names after one more has been given. -/
def give (a : YamlAnchors) (name : String) : YamlAnchors :=
  { a with names := (name, (a.names.map (·.1)).eraseDups.length) :: a.names }

/-- The names after the end of the node whose name was given after so many others. -/
def finish (a : YamlAnchors) (before : Nat) (node : YamlNode) : YamlAnchors :=
  { a with nodes := (before, node) :: a.nodes }

/-- The number that a name has. -/
def number? (a : YamlAnchors) (name : String) : Option Nat :=
  a.names.lookup name

/-- The last node whose name got the number. -/
def find? (a : YamlAnchors) (number : Nat) : Option YamlNode :=
  (a.names.findIdx? (·.2 == number)).bind fun i => a.nodes.lookup (a.names.length - 1 - i)

/-- The node that a node or a reference stands for. -/
def target? (a : YamlAnchors) : YamlNode → Option YamlNode
  | .reference number => a.find? number
  | node => some node

/-- The scalar that a node or a reference stands for. -/
def scalar? (a : YamlAnchors) (node : YamlNode) : Option YamlScalar :=
  match a.target? node with
  | some (.scalar value) => some value
  | _ => none

/-- The node with what its references stand for, if there are at most `depth` collections around
each of its scalars and its keys are scalars. -/
def resolve? (a : YamlAnchors) (depth : Nat) (node : YamlNode) : Option Yaml :=
  match depth, a.target? node with
  | _, some (.scalar value) => some (.scalar value)
  | depth + 1, some (.sequence items) => (items.mapM (a.resolve? depth)).map .sequence
  | depth + 1, some (.mapping entries) =>
    (entries.mapM fun (key, v) => do return (← a.scalar? key, ← a.resolve? depth v)).map .mapping
  | _, _ => none

end YamlAnchors

end TypeAtlas
