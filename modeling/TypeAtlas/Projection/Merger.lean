import TypeAtlas.Projection.Compose

/-!
# Merging two universes

Pairs of nodes are composed and stored under their names. From a pair on, the children of its two
sides are paired by name and merged in turn, depth first. A pair that lacks a side is completed by
what has its name elsewhere, since the two universes may nest a name at different depths.

## Main definitions

* `Merger` — two universes with the projection made of them so far.
* `Merger.merge` — one pair merged.
* `Merger.mergeNamespaces` — a pair merged with all that lies below it.
* `Merger.project` — the projection of two whole universes.
-/

namespace TypeAtlas

namespace TypeNode

/-- Whether the node is part of a projection. Facades and type parameters are not. -/
def isProjectable (n : TypeNode) : Bool :=
  !n.isFacade && n.kind != .genericParameter

end TypeNode

namespace TypeGraph

/-- The children of a node that are part of a projection. -/
def projectableChildren (g : TypeGraph) (n : TypeNode) : List TypeNode :=
  (n.children.filterMap g.get?).filter (·.isProjectable)

/-- What has a name, anywhere in the universe, and is part of a projection. -/
def counterpart? (g : TypeGraph) (fullName : String) : Option TypeNode :=
  if fullName = "" then none else (g.lookup? fullName).filter (·.isProjectable)

end TypeGraph

namespace Sides

/-- The pairs of children: each child of the managed side with the first child of the native side
that has its name up to letter case and is not yet taken, then the rest of the native side. -/
def pairUp (native : List TypeNode) : List TypeNode → List Sides
  | [] => native.map fun n => { native := some n }
  | m :: rest =>
    match native.find? fun n => sameName n.name m.name with
    | some n =>
      { native := some n, managed := some m }
        :: pairUp (native.eraseP fun n => sameName n.name m.name) rest
    | none => { managed := some m } :: pairUp native rest

end Sides

/-- Two universes with the projection made of them so far. -/
structure Merger where
  settings : ProjectionSettings
  native : TypeGraph
  managed : TypeGraph
  projection : Projection := {}

namespace Merger

/-- A pair that waits to be merged, and the node below which it belongs. -/
structure Task where
  parent : ProjectedId
  sides : Sides

/-- The nodes at two positions. -/
def pair (m : Merger) (native managed : TypeId) : Except AtlasError Sides :=
  match m.native.get? native with
  | none => .error (.invalidAccess native.display "merge (native)")
  | some n =>
    match m.managed.get? managed with
    | none => .error (.invalidAccess managed.display "merge (managed)")
    | some k => .ok { native := some n, managed := some k }

/-- The projected node under the name of the native side, or else of the managed side. -/
def existing? (m : Merger) (sides : Sides) : Option ProjectedType :=
  ((sides.native.map (·.fullName)).bind m.projection.lookup?).or
    ((sides.managed.map (·.fullName)).bind m.projection.lookup?)

/-- The pair in which a missing side is that of the node already projected under the name, else what
has the name of the other side. -/
def complete (m : Merger) (sides : Sides) : Sides :=
  if sides.native.isSome && sides.managed.isSome then sides
  else
    let existing := m.existing? sides
    let native := (sides.native.or
      ((existing.bind (·.native)).bind m.native.get?)).or
      (sides.managed.bind fun k => m.native.counterpart? k.fullName)
    let managed := (sides.managed.or
      ((existing.bind (·.managed)).bind m.managed.get?)).or
      (native.bind fun n => m.managed.counterpart? n.fullName)
    { native, managed }

/-- The merger with one more pair composed and stored, its position, and the pair as completed. -/
def store (m : Merger) (sides : Sides) : ProjectedId × Sides × Merger :=
  let sides := m.complete sides
  let (id, projection) := m.projection.upsert (sides.compose m.settings)
  (id, sides, { m with projection })

/-- The pairs of children below a node. -/
def tasks (m : Merger) (parent : ProjectedId) (sides : Sides) : List Task :=
  let native := (sides.native.map m.native.projectableChildren).getD []
  let managed := (sides.managed.map m.managed.projectableChildren).getD []
  (Sides.pairUp native managed).map fun sides => { parent, sides }

/-- The names of all nodes of both universes. -/
def allNames (m : Merger) : List String :=
  ((m.native.nodes.toList ++ m.managed.nodes.toList).map (·.fullName)).eraseDups

/-- The merger after one waiting pair, the name under which it is stored, and the pairs below it. -/
def step (m : Merger) (task : Task) : String × List Task × Merger :=
  let (child, sides, merger) := m.store task.sides
  let merger := { merger with projection := merger.projection.link task.parent child }
  ((sides.compose m.settings).fullName, merger.tasks child sides, merger)

/-- The merger after the waiting pairs and all below them. What lies below a pair is merged the
first time that its name comes up; `pending` holds the names that have not come up yet. -/
def run (pending : List String) (m : Merger) : List Task → Merger
  | [] => m
  | task :: rest =>
    match m.step task with
    | (name, below, merger) =>
      if name ∈ pending then run (pending.erase name) merger (below ++ rest)
      else run pending merger rest
termination_by rest => (pending.length, rest.length)
decreasing_by
  · next h =>
    have := List.length_erase_of_mem h
    have := List.length_pos_of_mem h
    exact Prod.Lex.left _ _ (by omega)
  · exact Prod.Lex.right _ (by simp)

/-- One more pair merged: the position of the projected node, or the error, and the merger after
this. -/
def merge (m : Merger) (native managed : TypeId) : Except AtlasError ProjectedId × Merger :=
  match m.pair native managed with
  | .error e => (.error e, m)
  | .ok sides =>
    let (id, _, merger) := m.store sides
    (.ok id, merger)

/-- One more pair merged and all that lies below it: the position of the projected node, or the
error, and the merger after this. -/
def mergeNamespaces (m : Merger) (native managed : TypeId) :
    Except AtlasError ProjectedId × Merger :=
  match m.pair native managed with
  | .error e => (.error e, m)
  | .ok sides =>
    let (id, sides, merger) := m.store sides
    let name := (sides.compose m.settings).fullName
    (.ok id, run (m.allNames.erase name) merger (merger.tasks id sides))

/-- The projection of two universes from their global namespaces on. -/
def project (settings : ProjectionSettings) (native managed : TypeGraph) :
    Except AtlasError Projection :=
  let (outcome, merger) := mergeNamespaces { settings, native, managed } .global .global
  outcome.map fun _ => merger.projection

end Merger

end TypeAtlas
