import Std.Data.TreeMap
import TypeAtlas.Compound.Basic

/-!
# The cache of compounds

The compounds of one source are kept in the order in which they come, one for each id. Once all are
there, what they say about who holds whom is brought together.

## Main definitions

* `CompoundCache` — the compounds kept so far, by position, by id and by name.
* `CompoundCache.insert` — one more compound.
* `CompoundCache.holder?` — the first compound with a name, which stands for all of this name.
* `CompoundCache.attachChildren` — the cache in which parents and children agree.
-/

namespace TypeAtlas

/-- The compounds of one source. -/
structure CompoundCache where
  nodes : List Compound := []
  /-- The position of the compound with each id. -/
  byId : Std.TreeMap String Nat := ∅
  /-- The position of the first compound with each name. -/
  byName : Std.TreeMap String Nat := ∅
  deriving Repr

namespace CompoundCache

/-- Whether there is a compound with an id. -/
def contains (cache : CompoundCache) (id : String) : Bool :=
  cache.byId.contains id

/-- The compound with an id. -/
def get? (cache : CompoundCache) (id : String) : Option Compound :=
  cache.byId[id]?.bind (cache.nodes[·]?)

/-- The cache with one more compound, unless there is one with its id, and whether it is new. -/
def insert (cache : CompoundCache) (c : Compound) : Bool × CompoundCache :=
  if cache.contains c.id then (false, cache)
  else
    let position := cache.nodes.length
    (true,
      { nodes := cache.nodes ++ [c]
        byId := cache.byId.insert c.id position
        byName := cache.byName.insertIfNew c.fullName position })

/-- The cache with several more compounds. -/
def insertAll (cache : CompoundCache) (cs : List Compound) : CompoundCache :=
  cs.foldl (fun cache c => (cache.insert c).2) cache

/-- The number of compounds. -/
def size (cache : CompoundCache) : Nat :=
  cache.nodes.length

/-- The position of the first compound with a name. -/
def holder? (cache : CompoundCache) (fullName : String) : Option Nat :=
  cache.byName[fullName]?

/-! ## Attaching -/

/-- That the compound at a position, of the given name, lists another one as held by it. -/
structure Claim where
  position : Nat
  parent : String
  child : String
  deriving DecidableEq, Repr

/-- All that the compounds list as held by them. -/
def claims (cache : CompoundCache) : List Claim :=
  cache.nodes.zipIdx.flatMap fun (c, position) =>
    c.childNames.map fun child => { position, parent := c.fullName, child }

/-- The cache in which a claim is met, and the number of compounds moved so far. A compound does not
hold itself. -/
def adopt (state : Nat × CompoundCache) (claim : Claim) : Nat × CompoundCache :=
  let (moved, cache) := state
  match cache.holder? claim.child with
  | none => state
  | some held =>
    if held = claim.position then state
    else if (cache.nodes[held]?.bind (·.parentName)) = some claim.parent then state
    else
      (moved + 1,
        { cache with
          nodes := cache.nodes.modify held fun c => { c with parentName := some claim.parent } })

/-- The cache in which the parent of the compound at a position lists it. -/
def list (cache : CompoundCache) (entry : Compound × Nat) : CompoundCache :=
  let (c, position) := entry
  match c.parentName.bind cache.holder? with
  | none => cache
  | some parent =>
    if parent = position then cache
    else { cache with nodes := cache.nodes.modify parent (·.addChild c.fullName) }

/-- The cache in which each compound that another one lists has that one as its parent, the last of
several, and each compound is listed by its parent; and the number of compounds moved. -/
def attachChildren (cache : CompoundCache) : Nat × CompoundCache :=
  let (moved, cache) := cache.claims.foldl adopt (0, cache)
  (moved, cache.nodes.zipIdx.foldl list cache)

end CompoundCache

end TypeAtlas
