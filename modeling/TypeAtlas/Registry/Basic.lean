import TypeAtlas.Compound.Basic
import TypeAtlas.Declaration.Parser
import TypeAtlas.Graph.Basic
import TypeAtlas.Registry.Primitive
import TypeAtlas.Settings.Basic

/-!
# The registry of a universe

A registry gives each name of a universe a slot in an arena. Names are interned by being referred to
or by being defined; a name that is only referred to gets a facade, or a primitive type if it is
built in, which gives way to a definition that comes later. Slots are never moved, so a position
that has been handed out stays good.

## Main definitions

* `Registry` — the slots, and the names under which they are found.
* `Registry.lookup?` — the slot of a name.
* `Registry.getOrCreate` — the slot of a name, which is made if there is none.
* `Registry.define` — the slot of a compound.
-/

namespace TypeAtlas

/-- What a slot holds. -/
inductive SlotOrigin where
  | globalNamespace
  | compound (c : Compound)
  | primitive
  | facade
  | genericParameter (owner : TypeId) (position : Nat)
  deriving Repr

/-- The kind of thing that a compound becomes. One of an unknown kind stays a facade. -/
def CompoundKind.typeKind : CompoundKind → TypeKind
  | .namespace => .namespace
  | .classType => .classType
  | .struct => .struct
  | .interface => .interface
  | .enum => .enum
  | .function => .function
  | .unknown _ => .facade

/-- A place in the arena. -/
structure Slot where
  fullName : String
  origin : SlotOrigin
  deriving Repr

namespace Slot

/-- The kind of thing that a slot becomes. -/
def kind (slot : Slot) : TypeKind :=
  match slot.origin with
  | .globalNamespace => .namespace
  | .compound c => c.kind.typeKind
  | .primitive => .primitive
  | .facade => .facade
  | .genericParameter .. => .genericParameter

/-- Whether nothing is known of the slot but its name. -/
def isFacade (slot : Slot) : Bool :=
  match slot.origin with
  | .facade => true
  | _ => false

/-- Whether the slot gives way to a definition. -/
def isPlaceholder (slot : Slot) : Bool :=
  match slot.origin with
  | .facade => true
  | .primitive => true
  | _ => false

/-- The compound that a slot holds. -/
def compound? (slot : Slot) : Option Compound :=
  match slot.origin with
  | .compound c => some c
  | _ => none

end Slot

/-- The names of one universe. -/
structure Registry where
  origin : Universe
  settings : RegistrySettings
  parser : DeclarationParser
  slots : Array Slot
  /-- The slot of each name. -/
  names : NameTable
  /-- The slot of the first spelling of each name in lower case. -/
  foldedNames : NameTable

namespace Registry

/-- The registry that knows the global namespace only. -/
def empty (origin : Universe) (settings : RegistrySettings)
    (parser : DeclarationParser := .standard) : Registry where
  origin
  settings
  parser
  slots := #[{ fullName := "", origin := .globalNamespace }]
  names := (∅ : NameTable).insert "" .global
  foldedNames := ∅

/-- The slot at a position. -/
def slot? (r : Registry) (id : TypeId) : Option Slot :=
  r.slots[id.index]?

/-- The number of slots. -/
def size (r : Registry) : Nat :=
  r.slots.size

/-- Whether the registry knows the global namespace only. -/
def isEmpty (r : Registry) : Bool :=
  r.slots.size ≤ 1

/-- The number of slots of which nothing is known but the name. -/
def facadeCount (r : Registry) : Nat :=
  r.slots.toList.countP (·.isFacade)

/-! ## Looking up -/

/-- Whether names are found in any letter case. Only managed names are. -/
def foldsCase (r : Registry) : Bool :=
  r.settings.foldCase && r.origin == .managed

/-- Whether a name is built in. -/
def isBuiltin (r : Registry) (name : String) : Bool :=
  r.settings.recognizePrimitives && Primitive.isName name

/-- The slot of a name as it is written, else of its first spelling in any letter case. A built-in
name stands for itself only. -/
def find? (r : Registry) (name : String) : Option TypeId :=
  match r.names[name]? with
  | some id => some id
  | none =>
    if r.foldsCase && !r.isBuiltin name then r.foldedNames[Text.lowercase name]? else none

/-- The name that a reference is to: that of its type, or the text itself if this has none. -/
def keyOf (r : Registry) (name : String) : String :=
  let parsed := (r.parser.parse name).fullName
  if parsed = "" then name else parsed

/-- The slot that a reference is to: under the text itself, else under the name of its type. -/
def lookup? (r : Registry) (reference : String) : Option TypeId :=
  let name := Text.trimmed reference
  if name = "" then some .global
  else (r.find? name).or (if r.keyOf name = name then none else r.find? (r.keyOf name))

/-! ## Interning -/

/-- Whether the folded name of a slot that is about to be added belongs to another spelling. -/
def foldedNameTaken (r : Registry) (key : String) : Bool :=
  ((r.foldedNames[Text.lowercase key]?).bind r.slot?).any (·.fullName != key)

/-- The registry with one more slot, which takes its name over, and the position of the slot. -/
def push (r : Registry) (key : String) (origin : SlotOrigin) : TypeId × Registry :=
  let id : TypeId := ⟨r.slots.size⟩
  (id,
    { r with
      slots := r.slots.push { fullName := key, origin }
      names := r.names.insert key id
      foldedNames :=
        if r.foldedNameTaken key then r.foldedNames
        else r.foldedNames.insert (Text.lowercase key) id })

/-- The slot that a reference is to. If there is none, one is made for the name of its type. -/
def getOrCreate (r : Registry) (reference : String) : TypeId × Registry :=
  match r.lookup? reference with
  | some id => (id, r)
  | none =>
    let key := r.keyOf (Text.trimmed reference)
    r.push key (if r.isBuiltin key then .primitive else .facade)

/-- A list of names followed by those of another one that it does not hold. -/
def unionNames (names more : List String) : List String :=
  more.foldl addName names

/-- A definition together with a second one of the same name. The first one comes first, and its
documentation and type parameters count if it has any. -/
def merge (known incoming : Compound) : Compound :=
  { known with
    members := known.members ++ incoming.members
    enumValues := known.enumValues ++ incoming.enumValues
    baseNames := unionNames known.baseNames incoming.baseNames
    derivedNames := unionNames known.derivedNames incoming.derivedNames
    childNames := unionNames known.childNames incoming.childNames
    content := if known.content.isEmpty then incoming.content else known.content
    templateParams :=
      if known.templateParams.isEmpty then incoming.templateParams else known.templateParams }

/-- The registry in which a slot holds something else. -/
def setOrigin (r : Registry) (id : TypeId) (origin : SlotOrigin) : Registry :=
  { r with slots := r.slots.modify id.index fun slot => { slot with origin } }

/-- The slot of a compound whose name belongs to a slot that gives way to it: that slot, or a new
one if the settings say so. -/
def replacePlaceholder (r : Registry) (id : TypeId) (key : String) (c : Compound) :
    TypeId × Registry :=
  if r.settings.upgradeFacades then (id, r.setOrigin id (.compound c))
  else r.push key (.compound c)

/-- The slot of a compound. A facade of its name is filled in place, or left behind if the settings
say so; a definition of its name is merged with it. -/
def define (r : Registry) (c : Compound) : TypeId × Registry :=
  let key := Text.trimmed c.fullName
  if key = "" then (.global, r)
  else
    match r.names[key]? with
    | none => r.push key (.compound c)
    | some id =>
      match r.slot? id with
      | none => (id, r)
      | some slot =>
        match slot.origin with
        | .compound known => (id, r.setOrigin id (.compound (merge known c)))
        | .facade => r.replacePlaceholder id key c
        | .primitive => r.replacePlaceholder id key c
        | _ => (id, r)

/-- The registry in which several more compounds are defined. -/
def defineAll (r : Registry) (cs : List Compound) : Registry :=
  cs.foldl (fun r c => (r.define c).2) r

end Registry

end TypeAtlas
