import TypeAtlas.Name

/-!
# Type descriptors

The structured form of one type declaration: a full name with its decorations, and a descriptor for
each type argument. A descriptor is a tree; `TypeForm` is what one of its nodes holds apart from the
arguments.

## Main definitions

* `TypeForm`, `Descriptor` — one level of a type, and a type.
* `Descriptor.named` — the type of an undecorated name.
* `Descriptor.display` — the type written out with its decorations.
* `Descriptor.firstAmbiguous?` — the first part that was not understood.
-/

namespace TypeAtlas

/-- What the annotations of a parameter say about it. -/
structure Marks where
  isIn : Bool := false
  isOut : Bool := false
  isOptional : Bool := false
  isComPointer : Bool := false
  deriving DecidableEq, Repr

/-- All that either of the two says. -/
def Marks.union (a b : Marks) : Marks where
  isIn := a.isIn || b.isIn
  isOut := a.isOut || b.isOut
  isOptional := a.isOptional || b.isOptional
  isComPointer := a.isComPointer || b.isComPointer

/-- The keywords that leave a trace on a type. -/
structure Qualifiers where
  isConst : Bool := false
  isReadOnly : Bool := false
  isTypename : Bool := false
  isRef : Bool := false
  isThis : Bool := false
  deriving DecidableEq, Repr

/-- One level of a type: its name and everything written around the name. -/
structure TypeForm where
  /-- The declaration as it was received. -/
  raw : String := ""
  /-- The last segment of the full name. -/
  typeName : String := ""
  /-- What stands before the last segment. -/
  scope : String := ""
  /-- The name under which the type is known; the whole text where the declaration was not
  understood. -/
  fullName : String := ""
  isArray : Bool := false
  /-- One for `[]` and two for `[,]`. -/
  arrayRank : Nat := 0
  isPointer : Bool := false
  /-- The number of asterisks, of which two at most are told apart. -/
  pointerDepth : Nat := 0
  isReference : Bool := false
  /-- Marked by `^` as a reference to a runtime class. -/
  isRuntimeClass : Bool := false
  isNullable : Bool := false
  isGeneric : Bool := false
  /-- Read as a type argument of another type. -/
  isArgument : Bool := false
  qualifiers : Qualifiers := {}
  marks : Marks := {}
  isEventArgs : Bool := false
  isEventToken : Bool := false
  /-- The declaration was not understood. -/
  isAmbiguous : Bool := false
  deriving DecidableEq, Repr

/-- A type: its outermost level and its type arguments. -/
structure Descriptor extends TypeForm where
  arguments : List Descriptor := []
  deriving Repr

namespace Descriptor

instance : Inhabited Descriptor := ⟨{}⟩

mutual

/-- Equality of descriptors, level by level. -/
def decideEq (a b : Descriptor) : Decidable (a = b) :=
  match a, b with
  | ⟨f, as⟩, ⟨g, bs⟩ =>
    match decEq f g, decideEqList as bs with
    | .isTrue hf, .isTrue ha => .isTrue (by rw [hf, ha])
    | .isFalse hf, _ => .isFalse fun h => hf (by injection h)
    | _, .isFalse ha => .isFalse fun h => ha (by injection h)

/-- Equality of lists of descriptors. -/
def decideEqList (as bs : List Descriptor) : Decidable (as = bs) :=
  match as, bs with
  | [], [] => .isTrue rfl
  | [], _ :: _ => .isFalse nofun
  | _ :: _, [] => .isFalse nofun
  | a :: as, b :: bs =>
    match decideEq a b, decideEqList as bs with
    | .isTrue ha, .isTrue has => .isTrue (by rw [ha, has])
    | .isFalse ha, _ => .isFalse fun h => ha (by injection h)
    | _, .isFalse has => .isFalse fun h => has (by injection h)

end

instance : DecidableEq Descriptor := decideEq

/-- The type of a full name without decorations. -/
def named (fullName : String) : Descriptor where
  raw := fullName
  typeName := Name.short fullName
  scope := (Name.split fullName).1
  fullName := fullName

/-- Whether the type is the absent result. -/
def isVoid (d : Descriptor) : Bool :=
  d.fullName == "void" && d.pointerDepth == 0

/-- Whether there is no type at all. -/
def isEmpty (d : Descriptor) : Bool :=
  d.fullName == ""

/-! ## Written form -/

mutual

/-- The full name followed by the type arguments. -/
def displayName (d : Descriptor) : String :=
  match d with
  | ⟨form, arguments⟩ =>
    match form.isGeneric, arguments with
    | true, a :: as =>
      form.fullName ++ "<" ++ ", ".intercalate (displayNames (a :: as)) ++ ">"
    | _, _ => form.fullName

/-- The names of several types. -/
def displayNames (ds : List Descriptor) : List String :=
  match ds with
  | [] => []
  | d :: ds => displayName d :: displayNames ds

end

/-- The text if the condition holds, and nothing otherwise. -/
def suffixIf (condition : Bool) (text : String) : String :=
  if condition then text else ""

/-- The type written out: its name between `const` and the marks for references, pointers and
arrays. -/
def display (d : Descriptor) : String :=
  suffixIf d.qualifiers.isConst "const " ++ d.displayName
    ++ suffixIf d.isRuntimeClass "^"
    ++ String.ofList (List.replicate d.pointerDepth '*')
    ++ suffixIf d.isReference "&"
    ++ suffixIf d.isNullable "?"
    ++ (match d.arrayRank with
        | 0 => ""
        | 2 => "[,]"
        | _ => "[]")

/-! ## Ambiguity -/

mutual

/-- The first level that was not understood, outer levels before their arguments. -/
def firstAmbiguous? (d : Descriptor) : Option TypeForm :=
  match d with
  | ⟨form, arguments⟩ => if form.isAmbiguous then some form else firstAmbiguousOf? arguments

/-- The first level of several types that was not understood. -/
def firstAmbiguousOf? (ds : List Descriptor) : Option TypeForm :=
  match ds with
  | [] => none
  | d :: ds => (firstAmbiguous? d).or (firstAmbiguousOf? ds)

end

end Descriptor

end TypeAtlas
