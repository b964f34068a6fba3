import TypeAtlas.Declaration.Arguments
import TypeAtlas.Declaration.Descriptor
import TypeAtlas.Text.Search
import TypeAtlas.Text.WordChar

/-!
# The grammar of type declarations

A declaration in normal form is a name, at most two asterisks, at most one question mark, at most
one list of type arguments in angle brackets, any marks and at most one array suffix, in this order.
A text that is not of this form becomes a name as a whole, and its descriptor is ambiguous.

## Main definitions

* `Shape`, `Shape.ofText?` — the parts of a declaration, and how they are found.
* `Descriptor.ofText` — the type that a text in normal form declares.
-/

namespace TypeAtlas

open Text

/-- The parts of a declaration as they are written. -/
structure Shape where
  name : List Char
  asterisks : List Char
  isQueried : Bool
  arguments : Option (List Char)
  marks : List Char
  arrayRank : Nat
  deriving DecidableEq, Repr

namespace Shape

/-- A character that a name may start with. -/
def startsName (c : Char) : Bool :=
  c.isAlpha || c == '_' || c == '$' || c == '@'

/-- A character that a name may go on with. -/
def continuesName (c : Char) : Bool :=
  isWordChar c || c == '$' || c == '@' || c == ' ' || c == '.'

/-- A mark behind a name or its type arguments. -/
def isMark (c : Char) : Bool :=
  c == '*' || c == '&' || c == '^' || c == '%' || c == '?'

/-- The rank of an array suffix, zero for none. -/
def arrayRank? : List Char → Option Nat
  | [] => some 0
  | ['[', ',', ']'] => some 2
  | '[' :: cs => if cs.dropWhile isDecimalDigit = [']'] then some 1 else none
  | _ => none

/-- At most two asterisks at the start of a text, and what follows them. -/
def takeAsterisks : List Char → List Char × List Char
  | '*' :: '*' :: cs => (['*', '*'], cs)
  | '*' :: cs => (['*'], cs)
  | cs => ([], cs)

/-- Whether a text starts with a question mark, and what follows it. -/
def takeQuery : List Char → Bool × List Char
  | '?' :: cs => (true, cs)
  | cs => (false, cs)

/-- The type arguments that a text starts with, and what follows their last closing bracket; none of
this if the text starts otherwise. -/
def takeArguments? : List Char → Option (Option (List Char) × List Char)
  | '<' :: cs => (cutLast? '>' cs).map fun (arguments, rest) => (some arguments, rest)
  | cs => some (none, cs)

/-- The parts of a declaration in normal form. -/
def ofText? (s : List Char) : Option Shape :=
  let name := s.takeWhile continuesName
  if name.head?.any startsName then
    let (asterisks, rest) := takeAsterisks (s.dropWhile continuesName)
    let (isQueried, rest) := takeQuery rest
    match takeArguments? rest with
    | none => none
    | some (arguments, rest) =>
      (arrayRank? (rest.dropWhile isMark)).map fun arrayRank =>
        { name, asterisks, isQueried, arguments, marks := rest.takeWhile isMark, arrayRank }
  else
    none

theorem takeAsterisks_length_le (s : List Char) : (takeAsterisks s).2.length ≤ s.length := by
  unfold takeAsterisks
  split <;> simp only [List.length_cons] <;> omega

theorem takeQuery_length_le (s : List Char) : (takeQuery s).2.length ≤ s.length := by
  unfold takeQuery
  split <;> simp

theorem takeAsterisks_of_ne {s : List Char} (h : s.head? ≠ some '*') :
    takeAsterisks s = ([], s) := by
  unfold takeAsterisks
  split
  · simp at h
  · simp at h
  · rfl

theorem takeQuery_of_ne {s : List Char} (h : s.head? ≠ some '?') : takeQuery s = (false, s) := by
  unfold takeQuery
  split
  · simp at h
  · rfl

theorem takeArguments?_of_ne {s : List Char} (h : s.head? ≠ some '<') :
    takeArguments? s = some (none, s) := by
  unfold takeArguments?
  split
  · simp at h
  · rfl

theorem takeArguments?_length {s a r : List Char} (h : takeArguments? s = some (some a, r)) :
    a.length + 2 ≤ s.length := by
  unfold takeArguments? at h
  split at h
  · next cs =>
    obtain ⟨⟨b, c⟩, hb, heq⟩ := Option.map_eq_some_iff.1 h
    simp only [Prod.mk.injEq, Option.some.injEq] at heq
    obtain ⟨rfl, rfl⟩ := heq
    simp only [eq_of_cutLast? hb, List.length_cons, List.length_append]
    omega
  · simp at h

/-- The type arguments are shorter than the declaration by the name and the two brackets. -/
theorem length_arguments {s : List Char} {shape : Shape} {a : List Char}
    (h : ofText? s = some shape) (ha : shape.arguments = some a) :
    a.length + 3 ≤ s.length := by
  unfold ofText? at h
  dsimp only at h
  split at h
  · next hname =>
    split at h
    · simp at h
    · next b r hb =>
      obtain ⟨rank, -, rfl⟩ := Option.map_eq_some_iff.1 h
      obtain rfl : b = some a := ha
      have h1 := takeArguments?_length hb
      have h2 := takeQuery_length_le (takeAsterisks (s.dropWhile continuesName)).2
      have h3 := takeAsterisks_length_le (s.dropWhile continuesName)
      have h4 : 0 < (s.takeWhile continuesName).length := by
        cases hs : s.takeWhile continuesName with
        | nil => simp [hs] at hname
        | cons c cs => simp
      have h5 := congrArg List.length
        (List.takeWhile_append_dropWhile (p := continuesName) (l := s))
      simp only [List.length_append] at h5
      omega
  · simp at h

end Shape

namespace Descriptor

/-- A dot behind `System` where a capital letter follows it directly. -/
def repairSystem (s : List Char) : List Char :=
  match behind? "System".toList s with
  | some (c :: cs) => if c.isUpper then "System.".toList ++ c :: cs else s
  | _ => s

theorem length_repairSystem_le (s : List Char) : (repairSystem s).length ≤ s.length + 1 := by
  unfold repairSystem
  split
  · next c cs h =>
    have hs := congrArg List.length (behind?_eq_some_iff.1 h)
    have hword : "System".toList.length = 6 := by decide
    have hdotted : "System.".toList.length = 7 := by decide
    rw [List.length_append] at hs
    split
    · rw [List.length_append]
      omega
    · omega
  · omega

/-- The level of a type that a shape describes, without its type arguments. -/
def formOfShape (base : TypeForm) (shape : Shape) : TypeForm :=
  let name := String.ofList (trimWith (· == '.') shape.name)
  let typeName := Name.short name
  let asterisks := shape.asterisks.length + shape.marks.count '*'
  { base with
    typeName
    scope := (Name.split name).1
    fullName := name
    isArray := shape.arrayRank != 0
    arrayRank := shape.arrayRank
    isPointer := asterisks != 0
    pointerDepth := min asterisks 2
    isReference := base.isReference || shape.marks.contains '&' || shape.marks.contains '%'
    isRuntimeClass := shape.marks.contains '^'
    isNullable := shape.isQueried || shape.marks.contains '?'
    isGeneric := shape.arguments.isSome
    isEventToken := typeName == "EventRegistrationToken"
    isEventArgs := "EventArgs".toList.isSuffixOf typeName.toList
    marks := base.marks.union { isComPointer := typeName == "ComPtr" } }

/-- The flag for pointers and the number of asterisks are set together. -/
theorem isPointer_formOfShape (base : TypeForm) (shape : Shape) :
    (formOfShape base shape).isPointer = ((formOfShape base shape).pointerDepth != 0) := by
  rw [Bool.eq_iff_iff]
  simp only [formOfShape, bne_iff_ne]
  omega

/-- The level of a type whose declaration was not understood. -/
def formOfUnknown (base : TypeForm) (s : List Char) : TypeForm :=
  { base with
    typeName := String.ofList s
    scope := ""
    fullName := String.ofList s
    isAmbiguous := !s.isEmpty }

/-- The level from which the descriptor of a type argument starts. -/
def argumentBase (s : List Char) : TypeForm where
  raw := String.ofList s
  isArgument := true

/-- The type that a text in normal form declares; what is known of it before is `base`. -/
def ofText (base : TypeForm) (s : List Char) : Descriptor :=
  match _shape : Shape.ofText? (repairSystem s) with
  | none => { toTypeForm := formOfUnknown base (repairSystem s) }
  | some shape =>
    { toTypeForm := formOfShape base shape
      arguments :=
        match _args : shape.arguments with
        | none => []
        | some args =>
          (Arguments.splitChars args).attach.map fun ⟨piece, _⟩ =>
            ofText (argumentBase piece) piece }
termination_by s.length
decreasing_by
  have h1 := Shape.length_arguments _shape _args
  have h2 := length_repairSystem_le s
  have h3 := Arguments.length_le_of_mem_splitChars (by assumption)
  omega

end Descriptor

end TypeAtlas
