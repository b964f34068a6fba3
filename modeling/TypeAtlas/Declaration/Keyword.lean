import TypeAtlas.Declaration.Descriptor
import TypeAtlas.Text.WordChar

/-!
# Keywords and character references

Keywords are whole words of a declaration that are no part of a name. Each gives way to a blank;
five of them leave a qualifier. The character references `&lt;`, `&gt;` and `&#42;` stand for a
character of the declaration, and `&amp;` stands for a mark of a reference type.

## Main definitions

* `Segment.ofText`, `Segment.text` — a text as maximal words and single other characters, and back.
* `Keyword.stripAll` — the text without its keywords, and the qualifiers that they leave.
* `Entity.decode` — the text with its character references replaced.
-/

namespace TypeAtlas

open Text

/-- A maximal word of a text, or a single character between words. -/
inductive Segment where
  | word (cs : List Char)
  | other (c : Char)
  deriving DecidableEq, Repr

namespace Segment

/-- The segments of a text that starts with `c`, given those of the rest. -/
def cons (c : Char) (segments : List Segment) : List Segment :=
  if isWordChar c then
    match segments with
    | .word cs :: rest => .word (c :: cs) :: rest
    | _ => .word [c] :: segments
  else
    .other c :: segments

/-- The segments of a text. -/
def ofText (s : List Char) : List Segment :=
  s.foldr cons []

/-- The characters of a segment. -/
def text : Segment → List Char
  | .word cs => cs
  | .other c => [c]

theorem flatMap_text_cons (c : Char) (segments : List Segment) :
    (cons c segments).flatMap text = c :: segments.flatMap text := by
  unfold cons
  split
  · split <;> simp [text]
  · simp [text]

/-- Nothing is lost by cutting a text into segments. -/
@[simp] theorem flatMap_text_ofText (s : List Char) : (ofText s).flatMap text = s := by
  induction s with
  | nil => rfl
  | cons c cs ih =>
    rw [show ofText (c :: cs) = cons c (ofText cs) from rfl, flatMap_text_cons, ih]

end Segment

/-! ## Keywords -/

/-- A word that is no part of a type name. -/
inductive Keyword where
  | const | readOnly | typename | ref | this
  /-- One of the words that say what kind of type a name is. -/
  | elaborated
  deriving DecidableEq, Repr

namespace Keyword

/-- The keywords as they are written. -/
def table : List (String × Keyword) :=
  [("const", .const), ("readonly", .readOnly), ("typename", .typename), ("ref", .ref),
   ("this", .this), ("class", .elaborated), ("struct", .elaborated), ("enum", .elaborated),
   ("union", .elaborated)]

/-- The keyword that a word is. -/
def ofWord? (word : List Char) : Option Keyword :=
  (table.find? fun (text, _) => text.toList == word).map (·.2)

/-- The keyword that a segment is. -/
def ofSegment? : Segment → Option Keyword
  | .word cs => ofWord? cs
  | .other _ => none

/-- The keywords of a text in order. -/
def all (s : List Char) : List Keyword :=
  (Segment.ofText s).filterMap ofSegment?

/-- The text with a blank for every keyword. -/
def strip (s : List Char) : List Char :=
  (Segment.ofText s).flatMap fun segment =>
    if (ofSegment? segment).isSome then [' '] else segment.text

/-- The qualifiers that the keywords of a text leave. -/
def qualifiers (s : List Char) : Qualifiers where
  isConst := (all s).contains .const
  isReadOnly := (all s).contains .readOnly
  isTypename := (all s).contains .typename
  isRef := (all s).contains .ref
  isThis := (all s).contains .this

end Keyword

/-! ## Character references -/

namespace Entity

/-- Whether a text holds the character reference that marks a reference type. -/
def marksReference (s : List Char) : Bool :=
  occursIn "&amp;".toList s

/-- The text with its character references replaced; a mark of a reference type becomes a blank. -/
def decode (s : List Char) : List Char :=
  let s := replace "&amp;".toList [' '] s
  let s := replace "&lt;".toList ['<'] s
  let s := replace "&gt;".toList ['>'] s
  replace "&#42;".toList ['*'] s

end Entity

end TypeAtlas
