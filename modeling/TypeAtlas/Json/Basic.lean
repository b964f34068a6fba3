/-!
# JSON values

A JSON value keeps the members of an object in the order in which they were written, repeated names
included. Look-up finds the last member of a name.

## Main definitions

* `Json` — a value.
* `Json.field?` — the member of an object.
-/

namespace TypeAtlas

/-- A number: an integer of 64 bits, or anything else that a number may be. -/
inductive JsonNumber where
  | integer (value : Int)
  /-- The value `mantissa * 10 ^ exponent`, below zero if `negative`. -/
  | decimal (negative : Bool) (mantissa : Nat) (exponent : Int)
  deriving DecidableEq, Repr

/-- A JSON value. -/
inductive Json where
  | null
  | bool (value : Bool)
  | number (value : JsonNumber)
  | string (value : String)
  | array (items : List Json)
  | object (members : List (String × Json))
  deriving Repr

namespace Json

instance : Inhabited Json := ⟨.null⟩

/-- A natural number as a value. -/
def nat (n : Nat) : Json :=
  .number (.integer n)

/-- A value or `null`. -/
def ofOption {α : Type} (encode : α → Json) : Option α → Json
  | none => .null
  | some a => encode a

/-- A list of values. -/
def ofList {α : Type} (encode : α → Json) (as : List α) : Json :=
  .array (as.map encode)

/-- A list of strings. -/
def strings (texts : List String) : Json :=
  ofList .string texts

/-- The last of the members with a name. -/
def lastMember? (name : String) (members : List (String × Json)) : Option Json :=
  (members.reverse.find? (·.1 == name)).map (·.2)

/-- The member of an object with a name; other values have none. -/
def field? (v : Json) (name : String) : Option Json :=
  match v with
  | .object members => lastMember? name members
  | _ => none

/-- The text of a string. -/
def string? : Json → Option String
  | .string text => some text
  | _ => none

/-- The truth value. -/
def bool? : Json → Option Bool
  | .bool value => some value
  | _ => none

/-- The natural number. -/
def nat? : Json → Option Nat
  | .number (.integer (.ofNat n)) => some n
  | _ => none

/-- The items of an array. -/
def array? : Json → Option (List Json)
  | .array items => some items
  | _ => none

end Json

end TypeAtlas
