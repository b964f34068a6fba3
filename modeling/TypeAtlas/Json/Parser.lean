import TypeAtlas.Json.Token

/-!
# Reading JSON

Values are read from tokens by a machine with a stack of the arrays and objects that are still open.
At most 127 of them may be open at a time.

## Main definitions

* `JsonReader`, `JsonReader.step` — the states of the machine, and its moves.
* `Json.parse?` — the value that a text holds.
-/

namespace TypeAtlas

/-- An array or object that is still open, with what it holds so far, newest first. -/
inductive JsonFrame where
  | items (items : List Json)
  | members (members : List (String × Json)) (key : String)
  deriving Repr

/-- A state of the reader. -/
inductive JsonReader where
  /-- A value has to follow. -/
  | value (stack : List JsonFrame)
  /-- An array has just been opened. -/
  | firstItem (stack : List JsonFrame)
  /-- An object has just been opened. -/
  | firstName (stack : List JsonFrame)
  /-- The name of a member has to follow. -/
  | name (members : List (String × Json)) (stack : List JsonFrame)
  /-- The colon behind the name of a member has to follow. -/
  | colon (members : List (String × Json)) (key : String) (stack : List JsonFrame)
  /-- A value has just ended. -/
  | done (value : Json) (stack : List JsonFrame)
  deriving Repr

namespace JsonReader

/-- The number of arrays and objects that may be open at a time. -/
def depthLimit : Nat := 127

/-- The first token of a value. -/
def beginValue? (stack : List JsonFrame) : JsonToken → Option JsonReader
  | .scalar v => some (.done v stack)
  | .openBracket => if stack.length < depthLimit then some (.firstItem stack) else none
  | .openBrace => if stack.length < depthLimit then some (.firstName stack) else none
  | _ => none

/-- The name of a member. -/
def memberName? (members : List (String × Json)) (stack : List JsonFrame) :
    JsonToken → Option JsonReader
  | .scalar (.string key) => some (.colon members key stack)
  | _ => none

/-- The token behind a value. -/
def afterValue? (v : Json) : List JsonFrame → JsonToken → Option JsonReader
  | .items items :: stack, .comma => some (.value (.items (v :: items) :: stack))
  | .items items :: stack, .closeBracket => some (.done (.array (v :: items).reverse) stack)
  | .members members key :: stack, .comma => some (.name ((key, v) :: members) stack)
  | .members members key :: stack, .closeBrace =>
    some (.done (.object ((key, v) :: members).reverse) stack)
  | _, _ => none

/-- The state after one more token. -/
def step : JsonReader → JsonToken → Option JsonReader
  | .value stack, token => beginValue? stack token
  | .firstItem stack, .closeBracket => some (.done (.array []) stack)
  | .firstItem stack, token => beginValue? (.items [] :: stack) token
  | .firstName stack, .closeBrace => some (.done (.object []) stack)
  | .firstName stack, token => memberName? [] stack token
  | .name fields stack, token => memberName? fields stack token
  | .colon fields key stack, .colon => some (.value (.members fields key :: stack))
  | .colon .., _ => none
  | .done v stack, token => afterValue? v stack token

/-- The value that has been read, if it is whole. -/
def result? : JsonReader → Option Json
  | .done v [] => some v
  | _ => none

end JsonReader

/-- The value that a text holds. -/
def Json.parse? (text : String) : Option Json := do
  let tokens ← JsonToken.ofText? text.toList
  (← tokens.foldlM JsonReader.step (.value [])).result?

end TypeAtlas
