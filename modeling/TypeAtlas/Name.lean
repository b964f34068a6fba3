import TypeAtlas.Text.Blank
import TypeAtlas.Text.Lowercase
import TypeAtlas.Text.Search

/-!
# Qualified names

A full name is a chain of segments with a dot between two of them. Sources also write `::` and `+`
for the dot; `canonical` brings a name into the dotted form.

## Main definitions

* `Name.canonical` — the dotted form of a name as a source writes it.
* `Name.short`, `Name.scope?` — the last segment, and what stands before it.
* `Name.qualify` — a name inside a scope.
* `Name.ancestors`, `Name.enclosing` — the scopes around a name, from either end.
* `Name.withoutArity`, `Name.bare` — a name without arity markers, and one without type arguments.
-/

namespace TypeAtlas.Name

open Text

/-! ## Characters -/

/-- A dot for every double colon. -/
def dotted : List Char → List Char
  | ':' :: ':' :: cs => '.' :: dotted cs
  | c :: cs => c :: dotted cs
  | [] => []

/-- The canonical form: no blanks around it, a dot for every separator, no dot at either end. -/
def canonicalChars (s : List Char) : List Char :=
  trimWith (· == '.') ((dotted (trim s)).map fun c => if c = '+' then '.' else c)

/-- What stands before each dot, from the first dot on. -/
def scopesOf : List Char → List (List Char)
  | [] => []
  | c :: cs =>
    let inner := (scopesOf cs).map (c :: ·)
    if c = '.' then [] :: inner else inner

/-- The text without arity markers; `inMarker` says that a marker was left open just before it. -/
def dropMarkers (inMarker : Bool) : List Char → List Char
  | [] => []
  | c :: cs =>
    if c = '\x60' || (inMarker && c.isDigit) then dropMarkers true cs else c :: dropMarkers false cs

/-- The text before the first type argument or parameter list, without blanks around it. -/
def bareChars (s : List Char) : List Char :=
  trim (s.takeWhile fun c => c != '<' && c != '(')

/-! ## Names -/

/-- The dotted form of a name: `Outer::Inner` and `Outer+Inner` become `Outer.Inner`. -/
def canonical (raw : String) : String :=
  String.ofList (canonicalChars raw.toList)

/-- The scope and the last segment; a name without a dot lies in the empty scope. -/
def split (name : String) : String × String :=
  match cutLast? '.' name.toList with
  | some (scope, short) => (String.ofList scope, String.ofList short)
  | none => ("", name)

/-- The last segment. -/
def short (name : String) : String :=
  (split name).2

/-- What stands before the last dot, if there is one. -/
def scope? (name : String) : Option String :=
  (cutLast? '.' name.toList).map fun (scope, _) => String.ofList scope

/-- A name inside a scope; nothing is added inside the empty scope. -/
def qualify (scope name : String) : String :=
  if scope = "" then name else scope ++ "." ++ name

/-- The scopes around a name, outermost first. -/
def ancestors (name : String) : List String :=
  (scopesOf name.toList).map String.ofList

/-- The scopes around a name, innermost first. -/
def enclosing (name : String) : List String :=
  (ancestors name).reverse

/-- A name without its arity markers, a backtick and the digits behind it. -/
def withoutArity (name : String) : String :=
  String.ofList (dropMarkers false name.toList)

/-- A name without its type arguments and parameters. -/
def bare (name : String) : String :=
  String.ofList (bareChars name.toList)

/-! ## Views -/

@[simp] theorem toList_canonical (raw : String) :
    (canonical raw).toList = canonicalChars raw.toList := by
  simp [canonical]

@[simp] theorem toList_withoutArity (name : String) :
    (withoutArity name).toList = dropMarkers false name.toList := by
  simp [withoutArity]

@[simp] theorem toList_bare (name : String) : (bare name).toList = bareChars name.toList := by
  simp [bare]

@[simp] theorem qualify_empty (name : String) : qualify "" name = name := by
  simp [qualify]

/-- Different names stay different inside one scope. -/
theorem qualify_inj {scope a b : String} : qualify scope a = qualify scope b ↔ a = b := by
  unfold qualify
  split
  · rfl
  · rw [String.append_right_inj]

/-- A name is its last segment inside its scope, unless the scope is empty and a dot leads. -/
theorem toList_of_scope? {name scope : String} (h : scope? name = some scope) :
    name.toList = scope.toList ++ '.' :: (short name).toList := by
  unfold scope? at h
  unfold short split
  split
  · next b a hb =>
    rw [hb] at h
    obtain rfl : String.ofList b = scope := by simpa using h
    simpa using eq_of_cutLast? hb
  · next hb => simp [hb] at h

/-- What is put inside a scope without adding a dot of its own is the last segment there. -/
theorem split_qualify (scope : String) {name : String} (h : '.' ∉ name.toList) :
    split (qualify scope name) = (scope, name) := by
  unfold qualify
  split
  · next hscope => rw [split, cutLast?_eq_none h, hscope]
  · have hlist : (scope ++ "." ++ name).toList = scope.toList ++ '.' :: name.toList := by simp
    rw [split, hlist, cutLast?_append _ h]
    simp

theorem short_qualify (scope : String) {name : String} (h : '.' ∉ name.toList) :
    short (qualify scope name) = name := by
  rw [short, split_qualify scope h]

theorem getD_scope? (name : String) : (scope? name).getD "" = (split name).1 := by
  unfold scope? split
  cases cutLast? '.' name.toList <;> rfl

theorem scope?_qualify (scope : String) {name : String} (h : '.' ∉ name.toList) :
    (scope? (qualify scope name)).getD "" = scope := by
  rw [getD_scope?, split_qualify scope h]

/-- A scope is shorter than a name in it, unless both are empty. -/
theorem length_scope?_lt {name : String} (h : name ≠ "") :
    ((scope? name).getD "").length < name.length := by
  cases hscope : scope? name with
  | none => exact Nat.pos_of_ne_zero fun hlength => h (String.length_eq_zero_iff.1 hlength)
  | some scope =>
    have hlength := congrArg List.length (toList_of_scope? hscope)
    rw [List.length_append, List.length_cons, String.length_toList, String.length_toList] at hlength
    rw [Option.getD_some]
    omega

/-- No name lies in itself but the empty one. -/
theorem scope?_ne {name : String} (h : name ≠ "") : (scope? name).getD "" ≠ name := fun heq =>
  Nat.ne_of_lt (length_scope?_lt h) (congrArg String.length heq)

theorem asciiLowercase_qualify (scope : String) {a b : String}
    (h : asciiLowercase a = asciiLowercase b) :
    asciiLowercase (qualify scope a) = asciiLowercase (qualify scope b) := by
  have hmap : a.toList.map Char.toLower = b.toList.map Char.toLower := by
    simpa [asciiLowercase] using congrArg String.toList h
  unfold qualify
  split
  · exact h
  · simp [asciiLowercase, hmap]

end TypeAtlas.Name
