import TypeAtlas.Proofs.Json.Strings

/-!
# Values that are written and read

A value that is written with one item or member a line is read back, if its numbers are natural
numbers of 64 bits and the reader's stack has room for it.

The reader is followed through a text that goes on behind the value: it turns the state that awaits
a value into the one where the value is done. For the items of an array and the members of an object
this is shown by induction on them, from the same statement about each of them.

The main statement is `Json.parse?_pretty`.
-/

namespace TypeAtlas

open JsonToken (EndsNumber isSpace)

/-! ## Following the reader -/

theorem JsonToken.ofText?_eq (s : List Char) :
    ofText? s = match s.dropWhile isSpace with
      | [] => some []
      | c :: cs => (read? c cs).bind fun (token, rest) => (ofText? rest).map (token :: ·) := by
  rw [ofText?]
  split
  · next h => rw [h]
  · next c cs h =>
    rw [h]
    split
    · next hread => simp [hread]
    · next token rest hread => simp [hread]

namespace JsonReader

/-- The state behind a text. -/
def run? (r : JsonReader) (s : List Char) : Option JsonReader :=
  (JsonToken.ofText? s).bind (·.foldlM step r)

variable {r : JsonReader} {stack : List JsonFrame} {c : Char} {cs rest : List Char}

theorem run?_nil (r : JsonReader) : r.run? [] = some r := by
  rw [run?, JsonToken.ofText?_eq]
  rfl

/-- Spaces are skipped. -/
theorem run?_space (hc : isSpace c) (s : List Char) : r.run? (c :: s) = r.run? s := by
  rw [run?, run?, JsonToken.ofText?_eq, JsonToken.ofText?_eq s, List.dropWhile_cons_of_pos hc]

theorem run?_newLine (level : Nat) (s : List Char) :
    r.run? (Json.newLine level ++ s) = r.run? s := by
  rw [Json.newLine, List.cons_append, run?_space rfl]
  induction 2 * level with
  | zero => rfl
  | succ n ih => rw [List.replicate_succ, List.cons_append, run?_space rfl, ih]

/-- One token is one move. -/
theorem run?_token {token : JsonToken} (hc : isSpace c = false)
    (hread : JsonToken.read? c cs = some (token, rest)) :
    r.run? (c :: cs) = (r.step token).bind (·.run? rest) := by
  rw [run?, JsonToken.ofText?_eq, List.dropWhile_cons_of_neg (by simp [hc])]
  simp only [hread, Option.bind_some]
  cases h : JsonToken.ofText? rest with
  | none => cases r.step token <;> simp [run?, h]
  | some tokens => simp [run?, h, List.foldlM_cons]

/-- Only a closing bracket is a closing bracket. -/
theorem ne_closeBracket {token : JsonToken} (hc : c ≠ ']')
    (hread : JsonToken.read? c cs = some (token, rest)) : token ≠ .closeBracket := by
  rintro rfl
  unfold JsonToken.read? at hread
  split at hread
  · next t ht =>
    obtain rfl : t = .closeBracket := by simp_all
    unfold JsonToken.punctuation? at ht
    split at ht <;> simp_all
  · split at hread
    · simp at hread
    · split at hread <;> simp at hread

/-- The first item of an array is read as its other items are. -/
theorem run?_firstItem (hc : isSpace c = false) (hclose : c ≠ ']') :
    (firstItem stack).run? (c :: cs) = (value (.items [] :: stack)).run? (c :: cs) := by
  cases hread : JsonToken.read? c cs with
  | none =>
    rw [run?, run?, JsonToken.ofText?_eq, List.dropWhile_cons_of_neg (by simp [hc])]
    simp [hread]
  | some found =>
    obtain ⟨token, rest⟩ := found
    rw [run?_token hc hread, run?_token hc hread]
    cases token with
    | closeBracket => exact absurd rfl (ne_closeBracket hclose hread)
    | _ => rfl

/-! ## Scalars -/

theorem read?_quote (text : String) (rest : List Char) :
    JsonToken.read? '"' ((Json.quote text).tail ++ rest) = some (.scalar (.string text), rest) := by
  have htail : (Json.quote text).tail ++ rest
      = text.toList.flatMap Json.escapeChar ++ '"' :: rest := by
    simp [Json.quote]
  rw [htail, JsonToken.read?]
  simp [JsonToken.punctuation?, JsonToken.readString?_escaped]

theorem run?_quote (text : String) (rest : List Char) :
    r.run? (Json.quote text ++ rest)
      = (r.step (.scalar (.string text))).bind (·.run? rest) :=
  run?_token rfl (read?_quote text rest)

/-- The name of a member and its colon. -/
theorem run?_member {members : List (String × Json)} {name : String} {start : JsonReader}
    (hstart : start.step (.scalar (.string name)) = some (.colon members name stack)) :
    start.run? (Json.quote name ++ ':' :: ' ' :: rest)
      = (value (.members members name :: stack)).run? rest := by
  rw [run?_quote, hstart, Option.bind_some, run?_token rfl rfl]
  exact run?_space rfl rest

theorem read?_digit (h : c.isDigit) :
    JsonToken.read? c cs
      = (JsonToken.readNumber? (c :: cs)).map fun (n, rest) => (.scalar (.number n), rest) := by
  have hpunctuation : JsonToken.punctuation? c = none := by
    unfold JsonToken.punctuation?
    split
    case h_7 => rfl
    all_goals simp at h
  have hquote : c ≠ '"' := by
    rintro rfl
    simp at h
  simp [JsonToken.read?, hpunctuation, hquote, h]

theorem isSpace_of_isDigit (h : c.isDigit) : isSpace c = false := by
  rw [Bool.eq_false_iff]
  intro hspace
  simp only [isSpace, Bool.or_eq_true, beq_iff_eq] at hspace
  obtain ((rfl | rfl) | rfl) | rfl := hspace <;> simp at h

/-- The digits of a number are one token. -/
theorem run?_natChars {n : Nat} (h : n < UInt64.size) (hrest : EndsNumber rest) :
    r.run? (Json.natChars n ++ rest) = (r.step (.scalar (.nat n))).bind (·.run? rest) := by
  have hread := JsonToken.readNumber?_natChars h hrest
  cases hn : Json.natChars n with
  | nil => exact absurd hn (JsonToken.natChars_ne_nil n)
  | cons c cs =>
    have hdigit : c.isDigit := JsonToken.isDigit_of_mem_natChars (hn ▸ List.mem_cons_self)
    rw [hn, List.cons_append] at hread
    rw [List.cons_append]
    exact run?_token (isSpace_of_isDigit hdigit) (by rw [read?_digit hdigit, hread]; rfl)

end JsonReader

namespace Json

/-- A value that is read back, with at most `depth` collections inside one another. -/
inductive Readable : Nat → Json → Prop
  | null {depth : Nat} : Readable depth .null
  | bool {depth : Nat} (value : Bool) : Readable depth (.bool value)
  | string {depth : Nat} (text : String) : Readable depth (.string text)
  | nat {depth n : Nat} (h : n < UInt64.size) : Readable depth (.nat n)
  | array {depth : Nat} {items : List Json} (h : ∀ v ∈ items, Readable depth v) :
    Readable (depth + 1) (.array items)
  | object {depth : Nat} {members : List (String × Json)}
    (h : ∀ m ∈ members, Readable depth m.2) : Readable (depth + 1) (.object members)

/-- The first character of a value is none that could be skipped or end an array. -/
theorem Readable.exists_cons {depth : Nat} {v : Json} (h : v.Readable depth) (level : Nat) :
    ∃ c cs, prettyChars level v = c :: cs ∧ isSpace c = false ∧ c ≠ ']' := by
  cases h with
  | null => exact ⟨'n', _, rfl, rfl, by decide⟩
  | bool value => cases value <;> exact ⟨_, _, rfl, rfl, by decide⟩
  | string text => exact ⟨'"', _, rfl, rfl, by decide⟩
  | @nat _ n h =>
    cases hn : natChars n with
    | nil => exact absurd hn (JsonToken.natChars_ne_nil n)
    | cons c cs =>
      have hdigit : c.isDigit := JsonToken.isDigit_of_mem_natChars (hn ▸ List.mem_cons_self)
      refine ⟨c, cs, hn, JsonReader.isSpace_of_isDigit hdigit, ?_⟩
      rintro rfl
      simp at hdigit
  | @array _ items h => cases items <;> exact ⟨'[', _, rfl, rfl, by decide⟩
  | @object _ members h =>
    cases members with
    | nil => exact ⟨'{', _, rfl, rfl, by decide⟩
    | cons m members => exact ⟨'{', _, by rw [prettyChars], rfl, by decide⟩

end Json

namespace JsonReader

open Json (Readable prettyChars prettyItems prettyMembers newLine)

variable {stack : List JsonFrame} {rest : List Char} {level : Nat} {v : Json}

/-! ## Collections -/

/-- That the reader gets from the state that awaits a value to the one where it is done. -/
def ReadsAt (stack : List JsonFrame) (level : Nat) (v : Json) : Prop :=
  ∀ rest, EndsNumber rest →
    (value stack).run? (prettyChars level v ++ rest) = (done v stack).run? rest

theorem endsNumber_prettyItems (items : List Json) :
    EndsNumber (prettyItems level items ++ rest) := by
  cases items <;> simp [prettyItems, EndsNumber, newLine]

theorem endsNumber_prettyMembers (members : List (String × Json)) :
    EndsNumber (prettyMembers level members ++ rest) := by
  cases members <;> simp [prettyMembers, EndsNumber, newLine]

/-- The items behind the first one. -/
theorem run?_prettyItems {items : List Json} {before : List Json}
    (hitems : ∀ v ∈ items, ∀ before, ReadsAt (.items before :: stack) (level + 1) v) :
    (done v (.items before :: stack)).run? (prettyItems level items ++ rest)
      = (done (.array ((v :: before).reverse ++ items)) stack).run? rest := by
  induction items generalizing v before with
  | nil =>
    rw [prettyItems, List.append_assoc, run?_newLine, List.singleton_append, run?_token rfl rfl]
    simp [step, afterValue?]
  | cons w items ih =>
    obtain ⟨hw, hrest⟩ := List.forall_mem_cons.1 hitems
    rw [prettyItems, List.cons_append, run?_token rfl rfl]
    simp only [step, afterValue?, Option.bind_some]
    rw [List.append_assoc, run?_newLine, List.append_assoc, hw _ _ (endsNumber_prettyItems items),
      ih hrest]
    simp

/-- The members behind the first one. -/
theorem run?_prettyMembers {members : List (String × Json)} {before : List (String × Json)}
    {name : String}
    (hmembers : ∀ m ∈ members, ∀ before,
      ReadsAt (.members before m.1 :: stack) (level + 1) m.2) :
    (done v (.members before name :: stack)).run? (prettyMembers level members ++ rest)
      = (done (.object (((name, v) :: before).reverse ++ members)) stack).run? rest := by
  induction members generalizing v name before with
  | nil =>
    rw [prettyMembers, List.append_assoc, run?_newLine, List.singleton_append, run?_token rfl rfl]
    simp [step, afterValue?]
  | cons m members ih =>
    obtain ⟨next, w⟩ := m
    obtain ⟨hw, hrest⟩ := List.forall_mem_cons.1 hmembers
    rw [prettyMembers, List.cons_append, run?_token rfl rfl]
    simp only [step, afterValue?, Option.bind_some]
    rw [List.append_assoc, run?_newLine, List.append_assoc, List.cons_append, List.cons_append,
      run?_member rfl, List.append_assoc, hw _ _ (endsNumber_prettyMembers members), ih hrest]
    simp

theorem readsAt_bool (value : Bool) : ReadsAt stack level (.bool value) := by
  intro rest _
  cases value with
  | false =>
    change run? _ ('f' :: 'a' :: 'l' :: 's' :: 'e' :: rest) = _
    rw [run?_token rfl rfl]
    rfl
  | true =>
    change run? _ ('t' :: 'r' :: 'u' :: 'e' :: rest) = _
    rw [run?_token rfl rfl]
    rfl

/-- An array is read back if its items are and the stack has room for it. -/
theorem readsAt_array {depth : Nat} {items : List Json} (hroom : stack.length < depthLimit)
    (hreadable : ∀ v ∈ items, v.Readable depth)
    (hitems : ∀ v ∈ items, ∀ before, ReadsAt (.items before :: stack) (level + 1) v) :
    ReadsAt stack level (.array items) := by
  have hopen : beginValue? stack .openBracket = some (.firstItem stack) := if_pos hroom
  intro rest _
  cases items with
  | nil =>
    change run? _ ('[' :: ']' :: rest) = _
    rw [run?_token rfl rfl, step, hopen, Option.bind_some, run?_token rfl rfl]
    rfl
  | cons v items =>
    obtain ⟨hv, hrest⟩ := List.forall_mem_cons.1 hitems
    -- in front of its first item an array could end as well
    obtain ⟨c, cs, hcs, hspace, hclose⟩ :=
      (hreadable v List.mem_cons_self).exists_cons (level + 1)
    have hread := hv [] (prettyItems level items ++ rest) (endsNumber_prettyItems items)
    rw [hcs, List.cons_append] at hread
    rw [prettyChars, List.cons_append, run?_token rfl rfl, step, hopen, Option.bind_some,
      List.append_assoc, run?_newLine, List.append_assoc, hcs, List.cons_append,
      run?_firstItem hspace hclose, hread]
    exact run?_prettyItems hrest

/-- An object is read back if its members are and the stack has room for it. -/
theorem readsAt_object {members : List (String × Json)} (hroom : stack.length < depthLimit)
    (hmembers : ∀ m ∈ members, ∀ before,
      ReadsAt (.members before m.1 :: stack) (level + 1) m.2) :
    ReadsAt stack level (.object members) := by
  have hopen : beginValue? stack .openBrace = some (.firstName stack) := if_pos hroom
  intro rest _
  cases members with
  | nil =>
    change run? _ ('{' :: '}' :: rest) = _
    rw [run?_token rfl rfl, step, hopen, Option.bind_some, run?_token rfl rfl]
    rfl
  | cons m members =>
    obtain ⟨name, v⟩ := m
    obtain ⟨hv, hrest⟩ := List.forall_mem_cons.1 hmembers
    have hread := hv [] (prettyMembers level members ++ rest) (endsNumber_prettyMembers members)
    rw [prettyChars, List.cons_append, run?_token rfl rfl, step, hopen, Option.bind_some,
      List.append_assoc, run?_newLine, List.append_assoc, List.cons_append, List.cons_append,
      run?_member rfl, List.append_assoc, hread]
    exact run?_prettyMembers hrest

/-- A value is read back where the stack has room for it. -/
theorem readsAt {depth : Nat} (h : v.Readable depth) (hroom : stack.length + depth ≤ depthLimit) :
    ReadsAt stack level v := by
  induction h generalizing stack level with
  | null =>
    intro rest _
    change run? _ ('n' :: 'u' :: 'l' :: 'l' :: rest) = _
    rw [run?_token rfl rfl]
    rfl
  | bool value => exact readsAt_bool value
  | string text => exact fun rest _ => run?_quote text rest
  | nat h => exact fun rest hrest => run?_natChars h hrest
  | @array depth items h ih =>
    refine readsAt_array (by omega) h fun v hv before => ih v hv ?_
    rw [List.length_cons]
    omega
  | @object depth members h ih =>
    refine readsAt_object (by omega) fun m hm before => ih m hm ?_
    rw [List.length_cons]
    omega

end JsonReader

/-- A value that is written with one item or member a line is read back. -/
theorem Json.parse?_pretty {depth : Nat} {v : Json} (h : v.Readable depth)
    (hroom : depth ≤ JsonReader.depthLimit) : parse? v.pretty = some v := by
  have hread : JsonReader.ReadsAt [] 0 v :=
    JsonReader.readsAt h (by rwa [List.length_nil, Nat.zero_add])
  have hrun := hread [] (by simp [JsonToken.EndsNumber])
  rw [List.append_nil, JsonReader.run?_nil, JsonReader.run?] at hrun
  obtain ⟨tokens, htokens, hfold⟩ := Option.bind_eq_some_iff.1 hrun
  simp only [parse?, pretty, String.toList_ofList, htokens, Option.bind_eq_bind, Option.bind_some,
    hfold]
  rfl

end TypeAtlas
