import TypeAtlas.Proofs.Registry.Interning

/-!
# Definitions of one name

A registry that is filled by definitions alone has one slot for each name, and this holds all
definitions of the name, merged in their order: it is of the kind of the first one, and has the
members and the bases of all of them.

## Main definitions

* `Registry.named` — the compounds of a name.
* `Registry.gather?` — the definition that compounds are merged into.

The main statement is `Registry.gathers_defineAll`.
-/

namespace TypeAtlas

namespace Registry

variable {r : Registry} {cs : List Compound} {c d : Compound} {name : String} {id : TypeId}

/-- The compounds of a name, in order. -/
def named (cs : List Compound) (name : String) : List Compound :=
  cs.filter fun c => Text.trimmed c.fullName == name

/-- The definition that compounds are merged into; none if there are none. -/
def gather? : List Compound → Option Compound
  | [] => none
  | c :: cs => some (cs.foldl merge c)

/-! ## Merging -/

theorem mem_unionNames {names more : List String} :
    name ∈ unionNames names more ↔ name ∈ names ∨ name ∈ more :=
  mem_foldl_addName

/-- What compounds are merged into has the name and the kind of the first one. -/
theorem foldl_merge_first (c : Compound) (cs : List Compound) :
    (cs.foldl merge c).fullName = c.fullName ∧ (cs.foldl merge c).kind = c.kind := by
  induction cs generalizing c with
  | nil => exact ⟨rfl, rfl⟩
  | cons d cs ih =>
    rw [List.foldl_cons]
    exact ih (merge c d)

theorem members_foldl_merge (c : Compound) (cs : List Compound) :
    (cs.foldl merge c).members = (c :: cs).flatMap (·.members) := by
  induction cs generalizing c with
  | nil => simp
  | cons d cs ih => simp [ih, merge]

theorem mem_baseNames_foldl_merge (c : Compound) (cs : List Compound) :
    name ∈ (cs.foldl merge c).baseNames ↔ ∃ d ∈ c :: cs, name ∈ d.baseNames := by
  induction cs generalizing c with
  | nil => simp
  | cons d cs ih =>
    rw [List.foldl_cons, ih]
    simp [merge, mem_unionNames, or_assoc]

theorem gather?_concat (cs : List Compound) (c : Compound) :
    gather? (cs ++ [c]) = some ((gather? cs).elim c fun d => merge d c) := by
  cases cs with
  | nil => rfl
  | cons first cs => simp [gather?]

theorem gather?_eq_none : gather? cs = none ↔ cs = [] := by
  cases cs <;> simp [gather?]

/-- All compounds of a name are part of what they are merged into. -/
theorem gather?_eq_some (h : gather? cs = some d) : ∃ first, cs.head? = some first ∧
    d.fullName = first.fullName ∧ d.kind = first.kind ∧
    d.members = cs.flatMap (·.members) ∧
    ∀ name, name ∈ d.baseNames ↔ ∃ c ∈ cs, name ∈ c.baseNames := by
  cases cs with
  | nil => simp [gather?] at h
  | cons first cs =>
    obtain rfl := Option.some.inj h
    obtain ⟨hname, hkind⟩ := foldl_merge_first first cs
    exact ⟨first, rfl, hname, hkind, members_foldl_merge first cs,
      fun name => mem_baseNames_foldl_merge first cs⟩

/-! ## Definitions -/

theorem named_concat (cs : List Compound) (c : Compound) (name : String) :
    named (cs ++ [c]) name =
      named cs name ++ if Text.trimmed c.fullName = name then [c] else [] := by
  unfold named
  rw [List.filter_append]
  split
  · next h => simp [h]
  · next h => simp [h]

/-- What the names of a registry lead to if it holds the definitions `cs`. -/
def Gathers (r : Registry) (cs : List Compound) : Prop :=
  ∀ key : String, key ≠ "" → match gather? (named cs key) with
    | none => r.names[key]? = none
    | some d => ∃ id, r.names[key]? = some id ∧
        r.slot? id = some { fullName := key, origin := .compound d }

theorem gathers_empty (origin : Universe) (settings : RegistrySettings)
    (parser : DeclarationParser) : (Registry.empty origin settings parser).Gathers [] := by
  intro key hkey
  have hne : ¬ "" = key := fun h => hkey h.symm
  simp [named, gather?, Registry.empty, hne]

/-- A definition is merged with the one of its name. -/
theorem define_known (hne : Text.trimmed c.fullName ≠ "")
    (hid : r.names[Text.trimmed c.fullName]? = some id)
    (hslot : r.slot? id = some { fullName := Text.trimmed c.fullName, origin := .compound d }) :
    r.define c = (id, r.setOrigin id (.compound (merge d c))) := by
  unfold define
  dsimp only
  rw [if_neg hne, hid]
  dsimp only
  rw [hslot]

/-- A registry holds one more definition if its name leads to what it is merged into, and all other
names lead to what they led to before. -/
theorem Gathers.concat {r' : Registry} (h : r.Gathers cs)
    (hown : ∃ id, r'.names[Text.trimmed c.fullName]? = some id ∧
      r'.slot? id = some {
        fullName := Text.trimmed c.fullName
        origin := .compound
          ((gather? (named cs (Text.trimmed c.fullName))).elim c fun d => merge d c) })
    (hnames : ∀ key, Text.trimmed c.fullName ≠ key → r'.names[key]? = r.names[key]?)
    (hslots : ∀ id slot, r.slot? id = some slot → slot.fullName ≠ Text.trimmed c.fullName →
      r'.slot? id = some slot) : r'.Gathers (cs ++ [c]) := by
  intro key hkey
  rw [named_concat]
  by_cases heq : Text.trimmed c.fullName = key
  · subst heq
    rw [if_pos rfl, gather?_concat]
    exact hown
  · have hold := h key hkey
    rw [if_neg heq, List.append_nil, hnames key heq]
    cases hfound : gather? (named cs key) with
    | none => rwa [hfound] at hold
    | some d =>
      rw [hfound] at hold
      obtain ⟨id, hid, hslot⟩ := hold
      exact ⟨id, hid, hslots id _ hslot (Ne.symm heq)⟩

/-- One more definition is merged with those of its name and leaves all others as they are. -/
theorem Gathers.define (h : r.Gathers cs) (c : Compound) : (r.define c).2.Gathers (cs ++ [c]) := by
  by_cases hne : Text.trimmed c.fullName = ""
  · have hdefine : r.define c = (.global, r) := by
      unfold Registry.define
      dsimp only
      rw [if_pos hne]
    rw [hdefine]
    intro key hkey
    have hother : ¬ Text.trimmed c.fullName = key := fun heq => hkey (heq.symm.trans hne)
    rw [named_concat, if_neg hother, List.append_nil]
    exact h key hkey
  · have hown := h _ hne
    cases hgather : gather? (named cs (Text.trimmed c.fullName)) with
    | none =>
      rw [hgather] at hown
      rw [define_fresh hne hown]
      refine h.concat ⟨_, by rw [names_push, if_pos rfl], ?_⟩ ?_ fun _ _ hslot _ =>
        slot?_push_of_some hslot
      · rw [slot?_push, if_pos rfl, hgather]
        rfl
      · intro key hother
        rw [names_push, if_neg hother]
    | some d =>
      rw [hgather] at hown
      obtain ⟨id, hid, hslot⟩ := hown
      rw [define_known hne hid hslot]
      refine h.concat ⟨id, by rw [names_setOrigin, hid], ?_⟩ (fun _ _ => rfl) ?_
      · rw [slot?_setOrigin, if_pos rfl, hslot, hgather]
        rfl
      · intro id' slot hslot' hother
        -- The slot carries another name, so it is another one.
        have hslots : id ≠ id' := by
          rintro rfl
          obtain rfl := Option.some.inj (hslot.symm.trans hslot')
          exact hother rfl
        rw [slot?_setOrigin, if_neg hslots, hslot']

/-- In a registry that is filled by definitions alone, each name leads to all definitions of it. -/
theorem gathers_defineAll (origin : Universe) (settings : RegistrySettings)
    (parser : DeclarationParser) (cs : List Compound) :
    ((Registry.empty origin settings parser).defineAll cs).Gathers cs := by
  induction cs using List.reverseRecOn with
  | nil => exact gathers_empty origin settings parser
  | append_singleton cs c ih =>
    rw [defineAll, List.foldl_concat]
    exact ih.define c

end Registry

end TypeAtlas
