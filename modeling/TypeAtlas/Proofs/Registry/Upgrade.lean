import TypeAtlas.Proofs.Registry.Interning

/-!
# Definitions behind references

A reference without a slot gets one under the name that is read in it. A definition that comes
later takes this slot over if it defines that very name. A definition that comes before the
reference is found under the text of the reference as well, and in any letter case where this is
ignored, so that the order of the two matters for a reference that only resembles the name.

## Main definitions

* `Registry.LateDefinition` — what a definition does behind a reference, and before it.

The main statement is `Registry.lateDefinition`.
-/

namespace TypeAtlas

namespace Registry

variable {r : Registry} {reference : String} {c : Compound}

/-- What a definition does behind a reference that has no slot yet, and before it. -/
structure LateDefinition (r : Registry) (reference : String) (c : Compound) : Prop where
  /-- A reference behind the definition leads to it iff it resembles the name. -/
  before : ((r.define c).2.getOrCreate reference).1 = (r.define c).1 ↔
    r.Resembles reference (Text.trimmed c.fullName)
  /-- The definition behind the reference takes its slot over iff the name is read in it. -/
  behind : ((r.getOrCreate reference).2.define c).1 = (r.getOrCreate reference).1 ↔
    r.keyOf (Text.trimmed reference) = Text.trimmed c.fullName
  /-- The slot of the reference holds the definition then, and nothing but its name else. -/
  slot : ((r.getOrCreate reference).2.define c).2.slot? (r.getOrCreate reference).1 =
    some {
      fullName := r.keyOf (Text.trimmed reference)
      origin :=
        if r.keyOf (Text.trimmed reference) = Text.trimmed c.fullName then .compound c
        else r.placeholder (r.keyOf (Text.trimmed reference)) }

theorem getOrCreate_fresh (hnew : r.lookup? reference = none) :
    r.getOrCreate reference = r.push (r.keyOf (Text.trimmed reference))
      (r.placeholder (r.keyOf (Text.trimmed reference))) := by
  unfold getOrCreate placeholder
  rw [hnew]

/-- A definition takes over the slot of a name of which nothing else is known. -/
theorem define_push_placeholder {key : String} (hne : key ≠ "")
    (hkey : Text.trimmed c.fullName = key) (hupgrade : r.settings.upgradeFacades = true) :
    (r.push key (r.placeholder key)).2.define c =
      (⟨r.size⟩, (r.push key (r.placeholder key)).2.setOrigin ⟨r.size⟩ (.compound c)) := by
  have hname : (r.push key (r.placeholder key)).2.names[key]? = some ⟨r.size⟩ := by
    rw [names_push, if_pos rfl]
  have hslot : (r.push key (r.placeholder key)).2.slot? ⟨r.size⟩ =
      some { fullName := key, origin := r.placeholder key } := by
    rw [slot?_push, if_pos rfl]
  have hreplace : (r.push key (r.placeholder key)).2.replacePlaceholder ⟨r.size⟩ key c =
      (⟨r.size⟩, (r.push key (r.placeholder key)).2.setOrigin ⟨r.size⟩ (.compound c)) := by
    unfold replacePlaceholder
    rw [settings_push, if_pos hupgrade]
  unfold define
  dsimp only
  rw [hkey, if_neg hne, hname]
  dsimp only
  rw [hslot]
  dsimp only
  cases hbuiltin : r.isBuiltin key with
  | true => simpa [placeholder, hbuiltin] using hreplace
  | false => simpa [placeholder, hbuiltin] using hreplace

/-- The order of a definition and of a reference to something new matters to the references that
resemble the defined name without being read as it. -/
theorem lateDefinition (hr : r.Indexed) (hupgrade : r.settings.upgradeFacades = true)
    (hfresh : r.names[Text.trimmed c.fullName]? = none) (hnew : r.lookup? reference = none) :
    r.LateDefinition reference c := by
  have hne : Text.trimmed c.fullName ≠ "" := by
    intro hempty
    rw [hempty, hr.names_empty] at hfresh
    simp at hfresh
  obtain ⟨htext, -, hkeyFresh⟩ := names_keyOf_of_lookup? hnew
  have hkeyNe := r.keyOf_ne_empty htext
  have hdefine := define_fresh hne hfresh
  have hrefer := getOrCreate_fresh hnew
  generalize hkey : r.keyOf (Text.trimmed reference) = key at *
  have hbefore : ((r.define c).2.getOrCreate reference).1 = (r.define c).1 ↔
      r.Resembles reference (Text.trimmed c.fullName) := by
    rw [hdefine]
    rcases lookup?_push_of_none _ (.compound c) hnew with ⟨hfound, hresembles⟩ | ⟨hnone, hnot⟩
    · rw [getOrCreate_of_lookup? hfound]
      simpa using hresembles
    · rw [getOrCreate_fresh hnone]
      simpa using hnot
  by_cases heq : key = Text.trimmed c.fullName
  · have hlate := define_push_placeholder hkeyNe heq.symm hupgrade
    refine ⟨hbefore, ?_, ?_⟩
    · rw [hrefer, hkey, hlate]
      simpa using heq
    · rw [hrefer, hkey, hlate, id_push, slot?_setOrigin, slot?_push]
      simp [heq]
  · have hlateFresh :
        (r.push key (r.placeholder key)).2.names[Text.trimmed c.fullName]? = none := by
      rw [names_push, if_neg heq, hfresh]
    have hlate := define_fresh hne hlateFresh
    refine ⟨hbefore, ?_, ?_⟩
    · rw [hrefer, hkey, hlate]
      simpa using heq
    · rw [hrefer, hkey, hlate, id_push, slot?_push, slot?_push]
      simp [heq]

/-! ## A scoped name, and one in another letter case -/

/-- The slot of a reference to `A::Foo` is taken over by the definition of `A.Foo`. -/
theorem lateDefinition_scoped :
    let r := Registry.empty .native (Settings.ofPreset .standard).registry
    let c := Compound.empty "a" .native "A.Foo" .classType
    r.Indexed ∧ r.settings.upgradeFacades = true ∧ r.names[Text.trimmed c.fullName]? = none ∧
      r.lookup? "A::Foo" = none ∧ r.LateDefinition "A::Foo" c ∧
      r.keyOf (Text.trimmed "A::Foo") = Text.trimmed c.fullName := by
  intro r c
  have hr := (Interned.empty .native (Settings.ofPreset .standard).registry .standard).toIndexed
  have hfresh : r.names[Text.trimmed c.fullName]? = none := by decide +kernel
  have hnew : r.lookup? "A::Foo" = none := by decide +kernel
  have hread : r.keyOf (Text.trimmed "A::Foo") = Text.trimmed c.fullName := by decide +kernel
  exact ⟨hr, rfl, hfresh, hnew, lateDefinition hr rfl hfresh hnew, hread⟩

/-- A reference to `foo.widget` leads to the definition of `Foo.Widget` if this comes first, and to
a facade of its own if it comes later. -/
theorem order_of_definition_matters :
    let r := Registry.empty .managed (Settings.ofPreset .standard).registry
    let c := Compound.empty "w" .managed "Foo.Widget" .classType
    r.settings.upgradeFacades = true ∧ r.names[Text.trimmed c.fullName]? = none ∧
      ((r.define c).2.getOrCreate "foo.widget").1 = (r.define c).1 ∧
      r.lookup? "foo.widget" = none ∧
      ((r.getOrCreate "foo.widget").2.slot? (r.getOrCreate "foo.widget").1).any (·.isFacade) ∧
      ((r.getOrCreate "foo.widget").2.define c).1 ≠ (r.getOrCreate "foo.widget").1 ∧
      (((r.getOrCreate "foo.widget").2.define c).2.slot?
        (r.getOrCreate "foo.widget").1).any (·.isFacade) := by
  decide +kernel

end Registry

end TypeAtlas
