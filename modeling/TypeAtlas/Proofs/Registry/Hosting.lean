import TypeAtlas.Proofs.Registry.Gathering
import TypeAtlas.Proofs.Registry.Shadowing
import TypeAtlas.Proofs.Registry.Upgrade

/-!
# Definitions among references

References and definitions of one name may come in any order. From the first definition on the name
leads to one slot, which holds all definitions of the name, merged in their order; before it, it
leads to a placeholder, if to anything. The merged definition is of the kind of the first one. So a
defined name becomes a facade iff its first definition is of an unknown kind, whatever is defined
under the name later.

## Main definitions

* `Registry.definitionsOf` — the definitions in a sequence of acts.
* `Registry.Hosts` — what a name leads to, given what its definitions are merged into.

The main statement is `Registry.isFacade_of_defined`.
-/

namespace TypeAtlas

namespace Registry

variable {r grown : Registry} {id : TypeId} {key : String} {c d : Compound}
  {cs : List Compound} {known : Option Compound}

/-- The definitions in a sequence of acts, in order. -/
def definitionsOf (acts : List Interning) : List Compound :=
  acts.filterMap fun
    | .refer _ => none
    | .define c => some c

@[simp] theorem definitionsOf_refer (acts : List Interning) (reference : String) :
    definitionsOf (acts ++ [.refer reference]) = definitionsOf acts := by
  simp [definitionsOf]

@[simp] theorem definitionsOf_define (acts : List Interning) (c : Compound) :
    definitionsOf (acts ++ [.define c]) = definitionsOf acts ++ [c] := by
  simp [definitionsOf]

theorem mem_definitionsOf {acts : List Interning} :
    c ∈ definitionsOf acts ↔ .define c ∈ acts := by
  simp only [definitionsOf, List.mem_filterMap]
  constructor
  · rintro ⟨_ | c', hact, hc⟩
    · simp at hc
    · obtain rfl := Option.some.inj hc
      exact hact
  · intro h
    exact ⟨_, h, rfl⟩

/-- What a name leads to if `known` is what its definitions are merged into: to that, and before
there are any to nothing but a placeholder. -/
def Hosts (r : Registry) (key : String) (known : Option Compound) : Prop :=
  match known with
  | none => ∀ id, r.names[key]? = some id →
      ∃ slot, r.slot? id = some slot ∧ slot.isPlaceholder = true
  | some d => ∃ id, r.names[key]? = some id ∧
      r.slot? id = some { fullName := key, origin := .compound d }

namespace Hosts

theorem empty (origin : Universe) (settings : RegistrySettings) (parser : DeclarationParser)
    (hkey : key ≠ "") : (Registry.empty origin settings parser).Hosts key none := by
  intro id hid
  simp [Registry.empty, hkey.symm] at hid

/-- A name goes on to lead to what it leads to if it leads to the same slot and this keeps its
content. -/
theorem frame (h : r.Hosts key known) (hnames : grown.names[key]? = r.names[key]?)
    (hslots : ∀ id slot, r.names[key]? = some id → r.slot? id = some slot →
      grown.slot? id = some slot) : grown.Hosts key known := by
  cases known with
  | none =>
    intro id hid
    rw [hnames] at hid
    obtain ⟨slot, hslot, hplaceholder⟩ := h id hid
    exact ⟨slot, hslots id slot hid hslot, hplaceholder⟩
  | some d =>
    obtain ⟨id, hid, hslot⟩ := h
    exact ⟨id, hnames.trans hid, hslots id _ hid hslot⟩

/-- A new slot of another name matters to no name but this. -/
theorem push_other {other : String} {origin : SlotOrigin} (h : r.Hosts key known)
    (hother : other ≠ key) : (r.push other origin).2.Hosts key known :=
  h.frame (by rw [names_push, if_neg hother]) fun _ _ _ hslot => slot?_push_of_some hslot

theorem push (key : String) (d : Compound) :
    (r.push key (.compound d)).2.Hosts key (some d) := by
  refine ⟨⟨r.size⟩, ?_, ?_⟩
  · rw [names_push, if_pos rfl]
  · rw [slot?_push, if_pos rfl]

theorem setOrigin (hr : r.Indexed) (hid : r.names[key]? = some id) (d : Compound) :
    (r.setOrigin id (.compound d)).Hosts key (some d) := by
  obtain ⟨slot, hslot, rfl⟩ := fullName?_eq_some.1 (hr.fullName?_of_names hid)
  refine ⟨id, hid, ?_⟩
  rw [slot?_setOrigin, if_pos rfl, hslot, Option.map_some]

/-- Another content for the slot of another name matters to no name but this. -/
theorem setOrigin_other {other : String} {origin : SlotOrigin} (h : r.Hosts key known)
    (hr : r.Indexed) (hid : r.names[other]? = some id) (hother : other ≠ key) :
    (r.setOrigin id origin).Hosts key known := by
  refine h.frame rfl fun i slot hi hslot => ?_
  have hne : id ≠ i := by
    rintro rfl
    exact hother (Option.some.inj
      ((hr.fullName?_of_names hid).symm.trans (hr.fullName?_of_names hi)))
  rw [slot?_setOrigin, if_neg hne, hslot]

/-! ## One more act -/

theorem refer (h : r.Hosts key known) (reference : String) :
    (r.getOrCreate reference).2.Hosts key known := by
  cases hlookup : r.lookup? reference with
  | some id => rwa [getOrCreate_of_lookup? hlookup]
  | none =>
    rw [getOrCreate_fresh hlookup]
    obtain ⟨-, -, hfresh⟩ := names_keyOf_of_lookup? hlookup
    generalize r.keyOf (Text.trimmed reference) = new at hfresh ⊢
    by_cases heq : new = key
    · subst heq
      cases known with
      | some d =>
        obtain ⟨id, hid, -⟩ := h
        simp [hfresh] at hid
      | none =>
        intro id hid
        obtain rfl : ⟨r.size⟩ = id := by simpa [names_push] using hid
        exact ⟨_, by rw [slot?_push, if_pos rfl], r.isPlaceholder_placeholder new new⟩
    · exact h.push_other heq

/-- A definition of another name matters to no name but this. -/
theorem define_other (h : r.Hosts key known) (hr : r.Indexed)
    (hother : Text.trimmed c.fullName ≠ key) : (r.define c).2.Hosts key known := by
  have hreplace : ∀ id, r.names[Text.trimmed c.fullName]? = some id →
      (r.replacePlaceholder id (Text.trimmed c.fullName) c).2.Hosts key known := by
    intro id hid
    unfold replacePlaceholder
    split
    · exact h.setOrigin_other hr hid hother
    · exact h.push_other hother
  unfold Registry.define
  dsimp only
  split
  · exact h
  · split
    · exact h.push_other hother
    · next id hid =>
      split
      · exact h
      · split
        · exact h.setOrigin_other hr hid hother
        · exact hreplace id hid
        · exact hreplace id hid
        · exact h

/-- The first definition of a name takes the slot of a placeholder over or leaves it behind. -/
theorem define_first (h : r.Hosts key none) (hr : r.Indexed) (hkey : key ≠ "")
    (hc : Text.trimmed c.fullName = key) : (r.define c).2.Hosts key (some c) := by
  subst hc
  cases hid : r.names[Text.trimmed c.fullName]? with
  | none =>
    rw [define_fresh hkey hid]
    exact push _ c
  | some id =>
    obtain ⟨slot, hslot, hplaceholder⟩ := h id hid
    have hdefine : r.define c = r.replacePlaceholder id (Text.trimmed c.fullName) c := by
      unfold Registry.define
      dsimp only
      rw [if_neg hkey, hid]
      dsimp only
      rw [hslot]
      cases horigin : slot.origin <;> simp_all [Slot.isPlaceholder]
    rw [hdefine]
    unfold replacePlaceholder
    split
    · exact setOrigin hr hid c
    · exact push _ c

/-- A later definition of a name is merged with those before it. -/
theorem define_next (h : r.Hosts key (some d)) (hr : r.Indexed) (hkey : key ≠ "")
    (hc : Text.trimmed c.fullName = key) : (r.define c).2.Hosts key (some (merge d c)) := by
  subst hc
  obtain ⟨id, hid, hslot⟩ := h
  rw [define_known hkey hid hslot]
  exact setOrigin hr hid _

theorem define (h : r.Hosts key (gather? (named cs key))) (hr : r.Indexed) (hkey : key ≠ "")
    (c : Compound) : (r.define c).2.Hosts key (gather? (named (cs ++ [c]) key)) := by
  rw [named_concat]
  by_cases hc : Text.trimmed c.fullName = key
  · rw [if_pos hc, gather?_concat]
    cases hgather : gather? (named cs key) with
    | none =>
      rw [hgather] at h
      exact h.define_first hr hkey hc
    | some d =>
      rw [hgather] at h
      exact h.define_next hr hkey hc
  · rw [if_neg hc, List.append_nil]
    exact h.define_other hr hc

end Hosts

/-- Whatever the order of references and definitions, a name leads to all its definitions. -/
theorem hosts_internAll (origin : Universe) (settings : RegistrySettings)
    (parser : DeclarationParser) (acts : List Interning) (hkey : key ≠ "") :
    ((Registry.empty origin settings parser).internAll acts).Hosts key
      (gather? (named (definitionsOf acts) key)) := by
  induction acts using List.reverseRecOn with
  | nil => exact .empty origin settings parser hkey
  | append_singleton acts act ih =>
    have hr := ((Interned.empty origin settings parser).internAll acts).toIndexed
    rw [internAll_concat]
    cases act with
    | refer reference =>
      rw [definitionsOf_refer]
      exact ih.refer reference
    | define c =>
      rw [definitionsOf_define]
      exact ih.define hr hkey c

/-! ## The node of a defined name -/

/-- A defined name has a first definition, and leads to a slot of its kind. -/
theorem exists_first_of_hosts (h : r.Hosts key (gather? (named cs key))) (hc : c ∈ cs)
    (hname : Text.trimmed c.fullName = key) : ∃ first id slot,
      (named cs key).head? = some first ∧ r.names[key]? = some id ∧ r.slot? id = some slot ∧
        slot.kind = first.kind.typeKind := by
  have hmem : c ∈ named cs key := List.mem_filter.2 ⟨hc, by simpa using hname⟩
  cases hgather : gather? (named cs key) with
  | none =>
    rw [gather?_eq_none.1 hgather] at hmem
    simp at hmem
  | some d =>
    obtain ⟨first, hfirst, -, hkind, -⟩ := gather?_eq_some hgather
    rw [hgather] at h
    obtain ⟨id, hid, hslot⟩ := h
    exact ⟨first, id, _, hfirst, hid, hslot, congrArg CompoundKind.typeKind hkind⟩

/-- The node of a name is of the kind of its slot. -/
theorem lookup?_resolve_of_names {slot : Slot} (hid : r.names[key]? = some id)
    (hslot : r.slot? id = some slot) :
    ∃ n, r.resolve.1.lookup? key = some n ∧ n.kind = slot.kind := by
  obtain ⟨n, hn, -, hkind⟩ := get?_resolve_of_slot (r.grows_settle.slot? hslot)
  refine ⟨n, ?_, hkind⟩
  rw [TypeGraph.lookup?, TypeGraph.lookupId?, names_resolve, r.grows_settle.names hid]
  exact hn

theorem typeKind_eq_facade_iff {kind : CompoundKind} :
    kind.typeKind = .facade ↔ kind.isKnown = false := by
  cases kind <;> simp [CompoundKind.typeKind, CompoundKind.isKnown]

/-- Whatever the universe, the settings, the parser and the order of references and definitions, a
defined name leads to a node, and this is of the kind of its first definition. It is a facade iff
this kind is unknown. The empty name is that of the global namespace. -/
theorem isFacade_of_defined (origin : Universe) (settings : RegistrySettings)
    (parser : DeclarationParser) (acts : List Interning) (c : Compound) (hc : .define c ∈ acts) :
    ∃ first n, (named (definitionsOf acts) (Text.trimmed c.fullName)).head? = some first ∧
      ((Registry.empty origin settings parser).internAll acts).resolve.1.lookup?
        (Text.trimmed c.fullName) = some n ∧
      n.kind = (if Text.trimmed c.fullName = "" then .namespace else first.kind.typeKind) ∧
      (n.isFacade = true ↔ Text.trimmed c.fullName ≠ "" ∧ first.kind.isKnown = false) := by
  have hmem := mem_definitionsOf.2 hc
  have hr := ((Interned.empty origin settings parser).internAll acts).toIndexed
  have hhosts := @hosts_internAll (Text.trimmed c.fullName) origin settings parser acts
  generalize (Registry.empty origin settings parser).internAll acts = r at hr hhosts
  by_cases hempty : Text.trimmed c.fullName = ""
  · obtain ⟨n, hn, hkind⟩ := lookup?_resolve_of_names hr.names_empty hr.global
    have hnamed : c ∈ named (definitionsOf acts) "" :=
      List.mem_filter.2 ⟨hmem, by simpa using hempty⟩
    rw [hempty]
    refine ⟨_, n, List.head?_eq_some_head (List.ne_nil_of_mem hnamed), hn, hkind, ?_⟩
    rw [TypeNode.isFacade, hkind]
    simp [Slot.kind]
  · obtain ⟨first, id, slot, hfirst, hid, hslot, hslotKind⟩ :=
      exists_first_of_hosts (hhosts hempty) hmem rfl
    obtain ⟨n, hn, hkind⟩ := lookup?_resolve_of_names hid hslot
    refine ⟨first, n, hfirst, hn, ?_, ?_⟩
    · rw [if_neg hempty, hkind, hslotKind]
    · rw [TypeNode.isFacade, hkind, hslotKind, beq_iff_eq, typeKind_eq_facade_iff]
      simp [hempty]

/-- The class `N` is defined behind a compound `N` of an unknown kind, and its name leads to a
facade. -/
theorem isFacade_of_defined_late :
    let settings := (Settings.ofPreset .standard).registry
    let c := Compound.empty "n" .native "N" .classType
    let acts := [.define (Compound.empty "w" .native "N" (.unknown "weird")), .define c]
    .define c ∈ acts ∧ settings.upgradeFacades = true ∧ c.kind.isKnown = true ∧
      ∃ n, ((Registry.empty .native settings).internAll acts).resolve.1.lookup? "N" = some n ∧
        n.isFacade = true := by
  intro settings c acts
  have hc : .define c ∈ acts := List.mem_cons_of_mem _ List.mem_cons_self
  have hname : Text.trimmed c.fullName = "N" := by decide +kernel
  obtain ⟨first, n, hfirst, hn, -, hfacade⟩ :=
    isFacade_of_defined .native settings .standard acts c hc
  rw [hname] at hfirst hn hfacade
  have hunknown : ((named (definitionsOf acts) "N").head?).map (·.kind.isKnown) = some false := by
    decide +kernel
  rw [hfirst, Option.map_some, Option.some.injEq] at hunknown
  exact ⟨hc, rfl, rfl, n, hn, hfacade.2 ⟨by decide, hunknown⟩⟩

end Registry

end TypeAtlas
