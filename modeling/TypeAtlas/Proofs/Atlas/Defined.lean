import TypeAtlas.Proofs.Atlas.Malformed
import TypeAtlas.Proofs.Compound.Keeping
import TypeAtlas.Proofs.Declaration.Identifiers
import TypeAtlas.Proofs.Registry.Referring

/-!
# Defined types

A native record is known by its name with dots, and a reference that is spelled as the name of the
record is read as the same name. In a run with the standard settings, such a reference in a class
therefore leads to the node of the record, unless a scope around the reference has the name as well.
The exception is a name that starts with `System` and a capital letter: references to it are read
with a dot behind `System`, and lead to a facade.

## Main definitions

* `Atlas.kept`, `Atlas.Keeps` — the compounds that a run keeps, and the records that they are of.
* `Atlas.NodeOf` — the node of a compound that is kept.
* `NativeRecord.RefersTo` — all references of a record that are spelled as a name lead to a node.

The main statement is `Atlas.resolves_build`.
-/

namespace TypeAtlas

open Outcome NativeRecord

/-! ## References that are spelled as a name -/

/-- If a parameter is declared with a name, and nothing but annotations and keywords in front of it,
it is bound to a node. -/
structure NativeParamRecord.RefersTo (parser : DeclarationParser) (chain : IdentifierChain)
    (id : TypeId) (r : NativeParamRecord) (b : BoundParameter) : Prop where
  name : b.name = Text.trimmed r.name
  target : r.rawType = chain.written → parser.Discards r.decoration →
    b.declaredType.target = some id

/-- Whether a native member has the type that its record declares. -/
def MemberKind.isTyped : MemberKind → Bool
  | .constructor => false
  | .destructor => false
  | .enumValue => false
  | _ => true

/-- The type and the parameters of a member that is read as one of a kind are bound to a node where
they are declared with a name. -/
structure NativeMemberRecord.RefersTo (parser : DeclarationParser) (chain : IdentifierChain)
    (id : TypeId) (m : NativeMemberRecord × MemberKind) (b : BoundMember) : Prop where
  name : b.name = Text.trimmed m.1.name
  kind : b.kind = m.2
  target : m.1.rawType = chain.written → m.2.isTyped = true → b.declaredType.target = some id
  parameters : List.Forall₂ (NativeParamRecord.RefersTo parser chain id)
    (m.1.params.filter (!·.isVoid)) b.parameters

/-- The bases and the members of a record with the compound `c` are bound to a node where they are
spelled as a name. The node of the record may have members of other records of its name around
them. -/
structure NativeRecord.RefersTo (parser : DeclarationParser) (chain : IdentifierChain)
    (id : TypeId) (r : NativeRecord) (c : Compound) (n : TypeNode) : Prop where
  bases : chain.written ∈ r.baseNames → id ≠ n.id →
    ∃ bases, n.baseTypes? = some bases ∧ id ∈ bases
  members : ∃ before own after, n.members? = some (before ++ own ++ after) ∧
    List.Forall₂ (NativeMemberRecord.RefersTo parser chain id) (ownMembers c r.members) own

section Reading

variable {parser : DeclarationParser} {chain : IdentifierChain} {id : TypeId}

theorem NativeMemberRecord.typeIn_of_isTyped {kind : MemberKind} (h : kind.isTyped = true)
    (c : Compound) (r : NativeMemberRecord) :
    (r.typeIn parser c kind).1 = parser.parse r.rawType := by
  cases kind <;> first | rfl | contradiction

theorem NativeParamRecord.refersTo (hparser : parser.annotations.all Annotation.leavesNames = true)
    (hchain : ¬ chain.IsRepaired) {r : NativeParamRecord} {b : BoundParameter}
    (h : (r.build parser).1.RefersTo chain.dotted id b) : r.RefersTo parser chain id b where
  name := h.name
  target hspelled hdiscards := by
    apply h.target
    have hread := chain.fullName_parse_behind hparser hchain r.isOpen_decoration hdiscards
    rw [← declaration_eq hspelled] at hread
    exact hread

theorem NativeMemberRecord.refersTo
    (hparser : parser.annotations.all Annotation.leavesNames = true) (hchain : ¬ chain.IsRepaired)
    {c : Compound} {m : NativeMemberRecord × MemberKind} {b : BoundMember}
    (h : (m.1.memberIn parser c m.2).RefersTo chain.dotted id b) :
    NativeMemberRecord.RefersTo parser chain id m b where
  name := h.name
  kind := h.kind
  target hspelled htyped := by
    apply h.target
    have hread := chain.fullName_parse_written hparser hchain
    rw [← hspelled, ← typeIn_of_isTyped htyped c] at hread
    exact hread
  parameters := by
    have hparams := h.parameters
    unfold memberIn at hparams
    rw [List.forall₂_map_left_iff] at hparams
    exact hparams.imp fun p b hp => NativeParamRecord.refersTo hparser hchain hp

/-- Two lists that are related are cut at the same place. -/
theorem forall₂_append_left {α β : Type} {R : α → β → Prop} {xs ys : List α} {bs : List β}
    (h : List.Forall₂ R (xs ++ ys) bs) :
    ∃ front back, bs = front ++ back ∧ List.Forall₂ R xs front ∧ List.Forall₂ R ys back :=
  ⟨bs.take xs.length, bs.drop xs.length, (List.take_append_drop _ _).symm,
    (List.forall₂_take_append bs xs ys h.flip).flip,
    (List.forall₂_drop_append bs xs ys h.flip).flip⟩

/-- What compounds are merged into refers to a node for each of them. -/
theorem NativeRecord.refersTo (hparser : parser.annotations.all Annotation.leavesNames = true)
    (hchain : ¬ chain.IsRepaired) {r : NativeRecord} {c d : Compound} {n : TypeNode}
    (hc : r.Owns parser c) (hcomposite : c.kind.isComposite = true)
    (hbases : ∀ base ∈ c.baseNames, base ∈ d.baseNames)
    (hmembers : ∃ before after, d.members = before ++ c.members ++ after)
    (h : d.RefersTo parser chain.dotted id n) : r.RefersTo parser chain id c n where
  bases hspelled hne := by
    apply h.bases ⟨chain.written, hbases _ ?_, chain.fullName_parse_written hparser hchain⟩ hne
    rw [hc.baseNames, nonBlankNames, List.mem_filter, List.mem_map]
    refine ⟨⟨chain.written, hspelled, chain.trimmed_written⟩, ?_⟩
    rw [bne_iff_ne]
    exact chain.written_ne_empty
  members := by
    obtain ⟨members, hn, hrefers⟩ := h.members
    obtain ⟨before, after, hd⟩ := hmembers
    rw [hd] at hrefers
    obtain ⟨front, back, rfl, hfront, -⟩ := forall₂_append_left hrefers
    obtain ⟨front, own, rfl, -, hown⟩ := forall₂_append_left hfront
    refine ⟨front, own, back, hn, ?_⟩
    rw [hc.members hcomposite, readMembers, List.forall₂_map_left_iff] at hown
    exact hown.imp fun m b hm => NativeMemberRecord.refersTo hparser hchain hm

end Reading

/-! ## Slots of compounds -/

namespace Registry

variable {r : Registry} {cs ds : List Compound} {c d : Compound} {id : TypeId}

/-- The slot of a compound holds what all compounds of its name are merged into. -/
structure Holds (r : Registry) (cs : List Compound) (c : Compound) (id : TypeId) (d : Compound) :
    Prop where
  name : r.names[Text.trimmed c.fullName]? = some id
  definition : (id, d) ∈ r.definitions
  kind : ∃ first, (named cs (Text.trimmed c.fullName)).head? = some first ∧ d.kind = first.kind
  bases : ∀ base ∈ c.baseNames, base ∈ d.baseNames
  members : ∃ before after, d.members = before ++ c.members ++ after

/-- It does so even if the links of the compounds have changed before they were defined. -/
theorem Gathers.holds (h : r.Gathers ds)
    (hlinks : ds.map Compound.unlinked = cs.map Compound.unlinked) (hc : c ∈ cs)
    (hname : Text.trimmed c.fullName ≠ "") : ∃ id d, r.Holds cs c id d := by
  have hmem : c ∈ named cs (Text.trimmed c.fullName) := by simp [named, hc]
  obtain ⟨before, after, hsplit⟩ := List.append_of_mem hmem
  have hslot := h _ hname
  have hsame := gather?_congr hlinks (Text.trimmed c.fullName)
  cases hgather : gather? (named cs (Text.trimmed c.fullName)) with
  | none =>
    rw [gather?_eq_none] at hgather
    simp [hgather] at hmem
  | some known =>
    rw [hgather, Option.map_some, Option.map_eq_some_iff] at hsame
    obtain ⟨d, hd, hunlinked⟩ := hsame
    rw [hd] at hslot
    obtain ⟨id, hid, hslot⟩ := hslot
    obtain ⟨first, hfirst, -, hkind, hmembers, hbases⟩ := gather?_eq_some hgather
    refine ⟨id, d, hid, mem_definitions.2 ⟨_, hslot, rfl⟩, ⟨first, hfirst, ?_⟩, ?_, ?_⟩
    · exact (congrArg Compound.kind hunlinked).trans hkind
    · intro base hbase
      have hknown : base ∈ known.baseNames := (hbases base).2 ⟨c, hmem, hbase⟩
      change base ∈ d.unlinked.baseNames
      rw [hunlinked]
      exact hknown
    · refine ⟨before.flatMap (·.members), after.flatMap (·.members), ?_⟩
      rw [hsplit, List.flatMap_append, List.flatMap_cons, ← List.append_assoc] at hmembers
      exact (congrArg Compound.members hunlinked).trans hmembers

end Registry

/-! ## Compounds that a run keeps -/

namespace Atlas

variable {parser : DeclarationParser} {native : List NativeRecord} {managed : List ManagedRecord}
  {r : NativeRecord} {c : Compound} {a : Atlas}

/-- The compounds of native records that a run keeps. -/
def kept (parser : DeclarationParser) (native : List NativeRecord) : List Compound :=
  (({} : CompoundCache).insertAll (compounds (·.id) (·.outcome parser) native)).nodes

/-- A record with a compound of its own that a run keeps: the records in front of it have none with
its identifier. -/
structure Keeps (parser : DeclarationParser) (native : List NativeRecord) (r : NativeRecord)
    (c : Compound) : Prop where
  own : ∃ nested reports, r.build parser = .ok (c :: nested, reports)
  first : ∃ before after, native = before ++ r :: after ∧
    ∀ b ∈ compounds (·.id) (·.outcome parser) before, b.id ≠ r.id

theorem Keeps.owns (h : Keeps parser native r c) : r.Owns parser c := by
  obtain ⟨nested, reports, hbuild⟩ := h.own
  exact owns_of_build hbuild

theorem Keeps.mem (h : Keeps parser native r c) : c ∈ kept parser native := by
  obtain ⟨nested, reports, hbuild⟩ := h.own
  obtain ⟨before, after, rfl, hfirst⟩ := h.first
  have hcompounds : compounds (·.id) (·.outcome parser) (before ++ r :: after) =
      compounds (·.id) (·.outcome parser) before ++
        c :: (nested ++ compounds (·.id) (·.outcome parser) after) := by
    have hown : ((r.outcome parser).harvest r.id).1 = c :: nested := by
      rw [NativeRecord.outcome, hbuild]
      rfl
    unfold compounds
    rw [List.flatMap_append, List.flatMap_cons, hown, List.cons_append]
  unfold kept
  rw [hcompounds]
  apply CompoundCache.mem_insertAll
  rw [h.owns.id]
  exact hfirst

/-- The node of a compound: that of its name, which is of the kind of the first compound that has
the name. It is a facade only if this kind is unknown. -/
structure NodeOf (g : TypeGraph) (cs : List Compound) (c : Compound) (n : TypeNode) : Prop where
  name : g.names[Text.trimmed c.fullName]? = some n.id
  node : g.get? n.id = some n
  kind : ∃ first, (Registry.named cs (Text.trimmed c.fullName)).head? = some first ∧
    n.kind = first.kind.typeKind ∧ n.isFacade = !first.kind.isKnown

/-- What a run that goes on makes of its native records: a registry in which each compound that is
kept has a slot. -/
theorem holds_of_build (h : build (.ofPreset .standard) native managed = .ok a) :
    ∃ registry : Registry, a.native = registry.resolve.1 ∧ registry.Interned ∧
      registry.parser = .standard ∧ ∀ c ∈ kept .standard native, Text.trimmed c.fullName ≠ "" →
        ∃ id d, registry.Holds (kept .standard native) c id d := by
  obtain ⟨registry, -, hregistry, -, hnative, -⟩ := build_registries h
  have hinterned := interned_registryOfNative hregistry
  have hparser : DeclarationParser.withExtras
      (Settings.ofPreset .standard).parser.extraAnnotations = .standard := rfl
  have hgoes : (Settings.ofPreset .standard).failOnMalformed = false := rfl
  unfold registryOfNative? at hregistry
  dsimp only at hregistry
  rw [hparser, hgoes, nativeCompounds_false] at hregistry
  obtain rfl := Option.some.inj hregistry
  refine ⟨_, hnative, hinterned, Registry.parser_defineAll _ _, ?_⟩
  intro c hc hname
  exact (Registry.gathers_defineAll _ _ _ _).holds
    (CompoundCache.unlinked_attachChildren _) hc hname

/-- A compound that has a slot has a node. -/
theorem nodeOf_of_holds {registry : Registry} {cs : List Compound} {id : TypeId} {d : Compound}
    (h : registry.Holds cs c id d) :
    ∃ n, NodeOf registry.resolve.1 cs c n ∧ n.id = id ∧ n.kind = d.kind.typeKind := by
  obtain ⟨slot, hslot, hd⟩ := Registry.mem_definitions.1 h.definition
  obtain ⟨n, hn, rfl, hkind⟩ :=
    Registry.get?_resolve_of_slot (registry.grows_settle.slot? hslot)
  obtain ⟨first, hfirst, hsame⟩ := h.kind
  have hdefinition : slot.kind = d.kind.typeKind := by
    unfold Slot.kind
    cases horigin : slot.origin <;> simp_all [Slot.compound?]
  have hfirstKind : n.kind = first.kind.typeKind := by rw [hkind, hdefinition, hsame]
  refine ⟨n, ⟨?_, hn, first, hfirst, hfirstKind, ?_⟩, rfl, hkind.trans hdefinition⟩
  · rw [Registry.names_resolve]
    exact registry.grows_settle.names h.name
  · rw [TypeNode.isFacade, hfirstKind]
    cases first.kind <;> rfl

/-- A record is known by its name with dots. -/
theorem fullName_of_owns {chain : IdentifierChain} (h : r.Owns parser c)
    (hname : r.name = some chain.written) : c.fullName = chain.dotted := by
  obtain ⟨rawName, hraw, hfull⟩ := h.fullName
  have hwritten : r.rawName? = .ok chain.written := by
    rw [rawName?, hname, Option.map_some, chain.trimmed_written]
    dsimp only
    rw [if_neg chain.written_ne_empty]
  rw [hwritten] at hraw
  obtain rfl := Except.ok.inj hraw
  rw [hfull, chain.fullNameOf_written]

/-- In a run with the standard settings, each reference in a class that is spelled as the name of a
record leads to the node of the record if this name is in sight. -/
theorem resolves_build {chain : IdentifierChain}
    (h : build (.ofPreset .standard) native managed = .ok a) (hr : Keeps .standard native r c)
    (hname : r.name = some chain.written) (hchain : ¬ chain.IsRepaired) :
    c.fullName = chain.dotted ∧ ∃ n, NodeOf a.native (kept .standard native) c n ∧
      ∀ u d, Keeps .standard native u d → Text.trimmed d.fullName ≠ "" →
        ∃ m, NodeOf a.native (kept .standard native) d m ∧
          (d.kind.isComposite = true → (∃ kind : CompositeKind, m.kind = kind.kind) →
            a.native.InSight m chain.dotted → u.RefersTo .standard chain n.id d m) := by
  obtain ⟨registry, hnative, hinterned, hparser, hslots⟩ := holds_of_build h
  have hfull := fullName_of_owns hr.owns hname
  have hkey : Text.trimmed c.fullName = chain.dotted := by rw [hfull, chain.trimmed_dotted]
  obtain ⟨id, stored, hholds⟩ := hslots c hr.mem (by rw [hkey]; exact chain.dotted_ne_empty)
  obtain ⟨n, hn, rfl, -⟩ := nodeOf_of_holds hholds
  rw [hnative]
  refine ⟨hfull, n, hn, ?_⟩
  intro u d hu hd
  obtain ⟨owner, merged, hholds'⟩ := hslots d hu.mem hd
  obtain ⟨m, hm, rfl, hkind⟩ := nodeOf_of_holds hholds'
  refine ⟨m, hm, ?_⟩
  rintro hcomposite ⟨kind, hnode⟩ hsight
  have hid := hholds.name
  rw [hkey] at hid
  obtain ⟨m', hm', -, -, hrefers⟩ := Registry.refersTo_resolve hinterned chain.dotted_ne_empty hid
    hholds'.definition (CompoundKind.isComposite_of_typeKind (hkind.symm.trans hnode))
  obtain rfl := Option.some.inj (hm.node.symm.trans hm')
  have hmerged := hrefers hsight
  rw [hparser] at hmerged
  exact NativeRecord.refersTo Annotation.leavesNames_builtin hchain hu.owns hcomposite
    hholds'.bases hholds'.members hmerged

/-! ## A definition and its uses -/

/-- The native graph of a run with the standard settings. -/
def nativeGraph? (native : List NativeRecord) : Option TypeGraph :=
  (registryOfNative? (.ofPreset .standard) native).map (·.resolve.1)

/-- A run with the standard settings that keeps a compound succeeds. -/
theorem exists_build (h : kept .standard native ≠ []) :
    ∃ a, build (.ofPreset .standard) native [] = .ok a ∧ nativeGraph? native = some a.native := by
  have hbuild := @build_eq (.ofPreset .standard) rfl native []
  have hparser : DeclarationParser.withExtras
      (Settings.ofPreset .standard).parser.extraAnnotations = .standard := rfl
  have hgoes : (Settings.ofPreset .standard).failOnMalformed = false := rfl
  rw [hparser, hgoes] at hbuild
  simp only [nativeCompounds_false, managedCompounds_false, bind, Except.bind] at hbuild
  have hlinks := CompoundCache.unlinked_attachChildren
    (({} : CompoundCache).insertAll (compounds NativeRecord.id (NativeRecord.outcome .standard)
      native))
  generalize (CompoundCache.attachChildren _).2 = cache at hbuild hlinks
  generalize CompoundCache.insertAll {} (_ ++ synthesizeNamespaces _) = managed at hbuild
  have hnonempty : cache.nodes.isEmpty = false := by
    rw [Bool.eq_false_iff]
    intro hempty
    rw [List.isEmpty_iff.1 hempty, List.map_nil, eq_comm, List.map_eq_nil_iff] at hlinks
    exact h hlinks
  obtain ⟨projection, hok⟩ := assemble_ok (.ofPreset .standard) .standard cache managed
    (by rw [hnonempty, Bool.false_and])
  rw [hok] at hbuild
  obtain ⟨registry, -, hregistry, -, hnative, -⟩ := build_registries hbuild
  exact ⟨_, hbuild, by rw [nativeGraph?, hregistry, hnative, Option.map_some]⟩

/-- The name of a class in a namespace. -/
def fooChain : IdentifierChain where
  segments := ["N".toList, "Foo".toList]
  nonempty := by simp
  identifier := by decide
  noKeyword := by decide

/-- The name of a class that refers to it. -/
def userChain : IdentifierChain where
  segments := ["User".toList]
  nonempty := by simp
  identifier := by decide
  noKeyword := by decide

/-- The class. -/
def fooRecord : NativeRecord :=
  { id := "f", kind := "class", name := some "N::Foo" }

/-- A base, a field and a parameter of the second class are spelled as the name of the first one. -/
def userRecord : NativeRecord :=
  { id := "u", kind := "class", name := some "User", baseNames := ["N::Foo"]
    members := [{ kind := "variable", name := "foo", rawType := "N::Foo" },
      { kind := "function", name := "use", rawType := "void",
        params := [{ name := "foo", rawType := "N::Foo", attributes := "[in]" }] }] }

/-- What becomes of both records. -/
def usedRecords : List NativeRecord :=
  [fooRecord, userRecord]

/-- A record that is built without a refusal and leads to a compound has one of its own. -/
theorem exists_own (h : (r.build parser).toOption.any (fun found => !found.1.isEmpty) = true) :
    ∃ c nested reports, r.build parser = .ok (c :: nested, reports) := by
  cases hbuild : r.build parser with
  | error e => simp [hbuild, Except.toOption] at h
  | ok found =>
    obtain ⟨compounds, reports⟩ := found
    cases compounds with
    | nil => simp [hbuild, Except.toOption] at h
    | cons c nested => exact ⟨c, nested, reports, rfl⟩

/-- The base, the field and the parameter lead to the class. -/
theorem resolves_build_foo : ∃ a c n d m,
    build (.ofPreset .standard) usedRecords [] = .ok a ∧
      Keeps .standard usedRecords fooRecord c ∧
      fooRecord.name = some fooChain.written ∧ ¬ fooChain.IsRepaired ∧
      NodeOf a.native (kept .standard usedRecords) c n ∧ n.kind = .classType ∧
      Keeps .standard usedRecords userRecord d ∧
      NodeOf a.native (kept .standard usedRecords) d m ∧ m.kind = .classType ∧ n.id ≠ m.id ∧
      a.native.InSight m fooChain.dotted ∧ userRecord.RefersTo .standard fooChain n.id d m := by
  obtain ⟨a, hbuild, hgraph⟩ := @exists_build usedRecords (by decide +kernel)
  have hfacts : (nativeGraph? usedRecords).any (fun g =>
      decide (g.names["N.Foo"]? = some ⟨1⟩) && decide (g.names["User"]? = some ⟨2⟩) &&
      decide (g.names["User.N.Foo"]? = none) &&
      decide ((g.get? ⟨1⟩).map (·.kind) = some .classType) &&
      decide ((g.get? ⟨2⟩).map (fun m => (m.fullName, m.kind)) = some ("User", .classType))) =
      true := by
    decide +kernel
  simp only [hgraph, Option.any_some, Bool.and_eq_true, decide_eq_true_eq, and_assoc] at hfacts
  obtain ⟨hfooName, huserName, hhidden, hfooNode, huserNode⟩ := hfacts
  obtain ⟨c, nested, reports, hc⟩ := @exists_own .standard fooRecord (by decide +kernel)
  obtain ⟨d, nested', reports', hd⟩ := @exists_own .standard userRecord (by decide +kernel)
  have hfoo : Keeps .standard usedRecords fooRecord c :=
    ⟨⟨nested, reports, hc⟩, [], [userRecord], rfl, by decide +kernel⟩
  have huser : Keeps .standard usedRecords userRecord d :=
    ⟨⟨nested', reports', hd⟩, [fooRecord], [], rfl, by decide +kernel⟩
  have hchain : ¬ fooChain.IsRepaired := by
    rintro ⟨capital, rest, hstart, -⟩
    have hhead : fooChain.dotted.toList.head? = some 'N' := by decide +kernel
    rw [hstart] at hhead
    exact absurd hhead (by simp)
  obtain ⟨hfooFull, n, hn, hrefers⟩ := resolves_build hbuild hfoo (by decide +kernel) hchain
  have huserFull : d.fullName = "User" :=
    (@fullName_of_owns .standard _ _ userChain huser.owns (by decide +kernel)).trans
      (by decide +kernel)
  obtain ⟨m, hm, hreads⟩ := hrefers userRecord d huser (by rw [huserFull]; decide +kernel)
  have hnid : n.id = ⟨1⟩ := by
    have hname := hn.name
    rw [hfooFull, fooChain.trimmed_dotted] at hname
    exact Option.some.inj (hname.symm.trans hfooName)
  have hmid : m.id = ⟨2⟩ := by
    have hname := hm.name
    rw [huserFull] at hname
    exact Option.some.inj (hname.symm.trans huserName)
  rw [← hnid, hn.node, Option.map_some, Option.some.injEq] at hfooNode
  rw [← hmid, hm.node, Option.map_some, Option.some.injEq, Prod.mk.injEq] at huserNode
  have hsight : a.native.InSight m fooChain.dotted := by
    have hscopes : "User" :: Name.enclosing "User" = ["User"] := by decide +kernel
    have hkey : Name.qualify "User" fooChain.dotted = "User.N.Foo" := by decide +kernel
    intro scope hscope
    rw [huserNode.1, hscopes, List.mem_singleton] at hscope
    rw [hscope, hkey, hhidden]
  have hcomposite : d.kind.isComposite = true := by
    have hkind := huser.owns.kind
    rw [show foldNativeKind? userRecord.kind = some .classType by decide +kernel,
      Option.some.injEq] at hkind
    rw [← hkind]
    rfl
  refine ⟨a, c, n, d, m, hbuild, hfoo, by decide +kernel, hchain, hn, hfooNode, huser, hm,
    huserNode.2, ?_, hsight, hreads hcomposite ⟨.classType, huserNode.2⟩ hsight⟩
  rw [hnid, hmid]
  decide

/-! ## References that lead elsewhere -/

/-- A name that references change. -/
def clockChain : IdentifierChain where
  segments := ["SystemClock".toList]
  nonempty := by simp
  identifier := by decide
  noKeyword := by decide

/-- The class of this name. -/
def clockRecord : NativeRecord :=
  { id := "s", kind := "class", name := some "SystemClock" }

/-- A class with this class, a record of an unknown kind, one whose identifier is taken, and itself
as its bases. Its constructor has a type, and its parameter an attribute that is no annotation. -/
def strayRecord : NativeRecord :=
  { id := "u", kind := "class", name := some "User"
    baseNames := ["SystemClock", "W", "B", "User"]
    members := [{ kind := "constructor", name := "User", rawType := "C" },
      { kind := "function", name := "f", rawType := "void",
        params := [{ name := "p", rawType := "C", attributes := "owned" }] }] }

/-- The last record adds a class to the name of the unknown kind. -/
def strayRecords : List NativeRecord :=
  [clockRecord, { id := "w", kind := "widget", name := some "W" },
    { id := "x", kind := "class", name := some "A" },
    { id := "x", kind := "class", name := some "B" },
    { id := "c", kind := "class", name := some "C" }, strayRecord,
    { id := "v", kind := "class", name := some "W", baseNames := ["C"] }]

/-- The base that is spelled as the name of the first class leads to a facade of another name. The
node of the unknown kind is a facade itself and has no bases, the record whose identifier is taken
has none, and neither the class itself, the type of the constructor nor that of the parameter is
bound as it is spelled. -/
theorem references_astray : clockRecord.name = some clockChain.written ∧
    clockChain.written ∈ strayRecord.baseNames ∧ clockChain.IsRepaired ∧
    ∃ a, build (.ofPreset .standard) strayRecords [] = .ok a ∧
      a.native.names["SystemClock"]? = some ⟨1⟩ ∧ a.native.names["C"]? = some ⟨4⟩ ∧
      (a.native.get? ⟨5⟩).map (·.fullName) = some "User" ∧
      ["SystemClock", "System.Clock", "W", "B", "C", "User"].filterMap (fun name =>
        a.native.names[Name.qualify "User" name]?) = [] ∧
      (a.native.get? ⟨5⟩).bind (·.baseTypes?) = some [⟨6⟩, ⟨2⟩, ⟨7⟩] ∧
      (a.native.get? ⟨2⟩).bind (·.baseTypes?) = none ∧
      [⟨1⟩, ⟨6⟩, ⟨2⟩, ⟨7⟩, ⟨4⟩, ⟨9⟩].filterMap (fun id => (a.native.get? id).map fun n =>
        (n.fullName, n.isFacade)) = [("SystemClock", false), ("System.Clock", true), ("W", true),
          ("B", true), ("C", false), ("owned C", true)] ∧
      ((a.native.get? ⟨5⟩).bind (·.members?)).map (·.map fun m =>
        (m.declaredType.target, m.parameters.map (·.declaredType.target))) =
          some [(some ⟨5⟩, []), (some ⟨8⟩, [some ⟨9⟩])] := by
  obtain ⟨a, hbuild, hgraph⟩ := @exists_build strayRecords (by decide +kernel)
  have hfacts : (nativeGraph? strayRecords).any (fun g =>
      decide (g.names["SystemClock"]? = some ⟨1⟩) && decide (g.names["C"]? = some ⟨4⟩) &&
      decide ((g.get? ⟨5⟩).map (·.fullName) = some "User") &&
      decide (["SystemClock", "System.Clock", "W", "B", "C", "User"].filterMap (fun name =>
        g.names[Name.qualify "User" name]?) = []) &&
      decide ((g.get? ⟨5⟩).bind (·.baseTypes?) = some [⟨6⟩, ⟨2⟩, ⟨7⟩]) &&
      decide ((g.get? ⟨2⟩).bind (·.baseTypes?) = none) &&
      decide ([⟨1⟩, ⟨6⟩, ⟨2⟩, ⟨7⟩, ⟨4⟩, ⟨9⟩].filterMap (fun id => (g.get? id).map fun n =>
        (n.fullName, n.isFacade)) = [("SystemClock", false), ("System.Clock", true), ("W", true),
          ("B", true), ("C", false), ("owned C", true)]) &&
      decide (((g.get? ⟨5⟩).bind (·.members?)).map (·.map fun m =>
        (m.declaredType.target, m.parameters.map (·.declaredType.target))) =
          some [(some ⟨5⟩, []), (some ⟨8⟩, [some ⟨9⟩])])) = true := by
    decide +kernel
  simp only [hgraph, Option.any_some, Bool.and_eq_true, decide_eq_true_eq, and_assoc] at hfacts
  have hrepaired : clockChain.IsRepaired := ⟨'C', "lock".toList, by decide +kernel, by decide⟩
  exact ⟨by decide +kernel, by decide +kernel, hrepaired, a, hbuild, hfacts⟩

end Atlas

end TypeAtlas
