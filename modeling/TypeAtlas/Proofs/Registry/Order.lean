import Mathlib.Data.Set.Function
import TypeAtlas.Proofs.Registry.Depiction

/-!
# The order of definitions

Where no compound depends on when another one is bound, the order in which compounds are defined
decides the positions of nodes and nothing else: two orders of the same compounds give graphs that
are the same up to a renaming of positions. Where compounds do depend on each other, the order may
decide which of several spellings a name means, under which compound a type parameter or an
undefined name lies, and what hides a definition.

## Main definitions

* `TypeNode.Renamed`, `TypeGraph.Renames` — nodes and graphs that are the same up to a renaming of
  positions.

The main statement is `Registry.renames_resolve_of_perm`.
-/

namespace TypeAtlas

/-! ## Renamings -/

/-- What is written at each level of a type, with the node that it is bound to. -/
def TypeRef.bindings (t : TypeRef) : List (Descriptor × Option TypeId) :=
  t.levels.map fun level => (level.descriptor, level.target)

/-- Types that are bound to the same nodes at every depth, up to a renaming. -/
def TypeRef.Renamed (ρ : TypeId → TypeId) (t t' : TypeRef) : Prop :=
  t'.bindings = t.bindings.map fun binding => (binding.1, binding.2.map ρ)

/-- Parameters that are the same up to a renaming. -/
structure BoundParameter.Renamed (ρ : TypeId → TypeId) (p p' : BoundParameter) : Prop where
  name : p'.name = p.name
  content : p'.content = p.content
  declaredType : p.declaredType.Renamed ρ p'.declaredType

/-- Members that are the same up to a renaming. -/
structure BoundMember.Renamed (ρ : TypeId → TypeId) (b b' : BoundMember) : Prop where
  name : b'.name = b.name
  kind : b'.kind = b.kind
  content : b'.content = b.content
  isStatic : b'.isStatic = b.isStatic
  declaredType : b.declaredType.Renamed ρ b'.declaredType
  parameters : List.Forall₂ (BoundParameter.Renamed ρ) b.parameters b'.parameters

/-- Nodes that are the same up to a renaming and the order of their lists. -/
structure TypeNode.Renamed (ρ : TypeId → TypeId) (n n' : TypeNode) : Prop where
  fullName : n'.fullName = n.fullName
  kind : n'.kind = n.kind
  parent : n'.parent = n.parent.map ρ
  children : ∀ id, id ∈ n'.children ↔ id ∈ n.children.map ρ
  baseTypes : ∀ id, id ∈ n'.baseTypes?.getD [] ↔ id ∈ (n.baseTypes?.getD []).map ρ
  derivedTypes : ∀ id, id ∈ n'.derivedTypes?.getD [] ↔ id ∈ (n.derivedTypes?.getD []).map ρ
  members : List.Forall₂ (BoundMember.Renamed ρ) (n.members?.getD []) (n'.members?.getD [])

/-- Graphs that are the same up to a renaming, in which each name belongs to one node. -/
structure TypeGraph.Renames (ρ : TypeId → TypeId) (g g' : TypeGraph) : Prop where
  distinct : ∀ i j n m, g.get? i = some n → g.get? j = some m → n.fullName = m.fullName → i = j
  bijOn : Set.BijOn ρ {id | id ∈ g.ids} {id | id ∈ g'.ids}
  node : ∀ id n, g.get? id = some n → ∃ n', g'.get? (ρ id) = some n' ∧ n.Renamed ρ n'

/-- The position of the node of the same name in another graph. -/
def TypeGraph.namesake (g g' : TypeGraph) (id : TypeId) : TypeId :=
  ((g.get? id).bind fun n => g'.names[n.fullName]?).getD .global

/-! ## Graphs of one corpus -/

namespace Corpus

variable {u : Corpus} {names names' : NameTable} {ρ : TypeId → TypeId} {c : Compound}

/-- What a relation reaches by names in two tables is the same up to a renaming of the one into the
other. -/
theorem Reaches.renamed {related : String → Prop} {ids ids' : List TypeId}
    (h : Reaches names related ids) (h' : Reaches names' related ids')
    (hρ : ∀ name : String, names'[name]? = names[name]?.map ρ) (id : TypeId) :
    id ∈ ids' ↔ id ∈ ids.map ρ := by
  rw [h' id, List.mem_map]
  constructor
  · rintro ⟨name, hrelated, hid⟩
    rw [hρ, Option.map_eq_some_iff] at hid
    obtain ⟨known, hknown, rfl⟩ := hid
    exact ⟨known, (h known).2 ⟨name, hrelated, hknown⟩, rfl⟩
  · rintro ⟨known, hmem, rfl⟩
    obtain ⟨name, hrelated, hknown⟩ := (h known).1 hmem
    exact ⟨name, hrelated, by rw [hρ, hknown, Option.map_some]⟩

end Corpus

/-! ## Members that are written the same -/

theorem TypeRef.bindings_eq (t : TypeRef) :
    t.bindings = (t.levels.map (·.descriptor)).zip t.levelTargets :=
  List.zip_map'.symm

/-- Types that are written the same and bound to the same are the same up to a renaming. -/
theorem TypeRef.renamed_of_targets {ρ : TypeId → TypeId} {t t' : TypeRef}
    (hlevels : t'.levels.map (·.descriptor) = t.levels.map (·.descriptor))
    (htargets : t'.levelTargets = t.levelTargets.map (·.map ρ)) : t.Renamed ρ t' := by
  rw [TypeRef.Renamed, TypeRef.bindings_eq, TypeRef.bindings_eq, hlevels, htargets,
    List.zip_map_right]
  rfl

/-- Two lists that are related to a third one are related to each other. -/
theorem forall₂_of_common {α β γ : Type} {R : α → β → Prop} {R' : α → γ → Prop}
    {S : β → γ → Prop} {xs : List α} {ys : List β} {zs : List γ} (h : List.Forall₂ R xs ys)
    (h' : List.Forall₂ R' xs zs) (hS : ∀ x y z, R x y → R' x z → S y z) :
    List.Forall₂ S ys zs := by
  induction h generalizing zs with
  | nil =>
    cases h'
    exact .nil
  | cons hxy _ ih =>
    cases h' with
    | cons hxz h' => exact .cons (hS _ _ _ hxy hxz) (ih h')

/-- Lists that are related agree part by part if their parts have the same lengths and make up the
same list. -/
theorem forall₂_of_flatMap_eq {α β γ : Type} {R : α → β → Prop} {f : α → List γ} {g : β → List γ}
    {xs : List α} {ys : List β} (h : List.Forall₂ R xs ys)
    (hlength : ∀ x y, R x y → (f x).length = (g y).length)
    (heq : xs.flatMap f = ys.flatMap g) : List.Forall₂ (fun x y => R x y ∧ f x = g y) xs ys := by
  induction h with
  | nil => exact .nil
  | cons hxy _ ih =>
    rw [List.flatMap_cons, List.flatMap_cons] at heq
    obtain ⟨hhead, htail⟩ := List.append_inj heq (hlength _ _ hxy)
    exact .cons ⟨hxy, hhead⟩ (ih htail)

namespace BoundMember.Of

variable {ρ : TypeId → TypeId} {m : Member} {b b' : BoundMember}

theorem types (h : BoundMember.Of m b) :
    List.Forall₂ (fun d t => t.levels.map (·.descriptor) = d.levels)
      (m.declaredType :: m.parameters.map (·.declaredType)) b.types := by
  refine .cons h.levels ?_
  rw [List.forall₂_map_left_iff, List.forall₂_map_right_iff]
  exact h.parameters.imp fun _ _ hp => hp.levels

theorem length_levelTargets (h : BoundMember.Of m b) :
    b.levelTargets.length = m.levels.length := by
  have hlength : ∀ {ds : List Descriptor} {ts : List TypeRef},
      List.Forall₂ (fun d t => t.levels.map (·.descriptor) = d.levels) ds ts →
      (ts.flatMap (·.levelTargets)).length = (ds.flatMap (·.levels)).length := by
    intro ds ts hwritten
    induction hwritten with
    | nil => rfl
    | cons ht _ ih =>
      rw [List.flatMap_cons, List.flatMap_cons, List.length_append, List.length_append, ih, ← ht]
      simp [TypeRef.levelTargets]
  exact hlength h.types

/-- Members that are written the same and bound to the same are the same up to a renaming. -/
theorem renamed (h : BoundMember.Of m b) (h' : BoundMember.Of m b')
    (htargets : b.levelTargets.map (·.map ρ) = b'.levelTargets) : b.Renamed ρ b' := by
  have hwritten : List.Forall₂ (fun (t t' : TypeRef) =>
      t'.levels.map (·.descriptor) = t.levels.map (·.descriptor)) b.types b'.types :=
    forall₂_of_common h.types h'.types fun _ _ _ ht ht' => ht'.trans ht.symm
  have hlength : ∀ t t' : TypeRef,
      t'.levels.map (·.descriptor) = t.levels.map (·.descriptor) →
      (t.levelTargets.map (·.map ρ)).length = t'.levelTargets.length := by
    intro t t' hlevels
    simpa [TypeRef.levelTargets] using (congrArg List.length hlevels).symm
  rw [BoundMember.levelTargets, List.map_flatMap] at htargets
  have htypes : List.Forall₂ (TypeRef.Renamed ρ) b.types b'.types :=
    (forall₂_of_flatMap_eq hwritten hlength htargets).imp fun _ _ ht =>
      TypeRef.renamed_of_targets ht.1 ht.2.symm
  rw [BoundMember.types, BoundMember.types] at htypes
  cases htypes with
  | cons hdeclared hparameters =>
    rw [List.forall₂_map_left_iff, List.forall₂_map_right_iff] at hparameters
    have hsame : List.Forall₂ (fun (p p' : BoundParameter) => p'.name = p.name ∧
        p'.content = p.content) b.parameters b'.parameters :=
      forall₂_of_common h.parameters h'.parameters fun _ _ _ hp hp' =>
        ⟨hp'.name.trans hp.name.symm, hp'.content.trans hp.content.symm⟩
    exact ⟨h'.name.trans h.name.symm, h'.kind.trans h.kind.symm, h'.content.trans h.content.symm,
      h'.isStatic.trans h.isStatic.symm, hdeclared,
      List.Forall₂.mp (fun _ _ hp ht => ⟨hp.1, hp.2, ht⟩) hsame hparameters⟩

end BoundMember.Of

namespace Corpus

variable {u : Corpus} {names names' : NameTable} {ρ : TypeId → TypeId} {c : Compound}

theorem answered_renamed {answers : List (Option String)} {targets targets' : List (Option TypeId)}
    (h : Registry.Answered names answers targets) (h' : Registry.Answered names' answers targets')
    (hρ : ∀ name : String, names'[name]? = names[name]?.map ρ) :
    targets.map (·.map ρ) = targets' := by
  have htargets : List.Forall₂ (fun target target' => target.map ρ = target') targets targets' := by
    refine forall₂_of_common h h' ?_
    rintro _ _ _ (⟨hname⟩ | _) (⟨hname'⟩ | _)
    · rw [Registry.Leads, hρ, hname, Option.map_some] at hname'
      exact hname'
    · rfl
  rw [← List.forall₂_eq_eq_eq, List.forall₂_map_left_iff]
  exact htargets

theorem BindsMembers.renamed {ms ms' : List BoundMember} (h : u.BindsMembers names c ms)
    (h' : u.BindsMembers names' c ms') (hρ : ∀ name : String, names'[name]? = names[name]?.map ρ) :
    List.Forall₂ (BoundMember.Renamed ρ) ms ms' := by
  have htargets := answered_renamed h.bound h'.bound hρ
  rw [List.map_flatMap] at htargets
  have hwritten : List.Forall₂ (fun b b' => ∃ m, BoundMember.Of m b ∧ BoundMember.Of m b') ms ms' :=
    forall₂_of_common h.written h'.written fun m _ _ hb hb' => ⟨m, hb, hb'⟩
  have hlength : ∀ b b', (∃ m, BoundMember.Of m b ∧ BoundMember.Of m b') →
      (b.levelTargets.map (·.map ρ)).length = b'.levelTargets.length := by
    rintro b b' ⟨m, hb, hb'⟩
    rw [List.length_map, hb.length_levelTargets, hb'.length_levelTargets]
  refine (forall₂_of_flatMap_eq hwritten hlength htargets).imp ?_
  rintro b b' ⟨⟨m, hb, hb'⟩, heq⟩
  exact hb.renamed hb' heq

theorem DepictsNode.renamed {n n' : TypeNode} (h : u.DepictsNode names n)
    (h' : u.DepictsNode names' n') (hname : n'.fullName = n.fullName)
    (hρ : ∀ name : String, names'[name]? = names[name]?.map ρ) : n.Renamed ρ n' := by
  have hparent := h'.parent
  have hchildren := h'.children
  have hbases := h'.baseTypes
  have hderived := h'.derivedTypes
  rw [hname] at hparent hchildren hbases hderived
  refine ⟨hname, ?_, ?_, h.children.renamed hchildren hρ, h.baseTypes.renamed hbases hρ,
    h.derivedTypes.renamed hderived hρ, ?_⟩
  · by_cases hc : ∃ c ∈ u.compounds, c.fullName = n.fullName
    · obtain ⟨c, hc, hcname⟩ := hc
      rw [h.definition_kind c hc hcname, h'.definition_kind c hc (hcname.trans hname.symm)]
    · have hfree : ∀ c ∈ u.compounds, c.fullName ≠ n.fullName := by simpa using hc
      rw [h.leaf_kind hfree, h'.leaf_kind (by rwa [hname]), hname]
  · ext parent
    have hmem := h.parent.renamed hparent hρ parent
    simpa using hmem
  · by_cases hc : ∃ c ∈ u.compounds, c.fullName = n.fullName
    · obtain ⟨c, hc, hcname⟩ := hc
      exact (h.definition_members c hc hcname).renamed
        (h'.definition_members c hc (hcname.trans hname.symm)) hρ
    · have hfree : ∀ c ∈ u.compounds, c.fullName ≠ n.fullName := by simpa using hc
      rw [h.leaf_members hfree, h'.leaf_members (by rwa [hname])]
      exact .nil

/-- Graphs that have what a corpus says have their nodes under the same names. -/
theorem Depicts.names_namesake {g g' : TypeGraph} (h : u.Depicts g) (h' : u.Depicts g')
    (name : String) : g'.names[name]? = g.names[name]?.map (g.namesake g') := by
  cases hid : g.names[name]? with
  | none =>
    have hfree : ¬ ∃ id, g.names[name]? = some id := by simp [hid]
    rw [h.names, ← h'.names] at hfree
    exact Option.eq_none_iff_forall_ne_some.2 fun id hid' => hfree ⟨id, hid'⟩
  | some id =>
    obtain ⟨n, hn, rfl⟩ := h.get? name id hid
    obtain ⟨id', hid'⟩ := (h'.names n.fullName).2 ((h.names n.fullName).1 ⟨id, hid⟩)
    simp [TypeGraph.namesake, hn, hid']

theorem Depicts.get?_namesake {g g' : TypeGraph} {id : TypeId} {n : TypeNode} (h : u.Depicts g)
    (h' : u.Depicts g') (hn : g.get? id = some n) :
    ∃ n', g'.get? (g.namesake g' id) = some n' ∧ n'.fullName = n.fullName := by
  refine h'.get? n.fullName _ ?_
  rw [h.names_namesake h', h.named id n hn, Option.map_some]

theorem Depicts.mapsTo {g g' : TypeGraph} (h : u.Depicts g) (h' : u.Depicts g') :
    Set.MapsTo (g.namesake g') {id | id ∈ g.ids} {id | id ∈ g'.ids} := by
  intro id hid
  obtain ⟨n, hn⟩ := g.mem_ids.1 hid
  obtain ⟨n', hn', -⟩ := h.get?_namesake h' hn
  exact g'.mem_ids.2 ⟨n', hn'⟩

theorem Depicts.leftInvOn {g g' : TypeGraph} (h : u.Depicts g) (h' : u.Depicts g') :
    Set.LeftInvOn (g'.namesake g) (g.namesake g') {id | id ∈ g.ids} := by
  intro id hid
  obtain ⟨n, hn⟩ := g.mem_ids.1 hid
  obtain ⟨n', hn', hname⟩ := h.get?_namesake h' hn
  rw [TypeGraph.namesake, hn', Option.bind_some, hname, h.named id n hn, Option.getD_some]

/-- Two graphs that have what a corpus says are the same up to a renaming. -/
theorem Depicts.renames {g g' : TypeGraph} (h : u.Depicts g) (h' : u.Depicts g') :
    TypeGraph.Renames (g.namesake g') g g' where
  distinct := by
    intro i j n m hn hm heq
    have hi := h.named i n hn
    rw [heq, h.named j m hm] at hi
    exact (Option.some.inj hi).symm
  bijOn := Set.InvOn.bijOn ⟨h.leftInvOn h', h'.leftInvOn h⟩ (h.mapsTo h') (h'.mapsTo h)
  node := by
    intro id n hn
    obtain ⟨n', hn', hname⟩ := h.get?_namesake h' hn
    exact ⟨n', hn', (h.node id n hn).renamed (h'.node _ n' hn') hname (h.names_namesake h')⟩

end Corpus

theorem WellNamed.perm {cs cs' : List Compound} (h : WellNamed cs) (hperm : cs.Perm cs') :
    WellNamed cs' where
  distinct := (hperm.map _).nodup_iff.1 h.distinct
  named := fun c hc => h.named c (hperm.mem_iff.2 hc)
  trimmed := fun c hc => h.trimmed c (hperm.mem_iff.2 hc)

namespace Registry

/-- Two orders of compounds with names of their own give the same graph up to a renaming, whatever
the universe, the settings and the parser, if no compound depends on when another one is bound. -/
theorem renames_resolve_of_perm (origin : Universe) (settings : RegistrySettings)
    (parser : DeclarationParser) {cs cs' : List Compound} (hperm : cs.Perm cs')
    (hcs : WellNamed cs) (hindependent : (corpus origin settings parser cs).Independent) :
    ∃ ρ, TypeGraph.Renames ρ ((Registry.empty origin settings parser).defineAll cs).resolve.1
      ((Registry.empty origin settings parser).defineAll cs').resolve.1 := by
  have hcorpus : corpus origin settings parser cs' = corpus origin settings parser cs := by
    simp [corpus, List.toFinset_eq_of_perm _ _ hperm]
  have h := founded_defineAll origin settings parser hcs
  have h' := founded_defineAll origin settings parser (hcs.perm hperm)
  rw [hcorpus] at h'
  exact ⟨_, (h.depicts hindependent).renames (h'.depicts hindependent)⟩

/-- A class with a type parameter and a child that is not defined, which one of its members refers
to by its short name, its base, and a class in another scope that refers to it in other letters. -/
def library : List Compound :=
  [.empty "lib" .managed "Lib" .namespace,
    { Compound.empty "box" .managed "Lib.Box" .classType with
      templateParams := ["T"], baseNames := ["Base"], childNames := ["Lib.Box.Item"]
      members := [{ name := "value", kind := .field, declaredType := .named "T" },
        { name := "item", kind := .field, declaredType := .named "Item" }] },
    .empty "base" .managed "Lib.Base" .interface,
    { Compound.empty "app" .managed "App" .classType with
      baseNames := ["lib.box"], derivedNames := ["Plugin"] }]

theorem renames_resolve_of_perm_library :
    library.Perm library.reverse ∧ WellNamed library ∧
      (corpus .managed (.ofPreset .standard) .standard library).Independent ∧
      ∃ ρ, TypeGraph.Renames ρ
        ((Registry.empty .managed (.ofPreset .standard) .standard).defineAll library).resolve.1
        ((Registry.empty .managed (.ofPreset .standard) .standard).defineAll
          library.reverse).resolve.1 := by
  have hperm : library.Perm library.reverse := library.reverse_perm.symm
  have hnamed : WellNamed library := by
    refine ⟨?_, ?_, ?_⟩ <;> decide +kernel
  have hindependent : (corpus .managed (.ofPreset .standard) .standard library).Independent := by
    decide +kernel
  exact ⟨hperm, hnamed, hindependent, renames_resolve_of_perm _ _ _ hperm hnamed hindependent⟩

end Registry

/-! ## Orders that matter -/

namespace TypeGraph

/-- The name of a node. -/
def nameOf? (g : TypeGraph) (id : TypeId) : Option String :=
  (g.get? id).map (·.fullName)

/-- A node with one name has a base with another one. -/
def HasBase (g : TypeGraph) (name base : String) : Prop :=
  ∃ id ∈ g.ids, g.nameOf? id = some name ∧
    ∃ b ∈ ((g.get? id).bind (·.baseTypes?)).getD [], g.nameOf? b = some base

/-- A node with one name has a parent with another one. -/
def HasParent (g : TypeGraph) (name parent : String) : Prop :=
  ∃ id ∈ g.ids, g.nameOf? id = some name ∧
    ∃ p ∈ (g.parentOf? id).toList, g.nameOf? p = some parent

instance (g : TypeGraph) (name base : String) : Decidable (g.HasBase name base) :=
  inferInstanceAs (Decidable (∃ id ∈ g.ids, _))

instance (g : TypeGraph) (name parent : String) : Decidable (g.HasParent name parent) :=
  inferInstanceAs (Decidable (∃ id ∈ g.ids, _))

namespace Renames

variable {ρ : TypeId → TypeId} {g g' : TypeGraph} {id : TypeId} {name other : String}

theorem nameOf? (h : Renames ρ g g') (hid : g.nameOf? id = some name) :
    g'.nameOf? (ρ id) = some name := by
  obtain ⟨n, hn, rfl⟩ := Option.map_eq_some_iff.1 hid
  obtain ⟨n', hn', hrenamed⟩ := h.node id n hn
  rw [TypeGraph.nameOf?, hn', Option.map_some, hrenamed.fullName]

theorem hasBase (h : Renames ρ g g') (hbase : g.HasBase name other) : g'.HasBase name other := by
  obtain ⟨id, hid, hname, b, hb, hother⟩ := hbase
  obtain ⟨n, hn⟩ := g.mem_ids.1 hid
  obtain ⟨n', hn', hrenamed⟩ := h.node id n hn
  refine ⟨ρ id, g'.mem_ids.2 ⟨n', hn'⟩, h.nameOf? hname, ρ b, ?_, h.nameOf? hother⟩
  rw [hn, Option.bind_some] at hb
  rw [hn', Option.bind_some, hrenamed.baseTypes]
  exact List.mem_map_of_mem hb

theorem hasParent (h : Renames ρ g g') (hparent : g.HasParent name other) :
    g'.HasParent name other := by
  obtain ⟨id, hid, hname, p, hp, hother⟩ := hparent
  obtain ⟨n, hn⟩ := g.mem_ids.1 hid
  obtain ⟨n', hn', hrenamed⟩ := h.node id n hn
  refine ⟨ρ id, g'.mem_ids.2 ⟨n', hn'⟩, h.nameOf? hname, ρ p, ?_, h.nameOf? hother⟩
  rw [parentOf?, hn, Option.bind_some] at hp
  rw [parentOf?, hn', Option.bind_some, hrenamed.parent]
  simpa using ⟨p, by simpa using hp, rfl⟩

end Renames

end TypeGraph

namespace Registry

/-- The graph of the compounds of a universe in an order, read with the standard settings. -/
def resolved (origin : Universe) (cs : List Compound) : TypeGraph :=
  ((Registry.empty origin (.ofPreset .standard) .standard).defineAll cs).resolve.1

/-- Two spellings of one name, and a class that refers to it in a third one. -/
def spelled : List Compound :=
  [.empty "a" .managed "Foo" .classType, .empty "b" .managed "FOO" .classType,
    { Compound.empty "u" .managed "U" .classType with baseNames := ["foo"] }]

/-- Two classes that list the same child, which is not defined. -/
def listedTwice : List Compound :=
  [{ Compound.empty "a" .native "A" .classType with childNames := ["X"] },
    { Compound.empty "b" .native "B" .classType with childNames := ["X"] }]

/-- Two classes with type parameters of one name. -/
def sharedParameter : List Compound :=
  [{ Compound.empty "a" .native "A" .classType with templateParams := ["typename B.T"] },
    { Compound.empty "b" .native "A.B" .classType with templateParams := ["typename T"] }]

/-- A class whose base is found in an outer scope, and one that refers to this name in the inner
scope, where nothing has it. -/
def overtaken : List Compound :=
  [{ Compound.empty "p" .native "P" .classType with baseNames := ["A.B.X"] },
    .empty "x" .native "A.X" .classType,
    { Compound.empty "u" .native "A.B.U" .classType with baseNames := ["X"] }]

/-- The reverse order of compounds gives another graph. -/
def OrderMatters (origin : Universe) (cs : List Compound) : Prop :=
  WellNamed cs ∧ ¬ ∃ ρ, TypeGraph.Renames ρ (resolved origin cs) (resolved origin cs.reverse)

theorem orderMatters_of_hasBase {origin : Universe} {cs : List Compound} (name base : String)
    (hcs : WellNamed cs) (h : (resolved origin cs).HasBase name base)
    (h' : ¬ (resolved origin cs.reverse).HasBase name base) : OrderMatters origin cs :=
  ⟨hcs, fun ⟨_, hrenames⟩ => h' (hrenames.hasBase h)⟩

theorem orderMatters_of_hasParent {origin : Universe} {cs : List Compound}
    (name parent : String) (hcs : WellNamed cs) (h : (resolved origin cs).HasParent name parent)
    (h' : ¬ (resolved origin cs.reverse).HasParent name parent) : OrderMatters origin cs :=
  ⟨hcs, fun ⟨_, hrenames⟩ => h' (hrenames.hasParent h)⟩

/-- The order decides what a name in another letter case means, which of two references to one name
hides a class from the other, and under which compound a type parameter or an undefined child lies
that two of them share. -/
theorem order_matters : OrderMatters .managed spelled ∧ OrderMatters .native overtaken ∧
    OrderMatters .native listedTwice ∧ OrderMatters .native sharedParameter := by
  refine ⟨?_, ?_, ?_, ?_⟩
  · refine orderMatters_of_hasBase "U" "Foo" ⟨?_, ?_, ?_⟩ ?_ ?_ <;> decide +kernel
  · refine orderMatters_of_hasBase "A.B.U" "A.B.X" ⟨?_, ?_, ?_⟩ ?_ ?_ <;> decide +kernel
  · refine orderMatters_of_hasParent "X" "A" ⟨?_, ?_, ?_⟩ ?_ ?_ <;> decide +kernel
  · refine orderMatters_of_hasParent "A.B.T" "A" ⟨?_, ?_, ?_⟩ ?_ ?_ <;> decide +kernel

end Registry

end TypeAtlas
