import TypeAtlas.Proofs.Registry.Growth

/-!
# What binding does

Binding a compound runs the same few steps over and over: a name is bound at its site, a child is
interned, a type parameter gets a slot. Each of them makes the registry grow, and a bound compound
holds what these steps returned at the moments at which they ran.

## Main definitions

* `TypeRef.levels` — a type and its arguments at every depth.
* `Site.Binds`, `Site.BindsMember`, `Site.BindsCompound` — a type, a member and a compound that are
  bound at a site.
* `Site.Of` — the site of a compound.

The main statement is `Registry.bindAll_spec`.
-/

namespace TypeAtlas

open Binding

/-! ## Types at every depth -/

namespace TypeRef

mutual

/-- A type and its arguments at every depth, outer levels before their arguments. -/
def levels (t : TypeRef) : List TypeRef :=
  match t with
  | ⟨descriptor, target, arguments⟩ => ⟨descriptor, target, arguments⟩ :: levelsOf arguments

/-- Several types and their arguments at every depth. -/
def levelsOf (ts : List TypeRef) : List TypeRef :=
  match ts with
  | [] => []
  | t :: ts => levels t ++ levelsOf ts

end

end TypeRef

/-- What becomes a composite is one. -/
theorem CompoundKind.isComposite_of_typeKind {kind : CompoundKind} {composite : CompositeKind}
    (h : kind.typeKind = composite.kind) : kind.isComposite = true := by
  cases kind <;> cases composite <;> first | rfl | contradiction

namespace Registry

variable {base r s : Registry}

theorem grows_getOrCreate (r : Registry) (reference : String) :
    r.Grows (r.getOrCreate reference).2 := by
  unfold getOrCreate
  split
  · exact .refl
  · next h =>
    obtain ⟨hne, -, hfresh⟩ := names_keyOf_of_lookup? h
    exact .refer .refl _ (r.keyOf_ne_empty hne) hfresh

/-- A name that is interned, as a step. -/
def refer (reference : String) : Binding TypeId :=
  fun r => r.getOrCreate reference

@[simp] theorem run_refer (reference : String) (r : Registry) :
    (refer reference).run r = r.getOrCreate reference :=
  run_step (·.getOrCreate reference) r

theorem growing_refer (reference : String) : Growing base (refer reference) := by
  intro r _
  rw [run_refer]
  exact r.grows_getOrCreate reference

end Registry

namespace Site

variable {base r s t : Registry} (site : Site)

/-! ## Names -/

theorem run_bindName (name : String) (r : Registry) : (site.bindName name).run r =
    if name = "" then (none, r)
    else
      match site.generics.lookup name with
      | some id => (some id, r)
      | none =>
        match site.findEnclosing? r name with
        | some id => (some id, r)
        | none => (some (r.getOrCreate name).1, (r.getOrCreate name).2) := by
  unfold bindName
  split
  · rfl
  · cases site.generics.lookup name with
    | some id => rfl
    | none =>
      rw [run_bind, run_get]
      cases site.findEnclosing? r name with
      | some id => rfl
      | none =>
        dsimp only
        rw [run_bind, run_step]
        rfl

/-- A name that no type parameter has means none of them. -/
theorem lookup_generics {name : String} (h : name ∉ site.generics.map (·.1)) :
    site.generics.lookup name = none := by
  rw [List.lookup_eq_none_iff]
  intro generic hmem
  rw [bne_iff_ne]
  rintro rfl
  exact h (List.mem_map_of_mem hmem)

theorem growing_bindName (name : String) : Growing base (site.bindName name) := by
  intro r _
  rw [run_bindName]
  split
  · exact .refl
  · split
    · exact .refl
    · split
      · exact .refl
      · exact r.grows_getOrCreate name

/-- The target of a written type. -/
def bindRaw (raw : String) : Binding (Option TypeId) := do
  site.bindName ((← get).parser.parse raw).fullName

/-- A list of nodes with one more target, unless it is none, the owner or in the list. -/
def addTarget (ids : List TypeId) (target : Option TypeId) : List TypeId :=
  match target with
  | some id => site.addOther ids id
  | none => ids

/-- The nodes of a list of targets, each once and without the owner. -/
def collect (targets : List (Option TypeId)) : List TypeId :=
  targets.foldl site.addTarget []

theorem mem_addTarget {ids : List TypeId} {target : Option TypeId} {id : TypeId} :
    id ∈ site.addTarget ids target ↔ id ∈ ids ∨ target = some id ∧ id ≠ site.owner := by
  unfold addTarget
  cases target with
  | none => simp
  | some found =>
    simp only [addOther, Option.some.injEq]
    split
    · next hskip =>
      have hskip : found = site.owner ∨ found ∈ ids := by simpa using hskip
      constructor
      · exact .inl
      · rintro (hid | ⟨rfl, hne⟩)
        · exact hid
        · exact hskip.resolve_left hne
    · next hskip =>
      have hskip : found ≠ site.owner ∧ found ∉ ids := by simpa using hskip
      rw [List.mem_append, List.mem_singleton]
      constructor
      · rintro (hid | rfl)
        · exact .inl hid
        · exact .inr ⟨rfl, hskip.1⟩
      · rintro (hid | ⟨rfl, -⟩)
        · exact .inl hid
        · exact .inr rfl

@[simp] theorem mem_collect {targets : List (Option TypeId)} {id : TypeId} :
    id ∈ site.collect targets ↔ some id ∈ targets ∧ id ≠ site.owner := by
  unfold collect
  induction targets using List.reverseRecOn with
  | nil => simp
  | append_singleton targets target ih =>
    rw [List.foldl_concat, mem_addTarget, ih, List.mem_append, List.mem_singleton, or_and_right,
      eq_comm]

/-- The targets of written types that are bound at the site. -/
def BindsNames (base s : Registry) (rawNames : List String) (targets : List (Option TypeId)) :
    Prop :=
  List.Forall₂
    (fun raw target => Ran base s (site.bindName (base.parser.parse raw).fullName) target)
    rawNames targets

theorem bindNames_eq (rawNames : List String) : site.bindNames rawNames =
    rawNames.foldlM (fun ids raw => do return site.addTarget ids (← site.bindRaw raw)) [] := by
  unfold bindNames
  refine congrArg (fun step => rawNames.foldlM step []) ?_
  funext ids raw
  rw [bindRaw, bind_assoc]
  refine bind_congr fun moment => bind_congr fun target => ?_
  cases target with
  | none => rfl
  | some id => rfl

theorem ensures_bindRaw (raw : String) : Ensures base (site.bindRaw raw) fun s target =>
    Ran base s (site.bindName (base.parser.parse raw).fullName) target := by
  refine Ensures.get.bind stable_moment ?_
  intro moment r hr
  refine ⟨site.growing_bindName _ r hr, ?_⟩
  rintro ⟨hmoment, -⟩
  refine ⟨r, hr, ?_, ?_⟩
  all_goals rw [hmoment.parser_eq]
  exact .refl

theorem stable_bindsNames (rawNames : List String) :
    Stable fun s targets => site.BindsNames base s rawNames targets :=
  .forall₂ (fun _ => stable_ran _) rawNames

theorem ensures_bindNames (rawNames : List String) : Ensures base (site.bindNames rawNames)
    fun s ids => ∃ targets, site.BindsNames base s rawNames targets ∧
      ids = site.collect targets := by
  rw [bindNames_eq]
  exact Ensures.foldlM site.ensures_bindRaw (fun raw => stable_ran _) rawNames []

/-! ## Children -/

/-- What a child counts as: the global namespace is none. -/
def childTarget (id : TypeId) : Option TypeId :=
  if id = .global then none else some id

/-- The slots of the listed children. -/
def BindsChildren (base s : Registry) (childNames : List String) (ids : List TypeId) : Prop :=
  List.Forall₂ (fun child id => Ran base s (Registry.refer child) id) childNames ids

theorem stable_bindsChildren (childNames : List String) :
    Stable fun s ids => BindsChildren base s childNames ids :=
  .forall₂ (fun _ => stable_ran _) childNames

theorem bindChildren_eq (childNames : List String) : site.bindChildren childNames =
    childNames.foldlM (fun ids child => do
      return site.addTarget ids (childTarget (← Registry.refer child))) [] := by
  unfold bindChildren
  refine congrArg (fun step => childNames.foldlM step []) ?_
  funext ids child
  refine bind_congr fun id => ?_
  unfold childTarget
  split <;> rfl

theorem ensures_bindChildren (childNames : List String) :
    Ensures base (site.bindChildren childNames) fun s children =>
      ∃ ids, BindsChildren base s childNames ids ∧
        children = site.collect (ids.map childTarget) := by
  rw [bindChildren_eq]
  refine (Ensures.foldlM (g := fun ids id => site.addTarget ids (childTarget id))
    (fun child => (Registry.growing_refer child).ensures) (fun child => stable_ran _)
    childNames []).weaken ?_
  rintro s children - ⟨ids, hids, rfl⟩
  exact ⟨ids, hids, by rw [collect, List.foldl_map]⟩

/-! ## Types and members -/

/-- One level of a type with its name bound at the site. -/
def BindsLevel (base s : Registry) (level : TypeRef) : Prop :=
  level.arguments.map (·.descriptor) = level.descriptor.arguments ∧
    Ran base s (site.bindName level.descriptor.fullName) level.target

/-- A type that is written as a descriptor, with the names of all levels bound at the site. -/
def Binds (base s : Registry) (d : Descriptor) (t : TypeRef) : Prop :=
  t.descriptor = d ∧ ∀ level ∈ t.levels, site.BindsLevel base s level

/-- Several types that are written as descriptors, with all names bound at the site. -/
def BindsAll (base s : Registry) (ds : List Descriptor) (ts : List TypeRef) : Prop :=
  ts.map (·.descriptor) = ds ∧ ∀ level ∈ TypeRef.levelsOf ts, site.BindsLevel base s level

theorem stable_binds (d : Descriptor) : Stable fun s t => site.Binds base s d t := by
  rintro s s' t hs ⟨hd, hlevels⟩
  exact ⟨hd, fun level hlevel => ⟨(hlevels level hlevel).1, (hlevels level hlevel).2.mono hs⟩⟩

theorem stable_bindsAll (ds : List Descriptor) : Stable fun s ts => site.BindsAll base s ds ts := by
  rintro s s' ts hs ⟨hds, hlevels⟩
  exact ⟨hds, fun level hlevel => ⟨(hlevels level hlevel).1, (hlevels level hlevel).2.mono hs⟩⟩

mutual

theorem ensures_bindType (d : Descriptor) :
    Ensures base (site.bindType d) fun s t => site.Binds base s d t := by
  match d with
  | ⟨form, arguments⟩ =>
    rw [bindType]
    refine (site.growing_bindName form.fullName).ensures.bind (stable_ran _) ?_
    intro target
    refine (ensures_bindTypes arguments).bind (site.stable_bindsAll _) ?_
    intro bound
    refine Ensures.pure ?_
    rintro s - ⟨harguments, hlevels⟩ htarget
    refine ⟨rfl, ?_⟩
    intro level hlevel
    rw [TypeRef.levels, List.mem_cons] at hlevel
    rcases hlevel with rfl | hlevel
    · exact ⟨harguments, htarget⟩
    · exact hlevels level hlevel

theorem ensures_bindTypes (ds : List Descriptor) :
    Ensures base (site.bindTypes ds) fun s ts => site.BindsAll base s ds ts := by
  match ds with
  | [] =>
    rw [bindTypes]
    exact Ensures.pure fun s _ => ⟨rfl, by simp [TypeRef.levelsOf]⟩
  | d :: ds =>
    rw [bindTypes]
    refine (ensures_bindType d).bind (site.stable_binds d) ?_
    intro t
    refine (ensures_bindTypes ds).bind (site.stable_bindsAll _) ?_
    intro ts
    refine Ensures.pure ?_
    rintro s - ⟨harguments, hlevels⟩ ⟨hd, hlevels'⟩
    refine ⟨by rw [List.map_cons, hd, harguments], ?_⟩
    intro level hlevel
    rw [TypeRef.levelsOf, List.mem_append] at hlevel
    rcases hlevel with hlevel | hlevel
    · exact hlevels' level hlevel
    · exact hlevels level hlevel

end

/-- A parameter with its type bound at the site. -/
structure BindsParameter (base s : Registry) (p : Parameter) (b : BoundParameter) : Prop where
  name : b.name = p.name
  content : b.content = p.content
  declaredType : site.Binds base s p.declaredType b.declaredType

/-- A member with its types bound at the site. -/
structure BindsMember (base s : Registry) (m : Member) (b : BoundMember) : Prop where
  name : b.name = m.name
  kind : b.kind = m.kind
  content : b.content = m.content
  isStatic : b.isStatic = m.isStatic
  declaredType : site.Binds base s m.declaredType b.declaredType
  parameters : List.Forall₂ (site.BindsParameter base s) m.parameters b.parameters

theorem stable_bindsParameter (p : Parameter) : Stable fun s b => site.BindsParameter base s p b :=
  fun s s' _ hs h => ⟨h.name, h.content, site.stable_binds _ s s' _ hs h.declaredType⟩

theorem stable_bindsMember (m : Member) : Stable fun s b => site.BindsMember base s m b :=
  fun s s' _ hs h => ⟨h.name, h.kind, h.content, h.isStatic,
    site.stable_binds _ s s' _ hs h.declaredType,
    h.parameters.imp fun p b => site.stable_bindsParameter p s s' b hs⟩

theorem ensures_bindParameter (p : Parameter) :
    Ensures base (site.bindParameter p) fun s b => site.BindsParameter base s p b := by
  refine (site.ensures_bindType p.declaredType).bind (site.stable_binds _) ?_
  intro t
  exact Ensures.pure fun s _ ht => ⟨rfl, rfl, ht⟩

theorem ensures_bindMember (m : Member) :
    Ensures base (site.bindMember m) fun s b => site.BindsMember base s m b := by
  refine (site.ensures_bindType m.declaredType).bind (site.stable_binds _) ?_
  intro t
  refine (Ensures.mapM m.parameters (fun p _ => site.ensures_bindParameter p)
    site.stable_bindsParameter).bind (.forall₂ site.stable_bindsParameter _) ?_
  intro ps
  exact Ensures.pure fun s _ hps ht => ⟨rfl, rfl, rfl, rfl, ht, hps⟩

/-- Several members with their types bound at the site. -/
def BindsMembers (base s : Registry) (ms : List Member) (bs : List BoundMember) : Prop :=
  List.Forall₂ (site.BindsMember base s) ms bs

theorem stable_bindsMembers (ms : List Member) :
    Stable fun s bs => site.BindsMembers base s ms bs :=
  .forall₂ site.stable_bindsMember ms

theorem ensures_bindMembers (ms : List Member) :
    Ensures base (ms.mapM site.bindMember) fun s bs => site.BindsMembers base s ms bs :=
  Ensures.mapM ms (fun m _ => site.ensures_bindMember m) site.stable_bindsMember

/-! ## Compounds -/

/-- What a compound is made of, bound at the site. -/
def BindsVariant (base s : Registry) (c : Compound) (baseTypes derivedTypes : List TypeId) :
    TypeVariant → Prop
  | .namespace => c.kind = .namespace
  | .composite kind body => c.kind.typeKind = kind.kind ∧
      site.BindsMembers base s c.members body.members ∧ body.baseTypes = baseTypes ∧
      body.derivedTypes = derivedTypes ∧ body.genericParameters = site.generics.map (·.2) ∧
      body.traits = c.traits
  | .enum values bases => c.kind = .enum ∧ values = c.enumValues ∧ bases = baseTypes
  | .function overloads => c.kind = .function ∧ site.BindsMembers base s c.members overloads
  | .facade => c.kind.isKnown = false
  | .genericParameter .. => False
  | .primitive => False

/-- The node of a compound, with all names bound at the site. -/
structure BindsCompound (base s : Registry) (c : Compound) (n : TypeNode) : Prop where
  id : n.id = site.owner
  origin : n.origin = base.origin
  fullName : n.fullName = c.fullName
  content : n.content = c.content
  language : n.language = c.language
  parent : ∃ moment, base.Grows moment ∧ moment.Grows s ∧
    n.parent = some (moment.parentOf site.owner c)
  children : ∃ ids, BindsChildren base s c.childNames ids ∧
    n.children = site.collect (ids.map childTarget)
  variant : ∃ bases derived, site.BindsNames base s c.baseNames bases ∧
    site.BindsNames base s c.derivedNames derived ∧
    site.BindsVariant base s c (site.collect bases) (site.collect derived) n.variant

theorem BindsVariant.kind {c : Compound} {baseTypes derivedTypes : List TypeId} {v : TypeVariant}
    {site : Site} (h : site.BindsVariant base s c baseTypes derivedTypes v) :
    v.kind = c.kind.typeKind := by
  cases v with
  | composite kind body => exact h.1.symm
  | «namespace» => rw [show c.kind = .namespace from h]; rfl
  | enum values bases => rw [h.1]; rfl
  | function overloads => rw [h.1]; rfl
  | genericParameter owner position => exact h.elim
  | primitive => exact h.elim
  | facade =>
    cases hkind : c.kind with
    | unknown word => rfl
    | _ => simp [BindsVariant, hkind, CompoundKind.isKnown] at h

theorem BindsVariant.composite {c : Compound} {baseTypes derivedTypes : List TypeId}
    {v : TypeVariant} {site : Site} (h : site.BindsVariant base s c baseTypes derivedTypes v)
    (hc : c.kind.isComposite = true) : ∃ kind body, v = .composite kind body ∧
      site.BindsMembers base s c.members body.members ∧ body.baseTypes = baseTypes ∧
      body.derivedTypes = derivedTypes := by
  have hkind := h.kind
  cases v with
  | composite kind body => exact ⟨kind, body, rfl, h.2.1, h.2.2.1, h.2.2.2.1⟩
  | _ => cases hck : c.kind <;> rw [hck] at hkind hc <;> contradiction

theorem BindsVariant.enum {c : Compound} {baseTypes derivedTypes : List TypeId}
    {v : TypeVariant} {site : Site} (h : site.BindsVariant base s c baseTypes derivedTypes v)
    (hc : c.kind = .enum) : v = .enum c.enumValues baseTypes := by
  have hkind := h.kind
  rw [hc] at hkind
  cases v with
  | enum values bases => rw [h.2.1, h.2.2]
  | composite kind body => cases kind <;> contradiction
  | _ => contradiction

theorem BindsVariant.function {c : Compound} {baseTypes derivedTypes : List TypeId}
    {v : TypeVariant} {site : Site} (h : site.BindsVariant base s c baseTypes derivedTypes v)
    (hc : c.kind = .function) : ∃ overloads, v = .function overloads ∧
      site.BindsMembers base s c.members overloads := by
  have hkind := h.kind
  rw [hc] at hkind
  cases v with
  | function overloads => exact ⟨overloads, rfl, h.2⟩
  | composite kind body => cases kind <;> contradiction
  | _ => contradiction

theorem ensures_bindVariant (c : Compound) (baseTypes derivedTypes : List TypeId) :
    Ensures base (Registry.bindVariant site c baseTypes derivedTypes) fun s v =>
      site.BindsVariant base s c baseTypes derivedTypes v := by
  unfold Registry.bindVariant
  cases hkind : c.kind with
  | «namespace» => exact Ensures.pure fun s _ => hkind
  | classType | interface | struct =>
    refine (site.ensures_bindMembers c.members).bind (site.stable_bindsMembers _) ?_
    intro ms
    refine Ensures.pure fun s _ hms => ⟨?_, hms, rfl, rfl, rfl, rfl⟩
    rw [hkind]
    rfl
  | enum => exact Ensures.pure fun s _ => ⟨hkind, rfl, rfl⟩
  | function =>
    refine (site.ensures_bindMembers c.members).bind (site.stable_bindsMembers _) ?_
    intro ms
    exact Ensures.pure fun s _ hms => ⟨hkind, hms⟩
  | unknown word =>
    refine Ensures.pure ?_
    intro s _
    simp [BindsVariant, hkind, CompoundKind.isKnown]

theorem stable_bindsVariant (c : Compound) (baseTypes derivedTypes : List TypeId) :
    Stable fun s v => site.BindsVariant base s c baseTypes derivedTypes v := by
  intro s s' v hs h
  cases v with
  | composite kind body => exact ⟨h.1, site.stable_bindsMembers _ s s' _ hs h.2.1, h.2.2⟩
  | function overloads => exact ⟨h.1, site.stable_bindsMembers _ s s' _ hs h.2⟩
  | _ => exact h

theorem ensures_bindCompound (c : Compound) :
    Ensures base (Registry.bindCompound site c) fun s n => site.BindsCompound base s c n := by
  unfold Registry.bindCompound
  refine Ensures.get.bind stable_moment ?_
  intro moment
  refine (site.ensures_bindNames c.baseNames).bind
    ((site.stable_bindsNames _).image site.collect) ?_
  intro baseTypes
  refine (site.ensures_bindNames c.derivedNames).bind
    ((site.stable_bindsNames _).image site.collect) ?_
  intro derivedTypes
  refine (site.ensures_bindChildren c.childNames).bind
    ((stable_bindsChildren _).image fun ids => site.collect (ids.map childTarget)) ?_
  intro children
  refine (site.ensures_bindVariant c baseTypes derivedTypes).bind
    (site.stable_bindsVariant _ _ _) ?_
  intro variant
  refine Ensures.pure ?_
  rintro s - hvariant hchildren ⟨derived, hderived, rfl⟩ ⟨bases, hbases, rfl⟩ ⟨hmoment, hs⟩
  exact ⟨rfl, hmoment.origin_eq, rfl, rfl, rfl, ⟨moment, hmoment, hs, rfl⟩, hchildren,
    bases, derived, hbases, hderived, hvariant⟩

theorem stable_bindsCompound (c : Compound) :
    Stable fun s n => site.BindsCompound base s c n := by
  intro s s' n hs h
  obtain ⟨moment, hmoment, hs', hparent⟩ := h.parent
  obtain ⟨ids, hids, hchildren⟩ := h.children
  obtain ⟨bases, derived, hbases, hderived, hvariant⟩ := h.variant
  exact ⟨h.id, h.origin, h.fullName, h.content, h.language,
    ⟨moment, hmoment, hs'.trans hs, hparent⟩,
    ⟨ids, stable_bindsChildren _ s s' _ hs hids, hchildren⟩, bases, derived,
    site.stable_bindsNames _ s s' _ hs hbases, site.stable_bindsNames _ s s' _ hs hderived,
    site.stable_bindsVariant _ _ _ s s' _ hs hvariant⟩

end Site

/-! ## Type parameters -/

namespace Registry

variable {base r s : Registry}

theorem typeParameterName_eq (h : base.Grows r) (raw : String) :
    r.typeParameterName raw = base.typeParameterName raw := by
  unfold typeParameterName
  rw [h.parser_eq]

/-- A type parameter with its slot, none for a declaration without a name. -/
def BindsParameterSlot (base s : Registry) (ownerName declaration : String) :
    Option (String × TypeId) → Prop
  | none => base.typeParameterName declaration = ""
  | some (name, id) => base.typeParameterName declaration = name ∧ name ≠ "" ∧
    s.names[Name.qualify ownerName name]? = some id

theorem stable_bindsParameterSlot (ownerName declaration : String) :
    Stable fun s found => base.BindsParameterSlot s ownerName declaration found := by
  intro s s' found hs h
  cases found with
  | none => exact h
  | some found => exact ⟨h.1, h.2.1, hs.names h.2.2⟩

theorem qualify_ne_empty (scope : String) {name : String} (h : name ≠ "") :
    Name.qualify scope name ≠ "" := by
  unfold Name.qualify
  split
  · exact h
  · simp [h]

theorem run_typeParameter (owner : TypeId) (ownerName : String) (declaration : String × Nat)
    (r : Registry) : (typeParameter owner ownerName declaration).run r =
      let name := r.typeParameterName declaration.1
      let key := Name.qualify ownerName name
      if name = "" then (none, r)
      else
        match r.names[key]? with
        | some id => (some (name, id), r)
        | none =>
          (some (name, ⟨r.size⟩), (r.push key (.genericParameter owner declaration.2)).2) := by
  unfold typeParameter
  rw [run_bind, run_get]
  dsimp only
  split
  · rfl
  · cases r.names[Name.qualify ownerName (r.typeParameterName declaration.1)]? with
    | some id => rfl
    | none => rfl

theorem ensures_typeParameter {owner : TypeId}
    (howner : ∃ slot, base.slot? owner = some slot ∧ slot.compound?.isSome) (ownerName : String)
    (declaration : String × Nat) : Ensures base (typeParameter owner ownerName declaration)
      fun s found => base.BindsParameterSlot s ownerName declaration.1 found := by
  intro r hr
  have hname := typeParameterName_eq hr declaration.1
  rw [run_typeParameter]
  dsimp only
  split
  · next hnone => exact ⟨.refl, hname.symm.trans hnone⟩
  · next hsome =>
    have hkey := qualify_ne_empty ownerName hsome
    split
    · next id hid => exact ⟨.refl, hname.symm, hsome, hid⟩
    · next hfresh =>
      obtain ⟨slot, hslot, hcompound⟩ := howner
      refine ⟨.parameter .refl _ hkey hfresh owner declaration.2
        ⟨slot, hr.slot? hslot, hcompound⟩, hname.symm, hsome, ?_⟩
      rw [names_push, if_pos rfl]

/-- The type parameters of a compound with their slots. -/
structure BindsGenerics (base s : Registry) (c : Compound) (generics : List (String × TypeId)) :
    Prop where
  names : generics.map (·.1) = (c.templateParams.map base.typeParameterName).filter (· != "")
  slots : ∀ generic ∈ generics, s.names[Name.qualify c.fullName generic.1]? = some generic.2

theorem bindsGenerics_filterMap {c : Compound} {declarations : List (String × Nat)}
    {found : List (Option (String × TypeId))}
    (h : List.Forall₂ (fun d p => base.BindsParameterSlot s c.fullName d.1 p) declarations found) :
    (found.filterMap id).map (·.1) =
        (declarations.map fun d => base.typeParameterName d.1).filter (· != "") ∧
      ∀ generic ∈ found.filterMap id,
        s.names[Name.qualify c.fullName generic.1]? = some generic.2 := by
  induction h with
  | nil => simp
  | @cons d p ds ps hd _ ih =>
    cases p with
    | none =>
      have hd : base.typeParameterName d.1 = "" := hd
      rw [List.filterMap_cons_none rfl, List.map_cons, hd]
      simpa using ih
    | some generic =>
      obtain ⟨hname, hne, hslot⟩ := hd
      have hcons : (some generic :: ps).filterMap id = generic :: ps.filterMap id := rfl
      rw [hcons, List.map_cons, List.map_cons, hname,
        List.filter_cons_of_pos (by simpa using hne), ih.1]
      refine ⟨rfl, ?_⟩
      intro g hg
      rcases List.mem_cons.1 hg with rfl | hg
      · exact hslot
      · exact ih.2 g hg

theorem ensures_typeParameters {owner : TypeId}
    (howner : ∃ slot, base.slot? owner = some slot ∧ slot.compound?.isSome) (c : Compound) :
    Ensures base (typeParameters owner c) fun s generics => base.BindsGenerics s c generics := by
  unfold typeParameters
  let P (d : String × Nat) (s : Registry) (found : Option (String × TypeId)) : Prop :=
    base.BindsParameterSlot s c.fullName d.1 found
  have hP : ∀ d, Stable (P d) := fun d => stable_bindsParameterSlot c.fullName d.1
  refine (Ensures.mapM (P := P) c.templateParams.zipIdx
    (fun d _ => ensures_typeParameter howner c.fullName d) hP).bind
    (.forall₂ hP _) ?_
  intro found
  refine Ensures.pure ?_
  intro s _ hfound
  obtain ⟨hnames, hslots⟩ := bindsGenerics_filterMap hfound
  refine ⟨?_, hslots⟩
  have hdeclarations : (c.templateParams.zipIdx.map fun d => base.typeParameterName d.1) =
      c.templateParams.map base.typeParameterName := by
    conv => rhs; rw [← List.zipIdx_map_fst 0 c.templateParams, List.map_map]
    rfl
  rw [hnames, hdeclarations]

end Registry

/-- The site of a compound, with its type parameters in sight. -/
structure Site.Of (base s : Registry) (owner : TypeId) (c : Compound) (site : Site) : Prop where
  owner : site.owner = owner
  scope : site.scope = c.fullName
  generics : base.BindsGenerics s c site.generics

namespace Registry

variable {base r s : Registry}

theorem stable_siteOf (definition : TypeId × Compound) :
    Stable fun s site => Site.Of base s definition.1 definition.2 site :=
  fun _ _ _ hs h => ⟨h.owner, h.scope, h.generics.names,
    fun generic hg => hs.names (h.generics.slots generic hg)⟩

/-! ## All compounds -/

theorem mem_definitions {r : Registry} {owner : TypeId} {c : Compound} :
    (owner, c) ∈ r.definitions ↔ ∃ slot, r.slot? owner = some slot ∧ slot.compound? = some c := by
  unfold definitions
  rw [List.mem_filterMap]
  constructor
  · rintro ⟨⟨slot, index⟩, hmem, hsome⟩
    obtain ⟨known, hknown, heq⟩ := Option.map_eq_some_iff.1 hsome
    obtain ⟨rfl, rfl⟩ := Prod.mk.inj heq
    rw [List.mk_mem_zipIdx_iff_getElem?, Array.getElem?_toList] at hmem
    exact ⟨slot, hmem, hknown⟩
  · rintro ⟨slot, hslot, hc⟩
    refine ⟨(slot, owner.index), ?_, by simp [hc]⟩
    rw [List.mk_mem_zipIdx_iff_getElem?, Array.getElem?_toList]
    exact hslot

/-- A definition has its name, even where its slot is not the only one of the name. -/
theorem Interned.names_of_definition {owner : TypeId} {c : Compound} {name : String}
    (h : r.Interned) (hc : (owner, c) ∈ r.definitions) (hname : r.fullName? owner = some name) :
    r.names[name]? = some owner := by
  obtain ⟨slot, hslot, hcompound⟩ := mem_definitions.1 hc
  refine h.names_eq_some_iff.2 ⟨hname, ?_⟩
  intro other hother
  refine Nat.le_of_not_lt ?_
  intro hlt
  obtain ⟨-, ⟨slot', hslot', hplaceholder⟩, -⟩ := h.leftBehind owner other name hname hother hlt
  obtain rfl := Option.some.inj (hslot.symm.trans hslot')
  have hsome : slot.compound?.isSome := by simp [hcompound]
  simp [Slot.not_isPlaceholder hsome] at hplaceholder

theorem Interned.isNamed_of_definition {owner : TypeId} {c : Compound} (h : r.Interned)
    (hc : (owner, c) ∈ r.definitions) : r.IsNamed owner := by
  obtain ⟨slot, hslot, -⟩ := mem_definitions.1 hc
  exact ⟨slot.fullName, h.names_of_definition hc (fullName?_eq_some.2 ⟨slot, hslot, rfl⟩)⟩

/-- The site of a definition, as a step. -/
def siteOf (definition : TypeId × Compound) : Binding Site := do
  let generics ← typeParameters definition.1 definition.2
  return { owner := definition.1, scope := definition.2.fullName, generics }

theorem ensures_siteOf {definition : TypeId × Compound} (h : definition ∈ base.definitions) :
    Ensures base (siteOf definition) fun s site =>
      Site.Of base s definition.1 definition.2 site := by
  obtain ⟨slot, hslot, hc⟩ := mem_definitions.1 h
  have howner : ∃ slot, base.slot? definition.1 = some slot ∧ slot.compound?.isSome :=
    ⟨slot, hslot, by simp [hc]⟩
  refine (ensures_typeParameters howner definition.2).bind ?_ fun generics => ?_
  · exact fun _ _ _ hs h => ⟨h.names, fun generic hg => hs.names (h.slots generic hg)⟩
  · exact Ensures.pure fun s _ hgenerics => ⟨rfl, rfl, hgenerics⟩

/-- The nodes of the definitions, given their sites. -/
theorem forall₂_of_zip {α β γ : Type} {P : α × γ → β → Prop} {Q : β → γ → TypeNode → Prop}
    {definitions : List (α × γ)} {sites : List β} {nodes : List TypeNode}
    (hsites : List.Forall₂ P definitions sites)
    (hnodes : List.Forall₂ (fun entry n => Q entry.1 entry.2 n)
      (sites.zip (definitions.map (·.2))) nodes) :
    List.Forall₂ (fun definition n => ∃ site, P definition site ∧ Q site definition.2 n)
      definitions nodes := by
  induction hsites generalizing nodes with
  | nil =>
    cases hnodes
    exact .nil
  | @cons definition site _ _ hsite _ ih =>
    rw [List.map_cons, List.zip_cons_cons] at hnodes
    cases hnodes with
    | cons hn hnodes => exact .cons ⟨site, hsite, hn⟩ (ih hnodes)

/-- A compound that is bound at its site. -/
def BindsDefinition (base s : Registry) (definition : TypeId × Compound) (n : TypeNode) : Prop :=
  ∃ site : Site, Site.Of base s definition.1 definition.2 site ∧
    site.BindsCompound base s definition.2 n

/-- Binding the compounds of a registry makes it grow, and each compound gets a node that is bound
at its site. -/
theorem bindAll_spec (base : Registry) : base.Grows (bindAll.run base).2 ∧
    List.Forall₂ (base.BindsDefinition (bindAll.run base).2) base.definitions
      (bindAll.run base).1 := by
  have hrun : bindAll.run base = (do
      let sites ← base.definitions.mapM siteOf
      (sites.zip (base.definitions.map (·.2))).mapM fun entry =>
        bindCompound entry.1 entry.2 : Binding (List TypeNode)).run base := rfl
  have hensures : Ensures base (do
      let sites ← base.definitions.mapM siteOf
      (sites.zip (base.definitions.map (·.2))).mapM fun entry => bindCompound entry.1 entry.2)
      fun s nodes => List.Forall₂ (base.BindsDefinition s) base.definitions nodes := by
    refine (Ensures.mapM base.definitions (fun _ h => ensures_siteOf h) stable_siteOf).bind
      (.forall₂ stable_siteOf _) ?_
    intro sites
    refine (Ensures.mapM _ (fun entry _ => entry.1.ensures_bindCompound entry.2)
      (fun entry => entry.1.stable_bindsCompound entry.2)).weaken ?_
    exact fun s nodes _ hnodes hsites => forall₂_of_zip hsites hnodes
  rw [hrun]
  exact hensures base .refl

end Registry

end TypeAtlas
