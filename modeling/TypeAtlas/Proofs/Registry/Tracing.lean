import TypeAtlas.Proofs.Registry.Seeking

/-!
# The searches of a compound, one after another

All that binding a compound does to the registry is to search for one name after another: for the
types in its list of bases, in that of its derived types, for its children, and for the types in its
members at every depth. What the node of the compound gets is what these searches end with.

## Main definitions

* `Binding.Traces` — a step that runs some searches and makes its result of what they end with.
* `TypeRef.targets`, `BoundMember.targets` — what the types are bound to, at every depth.

The main statement is `Site.Sees.run_bindCompound`.
-/

namespace TypeAtlas

open Registry (Reading)

/-! ## Steps that search -/

namespace Binding

variable {α β γ : Type} {base : Registry} {searches more : List (Option Search)}

/-- A step that runs searches in a registry that has grown from a first one, and whose result and
their ends meet a condition. -/
def Traces (base : Registry) (x : Binding α) (searches : List (Option Search))
    (P : List (Option TypeId) → α → Prop) : Prop :=
  ∀ r, base.Grows r → r.Grows (x.run r).2 ∧ (x.run r).2 = (r.serveAll searches).2 ∧
    P (r.serveAll searches).1 (x.run r).1

namespace Traces

theorem pure {a : α} {P : List (Option TypeId) → α → Prop} (h : P [] a) :
    Traces base (Pure.pure a) [] P :=
  fun _ _ => ⟨.refl, rfl, h⟩

theorem weaken {x : Binding α} {P Q : List (Option TypeId) → α → Prop}
    (h : Traces base x searches P) (hP : ∀ targets a, P targets a → Q targets a) :
    Traces base x searches Q := by
  intro r hr
  obtain ⟨hgrows, hrun, hresult⟩ := h r hr
  exact ⟨hgrows, hrun, hP _ _ hresult⟩

theorem bind {x : Binding α} {f : α → Binding β} {P : List (Option TypeId) → α → Prop}
    {Q : List (Option TypeId) → β → Prop} (hx : Traces base x searches P)
    (hf : ∀ targets a, P targets a → Traces base (f a) more fun rest b => Q (targets ++ rest) b) :
    Traces base (x >>= f) (searches ++ more) Q := by
  intro r hr
  obtain ⟨hgrows, hrun, hresult⟩ := hx r hr
  obtain ⟨hgrows', hrun', hresult'⟩ := hf _ _ hresult _ (hr.trans hgrows)
  rw [run_bind, Registry.serveAll_append, ← hrun]
  exact ⟨hgrows.trans hgrows', hrun', hresult'⟩

/-- A step whose result is made of that of another step. -/
theorem map {x : Binding α} {f : α → β} {P : List (Option TypeId) → α → Prop}
    {Q : List (Option TypeId) → β → Prop} (hx : Traces base x searches P)
    (hf : ∀ targets a, P targets a → Q targets (f a)) :
    Traces base (do return f (← x)) searches Q := by
  have h : Traces base (do return f (← x)) (searches ++ []) Q :=
    hx.bind fun targets a ha => pure (by simpa using hf targets a ha)
  simpa using h

/-- The ends of the searches for a list are those for its elements, in their order. -/
theorem mapM {f : α → Binding β} {searches : α → List (Option Search)}
    {targets : β → List (Option TypeId)} (xs : List α)
    (hf : ∀ x ∈ xs, Traces base (f x) (searches x) fun found b => targets b = found) :
    Traces base (xs.mapM f) (xs.flatMap searches) fun found bs => bs.flatMap targets = found := by
  induction xs with
  | nil => exact pure rfl
  | cons x xs ih =>
    rw [List.mapM_cons, List.flatMap_cons]
    refine (hf x (by simp)).bind fun first b hb => ?_
    refine (ih fun x hx => hf x (by simp [hx])).map fun rest bs hbs => ?_
    rw [List.flatMap_cons, hb, hbs]

/-- A fold whose step is a search works on what the searches end with. -/
theorem foldlM {f : α → Binding β} {search : α → Option Search} {target : β → Option TypeId}
    (step : γ → Option TypeId → γ) (xs : List α) (c : γ)
    (hf : ∀ x ∈ xs, Traces base (f x) [search x] fun found b => found = [target b]) :
    Traces base (xs.foldlM (fun c x => do return step c (target (← f x))) c) (xs.map search)
      fun found result => result = found.foldl step c := by
  induction xs generalizing c with
  | nil => exact pure rfl
  | cons x xs ih =>
    rw [List.foldlM_cons, List.map_cons, ← List.singleton_append]
    have hx : Traces base (do return step c (target (← f x))) [search x] fun found result =>
        ∃ target, found = [target] ∧ result = step c target :=
      (hf x (by simp)).map fun found b hfound => ⟨target b, hfound, rfl⟩
    refine hx.bind ?_
    rintro found result ⟨target, rfl, rfl⟩
    exact (ih _ fun x hx => hf x (by simp [hx])).weaken fun rest result hresult => hresult

end Traces

end Binding

open Binding

/-! ## What types are bound to -/

/-- What a type is bound to at each of its levels. -/
def TypeRef.levelTargets (t : TypeRef) : List (Option TypeId) :=
  t.levels.map (·.target)

/-- The types in a member. -/
def BoundMember.types (b : BoundMember) : List TypeRef :=
  b.declaredType :: b.parameters.map (·.declaredType)

/-- What the types in a member are bound to at each of their levels. -/
def BoundMember.levelTargets (b : BoundMember) : List (Option TypeId) :=
  b.types.flatMap (·.levelTargets)

/-- The members of what a compound is made of. -/
def TypeVariant.members (v : TypeVariant) : List BoundMember :=
  match v with
  | .composite _ body => body.members
  | .function overloads => overloads
  | _ => []

theorem Registry.Reading.traces_refer {u : Corpus} {base : Registry} (h : Reading u base)
    (child : String) : Traces base (Registry.refer child) [some (u.referSearch child)]
      fun found id => found = [some id] := by
  intro r hr
  refine ⟨Registry.growing_refer child r hr, ?_⟩
  rw [Registry.run_refer, (h.grows hr).getOrCreate_eq]
  simp

namespace Site.Sees

variable {u : Corpus} {base r : Registry} {c : Compound} {site : Site}

/-! ## Names -/

theorem traces_bindName (h : site.Sees base c) (hbase : Reading u base) (hc : c.fullName ≠ "")
    (name : String) : Traces base (site.bindName name) [u.nameSearch? c name]
      fun found target => found = [target] := by
  intro r hr
  refine ⟨site.growing_bindName name r hr, ?_⟩
  rw [(h.grows hr).run_bindName (hbase.grows hr) hc]
  exact ⟨rfl, rfl⟩

theorem traces_bindRaw (h : site.Sees base c) (hbase : Reading u base) (hc : c.fullName ≠ "")
    (raw : String) : Traces base (site.bindRaw raw)
      [u.nameSearch? c (u.parser.parse raw).fullName] fun found target => found = [target] := by
  intro r hr
  have hname := h.traces_bindName hbase hc (u.parser.parse raw).fullName r hr
  rw [bindRaw, run_bind, run_get, (hbase.grows hr).parser_eq]
  exact hname

theorem traces_bindNames (h : site.Sees base c) (hbase : Reading u base) (hc : c.fullName ≠ "")
    (rawNames : List String) : Traces base (site.bindNames rawNames) (u.rawSearches c rawNames)
      fun found ids => ids = site.collect found := by
  have hraw : ∀ raw ∈ rawNames, Traces base (site.bindRaw raw)
      [u.nameSearch? c (u.parser.parse raw).fullName] fun found target => found = [id target] :=
    fun raw _ => h.traces_bindRaw hbase hc raw
  have hfold := Traces.foldlM site.addTarget rawNames [] hraw
  rw [bindNames_eq]
  exact hfold

theorem traces_bindChildren (site : Site) (hbase : Reading u base) (childNames : List String) :
    Traces base (site.bindChildren childNames)
      (childNames.map fun child => some (u.referSearch child))
      fun found ids => ids = site.collect (found.map (·.bind childTarget)) := by
  have hchild : ∀ child ∈ childNames, Traces base (Registry.refer child)
      [some (u.referSearch child)] fun found id => found = [some id] :=
    fun child _ => hbase.traces_refer child
  have hfold := Traces.foldlM
    (fun ids target => site.addTarget ids (target.bind childTarget)) childNames [] hchild
  rw [bindChildren_eq]
  refine hfold.weaken fun found ids hids => ?_
  rw [hids, collect, List.foldl_map]

/-! ## Types -/

mutual

theorem traces_bindType (h : site.Sees base c) (hbase : Reading u base) (hc : c.fullName ≠ "")
    (d : Descriptor) : Traces base (site.bindType d) (u.levelSearches c d.levels)
      fun found t => t.levelTargets = found := by
  match d with
  | ⟨form, arguments⟩ =>
    rw [bindType, Descriptor.levels, Corpus.levelSearches, List.map_cons, ← List.singleton_append]
    refine (h.traces_bindName hbase hc form.fullName).bind ?_
    rintro found target rfl
    refine (traces_bindTypes h hbase hc arguments).map fun found ts hts => ?_
    rw [TypeRef.levelTargets, TypeRef.levels, List.map_cons, hts, List.singleton_append]

theorem traces_bindTypes (h : site.Sees base c) (hbase : Reading u base) (hc : c.fullName ≠ "")
    (ds : List Descriptor) : Traces base (site.bindTypes ds)
      (u.levelSearches c (Descriptor.levelsOf ds))
      fun found ts => (TypeRef.levelsOf ts).map (·.target) = found := by
  match ds with
  | [] =>
    rw [bindTypes]
    exact .pure rfl
  | d :: ds =>
    rw [bindTypes, Descriptor.levelsOf, Corpus.levelSearches, List.map_append]
    refine (traces_bindType h hbase hc d).bind fun found t ht => ?_
    refine (traces_bindTypes h hbase hc ds).map fun rest ts hts => ?_
    rw [TypeRef.levelsOf, List.map_append, hts, ← ht, TypeRef.levelTargets]

end

/-! ## Members -/

theorem traces_bindMember (h : site.Sees base c) (hbase : Reading u base) (hc : c.fullName ≠ "")
    (m : Member) : Traces base (site.bindMember m) (u.levelSearches c m.levels)
      fun found b => b.levelTargets = found := by
  have hparameters : Traces base (m.parameters.mapM site.bindParameter)
      (m.parameters.flatMap fun p => u.levelSearches c p.declaredType.levels)
      fun found ps => ps.flatMap (·.declaredType.levelTargets) = found :=
    .mapM _ fun p _ => (h.traces_bindType hbase hc p.declaredType).map fun _ _ ht => ht
  have hsearches : u.levelSearches c m.levels = u.levelSearches c m.declaredType.levels ++
      m.parameters.flatMap fun p => u.levelSearches c p.declaredType.levels := by
    simp [Member.levels, Corpus.levelSearches, List.map_flatMap, List.flatMap_map]
  rw [hsearches, bindMember]
  refine (h.traces_bindType hbase hc m.declaredType).bind fun found t ht => ?_
  refine hparameters.map fun rest ps hps => ?_
  rw [BoundMember.levelTargets, BoundMember.types, List.flatMap_cons, List.flatMap_map, ht, hps]

theorem traces_bindMembers (h : site.Sees base c) (hbase : Reading u base) (hc : c.fullName ≠ "")
    (ms : List Member) : Traces base (ms.mapM site.bindMember)
      (u.levelSearches c (ms.flatMap (·.levels)))
      fun found bs => bs.flatMap (·.levelTargets) = found := by
  rw [Corpus.levelSearches, List.map_flatMap]
  exact .mapM ms fun m _ => h.traces_bindMember hbase hc m

/-! ## Compounds -/

theorem traces_bindVariant (h : site.Sees base c) (hbase : Reading u base) (hc : c.fullName ≠ "")
    (baseTypes derivedTypes : List TypeId) :
    Traces base (Registry.bindVariant site c baseTypes derivedTypes) (u.typeSearches c)
      fun found v => v.members.flatMap (·.levelTargets) = found := by
  have hmembers := h.traces_bindMembers hbase hc c.members
  unfold Corpus.typeSearches Compound.boundMembers Registry.bindVariant
  cases hkind : c.kind with
  | classType | interface | struct | function =>
    exact hmembers.map fun _ _ hms => hms
  | _ => exact .pure rfl

/-- A compound is bound by its searches, one list after another: the parent is what is found at
first, and the node gets what the searches end with. -/
theorem run_bindCompound (h : site.Sees base c) (hbase : Reading u base) (hc : c.fullName ≠ "")
    (hr : base.Grows r) :
    let bases := r.serveAll (u.rawSearches c c.baseNames)
    let derived := bases.2.serveAll (u.rawSearches c c.derivedNames)
    let children := derived.2.serveAll (u.childSearches c)
    let types := children.2.serveAll (u.typeSearches c)
    ((Registry.bindCompound site c).run r).2 = types.2 ∧
      ∀ n, n = ((Registry.bindCompound site c).run r).1 →
        n.parent = some (r.parentOf site.owner c) ∧
        n.children = site.collect (children.1.map (·.bind childTarget)) ∧
        site.BindsVariant base types.2 c (site.collect bases.1) (site.collect derived.1) n.variant ∧
        n.variant.members.flatMap (·.levelTargets) = types.1 := by
  intro bases derived children types
  obtain ⟨hgrows₁, hrun₁, hids₁⟩ := h.traces_bindNames hbase hc c.baseNames r hr
  obtain ⟨hgrows₂, hrun₂, hids₂⟩ := h.traces_bindNames hbase hc c.derivedNames _ (hr.trans hgrows₁)
  have hr₂ := (hr.trans hgrows₁).trans hgrows₂
  obtain ⟨hgrows₃, hrun₃, hids₃⟩ := traces_bindChildren site hbase c.childNames _ hr₂
  have hr₃ := hr₂.trans hgrows₃
  obtain ⟨-, hrun₄, hmembers⟩ := h.traces_bindVariant hbase hc
    (site.collect bases.1) (site.collect derived.1) _ hr₃
  obtain ⟨-, hvariant⟩ := site.ensures_bindVariant c (site.collect bases.1)
    (site.collect derived.1) _ hr₃
  rw [hrun₁] at hrun₂ hids₂
  rw [hrun₁, hrun₂] at hrun₃ hids₃
  rw [hrun₁, hrun₂, hrun₃] at hrun₄ hmembers hvariant
  rw [hrun₄] at hvariant
  have hcompound : (Registry.bindCompound site c).run r = (do
      let variant ← Registry.bindVariant site c (site.collect bases.1) (site.collect derived.1)
      return {
        id := site.owner
        origin := r.origin
        fullName := c.fullName
        parent := some (r.parentOf site.owner c)
        children := site.collect (children.1.map (·.bind childTarget))
        content := c.content
        language := c.language
        variant } : Binding TypeNode).run children.2 := by
    rw [Registry.bindCompound, run_bind, run_get, run_bind, hrun₁, hids₁, run_bind, hrun₂, hids₂,
      run_bind, hrun₃, hids₃]
    rfl
  rw [hcompound, run_bind]
  refine ⟨hrun₄, ?_⟩
  rintro n rfl
  exact ⟨rfl, rfl, hvariant, hmembers⟩

end Site.Sees

end TypeAtlas
