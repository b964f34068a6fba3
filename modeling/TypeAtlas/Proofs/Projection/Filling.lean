import Mathlib.Data.List.Forall2
import TypeAtlas.Proofs.Projection.Session

/-!
# Documentation that is filled in

A pair is composed of the managed side, and the native side fills in documentation: that of the
node, of the members of interfaces and of the parameters of methods and constructors. What the
managed side documents stays as it is. Fields and the values of an enumeration are another matter:
those of the native side stand in place of all of the managed side, documented or not, where the
managed node has no documentation.

## Main definitions

* `Content.Fills` — documentation that is kept, or filled in where there is none.
* `BoundMember.Lends` — the native member that a member gets the documentation of its parameters of.
* `ProjectedMember.Fills`, `ProjectedMember.FillsAll` — members with documentation filled in.
* `ProjectedType.Fills` — a node composed of both sides.

The main statement is `Merger.fills_merge`.
-/

namespace TypeAtlas

/-- Documentation is kept, or it is filled in from a source where there is none. -/
def Content.Fills (own filled : Content) (source : Content → Prop) : Prop :=
  filled = own ∨ own.isEmpty = true ∧ source filled

/-! ## Where documentation is taken from -/

namespace BoundMember

variable {native before : List BoundMember} {m k source : BoundMember}

/-- The number of constructors with as many parameters. -/
def rank (before : List BoundMember) (m : BoundMember) : Nat :=
  before.countP fun k => k.kind == .constructor && k.parameters.length == m.parameters.length

/-- The native member that lends a member the documentation of its parameters: to a constructor the
one with as many parameters and of the same rank, to a method one of the same name. -/
inductive Lends (native before : List BoundMember) (m source : BoundMember) : Prop
  | constructor (hkind : m.kind = .constructor)
      (hrank : (native.filter fun n =>
        n.kind == .constructor && n.parameters.length == m.parameters.length)[rank before m]? =
          some source)
  | method (hkind : m.kind = .method) (hmem : source ∈ native) (hsource : source.kind = .method)
      (hname : sameName source.name m.name = true)

/-- The native member that the parameters of a member get their documentation from. -/
def lender? (native : List BoundMember) (rank : Nat) (m : BoundMember) : Option BoundMember :=
  match m.kind with
  | .constructor => Sides.matchingConstructor? native rank m
  | .method => Sides.matchingMethod? native m
  | _ => none

theorem eq_method_of_family {kind : MemberKind} (h : kind.family = .callable) : kind = .method := by
  cases kind <;> simp_all [MemberKind.family]

theorem mem_of_matchingMethod? (h : Sides.matchingMethod? native m = some source) :
    source ∈ native ∧ source.kind = .method ∧ sameName source.name m.name = true := by
  have hmem : source ∈ native.filter fun n =>
      n.kind.family == .callable && sameName n.name m.name := by
    rcases Option.or_eq_some_iff.1 h with hfind | ⟨-, hhead⟩
    · exact List.mem_of_find?_eq_some hfind
    · exact List.mem_of_head? hhead
  obtain ⟨hnative, hmatch⟩ := List.mem_filter.1 hmem
  rw [Bool.and_eq_true, beq_iff_eq] at hmatch
  exact ⟨hnative, eq_method_of_family hmatch.1, hmatch.2⟩

theorem mem_of_parameter? {name : String} {s : BoundParameter}
    (h : source.parameter? name = some s) :
    s ∈ source.parameters ∧ sameName s.name name = true := by
  have hname := List.find?_some h
  exact ⟨List.mem_of_find?_eq_some h, hname⟩

end BoundMember

/-! ## Members with documentation filled in -/

namespace ProjectedMember

open BoundMember (rank Lends lender?)

variable {settings : ProjectionSettings} {surface : TypeKind} {native before own : List BoundMember}
  {m k : BoundMember} {p : ProjectedMember} {members kept : List ProjectedMember}

/-- A member of the managed side with documentation filled in; `before` are the members in front of
it. All that is no documentation is as it was. -/
structure Fills (settings : ProjectionSettings) (surface : TypeKind)
    (native before : List BoundMember) (m : BoundMember) (p : ProjectedMember) : Prop where
  origin : p.origin = .managed
  name : p.member.name = m.name
  kind : p.member.kind = m.kind
  declaredType : p.member.declaredType = m.declaredType
  isStatic : p.member.isStatic = m.isStatic
  content : m.content.Fills p.member.content fun content =>
    settings.copyMemberDocs = true ∧ surface = .interface ∧
      ∃ n ∈ native, n.kind.family = m.kind.family ∧ sameName n.name m.name = true ∧
        content = n.content
  parameters : List.Forall₂ (fun parameter filled =>
    filled.name = parameter.name ∧ filled.declaredType = parameter.declaredType ∧
      parameter.content.Fills filled.content fun content =>
        settings.copyParameterDocs = true ∧ ∃ source, Lends native before m source ∧
          ∃ s ∈ source.parameters, sameName s.name parameter.name = true ∧ content = s.content)
    m.parameters p.member.parameters

/-- The members of the managed side, one to one and in order, with documentation filled in. -/
structure FillsAll (settings : ProjectionSettings) (surface : TypeKind)
    (native own : List BoundMember) (kept : List ProjectedMember) : Prop where
  length : kept.length = own.length
  fills : ∀ i m (p : ProjectedMember), own[i]? = some m → kept[i]? = some p →
    p.Fills settings surface native (own.take i) m

/-! ## The documentation of members -/

/-- Nothing but the documentation of a member is filled in, from a native member of its family and
name. -/
theorem exists_copyDocs (native : List BoundMember) (p : ProjectedMember) : ∃ content,
    p.copyDocs native = { p with member := { p.member with content } } ∧
      p.member.content.Fills content fun content =>
        ∃ n ∈ native, n.kind.family = p.member.kind.family ∧
          sameName n.name p.member.name = true ∧ content = n.content := by
  unfold copyDocs
  split
  · next hempty =>
    split
    · next source hsource =>
      have hmatch := List.find?_some hsource
      rw [Bool.and_eq_true, beq_iff_eq] at hmatch
      exact ⟨source.content, rfl,
        .inr ⟨hempty, source, List.mem_of_find?_eq_some hsource, hmatch.1, hmatch.2, rfl⟩⟩
    · exact ⟨p.member.content, rfl, .inl rfl⟩
  · exact ⟨p.member.content, rfl, .inl rfl⟩

/-! ## The documentation of parameters -/

/-- The documentation of parameters is filled in from parameters of the same name. -/
theorem copyParameterDocs_parameters (source : BoundMember) (p : ProjectedMember) :
    List.Forall₂ (fun parameter filled =>
      filled.name = parameter.name ∧ filled.declaredType = parameter.declaredType ∧
        parameter.content.Fills filled.content fun content =>
          ∃ s ∈ source.parameters, sameName s.name parameter.name = true ∧ content = s.content)
      p.member.parameters (p.copyParameterDocs source).member.parameters := by
  unfold copyParameterDocs
  rw [List.forall₂_map_right_iff, List.forall₂_same]
  intro parameter _
  split
  · next hempty =>
    split
    · next s hs =>
      obtain ⟨hmem, hname⟩ := BoundMember.mem_of_parameter? hs
      exact ⟨rfl, rfl, .inr ⟨hempty, s, hmem, hname, rfl⟩⟩
    · exact ⟨rfl, rfl, .inl rfl⟩
  · exact ⟨rfl, rfl, .inl rfl⟩

/-- The parameters of each member get the documentation of those of the native member that lends it;
`arities` are the numbers of parameters of the constructors in front of all of them. -/
theorem getElem?_copyParameterDocs (native : List BoundMember) (arities : List Nat)
    (members : List ProjectedMember) (i : Nat) :
    (Sides.copyParameterDocs native arities members)[i]? = members[i]?.map fun p =>
      (lender? native (arities.count p.member.parameters.length +
        rank ((members.take i).map (·.member)) p.member) p.member).elim p p.copyParameterDocs := by
  induction members generalizing arities i with
  | nil => rfl
  | cons p members ih =>
    cases i with
    | zero =>
      unfold Sides.copyParameterDocs
      cases hkind : p.member.kind <;> simp [lender?, rank, hkind]
    | succ i =>
      -- A constructor in front of a member counts among the arities or in the rank.
      unfold Sides.copyParameterDocs
      cases hkind : p.member.kind <;>
        simp [ih, rank, hkind, List.countP_cons, List.count_cons, Nat.add_assoc, Nat.add_comm]

theorem length_copyParameterDocs (native : List BoundMember) (arities : List Nat)
    (members : List ProjectedMember) :
    (Sides.copyParameterDocs native arities members).length = members.length := by
  induction members generalizing arities with
  | nil => rfl
  | cons p members ih =>
    unfold Sides.copyParameterDocs
    cases p.member.kind <;> simp [ih]

/-! ## All members -/

/-- A member of the managed side with documentation of its own filled in if it belongs to an
interface. -/
def documented (settings : ProjectionSettings) (surface : TypeKind) (native : List BoundMember)
    (m : BoundMember) : ProjectedMember :=
  if settings.copyMemberDocs && surface == .interface then copyDocs native ⟨m, .managed⟩
  else ⟨m, .managed⟩

/-- Nothing but the documentation of a member is filled in first. -/
theorem exists_documented (settings : ProjectionSettings) (surface : TypeKind)
    (native : List BoundMember) (m : BoundMember) : ∃ content,
    documented settings surface native m = ⟨{ m with content }, .managed⟩ ∧
      m.content.Fills content fun content =>
        settings.copyMemberDocs = true ∧ surface = .interface ∧
          ∃ n ∈ native, n.kind.family = m.kind.family ∧ sameName n.name m.name = true ∧
            content = n.content := by
  unfold documented
  split
  · next hon =>
    rw [Bool.and_eq_true, beq_iff_eq] at hon
    obtain ⟨content, hcopied, hfilled⟩ := exists_copyDocs native ⟨m, .managed⟩
    exact ⟨content, hcopied, hfilled.imp_right fun ⟨hempty, hsource⟩ =>
      ⟨hempty, hon.1, hon.2, hsource⟩⟩
  · exact ⟨m.content, rfl, .inl rfl⟩

@[simp] theorem documented_kind (settings : ProjectionSettings) (surface : TypeKind)
    (native : List BoundMember) (m : BoundMember) :
    (documented settings surface native m).member.kind = m.kind := by
  obtain ⟨content, heq, -⟩ := exists_documented settings surface native m
  rw [heq]

@[simp] theorem documented_parameters (settings : ProjectionSettings) (surface : TypeKind)
    (native : List BoundMember) (m : BoundMember) :
    (documented settings surface native m).member.parameters = m.parameters := by
  obtain ⟨content, heq, -⟩ := exists_documented settings surface native m
  rw [heq]

theorem fills_documented (settings : ProjectionSettings) (surface : TypeKind)
    (native before : List BoundMember) (m : BoundMember) :
    (documented settings surface native m).Fills settings surface native before m := by
  obtain ⟨content, heq, hcontent⟩ := exists_documented settings surface native m
  rw [heq]
  exact ⟨rfl, rfl, rfl, rfl, rfl, hcontent,
    List.forall₂_same.2 fun _ _ => ⟨rfl, rfl, .inl rfl⟩⟩

/-- The native member that lends a member the documentation of its parameters is found by what is as
it was. -/
theorem Fills.lends {source : BoundMember} (h : p.Fills settings surface native before m)
    (hparameters : p.member.parameters = m.parameters)
    (hlender : lender? native (rank before m) p.member = some source) :
    Lends native before m source := by
  unfold lender? at hlender
  rw [h.kind] at hlender
  split at hlender
  · next hkind =>
    rw [Sides.matchingConstructor?, hparameters] at hlender
    exact .constructor hkind hlender
  · next hkind =>
    obtain ⟨hmem, hsource, hname⟩ := BoundMember.mem_of_matchingMethod? hlender
    exact .method hkind hmem hsource (h.name ▸ hname)
  · simp at hlender

/-- The documentation of the parameters of a member is filled in next. -/
theorem Fills.copyParameterDocs {source : BoundMember}
    (h : p.Fills settings surface native before m)
    (hparameters : p.member.parameters = m.parameters)
    (hon : settings.copyParameterDocs = true) (hlends : Lends native before m source) :
    (p.copyParameterDocs source).Fills settings surface native before m where
  origin := h.origin
  name := h.name
  kind := h.kind
  declaredType := h.declaredType
  isStatic := h.isStatic
  content := h.content
  parameters := by
    have hfilled := copyParameterDocs_parameters source p
    rw [hparameters] at hfilled
    refine hfilled.imp ?_
    rintro parameter filled ⟨hname, htype, hcontent⟩
    exact ⟨hname, htype, hcontent.imp_right fun ⟨hempty, hsource⟩ =>
      ⟨hempty, hon, source, hlends, hsource⟩⟩

/-- A member has the same rank whatever documentation is filled in. -/
theorem rank_documented (settings : ProjectionSettings) (surface : TypeKind)
    (native before : List BoundMember) (m : BoundMember) :
    rank ((before.map (documented settings surface native)).map (·.member))
      (documented settings surface native m).member = rank before m := by
  simp [rank, List.countP_map, Function.comp_def]

/-- The members of the managed side with documentation filled in, first their own and then that of
their parameters. -/
def documentedAll (settings : ProjectionSettings) (surface : TypeKind)
    (native own : List BoundMember) : List ProjectedMember :=
  if settings.copyParameterDocs then
    Sides.copyParameterDocs native [] (own.map (documented settings surface native))
  else own.map (documented settings surface native)

theorem fillsAll_documentedAll (settings : ProjectionSettings) (surface : TypeKind)
    (native own : List BoundMember) :
    FillsAll settings surface native own (documentedAll settings surface native own) := by
  unfold documentedAll
  split
  · next hon =>
    refine ⟨by rw [length_copyParameterDocs, List.length_map], ?_⟩
    intro i m p hm hp
    have hfills := fills_documented settings surface native (own.take i) m
    rw [getElem?_copyParameterDocs, List.getElem?_map, hm, ← List.map_take] at hp
    simp only [Option.map_some, List.count_nil, Nat.zero_add, rank_documented,
      Option.some.injEq] at hp
    subst hp
    cases hlender : lender? native (rank (own.take i) m)
        (documented settings surface native m).member with
    | none => exact hfills
    | some source =>
      have hparameters := documented_parameters settings surface native m
      exact hfills.copyParameterDocs hparameters hon (hfills.lends hparameters hlender)
  · refine ⟨List.length_map _, ?_⟩
    intro i m p hm hp
    rw [List.getElem?_map, hm] at hp
    obtain rfl := Option.some.inj hp
    exact fills_documented settings surface native (own.take i) m

/-- With both settings off, no documentation is filled in. -/
theorem documentedAll_off {settings : ProjectionSettings}
    (hmemberDocs : settings.copyMemberDocs = false)
    (hparameterDocs : settings.copyParameterDocs = false) (surface : TypeKind)
    (native own : List BoundMember) :
    documentedAll settings surface native own = own.map (⟨·, .managed⟩) := by
  simp [documentedAll, documented, hmemberDocs, hparameterDocs]

end ProjectedMember

/-! ## The node of a pair -/

/-- The fields of the native side stand in place of those of the managed side. -/
structure Sides.ReplacesFields (settings : ProjectionSettings) (n m : TypeNode) : Prop where
  on : settings.copyEnumValues = true
  undocumented : m.content.isEmpty = true
  field : ∃ f ∈ n.members?.getD [], f.kind = .field

/-- The node of a pair. The managed node gives kind and name, and documentation is filled in from
the native node. Where the managed node has none, the fields and the values of the native node, if
it has any, replace those of the managed node. -/
structure ProjectedType.Fills (settings : ProjectionSettings) (n m : TypeNode)
    (node : ProjectedType) : Prop where
  kind : node.kind = m.kind
  fullName : node.fullName = m.fullName
  name : node.name = m.name
  native : node.native = some n.id
  managed : node.managed = some m.id
  content : node.content = if m.content.isEmpty then n.content else m.content
  members : ∃ own kept, m.members? = some own ∧
    ProjectedMember.FillsAll settings m.kind (n.members?.getD []) own kept ∧
      (¬ Sides.ReplacesFields settings n m → node.members = kept) ∧
      (Sides.ReplacesFields settings n m → node.members =
        ((n.members?.getD []).filter (·.kind == .field)).map (⟨·, .native⟩) ++
          kept.filter (·.member.kind != .field))
  enumValues : ∃ own, m.enumValues? = some own ∧ node.enumValues =
    if settings.copyEnumValues = true ∧ m.content.isEmpty = true ∧ n.enumValues?.getD [] ≠ [] then
      n.enumValues?.getD []
    else own
  off : settings.copyMemberDocs = false → settings.copyParameterDocs = false →
    settings.copyEnumValues = false →
      m.members? = some (node.members.map (·.member)) ∧
        (∀ p ∈ node.members, p.origin = .managed) ∧ m.enumValues? = some node.enumValues

namespace Sides

variable {settings : ProjectionSettings} {n m : TypeNode} {node : ProjectedType}

/-- A node that is no facade can tell its members and its values. -/
theorem exists_answers (h : m.isFacade = false) :
    (∃ own, m.members? = some own) ∧ ∃ own, m.enumValues? = some own := by
  unfold TypeNode.isFacade TypeNode.kind at h
  unfold TypeNode.members? TypeNode.enumValues?
  cases hv : m.variant <;> simp_all [TypeVariant.kind]

theorem members_of_both {own : List BoundMember} (hown : m.members? = some own) :
    members settings { native := some n, managed := some m } =
      let kept := ProjectedMember.documentedAll settings m.kind (n.members?.getD []) own
      if settings.copyEnumValues && m.content.isEmpty then
        replaceFields (n.members?.getD []) kept else kept := by
  have hmembers : ownMembers { native := some n, managed := some m } =
      own.map fun member => { member, origin := .managed } := by
    simp [ownMembers, hown]
  have hnative : nativeMembers { native := some n, managed := some m } = n.members?.getD [] := rfl
  have hreplaces : replacesValues settings { native := some n, managed := some m } =
      (settings.copyEnumValues && m.content.isEmpty) := by
    simp [replacesValues]
  unfold members ProjectedMember.documentedAll ProjectedMember.documented
  dsimp only
  rw [hmembers, hnative, hreplaces]
  cases settings.copyMemberDocs && m.kind == .interface <;> simp [Function.comp_def]

theorem isEmpty_fields {native : List BoundMember} :
    (native.filter (·.kind == .field)).isEmpty = true ↔ ¬ ∃ f ∈ native, f.kind = .field := by
  simp [List.isEmpty_iff]

/-- Unless they are replaced, the members are those of the managed side. -/
theorem members_of_not_replacesFields {own : List BoundMember} (hown : m.members? = some own)
    (hreplaces : ¬ ReplacesFields settings n m) :
    members settings { native := some n, managed := some m } =
      ProjectedMember.documentedAll settings m.kind (n.members?.getD []) own := by
  rw [members_of_both hown]
  dsimp only
  split
  · next hon =>
    rw [Bool.and_eq_true] at hon
    have hfields := isEmpty_fields.2 fun hfield => hreplaces ⟨hon.1, hon.2, hfield⟩
    rw [replaceFields, if_pos hfields]
  · rfl

theorem members_of_replacesFields {own : List BoundMember} (hown : m.members? = some own)
    (hreplaces : ReplacesFields settings n m) :
    members settings { native := some n, managed := some m } =
      ((n.members?.getD []).filter (·.kind == .field)).map (⟨·, .native⟩) ++
        (ProjectedMember.documentedAll settings m.kind (n.members?.getD []) own).filter
          (·.member.kind != .field) := by
  rw [members_of_both hown, hreplaces.on, hreplaces.undocumented, Bool.and_self, if_pos rfl,
    replaceFields, if_neg]
  exact fun hfields => isEmpty_fields.1 hfields hreplaces.field

theorem enumValues_of_both {values : List EnumValue} (hvalues : m.enumValues? = some values) :
    enumValues settings { native := some n, managed := some m } =
      if settings.copyEnumValues = true ∧ m.content.isEmpty = true ∧ n.enumValues?.getD [] ≠ [] then
        n.enumValues?.getD []
      else values := by
  unfold enumValues replacesValues
  cases hn : n.enumValues? with
  | none => simp [hvalues, hn]
  | some native => cases native <;> simp [hvalues, hn, Option.filter_some]

/-- What is composed of a pair has documentation filled in. -/
theorem fills_compose (settings : ProjectionSettings) (n : TypeNode) (h : m.isFacade = false) :
    (compose settings { native := some n, managed := some m }).Fills settings n m := by
  obtain ⟨⟨own, hown⟩, values, hvalues⟩ := exists_answers h
  have hsurface : surface? { native := some n, managed := some m } = some m := by
    simp [surface?, Option.filter_some, h]
  have hname : (compose settings { native := some n, managed := some m }).fullName =
      m.fullName := by
    simp [compose, hsurface]
  refine {
    kind := by simp [compose, hsurface]
    fullName := hname
    name := congrArg Name.short hname
    native := rfl
    managed := rfl
    content := ?_
    members := ⟨own, _, hown, ProjectedMember.fillsAll_documentedAll settings m.kind
      (n.members?.getD []) own, members_of_not_replacesFields hown, members_of_replacesFields hown⟩
    enumValues := ⟨values, hvalues, enumValues_of_both hvalues⟩
    off := ?_ }
  · cases hempty : m.content.isEmpty <;> simp [compose, content, Option.filter_some, hempty]
  · intro hmemberDocs hparameterDocs hvalueDocs
    have hreplaces : ¬ ReplacesFields settings n m := fun h => by simp [h.on] at hvalueDocs
    have hkept : (compose settings { native := some n, managed := some m }).members =
        own.map (⟨·, .managed⟩) := by
      rw [compose, members_of_not_replacesFields hown hreplaces,
        ProjectedMember.documentedAll_off hmemberDocs hparameterDocs]
    refine ⟨?_, ?_, ?_⟩
    · simp [hkept, hown, Function.comp_def]
    · simp [hkept]
    · rw [hvalues, compose, enumValues_of_both hvalues]
      simp [hvalueDocs]

end Sides

/-! ## Merging -/

namespace Merger

variable {native managed : TypeGraph} {i j : TypeId} {n m : TypeNode}

/-- Whatever has been merged before, what is stored by merging two nodes is composed of them alone,
up to its place in the tree. -/
theorem exists_merge (settings : ProjectionSettings) (calls : List Call)
    (hn : native.get? i = some n) (hm : managed.get? j = some m) :
    ∃ id merged parent children,
      (performAll { settings, native, managed } calls).merge i j = (.ok id, merged) ∧
      merged.projection.get? id =
        some { Sides.compose settings { native := some n, managed := some m } with
          id, parent, children } := by
  have hnamed := named_performAll (m := { settings, native, managed }) Projection.named_empty calls
  have hsettings := settings_performAll { settings, native, managed } calls
  have hnative := graph_performAll .native { settings, native, managed } calls
  have hmanaged := graph_performAll .managed { settings, native, managed } calls
  generalize performAll { settings, native, managed } calls = merger at *
  have hpair : merger.pair i j = .ok { native := some n, managed := some m } := by
    rw [pair, show merger.native = native from hnative, hn,
      show merger.managed = managed from hmanaged, hm]
  obtain ⟨parent, children, hget⟩ := Projection.exists_get?_upsert_self hnamed
    (Sides.compose settings { native := some n, managed := some m })
  subst hsettings
  exact ⟨_, _, parent, children, merge_of_pair hpair, hget⟩

/-- Whatever has been merged before and whatever the settings are, merging a native node and a
managed node that is no facade stores a node that takes kind, name and members from the managed
node, and in which the native node fills in documentation where there is none. -/
theorem fills_merge (settings : ProjectionSettings) (calls : List Call)
    (hn : native.get? i = some n) (hm : managed.get? j = some m) (hfacade : m.isFacade = false) :
    ∃ id merged node,
      (performAll { settings, native, managed } calls).merge i j = (.ok id, merged) ∧
      merged.projection.get? id = some node ∧ node.Fills settings n m := by
  obtain ⟨id, merged, parent, children, hmerge, hget⟩ := exists_merge settings calls hn hm
  have hfills := Sides.fills_compose settings n hfacade
  refine ⟨id, merged, _, hmerge, hget, ?_⟩
  exact ⟨hfills.kind, hfills.fullName, hfills.name, hfills.native, hfills.managed, hfills.content,
    hfills.members, hfills.enumValues, hfills.off⟩

/-- The universe of one compound. -/
def soleGraph (origin : Universe) (c : Compound) : TypeGraph :=
  ((Registry.empty origin (.ofPreset .standard)).define c).2.resolve.1

/-- An interface with a method of one parameter. -/
def focusable (method parameter : Content) : Compound :=
  { Compound.empty "f" .native "IFocus" .interface with
    members :=
      [{ name := "Focus", kind := .method, content := method
         parameters := [{ name := "how", content := parameter }] }] }

/-- A documented interface and one without documentation of its method. -/
def focusing : Merger where
  settings := {}
  native := soleGraph .native (focusable { summary := "native" } { summary := "native" })
  managed := soleGraph .managed (focusable {} { summary := "managed" })

/-- The method gets its documentation from the native side, and the parameter keeps its own one. -/
theorem fills_merge_focusing :
    ∃ n m, focusing.native.get? ⟨1⟩ = some n ∧ focusing.managed.get? ⟨1⟩ = some m ∧
      m.isFacade = false ∧
      (∃ id merged node, focusing.merge ⟨1⟩ ⟨1⟩ = (.ok id, merged) ∧
        merged.projection.get? id = some node ∧ node.Fills focusing.settings n m) ∧
      ((focusing.merge ⟨1⟩ ⟨1⟩).2.projection.get? ⟨0⟩).map (fun node =>
          node.members.map fun p => (p.member.content, p.member.parameters.map (·.content))) =
        some [({ summary := "native" }, [{ summary := "managed" }])] := by
  have hnative : (focusing.native.get? ⟨1⟩).isSome = true := by decide +kernel
  have hmanaged : (focusing.managed.get? ⟨1⟩).map (·.isFacade) = some false := by decide +kernel
  obtain ⟨n, hn⟩ := Option.isSome_iff_exists.1 hnative
  obtain ⟨m, hm, hfacade⟩ := Option.map_eq_some_iff.1 hmanaged
  exact ⟨n, m, hn, hm, hfacade, fills_merge focusing.settings [] hn hm hfacade, by decide +kernel⟩

/-- An enumeration with one value. -/
def red (content : Content) : Compound :=
  { Compound.empty "c" .native "Color" .enum with enumValues := [{ name := "Red", content }] }

/-- Two enumerations without documentation of their own, whose values are documented. -/
def coloring : Merger where
  settings := {}
  native := soleGraph .native (red { summary := "native red" })
  managed := soleGraph .managed (red { summary := "managed red" })

/-- The documentation of the managed value does not stay: the whole value is replaced. -/
theorem not_fills_merge_coloring :
    (coloring.native.get? ⟨1⟩).map (·.isFacade) = some false ∧
      (coloring.managed.get? ⟨1⟩).map (·.isFacade) = some false ∧
      (coloring.managed.get? ⟨1⟩).bind (fun m => m.enumValues?.map (·.map (·.content))) =
        some [{ summary := "managed red" }] ∧
      ({ summary := "managed red" } : Content).isEmpty = false ∧
      ((coloring.merge ⟨1⟩ ⟨1⟩).2.projection.get? ⟨0⟩).map (fun node =>
          node.enumValues.map (·.content)) =
        some [{ summary := "native red" }] := by
  decide +kernel

end Merger

end TypeAtlas
