import Mathlib.Data.List.Nodup
import TypeAtlas.Proofs.Projection.Filling

/-!
# Fields that are replaced

Fields, properties and enumeration values are data, and what is a native field is a managed property
more often than not. Where the managed node has no documentation, the fields of the native node
replace its fields, but the rest of its data stays. A native field that the managed side has as a
property is then a member twice. In no other way does a datum become two members.

## Main definitions

* `BoundMember.dataNames` — the names of fields, properties and enumeration values.
* `Sides.Doubles` — a native field that is added next to what the managed side has in its place.

The main statement is `Merger.nodup_dataNames_merge_iff`.
-/

namespace TypeAtlas

/-! ## The names of data -/

namespace BoundMember

variable {native members own : List BoundMember}

/-- The names of fields, properties and enumeration values, in lower case. -/
def dataNames (members : List BoundMember) : List String :=
  (members.filter (·.kind.family == .data)).map (Text.asciiLowercase ·.name)

/-- The kinds and the names of members. -/
def headings (members : List BoundMember) : List (MemberKind × String) :=
  members.map fun m => (m.kind, m.name)

theorem dataNames_eq_of_headings (h : headings members = headings own) :
    dataNames members = dataNames own := by
  have hnames (members : List BoundMember) : dataNames members =
      ((headings members).filter (·.1.family == .data)).map (Text.asciiLowercase ·.2) := by
    simp [dataNames, headings, List.filter_map, Function.comp_def]
  rw [hnames, hnames, h]

theorem headings_filter (members : List BoundMember) (p : MemberKind → Bool) :
    headings (members.filter (p ·.kind)) = (headings members).filter (p ·.1) := by
  simp [headings, List.filter_map, Function.comp_def]

theorem dataNames_append (members own : List BoundMember) :
    dataNames (members ++ own) = dataNames members ++ dataNames own := by
  simp [dataNames]

theorem mem_dataNames {name : String} : name ∈ dataNames members ↔
    ∃ m ∈ members, m.kind.family = .data ∧ Text.asciiLowercase m.name = name := by
  simp [dataNames, and_assoc]

theorem nodup_dataNames_filter (h : (dataNames members).Nodup) (p : BoundMember → Bool) :
    (dataNames (members.filter p)).Nodup :=
  h.sublist (List.filter_sublist.filter _ |>.map _)

/-- Data of different kinds have different names. -/
theorem sameName_eq_false_of_nodup {f k : BoundMember} (h : (dataNames members).Nodup)
    (hf : f ∈ members) (hfield : f.kind = .field) (hk : k ∈ members)
    (hdata : k.kind.family = .data) (hkind : k.kind ≠ .field) :
    sameName f.name k.name = false := by
  refine beq_false_of_ne fun hname => hkind ?_
  have hfdata : f ∈ members.filter (·.kind.family == .data) :=
    List.mem_filter.2 ⟨hf, by simp [hfield, MemberKind.family]⟩
  have hkdata : k ∈ members.filter (·.kind.family == .data) :=
    List.mem_filter.2 ⟨hk, by simp [hdata]⟩
  rw [← List.inj_on_of_nodup_map h hfdata hkdata hname, hfield]

/-- Fields of one side and what is no field of the other one have names of their own if and only if
no two of them have the same name. -/
theorem nodup_dataNames_replaced (hnative : (dataNames native).Nodup)
    (hown : (dataNames own).Nodup) :
    (dataNames (native.filter (·.kind == .field) ++ own.filter (·.kind != .field))).Nodup ↔
      ∀ f ∈ native, f.kind = .field → ∀ k ∈ own, k.kind.family = .data → k.kind ≠ .field →
        sameName f.name k.name = false := by
  rw [dataNames_append, List.nodup_append]
  constructor
  · rintro ⟨-, -, hdisjoint⟩ f hf hfield k hk hdata hkind
    refine beq_false_of_ne (hdisjoint _ ?_ _ ?_)
    · exact mem_dataNames.2 ⟨f, List.mem_filter.2 ⟨hf, by simp [hfield]⟩,
        by simp [hfield, MemberKind.family], rfl⟩
    · exact mem_dataNames.2 ⟨k, List.mem_filter.2 ⟨hk, by simp [hkind]⟩, hdata, rfl⟩
  · intro hnames
    refine ⟨nodup_dataNames_filter hnative _, nodup_dataNames_filter hown _, ?_⟩
    intro a ha b hb
    obtain ⟨f, hf, -, rfl⟩ := mem_dataNames.1 ha
    obtain ⟨k, hk, hdata, rfl⟩ := mem_dataNames.1 hb
    obtain ⟨hf, hfield⟩ := List.mem_filter.1 hf
    obtain ⟨hk, hkind⟩ := List.mem_filter.1 hk
    exact ne_of_beq_false (hnames f hf (eq_of_beq hfield) k hk hdata (by simpa using hkind))

end BoundMember

/-! ## The members of a pair -/

namespace ProjectedMember

open BoundMember (headings)

/-- Kinds and names stay when the documentation of members is copied. -/
theorem headings_copyDocs (native : List BoundMember) (members : List ProjectedMember) :
    headings ((members.map (·.copyDocs native)).map (·.member)) =
      headings (members.map (·.member)) := by
  have hheading (p : ProjectedMember) :
      ((p.copyDocs native).member.kind, (p.copyDocs native).member.name) =
        (p.member.kind, p.member.name) := by
    obtain ⟨content, heq, -⟩ := exists_copyDocs native p
    rw [heq]
  simp [headings, Function.comp_def, hheading]

/-- Kinds and names stay when the documentation of parameters is copied. -/
theorem headings_copyParameterDocs (native : List BoundMember) (arities : List Nat)
    (members : List ProjectedMember) :
    headings ((Sides.copyParameterDocs native arities members).map (·.member)) =
      headings (members.map (·.member)) := by
  have hheading (source : Option BoundMember) (p : ProjectedMember) :
      ((source.elim p p.copyParameterDocs).member.kind,
        (source.elim p p.copyParameterDocs).member.name) = (p.member.kind, p.member.name) := by
    cases source <;> rfl
  induction members generalizing arities with
  | nil => rfl
  | cons p members ih =>
    unfold headings at ih ⊢
    unfold Sides.copyParameterDocs
    cases p.member.kind <;> simp only [List.map_cons, hheading, ih]

end ProjectedMember

namespace Sides

open BoundMember (dataNames headings)

variable {settings : ProjectionSettings} {n m : TypeNode}

/-- A native field is added to the members, which have a datum of this name that is no field. -/
structure Doubles (settings : ProjectionSettings) (n m : TypeNode) : Prop where
  on : settings.copyEnumValues = true
  undocumented : m.content.isEmpty = true
  datum : ∃ f ∈ n.members?.getD [], f.kind = .field ∧
    ∃ k ∈ m.members?.getD [], k.kind.family = .data ∧ k.kind ≠ .field ∧
      sameName f.name k.name = true

/-- The members of a pair are those of the managed side, if it can tell them, up to documentation;
then fields are replaced. -/
theorem exists_members (settings : ProjectionSettings) (n m : TypeNode) : ∃ kept,
    headings (kept.map (·.member)) = headings (m.members?.getD (n.members?.getD [])) ∧
      members settings { native := some n, managed := some m } =
        if settings.copyEnumValues && m.content.isEmpty then
          replaceFields (n.members?.getD []) kept else kept := by
  have hown : headings ((ownMembers { native := some n, managed := some m }).map (·.member)) =
      headings (m.members?.getD (n.members?.getD [])) := by
    unfold ownMembers
    cases hmembers : m.members? <;> simp [hmembers, nativeMembers, Function.comp_def]
  have hreplaces : replacesValues settings { native := some n, managed := some m } =
      (settings.copyEnumValues && m.content.isEmpty) := by
    simp [replacesValues]
  have hnative : nativeMembers { native := some n, managed := some m } = n.members?.getD [] := rfl
  unfold members
  dsimp only
  rw [hreplaces, hnative]
  refine ⟨_, ?_, rfl⟩
  rw [← hown]
  split
  · rw [ProjectedMember.headings_copyParameterDocs]
    split
    · exact ProjectedMember.headings_copyDocs _ _
    · rfl
  · split
    · exact ProjectedMember.headings_copyDocs _ _
    · rfl

/-- The fields of the native side, if there are any, stand in place of fields alone. -/
theorem map_member_replaceFields {native : List BoundMember} {kept : List ProjectedMember}
    (h : ∃ f ∈ native, f.kind = .field) : (replaceFields native kept).map (·.member) =
      native.filter (·.kind == .field) ++ (kept.map (·.member)).filter (·.kind != .field) := by
  rw [replaceFields, if_neg fun hnone => isEmpty_fields.1 hnone h]
  simp [List.filter_map, Function.comp_def]

/-- No native field is added to a datum of its name, whatever the managed side can tell. -/
theorem not_doubles_iff (hon : settings.copyEnumValues = true) (hempty : m.content.isEmpty = true)
    (hn : (dataNames (n.members?.getD [])).Nodup) :
    (∀ f ∈ n.members?.getD [], f.kind = .field → ∀ k ∈ m.members?.getD (n.members?.getD []),
      k.kind.family = .data → k.kind ≠ .field → sameName f.name k.name = false) ↔
      ¬ Doubles settings n m := by
  constructor
  · rintro hnames ⟨-, -, f, hf, hfield, k, hk, hdata, hkind, hsame⟩
    have hk : k ∈ m.members?.getD (n.members?.getD []) := by
      cases hm : m.members? <;> simp_all
    rw [hnames f hf hfield k hk hdata hkind] at hsame
    exact Bool.false_ne_true hsame
  · intro hnot f hf hfield k hk hdata hkind
    cases hm : m.members? with
    | none =>
      rw [hm, Option.getD_none] at hk
      exact BoundMember.sameName_eq_false_of_nodup hn hf hfield hk hdata hkind
    | some own =>
      refine Bool.eq_false_iff.2 fun hsame => ?_
      refine hnot ⟨hon, hempty, f, hf, hfield, k, ?_, hdata, hkind, hsame⟩
      rwa [hm, Option.getD_some] at hk ⊢

/-- What is composed of two nodes whose data have names of their own has a datum twice if and only
if a native field is added to it. -/
theorem nodup_dataNames_members_iff (settings : ProjectionSettings)
    (hn : (dataNames (n.members?.getD [])).Nodup) (hm : (dataNames (m.members?.getD [])).Nodup) :
    (dataNames ((members settings { native := some n, managed := some m }).map
      (·.member))).Nodup ↔ ¬ Doubles settings n m := by
  obtain ⟨kept, hkept, heq⟩ := exists_members settings n m
  -- A node that cannot tell its members leaves those of the native side.
  have hown : (dataNames (m.members?.getD (n.members?.getD []))).Nodup := by
    cases h : m.members? with
    | none => exact hn
    | some own => simpa [h] using hm
  have hnames : (dataNames (kept.map (·.member))).Nodup := by
    rwa [BoundMember.dataNames_eq_of_headings hkept]
  rw [heq]
  split
  · next hon =>
    rw [Bool.and_eq_true] at hon
    by_cases hfields : ∃ f ∈ n.members?.getD [], f.kind = .field
    · have hrest : headings ((kept.map (·.member)).filter (·.kind != .field)) =
          headings ((m.members?.getD (n.members?.getD [])).filter (·.kind != .field)) := by
        rw [BoundMember.headings_filter _ (· != .field), hkept]
        exact (BoundMember.headings_filter _ (· != .field)).symm
      rw [map_member_replaceFields hfields, BoundMember.dataNames_append,
        BoundMember.dataNames_eq_of_headings hrest, ← BoundMember.dataNames_append,
        BoundMember.nodup_dataNames_replaced hn hown]
      exact not_doubles_iff hon.1 hon.2 hn
    · rw [replaceFields, if_pos (isEmpty_fields.2 hfields)]
      refine iff_of_true hnames ?_
      rintro ⟨_, _, f, hf, hfield, _⟩
      exact hfields ⟨f, hf, hfield⟩
  · next hoff =>
    exact iff_of_true hnames fun h => hoff (by simp [h.on, h.undocumented])

end Sides

/-! ## Merging -/

namespace Merger

open BoundMember (dataNames)

variable {native managed : TypeGraph} {i j : TypeId} {n m : TypeNode}

/-- Whatever has been merged before and whatever the settings are, merging two nodes whose data have
names of their own stores a node whose data have names of their own too, if and only if no native
field is added to a datum of its name that is no field. -/
theorem nodup_dataNames_merge_iff (settings : ProjectionSettings) (calls : List Call)
    (hn : native.get? i = some n) (hm : managed.get? j = some m)
    (hnames : (dataNames (n.members?.getD [])).Nodup)
    (hnames' : (dataNames (m.members?.getD [])).Nodup) :
    ∃ id merged node,
      (performAll { settings, native, managed } calls).merge i j = (.ok id, merged) ∧
      merged.projection.get? id = some node ∧
      ((dataNames (node.members.map (·.member))).Nodup ↔ ¬ Sides.Doubles settings n m) := by
  obtain ⟨id, merged, parent, children, hmerge, hget⟩ := exists_merge settings calls hn hm
  exact ⟨id, merged, _, hmerge, hget, Sides.nodup_dataNames_members_iff _ hnames hnames'⟩

/-- A class with one datum, a field or a property. -/
def pointing (kind : MemberKind) (name : String) : Compound :=
  { Compound.empty "p" .native "Point" .classType with members := [{ name, kind }] }

/-- A native field that is a managed property. -/
def surfacing : Merger where
  settings := {}
  native := soleGraph .native (pointing .field "x")
  managed := soleGraph .managed (pointing .property "X")

/-- The field is added to the property. -/
theorem nodup_dataNames_merge_surfacing :
    ∃ n m, surfacing.native.get? ⟨1⟩ = some n ∧ surfacing.managed.get? ⟨1⟩ = some m ∧
      (dataNames (n.members?.getD [])).Nodup ∧ (dataNames (m.members?.getD [])).Nodup ∧
      (∃ id merged node, surfacing.merge ⟨1⟩ ⟨1⟩ = (.ok id, merged) ∧
        merged.projection.get? id = some node ∧
        ((dataNames (node.members.map (·.member))).Nodup ↔
          ¬ Sides.Doubles surfacing.settings n m)) ∧
      ((surfacing.merge ⟨1⟩ ⟨1⟩).2.projection.get? ⟨0⟩).map (fun node =>
          node.members.map fun p => (p.member.name, p.member.kind, p.origin)) =
        some [("x", .field, .native), ("X", .property, .managed)] := by
  have hnative : (surfacing.native.get? ⟨1⟩).map (dataNames <| ·.members?.getD []) =
    some ["x"] := by decide +kernel
  have hmanaged : (surfacing.managed.get? ⟨1⟩).map (dataNames <| ·.members?.getD []) =
    some ["x"] := by decide +kernel
  obtain ⟨n, hn, hnames⟩ := Option.map_eq_some_iff.1 hnative
  obtain ⟨m, hm, hnames'⟩ := Option.map_eq_some_iff.1 hmanaged
  have hnodup : (dataNames (n.members?.getD [])).Nodup := hnames ▸ List.nodup_singleton _
  have hnodup' : (dataNames (m.members?.getD [])).Nodup := hnames' ▸ List.nodup_singleton _
  exact ⟨n, m, hn, hm, hnodup, hnodup',
    nodup_dataNames_merge_iff surfacing.settings [] hn hm hnodup hnodup', by decide +kernel⟩

end Merger

end TypeAtlas
