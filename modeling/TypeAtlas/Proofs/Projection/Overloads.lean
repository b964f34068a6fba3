import TypeAtlas.Proofs.Projection.Filling

/-!
# The overloads that document a method

A method of an interface without documentation gets that of a native method of its name, and so do
its parameters. The two are looked for separately. The parameters are documented by the overload
that the method stands for: the first one with as many parameters, or the first one of all. The
method itself is documented by the first overload, whatever parameters it has, so that the two come
from different overloads where a later one has as many parameters as the method.

## Main definitions

* `BoundMember.overloads` — the native methods with the name of a method.
* `BoundMember.StandsFor` — the overload that a method stands for.
* `BoundMember.Misled` — a method whose own documentation is that of another overload.
* `ProjectedMember.Describes` — a method with all documentation filled in.

The main statement is `Merger.describes_merge_iff`.
-/

namespace TypeAtlas

/-! ## Overloads -/

namespace BoundMember

variable {native : List BoundMember} {m source : BoundMember}

/-- The native methods with the name of a member, in order. -/
def overloads (native : List BoundMember) (m : BoundMember) : List BoundMember :=
  native.filter fun n => n.kind == .method && sameName n.name m.name

/-- The native overload that a method stands for: the first one with as many parameters, or the
first one of all if there is none. -/
inductive StandsFor (native : List BoundMember) (m source : BoundMember) : Prop
  | arity (before after : List BoundMember) (heq : overloads native m = before ++ source :: after)
      (harity : source.parameters.length = m.parameters.length)
      (hbefore : ∀ n ∈ before, n.parameters.length ≠ m.parameters.length)
  | first (after : List BoundMember) (heq : overloads native m = source :: after)
      (hnone : ∀ n ∈ overloads native m, n.parameters.length ≠ m.parameters.length)

/-- The first overload has other documentation than the one that a method stands for. -/
def Misled (native : List BoundMember) (m : BoundMember) : Prop :=
  ∃ first after source, overloads native m = first :: after ∧
    first.parameters.length ≠ m.parameters.length ∧
    after.find? (·.parameters.length == m.parameters.length) = some source ∧
    first.content ≠ source.content

theorem family_beq_callable (kind : MemberKind) :
    (kind.family == .callable) = (kind == .method) := by
  cases kind <;> rfl

theorem matchingMethod?_eq (native : List BoundMember) (m : BoundMember) :
    Sides.matchingMethod? native m =
      ((overloads native m).find? (·.parameters.length == m.parameters.length)).or
        (overloads native m).head? := by
  simp [Sides.matchingMethod?, overloads, family_beq_callable]

/-- The overload that a method stands for is the one that documents its parameters. -/
theorem standsFor_iff :
    StandsFor native m source ↔ Sides.matchingMethod? native m = some source := by
  rw [matchingMethod?_eq, Option.or_eq_some_iff, List.find?_eq_some_iff_append, List.find?_eq_none,
    List.head?_eq_some_iff]
  constructor
  · rintro (⟨before, after, heq, harity, hbefore⟩ | ⟨after, heq, hnone⟩)
    · exact .inl ⟨by simpa using harity, before, after, heq, by simpa using hbefore⟩
    · exact .inr ⟨by simpa using hnone, after, heq⟩
  · rintro (⟨harity, before, after, heq, hbefore⟩ | ⟨hnone, after, heq⟩)
    · exact .arity before after heq (by simpa using harity) (by simpa using hbefore)
    · exact .first after heq (by simpa using hnone)

/-- A method stands for some overload if there is any. -/
theorem exists_standsFor {first : BoundMember} (h : (overloads native m).head? = some first) :
    ∃ source, StandsFor native m source := by
  simp only [standsFor_iff, matchingMethod?_eq, h]
  cases (overloads native m).find? (·.parameters.length == m.parameters.length) with
  | none => exact ⟨first, rfl⟩
  | some source => exact ⟨source, rfl⟩

/-- What is found first for the documentation of a method is the first overload. -/
theorem find?_family (native : List BoundMember) (h : m.kind = .method) :
    (native.find? fun n => n.kind.family == m.kind.family && sameName n.name m.name) =
      (overloads native m).head? := by
  simp [overloads, List.head?_filter, h, ← family_beq_callable, MemberKind.family]

/-- Exactly where a method is not misled, the first overload has the documentation of the one that
it stands for. -/
theorem not_misled_iff {first : BoundMember} (hfirst : (overloads native m).head? = some first)
    (hsource : StandsFor native m source) :
    first.content = source.content ↔ ¬ Misled native m := by
  obtain ⟨after, heq⟩ := List.head?_eq_some_iff.1 hfirst
  rw [standsFor_iff, matchingMethod?_eq, heq, List.find?_cons, List.head?_cons] at hsource
  constructor
  · rintro hsame ⟨first', after', source', heq', hne, hfind, hdiffer⟩
    obtain ⟨rfl, rfl⟩ := List.cons.inj (heq.symm.trans heq')
    rw [beq_false_of_ne hne, hfind] at hsource
    obtain rfl := Option.some.inj hsource
    exact hdiffer hsame
  · intro hnot
    split at hsource
    · rw [Option.some.inj hsource]
    · next hne =>
      cases hfind : after.find? (·.parameters.length == m.parameters.length) with
      | none =>
        rw [hfind] at hsource
        rw [Option.some.inj hsource]
      | some other =>
        rw [hfind] at hsource
        obtain rfl := Option.some.inj hsource
        exact Decidable.of_not_not fun hdiffer =>
          hnot ⟨first, after, other, heq, ne_of_beq_false hne, hfind, hdiffer⟩

end BoundMember

/-! ## The methods of a pair -/

namespace ProjectedMember

open BoundMember (overloads StandsFor Misled)

variable {settings : ProjectionSettings} {native own : List BoundMember} {m source : BoundMember}

/-- A method of the managed side with all documentation filled in: its own is that of the first
overload, and that of its parameters is of the overload that it stands for. -/
structure Describes (native : List BoundMember) (m : BoundMember) (p : ProjectedMember) : Prop where
  origin : p.origin = .managed
  name : p.member.name = m.name
  declaredType : p.member.declaredType = m.declaredType
  isStatic : p.member.isStatic = m.isStatic
  content : p.member.content =
    if m.content.isEmpty then ((overloads native m).head?.map (·.content)).getD m.content
    else m.content
  parameters : ∀ source, StandsFor native m source → p.member.parameters = m.parameters.map fun q =>
    if q.content.isEmpty then
      { q with content := ((source.parameter? q.name).map (·.content)).getD q.content }
    else q

/-- Exactly where a method without documentation is not misled, it gets that of the overload that it
stands for. -/
theorem Describes.content_eq_iff {p : ProjectedMember} (h : p.Describes native m)
    (hempty : m.content.isEmpty = true) :
    (∀ source, StandsFor native m source → p.member.content = source.content) ↔
      ¬ Misled native m := by
  have hcontent := h.content
  rw [if_pos hempty] at hcontent
  cases hfirst : (overloads native m).head? with
  | none =>
    have hnone : overloads native m = [] := List.head?_eq_none_iff.1 hfirst
    refine iff_of_true (fun source hfor => ?_) ?_
    · simp [BoundMember.standsFor_iff, BoundMember.matchingMethod?_eq, hnone] at hfor
    · rintro ⟨first, after, source, heq, -⟩
      simp [hnone] at heq
  | some first =>
    obtain ⟨source, hsource⟩ := BoundMember.exists_standsFor hfirst
    rw [hfirst, Option.map_some, Option.getD_some] at hcontent
    rw [← BoundMember.not_misled_iff hfirst hsource, hcontent]
    refine ⟨fun hall => hall source hsource, fun hsame other hother => ?_⟩
    rw [BoundMember.standsFor_iff] at hsource hother
    rw [hsame, Option.some.inj (hsource.symm.trans hother)]

/-- A method of the managed side of two interfaces with all documentation filled in. -/
def described (native : List BoundMember) (m : BoundMember) : ProjectedMember :=
  let p := copyDocs native ⟨m, .managed⟩
  (Sides.matchingMethod? native p.member).elim p p.copyParameterDocs

/-- The documentation of a method itself is that of the first overload. -/
theorem copyDocs_of_method (native : List BoundMember) (h : m.kind = .method) :
    copyDocs native ⟨m, .managed⟩ = ⟨{ m with content :=
      if m.content.isEmpty then ((overloads native m).head?.map (·.content)).getD m.content
      else m.content }, .managed⟩ := by
  simp only [copyDocs, BoundMember.find?_family native h]
  split
  · cases (overloads native m).head? <;> rfl
  · rfl

theorem copyParameterDocs_eq_map (source : BoundMember) (p : ProjectedMember) :
    (p.copyParameterDocs source).member.parameters = p.member.parameters.map fun q =>
      if q.content.isEmpty then
        { q with content := ((source.parameter? q.name).map (·.content)).getD q.content }
      else q := by
  refine List.map_congr_left fun q _ => ?_
  cases source.parameter? q.name <;> rfl

theorem describes_described (native : List BoundMember) (h : m.kind = .method) :
    (described native m).Describes native m := by
  have hmatching (content : Content) :
      Sides.matchingMethod? native { m with content } = Sides.matchingMethod? native m := rfl
  rw [described, copyDocs_of_method native h]
  generalize hcontent : (if m.content.isEmpty then
    ((overloads native m).head?.map (·.content)).getD m.content else m.content) = content
  dsimp only
  rw [hmatching]
  cases hsource : Sides.matchingMethod? native m with
  | none =>
    refine ⟨rfl, rfl, rfl, rfl, hcontent.symm, fun source hfor => ?_⟩
    simp [BoundMember.standsFor_iff, hsource] at hfor
  | some found =>
    refine ⟨rfl, rfl, rfl, rfl, hcontent.symm, fun source hfor => ?_⟩
    obtain rfl := Option.some.inj (hsource.symm.trans (BoundMember.standsFor_iff.1 hfor))
    exact copyParameterDocs_eq_map found _

/-- The parameters of a method are documented by the overload that it stands for, whatever comes
before it. -/
theorem filter_copyParameterDocs (native : List BoundMember) (arities : List Nat)
    (members : List ProjectedMember) :
    (Sides.copyParameterDocs native arities members).filter (·.member.kind == .method) =
      (members.filter (·.member.kind == .method)).map fun p =>
        (Sides.matchingMethod? native p.member).elim p p.copyParameterDocs := by
  have hkind (source : Option BoundMember) (p : ProjectedMember) :
      (source.elim p p.copyParameterDocs).member.kind = p.member.kind := by
    cases source <;> rfl
  induction members generalizing arities with
  | nil => rfl
  | cons p members ih =>
    unfold Sides.copyParameterDocs
    cases h : p.member.kind <;> simp [ih, hkind, h]

theorem filter_documentedAll (native own : List BoundMember)
    (hmembers : settings.copyMemberDocs = true) (hparameters : settings.copyParameterDocs = true) :
    (documentedAll settings .interface native own).filter (·.member.kind == .method) =
      (own.filter (·.kind == .method)).map (described native) := by
  have hdocumented (m : BoundMember) :
      documented settings .interface native m = copyDocs native ⟨m, .managed⟩ := by
    simp [documented, hmembers]
  have hkind (m : BoundMember) : (copyDocs native ⟨m, .managed⟩).member.kind = m.kind :=
    hdocumented m ▸ documented_kind settings .interface native m
  rw [documentedAll, if_pos hparameters, filter_copyParameterDocs, funext hdocumented,
    List.filter_map, List.map_map]
  simp only [Function.comp_def, hkind]
  rfl

/-- Fields take the place of fields alone. -/
theorem filter_replaceFields (native : List BoundMember) (members : List ProjectedMember) :
    (Sides.replaceFields native members).filter (·.member.kind == .method) =
      members.filter (·.member.kind == .method) := by
  unfold Sides.replaceFields
  dsimp only
  split
  · rfl
  · rw [List.filter_append, List.filter_map, List.filter_filter, List.filter_filter]
    have hfields : (native.filter fun m => m.kind == .method && m.kind == .field) = [] :=
      List.filter_eq_nil_iff.2 fun m _ => by cases m.kind <;> simp
    have hmethods (p : ProjectedMember) : (p.member.kind == .method && p.member.kind != .field) =
        (p.member.kind == .method) := by
      cases p.member.kind <;> rfl
    simp only [Function.comp_def, hfields, hmethods, List.map_nil, List.nil_append]

end ProjectedMember

namespace Sides

variable {settings : ProjectionSettings} {n m : TypeNode}

/-- The methods of a pair of interfaces are those of the managed side, documented by native ones. -/
theorem filter_members {own : List BoundMember} (hinterface : m.kind = .interface)
    (hown : m.members? = some own) (hmembers : settings.copyMemberDocs = true)
    (hparameters : settings.copyParameterDocs = true) :
    (members settings { native := some n, managed := some m }).filter (·.member.kind == .method) =
      (own.filter (·.kind == .method)).map
        (ProjectedMember.described (n.members?.getD [])) := by
  rw [members_of_both hown, hinterface]
  dsimp only
  split
  · rw [ProjectedMember.filter_replaceFields,
      ProjectedMember.filter_documentedAll _ _ hmembers hparameters]
  · exact ProjectedMember.filter_documentedAll _ _ hmembers hparameters

end Sides

/-! ## Merging -/

namespace Merger

open BoundMember (overloads StandsFor Misled)

variable {native managed : TypeGraph} {i j : TypeId} {n m : TypeNode}

/-- Whatever has been merged before, where the documentation of members and of parameters is copied,
merging a native node and a managed interface stores a node whose methods are those of the
interface, one to one and in order, with all documentation filled in. Each method without
documentation gets that of the overload which documents its parameters if and only if no such method
is misled. -/
theorem describes_merge_iff (settings : ProjectionSettings) (calls : List Call)
    (hn : native.get? i = some n) (hm : managed.get? j = some m) (hinterface : m.kind = .interface)
    (hmembers : settings.copyMemberDocs = true) (hparameters : settings.copyParameterDocs = true) :
    ∃ id merged node own,
      (performAll { settings, native, managed } calls).merge i j = (.ok id, merged) ∧
      merged.projection.get? id = some node ∧ m.members? = some own ∧
      List.Forall₂ (fun k p => p.Describes (n.members?.getD []) k)
        (own.filter (·.kind == .method)) (node.members.filter (·.member.kind == .method)) ∧
      (List.Forall₂ (fun k p => k.content.isEmpty = true →
          ∀ source, StandsFor (n.members?.getD []) k source → p.member.content = source.content)
        (own.filter (·.kind == .method)) (node.members.filter (·.member.kind == .method)) ↔
      ∀ k ∈ own, k.kind = .method → k.content.isEmpty = true →
        ¬ Misled (n.members?.getD []) k) := by
  have hfacade : m.isFacade = false := by rw [TypeNode.isFacade, hinterface]; rfl
  obtain ⟨own, hown⟩ := (Sides.exists_answers hfacade).1
  obtain ⟨id, merged, parent, children, hmerge, hget⟩ := exists_merge settings calls hn hm
  have hmethods : (Sides.compose settings
      { native := some n, managed := some m }).members.filter (·.member.kind == .method) = _ :=
    Sides.filter_members hinterface hown hmembers hparameters
  have hdescribes : ∀ k ∈ own.filter (·.kind == .method),
      (ProjectedMember.described (n.members?.getD []) k).Describes (n.members?.getD []) k :=
    fun k hk => ProjectedMember.describes_described _ (by simpa using (List.mem_filter.1 hk).2)
  refine ⟨id, merged, _, own, hmerge, hget, hown, ?_, ?_⟩
  · rw [hmethods, List.forall₂_map_right_iff, List.forall₂_same]
    exact hdescribes
  · rw [hmethods, List.forall₂_map_right_iff, List.forall₂_same]
    constructor
    · intro hall k hk hkind hempty
      have hmethod : k ∈ own.filter (·.kind == .method) := List.mem_filter.2 ⟨hk, by simp [hkind]⟩
      exact ((hdescribes k hmethod).content_eq_iff hempty).1 (hall k hmethod hempty)
    · intro hall k hmethod hempty
      obtain ⟨hk, hkind⟩ := List.mem_filter.1 hmethod
      exact ((hdescribes k hmethod).content_eq_iff hempty).2 (hall k hk (eq_of_beq hkind) hempty)

/-- An interface with overloads of a method, each with its documentation and the names of its
parameters, which are documented alike. -/
def resizable (overloads : List (String × List String)) : Compound :=
  { Compound.empty "r" .native "IResize" .interface with
    members := overloads.map fun (summary, parameters) =>
      { name := "Resize", kind := .method, content := { summary }
        parameters := parameters.map fun name => { name, content := { summary } } } }

/-- Two documented overloads, and a method without documentation that stands for the second one. -/
def resizing : Merger where
  settings := {}
  native := soleGraph .native (resizable [("one", ["size"]), ("two", ["width", "height"])])
  managed := soleGraph .managed (resizable [("", ["width", "height"])])

/-- The method gets its own documentation from the first overload, and its parameters get theirs
from the second one. -/
theorem describes_merge_resizing :
    ∃ n m, resizing.native.get? ⟨1⟩ = some n ∧ resizing.managed.get? ⟨1⟩ = some m ∧
      m.kind = .interface ∧ resizing.settings.copyMemberDocs = true ∧
      resizing.settings.copyParameterDocs = true ∧
      (∃ id merged node own, resizing.merge ⟨1⟩ ⟨1⟩ = (.ok id, merged) ∧
        merged.projection.get? id = some node ∧ m.members? = some own ∧
        List.Forall₂ (fun k p => p.Describes (n.members?.getD []) k)
          (own.filter (·.kind == .method)) (node.members.filter (·.member.kind == .method)) ∧
        (List.Forall₂ (fun k p => k.content.isEmpty = true →
            ∀ source, StandsFor (n.members?.getD []) k source → p.member.content = source.content)
          (own.filter (·.kind == .method)) (node.members.filter (·.member.kind == .method)) ↔
        ∀ k ∈ own, k.kind = .method → k.content.isEmpty = true →
          ¬ Misled (n.members?.getD []) k)) ∧
      ((resizing.merge ⟨1⟩ ⟨1⟩).2.projection.get? ⟨0⟩).map (fun node =>
          node.members.map fun p => (p.member.content, p.member.parameters.map (·.content))) =
        some [({ summary := "one" }, [{ summary := "two" }, { summary := "two" }])] := by
  have hnative : (resizing.native.get? ⟨1⟩).isSome = true := by decide +kernel
  have hmanaged : (resizing.managed.get? ⟨1⟩).map (·.kind) = some .interface := by decide +kernel
  obtain ⟨n, hn⟩ := Option.isSome_iff_exists.1 hnative
  obtain ⟨m, hm, hkind⟩ := Option.map_eq_some_iff.1 hmanaged
  exact ⟨n, m, hn, hm, hkind, rfl, rfl,
    describes_merge_iff resizing.settings [] hn hm hkind rfl rfl, by decide +kernel⟩

end Merger

end TypeAtlas
