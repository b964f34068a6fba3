import Mathlib.Data.List.Nodup
import TypeAtlas.Proofs.Compound.Division
import TypeAtlas.Proofs.Compound.Keeping

/-!
# Identifiers of the compounds of a record

The enumerations and the functions inside a record are identified by the record and their names. An
enumeration may share its name with another one or with a function, and enumerations without a name
all share the empty one. Of the compounds that share a name a cache keeps the first one only.

## Main definitions

* `NativeRecord.enumNames`, `NativeRecord.functionNames` — the names inside a record.
* `NativeRecord.TellsApart` — no enumeration shares its name.

The main statements are `CompoundCache.nodes_insertAll`, `NativeRecord.keeps_build_iff`.
-/

namespace TypeAtlas

open Text

/-! ## Items of different keys -/

section Keys

variable {α β : Type} [BEq α] [LawfulBEq α] {key : β → α}

theorem mem_of_mem_eraseDupsBy {r : β → β → Bool} (items : List β) :
    ∀ i ∈ items.eraseDupsBy r, i ∈ items := by
  match items with
  | [] => simp
  | item :: rest =>
    intro i hi
    rw [List.eraseDupsBy_cons, List.mem_cons] at hi
    rcases hi with rfl | hi
    · exact List.mem_cons_self
    · have hrest := mem_of_mem_eraseDupsBy _ i hi
      exact List.mem_cons_of_mem item (List.mem_of_mem_filter hrest)
termination_by items.length
decreasing_by
  have hlength := List.length_filter_le (fun b => decide (r b item = false)) rest
  rw [List.length_cons]
  omega

/-- The first items of all keys have different keys. -/
theorem nodup_map_eraseDupsBy (key : β → α) (items : List β) :
    ((items.eraseDupsBy (key · == key ·)).map key).Nodup := by
  match items with
  | [] => simp
  | item :: rest =>
    rw [List.eraseDupsBy_cons, List.map_cons, List.nodup_cons]
    refine ⟨?_, nodup_map_eraseDupsBy key _⟩
    intro hmem
    obtain ⟨other, hother, hkey⟩ := List.mem_map.1 hmem
    have hne := (List.mem_filter.1 (mem_of_mem_eraseDupsBy _ other hother)).2
    simp [hkey] at hne
termination_by items.length
decreasing_by
  have hlength := List.length_filter_le (fun b => decide ((key b == key item) = false)) rest
  rw [List.length_cons]
  omega

theorem nodup_eraseDups (xs : List α) : xs.eraseDups.Nodup := by
  have h := nodup_map_eraseDupsBy (fun x => x) xs
  rwa [List.map_id'] at h

theorem eraseDupsBy_eq_self_iff {items : List β} :
    items.eraseDupsBy (key · == key ·) = items ↔ (items.map key).Nodup := by
  constructor
  · intro h
    rw [← h]
    exact nodup_map_eraseDupsBy key items
  · intro h
    induction items with
    | nil => rfl
    | cons item rest ih =>
      rw [List.map_cons, List.nodup_cons] at h
      have hrest : rest.filter (fun b => (key b == key item) = false) = rest := by
        rw [List.filter_eq_self]
        intro b hb
        have hne : key b ≠ key item := fun hkey => h.1 (hkey ▸ List.mem_map_of_mem hb)
        simpa using hne
      rw [List.eraseDupsBy_cons, hrest, ih h.2]

end Keys

/-! ## Caches -/

namespace CompoundCache

theorem nodes_insertAll_append (cache : CompoundCache) (cs : List Compound) :
    (cache.insertAll cs).nodes = cache.nodes ++
      (cs.filter fun c => !cache.contains c.id).eraseDupsBy (·.id == ·.id) := by
  induction cs generalizing cache with
  | nil => simp [insertAll]
  | cons c cs ih =>
    have hstep : cache.insertAll (c :: cs) = (cache.insert c).2.insertAll cs := rfl
    rw [hstep, ih, nodes_insert, List.filter_cons]
    cases hknown : cache.contains c.id with
    | true =>
      have hsame : (cache.insert c).2 = cache := by simp [insert, hknown]
      rw [hsame]
      rfl
    | false =>
      have hothers : cs.filter (fun d => !(cache.insert c).2.contains d.id) =
          (cs.filter fun d => !cache.contains d.id).filter fun d => (d.id == c.id) = false := by
        rw [List.filter_filter]
        apply List.filter_congr
        intro d _
        rw [contains_insert]
        grind
      rw [if_neg Bool.false_ne_true, Bool.not_false, if_pos rfl, hothers, List.eraseDupsBy_cons,
        List.append_assoc, List.singleton_append]

/-- Of several compounds with one identifier a cache keeps the first one. -/
theorem nodes_insertAll (cs : List Compound) :
    (({} : CompoundCache).insertAll cs).nodes = cs.eraseDupsBy (·.id == ·.id) := by
  rw [nodes_insertAll_append]
  simp [contains]

end CompoundCache

/-! ## Records -/

namespace NativeRecord

open NativeDraft

variable {parser : DeclarationParser} {r : NativeRecord} {own : Compound}
  {nested compounds : List Compound} {reports : Diagnostics}

/-- The names of the enumerations inside a record, empty if an enumeration has none. -/
def enumNames (r : NativeRecord) : List String :=
  (r.members.filter (·.isEnum)).map fun m => Name.bare (trimmed m.name)

/-- The names of the functions inside a record, which only a namespace has. -/
def functionNames (r : NativeRecord) : List String :=
  if foldNativeKind? r.kind = some .namespace then
    ((r.members.filter fun m => MemberKind.fold? m.kind m.rawType == some .method).map
      fun m => trimmed m.name).eraseDups
  else []

/-- No enumeration inside the record shares its name with another one or with a function. -/
structure TellsApart (r : NativeRecord) : Prop where
  enums : r.enumNames.Nodup
  functions : ∀ name ∈ r.functionNames, name ∉ r.enumNames

theorem nodup_functionNames (r : NativeRecord) : r.functionNames.Nodup := by
  unfold functionNames
  split
  · exact nodup_eraseDups _
  · exact List.nodup_nil

theorem tellsApart_iff : r.TellsApart ↔ (r.enumNames ++ r.functionNames).Nodup := by
  rw [List.nodup_append]
  constructor
  · rintro ⟨henums, hfunctions⟩
    refine ⟨henums, r.nodup_functionNames, ?_⟩
    rintro name hname other hother rfl
    exact hfunctions name hother hname
  · rintro ⟨henums, -, happart⟩
    exact ⟨henums, fun name hname henum => happart name henum name hname rfl⟩

theorem map_foldedMembers (kind : MemberKind) (r : NativeRecord) :
    (r.foldedMembers.filter (·.2 == kind)).map (·.1) =
      r.members.filter fun m => MemberKind.fold? m.kind m.rawType == some kind := by
  unfold foldedMembers
  induction r.members with
  | nil => rfl
  | cons m members ih =>
    rw [List.filterMap_cons, List.filter_cons]
    cases hfold : MemberKind.fold? m.kind m.rawType with
    | none => simpa using ih
    | some other =>
      by_cases hkind : other = kind
      · simpa [hkind] using ih
      · simpa [hkind] using ih

/-- The overloads in a record have the names of its functions. -/
theorem names_overloads {c : Compound} (hkind : foldNativeKind? r.kind = some c.kind) :
    (((readMembers parser c r.members).filter (·.isOverload c)).map (·.name)).eraseDups =
      r.functionNames := by
  unfold functionNames
  rw [hkind]
  split
  · next hspace =>
    rw [overloads_of_namespace (Option.some.inj hspace), ← map_foldedMembers, membersIn,
      List.map_map, List.map_map]
    rfl
  · next hspace =>
    have hnone : (readMembers parser c r.members).filter (·.isOverload c) = [] := by
      rw [List.filter_eq_nil_iff]
      intro m _
      have hother : c.kind ≠ .namespace := fun h => hspace (congrArg some h)
      simp [Member.isOverload, hother]
    rw [hnone]
    rfl

/-- Identifiers and full names of what is inside a record follow from the names there. -/
theorem map_nested_of_build (h : r.build parser = .ok (own :: nested, reports)) :
    own.id = r.id ∧ nested.map (fun c => (c.id, c.fullName)) =
      (r.enumNames ++ r.functionNames).map fun name =>
        (r.id ++ "#" ++ name, Name.qualify own.fullName name) := by
  rcases cases_of_build h with ⟨-, hnone, -⟩ | ⟨kind, rawName, hkind, -, -, hcompounds, -⟩
  · simp at hnone
  · rw [NativeDraft.compounds, List.cons_append] at hcompounds
    obtain ⟨rfl, rfl⟩ := List.cons.inj hcompounds
    refine ⟨rfl, ?_⟩
    unfold draftOf
    dsimp only
    generalize houtline : r.outline kind rawName (fullNameOf rawName) = c
    have hown : foldNativeKind? r.kind = some c.kind := by
      rw [← houtline]
      exact hkind
    have hnames : (((readMembers parser c r.members).filter (·.isOverload c)).map
        (·.name)).eraseDups = r.functionNames := names_overloads hown
    rw [List.map_append, List.map_append, ← hnames]
    simp only [ofParts, Parts.ofMembers, functionsOf, enumNames, List.map_map]
    rfl

/-- The identifiers of the compounds of a record that leads to some. -/
theorem map_id_of_build (h : r.build parser = .ok (own :: nested, reports)) :
    (own :: nested).map (·.id) =
      r.id :: (r.enumNames ++ r.functionNames).map fun name => r.id ++ "#" ++ name := by
  obtain ⟨hid, hnested⟩ := map_nested_of_build h
  have hids := congrArg (List.map Prod.fst) hnested
  rw [List.map_map, List.map_map] at hids
  rw [List.map_cons, hid]
  exact congrArg _ hids

theorem nodup_id_build_iff (h : r.build parser = .ok (own :: nested, reports)) :
    ((own :: nested).map (·.id)).Nodup ↔ r.TellsApart := by
  have hinj : Function.Injective fun name => r.id ++ "#" ++ name := by
    intro name other heq
    exact (String.append_right_inj _).1 heq
  have hown : r.id ∉ (r.enumNames ++ r.functionNames).map fun name => r.id ++ "#" ++ name := by
    intro hmem
    obtain ⟨name, -, heq⟩ := List.mem_map.1 hmem
    have hlength := congrArg String.length heq
    simp only [String.length_append] at hlength
    have hmark : "#".length = 1 := rfl
    omega
  rw [map_id_of_build h, List.nodup_cons, and_iff_right hown, List.nodup_map_iff hinj,
    tellsApart_iff]

/-- A record that leads to compounds keeps all of them exactly if no enumeration shares its name. Of
those that share a name the first one is kept. -/
theorem keeps_build_iff (h : r.build parser = .ok (compounds, reports)) :
    (({} : CompoundCache).insertAll compounds).nodes = compounds.eraseDupsBy (·.id == ·.id) ∧
    ((compounds.map (·.id)).Nodup ↔ foldNativeKind? r.kind = none ∨ r.TellsApart) ∧
    ((({} : CompoundCache).insertAll compounds).nodes = compounds ↔
      foldNativeKind? r.kind = none ∨ r.TellsApart) := by
  have hnodup : (compounds.map (·.id)).Nodup ↔ foldNativeKind? r.kind = none ∨ r.TellsApart := by
    rcases cases_of_build h with ⟨hpage, rfl, -⟩ | ⟨kind, rawName, hkind, -, -, hcompounds, -⟩
    · simp [hpage]
    · rw [NativeDraft.compounds, List.cons_append] at hcompounds
      subst hcompounds
      rw [nodup_id_build_iff h, hkind]
      simp
  refine ⟨CompoundCache.nodes_insertAll compounds, hnodup, ?_⟩
  rw [CompoundCache.nodes_insertAll, eraseDupsBy_eq_self_iff, hnodup]

/-- A namespace with an enumeration and a function of one name. -/
def modeRecord : NativeRecord where
  id := "n"
  kind := "namespace"
  name := some "N"
  members := [{ kind := "enum", name := "Mode" }, { kind := "function", name := "Mode" }]

/-- A class with two enumerations that have no name. -/
def flagsRecord : NativeRecord where
  id := "w"
  kind := "class"
  name := some "W"
  members :=
    [{ kind := "enum", enumValues := [{ name := "A" }] },
     { kind := "enum", enumValues := [{ name := "B" }] }]

/-- Neither the function nor the second enumeration is kept. -/
theorem keeps_build_iff_lost :
    (∃ compounds reports, modeRecord.build .standard = .ok (compounds, reports) ∧
      compounds.map (fun c => (c.id, c.kind)) =
        [("n", .namespace), ("n#Mode", .enum), ("n#Mode", .function)] ∧
      (({} : CompoundCache).insertAll compounds).nodes.map (·.kind) = [.namespace, .enum] ∧
      (({} : CompoundCache).insertAll compounds).nodes ≠ compounds) ∧
    ∃ compounds reports, flagsRecord.build .standard = .ok (compounds, reports) ∧
      compounds.map (fun c => (c.id, c.enumValues.map (·.name))) =
        [("w", []), ("w#", ["A"]), ("w#", ["B"])] ∧
      (({} : CompoundCache).insertAll compounds).nodes.map (·.id) = ["w", "w#"] ∧
      (({} : CompoundCache).insertAll compounds).nodes ≠ compounds := by
  constructor
  · obtain ⟨compounds, reports, hbuild, hids, hkept⟩ :
        ∃ compounds reports, modeRecord.build .standard = .ok (compounds, reports) ∧
          compounds.map (fun c => (c.id, c.kind)) =
            [("n", .namespace), ("n#Mode", .enum), ("n#Mode", .function)] ∧
          (({} : CompoundCache).insertAll compounds).nodes.map (·.kind) = [.namespace, .enum] := by
      refine ⟨_, _, rfl, ?_⟩
      decide +kernel
    refine ⟨compounds, reports, hbuild, hids, hkept, fun hall => ?_⟩
    rcases (keeps_build_iff hbuild).2.2.1 hall with hpage | happart
    · exact absurd hpage (by decide +kernel)
    · exact happart.functions "Mode" (by decide +kernel) (by decide +kernel)
  · obtain ⟨compounds, reports, hbuild, hids, hkept⟩ :
        ∃ compounds reports, flagsRecord.build .standard = .ok (compounds, reports) ∧
          compounds.map (fun c => (c.id, c.enumValues.map (·.name))) =
            [("w", []), ("w#", ["A"]), ("w#", ["B"])] ∧
          (({} : CompoundCache).insertAll compounds).nodes.map (·.id) = ["w", "w#"] := by
      refine ⟨_, _, rfl, ?_⟩
      decide +kernel
    refine ⟨compounds, reports, hbuild, hids, hkept, fun hall => ?_⟩
    rcases (keeps_build_iff hbuild).2.2.1 hall with hpage | happart
    · exact absurd hpage (by decide +kernel)
    · exact absurd happart.enums (by decide +kernel)

end NativeRecord

end TypeAtlas
