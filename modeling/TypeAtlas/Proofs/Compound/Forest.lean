import Mathlib.Data.List.Nodup
import Mathlib.Data.List.Perm.Basic
import Std.Data.TreeMap.Lemmas
import TypeAtlas.Compound.Namespaces
import TypeAtlas.Proofs.Compound.Reading
import TypeAtlas.Proofs.Name.Scopes
import TypeAtlas.Proofs.Text.ByteOrder

/-!
# Forests of namespaces

The namespaces around a list of compounds are the scopes in which its types lie, if they are none of
the compounds, and the scopes around these. Each of them holds the types right inside it and then
the namespaces right inside it.

## Main definitions

* `NamespaceForest.LiesIn`, `NamespaceForest.IsSpace` — a type in a namespace, and the namespaces.
* `NamespaceForest.typesIn` — the types right inside a namespace.
* `NamespaceForest.Describes` — the compounds of the namespaces around a list of compounds.

The main statement is `NamespaceForest.describes_synthesizeNamespaces`.
-/

namespace TypeAtlas

open Text

namespace NamespaceForest

variable {forest : NamespaceForest} {name child k scope : String} {names typeNames : List String}
  {types : List Compound} {c : Compound}

/-! ## Operations -/

theorem mem_ensure : k ∈ forest.ensure name ↔ k = name ∨ k ∈ forest := by
  rw [ensure, Std.TreeMap.mem_insertIfNew, Std.LawfulEqCmp.compare_eq_iff_eq, eq_comm]

theorem getD_ensure (forest : NamespaceForest) (name k : String) :
    (forest.ensure name).getD k [] = forest.getD k [] := by
  rw [ensure, Std.TreeMap.getD_insertIfNew]
  split
  · next h =>
    obtain rfl := Std.LawfulEqCmp.eq_of_compare h.1
    exact (Std.TreeMap.getD_eq_fallback h.2).symm
  · rfl

theorem mem_hold : k ∈ forest.hold name child ↔ k = name ∨ k ∈ forest := by
  rw [hold, Std.TreeMap.mem_insert, Std.LawfulEqCmp.compare_eq_iff_eq, eq_comm]

theorem getD_hold (forest : NamespaceForest) (name child k : String) :
    (forest.hold name child).getD k [] =
      if name = k then addName (forest.getD k []) child else forest.getD k [] := by
  rw [hold, Std.TreeMap.getD_insert]
  simp only [Std.LawfulEqCmp.compare_eq_iff_eq]
  split
  · next h => rw [h]
  · rfl

theorem mem_foldl_ensure : k ∈ names.foldl ensure forest ↔ k ∈ names ∨ k ∈ forest := by
  induction names generalizing forest with
  | nil => simp
  | cons name names ih =>
    rw [List.foldl_cons, ih, mem_ensure, List.mem_cons, or_left_comm, or_assoc]

theorem getD_foldl_ensure (names : List String) (forest : NamespaceForest) (k : String) :
    (names.foldl ensure forest).getD k [] = forest.getD k [] := by
  induction names generalizing forest with
  | nil => rfl
  | cons name names ih => rw [List.foldl_cons, ih, getD_ensure]

/-! ## Types -/

theorem scopeOf?_eq_some_iff : scopeOf? typeNames c = some scope ↔
    c.kind ≠ .namespace ∧ c.parentName = some scope ∧ scope ∉ typeNames := by
  unfold scopeOf?
  split
  · next h => simp [h]
  · next h => simp [h, Option.filter_eq_some_iff]

theorem mem_addType : k ∈ forest.addType typeNames c ↔ k ∈ forest ∨
    ∃ scope, scopeOf? typeNames c = some scope ∧ (k = scope ∨ Name.Encloses k scope) := by
  unfold addType
  split
  · next h => simp [h]
  · next scope h =>
    rw [mem_foldl_ensure, mem_hold, Name.mem_ancestors, h]
    simp only [Option.some.injEq, exists_eq_left']
    grind

theorem getD_addType (typeNames : List String) (forest : NamespaceForest) (c : Compound)
    (k : String) : (forest.addType typeNames c).getD k [] =
      if scopeOf? typeNames c = some k then addName (forest.getD k []) c.fullName
      else forest.getD k [] := by
  unfold addType
  split
  · next h => simp [h]
  · next scope h =>
    rw [getD_foldl_ensure, getD_hold, h]
    simp only [Option.some.injEq]

theorem mem_foldl_addType : k ∈ types.foldl (addType typeNames) forest ↔ k ∈ forest ∨
    ∃ c ∈ types, ∃ scope, scopeOf? typeNames c = some scope ∧
      (k = scope ∨ Name.Encloses k scope) := by
  induction types generalizing forest with
  | nil => simp
  | cons c types ih => rw [List.foldl_cons, ih, mem_addType, List.exists_mem_cons_iff, or_assoc]

theorem getD_foldl_addType (typeNames : List String) (types : List Compound)
    (forest : NamespaceForest) (k : String) :
    (types.foldl (addType typeNames) forest).getD k [] =
      ((types.filter (scopeOf? typeNames · == some k)).map (·.fullName)).foldl addName
        (forest.getD k []) := by
  induction types generalizing forest with
  | nil => rfl
  | cons c types ih =>
    rw [List.foldl_cons, ih, getD_addType, List.filter_cons]
    by_cases h : scopeOf? typeNames c = some k <;> simp [h]

/-! ## Nesting -/

theorem mem_nest : k ∈ forest.nest name ↔ k ∈ forest ∨ Name.scope? name = some k := by
  unfold nest
  split
  · next h => simp [h]
  · next scope h =>
    rw [mem_hold, h, Option.some.injEq, or_comm, eq_comm]

theorem getD_nest (forest : NamespaceForest) (name k : String) :
    (forest.nest name).getD k [] =
      if Name.scope? name = some k then addName (forest.getD k []) name
      else forest.getD k [] := by
  unfold nest
  split
  · next h => simp [h]
  · next scope h => simp [getD_hold, h]

theorem mem_foldl_nest : k ∈ names.foldl nest forest ↔ k ∈ forest ∨
    ∃ name ∈ names, Name.scope? name = some k := by
  induction names generalizing forest with
  | nil => simp
  | cons name names ih => rw [List.foldl_cons, ih, mem_nest, List.exists_mem_cons_iff, or_assoc]

theorem getD_foldl_nest (names : List String) (forest : NamespaceForest) (k : String) :
    (names.foldl nest forest).getD k [] =
      (names.filter (Name.scope? · == some k)).foldl addName (forest.getD k []) := by
  induction names generalizing forest with
  | nil => rfl
  | cons name names ih =>
    rw [List.foldl_cons, ih, getD_nest, List.filter_cons]
    by_cases h : Name.scope? name = some k <;> simp [h]

/-! ## Namespaces -/

/-- The compound is a type right inside a scope that is no compound. -/
structure LiesIn (types : List Compound) (c : Compound) (scope : String) : Prop where
  mem : c ∈ types
  kind : c.kind ≠ .namespace
  parentName : c.parentName = some scope
  unnamed : ∀ d ∈ types, d.fullName ≠ scope

/-- A namespace: a type lies right inside it, or right inside a scope that it is around. -/
def IsSpace (types : List Compound) (name : String) : Prop :=
  ∃ c scope, LiesIn types c scope ∧ (name = scope ∨ Name.Encloses name scope)

/-- The names of the types right inside a scope that is no compound, in order. -/
def typesIn (types : List Compound) (scope : String) : List String :=
  (types.filter fun c => c.kind != .namespace && c.parentName == some scope &&
    types.all (·.fullName != scope)).map (·.fullName)

/-- The names of the namespaces right inside a scope that are no types there as well. -/
def spacesIn (types namespaces : List Compound) (scope : String) : List String :=
  (namespaces.map (·.fullName)).filter fun name =>
    Name.scope? name == some scope && !(typesIn types scope).contains name

/-- The compounds of the namespaces around a list of compounds. -/
structure Describes (types namespaces : List Compound) : Prop where
  /-- The names ascend, so that no two of them are the same. -/
  ascending : namespaces.Pairwise fun m n => octets m.fullName < octets n.fullName
  names : ∀ name, (∃ n ∈ namespaces, n.fullName = name) ↔ IsSpace types name
  /-- A namespace holds the types right inside it, and behind them the namespaces. -/
  compounds : ∀ n ∈ namespaces, n = compound n.fullName
    ((typesIn types n.fullName).eraseDups ++ spacesIn types namespaces n.fullName)
  nested : ∀ n ∈ namespaces, ∀ scope, Name.scope? n.fullName = some scope →
    ∃ m ∈ namespaces, m.fullName = scope ∧ n.fullName ∈ m.childNames

theorem liesIn_iff : LiesIn types c scope ↔
    c ∈ types ∧ scopeOf? (types.map (·.fullName)) c = some scope := by
  rw [scopeOf?_eq_some_iff, List.mem_map]
  constructor
  · rintro ⟨hmem, hkind, hparent, hunnamed⟩
    exact ⟨hmem, hkind, hparent, fun ⟨d, hd, hname⟩ => hunnamed d hd hname⟩
  · rintro ⟨hmem, hkind, hparent, hunnamed⟩
    exact ⟨hmem, hkind, hparent, fun d hd hname => hunnamed ⟨d, hd, hname⟩⟩

/-- The scope of a namespace is a namespace. -/
theorem isSpace_of_scope? (h : IsSpace types name) (hscope : Name.scope? name = some scope) :
    IsSpace types scope := by
  have haround := Name.encloses_of_scope? hscope
  obtain ⟨c, inner, hlies, rfl | hencloses⟩ := h
  · exact ⟨c, name, hlies, .inr haround⟩
  · exact ⟨c, inner, hlies, .inr (haround.trans hencloses)⟩

/-- The forest before the namespaces in it are held by each other. -/
def planted (types : List Compound) : NamespaceForest :=
  types.foldl (addType (types.map (·.fullName))) ∅

theorem mem_planted : k ∈ planted types ↔ IsSpace types k := by
  have hempty : k ∉ (∅ : NamespaceForest) := by simp
  rw [planted, mem_foldl_addType, or_iff_right hempty]
  unfold IsSpace
  simp only [liesIn_iff]
  grind

theorem typesIn_eq (types : List Compound) (scope : String) : typesIn types scope =
    (types.filter (scopeOf? (types.map (·.fullName)) · == some scope)).map (·.fullName) := by
  unfold typesIn
  congr 1
  apply List.filter_congr
  intro c _
  rw [Bool.eq_iff_iff, beq_iff_eq, scopeOf?_eq_some_iff]
  simp [and_assoc]

theorem getD_planted (types : List Compound) (k : String) :
    (planted types).getD k [] = (typesIn types k).eraseDups := by
  rw [planted, getD_foldl_addType, typesIn_eq, ← foldl_addName]
  rfl

/-- Nesting adds no namespace. -/
theorem mem_ofTypes : k ∈ ofTypes types ↔ IsSpace types k := by
  have hkeys : ofTypes types = (planted types).keys.foldl nest (planted types) := rfl
  rw [hkeys, mem_foldl_nest, mem_planted, or_iff_left_iff_imp]
  rintro ⟨name, hname, hscope⟩
  rw [Std.TreeMap.mem_keys, mem_planted] at hname
  exact isSpace_of_scope? hname hscope

/-! ## Order -/

theorem pairwise_keys (forest : NamespaceForest) : forest.keys.Pairwise (· < ·) :=
  (Std.TreeMap.ordered_keys (t := forest)).imp fun h => compareOfLessAndEq_eq_lt.1 h

/-- The names of a forest are determined by which they are. -/
theorem keys_congr {other : NamespaceForest} (h : ∀ k, k ∈ forest ↔ k ∈ other) :
    forest.keys = other.keys := by
  refine List.Perm.eq_of_pairwise ?_ forest.pairwise_keys other.pairwise_keys ?_
  · exact fun a b _ _ hab hba => absurd hba (String.lt_asymm hab)
  · rw [List.perm_ext_iff_of_nodup Std.TreeMap.nodup_keys Std.TreeMap.nodup_keys]
    simpa only [Std.TreeMap.mem_keys] using h

/-- Different names that are added at the end of a list are those that it does not hold. -/
theorem foldl_addName_of_nodup {more : List String} (h : more.Nodup) (names : List String) :
    more.foldl addName names = names ++ more.filter (!names.contains ·) := by
  induction more generalizing names with
  | nil => simp
  | cons name more ih =>
    rw [List.nodup_cons] at h
    rw [List.foldl_cons, ih h.2, addName]
    cases hknown : names.contains name with
    | true => rw [if_pos rfl, List.filter_cons, hknown, Bool.not_true, if_neg (by simp)]
    | false =>
      have hothers : more.filter (fun other => !(names ++ [name]).contains other) =
          more.filter (!names.contains ·) := by
        apply List.filter_congr
        intro other hother
        have hne : other ≠ name := fun heq => h.1 (heq ▸ hother)
        simp [hne]
      rw [if_neg (by simp), hothers, List.filter_cons, hknown]
      simp

/-! ## Compounds -/

theorem synthesizeNamespaces_eq (types : List Compound) : synthesizeNamespaces types =
    (planted types).keys.map fun name => compound name ((ofTypes types).getD name []) := by
  have hkeys : (planted types).keys = (ofTypes types).keys :=
    keys_congr fun k => mem_planted.trans mem_ofTypes.symm
  rw [hkeys, ← Std.TreeMap.map_fst_toList_eq_keys, List.map_map]
  apply List.map_congr_left
  rintro ⟨name, childNames⟩ hmem
  rw [Std.TreeMap.mem_toList_iff_getElem?_eq_some] at hmem
  simp [Std.TreeMap.getD_eq_getD_getElem?, hmem]

theorem map_fullName_synthesizeNamespaces (types : List Compound) :
    (synthesizeNamespaces types).map (·.fullName) = (planted types).keys := by
  rw [synthesizeNamespaces_eq, List.map_map]
  exact List.map_id _

theorem getD_ofTypes (types : List Compound) (k : String) : (ofTypes types).getD k [] =
    (typesIn types k).eraseDups ++ spacesIn types (synthesizeNamespaces types) k := by
  have hkeys : ofTypes types = (planted types).keys.foldl nest (planted types) := rfl
  have hnodup : ((planted types).keys.filter (Name.scope? · == some k)).Nodup :=
    Std.TreeMap.nodup_keys.filter _
  rw [hkeys, getD_foldl_nest, getD_planted, foldl_addName_of_nodup hnodup, spacesIn,
    map_fullName_synthesizeNamespaces, List.filter_filter]
  congr 1
  apply List.filter_congr
  intro name _
  rw [Bool.and_comm]
  simp

theorem exists_mem_synthesizeNamespaces_iff :
    (∃ n ∈ synthesizeNamespaces types, n.fullName = name) ↔ IsSpace types name := by
  rw [← List.mem_map, map_fullName_synthesizeNamespaces, Std.TreeMap.mem_keys, mem_planted]

/-- Names, order and contents of the namespaces around a list of compounds follow from the types in
it. -/
theorem describes_synthesizeNamespaces (types : List Compound) :
    Describes types (synthesizeNamespaces types) := by
  have hcompounds : ∀ n ∈ synthesizeNamespaces types, n = compound n.fullName
      ((typesIn types n.fullName).eraseDups ++
        spacesIn types (synthesizeNamespaces types) n.fullName) := by
    intro n hn
    rw [← getD_ofTypes]
    rw [synthesizeNamespaces_eq] at hn
    obtain ⟨name, -, rfl⟩ := List.mem_map.1 hn
    rfl
  constructor
  case ascending =>
    have hkeys := (planted types).pairwise_keys
    rw [← map_fullName_synthesizeNamespaces, List.pairwise_map] at hkeys
    exact hkeys.imp octets_lt_octets
  case names => exact fun name => exists_mem_synthesizeNamespaces_iff
  case compounds => exact hcompounds
  case nested =>
    intro n hn scope hscope
    have hspace := isSpace_of_scope? (exists_mem_synthesizeNamespaces_iff.1 ⟨n, hn, rfl⟩) hscope
    obtain ⟨m, hm, rfl⟩ := exists_mem_synthesizeNamespaces_iff.2 hspace
    refine ⟨m, hm, rfl, ?_⟩
    rw [hcompounds m hm]
    -- It is held as a type already, or it is put behind the types.
    by_cases htype : n.fullName ∈ typesIn types m.fullName
    · exact List.mem_append_left _ (List.mem_eraseDups.2 htype)
    · refine List.mem_append_right _ (List.mem_filter.2 ⟨List.mem_map_of_mem hn, ?_⟩)
      simp [hscope, htype]

/-- An empty segment is one like any other, and a type may be a namespace for others. -/
example : (synthesizeNamespaces [.empty "c" .managed "A..C" .classType,
      .empty "a" .managed "A" .classType]).map (fun n => (n.fullName, n.childNames)) =
    [("A", ["A."]), ("A.", ["A..C"])] := by decide +kernel

end NamespaceForest

end TypeAtlas
