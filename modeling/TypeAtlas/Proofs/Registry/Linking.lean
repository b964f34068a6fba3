import Mathlib.Tactic.ByContra
import TypeAtlas.Registry.Resolve

/-!
# Inverse edges

The inverse edges are added one after another, each to one node of the arena. What becomes of a node
is therefore what the edges to it make of it, and this is known exactly: it gets a parent if it has
none, and more children and derived types behind those that it has.

## Main definitions

* `Linking.appendNew` — a list with the elements of another one that it does not hold.
* `TypeNode.linked` — a node with its inverse edges.

The main statement is `TypeGraph.getElem?_linkInverse`.
-/

namespace TypeAtlas

namespace Linking

variable {α : Type} [BEq α] {xs ys : List α} {a : α}

/-- A list followed by the elements of another one that it does not hold, each once. -/
def appendNew (xs ys : List α) : List α :=
  ys.foldl (fun xs a => if xs.contains a then xs else xs ++ [a]) xs

@[simp] theorem appendNew_nil (xs : List α) : appendNew xs [] = xs := rfl

theorem appendNew_cons (xs : List α) (a : α) (ys : List α) :
    appendNew xs (a :: ys) = appendNew (if xs.contains a then xs else xs ++ [a]) ys := rfl

theorem prefix_appendNew (xs ys : List α) : xs <+: appendNew xs ys := by
  induction ys generalizing xs with
  | nil => exact List.prefix_rfl
  | cons b ys ih =>
    rw [appendNew_cons]
    split
    · exact ih xs
    · exact (List.prefix_append xs [b]).trans (ih (xs ++ [b]))

variable [LawfulBEq α]

@[simp] theorem mem_appendNew : a ∈ appendNew xs ys ↔ a ∈ xs ∨ a ∈ ys := by
  induction ys generalizing xs with
  | nil => simp
  | cons b ys ih =>
    rw [appendNew_cons, ih, List.mem_cons]
    split
    · next hb =>
      have hb : b ∈ xs := by simpa using hb
      constructor
      · rintro (h | h)
        · exact .inl h
        · exact .inr (.inr h)
      · rintro (h | rfl | h)
        · exact .inl h
        · exact .inl hb
        · exact .inr h
    · simp [or_assoc]

theorem nodup_appendNew (h : xs.Nodup) (ys : List α) : (appendNew xs ys).Nodup := by
  induction ys generalizing xs with
  | nil => exact h
  | cons b ys ih =>
    rw [appendNew_cons]
    split
    · exact ih h
    · next hb =>
      have hb : b ∉ xs := by simpa using hb
      refine ih (List.nodup_append.2 ⟨h, by simp, ?_⟩)
      rintro a ha c hc rfl
      obtain rfl : a = b := by simpa using hc
      exact hb ha

end Linking

open Linking

/-! ## One node -/

namespace TypeNode

/-- A node with its inverse edges: from those that list it as a child, from those that name it as
their parent, and from those that have it as a base. -/
def linked (n : TypeNode) (listers namers heirs : List TypeId) : TypeNode :=
  { n with
    parent := n.parent.or (if n.isGlobal then none else listers.head?)
    children := appendNew n.children namers
    variant := n.variant.mapComposite fun body =>
      { body with derivedTypes := appendNew body.derivedTypes heirs } }

variable (n : TypeNode) (listers namers heirs : List TypeId)

theorem foldl_adoptBy : listers.foldl (fun n parent => n.adoptBy parent) n =
    { n with parent := n.parent.or (if n.isGlobal then none else listers.head?) } := by
  induction listers generalizing n with
  | nil => cases n; simp
  | cons p ps ih =>
    rw [List.foldl_cons, ih]
    unfold adoptBy
    cases hparent : n.parent with
    | some known => simp [hparent]
    | none =>
      cases hglobal : n.isGlobal with
      | true => simp [hparent, hglobal]
      | false => simp [isGlobal]

theorem foldl_addChild : namers.foldl (fun n child => n.addChild child) n =
    { n with children := appendNew n.children namers } := by
  induction namers generalizing n with
  | nil => rfl
  | cons c cs ih =>
    rw [List.foldl_cons, ih, appendNew_cons]
    unfold addChild
    split <;> rfl

theorem foldl_addDerived : heirs.foldl (fun n derived => n.addDerived derived) n =
    { n with
      variant := n.variant.mapComposite fun body =>
        { body with derivedTypes := appendNew body.derivedTypes heirs } } := by
  induction heirs generalizing n with
  | nil => cases n with | mk _ _ _ _ _ _ _ variant => cases variant <;> rfl
  | cons d ds ih =>
    rw [List.foldl_cons, ih]
    unfold addDerived
    cases n with | mk _ _ _ _ _ _ _ variant =>
    cases variant with
    | composite kind body =>
      simp only [TypeVariant.mapComposite, appendNew_cons]
      split <;> rfl
    | _ => rfl

theorem foldl_edges : heirs.foldl (fun n derived => n.addDerived derived)
    (namers.foldl (fun n child => n.addChild child)
      (listers.foldl (fun n parent => n.adoptBy parent) n)) = n.linked listers namers heirs := by
  rw [foldl_adoptBy, foldl_addChild, foldl_addDerived]
  rfl

@[simp] theorem linked_id : (n.linked listers namers heirs).id = n.id := rfl

@[simp] theorem linked_origin : (n.linked listers namers heirs).origin = n.origin := rfl

@[simp] theorem linked_fullName : (n.linked listers namers heirs).fullName = n.fullName := rfl

@[simp] theorem linked_kind : (n.linked listers namers heirs).kind = n.kind := by
  unfold kind linked
  cases n.variant <;> rfl

@[simp] theorem linked_isFacade : (n.linked listers namers heirs).isFacade = n.isFacade := by
  simp [isFacade]

@[simp] theorem linked_members? : (n.linked listers namers heirs).members? = n.members? := by
  unfold members? linked
  cases n.variant <;> rfl

@[simp] theorem linked_enumValues? :
    (n.linked listers namers heirs).enumValues? = n.enumValues? := by
  unfold enumValues? linked
  cases n.variant <;> rfl

@[simp] theorem linked_baseTypes? : (n.linked listers namers heirs).baseTypes? = n.baseTypes? := by
  unfold baseTypes? linked
  cases n.variant <;> rfl

theorem mem_linked_children {child : TypeId} :
    child ∈ (n.linked listers namers heirs).children ↔ child ∈ n.children ∨ child ∈ namers := by
  simp [linked]

/-- Only a composite gets more derived types. -/
theorem mem_linked_derivedTypes {derived : TypeId} :
    derived ∈ (n.linked listers namers heirs).derivedTypes?.getD [] ↔
      derived ∈ n.derivedTypes?.getD [] ∨
        (∃ kind : CompositeKind, n.kind = kind.kind) ∧ derived ∈ heirs := by
  unfold derivedTypes? linked kind
  cases n.variant with
  | composite kind body =>
    have hkind : ∃ composite : CompositeKind, kind.kind = composite.kind := ⟨kind, rfl⟩
    simp [TypeVariant.mapComposite, TypeVariant.kind, hkind]
  | _ =>
    simp only [TypeVariant.mapComposite, TypeVariant.kind]
    constructor
    · exact .inl
    · rintro (hmem | ⟨⟨kind, hkind⟩, -⟩)
      · exact hmem
      · cases kind <;> contradiction

theorem linked_parent : (n.linked listers namers heirs).parent =
    n.parent.or (if n.isGlobal then none else listers.head?) := rfl

end TypeNode

/-! ## All nodes -/

namespace TypeGraph

variable (nodes : Array TypeNode) (id : TypeId)

/-- The nodes that list a node as their child. -/
def listers : List TypeId :=
  ((nodes.toList.flatMap TypeNode.childEdges).filter (·.2 = id)).map (·.1)

/-- The nodes that name a node as their parent, type parameters apart. -/
def namers : List TypeId :=
  ((nodes.toList.filterMap TypeNode.parentEdge?).filter (·.1 = id)).map (·.2)

/-- The nodes that have a node as a base. -/
def heirs : List TypeId :=
  ((nodes.toList.flatMap TypeNode.derivedEdges).filter (·.1 = id)).map (·.2)

theorem mem_listers {parent : TypeId} : parent ∈ listers nodes id ↔
    ∃ n ∈ nodes, n.id = parent ∧ id ∈ n.children := by
  simp only [listers, TypeNode.childEdges, List.mem_map, List.mem_filter, List.mem_flatMap,
    Array.mem_toList_iff]
  constructor
  · rintro ⟨_, ⟨⟨n, hn, child, hchild, rfl⟩, hid⟩, rfl⟩
    obtain rfl : child = id := by simpa using hid
    exact ⟨n, hn, rfl, hchild⟩
  · rintro ⟨n, hn, rfl, hid⟩
    exact ⟨(n.id, id), ⟨⟨n, hn, id, hid, rfl⟩, by simp⟩, rfl⟩

theorem mem_namers {child : TypeId} : child ∈ namers nodes id ↔
    ∃ n ∈ nodes, n.id = child ∧ n.kind ≠ .genericParameter ∧ n.parent = some id := by
  simp only [namers, TypeNode.parentEdge?, List.mem_map, List.mem_filter, List.mem_filterMap,
    Array.mem_toList_iff]
  constructor
  · rintro ⟨edge, ⟨⟨n, hn, hedge⟩, hid⟩, rfl⟩
    split at hedge
    · simp at hedge
    · next hkind =>
      obtain ⟨parent, hparent, rfl⟩ := Option.map_eq_some_iff.1 hedge
      obtain rfl : parent = id := by simpa using hid
      exact ⟨n, hn, rfl, hkind, hparent⟩
  · rintro ⟨n, hn, rfl, hkind, hparent⟩
    exact ⟨(id, n.id), ⟨⟨n, hn, by simp [hkind, hparent]⟩, by simp⟩, rfl⟩

theorem mem_heirs {heir : TypeId} : heir ∈ heirs nodes id ↔
    ∃ n ∈ nodes, n.id = heir ∧ ∃ bases, n.baseTypes? = some bases ∧ id ∈ bases := by
  simp only [heirs, TypeNode.derivedEdges, List.mem_map, List.mem_filter, List.mem_flatMap,
    Array.mem_toList_iff]
  constructor
  · rintro ⟨_, ⟨⟨n, hn, base, hbase, rfl⟩, hid⟩, rfl⟩
    obtain rfl : base = id := by simpa using hid
    cases hbases : n.baseTypes? with
    | none => simp [hbases] at hbase
    | some bases => exact ⟨n, hn, rfl, bases, hbases, by simpa [hbases] using hbase⟩
  · rintro ⟨n, hn, rfl, bases, hbases, hid⟩
    exact ⟨(id, n.id), ⟨⟨n, hn, id, by simpa [hbases] using hid, rfl⟩, by simp⟩, rfl⟩

/-- Of many changes a node undergoes those that are made to it. -/
theorem getElem?_foldl_modifyNode (edges : List (TypeId × TypeId))
    (key : TypeId × TypeId → TypeId) (f : TypeId × TypeId → TypeNode → TypeNode) :
    (edges.foldl (fun nodes edge => modifyNode nodes (key edge) (f edge)) nodes)[id.index]? =
      nodes[id.index]?.map fun n =>
        (edges.filter (key · = id)).foldl (fun n edge => f edge n) n := by
  induction edges generalizing nodes with
  | nil => simp
  | cons edge edges ih =>
    rw [List.foldl_cons, ih, modifyNode, Array.getElem?_modify]
    by_cases hkey : key edge = id
    · rw [if_pos (by rw [hkey]), List.filter_cons_of_pos (by simpa using hkey), Option.map_map]
      rfl
    · have hindex : ¬ (key edge).index = id.index := by
        intro h
        refine hkey ?_
        cases hk : key edge
        cases id
        simp_all
      rw [if_neg hindex, List.filter_cons_of_neg (by simpa using hkey)]

@[simp] theorem size_foldl_modifyNode (edges : List (TypeId × TypeId))
    (key : TypeId × TypeId → TypeId) (f : TypeId × TypeId → TypeNode → TypeNode) :
    (edges.foldl (fun nodes edge => modifyNode nodes (key edge) (f edge)) nodes).size =
      nodes.size := by
  induction edges generalizing nodes with
  | nil => rfl
  | cons edge edges ih => rw [List.foldl_cons, ih, modifyNode, Array.size_modify]

/-- What the inverse edges make of a node. -/
theorem getElem?_linkInverse : (linkInverse nodes)[id.index]? =
    nodes[id.index]?.map fun n =>
      n.linked (listers nodes id) (namers nodes id) (heirs nodes id) := by
  have hadopted := getElem?_foldl_modifyNode nodes id (nodes.toList.flatMap TypeNode.childEdges)
    (·.2) fun edge n => n.adoptBy edge.1
  have hlisted := fun nodes' => getElem?_foldl_modifyNode nodes' id
    (nodes.toList.filterMap TypeNode.parentEdge?) (·.1) fun edge n => n.addChild edge.2
  have hderived := fun nodes' => getElem?_foldl_modifyNode nodes' id
    (nodes.toList.flatMap TypeNode.derivedEdges) (·.1) fun edge n => n.addDerived edge.2
  unfold linkInverse
  dsimp only
  rw [hderived, hlisted, hadopted, Option.map_map, Option.map_map]
  congr
  funext n
  rw [← TypeNode.foldl_edges, listers, namers, heirs, List.foldl_map, List.foldl_map,
    List.foldl_map]
  rfl

theorem size_linkInverse : (linkInverse nodes).size = nodes.size := by
  unfold linkInverse
  dsimp only
  rw [size_foldl_modifyNode _ _ (·.1) fun edge n => n.addDerived edge.2,
    size_foldl_modifyNode _ _ (·.1) fun edge n => n.addChild edge.2,
    size_foldl_modifyNode _ _ (·.2) fun edge n => n.adoptBy edge.1]

end TypeGraph

end TypeAtlas
