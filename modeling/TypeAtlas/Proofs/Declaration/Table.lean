import TypeAtlas.Proofs.Declaration.Spacing
import TypeAtlas.Proofs.Text.Occurrences

/-!
# Tables of annotations

A table is worked off from its start, so that no token may stand before one that contains it. The
known tokens are in such an order, and a further token is put where the order is kept: behind every
token that contains it, since such a token contains the first token of the table that the new one
contains as well.

## Main definitions

* `Annotation.Ordered` — no token of a table contains one that stands before it.
* `Annotation.Arranged` — a table with further tokens holds what it should, once and in order.

The main statements are `Annotation.ordered_withExtras`, `Annotation.forall_mem_withExtras` and
`Annotation.arranged_withExtras`.
-/

namespace TypeAtlas.Annotation

open Text

variable {a b new : Annotation} {table : List Annotation} {extras : List String}

/-- No token of a table contains one that stands before it. -/
def Ordered (table : List Annotation) : Prop :=
  table.Pairwise fun a b => ¬ a.token <:+: b.token

theorem ordered_builtin : Ordered builtin := by
  have hsearch : builtin.Pairwise fun a b => occursIn a.token b.token = false := by
    decide +kernel
  refine hsearch.imp fun h => ?_
  rwa [← occursIn_iff, Bool.not_eq_true]

/-! ## Further tokens -/

theorem mem_place : b ∈ place new table ↔ b = new ∨ b ∈ table := by
  induction table with
  | nil => simp [place]
  | cons a table ih =>
    rw [place]
    split
    · simp
    · rw [List.mem_cons, ih, List.mem_cons]
      tauto

/-- A token that is not in the table is put where the order is kept. -/
theorem Ordered.place (h : Ordered table) (hnew : ∀ b ∈ table, b.token ≠ new.token) :
    Ordered (place new table) := by
  induction table with
  | nil =>
    unfold Annotation.place Ordered
    simp
  | cons a table ih =>
    obtain ⟨ha, hrest⟩ := List.pairwise_cons.1 h
    unfold Annotation.place
    split
    · next hin =>
      rw [occursIn_iff] at hin
      refine List.pairwise_cons.2 ⟨?_, h⟩
      intro b hb hnewb
      -- a token behind `a` that contains the new one would contain `a`
      rcases List.mem_cons.1 hb with rfl | hb
      · exact hnew b (by simp) (hin.eq_of_length_le hnewb.length_le)
      · exact ha b hb (hin.trans hnewb)
    · next hin =>
      rw [occursIn_iff] at hin
      refine List.pairwise_cons.2 ⟨?_, ih hrest fun b hb => hnew b (List.mem_cons_of_mem a hb)⟩
      intro b hb
      rcases mem_place.1 hb with rfl | hb
      · exact hin
      · exact ha b hb

theorem Ordered.insert (h : Ordered table) (extra : String) : Ordered (insert table extra) := by
  unfold Annotation.insert
  dsimp only
  split
  · next solid =>
    split
    · exact h
    · next hfresh =>
      refine h.place fun b hb heq => hfresh ?_
      exact List.any_eq_true.2 ⟨b, hb, by simpa using heq⟩
  · exact h

/-- Tables with further tokens are in order. -/
theorem ordered_withExtras (extras : List String) : Ordered (withExtras extras) :=
  List.foldlRecOn extras Annotation.insert ordered_builtin fun _ h extra _ => h.insert extra

theorem forall_mem_insert {P : Annotation → Prop} {extra : String} (h : ∀ a ∈ table, P a)
    (hextra : ∀ solid, P ⟨trim extra.toList, {}, solid⟩) : ∀ a ∈ insert table extra, P a := by
  unfold Annotation.insert
  dsimp only
  split
  · next solid =>
    split
    · exact h
    · intro a ha
      rcases mem_place.1 ha with rfl | ha
      · exact hextra solid
      · exact h a ha
  · exact h

/-- What is true of the known tokens and of the trimmed further ones is true of the whole table. -/
theorem forall_mem_withExtras {P : Annotation → Prop} (hbuiltin : ∀ a ∈ builtin, P a)
    (hextra : ∀ extra ∈ extras, ∀ solid, P ⟨trim extra.toList, {}, solid⟩) :
    ∀ a ∈ withExtras extras, P a :=
  List.foldlRecOn (motive := fun table => ∀ a ∈ table, P a) extras Annotation.insert hbuiltin
    fun _ h extra hmem => forall_mem_insert h (hextra extra hmem)

/-! ## What a table holds -/

/-- No two annotations of a table in order have the same token. -/
theorem Ordered.nodup (h : Ordered table) : (table.map (·.token)).Nodup := by
  refine List.pairwise_map.2 (h.imp fun {a b} hnot heq => hnot ?_)
  rw [heq]

theorem sublist_place (new : Annotation) (table : List Annotation) :
    List.Sublist table (place new table) := by
  induction table with
  | nil => exact List.nil_sublist _
  | cons a table ih =>
    unfold place
    split
    · exact List.sublist_cons_self new (a :: table)
    · exact ih.cons_cons a

theorem sublist_insert (table : List Annotation) (extra : String) :
    List.Sublist table (insert table extra) := by
  unfold insert
  dsimp only
  split
  · split
    · exact List.Sublist.refl _
    · exact sublist_place _ _
  · exact List.Sublist.refl _

theorem sublist_foldl_insert (table : List Annotation) (extras : List String) :
    List.Sublist table (extras.foldl insert table) :=
  List.foldlRecOn (motive := List.Sublist table) extras insert (List.Sublist.refl _)
    fun _ h extra _ => h.trans (sublist_insert _ extra)

/-- A trimmed text that is not empty is not blank. -/
theorem solid_trim {s : List Char} (h : trim s ≠ []) :
    ((trim s).any fun c => !isBlank c) = true := by
  obtain ⟨c, t, hs⟩ := List.exists_cons_of_ne_nil h
  have hc : isBlank c = false := (isTrimmed_trim s).1 c (by simp [hs])
  simp [hs, hc]

theorem exists_mem_insert (table : List Annotation) {extra : String}
    (h : trim extra.toList ≠ []) : ∃ a ∈ insert table extra, a.token = trim extra.toList := by
  unfold insert
  dsimp only
  rw [dif_pos (solid_trim h)]
  split
  · next hknown =>
    obtain ⟨a, ha, htoken⟩ := List.any_eq_true.1 hknown
    exact ⟨a, ha, by simpa using htoken⟩
  · exact ⟨_, mem_place.2 (.inl rfl), rfl⟩

/-- Each further token that is not blank is in the table: it is put there in its turn, and stays. -/
theorem exists_mem_withExtras {extra : String} (hmem : extra ∈ extras)
    (h : trim extra.toList ≠ []) : ∃ a ∈ withExtras extras, a.token = trim extra.toList := by
  obtain ⟨earlier, later, rfl⟩ := List.append_of_mem hmem
  rw [withExtras, List.foldl_append, List.foldl_cons]
  obtain ⟨a, ha, htoken⟩ := exists_mem_insert (earlier.foldl insert builtin) h
  exact ⟨a, (sublist_foldl_insert _ later).subset ha, htoken⟩

/-- A table holds the known annotations and the given further tokens, once each, and no token
contains one that stands before it. -/
structure Arranged (extras : List String) (table : List Annotation) : Prop where
  nodup : (table.map (·.token)).Nodup
  /-- The known annotations are there with their marks, in their order. -/
  known : List.Sublist builtin table
  further : ∀ extra ∈ extras, trim extra.toList ≠ [] → ∃ a ∈ table, a.token = trim extra.toList
  /-- What is not known has been given, and leaves no mark. -/
  only : ∀ a ∈ table,
    a ∈ builtin ∨ a.marks = {} ∧ ∃ extra ∈ extras, trim extra.toList = a.token
  ordered : Ordered table

/-- Whatever further tokens are given, in whatever order. -/
theorem arranged_withExtras (extras : List String) :
    Arranged extras (DeclarationParser.withExtras extras).annotations where
  nodup := (ordered_withExtras extras).nodup
  known := sublist_foldl_insert builtin extras
  further := fun _ hmem hne => exists_mem_withExtras hmem hne
  only := forall_mem_withExtras (fun _ ha => .inl ha)
    fun extra hmem _ => .inr ⟨rfl, extra, hmem, rfl⟩
  ordered := ordered_withExtras extras

/-- A further token stands before the first one that it contains, be it known or not. -/
example : (((withExtras ["_In_x_", " a_In_x_ ", "\t", "_In_"]).drop 22).take 3).map
      (fun a => (String.ofList a.token, a.marks)) =
    [("a_In_x_", {}), ("_In_x_", {}), ("_In_", .input)] := by
  decide +kernel

end TypeAtlas.Annotation
