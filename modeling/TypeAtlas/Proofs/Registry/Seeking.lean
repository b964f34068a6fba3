import TypeAtlas.Proofs.Registry.Binding
import TypeAtlas.Proofs.Registry.Corpus

/-!
# Searches of a registry

Binding looks names up in a registry that grows meanwhile. Each of its steps is one search: what it
finds is taken, and if it finds nothing a slot is made under the last of its names. While a compound
is bound, its registry has the known names of a corpus, those that the compound has added before,
and some of those that other compounds add. In such a registry a turn of the compound finds what it
means, whatever other compounds have added.

## Main definitions

* `Registry.seek?`, `Registry.obtain`, `Registry.serve` — what a search finds, and the slot that it
  ends with.
* `Registry.Settling` — the registry of a corpus while a compound is bound.

The main statements are `Registry.Settling.names_obtain` and `Registry.Settling.serveAll`.
-/

namespace TypeAtlas

namespace Registry

variable {u : Corpus} {r m : Registry} {c : Compound} {id : TypeId} {s : Search} {ℓ : Lookup}
  {name key reference : String}

/-! ## Searching -/

/-- What a lookup finds. -/
def reach? (r : Registry) (ℓ : Lookup) : Option TypeId :=
  if ℓ.anyCase then r.find? ℓ.name else r.names[ℓ.name]?

/-- What a search finds first. -/
def seek? (r : Registry) (s : Search) : Option TypeId :=
  s.findSome? r.reach?

/-- The slot that a search ends with: what it finds, else a new one under the last of its names. -/
def obtain (r : Registry) (s : Search) : TypeId × Registry :=
  match r.seek? s with
  | some id => (id, r)
  | none => r.push s.goal (r.placeholder s.goal)

/-- What is searched for, if anything is. -/
def serve (r : Registry) (search : Option Search) : Option TypeId × Registry :=
  match search with
  | none => (none, r)
  | some s => (some (r.obtain s).1, (r.obtain s).2)

/-- What is searched for one after another. -/
def serveAll (r : Registry) (searches : List (Option Search)) : List (Option TypeId) × Registry :=
  match searches with
  | [] => ([], r)
  | s :: searches =>
    ((r.serve s).1 :: ((r.serve s).2.serveAll searches).1, ((r.serve s).2.serveAll searches).2)

@[simp] theorem serve_none (r : Registry) : r.serve none = (none, r) := rfl

@[simp] theorem serve_some (r : Registry) (s : Search) :
    r.serve (some s) = (some (r.obtain s).1, (r.obtain s).2) := rfl

@[simp] theorem serveAll_nil (r : Registry) : r.serveAll [] = ([], r) := rfl

@[simp] theorem serveAll_cons (r : Registry) (s : Option Search) (searches : List (Option Search)) :
    r.serveAll (s :: searches) = ((r.serve s).1 :: ((r.serve s).2.serveAll searches).1,
      ((r.serve s).2.serveAll searches).2) := rfl

theorem serveAll_append (r : Registry) (searches more : List (Option Search)) :
    r.serveAll (searches ++ more) = ((r.serveAll searches).1 ++
      ((r.serveAll searches).2.serveAll more).1, ((r.serveAll searches).2.serveAll more).2) := by
  induction searches generalizing r with
  | nil => rfl
  | cons s searches ih => simp [ih]

@[simp] theorem seek?_cons (r : Registry) (ℓ : Lookup) (s : Search) :
    r.seek? (ℓ :: s) = (r.reach? ℓ).or (r.seek? s) := by
  simp only [seek?, List.findSome?_cons]
  cases r.reach? ℓ <;> rfl

@[simp] theorem seek?_nil (r : Registry) : r.seek? [] = none := rfl

theorem seek?_append (r : Registry) (s t : Search) :
    r.seek? (s ++ t) = (r.seek? s).or (r.seek? t) :=
  List.findSome?_append

theorem seek?_inScopes (r : Registry) (scopes : List String) (name : String) :
    r.seek? (Search.inScopes scopes name) =
      scopes.findSome? fun scope => r.names[Name.qualify scope name]? := by
  rw [seek?, Search.inScopes, List.findSome?_map]
  rfl

/-- A registry that was made from the blank registry of a corpus. -/
structure Reading (u : Corpus) (r : Registry) : Prop extends Indexed r where
  origin_eq : r.origin = u.origin
  settings_eq : r.settings = u.settings
  parser_eq : r.parser = u.parser

namespace Reading

theorem keyOf_eq (h : Reading u r) (name : String) : r.keyOf name = u.blank.keyOf name := by
  unfold keyOf
  rw [h.parser_eq]
  rfl

theorem isBuiltin_eq (h : Reading u r) (name : String) :
    r.isBuiltin name = u.blank.isBuiltin name := by
  unfold isBuiltin
  rw [h.settings_eq]
  rfl

theorem foldsCase_eq (h : Reading u r) : r.foldsCase = u.blank.foldsCase := by
  unfold foldsCase
  rw [h.settings_eq, h.origin_eq]
  rfl

theorem grows (h : Reading u r) (hm : r.Grows m) : Reading u m where
  toIndexed := hm.indexed h.toIndexed
  origin_eq := hm.origin_eq.trans h.origin_eq
  settings_eq := hm.settings_eq.trans h.settings_eq
  parser_eq := hm.parser_eq.trans h.parser_eq

/-- A reference leads to what its search finds. -/
theorem lookup?_eq (h : Reading u r) (reference : String) :
    r.lookup? reference = r.seek? (u.referSearch reference) := by
  unfold lookup? Corpus.referSearch
  dsimp only
  rw [h.keyOf_eq]
  split
  · simp [reach?, h.names_empty]
  · split <;> simp [reach?]

/-- Interning a reference ends with what its search ends with. -/
theorem getOrCreate_eq (h : Reading u r) (reference : String) :
    r.getOrCreate reference = r.obtain (u.referSearch reference) := by
  unfold getOrCreate obtain
  rw [h.lookup?_eq]
  cases hfind : r.seek? (u.referSearch reference) with
  | some id => rfl
  | none =>
    rcases u.referSearch_cases reference with ⟨-, heq⟩ | ⟨-, before, heq⟩
    · simp [heq, reach?, h.names_empty] at hfind
    · rw [heq, Search.goal_concat, h.keyOf_eq]
      rfl

/-- The parent of a definition is what its search finds, if no other name leads to the
definition. -/
theorem seek?_parentSearch (h : Reading u r) (hid : r.names[c.fullName]? = some id) :
    r.seek? c.parentSearch = some (r.parentOf id c) := by
  have hfilter : ∀ names : List String,
      r.seek? ((names.filter (· != c.fullName)).map (⟨·, false⟩)) =
        names.findSome? fun candidate => (r.names[candidate]?).filter (· != id) := by
    intro names
    induction names with
    | nil => rfl
    | cons candidate names ih =>
      rw [List.findSome?_cons, ← ih]
      by_cases hown : candidate = c.fullName
      · simp [hown, hid, Option.filter_some]
      · have hother : r.names[candidate]? ≠ some id := by
          intro hcandidate
          have hname := h.fullName?_of_names hcandidate
          exact hown (Option.some.inj (hname.symm.trans (h.fullName?_of_names hid)))
        rw [List.filter_cons_of_pos (by simpa using hown), List.map_cons, seek?_cons]
        cases hfound : r.names[candidate]? with
        | none => simp [reach?, hfound]
        | some found =>
          have hne : found ≠ id := fun heq => hother (heq ▸ hfound)
          simp [reach?, hfound, hne, Option.filter_some]
  have hglobal : r.seek? [⟨"", false⟩] = some .global := by
    simp [reach?, h.names_empty]
  rw [Compound.parentSearch, seek?_append, hglobal, parentOf]
  cases c.parentName with
  | none => rfl
  | some name =>
    rw [Option.elim, hfilter]
    dsimp only
    generalize (name :: Name.enclosing name).findSome? _ = found
    cases found <;> rfl

end Reading

end Registry

namespace Site

variable {u : Corpus} {r m : Registry} {c : Compound} {site : Site} {name : String}

/-- The site of a compound whose type parameters are known under their names. -/
structure Sees (r : Registry) (c : Compound) (site : Site) : Prop where
  scope : site.scope = c.fullName
  generics : ∀ generic ∈ site.generics,
    r.names[Name.qualify c.fullName generic.1]? = some generic.2

theorem Sees.grows (h : Sees r c site) (hm : r.Grows m) : Sees m c site :=
  ⟨h.scope, fun generic hg => hm.names (h.generics generic hg)⟩

/-- Binding a name inside a compound is a search for it. A type parameter is what the innermost
scope has under its name. -/
theorem Sees.run_bindName (h : Sees r c site) (hr : Registry.Reading u r) (hc : c.fullName ≠ "")
    (name : String) : (site.bindName name).run r = r.serve (u.nameSearch? c name) := by
  have hscopes : site.findEnclosing? r name =
      r.seek? (Search.inScopes (c.fullName :: Name.enclosing c.fullName) name) := by
    rw [Registry.seek?_inScopes, findEnclosing?, scopes, h.scope, if_neg hc]
  rw [Site.run_bindName, Corpus.nameSearch?]
  split
  · rfl
  rw [Registry.serve_some, hscopes]
  cases hgeneric : site.generics.lookup name with
  | some id =>
    obtain ⟨before, after, hsplit, -⟩ := List.lookup_eq_some_iff.1 hgeneric
    have hslot := h.generics (name, id) (by simp [hsplit])
    simp [Registry.obtain, Search.inScopes, Registry.reach?, hslot]
  | none =>
    dsimp only
    rw [hr.getOrCreate_eq]
    unfold Registry.obtain
    rw [Registry.seek?_append]
    cases r.seek? (Search.inScopes (c.fullName :: Name.enclosing c.fullName) name) with
    | some id => rfl
    | none =>
      cases hfind : r.seek? (u.referSearch name) with
      | some id => rfl
      | none =>
        rcases u.referSearch_cases name with ⟨-, heq⟩ | ⟨-, before, heq⟩
        · simp [heq, Registry.reach?, hr.names_empty] at hfind
        · rw [heq, ← List.append_assoc, Search.goal_concat, Search.goal_concat]
          rfl

end Site

namespace Registry

variable {u : Corpus} {r m : Registry} {c : Compound} {id : TypeId} {s : Search} {ℓ : Lookup}
  {name key : String}

/-! ## Searching while a compound is bound -/

theorem Indexed.firstSpelling?_ne_empty {folded : String} (h : r.Indexed)
    (hname : r.firstSpelling? folded = some name) : name ≠ "" := by
  rintro rfl
  have hmem := List.mem_of_find?_eq_some hname
  obtain ⟨i, hi⟩ := List.mem_iff_getElem?.1 hmem
  rw [List.getElem?_tail] at hi
  have hglobal := h.nameless ⟨i + 1⟩ (by rw [fullName?_eq]; exact hi)
  simp [TypeId.global] at hglobal

theorem Indexed.names_of_firstSpelling? {folded : String} (h : r.Indexed)
    (hname : r.firstSpelling? folded = some name) : ∃ id, r.names[name]? = some id := by
  have hmem := List.mem_of_mem_tail (List.mem_of_find?_eq_some hname)
  obtain ⟨i, hi⟩ := List.mem_iff_getElem?.1 hmem
  exact Option.isSome_iff_exists.1 (h.names_isSome ⟨i⟩ name (by rw [fullName?_eq]; exact hi))

/-- Each name but that of the global namespace has a first spelling. -/
theorem Indexed.exists_firstSpelling? (h : r.Indexed) (hid : r.names[name]? = some id)
    (hne : name ≠ "") : ∃ first, r.firstSpelling? (Text.lowercase name) = some first := by
  have hfull := h.fullName?_of_names hid
  have hindex : id ≠ .global := by
    rintro rfl
    rw [fullName?, h.global] at hfull
    exact hne (Option.some.inj hfull).symm
  have hmem : name ∈ r.fullNames.tail := by
    obtain ⟨_ | index⟩ := id
    · exact absurd rfl hindex
    · rw [fullName?_eq, ← List.getElem?_tail] at hfull
      exact List.mem_of_getElem? hfull
  rw [← Option.isSome_iff_exists, firstSpelling?, List.find?_isSome]
  exact ⟨name, hmem, by simp⟩

namespace Reading

/-- A lookup finds a slot with one of the names that it reads: its own one if a slot has it, else
the first spelling. -/
theorem names_of_reach? (h : Reading u r) (hid : r.reach? ℓ = some id) :
    ∃ name, u.Reads ℓ name ∧ r.names[name]? = some id ∧
      (name = ℓ.name ∨ ℓ.anyCase = true ∧ r.names[ℓ.name]? = none ∧
        r.firstSpelling? (Text.lowercase ℓ.name) = some name) := by
  unfold reach? at hid
  split at hid
  · next hcase =>
    unfold find? at hid
    split at hid
    · next found hfound => exact ⟨ℓ.name, u.reads_self ℓ, hid ▸ hfound, .inl rfl⟩
    · next hfresh =>
      split at hid
      · next hfold =>
        rw [h.foldsCase_eq, h.isBuiltin_eq] at hfold
        rw [h.folded] at hid
        obtain ⟨first, hfirst, hname⟩ := Option.bind_eq_some_iff.1 hid
        have hlower : Text.lowercase first = Text.lowercase ℓ.name := by
          simpa using List.find?_some hfirst
        refine ⟨first, .inr ⟨hcase, ?_, ?_, h.firstSpelling?_ne_empty hfirst, hlower⟩, hname,
          .inr ⟨hcase, hfresh, hfirst⟩⟩
        · simp_all
        · simp_all
      · simp at hid
  · exact ⟨ℓ.name, u.reads_self ℓ, hid, .inl rfl⟩

theorem reach?_of_names (h : r.names[ℓ.name]? = some id) : r.reach? ℓ = some id := by
  simp [reach?, h, find?_of_names h]

/-- A lookup finds something if a slot has one of the names that it reads. -/
theorem exists_reach? (h : Reading u r) (hreads : u.Reads ℓ name)
    (hname : r.names[name]? = some id) : ∃ found, r.reach? ℓ = some found := by
  rcases hreads with rfl | ⟨hcase, hfolds, hbuiltin, hne, hlower⟩
  · exact ⟨id, reach?_of_names hname⟩
  · cases hown : r.names[ℓ.name]? with
    | some found => exact ⟨found, reach?_of_names hown⟩
    | none =>
      obtain ⟨first, hfirst⟩ := h.exists_firstSpelling? hname hne
      obtain ⟨found, hfound⟩ := h.names_of_firstSpelling? hfirst
      refine ⟨found, ?_⟩
      rw [reach?, if_pos hcase, find?, hown]
      simp [h.foldsCase_eq, h.isBuiltin_eq, hfolds, hbuiltin, h.folded, ← hlower, hfirst, hfound]

end Reading

/-- The registry of a corpus while a compound is bound: it has the known names, of which each has a
known first spelling, and what the compound has added. All other names are added by other
compounds. -/
structure Settling (u : Corpus) (c : Compound) (added : List String) (r : Registry) : Prop
    extends Reading u r where
  known : ∀ name ∈ u.known, ∃ id, r.names[name]? = some id
  spelled : ∀ name ∈ u.known, name ≠ "" →
    ∃ first ∈ u.known, r.firstSpelling? (Text.lowercase name) = some first
  own : ∀ key ∈ added, ∃ id, r.names[key]? = some id
  cases : ∀ name id, r.names[name]? = some id →
    name ∈ u.known ∨ name ∈ added ∨ ∃ d ∈ u.compounds, c ≠ d ∧ name ∈ u.adds d

/-- A slot that a compound adds. -/
def IsAddedBy (u : Corpus) (c : Compound) (slot : Slot) : Prop :=
  slot.fullName ∈ u.adds c ∧ slot.origin = u.blank.placeholder slot.fullName

/-- A name leads to a slot. -/
def Leads (names : NameTable) (name : String) (id : TypeId) : Prop :=
  names[name]? = some id

/-- What searches end with leads to the slots of what they mean. -/
def Answered (names : NameTable) (answers : List (Option String)) (targets : List (Option TypeId)) :
    Prop :=
  List.Forall₂ (Option.Rel (Leads names)) answers targets

theorem Leads.grows (h : r.Grows m) {answer : Option String} {target : Option TypeId}
    (hanswer : Option.Rel (Leads r.names) answer target) :
    Option.Rel (Leads m.names) answer target := by
  cases hanswer with
  | some hname => exact .some (h.names hname)
  | none => exact .none

theorem Answered.grows {answers : List (Option String)} {targets : List (Option TypeId)}
    (h : Answered r.names answers targets) (hm : r.Grows m) :
    Answered m.names answers targets :=
  h.imp fun _ _ => Leads.grows hm

namespace Settling

variable {t : Turn} {added : List String} {before searches after : List (Option Search)}
  {search : Option Search}

theorem mem_openKeys_of_mem_added (hc : c ∈ u.compounds) (ht : t ∈ u.turns c)
    (hkey : key ∈ t.added) : key ∈ u.openKeys :=
  Corpus.mem_openKeys.2 ⟨c, hc, Corpus.added_subset_adds ht hkey⟩

/-- A name that has a slot is known or added. -/
theorem mem_openKeys (h : Settling u c t.added r) (hc : c ∈ u.compounds) (ht : t ∈ u.turns c)
    (hid : r.names[name]? = some id) (hknown : name ∉ u.known) : name ∈ u.openKeys := by
  rcases h.cases name id hid with hmem | hmem | ⟨d, hd, -, hmem⟩
  · exact absurd hmem hknown
  · exact mem_openKeys_of_mem_added hc ht hmem
  · exact Corpus.mem_openKeys.2 ⟨d, hd, hmem⟩

/-- A lookup that finds nothing in its turn finds only what another compound has added. -/
theorem exists_of_reach? (h : Settling u c added r) (hfinds : ¬ u.Finds added ℓ)
    (hid : r.reach? ℓ = some id) : ∃ d ∈ u.compounds, c ≠ d ∧
      ∃ key ∈ u.adds d, u.Reads ℓ key ∧ r.names[key]? = some id := by
  obtain ⟨name, hreads, hname, -⟩ := h.names_of_reach? hid
  rcases h.cases name id hname with hknown | hadded | ⟨d, hd, hne, hkey⟩
  · exact absurd (.inl ⟨name, hknown, hreads⟩) hfinds
  · exact absurd (.inr ⟨name, hadded, hreads⟩) hfinds
  · exact ⟨d, hd, hne, name, hkey, hreads, hname⟩

/-- A lookup that finds something in its turn finds its own name, or one of the rivals. -/
theorem reach?_of_finds (h : Settling u c t.added r) (hc : c ∈ u.compounds) (ht : t ∈ u.turns c)
    (hfinds : u.Finds t.added ℓ) : ∃ name id, r.reach? ℓ = some id ∧ r.names[name]? = some id ∧
      u.Reads ℓ name ∧ if ℓ.name ∈ u.known ∨ ℓ.name ∈ t.added then name = ℓ.name
        else name ∈ u.rivals ℓ := by
  obtain ⟨id, hid⟩ : ∃ id, r.reach? ℓ = some id := by
    rcases hfinds with ⟨name, hname, hreads⟩ | ⟨name, hname, hreads⟩
    · obtain ⟨id, hid⟩ := h.known name hname
      exact h.exists_reach? hreads hid
    · obtain ⟨id, hid⟩ := h.own name hname
      exact h.exists_reach? hreads hid
  split
  · next hown =>
    obtain ⟨found, hfound⟩ := hown.elim (h.known _) (h.own _)
    exact ⟨ℓ.name, found, Reading.reach?_of_names hfound, hfound, u.reads_self ℓ, rfl⟩
  · next hother =>
    rw [not_or] at hother
    obtain ⟨name, hreads, hname, hcases⟩ := h.names_of_reach? hid
    refine ⟨name, id, hid, hname, hreads, ?_⟩
    unfold Corpus.rivals
    split
    · next hmet =>
      obtain ⟨other, hother', hspells⟩ := hmet
      rcases hspells with rfl | ⟨hcase, hfolds, hbuiltin, hne, hlower⟩
      · exact absurd hother' hother.1
      -- The name itself is not added, as a search for it would have found the other spelling.
      have hfresh : r.names[ℓ.name]? = none := by
        cases hown : r.names[ℓ.name]? with
        | none => rfl
        | some own =>
          exact absurd ⟨other, hother', .inr ⟨rfl, hfolds, hbuiltin, hne, hlower⟩⟩
            (Corpus.not_met_of_mem_openKeys (h.mem_openKeys hc ht hown hother.1))
      rcases hcases with rfl | ⟨-, -, hfirst⟩
      · simp [hfresh] at hname
      · obtain ⟨first, hfirst', hspelling⟩ := h.spelled other hother' hne
        rw [hlower, hfirst] at hspelling
        rw [Option.some.inj hspelling]
        exact hfirst'
    · next hmet =>
      exact h.mem_openKeys hc ht hname fun hknown => hmet ⟨name, hknown, hreads⟩

/-- A search that finds nothing finds nothing in its turn. -/
theorem open_of_seek? (h : Settling u c t.added r) (hc : c ∈ u.compounds) (ht : t ∈ u.turns c)
    (hfind : r.seek? t.search = none) : u.Open t := by
  intro ℓ hℓ hfinds
  obtain ⟨-, id, hid, -⟩ := h.reach?_of_finds hc ht hfinds
  have hnone := List.findSome?_eq_none_iff.1 hfind ℓ hℓ
  simp [hid] at hnone

/-- A search finds what its turn means. -/
theorem names_of_seek? (h : Settling u c t.added r) (hu : u.Independent) (hc : c ∈ u.compounds)
    (ht : t ∈ u.turns c) (hid : r.seek? t.search = some id) :
    r.names[u.meaning t]? = some id := by
  have hmisses : ∀ ℓ ∈ u.misses t, ¬ u.Finds t.added ℓ → ∀ {found}, r.reach? ℓ = some found →
      u.Open t ∧ r.names[t.search.goal]? = some found := by
    intro ℓ hℓ hfinds found hfound
    obtain ⟨d, hd, hne, key, hkey, hreads, hname⟩ := h.exists_of_reach? hfinds hfound
    obtain ⟨hopen, hgoal⟩ := hu.clear c hc d hd hne t ht ℓ hℓ key hkey hreads
    exact ⟨hopen, hgoal ▸ hname⟩
  cases hhit : u.hit? t with
  | some ℓ =>
    obtain ⟨hfinds, before, after, hsplit, hbefore⟩ := Corpus.hit?_eq_some.1 hhit
    have hnone : r.seek? before = none := by
      rw [seek?, List.findSome?_eq_none_iff]
      intro x hx
      by_contra hfound
      obtain ⟨found, hfound⟩ := Option.ne_none_iff_exists'.1 hfound
      have hopen := hmisses x (Corpus.mem_misses_of_append hsplit hbefore hx) (hbefore x hx) hfound
      exact hopen.1 ℓ (by simp [hsplit]) hfinds
    obtain ⟨name, found, hreach, hfound, hreads, hname⟩ := h.reach?_of_finds hc ht hfinds
    have hspelling : u.spelling t.added ℓ = name := by
      split at hname
      · next hown => rw [Corpus.spelling, if_pos hown, hname]
      · next hother =>
        obtain ⟨hknown, hadded⟩ := not_or.1 hother
        obtain ⟨hmem, hspells⟩ := Corpus.spelling_spec hfinds hknown hadded
          fun key hkey => mem_openKeys_of_mem_added hc ht hkey
        exact hu.spelled c hc t ht ℓ hhit hknown hadded _ hmem name hname hspells hreads
    rw [hsplit, seek?_append, hnone, Option.none_or, seek?_cons, hreach, Option.some_or] at hid
    rw [Corpus.meaning_of_hit? hhit, hspelling, hfound, hid]
  | none =>
    have hopen := Corpus.hit?_eq_none.1 hhit
    obtain ⟨ℓ, hℓ, hreach⟩ := List.exists_of_findSome?_eq_some hid
    rw [Corpus.meaning_of_open hopen]
    exact (hmisses ℓ (Corpus.mem_misses_of_open hopen hℓ) (hopen ℓ hℓ) hreach).2

/-- A search ends with the slot of what its turn means. -/
theorem names_obtain (h : Settling u c t.added r) (hu : u.Independent) (hc : c ∈ u.compounds)
    (ht : t ∈ u.turns c) :
    (r.obtain t.search).2.names[u.meaning t]? = some (r.obtain t.search).1 := by
  unfold obtain
  cases hfind : r.seek? t.search with
  | some id => exact h.names_of_seek? hu hc ht hfind
  | none =>
    rw [Corpus.meaning_of_open (h.open_of_seek? hc ht hfind)]
    simp [names_push]

/-- The slot that a turn makes is one that its compound adds. -/
theorem growsBy_obtain (h : Settling u c t.added r) (hc : c ∈ u.compounds) (ht : t ∈ u.turns c) :
    GrowsBy (IsAddedBy u c) r (r.obtain t.search).2 := by
  unfold obtain
  cases hfind : r.seek? t.search with
  | some id => exact .refl _ r
  | none =>
    have hopen := h.open_of_seek? hc ht hfind
    have hadds : t.search.goal ∈ u.adds c := Corpus.mem_adds.2 ⟨t, ht, hopen, rfl⟩
    have hkey := Corpus.mem_openKeys.2 ⟨c, hc, hadds⟩
    have hne : t.search.goal ≠ "" := by
      intro hempty
      exact Corpus.not_mem_known_of_mem_openKeys hkey (by simp [hempty])
    have hfresh : r.names[t.search.goal]? = none := by
      have hnone := List.findSome?_eq_none_iff.1 hfind _ (Corpus.goal_mem_of_open ht hopen)
      rw [reach?, if_pos rfl] at hnone
      exact names_of_find? hnone
    refine (GrowsBy.refl _ r).push (.refer .refl _ hne hfresh) ⟨hadds, ?_⟩
    unfold placeholder
    rw [h.isBuiltin_eq]

/-- After a turn the registry has what the turn adds. -/
theorem obtain (h : Settling u c t.added r) (hu : u.Independent) (hc : c ∈ u.compounds)
    (ht : t ∈ u.turns c) :
    Settling u c (u.next t.added (some t.search)) (r.obtain t.search).2 := by
  have hgrows := h.growsBy_obtain hc ht
  refine ⟨h.toReading.grows hgrows.grows, ?_, ?_, ?_, ?_⟩
  · intro name hname
    obtain ⟨id, hid⟩ := h.known name hname
    exact ⟨id, hgrows.grows.names hid⟩
  · intro name hname hne
    obtain ⟨first, hfirst, hspelling⟩ := h.spelled name hname hne
    exact ⟨first, hfirst, hgrows.grows.firstSpelling? h.toIndexed hspelling⟩
  · have hold : ∀ key ∈ t.added, ∃ id, (r.obtain t.search).2.names[key]? = some id := by
      intro key hkey
      obtain ⟨id, hid⟩ := h.own key hkey
      exact ⟨id, hgrows.grows.names hid⟩
    intro key hkey
    unfold Corpus.next at hkey
    dsimp only at hkey
    split at hkey
    · next hopen =>
      rcases List.mem_append.1 hkey with hkey | hgoal
      · exact hold key hkey
      · have hname := h.names_obtain hu hc ht
        rw [Corpus.meaning_of_open hopen] at hname
        exact ⟨_, List.mem_singleton.1 hgoal ▸ hname⟩
    · exact hold key hkey
  · have hold : ∀ name id, r.names[name]? = some id → name ∈ u.known ∨
        name ∈ u.next t.added (some t.search) ∨ ∃ d ∈ u.compounds, c ≠ d ∧ name ∈ u.adds d := by
      intro name id hid
      exact (h.cases name id hid).imp_right (.imp_left fun hadded => u.subset_next _ _ hadded)
    intro name id hid
    unfold Registry.obtain at hid
    cases hfind : r.seek? t.search with
    | some found => exact hold name id (by rwa [hfind] at hid)
    | none =>
      rw [hfind, names_push] at hid
      split at hid
      · next hgoal =>
        have hopen := h.open_of_seek? hc ht hfind
        exact .inr (.inl (by simp [Corpus.next, hopen, ← hgoal]))
      · exact hold name id hid

/-- What is searched for after some other searches of a compound, and the registry after it. -/
theorem serve (h : Settling u c (u.addsFrom [] before) r) (hu : u.Independent)
    (hc : c ∈ u.compounds) (hsearches : u.searches c = before ++ search :: after) :
    GrowsBy (IsAddedBy u c) r (r.serve search).2 ∧
      Settling u c (u.addsFrom [] (before ++ [search])) (r.serve search).2 ∧
      Option.Rel (Leads (r.serve search).2.names)
        (search.map fun s => u.meaning ⟨u.addsFrom [] before, s⟩) (r.serve search).1 := by
  rw [Corpus.addsFrom_concat]
  cases search with
  | none => exact ⟨.refl _ r, h, .none⟩
  | some s =>
    have ht : ⟨u.addsFrom [] before, s⟩ ∈ u.turns c :=
      Corpus.mem_turns.2 (.inr ⟨before, s, after, hsearches, rfl⟩)
    have h : Settling u c (Turn.added ⟨u.addsFrom [] before, s⟩) r := h
    exact ⟨h.growsBy_obtain hc ht, h.obtain hu hc ht, .some (h.names_obtain hu hc ht)⟩

/-- Searches of a compound that come after other ones end with the slots of what they mean. -/
theorem serveAll (h : Settling u c (u.addsFrom [] before) r) (hu : u.Independent)
    (hc : c ∈ u.compounds) (hsearches : u.searches c = before ++ searches ++ after) :
    GrowsBy (IsAddedBy u c) r (r.serveAll searches).2 ∧
      Settling u c (u.addsFrom [] (before ++ searches)) (r.serveAll searches).2 ∧
      Answered (r.serveAll searches).2.names (u.answers before searches)
        (r.serveAll searches).1 := by
  induction searches generalizing before r with
  | nil =>
    rw [List.append_nil]
    exact ⟨.refl _ r, h, .nil⟩
  | cons search searches ih =>
    have hsearch : u.searches c = before ++ search :: (searches ++ after) := by simp [hsearches]
    obtain ⟨hgrows, hstep, hanswer⟩ := h.serve hu hc hsearch
    obtain ⟨hgrows', hrest, hanswers⟩ := ih hstep (by simp [hsearches])
    rw [List.append_cons]
    refine ⟨hgrows.trans hgrows', hrest, ?_⟩
    rw [Corpus.answers_cons]
    exact .cons (Leads.grows hgrows'.grows hanswer) hanswers

end Settling

end Registry

end TypeAtlas
