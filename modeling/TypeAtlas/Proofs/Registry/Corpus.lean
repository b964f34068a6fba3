import Mathlib.Data.Finset.Max
import Mathlib.Data.Finset.Union
import Mathlib.Data.String.Basic
import Mathlib.Tactic.ByContra
import TypeAtlas.Registry.Resolve

/-!
# What references mean

The compounds of a universe, in no order, decide which names are known before anything is bound:
those of the compounds and of their type parameters. A reference is a search through several names.
It means the first one that is known, or that an earlier reference in the same compound has added,
or else the name under which a slot is made for it. Where what one compound adds is nothing that a
reference in another one may find, each of them means the same in whatever order the compounds are
bound.

## Main definitions

* `Corpus` — the compounds of a universe and what reads them.
* `Lookup`, `Search` — a name that is looked up, and the names that a reference tries in turn.
* `Turn` — a search, and the names that its compound has added before.
* `Corpus.known`, `Corpus.openKeys` — the names that are known at first, and those that are added.
* `Corpus.meaning` — the name of what a search finds.
* `Corpus.turns`, `Corpus.adds` — the searches in a compound, and the names that they add.
* `Corpus.Independent` — no compound depends on when another one is bound.
-/

namespace TypeAtlas

/-! ## Searches -/

/-- A name that is looked up, as it is written or in any letter case. -/
structure Lookup where
  name : String
  anyCase : Bool
  deriving DecidableEq, Repr

/-- The names that a reference tries in turn. -/
abbrev Search := List Lookup

namespace Search

/-- The last name that a search tries. A slot is made under this name if it finds nothing. -/
def goal (s : Search) : String :=
  (s.getLast?.map (·.name)).getD ""

@[simp] theorem goal_concat (s : Search) (ℓ : Lookup) : goal (s ++ [ℓ]) = ℓ.name := by
  simp [goal]

/-- A name in each of several scopes, as it is written. -/
def inScopes (scopes : List String) (name : String) : Search :=
  scopes.map fun scope => ⟨Name.qualify scope name, false⟩

end Search

namespace Descriptor

mutual

/-- A type and its arguments at every depth, outer levels before their arguments. -/
def levels (d : Descriptor) : List Descriptor :=
  match d with
  | ⟨form, arguments⟩ => ⟨form, arguments⟩ :: levelsOf arguments

/-- Several types and their arguments at every depth. -/
def levelsOf (ds : List Descriptor) : List Descriptor :=
  match ds with
  | [] => []
  | d :: ds => levels d ++ levelsOf ds

end

end Descriptor

/-- The types that are written in a member, at every depth. -/
def Member.levels (m : Member) : List Descriptor :=
  (m.declaredType :: m.parameters.map (·.declaredType)).flatMap Descriptor.levels

namespace Compound

/-- The members that get bound: those of a composite and the overloads of a function. -/
def boundMembers (c : Compound) : List Member :=
  if c.kind.isComposite || c.kind == .function then c.members else []

/-- The parent of the compound: the entity that it names as such, the scopes around that, innermost
first, and then the global namespace. -/
def parentSearch (c : Compound) : Search :=
  ((c.parentName.elim [] fun name => name :: Name.enclosing name).filter
    (· != c.fullName)).map (⟨·, false⟩) ++ [⟨"", false⟩]

end Compound

/-! ## Known names -/

/-- The compounds of a universe, in no order, and what reads them. -/
structure Corpus where
  origin : Universe
  settings : RegistrySettings
  parser : DeclarationParser
  compounds : Finset Compound

namespace Corpus

variable (u : Corpus)

/-- The registry of the universe before anything is known. -/
def blank : Registry :=
  .empty u.origin u.settings u.parser

/-- The names of the type parameters of a compound, inside the compound. -/
def parameterKeys (c : Compound) : List String :=
  ((c.templateParams.map u.blank.typeParameterName).filter (· != "")).map
    (Name.qualify c.fullName)

/-- The names that are known before any reference is bound. -/
def known : Finset String :=
  insert "" (u.compounds.image (·.fullName) ∪
    u.compounds.biUnion fun c => (u.parameterKeys c).toFinset)

/-- Whether a lookup finds the slot of a name. -/
def Reads (ℓ : Lookup) (name : String) : Prop :=
  name = ℓ.name ∨ ℓ.anyCase = true ∧ u.blank.foldsCase = true ∧ u.blank.isBuiltin ℓ.name = false ∧
    name ≠ "" ∧ Text.lowercase name = Text.lowercase ℓ.name

/-- Whether a lookup finds something that is known at first. -/
def Met (ℓ : Lookup) : Prop :=
  ∃ name ∈ u.known, u.Reads ℓ name

instance (ℓ : Lookup) (name : String) : Decidable (u.Reads ℓ name) :=
  inferInstanceAs (Decidable (_ ∨ _))

instance (ℓ : Lookup) : Decidable (u.Met ℓ) :=
  inferInstanceAs (Decidable (∃ name ∈ u.known, _))

end Corpus

/-! ## Turns -/

/-- A search, and the names that its compound has added before. -/
structure Turn where
  added : List String
  search : Search

namespace Corpus

variable (u : Corpus)

/-- Whether a lookup finds something, where some names have been added. -/
def Finds (added : List String) (ℓ : Lookup) : Prop :=
  u.Met ℓ ∨ ∃ key ∈ added, u.Reads ℓ key

instance (added : List String) (ℓ : Lookup) : Decidable (u.Finds added ℓ) :=
  inferInstanceAs (Decidable (_ ∨ _))

/-- The name that a lookup finds: the name itself, else another spelling of it, a known one rather
than an added one. Which one this is of several known ones depends on their order; the least one
stands for all of them. -/
def spelling (added : List String) (ℓ : Lookup) : String :=
  if ℓ.name ∈ u.known ∨ ℓ.name ∈ added then ℓ.name
  else if u.Met ℓ then (u.known.filter (u.Reads ℓ)).min.untopD ""
  else (added.find? fun key => decide (u.Reads ℓ key)).getD ""

/-- The first lookup of a turn that finds something. -/
def hit? (t : Turn) : Option Lookup :=
  t.search.find? fun ℓ => decide (u.Finds t.added ℓ)

/-- The lookups of a turn that find nothing before one does. -/
def misses (t : Turn) : Search :=
  t.search.takeWhile fun ℓ => !decide (u.Finds t.added ℓ)

/-- Whether a turn finds nothing. -/
def Open (t : Turn) : Prop :=
  ∀ ℓ ∈ t.search, ¬ u.Finds t.added ℓ

instance (t : Turn) : Decidable (u.Open t) :=
  inferInstanceAs (Decidable (∀ ℓ ∈ t.search, _))

/-- The name of what a turn finds, or of the slot that is made in it. -/
def meaning (t : Turn) : String :=
  match u.hit? t with
  | some ℓ => u.spelling t.added ℓ
  | none => t.search.goal

/-- The names that have been added after a search, if there is one. -/
def next (added : List String) (search : Option Search) : List String :=
  match search with
  | none => added
  | some s => if u.Open ⟨added, s⟩ then added ++ [s.goal] else added

/-- The names that have been added after several searches. -/
def addsFrom (added : List String) (searches : List (Option Search)) : List String :=
  searches.foldl u.next added

/-- The turns of several searches. -/
def turnsFrom (added : List String) (searches : List (Option Search)) : List (Option Turn) :=
  match searches with
  | [] => []
  | s :: searches => s.map (⟨added, ·⟩) :: turnsFrom (u.next added s) searches

/-! ## References -/

/-- A reference that is written outside of any scope: the text itself, then the name of its type. -/
def referSearch (reference : String) : Search :=
  let name := Text.trimmed reference
  if name = "" then [⟨"", false⟩]
  else if u.blank.keyOf name = name then [⟨name, true⟩]
  else [⟨name, true⟩, ⟨u.blank.keyOf name, true⟩]

/-- A name that is written inside a compound: in each scope around it, innermost first, and then
outside of any scope. Nothing is searched for the empty name. -/
def nameSearch? (c : Compound) (name : String) : Option Search :=
  if name = "" then none
  else some (Search.inScopes (c.fullName :: Name.enclosing c.fullName) name ++ u.referSearch name)

/-- The searches for the types in a list of bases or of derived types. -/
def rawSearches (c : Compound) (rawNames : List String) : List (Option Search) :=
  rawNames.map fun raw => u.nameSearch? c (u.parser.parse raw).fullName

/-- The searches for the children of a compound. -/
def childSearches (c : Compound) : List (Option Search) :=
  c.childNames.map fun child => some (u.referSearch child)

/-- The searches for several types. -/
def levelSearches (c : Compound) (levels : List Descriptor) : List (Option Search) :=
  levels.map fun level => u.nameSearch? c level.fullName

/-- The searches for the types in the members of a compound. -/
def typeSearches (c : Compound) : List (Option Search) :=
  u.levelSearches c (c.boundMembers.flatMap (·.levels))

/-! ## Compounds -/

/-- All searches in a compound but the one for its parent: for its bases, its derived types, its
children, and the types in its members. -/
def searches (c : Compound) : List (Option Search) :=
  u.rawSearches c c.baseNames ++ u.rawSearches c c.derivedNames ++ u.childSearches c ++
    u.typeSearches c

/-- The names that a compound adds. -/
def adds (c : Compound) : List String :=
  u.addsFrom [] (u.searches c)

/-- The turns of a compound, of which the first one is for its parent. -/
def turns (c : Compound) : List Turn :=
  ⟨[], c.parentSearch⟩ :: (u.turnsFrom [] (u.searches c)).filterMap id

/-- What searches mean that come after other ones in a compound. -/
def answers (before searches : List (Option Search)) : List (Option String) :=
  (u.turnsFrom (u.addsFrom [] before) searches).map (·.map u.meaning)

/-- The name of the parent of a compound. -/
def parentName (c : Compound) : String :=
  u.meaning ⟨[], c.parentSearch⟩

/-- What the bases of a compound mean. -/
def baseAnswers (c : Compound) : List (Option String) :=
  u.answers [] (u.rawSearches c c.baseNames)

/-- What the derived types of a compound mean. -/
def derivedAnswers (c : Compound) : List (Option String) :=
  u.answers (u.rawSearches c c.baseNames) (u.rawSearches c c.derivedNames)

/-- What the listed children of a compound mean. -/
def childAnswers (c : Compound) : List (Option String) :=
  u.answers (u.rawSearches c c.baseNames ++ u.rawSearches c c.derivedNames) (u.childSearches c)

/-- What the types in the members of a compound mean. -/
def typeAnswers (c : Compound) : List (Option String) :=
  u.answers (u.rawSearches c c.baseNames ++ u.rawSearches c c.derivedNames ++ u.childSearches c)
    (u.typeSearches c)

/-- The names that are added for references. -/
def openKeys : Finset String :=
  u.compounds.biUnion fun c => (u.adds c).toFinset

/-! ## Independence -/

/-- The names of which a lookup may find any. -/
def rivals (ℓ : Lookup) : Finset String :=
  if u.Met ℓ then u.known else u.openKeys

/-- Whether no compound depends on when another one is bound, and no name on which compound comes
first. -/
structure Independent : Prop where
  /-- What a turn fails to find no other compound adds, unless the turn adds it as well. -/
  clear : ∀ c ∈ u.compounds, ∀ d ∈ u.compounds, c ≠ d → ∀ t ∈ u.turns c, ∀ ℓ ∈ u.misses t,
    ∀ key ∈ u.adds d, u.Reads ℓ key → u.Open t ∧ t.search.goal = key
  /-- What a turn finds in another letter case is spelled in one way. -/
  spelled : ∀ c ∈ u.compounds, ∀ t ∈ u.turns c, ∀ ℓ ∈ u.hit? t, ℓ.name ∉ u.known →
    ℓ.name ∉ t.added → ∀ a ∈ u.rivals ℓ, ∀ b ∈ u.rivals ℓ, u.Reads ℓ a → u.Reads ℓ b → a = b
  /-- Two compounds share the name of a type parameter only if it is the name of a compound. -/
  parameters : ∀ c ∈ u.compounds, ∀ d ∈ u.compounds, ∀ key ∈ u.parameterKeys c,
    key ∈ u.parameterKeys d → c = d ∨ ∃ e ∈ u.compounds, e.fullName = key
  /-- Two compounds do not list the same child that is known from references alone. -/
  adopted : ∀ c ∈ u.compounds, ∀ d ∈ u.compounds, ∀ key ∈ u.openKeys,
    some key ∈ u.childAnswers c → some key ∈ u.childAnswers d → c = d

set_option synthInstance.maxSize 256 in
instance : Decidable u.Independent :=
  decidable_of_iff (_ ∧ _ ∧ _ ∧ _)
    ⟨fun h => ⟨h.1, h.2.1, h.2.2.1, h.2.2.2⟩,
      fun h => ⟨h.clear, h.spelled, h.parameters, h.adopted⟩⟩

/-! ## Laws -/

variable {u} {c : Compound} {t : Turn} {added : List String} {s before after : Search}
  {searches : List (Option Search)} {ℓ : Lookup} {key name reference : String}

theorem mem_known : name ∈ u.known ↔ name = "" ∨
    ∃ c ∈ u.compounds, c.fullName = name ∨ name ∈ u.parameterKeys c := by
  simp only [known, Finset.mem_insert, Finset.mem_union, Finset.mem_image, Finset.mem_biUnion,
    List.mem_toFinset]
  constructor
  · rintro (rfl | ⟨c, hc, rfl⟩ | ⟨c, hc, hkey⟩)
    · exact .inl rfl
    · exact .inr ⟨c, hc, .inl rfl⟩
    · exact .inr ⟨c, hc, .inr hkey⟩
  · rintro (rfl | ⟨c, hc, rfl | hkey⟩)
    · exact .inl rfl
    · exact .inr (.inl ⟨c, hc, rfl⟩)
    · exact .inr (.inr ⟨c, hc, hkey⟩)

@[simp] theorem empty_mem_known : "" ∈ u.known :=
  mem_known.2 (.inl rfl)

theorem fullName_mem_known (hc : c ∈ u.compounds) : c.fullName ∈ u.known :=
  mem_known.2 (.inr ⟨c, hc, .inl rfl⟩)

theorem mem_known_of_mem_parameterKeys (hc : c ∈ u.compounds) (hkey : key ∈ u.parameterKeys c) :
    key ∈ u.known :=
  mem_known.2 (.inr ⟨c, hc, .inr hkey⟩)

theorem reads_self (ℓ : Lookup) : u.Reads ℓ ℓ.name :=
  .inl rfl

theorem met_of_mem_known (h : ℓ.name ∈ u.known) : u.Met ℓ :=
  ⟨ℓ.name, h, reads_self ℓ⟩

theorem mem_openKeys : key ∈ u.openKeys ↔ ∃ c ∈ u.compounds, key ∈ u.adds c := by
  simp [openKeys]

/-! ### One turn -/

theorem hit?_eq_some : u.hit? t = some ℓ ↔ u.Finds t.added ℓ ∧
    ∃ before after, t.search = before ++ ℓ :: after ∧ ∀ x ∈ before, ¬ u.Finds t.added x := by
  simp [hit?, List.find?_eq_some_iff_append]

theorem hit?_eq_none : u.hit? t = none ↔ u.Open t := by
  simp [hit?, Open]

theorem mem_misses_of_append (h : t.search = before ++ after)
    (hbefore : ∀ x ∈ before, ¬ u.Finds t.added x) (hℓ : ℓ ∈ before) : ℓ ∈ u.misses t := by
  unfold misses
  rw [h, List.takeWhile_append_of_pos (by simpa using hbefore)]
  exact List.mem_append_left _ hℓ

theorem mem_misses_of_open (h : u.Open t) (hℓ : ℓ ∈ t.search) : ℓ ∈ u.misses t :=
  mem_misses_of_append (List.append_nil _).symm h hℓ

theorem meaning_of_open (h : u.Open t) : u.meaning t = t.search.goal := by
  rw [meaning, hit?_eq_none.2 h]

theorem meaning_of_hit? (h : u.hit? t = some ℓ) : u.meaning t = u.spelling t.added ℓ := by
  rw [meaning, h]

theorem not_open_of_mem_empty (h : ⟨"", false⟩ ∈ t.search) : ¬ u.Open t :=
  fun hopen => hopen _ h (.inl (met_of_mem_known (by simp)))

/-- The spelling that a lookup finds is one of its rivals, and the lookup finds it. -/
theorem spelling_spec (h : u.Finds added ℓ) (hknown : ℓ.name ∉ u.known) (hname : ℓ.name ∉ added)
    (hadded : ∀ key ∈ added, key ∈ u.openKeys) :
    u.spelling added ℓ ∈ u.rivals ℓ ∧ u.Reads ℓ (u.spelling added ℓ) := by
  unfold spelling
  rw [if_neg (not_or.2 ⟨hknown, hname⟩)]
  unfold rivals
  split_ifs with hmet
  · obtain ⟨a, ha, hreads⟩ := hmet
    obtain ⟨least, hleast⟩ := Finset.min_of_mem (Finset.mem_filter.2 ⟨ha, hreads⟩)
    rw [hleast, WithTop.untopD_coe]
    exact Finset.mem_filter.1 (Finset.mem_of_min hleast)
  · obtain ⟨key, hkey, hreads⟩ := h.resolve_left hmet
    have hsome : (added.find? fun key => decide (u.Reads ℓ key)).isSome := by
      rw [List.find?_isSome]
      exact ⟨key, hkey, by simpa using hreads⟩
    obtain ⟨first, hfirst⟩ := Option.isSome_iff_exists.1 hsome
    rw [hfirst, Option.getD_some]
    exact ⟨hadded first (List.mem_of_find?_eq_some hfirst), by simpa using List.find?_some hfirst⟩

/-! ### Several turns -/

theorem subset_next (u : Corpus) (added : List String) (search : Option Search) :
    added ⊆ u.next added search := by
  unfold Corpus.next
  split
  · exact List.Subset.refl added
  · split
    · exact List.subset_append_left _ _
    · exact List.Subset.refl added

theorem addsFrom_append (u : Corpus) (added : List String) (before after : List (Option Search)) :
    u.addsFrom added (before ++ after) = u.addsFrom (u.addsFrom added before) after :=
  List.foldl_append

theorem addsFrom_concat (u : Corpus) (added : List String) (before : List (Option Search))
    (search : Option Search) :
    u.addsFrom added (before ++ [search]) = u.next (u.addsFrom added before) search :=
  List.foldl_concat ..

theorem subset_addsFrom (u : Corpus) (added : List String) (searches : List (Option Search)) :
    added ⊆ u.addsFrom added searches := by
  induction searches using List.reverseRecOn with
  | nil => exact List.Subset.refl added
  | append_singleton searches search ih =>
    rw [addsFrom_concat]
    exact List.Subset.trans ih (u.subset_next _ search)

/-- What has been added in the end had been added at first or is the goal of a turn. -/
theorem mem_addsFrom (h : key ∈ u.addsFrom added searches) : key ∈ added ∨
    ∃ before s after, searches = before ++ some s :: after ∧ u.Open ⟨u.addsFrom added before, s⟩ ∧
      s.goal = key := by
  induction searches using List.reverseRecOn with
  | nil => exact .inl h
  | append_singleton searches search ih =>
    have hold : key ∈ u.addsFrom added searches → key ∈ added ∨ ∃ before s after,
        searches ++ [search] = before ++ some s :: after ∧
          u.Open ⟨u.addsFrom added before, s⟩ ∧ s.goal = key := by
      intro h
      rcases ih h with h | ⟨before, s, after, rfl, hopen, hgoal⟩
      · exact .inl h
      · exact .inr ⟨before, s, after ++ [search], by simp, hopen, hgoal⟩
    rw [addsFrom_concat] at h
    unfold Corpus.next at h
    split at h
    · exact hold h
    · next s =>
      split at h
      · next hopen =>
        rcases List.mem_append.1 h with h | hgoal
        · exact hold h
        · exact .inr ⟨searches, s, [], rfl, hopen, (List.mem_singleton.1 hgoal).symm⟩
      · exact hold h

theorem mem_turnsFrom : some t ∈ u.turnsFrom added searches ↔ ∃ before s after,
    searches = before ++ some s :: after ∧ t = ⟨u.addsFrom added before, s⟩ := by
  induction searches generalizing added with
  | nil => simp [turnsFrom]
  | cons search searches ih =>
    rw [turnsFrom, List.mem_cons, ih]
    constructor
    · rintro (heq | ⟨before, s, after, rfl, rfl⟩)
      · obtain ⟨s, rfl, rfl⟩ := Option.map_eq_some_iff.1 heq.symm
        exact ⟨[], s, searches, rfl, rfl⟩
      · exact ⟨search :: before, s, after, rfl, rfl⟩
    · rintro ⟨before, s, after, heq, rfl⟩
      cases before with
      | nil =>
        obtain ⟨rfl, rfl⟩ := List.cons.inj heq
        exact .inl rfl
      | cons first before =>
        obtain ⟨rfl, rfl⟩ := List.cons.inj heq
        exact .inr ⟨before, s, after, rfl, rfl⟩

theorem answers_cons (u : Corpus) (before : List (Option Search)) (search : Option Search)
    (searches : List (Option Search)) : u.answers before (search :: searches) =
      (search.map fun s => u.meaning ⟨u.addsFrom [] before, s⟩) ::
        u.answers (before ++ [search]) searches := by
  rw [answers, turnsFrom, List.map_cons, Option.map_map, ← addsFrom_concat]
  rfl

/-! ### The turns of a compound -/

theorem mem_turns : t ∈ u.turns c ↔ t = ⟨[], c.parentSearch⟩ ∨ ∃ before s after,
    u.searches c = before ++ some s :: after ∧ t = ⟨u.addsFrom [] before, s⟩ := by
  simp only [turns, List.mem_cons, List.mem_filterMap, id_eq, exists_eq_right, mem_turnsFrom]

theorem parentTurn_mem : ⟨[], c.parentSearch⟩ ∈ u.turns c :=
  mem_turns.2 (.inl rfl)

/-- What has been added before a turn is added by its compound. -/
theorem added_subset_adds (ht : t ∈ u.turns c) : t.added ⊆ u.adds c := by
  rcases mem_turns.1 ht with rfl | ⟨before, s, after, heq, rfl⟩
  · exact List.nil_subset _
  · rw [adds, heq, addsFrom_append]
    exact u.subset_addsFrom _ _

/-- What a compound adds is the goal of one of its turns that find nothing. -/
theorem mem_adds : key ∈ u.adds c ↔ ∃ t ∈ u.turns c, u.Open t ∧ t.search.goal = key := by
  constructor
  · intro h
    rcases mem_addsFrom h with h | ⟨before, s, after, heq, hopen, hgoal⟩
    · simp at h
    · exact ⟨_, mem_turns.2 (.inr ⟨before, s, after, heq, rfl⟩), hopen, hgoal⟩
  · rintro ⟨t, ht, hopen, rfl⟩
    rcases mem_turns.1 ht with rfl | ⟨before, s, after, heq, rfl⟩
    · exact absurd hopen (not_open_of_mem_empty (by simp [Compound.parentSearch]))
    · rw [adds, heq, List.append_cons, addsFrom_append, addsFrom_concat]
      refine u.subset_addsFrom _ _ ?_
      simp [Corpus.next, hopen]

/-- The last lookup of a reference is for the name of its type, unless the reference is blank. -/
theorem referSearch_cases (u : Corpus) (reference : String) :
    Text.trimmed reference = "" ∧ u.referSearch reference = [⟨"", false⟩] ∨
      Text.trimmed reference ≠ "" ∧ ∃ before, u.referSearch reference =
        before ++ [⟨u.blank.keyOf (Text.trimmed reference), true⟩] := by
  unfold referSearch
  dsimp only
  split
  · next h => exact .inl ⟨h, rfl⟩
  · next h =>
    refine .inr ⟨h, ?_⟩
    split
    · next heq => exact ⟨[], by rw [heq, List.nil_append]⟩
    · exact ⟨[_], rfl⟩

/-- Each search ends with a search outside of any scope. -/
theorem exists_referSearch (h : some s ∈ u.searches c) :
    ∃ before reference, s = before ++ u.referSearch reference := by
  have hname : ∀ {name}, u.nameSearch? c name = some s →
      ∃ before reference, s = before ++ u.referSearch reference := by
    intro name heq
    unfold nameSearch? at heq
    split at heq
    · simp at heq
    · exact ⟨_, name, (Option.some.inj heq).symm⟩
  simp only [searches, List.mem_append] at h
  rcases h with ((h | h) | h) | h
  · obtain ⟨raw, -, heq⟩ := List.mem_map.1 h
    exact hname heq
  · obtain ⟨raw, -, heq⟩ := List.mem_map.1 h
    exact hname heq
  · obtain ⟨child, -, heq⟩ := List.mem_map.1 h
    refine ⟨[], child, ?_⟩
    rw [List.nil_append, Option.some.inj heq]
  · obtain ⟨level, -, heq⟩ := List.mem_map.1 h
    exact hname heq

/-- A turn that finds nothing ends with a lookup of its goal in any letter case. -/
theorem goal_mem_of_open (ht : t ∈ u.turns c) (hopen : u.Open t) :
    ⟨t.search.goal, true⟩ ∈ t.search := by
  rcases mem_turns.1 ht with rfl | ⟨before, s, after, heq, rfl⟩
  · exact absurd hopen (not_open_of_mem_empty (by simp [Compound.parentSearch]))
  · have hs : some s ∈ u.searches c := by simp [heq]
    obtain ⟨inner, reference, rfl⟩ := exists_referSearch hs
    rcases referSearch_cases u reference with ⟨-, heq⟩ | ⟨-, outer, heq⟩
    · exact absurd hopen (not_open_of_mem_empty (by simp [heq]))
    · dsimp only
      rw [heq, ← List.append_assoc, Search.goal_concat]
      simp

theorem not_met_of_mem_openKeys (h : key ∈ u.openKeys) : ¬ u.Met ⟨key, true⟩ := by
  obtain ⟨c, -, hadds⟩ := mem_openKeys.1 h
  obtain ⟨t, ht, hopen, rfl⟩ := mem_adds.1 hadds
  exact fun hmet => hopen _ (goal_mem_of_open ht hopen) (.inl hmet)

theorem not_mem_known_of_mem_openKeys (h : key ∈ u.openKeys) : key ∉ u.known :=
  fun hknown => not_met_of_mem_openKeys h (met_of_mem_known hknown)

end Corpus

end TypeAtlas
