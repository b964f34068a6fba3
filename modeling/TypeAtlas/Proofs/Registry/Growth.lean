import Mathlib.Data.List.Forall2
import TypeAtlas.Proofs.Registry.Interning
import TypeAtlas.Registry.Resolve

/-!
# Growth

While the names of a universe are bound, its registry only grows: names without a slot get one, and
nothing that is there changes. What a binding step returned at some moment is therefore still good
at the end.

## Main definitions

* `Registry.Grows`, `Registry.GrowsBy` — one registry grows to another, and by what slots.
* `Binding.Ran` — what a step returns at some moment between two registries.
* `Binding.Ensures` — a step that makes its registry grow and returns what it should.
* `Binding.Keeps` — a step that keeps a condition on its registry.
-/

namespace TypeAtlas

namespace Registry

variable {r s t : Registry} {id : TypeId} {name : String} {slot : Slot}

/-- One registry grows to another by slots for names that have none. -/
inductive Grows (r : Registry) : Registry → Prop where
  | refl : Grows r r
  /-- A name is referred to. -/
  | refer {s : Registry} (h : Grows r s) (key : String) (hne : key ≠ "")
      (hfresh : s.names[key]? = none) : Grows r (s.push key (s.placeholder key)).2
  /-- A definition has a type parameter. -/
  | parameter {s : Registry} (h : Grows r s) (key : String) (hne : key ≠ "")
      (hfresh : s.names[key]? = none) (owner : TypeId) (position : Nat)
      (howner : ∃ slot, s.slot? owner = some slot ∧ slot.compound?.isSome) :
      Grows r (s.push key (.genericParameter owner position)).2

/-- What a slot holds that only stands for a name. -/
theorem compound?_placeholder (r : Registry) (key fullName : String) :
    (Slot.mk fullName (r.placeholder key)).compound? = none := by
  unfold placeholder
  split <;> rfl

/-- A type parameter of a definition. -/
def IsParameterSlot (r : Registry) (slot : Slot) : Prop :=
  ∃ owner position, slot.origin = .genericParameter owner position ∧
    ∃ ownerSlot, r.slot? owner = some ownerSlot ∧ ownerSlot.compound?.isSome

theorem IsParameterSlot.push {key : String} {origin : SlotOrigin} (h : r.IsParameterSlot slot) :
    (r.push key origin).2.IsParameterSlot slot := by
  obtain ⟨owner, position, horigin, ownerSlot, howner, hc⟩ := h
  exact ⟨owner, position, horigin, ownerSlot, slot?_push_of_some howner, hc⟩

namespace Grows

theorem trans (h : r.Grows s) (h' : s.Grows t) : r.Grows t := by
  induction h' with
  | refl => exact h
  | refer _ key hne hfresh ih => exact ih.refer key hne hfresh
  | parameter _ key hne hfresh owner position howner ih =>
    exact ih.parameter key hne hfresh owner position howner

theorem settings_eq (h : r.Grows s) : s.settings = r.settings := by
  induction h with
  | refl => rfl
  | refer | parameter => simpa

theorem origin_eq (h : r.Grows s) : s.origin = r.origin := by
  induction h with
  | refl => rfl
  | refer | parameter => simpa

theorem parser_eq (h : r.Grows s) : s.parser = r.parser := by
  induction h with
  | refl => rfl
  | refer | parameter => simpa

theorem size_le (h : r.Grows s) : r.size ≤ s.size := by
  induction h with
  | refl => exact Nat.le_refl _
  | refer | parameter =>
    rw [size_push]
    omega

theorem slot? (h : r.Grows s) (hslot : r.slot? id = some slot) : s.slot? id = some slot := by
  induction h with
  | refl => exact hslot
  | refer | parameter => exact slot?_push_of_some ‹_›

theorem names (h : r.Grows s) (hid : r.names[name]? = some id) : s.names[name]? = some id := by
  have hpush : ∀ {s : Registry} {key : String} {origin : SlotOrigin}, s.names[key]? = none →
      s.names[name]? = some id → (s.push key origin).2.names[name]? = some id := by
    intro s key origin hfresh hname
    have hne : key ≠ name := by
      rintro rfl
      simp [hfresh] at hname
    rw [names_push, if_neg hne, hname]
  induction h with
  | refl => exact hid
  | refer _ _ _ hfresh ih => exact hpush hfresh ih
  | parameter _ _ _ hfresh _ _ _ ih => exact hpush hfresh ih

theorem isNamed (h : r.Grows s) (hid : r.IsNamed id) : s.IsNamed id :=
  hid.imp fun _ hname => h.names hname

/-- A name that has a slot is found. -/
theorem lookup? (h : r.Grows s) (hr : r.Interned) (hname : name ≠ "")
    (hid : r.names[name]? = some id) : s.lookup? name = some id := by
  have htrimmed := hr.trimmed id name (hr.fullName?_of_names hid)
  rw [lookup?_of_trimmed hname htrimmed, find?_of_names (h.names hid), Option.some_or]

theorem indexed (h : r.Grows s) (hr : r.Indexed) : s.Indexed := by
  induction h with
  | refl => exact hr
  | refer _ _ hne _ ih => exact ih.push hne
  | parameter _ _ hne _ _ _ _ ih => exact ih.push hne

/-- No definition is added. -/
theorem compound (h : r.Grows s) (hslot : s.slot? id = some slot) (hc : slot.compound?.isSome) :
    r.slot? id = some slot := by
  have hpush : ∀ {s : Registry} {key : String} {origin : SlotOrigin},
      (Slot.mk key origin).compound? = none → (s.push key origin).2.slot? id = some slot →
      s.slot? id = some slot := by
    intro s key origin hleaf hslot
    rw [slot?_push] at hslot
    split at hslot
    · obtain rfl := Option.some.inj hslot
      simp [hleaf] at hc
    · exact hslot
  induction h with
  | refl => exact hslot
  | refer _ key _ _ ih => exact ih (hpush (compound?_placeholder _ key key) hslot)
  | parameter _ key _ _ _ _ _ ih => exact ih (hpush rfl hslot)

/-- Any slot was there before, stands for a name, or is a type parameter of a definition. -/
theorem slot_cases (h : r.Grows s) (hslot : s.slot? id = some slot) :
    r.slot? id = some slot ∨ slot.isPlaceholder = true ∨ s.IsParameterSlot slot := by
  have hpush : ∀ {s : Registry} {key : String} {origin : SlotOrigin},
      (r.slot? id = some slot ∨ slot.isPlaceholder = true ∨ s.IsParameterSlot slot) →
        r.slot? id = some slot ∨ slot.isPlaceholder = true ∨
          (s.push key origin).2.IsParameterSlot slot := by
    rintro s key origin (hold | hplaceholder | hparameter)
    · exact .inl hold
    · exact .inr (.inl hplaceholder)
    · exact .inr (.inr hparameter.push)
  induction h with
  | refl => exact .inl hslot
  | refer _ key _ _ ih =>
    rw [slot?_push] at hslot
    split at hslot
    · obtain rfl := Option.some.inj hslot
      exact .inr (.inl (isPlaceholder_placeholder _ key key))
    · exact hpush (ih hslot)
  | parameter _ key _ _ owner position howner ih =>
    rw [slot?_push] at hslot
    split at hslot
    · obtain rfl := Option.some.inj hslot
      have hparameter : IsParameterSlot _ (Slot.mk key (.genericParameter owner position)) :=
        ⟨owner, position, rfl, howner⟩
      exact .inr (.inr hparameter.push)
    · exact hpush (ih hslot)

/-- The slots that there were stay in front. -/
theorem fullNames_prefix (h : r.Grows s) : r.fullNames <+: s.fullNames := by
  induction h with
  | refl => exact List.prefix_rfl
  | refer _ _ _ _ ih | parameter _ _ _ _ _ _ _ ih =>
    rw [fullNames_push]
    exact ih.trans (List.prefix_append _ _)

/-- What is spelled first stays so. -/
theorem firstSpelling? {folded first : String} (h : r.Grows s) (hr : r.Indexed)
    (hfirst : r.firstSpelling? folded = some first) : s.firstSpelling? folded = some first := by
  obtain ⟨rest, hrest⟩ := h.fullNames_prefix
  rw [Registry.firstSpelling?] at hfirst
  rw [Registry.firstSpelling?, ← hrest, List.tail_append_of_ne_nil hr.fullNames_ne_nil,
    List.find?_append, hfirst, Option.some_or]

/-- Where each slot has its name, each still has it. -/
theorem names_fullName? (h : r.Grows s)
    (hr : ∀ id name, r.fullName? id = some name → r.names[name]? = some id)
    (hid : s.fullName? id = some name) : s.names[name]? = some id := by
  have hpush : ∀ {s : Registry} {key : String} {origin : SlotOrigin}, s.names[key]? = none →
      (∀ id name, s.fullName? id = some name → s.names[name]? = some id) →
      ∀ id name, (s.push key origin).2.fullName? id = some name →
        (s.push key origin).2.names[name]? = some id := by
    intro s key origin hfresh hs id name hid
    rw [fullName?_push] at hid
    rw [names_push]
    split at hid
    · next hnew =>
      obtain rfl := Option.some.inj hid
      rw [if_pos rfl, hnew]
    · have hname := hs id name hid
      have hne : key ≠ name := by
        rintro rfl
        simp [hfresh] at hname
      rw [if_neg hne, hname]
  suffices ∀ id name, s.fullName? id = some name → s.names[name]? = some id from this id name hid
  clear hid
  induction h with
  | refl => exact hr
  | refer _ _ _ hfresh ih => exact hpush hfresh ih
  | parameter _ _ _ hfresh _ _ _ ih => exact hpush hfresh ih

end Grows

/-- One registry grows to another by slots that meet a condition. -/
structure GrowsBy (P : Slot → Prop) (r s : Registry) : Prop where
  grows : r.Grows s
  slot_cases : ∀ id slot, s.slot? id = some slot → r.slot? id = some slot ∨ P slot

namespace GrowsBy

variable {P : Slot → Prop} {key : String} {origin : SlotOrigin}

theorem refl (P : Slot → Prop) (r : Registry) : GrowsBy P r r :=
  ⟨.refl, fun _ _ => .inl⟩

theorem push (h : GrowsBy P r s) (hgrows : s.Grows (s.push key origin).2)
    (hP : P ⟨key, origin⟩) : GrowsBy P r (s.push key origin).2 := by
  refine ⟨h.grows.trans hgrows, ?_⟩
  intro id slot hslot
  rw [slot?_push] at hslot
  split at hslot
  · exact .inr (Option.some.inj hslot ▸ hP)
  · exact h.slot_cases id slot hslot

theorem trans (h : GrowsBy P r s) (h' : GrowsBy P s t) : GrowsBy P r t := by
  refine ⟨h.grows.trans h'.grows, fun id slot hslot => ?_⟩
  exact (h'.slot_cases id slot hslot).elim (h.slot_cases id slot) .inr

theorem mono {Q : Slot → Prop} (h : GrowsBy P r s) (hP : ∀ slot, P slot → Q slot) :
    GrowsBy Q r s :=
  ⟨h.grows, fun id slot hslot => (h.slot_cases id slot hslot).imp_right (hP slot)⟩

end GrowsBy

end Registry

/-! ## Binding steps -/

namespace Binding

variable {α β γ : Type} {base r s t : Registry}

theorem exists_left_of_mem {R : α → β → Prop} {xs : List α} {ys : List β} {y : β}
    (h : List.Forall₂ R xs ys) (hy : y ∈ ys) : ∃ x ∈ xs, R x y := by
  induction h with
  | nil => simp at hy
  | cons hxy _ ih =>
    rcases List.mem_cons.1 hy with rfl | hy
    · exact ⟨_, List.mem_cons_self, hxy⟩
    · obtain ⟨x, hx, hxy⟩ := ih hy
      exact ⟨x, List.mem_cons_of_mem _ hx, hxy⟩

theorem exists_right_of_mem {R : α → β → Prop} {xs : List α} {ys : List β} {x : α}
    (h : List.Forall₂ R xs ys) (hx : x ∈ xs) : ∃ y ∈ ys, R x y :=
  exists_left_of_mem h.flip hx

@[simp] theorem run_step (f : Registry → α × Registry) (r : Registry) :
    StateT.run (m := Id) f r = f r := rfl

@[simp] theorem run_pure (a : α) (r : Registry) : (pure a : Binding α).run r = (a, r) := rfl

@[simp] theorem run_bind (x : Binding α) (f : α → Binding β) (r : Registry) :
    (x >>= f).run r = (f (x.run r).1).run (x.run r).2 := rfl

@[simp] theorem run_get (r : Registry) : (get : Binding Registry).run r = (r, r) := rfl

/-- A step that makes every registry after the first one grow. -/
def Growing (base : Registry) (x : Binding α) : Prop :=
  ∀ r, base.Grows r → r.Grows (x.run r).2

/-- The result of a step that is run at some moment between two registries. -/
def Ran (base s : Registry) (x : Binding α) (a : α) : Prop :=
  ∃ moment, base.Grows moment ∧ (x.run moment).2.Grows s ∧ (x.run moment).1 = a

theorem Ran.mono {x : Binding α} {a : α} (h : Ran base s x a) (hs : s.Grows t) :
    Ran base t x a := by
  obtain ⟨moment, hbase, hmoment, ha⟩ := h
  exact ⟨moment, hbase, hmoment.trans hs, ha⟩

/-- A condition on the result of a step that stays true when the registry grows. -/
def Stable (P : Registry → α → Prop) : Prop :=
  ∀ r s a, r.Grows s → P r a → P s a

/-- A condition on what an outcome is made of. -/
theorem Stable.image {P : Registry → α → Prop} (h : Stable P) (f : α → β) :
    Stable fun s b => ∃ a, P s a ∧ b = f a := by
  rintro r s b hs ⟨a, ha, hb⟩
  exact ⟨a, h r s a hs ha, hb⟩

/-- A condition on each of several results. -/
theorem Stable.forall₂ {P : α → Registry → β → Prop} (h : ∀ a, Stable (P a)) (xs : List α) :
    Stable fun s bs => List.Forall₂ (fun a b => P a s b) xs bs :=
  fun r s _ hs hbs => hbs.imp fun a b hab => h a r s b hs hab

/-- The step makes the registry grow and returns what meets the condition. -/
def Ensures (base : Registry) (x : Binding α) (P : Registry → α → Prop) : Prop :=
  ∀ r, base.Grows r → r.Grows (x.run r).2 ∧ P (x.run r).2 (x.run r).1

theorem stable_moment : Stable (fun s (moment : Registry) => base.Grows moment ∧ moment.Grows s) :=
  fun _ _ _ hs h => ⟨h.1, h.2.trans hs⟩

theorem stable_ran (x : Binding α) : Stable (fun s a => Ran base s x a) :=
  fun _ _ _ hs h => h.mono hs

theorem Growing.ensures {x : Binding α} (h : Growing base x) :
    Ensures base x fun s a => Ran base s x a :=
  fun r hr => ⟨h r hr, r, hr, .refl, rfl⟩

namespace Ensures

theorem weaken {x : Binding α} {P Q : Registry → α → Prop} (h : Ensures base x P)
    (hP : ∀ s a, base.Grows s → P s a → Q s a) : Ensures base x Q := by
  intro r hr
  obtain ⟨hgrows, ha⟩ := h r hr
  exact ⟨hgrows, hP _ _ (hr.trans hgrows) ha⟩

theorem pure {a : α} {P : Registry → α → Prop} (h : ∀ s, base.Grows s → P s a) :
    Ensures base (Pure.pure a) P :=
  fun r hr => ⟨.refl, h r hr⟩

theorem get : Ensures base (MonadState.get : Binding Registry) fun s moment =>
    base.Grows moment ∧ moment.Grows s :=
  fun _ hr => ⟨.refl, hr, .refl⟩

theorem bind {x : Binding α} {f : α → Binding β} {P : Registry → α → Prop}
    {Q : Registry → β → Prop} (hx : Ensures base x P) (hP : Stable P)
    (hf : ∀ a, Ensures base (f a) fun s b => P s a → Q s b) :
    Ensures base (x >>= f) Q := by
  intro r hr
  obtain ⟨hgrows, ha⟩ := hx r hr
  obtain ⟨hgrows', hb⟩ := hf (x.run r).1 (x.run r).2 (hr.trans hgrows)
  rw [run_bind]
  exact ⟨hgrows.trans hgrows', hb (hP _ _ _ hgrows' ha)⟩

/-- The results of a step for each element of a list. -/
theorem mapM {f : α → Binding β} {P : α → Registry → β → Prop} (xs : List α)
    (hf : ∀ a ∈ xs, Ensures base (f a) (P a)) (hP : ∀ a, Stable (P a)) :
    Ensures base (xs.mapM f) fun s bs => List.Forall₂ (fun a b => P a s b) xs bs := by
  induction xs with
  | nil => exact pure fun _ _ => .nil
  | cons x xs ih =>
    rw [List.mapM_cons]
    refine bind (hf x (by simp)) (hP x) ?_
    intro b
    refine bind (ih fun a ha => hf a (by simp [ha])) (.forall₂ hP xs) ?_
    intro bs
    exact pure fun s _ hbs hb => .cons hb hbs

/-- A fold whose step runs a step on the element and then works on its result alone. -/
theorem foldlM {f : α → Binding β} {g : γ → β → γ} {P : α → Registry → β → Prop}
    (hf : ∀ a, Ensures base (f a) (P a)) (hP : ∀ a, Stable (P a)) (xs : List α) (c : γ) :
    Ensures base (xs.foldlM (fun c a => do return g c (← f a)) c) fun s result =>
      ∃ bs, List.Forall₂ (fun a b => P a s b) xs bs ∧ result = bs.foldl g c := by
  induction xs generalizing c with
  | nil => exact pure fun _ _ => ⟨[], .nil, rfl⟩
  | cons x xs ih =>
    rw [List.foldlM_cons, bind_assoc]
    refine bind (hf x) (hP x) ?_
    intro b
    rw [pure_bind]
    refine (ih (g c b)).weaken ?_
    intro s result _ h hb
    obtain ⟨bs, hbs, rfl⟩ := h
    exact ⟨b :: bs, .cons hb hbs, rfl⟩

end Ensures

/-- A step for each element of a list, where what holds of the registry counts the elements that are
done. -/
theorem mapM_done {f : α → Binding β} {I : List α → Registry → Prop} {Q : α → Registry → β → Prop}
    (hQ : ∀ a, Stable (Q a)) (done xs : List α)
    (hf : ∀ before a after, done ++ xs = before ++ a :: after → ∀ r, I before r →
      r.Grows ((f a).run r).2 ∧ I (before ++ [a]) ((f a).run r).2 ∧
        Q a ((f a).run r).2 ((f a).run r).1) (r : Registry) (hr : I done r) :
    r.Grows ((xs.mapM f).run r).2 ∧ I (done ++ xs) ((xs.mapM f).run r).2 ∧
      List.Forall₂ (fun a b => Q a ((xs.mapM f).run r).2 b) xs ((xs.mapM f).run r).1 := by
  induction xs generalizing done r with
  | nil =>
    rw [List.append_nil]
    exact ⟨.refl, hr, .nil⟩
  | cons x xs ih =>
    obtain ⟨hgrows, hdone, hb⟩ := hf done x xs rfl r hr
    obtain ⟨hgrows', hdone', hbs⟩ := ih (done ++ [x])
      (fun before a after hsplit => hf before a after (by simpa using hsplit)) _ hdone
    rw [List.mapM_cons, run_bind, run_bind, run_pure]
    exact ⟨hgrows.trans hgrows', by simpa using hdone', .cons (hQ x _ _ _ hgrows' hb) hbs⟩

/-! ## Invariants of steps -/

/-- A step that keeps a condition on the registry. -/
def Keeps (I : Registry → Prop) (x : Binding α) : Prop :=
  ∀ r, I r → I (x.run r).2

namespace Keeps

variable {I : Registry → Prop}

theorem pure (a : α) : Keeps I (Pure.pure a) :=
  fun _ h => h

theorem bind {x : Binding α} {f : α → Binding β} (hx : Keeps I x) (hf : ∀ a, Keeps I (f a)) :
    Keeps I (x >>= f) := by
  intro r hr
  rw [run_bind]
  exact hf _ _ (hx r hr)

theorem mapM {f : α → Binding β} (xs : List α) (hf : ∀ a ∈ xs, Keeps I (f a)) :
    Keeps I (xs.mapM f) := by
  induction xs with
  | nil => exact pure []
  | cons x xs ih =>
    rw [List.mapM_cons]
    refine (hf x (by simp)).bind fun b => ?_
    exact (ih fun a ha => hf a (by simp [ha])).bind fun bs => pure _

end Keeps

end Binding

end TypeAtlas
