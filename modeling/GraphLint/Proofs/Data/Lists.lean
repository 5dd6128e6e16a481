import Mathlib.Data.List.Forall2

/-!
# Lists of computations, pairs of lists, and lists with names

Going through a list with a computation that may fail succeeds if every step does, and
fails as its first bad element does.  In a list in which no name occurs twice, each element
is found under its name.
-/

set_option autoImplicit false

universe u v w

namespace GraphLint

/-! ## Computations -/

theorem exists_of_bind_eq_ok {ε : Type u} {α β : Type v} {x : Except ε α} {f : α → Except ε β}
    {b : β} (h : (x >>= f) = .ok b) : ∃ a, x = .ok a ∧ f a = .ok b := by
  cases x with
  | error e => cases h
  | ok a => exact ⟨a, rfl, h⟩

section

variable {ε : Type u} {α : Type v} {β : Type w} {f : α → Except ε β}

theorem map_eq_ok_iff {x : Except ε α} {g : α → β} {b : β} :
    x.map g = .ok b ↔ ∃ a, x = .ok a ∧ g a = b := by
  cases x <;> simp [Except.map]

/-- A list goes through if every member does. -/
theorem mapM_eq_ok_iff {as : List α} {bs : List β} :
    as.mapM f = .ok bs ↔ List.Forall₂ (fun a b => f a = .ok b) as bs := by
  induction as generalizing bs with
  | nil =>
      rw [List.mapM_nil, List.forall₂_nil_left_iff]
      exact ⟨fun h => (Except.ok.inj h).symm, fun h => congrArg Except.ok h.symm⟩
  | cons a as ih =>
      rw [List.mapM_cons, List.forall₂_cons_left_iff]
      cases ha : f a with
      | error e =>
          constructor
          · intro h
            cases h
          · rintro ⟨b, _, hb, _⟩
            cases hb
      | ok b =>
          cases has : as.mapM f with
          | error e =>
              constructor
              · intro h
                cases h
              · rintro ⟨_, cs, _, hcs, _⟩
                rw [ih.mpr hcs] at has
                cases has
          | ok cs =>
              constructor
              · intro h
                exact ⟨b, cs, rfl, ih.mp has, (Except.ok.inj h).symm⟩
              · rintro ⟨_, ds, hb, hds, rfl⟩
                rw [ih.mpr hds] at has
                cases has
                cases hb
                rfl

theorem mapM_eq_ok {g : α → β} {as : List α} (h : ∀ a ∈ as, f a = .ok (g a)) :
    as.mapM f = .ok (as.map g) := by
  refine mapM_eq_ok_iff.mpr (List.forall₂_map_right_iff.mpr ?_)
  exact List.forall₂_same.mpr h

theorem mapM_append_eq_ok_iff {as as' : List α} {bs : List β} :
    (as ++ as').mapM f = .ok bs ↔
      ∃ cs ds, as.mapM f = .ok cs ∧ as'.mapM f = .ok ds ∧ cs ++ ds = bs := by
  simp only [mapM_eq_ok_iff]
  constructor
  · intro h
    exact ⟨_, _, (List.forall₂_take_append bs as as' h.flip).flip,
      (List.forall₂_drop_append bs as as' h.flip).flip, List.take_append_drop as.length bs⟩
  · rintro ⟨cs, ds, hcs, hds, rfl⟩
    exact List.rel_append hcs hds

theorem exists_of_mapM_eq_error {as : List α} {e : ε} (h : as.mapM f = .error e) :
    ∃ a ∈ as, f a = .error e := by
  induction as with
  | nil => cases h
  | cons a as ih =>
      rw [List.mapM_cons] at h
      cases ha : f a with
      | error g =>
          rw [ha] at h
          cases h
          exact ⟨a, List.mem_cons_self, ha⟩
      | ok b =>
          rw [ha] at h
          cases has : as.mapM f with
          | error g =>
              rw [has] at h
              cases h
              obtain ⟨c, hc, hfc⟩ := ih has
              exact ⟨c, List.mem_cons_of_mem a hc, hfc⟩
          | ok bs =>
              rw [has] at h
              cases h

theorem exists_mapM_eq_ok {as : List α} (h : ∀ a ∈ as, ∃ b, f a = .ok b) :
    ∃ bs, as.mapM f = .ok bs := by
  cases has : as.mapM f with
  | error e =>
      obtain ⟨a, ha, hfa⟩ := exists_of_mapM_eq_error has
      obtain ⟨b, hb⟩ := h a ha
      rw [hb] at hfa
      cases hfa
  | ok bs => exact ⟨bs, rfl⟩

/-- A list fails as its first bad member does. -/
theorem mapM_eq_error {before : List α} {a : α} {e : ε}
    (hbefore : ∀ x ∈ before, ∃ b, f x = .ok b) (ha : f a = .error e) (behind : List α) :
    (before ++ a :: behind).mapM f = .error e := by
  induction before with
  | nil =>
      rw [List.nil_append, List.mapM_cons, ha]
      rfl
  | cons x before ih =>
      rw [List.forall_mem_cons] at hbefore
      obtain ⟨⟨b, hb⟩, hrest⟩ := hbefore
      rw [List.cons_append, List.mapM_cons, hb, ih hrest]
      rfl

end

/-! ## Pairs of lists -/

theorem exists_left_of_mem {α : Type u} {β : Type v} {R : α → β → Prop} {as : List α} {bs : List β}
    (h : List.Forall₂ R as bs) {b : β} (hb : b ∈ bs) : ∃ a ∈ as, R a b := by
  induction h with
  | nil => cases hb
  | cons hab _ ih =>
      rcases List.mem_cons.mp hb with rfl | hb
      · exact ⟨_, List.mem_cons_self, hab⟩
      · obtain ⟨a, ha, hR⟩ := ih hb
        exact ⟨a, List.mem_cons_of_mem _ ha, hR⟩

theorem exists_right_of_mem {α : Type u} {β : Type v} {R : α → β → Prop} {as : List α}
    {bs : List β} (h : List.Forall₂ R as bs) {a : α} (ha : a ∈ as) : ∃ b ∈ bs, R a b :=
  exists_left_of_mem h.flip ha

theorem forall₂_imp_of_mem {α : Type u} {β : Type v} {R S : α → β → Prop} {as : List α}
    {bs : List β} (h : List.Forall₂ R as bs) (himp : ∀ a ∈ as, ∀ b ∈ bs, R a b → S a b) :
    List.Forall₂ S as bs := by
  obtain ⟨hlength, hzip⟩ := List.forall₂_iff_zip.mp h
  refine List.forall₂_iff_zip.mpr ⟨hlength, fun {a b} hpair => ?_⟩
  obtain ⟨ha, hb⟩ := List.of_mem_zip hpair
  exact himp a ha b hb (hzip hpair)

/-- What a relation says of each member is found member by member. -/
theorem filterMap_eq_of_forall₂ {α : Type u} {β : Type v} {R : α → β → Prop} {f : α → Option β}
    {as : List α} {bs : List β} (h : List.Forall₂ R as bs) (hf : ∀ a b, R a b → f a = some b) :
    as.filterMap f = bs := by
  induction h with
  | nil => rfl
  | cons hab _ ih => rw [List.filterMap_cons_some (hf _ _ hab), ih]

theorem exists_forall₂ {α : Type u} {β : Type v} {R : α → β → Prop} {as : List α}
    (h : ∀ a ∈ as, ∃ b, R a b) : ∃ bs, List.Forall₂ R as bs := by
  induction as with
  | nil => exact ⟨[], .nil⟩
  | cons a as ih =>
      rw [List.forall_mem_cons] at h
      obtain ⟨b, hb⟩ := h.1
      obtain ⟨bs, hbs⟩ := ih h.2
      exact ⟨b :: bs, .cons hb hbs⟩

theorem forall₂_of_map_eq {α : Type u} {β : Type v} {γ : Type w} {f : α → γ} {g : β → γ}
    {as : List α} {bs : List β} (h : as.map f = bs.map g) :
    List.Forall₂ (fun a b => f a = g b) as bs := by
  rw [← List.forall₂_eq_eq_eq] at h
  exact List.forall₂_map_left_iff.mp (List.forall₂_map_right_iff.mp h)

/-- What is in one of the results comes from one of the members. -/
theorem exists_of_mem_flatten {ε : Type u} {α : Type v} {β : Type w} {f : α → Except ε (List β)}
    {as : List α} {bss : List (List β)} (h : as.mapM f = .ok bss) {b : β} (hb : b ∈ bss.flatten) :
    ∃ a ∈ as, ∃ bs, f a = .ok bs ∧ b ∈ bs := by
  obtain ⟨bs, hbs, hmem⟩ := List.mem_flatten.mp hb
  obtain ⟨a, ha, hfa⟩ := exists_left_of_mem (mapM_eq_ok_iff.mp h) hbs
  exact ⟨a, ha, bs, hfa, hmem⟩

/-! ## Names -/

theorem name_of_find? {α : Type u} {β : Type v} [DecidableEq β] {name : α → β} {xs : List α}
    {x : α} {b : β} (h : xs.find? (name · = b) = some x) : name x = b := by
  simpa using List.find?_some h

/-- What stands in a list is found under its name, if no name occurs twice. -/
theorem find?_eq_some_of_nodup {α : Type u} {β : Type v} [DecidableEq β] {name : α → β}
    {xs : List α} (h : (xs.map name).Nodup) {x : α} (hx : x ∈ xs) :
    xs.find? (name · = name x) = some x := by
  induction xs with
  | nil => cases hx
  | cons y xs ih =>
      rw [List.map_cons, List.nodup_cons] at h
      rcases List.mem_cons.mp hx with rfl | hx
      · exact List.find?_cons_of_pos (decide_eq_true rfl)
      · have hne : name y ≠ name x := fun heq => h.1 (heq ▸ List.mem_map_of_mem hx)
        rw [List.find?_cons_of_neg (by simpa using hne)]
        exact ih h.2 hx

end GraphLint
