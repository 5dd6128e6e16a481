import GraphLint.Files.Collect
import GraphLint.Proofs.Data.Lists

/-!
# Paths in order, each once

Components of paths are in a linear order, and lists of them are ordered like words.  Sorting
keeps paths with the same components in the order in which they came, so of these the first
one stays: what `Collect.inOrder` makes of paths is ascending (`Collect.inOrder_ascending`),
and a path is in it if it is the first of its components (`Collect.mem_inOrder_iff`).  What is
ascending is determined by its members, so these two facts determine it.
-/

set_option autoImplicit false

namespace GraphLint

namespace Path

/-! ## Components -/

section

variable {a b c : String}

theorem componentBefore_iff :
    componentBefore a b = true ↔ rank a < rank b ∨ (rank a = rank b ∧ a < b) := by
  simp [componentBefore]

theorem componentBefore_trans (hab : componentBefore a b = true)
    (hbc : componentBefore b c = true) : componentBefore a c = true := by
  rw [componentBefore_iff] at hab hbc ⊢
  rcases hab with hab | ⟨hab, hlt⟩
  · rcases hbc with hbc | ⟨hbc, -⟩
    · exact .inl (Nat.lt_trans hab hbc)
    · exact .inl (hbc ▸ hab)
  · rcases hbc with hbc | ⟨hbc, hlt'⟩
    · exact .inl (hab ▸ hbc)
    · exact .inr ⟨hab.trans hbc, String.lt_trans hlt hlt'⟩

theorem not_componentBefore (a : String) : ¬componentBefore a a = true := by
  rw [componentBefore_iff]
  rintro (h | ⟨-, h⟩)
  · exact Nat.lt_irrefl _ h
  · exact String.lt_irrefl a h

theorem componentBefore_trichotomy (a b : String) :
    componentBefore a b = true ∨ a = b ∨ componentBefore b a = true := by
  simp only [componentBefore_iff]
  rcases Nat.lt_trichotomy (rank a) (rank b) with h | h | h
  · exact .inl (.inl h)
  · rcases Std.lt_trichotomy a b with hab | hab | hab
    · exact .inl (.inr ⟨h, hab⟩)
    · exact .inr (.inl hab)
    · exact .inr (.inr (.inr ⟨h.symm, hab⟩))
  · exact .inr (.inr (.inl h))

end

/-! ## Lists of components -/

theorem componentsLe_cons {a b : String} {as bs : List String} :
    componentsLe (a :: as) (b :: bs) = true ↔
      componentBefore a b = true ∨ (a = b ∧ componentsLe as bs = true) := by
  simp [componentsLe]

theorem componentsLe_refl (as : List String) : componentsLe as as = true := by
  induction as with
  | nil => rfl
  | cons a as ih => exact componentsLe_cons.mpr (.inr ⟨rfl, ih⟩)

theorem componentsLe_trans (as bs cs : List String) (hab : componentsLe as bs = true)
    (hbc : componentsLe bs cs = true) : componentsLe as cs = true := by
  induction as generalizing bs cs with
  | nil => rfl
  | cons a as ih =>
      cases bs with
      | nil => cases hab
      | cons b bs =>
          cases cs with
          | nil => cases hbc
          | cons c cs =>
              rw [componentsLe_cons] at hab hbc ⊢
              rcases hab with hab | ⟨rfl, hab⟩
              · rcases hbc with hbc | ⟨rfl, -⟩
                · exact .inl (componentBefore_trans hab hbc)
                · exact .inl hab
              · rcases hbc with hbc | ⟨rfl, hbc⟩
                · exact .inl hbc
                · exact .inr ⟨rfl, ih bs cs hab hbc⟩

theorem componentsLe_total (as bs : List String) :
    (componentsLe as bs || componentsLe bs as) = true := by
  rw [Bool.or_eq_true]
  induction as generalizing bs with
  | nil => exact .inl rfl
  | cons a as ih =>
      cases bs with
      | nil => exact .inr rfl
      | cons b bs =>
          simp only [componentsLe_cons]
          rcases componentBefore_trichotomy a b with h | rfl | h
          · exact .inl (.inl h)
          · exact (ih bs).imp (fun h => .inr ⟨rfl, h⟩) (fun h => .inr ⟨rfl, h⟩)
          · exact .inr (.inl h)

theorem componentsLe_antisymm {as bs : List String} (hab : componentsLe as bs = true)
    (hba : componentsLe bs as = true) : as = bs := by
  induction as generalizing bs with
  | nil =>
      cases bs with
      | nil => rfl
      | cons b bs => cases hba
  | cons a as ih =>
      cases bs with
      | nil => cases hab
      | cons b bs =>
          rw [componentsLe_cons] at hab hba
          rcases hab with hab | ⟨rfl, hab⟩
          · rcases hba with hba | ⟨rfl, -⟩
            · exact absurd (componentBefore_trans hab hba) (not_componentBefore a)
            · exact absurd hab (not_componentBefore b)
          · rcases hba with hba | ⟨-, hba⟩
            · exact absurd hba (not_componentBefore a)
            · rw [ih hab hba]

/-- The components come before the other ones and are not the same. -/
def ComponentsLt (as bs : List String) : Prop := componentsLe as bs = true ∧ as ≠ bs

/-- A path comes before another one in the order of paths. -/
def Precedes (a b : String) : Prop := ComponentsLt (components a) (components b)

instance : DecidableRel ComponentsLt := fun as bs =>
  inferInstanceAs (Decidable (componentsLe as bs = true ∧ as ≠ bs))

instance : DecidableRel Precedes := fun a b =>
  inferInstanceAs (Decidable (ComponentsLt (components a) (components b)))

/-- What is ascending is determined by its members. -/
theorem eq_of_ascending {α : Type} (key : α → List String) {xs ys : List α}
    (hxs : xs.Pairwise fun a b => ComponentsLt (key a) (key b))
    (hys : ys.Pairwise fun a b => ComponentsLt (key a) (key b)) (h : ∀ x, x ∈ xs ↔ x ∈ ys) : xs = ys := by
  have hnodup {zs : List α} (hzs : zs.Pairwise fun a b => ComponentsLt (key a) (key b)) : zs.Nodup :=
    hzs.imp fun hlt heq => hlt.2 (congrArg key heq)
  refine List.Perm.eq_of_pairwise (fun a b _ _ hab hba => ?_) hxs hys
    ((List.perm_ext_iff_of_nodup (hnodup hxs) (hnodup hys)).mpr h)
  exact absurd (componentsLe_antisymm hab.1 hba.1) hab.2

end Path

namespace Collect

open GraphLint.Path

/-! ## Sorting -/

/-- Whether a path does not come behind another one. -/
def keyedLe (a b : Keyed) : Bool := componentsLe a.1 b.1

theorem sorted_mergeSort (ks : List Keyed) :
    (ks.mergeSort keyedLe).Pairwise (keyedLe · · = true) :=
  List.pairwise_mergeSort (fun a b c => componentsLe_trans a.1 b.1 c.1)
    (fun a b => componentsLe_total a.1 b.1) ks

/-- Paths with the same components stay in the order in which they come. -/
theorem filter_mergeSort (ks : List Keyed) (k : List String) :
    (ks.mergeSort keyedLe).filter (·.1 = k) = ks.filter (·.1 = k) := by
  have hpairwise : (ks.filter (·.1 = k)).Pairwise (keyedLe · · = true) := by
    refine List.pairwise_of_forall_mem_list fun a ha b hb => ?_
    have ha : a.1 = k := of_decide_eq_true (List.mem_filter.mp ha).2
    have hb : b.1 = k := of_decide_eq_true (List.mem_filter.mp hb).2
    rw [keyedLe, ha, hb]
    exact componentsLe_refl k
  have hsublist : (ks.filter (·.1 = k)).Sublist (ks.mergeSort keyedLe) :=
    List.sublist_mergeSort (fun a b c => componentsLe_trans a.1 b.1 c.1)
      (fun a b => componentsLe_total a.1 b.1) hpairwise List.filter_sublist
  have hfilter := hsublist.filter (·.1 = k)
  rw [List.filter_filter] at hfilter
  simp only [Bool.and_self] at hfilter
  exact (hfilter.eq_of_length ((List.mergeSort_perm ks keyedLe).filter _).length_eq.symm).symm

theorem find?_mergeSort (ks : List Keyed) (k : List String) :
    (ks.mergeSort keyedLe).find? (·.1 = k) = ks.find? (·.1 = k) := by
  rw [← List.head?_filter, filter_mergeSort, List.head?_filter]

/-! ## Leaving out -/

theorem dropRepeated_sublist (ks : List Keyed) : (dropRepeated ks).Sublist ks := by
  induction ks using dropRepeated.induct with
  | case1 => rw [dropRepeated]
  | case2 path => rw [dropRepeated]
  | case3 first second rest h ih =>
      rw [dropRepeated, if_pos h]
      exact ih.trans ((List.sublist_cons_self second rest).cons_cons first)
  | case4 first second rest h ih =>
      rw [dropRepeated, if_neg h]
      exact ih.cons_cons first

/-- Of the paths with the same components the first one stays. -/
theorem find?_dropRepeated (ks : List Keyed) (k : List String) :
    (dropRepeated ks).find? (·.1 = k) = ks.find? (·.1 = k) := by
  induction ks using dropRepeated.induct with
  | case1 => rw [dropRepeated]
  | case2 path => rw [dropRepeated]
  | case3 first second rest h ih =>
      rw [dropRepeated, if_pos h, ih]
      by_cases hk : first.1 = k
      · simp [hk]
      · simp [hk, h ▸ hk]
  | case4 first second rest h ih =>
      rw [dropRepeated, if_neg h]
      by_cases hk : first.1 = k
      · simp [hk]
      · simp only [List.find?_cons, hk, decide_false]
        rw [ih, List.find?_cons]

theorem dropRepeated_ascending {ks : List Keyed} (h : ks.Pairwise (keyedLe · · = true)) :
    (dropRepeated ks).Pairwise (ComponentsLt ·.1 ·.1) := by
  induction ks using dropRepeated.induct with
  | case1 =>
      rw [dropRepeated]
      exact .nil
  | case2 path =>
      rw [dropRepeated]
      exact List.pairwise_singleton _ path
  | case3 first second rest hsame ih =>
      rw [dropRepeated, if_pos hsame]
      exact ih (h.sublist ((List.sublist_cons_self second rest).cons_cons first))
  | case4 first second rest hne ih =>
      rw [dropRepeated, if_neg hne]
      obtain ⟨hfirst, hothers⟩ := List.pairwise_cons.mp h
      refine List.pairwise_cons.mpr ⟨fun k hk => ?_, ih hothers⟩
      have hk := (dropRepeated_sublist _).subset hk
      refine ⟨hfirst k hk, fun heq => hne ?_⟩
      -- the second one is between the first one and what is like the first one
      have hle : componentsLe second.1 first.1 = true := by
        rw [heq]
        rcases List.mem_cons.mp hk with rfl | hk
        · exact componentsLe_refl k.1
        · exact (List.pairwise_cons.mp hothers).1 k hk
      exact componentsLe_antisymm (hfirst second List.mem_cons_self) hle

/-! ## In order -/

/-- A path with its components. -/
def keyed (path : String) : Keyed := (components path, path)

/-- The paths with their components, in order and each once. -/
def keyedInOrder (paths : List String) : List Keyed :=
  dropRepeated ((paths.map keyed).mergeSort keyedLe)

theorem map_keyedInOrder (paths : List String) : (keyedInOrder paths).map (·.2) = inOrder paths := rfl

theorem eq_keyed_of_mem {paths : List String} {k : Keyed} (h : k ∈ keyedInOrder paths) :
    k = keyed k.2 := by
  have hmem := (dropRepeated_sublist _).subset h
  rw [List.mem_mergeSort] at hmem
  obtain ⟨path, -, rfl⟩ := List.mem_map.mp hmem
  rfl

theorem keyedInOrder_ascending (paths : List String) :
    (keyedInOrder paths).Pairwise (ComponentsLt ·.1 ·.1) :=
  dropRepeated_ascending (sorted_mergeSort _)

theorem find?_keyedInOrder (paths : List String) (k : List String) :
    (keyedInOrder paths).find? (·.1 = k) = (paths.find? (components · = k)).map keyed := by
  rw [keyedInOrder, find?_dropRepeated, find?_mergeSort, List.find?_map]
  rfl

theorem inOrder_ascending (paths : List String) : (inOrder paths).Pairwise Precedes := by
  rw [← map_keyedInOrder, List.pairwise_map]
  refine (keyedInOrder_ascending paths).imp_of_mem fun {a b} ha hb hlt => ?_
  rw [eq_keyed_of_mem ha, eq_keyed_of_mem hb] at hlt
  exact hlt

/-- Of the paths with the same components the first one is in the result. -/
theorem mem_inOrder_iff {paths : List String} {path : String} :
    path ∈ inOrder paths ↔ paths.find? (components · = components path) = some path := by
  have hfind := find?_keyedInOrder paths (components path)
  constructor
  · intro h
    obtain ⟨k, hk, rfl⟩ := List.mem_map.mp (map_keyedInOrder paths ▸ h)
    have hnodup : ((keyedInOrder paths).map (·.1)).Nodup :=
      List.pairwise_map.mpr ((keyedInOrder_ascending paths).imp fun hlt => hlt.2)
    have hfound := find?_eq_some_of_nodup hnodup hk
    have hkey : k.1 = components k.2 := congrArg Prod.fst (eq_keyed_of_mem hk)
    rw [hkey, hfind] at hfound
    obtain ⟨path, hpath, heq⟩ := Option.map_eq_some_iff.mp hfound
    obtain rfl : path = k.2 := congrArg Prod.snd heq
    exact hpath
  · intro h
    rw [h] at hfind
    exact List.mem_map.mpr ⟨keyed path, List.mem_of_find?_eq_some hfind, rfl⟩

theorem mem_of_mem_inOrder {paths : List String} {path : String} (h : path ∈ inOrder paths) :
    path ∈ paths :=
  List.mem_of_find?_eq_some (mem_inOrder_iff.mp h)

theorem exists_mem_inOrder {paths : List String} {path : String} (h : path ∈ paths) :
    ∃ first ∈ inOrder paths, components first = components path := by
  cases hfind : paths.find? (components · = components path) with
  | none => exact absurd (decide_eq_true rfl) (List.find?_eq_none.mp hfind path h)
  | some first =>
      have hfirst := name_of_find? hfind
      exact ⟨first, mem_inOrder_iff.mpr (hfirst ▸ hfind), hfirst⟩

theorem mem_inOrder_append {xs ys : List String} {path : String} :
    path ∈ inOrder (xs ++ ys) ↔ path ∈ inOrder xs ∨
      (path ∈ inOrder ys ∧ ∀ other ∈ inOrder xs, components other ≠ components path) := by
  rw [mem_inOrder_iff, mem_inOrder_iff, mem_inOrder_iff, List.find?_append]
  cases hfind : xs.find? (components · = components path) with
  | none =>
      have hnone : ∀ other ∈ inOrder xs, components other ≠ components path := by
        intro other hother heq
        exact List.find?_eq_none.mp hfind other (mem_of_mem_inOrder hother) (decide_eq_true heq)
      rw [Option.none_or]
      constructor
      · exact fun h => .inr ⟨h, hnone⟩
      · rintro (h | ⟨h, -⟩)
        · cases h
        · exact h
  | some first =>
      have hfirst := name_of_find? hfind
      have hmem : first ∈ inOrder xs := mem_inOrder_iff.mpr (hfirst ▸ hfind)
      rw [Option.some_or]
      constructor
      · exact .inl
      · rintro (h | ⟨-, h⟩)
        · exact h
        · exact absurd hfirst (h first hmem)

/-- The result is the one list that is ascending, has the first path of each components and
leaves no components out. -/
theorem inOrder_eq {paths result : List String} (hascending : result.Pairwise Precedes)
    (hfirst : ∀ path ∈ result, paths.find? (components · = components path) = some path)
    (hall : ∀ path ∈ paths, ∃ first ∈ result, components first = components path) :
    inOrder paths = result := by
  refine eq_of_ascending components (inOrder_ascending paths) hascending fun path => ?_
  rw [mem_inOrder_iff]
  constructor
  · intro h
    obtain ⟨first, hmem, hlike⟩ := hall path (List.mem_of_find?_eq_some h)
    have hfound := hfirst first hmem
    rw [hlike, h] at hfound
    exact Option.some.inj hfound ▸ hmem
  · exact hfirst path

theorem inOrder_singleton (path : String) : inOrder [path] = [path] :=
  inOrder_eq (List.pairwise_singleton _ path) (by simp) (by simp)

/-- Paths that have been there before make no difference. -/
theorem inOrder_append_of_subset {xs ys : List String} (h : ∀ path ∈ ys, path ∈ xs)
    (zs : List String) : inOrder (xs ++ (ys ++ zs)) = inOrder (xs ++ zs) := by
  refine eq_of_ascending components (inOrder_ascending _) (inOrder_ascending _) fun path => ?_
  rw [mem_inOrder_iff, mem_inOrder_iff, List.find?_append, List.find?_append, List.find?_append]
  cases hfind : xs.find? (components · = components path) with
  | some first => rw [Option.some_or, Option.some_or]
  | none =>
      have hnone : ys.find? (components · = components path) = none :=
        List.find?_eq_none.mpr fun other hother => List.find?_eq_none.mp hfind other (h other hother)
      rw [hnone, Option.none_or]

/-- Paths with the same members come to the same components. -/
theorem map_components_inOrder {xs ys : List String} (h : ∀ path, path ∈ xs ↔ path ∈ ys) :
    (inOrder xs).map components = (inOrder ys).map components := by
  have hsub {xs ys : List String} (h : ∀ path ∈ xs, path ∈ ys) :
      ∀ k ∈ (inOrder xs).map components, k ∈ (inOrder ys).map components := by
    intro k hk
    obtain ⟨path, hpath, rfl⟩ := List.mem_map.mp hk
    obtain ⟨first, hfirst, heq⟩ := exists_mem_inOrder (h path (mem_of_mem_inOrder hpath))
    exact List.mem_map.mpr ⟨first, hfirst, heq⟩
  refine eq_of_ascending id (List.pairwise_map.mpr (inOrder_ascending xs))
    (List.pairwise_map.mpr (inOrder_ascending ys)) fun k => ?_
  exact ⟨hsub (fun path => (h path).mp) k, hsub (fun path => (h path).mpr) k⟩

end Collect

end GraphLint
