-- SUMMARY: Bottom-up merge sort that keeps its sorted parts in a few slots: it is the stable sort of the standard library.
import Mathlib.Data.List.Perm.Basic

/-!
# Merging parts

A bottom-up merge sort takes the elements one by one, and keeps sorted parts of them in a few
slots. A new element is carried through the slots as in a binary counter, and at the end the
parts are merged from the smallest one on.

Nothing here depends on the sizes of the parts. They hold the elements in order, the earliest in
the highest slot, and a merge prefers the earlier one of two elements that compare equal. So what
comes out is the stable sort of the standard library.
-/

namespace MergeParts

variable {α : Type} {le : α → α → Bool}

-- ---------------------------------------------------------------------------
-- Stable merges
-- ---------------------------------------------------------------------------

/-- The elements compare equal. -/
def eqv (le : α → α → Bool) (a b : α) : Bool := le a b && le b a

/-- A comparison that a sort can rely on. -/
structure Lawful (le : α → α → Bool) : Prop where
  trans : ∀ a b c, le a b = true → le b c = true → le a c = true
  total : ∀ a b, (le a b || le b a) = true

variable {xs ys zs : List α} {a b : α}

theorem Lawful.refl (h : Lawful le) (a : α) : le a a = true := by
  have htotal := h.total a a
  rwa [Bool.or_self] at htotal

/-- A merge keeps the elements that compare equal in order, those of the first list first. -/
theorem filter_merge (h : Lawful le) (hx : xs.Pairwise fun a b => le a b = true)
    (hy : ys.Pairwise fun a b => le a b = true) (a : α) :
    (List.merge xs ys le).filter (eqv le a) = xs.filter (eqv le a) ++ ys.filter (eqv le a) := by
  induction xs generalizing ys with
  | nil => simp
  | cons x xs ihx =>
    induction ys with
    | nil => simp
    | cons y ys ihy =>
      obtain ⟨hxle, hxs⟩ := List.pairwise_cons.1 hx
      obtain ⟨-, hys⟩ := List.pairwise_cons.1 hy
      by_cases hxy : le x y = true
      · rw [List.cons_merge_cons_pos le xs ys hxy]
        by_cases hax : eqv le a x = true
        · rw [List.filter_cons_of_pos hax, ihx hxs hy, List.filter_cons_of_pos hax,
            List.cons_append]
        · rw [List.filter_cons_of_neg hax, ihx hxs hy, List.filter_cons_of_neg hax]
      · rw [List.cons_merge_cons_neg le xs ys hxy]
        by_cases hay : eqv le a y = true
        · rw [List.filter_cons_of_pos hay, ihy hys, List.filter_cons_of_pos hay]
          -- No element of the first list compares equal to one that it does not go before.
          have hnone : (x :: xs).filter (eqv le a) = [] := by
            refine List.filter_eq_nil_iff.2 fun z hz heq => hxy ?_
            have hxz : le x z = true := by
              rcases List.mem_cons.1 hz with rfl | hz
              · exact h.refl z
              · exact hxle z hz
            rw [eqv, Bool.and_eq_true] at heq hay
            exact h.trans x z y hxz (h.trans z a y heq.2 hay.1)
          rw [hnone, List.nil_append, List.nil_append]
        · rw [List.filter_cons_of_neg hay, ihy hys, List.filter_cons_of_neg hay]

/-- Sorted lists that agree on the elements that compare equal are one list. -/
theorem eq_of_filter_eq (h : Lawful le) (hx : xs.Pairwise fun a b => le a b = true)
    (hy : ys.Pairwise fun a b => le a b = true)
    (heq : ∀ a, xs.filter (eqv le a) = ys.filter (eqv le a)) : xs = ys := by
  have hself : ∀ a, eqv le a a = true := fun a => by rw [eqv, h.refl, Bool.and_self]
  have hmem : ∀ a, a ∈ xs ↔ a ∈ ys := fun a => by
    have hiff : a ∈ xs.filter (eqv le a) ↔ a ∈ ys.filter (eqv le a) := by rw [heq a]
    simpa only [List.mem_filter, hself, and_true] using hiff
  induction xs generalizing ys with
  | nil =>
    cases ys with
    | nil => rfl
    | cons y ys => exact absurd ((hmem y).2 List.mem_cons_self) List.not_mem_nil
  | cons x xs ih =>
    cases ys with
    | nil => exact absurd ((hmem x).1 List.mem_cons_self) List.not_mem_nil
    | cons y ys =>
      obtain ⟨hxle, hxs⟩ := List.pairwise_cons.1 hx
      obtain ⟨hyle, hys⟩ := List.pairwise_cons.1 hy
      have hxy : le x y = true := by
        rcases List.mem_cons.1 ((hmem y).2 List.mem_cons_self) with rfl | hin
        · exact h.refl y
        · exact hxle y hin
      have hyx : le y x = true := by
        rcases List.mem_cons.1 ((hmem x).1 List.mem_cons_self) with rfl | hin
        · exact h.refl x
        · exact hyle x hin
      have hboth : eqv le x y = true := by rw [eqv, hxy, hyx, Bool.and_self]
      have hfirst := heq x
      rw [List.filter_cons_of_pos (hself x), List.filter_cons_of_pos hboth] at hfirst
      obtain rfl : x = y := (List.cons.inj hfirst).1
      have hrest : ∀ a, xs.filter (eqv le a) = ys.filter (eqv le a) := fun a => by
        have ha := heq a
        rw [List.filter_cons, List.filter_cons] at ha
        split at ha
        · exact (List.cons.inj ha).2
        · exact ha
      rw [ih hxs hys hrest fun a => ?_]
      have hiff : a ∈ xs.filter (eqv le a) ↔ a ∈ ys.filter (eqv le a) := by rw [hrest a]
      simpa only [List.mem_filter, hself, and_true] using hiff

theorem filter_mergeSort (h : Lawful le) (xs : List α) (a : α) :
    (xs.mergeSort le).filter (eqv le a) = xs.filter (eqv le a) := by
  have hsub : (xs.filter (eqv le a)).Sublist (xs.mergeSort le) := by
    refine List.sublist_mergeSort h.trans h.total ?_ List.filter_sublist
    refine List.pairwise_of_forall_mem_list fun x hx y hy => ?_
    have hxa := (List.mem_filter.1 hx).2
    have hya := (List.mem_filter.1 hy).2
    rw [eqv, Bool.and_eq_true] at hxa hya
    exact h.trans x a y hxa.2 hya.1
  have hfilter := hsub.filter (eqv le a)
  rw [List.filter_filter] at hfilter
  simp only [Bool.and_self] at hfilter
  refine (hfilter.eq_of_length ?_).symm
  exact ((List.mergeSort_perm xs le).filter _).length_eq.symm

/-- The merge of two sorted lists is the sorted list of both. -/
theorem merge_mergeSort (h : Lawful le) (xs ys : List α) :
    List.merge (xs.mergeSort le) (ys.mergeSort le) le = (xs ++ ys).mergeSort le := by
  have hsorted : ∀ xs : List α, (xs.mergeSort le).Pairwise fun a b => le a b = true :=
    List.pairwise_mergeSort h.trans h.total
  refine eq_of_filter_eq h ?_ (hsorted _) fun a => ?_
  · exact List.pairwise_merge h.trans h.total _ _ (hsorted xs) (hsorted ys)
  · rw [filter_merge h (hsorted xs) (hsorted ys), filter_mergeSort h, filter_mergeSort h,
      filter_mergeSort h, List.filter_append]

-- ---------------------------------------------------------------------------
-- Parts
-- ---------------------------------------------------------------------------

/-- The second list has the elements of the first one, sorted if that is possible. -/
structure Sorts (le : α → α → Bool) (xs ys : List α) : Prop where
  perm : ys.Perm xs
  sorted : Lawful le → ys = xs.mergeSort le

theorem Sorts.nil : Sorts le [] [] := ⟨.nil, fun _ => List.mergeSort_nil.symm⟩

theorem Sorts.singleton (a : α) : Sorts le [a] [a] :=
  ⟨.refl _, fun _ => (List.mergeSort_singleton a).symm⟩

theorem Sorts.merge {xs' ys' : List α} (hx : Sorts le xs xs') (hy : Sorts le ys ys') :
    Sorts le (xs ++ ys) (List.merge xs' ys' le) :=
  ⟨(List.merge_perm_append le).trans (hx.perm.append hy.perm), fun h => by
    rw [hx.sorted h, hy.sorted h, merge_mergeSort h]⟩

/-- The slots hold the elements, the earliest in the highest slot. -/
def Holds (le : α → α → Bool) : List (List α) → List α → Prop
  | [], xs => xs = []
  | part :: parts, xs => ∃ early late, xs = early ++ late ∧ Sorts le late part ∧
      Holds le parts early

variable {parts qs : List (List α)} {cur : List α}

theorem Sorts.eq_nil (h : Sorts le xs []) : xs = [] := h.perm.symm.eq_nil

theorem holds_replicate (n : Nat) : Holds le (List.replicate n []) [] := by
  induction n with
  | zero => rfl
  | succ n ih => exact ⟨[], [], rfl, .nil, ih⟩

/-- The elements in slots with nothing behind them. -/
theorem Holds.eq_nil {n : Nat} (h : Holds le (List.replicate n []) xs) : xs = [] := by
  induction n generalizing xs with
  | zero => exact h
  | succ n ih =>
    obtain ⟨early, late, rfl, hpart, hrest⟩ := h
    rw [hpart.eq_nil, List.append_nil]
    exact ih hrest

/-- Sorted elements are put into a slot, and the slots below it are empty. -/
theorem Holds.slot (h : Holds le qs xs) (hcur : Sorts le ys cur) (n : Nat) :
    Holds le (List.replicate n [] ++ cur :: qs) (xs ++ ys) := by
  induction n with
  | zero => exact ⟨xs, ys, rfl, hcur, h⟩
  | succ n ih => exact ⟨xs ++ ys, [], (List.append_nil _).symm, .nil, ih⟩

theorem Holds.append_iff : Holds le (parts ++ qs) xs ↔
    ∃ early late, xs = early ++ late ∧ Holds le parts late ∧ Holds le qs early := by
  induction parts generalizing xs with
  | nil =>
    constructor
    · exact fun h => ⟨xs, [], (List.append_nil xs).symm, rfl, h⟩
    · rintro ⟨early, late, rfl, hlate, hearly⟩
      obtain rfl : late = [] := hlate
      rwa [List.append_nil]
  | cons part parts ih =>
    constructor
    · rintro ⟨front, back, rfl, hpart, hrest⟩
      obtain ⟨early, late, rfl, hlate, hearly⟩ := ih.1 hrest
      exact ⟨early, late ++ back, List.append_assoc .., ⟨late, back, rfl, hpart, hlate⟩, hearly⟩
    · rintro ⟨early, late, rfl, ⟨front, back, rfl, hpart, hrest⟩, hearly⟩
      exact ⟨early ++ front, back, (List.append_assoc ..).symm, hpart,
        ih.2 ⟨early, front, rfl, hrest, hearly⟩⟩

end MergeParts
