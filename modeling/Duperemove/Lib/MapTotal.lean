-- SUMMARY: Sums over the values of an ordered map, and what an insertion or a removal does to them.
import Mathlib.Algebra.BigOperators.Group.List.Basic
import Mathlib.Algebra.GroupWithZero.Nat

/-!
# Totals over ordered maps

The number that every value of a map is given, summed over the map. A counter
that follows such a total is right as long as each operation on the map moves it
by what the operation puts in or takes out.
-/

namespace MapTotal

variable {α β : Type} {cmp : α → α → Ordering} [Std.TransCmp cmp] [Std.LawfulEqCmp cmp]

/-- The sum of `f` over the values of a map. -/
def total (f : β → Nat) (t : Std.TreeMap α β cmp) : Nat := (t.toList.map fun p => f p.2).sum

omit [Std.TransCmp cmp] [Std.LawfulEqCmp cmp] in
@[simp] theorem total_empty (f : β → Nat) : total f (∅ : Std.TreeMap α β cmp) = 0 := rfl

theorem total_congr {f g : β → Nat} {t t' : Std.TreeMap α β cmp}
    (h : ∀ k : α, t[k]?.map f = t'[k]?.map g) : total f t = total g t' := by
  have hequiv : (t.map fun _ => f).Equiv (t'.map fun _ => g) := by
    apply Std.TreeMap.Equiv.of_forall_constGet?_eq
    intro k
    rw [Std.TreeMap.getElem?_map, Std.TreeMap.getElem?_map]
    exact h k
  have hlist := hequiv.toList_eq
  rw [Std.TreeMap.toList_map, Std.TreeMap.toList_map] at hlist
  have hvalues := congrArg (List.map Prod.snd) hlist
  simp only [List.map_map] at hvalues
  exact congrArg List.sum hvalues

/-- A new key adds its value. -/
theorem total_insert {f : β → Nat} {t : Std.TreeMap α β cmp} {k : α} (h : t[k]? = none) (v : β) :
    total f (t.insert k v) = f v + total f t := by
  classical
  have hold : t.toList.filter (fun p => ¬ (k == p.1)) = t.toList := by
    apply List.filter_eq_self.2
    rintro ⟨k', v'⟩ hmem
    have hget := Std.TreeMap.mem_toList_iff_getElem?_eq_some.1 hmem
    have hne : k ≠ k' := by
      rintro rfl
      rw [h] at hget
      cases hget
    simpa using hne
  have hperm := Std.TreeMap.toList_insert_perm (t := t) (k := k) (v := v)
  rw [hold] at hperm
  exact ((hperm.map fun p => f p.2).sum_eq).trans (List.sum_cons ..)

/-- A key that is removed takes its value along. -/
theorem total_erase {f : β → Nat} {t : Std.TreeMap α β cmp} {k : α} {v : β} (h : t[k]? = some v) :
    f v + total f (t.erase k) = total f t := by
  have hgone : (t.erase k)[k]? = none := Std.TreeMap.getElem?_erase_self
  rw [← total_insert hgone]
  apply total_congr
  intro k'
  rw [Std.TreeMap.getElem?_insert]
  split
  · rename_i heq
    rw [← Std.LawfulEqCmp.eq_of_compare heq, h]
  · rename_i hne
    rw [Std.TreeMap.getElem?_erase, if_neg hne]

/-- A value that is replaced is exchanged in the total. -/
theorem total_replace {f : β → Nat} {t : Std.TreeMap α β cmp} {k : α} {v : β} (h : t[k]? = some v)
    (w : β) : total f (t.insert k w) + f v = total f t + f w := by
  have hsame : total f ((t.erase k).insert k w) = total f (t.insert k w) := by
    apply total_congr
    intro k'
    rw [Std.TreeMap.getElem?_insert, Std.TreeMap.getElem?_insert, Std.TreeMap.getElem?_erase]
    split <;> rfl
  have hnew := total_insert (f := f) (Std.TreeMap.getElem?_erase_self (t := t) (k := k)) w
  have hold := total_erase (f := f) h
  omega

omit [Std.TransCmp cmp] [Std.LawfulEqCmp cmp] in
/-- The number of keys is the total of ones. -/
theorem total_one (t : Std.TreeMap α β cmp) : total (fun _ => 1) t = t.size := by
  rw [← Std.TreeMap.length_toList]
  simp [total]

end MapTotal
