-- SUMMARY: Lists that hold exactly the elements with a property, each once.
import Mathlib.Data.List.Nodup

/-!
# Enumerations

`Enumerates l P` says that the list `l` has the elements with the property `P`, each one
once, in whatever order. A program that keeps its objects in several lists has one
enumeration for each, and linking a new object or unlinking an old one changes all of
them by the same rules.
-/

variable {α : Type} {l l' : List α} {P Q : α → Prop} {a : α}

structure Enumerates (l : List α) (P : α → Prop) : Prop where
  nodup : l.Nodup
  mem_iff : ∀ x, x ∈ l ↔ P x

namespace Enumerates

theorem nil (h : ∀ x, ¬ P x) : Enumerates [] P :=
  ⟨List.nodup_nil, fun x => iff_of_false List.not_mem_nil (h x)⟩

theorem congr (h : Enumerates l P) (hiff : ∀ x, P x ↔ Q x) : Enumerates l Q :=
  ⟨h.nodup, fun x => (h.mem_iff x).trans (hiff x)⟩

theorem perm (h : Enumerates l P) (hperm : l'.Perm l) : Enumerates l' P :=
  ⟨hperm.nodup_iff.2 h.nodup, fun x => hperm.mem_iff.trans (h.mem_iff x)⟩

/-- A new element at the front. -/
theorem cons (h : Enumerates l P) (hnew : ¬ P a) : Enumerates (a :: l) fun x => x = a ∨ P x where
  nodup := List.nodup_cons.2 ⟨fun hmem => hnew ((h.mem_iff a).1 hmem), h.nodup⟩
  mem_iff := fun x => by rw [List.mem_cons, h.mem_iff]

/-- A new element at the end. -/
theorem concat (h : Enumerates l P) (hnew : ¬ P a) :
    Enumerates (l ++ [a]) fun x => x = a ∨ P x :=
  (h.cons hnew).perm (List.perm_append_singleton a l)

/-- An element is unlinked. -/
theorem erase [DecidableEq α] (h : Enumerates l P) (a : α) :
    Enumerates (l.erase a) fun x => P x ∧ x ≠ a where
  nodup := h.nodup.erase a
  mem_iff := fun x => by rw [h.nodup.mem_erase_iff, h.mem_iff, and_comm]

theorem eq_nil_iff (h : Enumerates l P) : l = [] ↔ ∀ x, ¬ P x := by
  rw [List.eq_nil_iff_forall_not_mem]
  exact forall_congr' fun x => not_congr (h.mem_iff x)

end Enumerates
