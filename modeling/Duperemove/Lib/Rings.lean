-- SUMMARY: Doubly linked rings: what inserting, removing and splicing does to the rings of a memory.
import Mathlib.Data.List.Chain
import Mathlib.Data.List.Nodup

/-!
# Rings

A doubly linked list with a head that is itself a node is a ring. A ring is read as the path
from its head through its elements back to its head, and a path is a list of nodes in which
each one points to the next one, and back.

Every node but the last of a path has one pointer forward, and every node but the first one
has one pointer backward. So an operation that changes the pointers between two neighbours
leaves the path in front of them and the path behind them, also where the head is one of the
neighbours.
-/

namespace Rings

variable {ν : Type}

/-- The pointers of a memory. -/
structure Links (ν : Type) where
  next : ν → Option ν
  prev : ν → Option ν

namespace Links

def Joined (k : Links ν) (p q : ν) : Prop := k.next p = some q ∧ k.prev q = some p

def Path (k : Links ν) (l : List ν) : Prop := l.IsChain k.Joined

/-- The ring of a head and its elements. -/
structure Ring (k : Links ν) (a : ν) (xs : List ν) : Prop where
  path : k.Path (a :: xs ++ [a])
  nodup : (a :: xs).Nodup

variable {k k' : Links ν} {l l₁ l₂ xs : List ν} {a u v : ν}

/-- A path depends on the pointers between its nodes. -/
theorem Path.congr (h : k.Path l) (hnext : ∀ p ∈ l.dropLast, k'.next p = k.next p)
    (hprev : ∀ q ∈ l.tail, k'.prev q = k.prev q) : k'.Path l := by
  induction l with
  | nil => exact List.isChain_nil
  | cons x l ih =>
    cases l with
    | nil => exact List.isChain_singleton x
    | cons y l =>
      obtain ⟨hxy, hrest⟩ := List.isChain_cons_cons.1 h
      rw [List.dropLast_cons_cons] at hnext
      refine List.isChain_cons_cons.2 ⟨⟨?_, ?_⟩, ih hrest ?_ ?_⟩
      · exact (hnext x List.mem_cons_self).trans hxy.1
      · exact (hprev y List.mem_cons_self).trans hxy.2
      · exact fun p hp => hnext p (List.mem_cons_of_mem _ hp)
      · exact fun q hq => hprev q (List.mem_cons_of_mem _ hq)

/-- A path from one node to another, and the stretch between them. -/
theorem path_between_iff {first last b : ν} {front back m : List ν} (hfirst : m = first :: back)
    (hlast : m = front ++ [last]) :
    k.Path (a :: m ++ [b]) ↔ k.Joined a first ∧ k.Path m ∧ k.Joined last b := by
  rw [Path, List.cons_append]
  nth_rewrite 1 [hfirst]
  rw [List.cons_append, List.isChain_cons_cons, ← List.cons_append, ← hfirst]
  refine and_congr_right fun _ => ?_
  nth_rewrite 1 [hlast]
  rw [List.append_assoc, List.singleton_append, List.isChain_append_cons_cons, ← hlast]
  exact and_congr_right fun _ => and_iff_left (List.isChain_singleton b)

/-- The nodes of a path up to the last one are distinct, and those behind the first one. -/
structure Simple (l : List ν) : Prop where
  dropLast : l.dropLast.Nodup
  tail : l.tail.Nodup

theorem tail_append_cons : (l₁ ++ u :: l₂).tail = (l₁ ++ [u]).tail ++ l₂ := by
  cases l₁ <;> simp

theorem dropLast_append_cons (hne : l₂ ≠ []) :
    (l₁ ++ u :: l₂).dropLast = l₁ ++ u :: l₂.dropLast := by
  rw [List.dropLast_append_of_ne_nil (List.cons_ne_nil u l₂), List.dropLast_cons_of_ne_nil hne]

theorem Ring.simple (h : k.Ring a xs) : Simple (a :: xs ++ [a]) := by
  refine ⟨?_, ?_⟩
  · rw [List.dropLast_concat]
    exact h.nodup
  · rw [List.cons_append, List.tail_cons]
    exact (List.perm_append_singleton a xs).nodup_iff.2 h.nodup

/-- The stretch between two nodes of a path is exchanged for another one. -/
theorem Path.replace {m : List ν} (h : k.Path (l₁ ++ u :: m ++ v :: l₂))
    (hs : Simple (l₁ ++ u :: m ++ v :: l₂))
    (hnext : ∀ p ∈ l₁ ++ v :: l₂, p ≠ u → p ∉ m → k'.next p = k.next p)
    (hprev : ∀ q ∈ l₁ ++ u :: l₂, q ≠ v → q ∉ m → k'.prev q = k.prev q)
    (hm : k'.Path (u :: xs ++ [v])) : k'.Path (l₁ ++ u :: xs ++ v :: l₂) := by
  obtain ⟨hdrop, htail⟩ := hs
  rw [List.append_assoc, List.cons_append] at h hdrop htail
  rw [dropLast_append_cons (by simp), List.dropLast_append_of_ne_nil (List.cons_ne_nil v l₂)]
    at hdrop
  rw [tail_append_cons] at htail
  obtain ⟨hpath, hrest⟩ := List.isChain_split.1 h
  have hfront : k'.Path (l₁ ++ [u]) := by
    refine Path.congr hpath (fun p hp => ?_) fun q hq => ?_
    · rw [List.dropLast_concat] at hp
      have hapart := (List.nodup_append'.1 hdrop).2.2 hp
      exact hnext p (List.mem_append_left _ hp) (fun heq => hapart (heq ▸ List.mem_cons_self))
        fun hin => hapart (List.mem_cons_of_mem _ (List.mem_append_left _ hin))
    · have hapart := (List.nodup_append'.1 htail).2.2 hq
      refine hprev q ?_ (fun heq => hapart (heq ▸ List.mem_append_right _ List.mem_cons_self))
        fun hin => hapart (List.mem_append_left _ hin)
      rcases List.mem_append.1 (List.mem_of_mem_tail hq) with hin | hin
      · exact List.mem_append_left _ hin
      · rw [List.mem_singleton.1 hin]
        exact List.mem_append_right _ List.mem_cons_self
  have hback : k'.Path (v :: l₂) := by
    rw [← List.cons_append] at hrest
    refine Path.congr (List.isChain_append.1 hrest).2.1 (fun p hp => ?_) fun q hq => ?_
    · have hapart := (List.nodup_append'.1 hdrop).2.1
      rw [List.nodup_cons, List.nodup_append'] at hapart
      exact hnext p (List.mem_append_right _ ((List.dropLast_sublist _).subset hp))
        (fun heq => hapart.1 (heq ▸ List.mem_append_right _ hp)) fun hin => hapart.2.2.2 hin hp
    · have hapart := (List.nodup_append'.1 ((List.nodup_append'.1 htail).2.1))
      exact hprev q (List.mem_append_right _ (List.mem_cons_of_mem _ hq))
        (fun heq => (List.nodup_cons.1 hapart.2.1).1 (heq ▸ hq))
        fun hin => hapart.2.2 hin (List.mem_cons_of_mem _ hq)
  have hleft : k'.Path (l₁ ++ u :: (xs ++ [v])) := List.isChain_split.2 ⟨hfront, hm⟩
  have hsplit : l₁ ++ u :: xs ++ v :: l₂ = (l₁ ++ u :: xs) ++ v :: l₂ := rfl
  rw [hsplit]
  refine List.isChain_split.2 ⟨?_, hback⟩
  rwa [List.append_assoc, List.cons_append]

/-- A ring is left alone by what does not change its pointers. -/
theorem Ring.congr (h : k.Ring a xs) (hnext : ∀ p ∈ a :: xs, k'.next p = k.next p)
    (hprev : ∀ q ∈ a :: xs, k'.prev q = k.prev q) : k'.Ring a xs := by
  refine ⟨h.path.congr (fun p hp => ?_) fun q hq => ?_, h.nodup⟩
  · rw [List.dropLast_concat] at hp
    exact hnext p hp
  · rw [List.cons_append, List.tail_cons] at hq
    exact hprev q ((List.perm_append_singleton a xs).mem_iff.1 hq)

/-- The elements between two neighbours of others are exchanged for other elements. -/
theorem Ring.replace {m ys : List ν} (h : k.Ring a (xs ++ m ++ ys)) (hu : a :: xs = l₁ ++ [u])
    (hv : ys ++ [a] = v :: l₂)
    (hnext : ∀ p ∈ a :: (xs ++ ys), p ≠ u → k'.next p = k.next p)
    (hprev : ∀ q ∈ a :: (xs ++ ys), q ≠ v → k'.prev q = k.prev q) {m' : List ν}
    (hm : k'.Path (u :: m' ++ [v])) (hnodup : (a :: (xs ++ m' ++ ys)).Nodup) :
    k'.Ring a (xs ++ m' ++ ys) := by
  have hsplit : ∀ m, a :: (xs ++ m ++ ys) ++ [a] = l₁ ++ u :: m ++ v :: l₂ := fun m => by
    rw [List.cons_append, List.append_assoc, hv, List.append_assoc, ← List.cons_append, hu]
    simp
  have hmem : ∀ p ∈ l₁ ++ [u] ++ v :: l₂, p ∈ a :: (xs ++ ys) := fun p hp => by
    rw [← hu, ← hv] at hp
    simp only [List.mem_append, List.mem_cons, List.not_mem_nil, or_false] at hp ⊢
    grind
  have hpath := h.path
  have hsimple := h.simple
  rw [hsplit m] at hpath hsimple
  refine ⟨?_, hnodup⟩
  rw [hsplit m']
  refine hpath.replace hsimple (fun p hp hne _ => hnext p (hmem p ?_) hne)
    (fun q hq hne _ => hprev q (hmem q ?_) hne) hm
  · simp only [List.mem_append] at hp ⊢
    grind
  · simp only [List.mem_append, List.mem_cons] at hq ⊢
    grind

end Links

end Rings
