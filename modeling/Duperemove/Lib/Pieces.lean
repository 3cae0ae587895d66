-- SUMMARY: Lists that are given piece by piece, and when two of them agree piece by piece.
import Mathlib.Data.List.Basic
import Mathlib.Order.Monotone.Basic

/-!
# Pieces

A run that consumes its input in rounds yields a list in pieces, one a round.
Two such lists are equal exactly when their pieces are, provided that an equation
between them can be cut in front of the last piece. Lengths give such a cut, and
so does a key that grows from piece to piece.
-/

namespace Pieces

variable {α : Type}

/-- The first `n` pieces, joined. -/
def upTo (f : Nat → List α) (n : Nat) : List α := ((List.range n).map f).flatten

@[simp] theorem upTo_zero (f : Nat → List α) : upTo f 0 = [] := rfl

theorem upTo_succ (f : Nat → List α) (n : Nat) : upTo f (n + 1) = upTo f n ++ f n := by
  simp [upTo, List.range_succ]

theorem upTo_eq_nil {f : Nat → List α} (h : ∀ k, f k = []) (n : Nat) : upTo f n = [] := by
  simp [upTo, h]

/-- When an equation between two prefixes can always be cut in front of the last
    piece, two lists are equal exactly when all their pieces are. -/
theorem upTo_eq_iff {f g : Nat → List α} {n : Nat}
    (hcut : ∀ k < n, upTo f k ++ f k = upTo g k ++ g k → upTo f k = upTo g k ∧ f k = g k) :
    upTo f n = upTo g n ↔ ∀ k < n, f k = g k := by
  induction n with
  | zero => simp
  | succ n ih =>
    rw [upTo_succ, upTo_succ]
    have ih' := ih fun k hk => hcut k (by omega)
    constructor
    · intro heq k hk
      obtain ⟨hinit, hlast⟩ := hcut n (by omega) heq
      by_cases hkn : k < n
      · exact ih'.1 hinit k hkn
      · have hk' : k = n := by omega
        rw [hk']
        exact hlast
    · intro hall
      rw [ih'.2 fun k hk => hall k (by omega), hall n (by omega)]

/-- An append whose two parts are told apart by a bound on a key is cut at the
    same place on both sides of an equation. -/
theorem append_cut_of_key (key : α → Nat) {m : Nat} {as as' bs bs' : List α}
    (has : ∀ r ∈ as, key r < m) (has' : ∀ r ∈ as', key r < m)
    (hbs : ∀ r ∈ bs, m ≤ key r) (hbs' : ∀ r ∈ bs', m ≤ key r)
    (heq : as ++ bs = as' ++ bs') : as = as' ∧ bs = bs' := by
  have hfilter : ∀ xs ys : List α, (∀ r ∈ xs, key r < m) → (∀ r ∈ ys, m ≤ key r) →
      (xs ++ ys).filter (fun r => key r < m) = xs := by
    intro xs ys hxs hys
    have hkeep : xs.filter (fun r => key r < m) = xs :=
      List.filter_eq_self.2 fun r hr => decide_eq_true (hxs r hr)
    have hdrop : ys.filter (fun r => key r < m) = [] :=
      List.filter_eq_nil_iff.2 fun r hr => by simpa using hys r hr
    rw [List.filter_append, hkeep, hdrop, List.append_nil]
  have hsame : as = as' := by
    rw [← hfilter as bs has hbs, heq, hfilter as' bs' has' hbs']
  subst hsame
  exact ⟨rfl, List.append_cancel_left heq⟩

section Bounds

variable {f g : Nat → List α} (key : α → Nat) {bound : Nat → Nat} {n : Nat}

/-- Keys that lie between the bounds of their piece lie below the bound of the
    whole prefix. -/
theorem key_lt_of_mem_upTo (hmono : Monotone bound)
    (hf : ∀ k < n, ∀ r ∈ f k, key r < bound (k + 1)) : ∀ r ∈ upTo f n, key r < bound n := by
  intro r hr
  simp only [upTo, List.mem_flatten, List.mem_map, List.mem_range] at hr
  obtain ⟨_, ⟨k, hk, rfl⟩, hr⟩ := hr
  exact Nat.lt_of_lt_of_le (hf k hk r hr) (hmono hk)

/-- Two lists whose pieces keep to the same bounds are equal exactly when their
    pieces are. -/
theorem upTo_eq_iff_of_key (hmono : Monotone bound)
    (hf : ∀ k < n, ∀ r ∈ f k, bound k ≤ key r ∧ key r < bound (k + 1))
    (hg : ∀ k < n, ∀ r ∈ g k, bound k ≤ key r ∧ key r < bound (k + 1)) :
    upTo f n = upTo g n ↔ ∀ k < n, f k = g k := by
  apply upTo_eq_iff
  intro k hk heq
  refine append_cut_of_key key (m := bound k) ?_ ?_ ?_ ?_ heq
  · exact key_lt_of_mem_upTo key hmono fun j hj r hr => (hf j (by omega) r hr).2
  · exact key_lt_of_mem_upTo key hmono fun j hj r hr => (hg j (by omega) r hr).2
  · exact fun r hr => (hf k hk r hr).1
  · exact fun r hr => (hg k hk r hr).1

/-- Two lists whose pieces have the same lengths are equal exactly when their
    pieces are. -/
theorem upTo_eq_iff_of_length (hlen : ∀ k < n, (f k).length = (g k).length) :
    upTo f n = upTo g n ↔ ∀ k < n, f k = g k := by
  have hsame : ∀ k ≤ n, (upTo f k).length = (upTo g k).length := by
    intro k hk
    induction k with
    | zero => rfl
    | succ k ih =>
      rw [upTo_succ, upTo_succ, List.length_append, List.length_append, ih (by omega),
        hlen k (by omega)]
  apply upTo_eq_iff
  intro k hk heq
  exact List.append_inj heq (hsame k (by omega))

end Bounds

end Pieces
