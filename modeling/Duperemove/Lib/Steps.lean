-- SUMMARY: Runs of a partial step function over a list of events, the rule that takes an invariant over a run, and sums over a pool.
import Mathlib.Data.List.Basic

/-!
# Runs of steps

A step function takes a state and an event to the next state, or to `none` when
the event cannot happen. A run is the fold of the step function over a list of
events. `run_keeps` is the induction over a run: what each of its events keeps,
the run keeps. Where the state has a pool of threads, most events change one of
them, and `sum_map_set` says what that does to a sum over the pool.
-/

namespace Steps

variable {σ ε : Type} {step : σ → ε → Option σ}

/-- A run that starts with an event is a step and the rest of the run. -/
theorem run_cons {e : ε} {es : List ε} {s s' : σ} :
    (e :: es).foldlM step s = some s' ↔ ∃ s₁, step s e = some s₁ ∧ es.foldlM step s₁ = some s' := by
  rw [List.foldlM_cons]
  exact Option.bind_eq_some_iff

theorem run_keeps (P : σ → Prop) {es : List ε}
    (hstep : ∀ e ∈ es, ∀ s s', P s → step s e = some s' → P s') {s s' : σ} (hs : P s)
    (hrun : es.foldlM step s = some s') : P s' := by
  induction es generalizing s with
  | nil =>
    cases hrun
    exact hs
  | cons e es ih =>
    obtain ⟨s₁, hfirst, hrest⟩ := run_cons.1 hrun
    exact ih (fun e he => hstep e (List.mem_cons_of_mem _ he))
      (hstep e List.mem_cons_self s s₁ hs hfirst) hrest

/-- The sum over a pool when one of its members changes. -/
theorem sum_map_set {α β : Type} [Add β] [Zero β] [@Std.Associative β (· + ·)]
    [@Std.Commutative β (· + ·)] {l : List α} {i : Nat} {a : α} (ha : l[i]? = some a)
    (f : α → β) (b : α) : ((l.set i b).map f).sum + f a = (l.map f).sum + f b := by
  induction l generalizing i with
  | nil => cases ha
  | cons x l ih =>
    cases i with
    | zero =>
      cases ha
      simp only [List.set_cons_zero, List.map_cons, List.sum_cons]
      ac_rfl
    | succ i =>
      have hrest := @ih i (by simpa using ha)
      simp only [List.set_cons_succ, List.map_cons, List.sum_cons]
      rw [@Std.Associative.assoc β (· + ·) _ (f x), hrest]
      ac_rfl

end Steps
