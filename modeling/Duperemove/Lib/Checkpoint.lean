-- SUMMARY: Deterministic machines seen at their checkpoints: big steps that skip the states in between.
import Mathlib.Logic.Function.Iterate

/-!
# Checkpoints

A machine takes one small step at a time, and only some of its states are of
interest. `Accelerates` says that a big step is what the machine does from one
such state to the next. Then the marked states of a run are those of the run in
big steps, so an invariant or a rank of the big steps speaks about the machine.
-/

namespace Checkpoint

variable {σ α : Type} {step big : σ → σ} {mark Inv : σ → Prop} {obs : σ → Option α}

/-- The machine goes from `s` to `t` in at least one step, and no state on the way
    is marked. -/
def Leaps (step : σ → σ) (mark : σ → Prop) (s t : σ) : Prop :=
  ∃ n, step^[n + 1] s = t ∧ ∀ k < n, ¬ mark (step^[k + 1] s)

theorem Leaps.one {s t : σ} (h : step s = t) : Leaps step mark s t :=
  ⟨0, h, fun _ hk => absurd hk (Nat.not_lt_zero _)⟩

/-- An unmarked state is passed on the way. -/
theorem Leaps.cons {s t : σ} (hs : ¬ mark (step s)) (h : Leaps step mark (step s) t) :
    Leaps step mark s t := by
  obtain ⟨n, hn, hbetween⟩ := h
  refine ⟨n + 1, ?_, ?_⟩
  · rw [Function.iterate_succ_apply]
    exact hn
  · intro k hk
    cases k with
    | zero => exact hs
    | succ k =>
      rw [Function.iterate_succ_apply]
      exact hbetween k (by omega)

/-- What can be seen of the first `n` states of a run. -/
def log (step : σ → σ) (obs : σ → Option α) : Nat → σ → List α
  | 0, _ => []
  | n + 1, s => (obs s).toList ++ log step obs n (step s)

theorem log_add (m n : Nat) (s : σ) :
    log step obs (m + n) s = log step obs m s ++ log step obs n (step^[m] s) := by
  induction m generalizing s with
  | zero => rw [Nat.zero_add, log, List.nil_append, Function.iterate_zero_apply]
  | succ m ih =>
    rw [Nat.succ_add, log, ih, log, List.append_assoc, Function.iterate_succ_apply]

/-- Only marked states are seen, so a leap shows its first state alone. -/
theorem log_of_unmarked (hobs : ∀ s, ¬ mark s → obs s = none) {n : Nat} {s : σ}
    (hbetween : ∀ k < n, ¬ mark (step^[k + 1] s)) : log step obs (n + 1) s = (obs s).toList := by
  have hrest : log step obs n (step s) = [] := by
    induction n generalizing s with
    | zero => rfl
    | succ n ih =>
      have hnext := ih fun k hk => hbetween (k + 1) (by omega)
      have hfirst : obs (step s) = none := hobs _ (hbetween 0 (by omega))
      rw [log, hnext, hfirst]
      rfl
  rw [log, hrest, List.append_nil]

/-- In the states of an invariant, a big step leads from a marked state to the next
    one. -/
structure Accelerates (step big : σ → σ) (mark Inv : σ → Prop) : Prop where
  inv : ∀ s, Inv s → Inv (step s)
  leaps : ∀ s, Inv s → mark s → Leaps step mark s (big s)
  marked : ∀ s, Inv s → mark s → mark (big s)

namespace Accelerates

variable (h : Accelerates step big mark Inv)

include h

/-- A big step keeps what small steps keep. -/
theorem big_keeps {P : σ → Prop} (hP : ∀ s, P s → P (step s)) {s : σ} (hs : Inv s) (hm : mark s)
    (h0 : P s) : P (big s) := by
  obtain ⟨n, hn, -⟩ := h.leaps s hs hm
  rw [← hn]
  exact Function.Iterate.rec P h0 hP (n + 1)

theorem inv_big {s : σ} (hs : Inv s) (hm : mark s) : Inv (big s) := h.big_keeps h.inv hs hm hs

theorem marked_iterate {s : σ} (hs : Inv s) (hm : mark s) (n : Nat) : mark (big^[n] s) := by
  induction n generalizing s with
  | zero => exact hm
  | succ n ih => exact ih (h.inv_big hs hm) (h.marked s hs hm)

/-- The states of a run in big steps belong to the run in small steps, and the two
    runs show the same. -/
theorem exists_step_eq_big (hobs : ∀ s, ¬ mark s → obs s = none) {s : σ} (hs : Inv s)
    (hm : mark s) (n : Nat) :
    ∃ m, step^[m] s = big^[n] s ∧ log step obs m s = log big obs n s := by
  induction n generalizing s with
  | zero => exact ⟨0, rfl, rfl⟩
  | succ n ih =>
    obtain ⟨m, hleap, hbetween⟩ := h.leaps s hs hm
    obtain ⟨k, hk, hlog⟩ := ih (h.inv_big hs hm) (h.marked s hs hm)
    refine ⟨(m + 1) + k, ?_, ?_⟩
    · rw [Nat.add_comm, Function.iterate_add_apply, hleap, hk, Function.iterate_succ_apply]
    · rw [log_add, log_of_unmarked hobs hbetween, hleap, hlog, log]

/-- The marked states of a run in small steps belong to the run in big steps. -/
theorem exists_big_eq_step {s : σ} (hs : Inv s) (hm : mark s) {n : Nat}
    (ht : mark (step^[n] s)) : ∃ m, big^[m] s = step^[n] s := by
  -- The run passes whole leaps, and it cannot end inside one.
  induction n using Nat.strongRecOn generalizing s with
  | ind n ih =>
    cases n with
    | zero => exact ⟨0, rfl⟩
    | succ n =>
      obtain ⟨m, hleap, hbetween⟩ := h.leaps s hs hm
      by_cases hlt : n < m
      · exact absurd ht (hbetween n hlt)
      · obtain ⟨r, rfl⟩ : ∃ r, n = r + m := ⟨n - m, by omega⟩
        have hrest : step^[r + m + 1] s = step^[r] (big s) := by
          rw [← hleap, ← Function.iterate_add_apply]
          rfl
        rw [hrest] at ht ⊢
        obtain ⟨k, hk⟩ := ih r (by omega) (h.inv_big hs hm) (h.marked s hs hm) ht
        exact ⟨k + 1, hk⟩

/-- What a big step keeps in the marked states of a run holds in all of them. -/
theorem invariant {P : σ → Prop} {s : σ} (hs : Inv s) (hm : mark s) (hstart : P s)
    (hP : ∀ n, mark (step^[n] s) → P (step^[n] s) → P (big (step^[n] s))) {n : Nat}
    (ht : mark (step^[n] s)) : P (step^[n] s) := by
  have hbig : ∀ m, P (big^[m] s) := by
    intro m
    induction m with
    | zero => exact hstart
    | succ m ih =>
      obtain ⟨k, hk, -⟩ := h.exists_step_eq_big
        (fun _ _ => rfl : ∀ s, ¬ mark s → (none : Option Unit) = none)
        hs hm m
      rw [Function.iterate_succ_apply', ← hk]
      rw [← hk] at ih
      exact hP k (hk ▸ h.marked_iterate hs hm m) ih
  obtain ⟨m, hrun⟩ := h.exists_big_eq_step hs hm ht
  rw [← hrun]
  exact hbig m

/-- A rank that big steps lower outside the goal brings the machine to the goal. -/
theorem reaches_goal {G : σ → Prop} (rank : σ → Nat) {s : σ} (hs : Inv s) (hm : mark s)
    (hrank : ∀ n, mark (step^[n] s) →
      G (step^[n] s) ∨ rank (big (step^[n] s)) < rank (step^[n] s)) :
    ∃ n, G (big^[n] s) := by
  induction hr : rank s using Nat.strongRecOn generalizing s with
  | ind r ih =>
    rcases hrank 0 hm with hgoal | hlt
    · exact ⟨0, hgoal⟩
    · obtain ⟨k, hk, -⟩ := h.leaps s hs hm
      have hlater : ∀ n, step^[n] (big s) = step^[n + (k + 1)] s := by
        intro n
        rw [Function.iterate_add_apply, hk]
      obtain ⟨n, hn⟩ := ih _ (hr ▸ hlt) (h.inv_big hs hm) (h.marked s hs hm)
        (fun n hn => by rw [hlater] at hn ⊢; exact hrank _ hn) rfl
      exact ⟨n + 1, hn⟩

end Accelerates

end Checkpoint
