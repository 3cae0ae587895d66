-- SUMMARY: While loops as iterated bodies: fuel-bounded runs and the rules that reason about them.
import Mathlib.Logic.Basic

/-!
# Loops

A `while` loop is a body that either goes round again with a new state or
leaves with a result. `run` iterates the body a bounded number of times, and
`none` means that the bound was too small. `run_total` is the rule that is used
everywhere: an invariant, a measure that each round makes smaller, and a
postcondition of the rounds that leave.
-/

namespace Loop

/-- What one pass through a loop body does: go round again, or leave. -/
inductive Next (σ ρ : Type) where
  | again (s : σ)
  | leave (r : ρ)

variable {σ ρ : Type}

/-- Run the body until it leaves, at most `fuel` times. -/
def run (body : σ → Next σ ρ) : Nat → σ → Option ρ
  | 0, _ => none
  | fuel + 1, s =>
    match body s with
    | .again s' => run body fuel s'
    | .leave r => some r

theorem run_again {body : σ → Next σ ρ} {s s' : σ} (h : body s = .again s') (fuel : Nat) :
    run body (fuel + 1) s = run body fuel s' := by
  simp only [run, h]

theorem run_leave {body : σ → Next σ ρ} {s : σ} {r : ρ} (h : body s = .leave r) (fuel : Nat) :
    run body (fuel + 1) s = some r := by
  simp only [run, h]

/-- The loop leaves with `r` after some number of rounds. -/
def Ends (body : σ → Next σ ρ) (s : σ) (r : ρ) : Prop := ∃ fuel, run body fuel s = some r

theorem Ends.again {body : σ → Next σ ρ} {s s' : σ} {r : ρ} (h : body s = .again s')
    (hrest : Ends body s' r) : Ends body s r := by
  obtain ⟨fuel, hrun⟩ := hrest
  exact ⟨fuel + 1, (run_again h fuel).trans hrun⟩

theorem Ends.leave {body : σ → Next σ ρ} {s : σ} {r : ρ} (h : body s = .leave r) :
    Ends body s r := ⟨1, run_leave h 0⟩

/-- A run that ends within some rounds ends so within more. -/
theorem run_mono {body : σ → Next σ ρ} {fuel fuel' : Nat} (hle : fuel ≤ fuel') {s : σ} {r : ρ}
    (hrun : run body fuel s = some r) : run body fuel' s = some r := by
  induction fuel generalizing fuel' s with
  | zero => cases hrun
  | succ fuel ih =>
    obtain ⟨more, rfl⟩ : ∃ more, fuel' = more + 1 := ⟨fuel' - 1, by omega⟩
    cases hb : body s with
    | leave r' =>
      rw [run_leave hb] at hrun ⊢
      exact hrun
    | again s' =>
      rw [run_again hb] at hrun ⊢
      exact ih (by omega) hrun

/-- Partial correctness of a loop: an invariant that each round keeps gives the
    postcondition of a run that ends. -/
theorem run_partial {body : σ → Next σ ρ} (Inv : σ → Prop) {Post : ρ → Prop}
    (hagain : ∀ s s', Inv s → body s = .again s' → Inv s')
    (hleave : ∀ s r, Inv s → body s = .leave r → Post r)
    (fuel : Nat) (s : σ) (hs : Inv s) {r : ρ} (hrun : run body fuel s = some r) : Post r := by
  induction fuel generalizing s with
  | zero => cases hrun
  | succ fuel ih =>
    cases hb : body s with
    | leave r' =>
      rw [run_leave hb] at hrun
      cases hrun
      exact hleave s r hs hb
    | again s' =>
      rw [run_again hb] at hrun
      exact ih s' (hagain s s' hs hb) hrun

/-- Total correctness of a loop: when each round from a state of the invariant either
    keeps it and makes the measure smaller, or leaves with the postcondition, a run with
    more fuel than the measure ends with the postcondition. -/
theorem run_total {body : σ → Next σ ρ} (Inv : σ → Prop) (measure : σ → Nat) {Post : ρ → Prop}
    (hround : ∀ s, Inv s → (∃ s', body s = .again s' ∧ Inv s' ∧ measure s' < measure s) ∨
      ∃ r, body s = .leave r ∧ Post r)
    (fuel : Nat) (s : σ) (hs : Inv s) (hfuel : measure s < fuel) :
    ∃ r, run body fuel s = some r ∧ Post r := by
  induction fuel generalizing s with
  | zero => omega
  | succ fuel ih =>
    rcases hround s hs with ⟨s', hb, hs', hlt⟩ | ⟨r, hb, hr⟩
    · rw [run_again hb]
      exact ih s' hs' (by omega)
    · exact ⟨r, run_leave hb fuel, hr⟩

end Loop
