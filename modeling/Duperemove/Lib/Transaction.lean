-- SUMMARY: Connections to a store with transactions: statements that may fail, commits and rollbacks.
import Mathlib.Logic.Basic

/-!
# Transactions

A connection sees the durable state of a store, or the view of the transaction
it has open. Statements change the view, or the durable state when no
transaction is open. Every call may fail, which an oracle decides that is asked
with the number of the call. A call that fails leaves the open transaction as it
is, or the store has rolled it back by itself: the caller is not told which. The
rules: what all statements preserve holds of everything the connection sees,
what they preserve of the state they started from holds between the view and the
durable state, and an open transaction does not touch the durable state.
-/

namespace Transaction

structure Conn (σ : Type) where
  durable : σ
  view : Option σ
  calls : Nat
  deriving DecidableEq, Repr

/-- How the store answers a call: it carries it out, it fails, or it fails and
    rolls the open transaction back. -/
inductive Answer where
  | done
  | failed
  | rolledBack
  deriving DecidableEq, Repr

variable {σ τ : Type}

namespace Conn

/-- One more call was made. -/
def count (c : Conn σ) : Conn σ := { c with calls := c.calls + 1 }

/-- What a statement on this connection reads. -/
def sees (c : Conn σ) : σ := c.view.getD c.durable

/-- Replace what a statement reads. -/
def write (c : Conn σ) (t : σ) : Conn σ :=
  match c.view with
  | none => { c with durable := t }
  | some _ => { c with view := some t }

end Conn

/-- A call that the store may fail. -/
def call (faults : Nat → Answer) (run : Conn σ → Bool × Conn σ) (c : Conn σ) : Bool × Conn σ :=
  match faults c.calls with
  | .done => run c.count
  | .failed => (false, c.count)
  | .rolledBack => (false, { c.count with view := none })

/-- `begin transaction`, which fails inside a transaction. -/
def begin (faults : Nat → Answer) : Conn σ → Bool × Conn σ :=
  call faults fun c =>
    match c.view with
    | some _ => (false, c)
    | none => (true, { c with view := some c.durable })

/-- One statement; `none` is a violated constraint, which undoes the statement alone. -/
def exec (faults : Nat → Answer) (stmt : σ → Option σ) : Conn σ → Bool × Conn σ :=
  call faults fun c =>
    match stmt c.sees with
    | none => (false, c)
    | some t => (true, c.write t)

/-- Statements up to the first one that fails. -/
def execAll (faults : Nat → Answer) : List (σ → Option σ) → Conn σ → Bool × Conn σ
  | [], c => (true, c)
  | stmt :: stmts, c =>
    match exec faults stmt c with
    | (false, c) => (false, c)
    | (true, c) => execAll faults stmts c

/-- `commit transaction`, which fails outside a transaction. -/
def commit (faults : Nat → Answer) : Conn σ → Bool × Conn σ :=
  call faults fun c =>
    match c.view with
    | none => (false, c)
    | some t => (true, { c with durable := t, view := none })

/-- `rollback transaction`, which fails outside a transaction. -/
def rollback (faults : Nat → Answer) : Conn σ → Bool × Conn σ :=
  call faults fun c =>
    match c.view with
    | none => (false, c)
    | some _ => (true, { c with view := none })

-- ---------------------------------------------------------------------------
-- One call
-- ---------------------------------------------------------------------------

section Call

variable {faults : Nat → Answer} {run : Conn σ → Bool × Conn σ} {c : Conn σ}

/-- A call fails and leaves the durable state alone, or it is carried out. -/
theorem call_cases (faults : Nat → Answer) (run : Conn σ → Bool × Conn σ) (c : Conn σ) :
    (faults c.calls ≠ .done ∧ (call faults run c).1 = false ∧
      (call faults run c).2 = { c.count with
        view := if faults c.calls = .failed then c.view else none }) ∨
    (faults c.calls = .done ∧ call faults run c = run c.count) := by
  unfold call
  cases faults c.calls with
  | done => exact .inr ⟨rfl, rfl⟩
  | failed => exact .inl ⟨by simp, rfl, rfl⟩
  | rolledBack => exact .inl ⟨by simp, rfl, rfl⟩

theorem call_calls (hrun : ∀ c, (run c).2.calls = c.calls) :
    (call faults run c).2.calls = c.calls + 1 := by
  rcases call_cases faults run c with ⟨-, -, heq⟩ | ⟨-, heq⟩
  · rw [heq]
    rfl
  · rw [heq]
    exact hrun c.count

/-- What failing and carrying out both keep, a call keeps. -/
theorem call_keeps {P : Conn σ → Prop} (hfail : ∀ view, view = c.view ∨ view = none →
      P { c.count with view := view })
    (hrun : P (run c.count).2) : P (call faults run c).2 := by
  rcases call_cases faults run c with ⟨-, -, heq⟩ | ⟨-, heq⟩
  · rw [heq]
    apply hfail
    split
    · exact .inl rfl
    · exact .inr rfl
  · rw [heq]
    exact hrun

end Call

theorem exec_calls (faults : Nat → Answer) (stmt : σ → Option σ) (c : Conn σ) :
    (exec faults stmt c).2.calls = c.calls + 1 := by
  refine call_calls fun c => ?_
  split
  · rfl
  · unfold Conn.write
    split <;> rfl

theorem begin_calls (faults : Nat → Answer) (c : Conn σ) :
    (begin faults c).2.calls = c.calls + 1 := by
  refine call_calls fun c => ?_
  split <;> rfl

-- ---------------------------------------------------------------------------
-- What all statements preserve
-- ---------------------------------------------------------------------------

/-- The durable state and the view both satisfy `P`. -/
structure Conn.All (P : σ → Prop) (c : Conn σ) : Prop where
  durable : P c.durable
  view : ∀ t, c.view = some t → P t

section All

variable {P : σ → Prop} {faults : Nat → Answer} {c : Conn σ}

theorem Conn.All.count (h : c.All P) : c.count.All P := ⟨h.durable, h.view⟩

theorem Conn.All.sees (h : c.All P) : P c.sees := by
  unfold Conn.sees
  cases hv : c.view with
  | none => exact h.durable
  | some t => exact h.view t hv

theorem all_call {run : Conn σ → Bool × Conn σ} (hrun : (run c.count).2.All P) (h : c.All P) :
    (call faults run c).2.All P := by
  refine call_keeps (fun view hview => ⟨h.durable, ?_⟩) hrun
  rcases hview with rfl | rfl
  · exact h.view
  · rintro _ ⟨⟩

theorem all_begin (faults : Nat → Answer) (h : c.All P) : (begin faults c).2.All P := by
  refine all_call ?_ h
  split
  · exact h.count
  · refine ⟨h.durable, ?_⟩
    rintro t ⟨⟩
    exact h.durable

theorem all_exec {stmt : σ → Option σ} (hstmt : ∀ t t', P t → stmt t = some t' → P t')
    (h : c.All P) : (exec faults stmt c).2.All P := by
  refine all_call ?_ h
  split
  · exact h.count
  · rename_i t ht
    have hP := hstmt _ t h.sees ht
    unfold Conn.write
    split
    · exact ⟨hP, h.count.view⟩
    · refine ⟨h.durable, ?_⟩
      rintro _ ⟨⟩
      exact hP

theorem all_commit (h : c.All P) : (commit faults c).2.All P := by
  refine all_call ?_ h
  split
  · exact h.count
  · rename_i t ht
    refine ⟨h.view t ht, ?_⟩
    rintro _ ⟨⟩

theorem all_rollback (h : c.All P) : (rollback faults c).2.All P := by
  refine all_call ?_ h
  split
  · exact h.count
  · refine ⟨h.durable, ?_⟩
    rintro _ ⟨⟩

end All

-- ---------------------------------------------------------------------------
-- How the view relates to the durable state
-- ---------------------------------------------------------------------------

/-- The view is related to the durable state that it started from. -/
def Conn.Rel (R : σ → σ → Prop) (c : Conn σ) : Prop := ∀ t, c.view = some t → R c.durable t

section Rel

variable {R : σ → σ → Prop} {faults : Nat → Answer} {c : Conn σ}

theorem rel_call {run : Conn σ → Bool × Conn σ} (hrun : (run c.count).2.Rel R) (h : c.Rel R) :
    (call faults run c).2.Rel R := by
  refine call_keeps (fun view hview => ?_) hrun
  rcases hview with rfl | rfl
  · exact h
  · rintro _ ⟨⟩

theorem rel_begin (faults : Nat → Answer) (hrefl : ∀ t, R t t) (h : c.Rel R) :
    (begin faults c).2.Rel R := by
  refine rel_call ?_ h
  split
  · exact h
  · rintro t ⟨⟩
    exact hrefl _

theorem rel_exec {stmt : σ → Option σ} (hstmt : ∀ d t t', R d t → stmt t = some t' → R d t')
    (h : c.Rel R) : (exec faults stmt c).2.Rel R := by
  refine rel_call ?_ h
  split
  · exact h
  · rename_i t' hstmt'
    unfold Conn.write Conn.count
    split
    · rename_i hview
      intro t ht
      rw [hview] at ht
      cases ht
    · rename_i t hview
      simp only at hview
      have hsees : c.count.sees = t := by
        rw [Conn.sees, Conn.count, hview]
        rfl
      rw [hsees] at hstmt'
      rintro _ ⟨⟩
      exact hstmt _ t t' (h t hview) hstmt'

theorem rel_commit (h : c.Rel R) : (commit faults c).2.Rel R := by
  refine rel_call ?_ h
  split
  · exact h
  · rintro t ⟨⟩

theorem rel_rollback (h : c.Rel R) : (rollback faults c).2.Rel R := by
  refine rel_call ?_ h
  split
  · exact h
  · rintro t ⟨⟩

end Rel

-- ---------------------------------------------------------------------------
-- Inside a transaction
-- ---------------------------------------------------------------------------

section Inside

variable {faults : Nat → Answer} {c : Conn σ} {t : σ}

theorem Conn.sees_of_view (hview : c.view = some t) : c.sees = t := by
  rw [Conn.sees, hview]
  rfl

/-- A transaction that is begun sees the durable state. -/
theorem begin_cases (faults : Nat → Answer) (c : Conn σ) :
    ((begin faults c).1 = false ∧ (begin faults c).2.durable = c.durable) ∨
    ((begin faults c).1 = true ∧ (begin faults c).2.durable = c.durable ∧
      (begin faults c).2.view = some c.durable) := by
  unfold begin
  rcases call_cases faults _ c with ⟨-, hfail, heq⟩ | ⟨-, heq⟩
  · rw [heq]
    exact .inl ⟨hfail, rfl⟩
  · rw [heq]
    split
    · exact .inl ⟨rfl, rfl⟩
    · exact .inr ⟨rfl, rfl, rfl⟩

/-- A statement inside a transaction fails, with the transaction left open or rolled
    back, or it changes the view. -/
theorem exec_cases (faults : Nat → Answer) (stmt : σ → Option σ) (hview : c.view = some t) :
    (∃ view, (view = some t ∨ view = none) ∧
      exec faults stmt c = (false, { c.count with view := view })) ∨
    ∃ t', stmt t = some t' ∧ exec faults stmt c = (true, { c.count with view := some t' }) := by
  have hcount : c.count.view = some t := hview
  unfold exec call
  cases faults c.calls with
  | done =>
    dsimp only
    rw [Conn.sees_of_view hcount]
    cases hstmt : stmt t with
    | none => exact .inl ⟨some t, .inl rfl, by simp only [← hview]; rfl⟩
    | some t' =>
      refine .inr ⟨t', rfl, ?_⟩
      simp only [Conn.write, Conn.count, hview]
  | failed => exact .inl ⟨some t, .inl rfl, by simp only [← hview]; rfl⟩
  | rolledBack => exact .inl ⟨none, .inr rfl, rfl⟩

/-- Statements inside a transaction leave the durable state alone, and when they
    all succeed the view is what they make of it. -/
theorem execAll_cases (faults : Nat → Answer) (stmts : List (σ → Option σ))
    (hview : c.view = some t) :
    (execAll faults stmts c).2.durable = c.durable ∧
    ((execAll faults stmts c).1 = true → ∃ t', stmts.foldlM (fun t stmt => stmt t) t = some t' ∧
      (execAll faults stmts c).2.view = some t') := by
  induction stmts generalizing c t with
  | nil => exact ⟨rfl, fun _ => ⟨t, rfl, hview⟩⟩
  | cons stmt stmts ih =>
    unfold execAll
    rcases exec_cases faults stmt hview with ⟨view, -, heq⟩ | ⟨t₁, hstmt, heq⟩
    · rw [heq]
      exact ⟨rfl, fun h => by cases h⟩
    · rw [heq]
      obtain ⟨hdurable, hdone⟩ := ih (c := { c.count with view := some t₁ }) rfl
      refine ⟨hdurable, fun hok => ?_⟩
      obtain ⟨t', hfold, hview'⟩ := hdone hok
      refine ⟨t', ?_, hview'⟩
      rw [List.foldlM_cons, hstmt]
      exact hfold

/-- Without faults, statements that are all possible succeed. -/
theorem execAll_eq_true {stmts : List (σ → Option σ)} {t' : σ} (hview : c.view = some t)
    (hfold : stmts.foldlM (fun t stmt => stmt t) t = some t') :
    (execAll (fun _ => .done) stmts c).1 = true ∧
      (execAll (fun _ => .done) stmts c).2.view = some t' := by
  induction stmts generalizing c t with
  | nil =>
    cases hfold
    exact ⟨rfl, hview⟩
  | cons stmt stmts ih =>
    rw [List.foldlM_cons, Option.bind_eq_bind, Option.bind_eq_some_iff] at hfold
    obtain ⟨t₁, hstmt, hfold⟩ := hfold
    have hexec : exec (fun _ => .done) stmt c = (true, { c.count with view := some t₁ }) := by
      have hcount : c.count.view = some t := hview
      simp only [exec, call, Conn.sees_of_view hcount, hstmt, Conn.write, hcount]
    rw [execAll, hexec]
    exact ih rfl hfold

/-- A property of the state and the rows still to come that each insertion keeps makes
    all insertions possible. -/
theorem foldlM_insert {α : Type} {insert : α → σ → Option σ} (Ready : σ → List α → Prop)
    (hinsert : ∀ t a as, Ready t (a :: as) → ∃ t', insert a t = some t' ∧ Ready t' as)
    (as : List α) (t : σ) (hready : Ready t as) :
    ∃ t', (as.map insert).foldlM (fun t stmt => stmt t) t = some t' ∧ Ready t' [] := by
  induction as generalizing t with
  | nil => exact ⟨t, rfl, hready⟩
  | cons a as ih =>
    obtain ⟨t₁, hstmt, hready₁⟩ := hinsert t a as hready
    obtain ⟨t', hfold, hready'⟩ := ih t₁ hready₁
    refine ⟨t', ?_, hready'⟩
    rw [List.map_cons, List.foldlM_cons, hstmt]
    exact hfold

/-- Statements run on where the first ones ended, unless one of these failed. -/
theorem execAll_append (faults : Nat → Answer) (stmts stmts' : List (σ → Option σ)) (c : Conn σ) :
    execAll faults (stmts ++ stmts') c =
      if (execAll faults stmts c).1 then execAll faults stmts' (execAll faults stmts c).2
      else execAll faults stmts c := by
  induction stmts generalizing c with
  | nil => simp [execAll]
  | cons stmt stmts ih =>
    rw [List.cons_append, execAll, execAll]
    cases exec faults stmt c with
    | mk ok c₁ =>
      cases ok with
      | false => rfl
      | true => exact ih c₁

theorem execAll_singleton (faults : Nat → Answer) (stmt : σ → Option σ) (c : Conn σ) :
    execAll faults [stmt] c = exec faults stmt c := by
  rw [execAll]
  cases exec faults stmt c with
  | mk ok c₁ => cases ok <;> rfl

theorem begin_view (faults : Nat → Answer) (c : Conn σ) (h : (begin faults c).1 = true) :
    (begin faults c).2.view.isSome = true := by
  rcases begin_cases faults c with ⟨hfail, -⟩ | ⟨-, -, hview⟩
  · rw [hfail] at h
    cases h
  · rw [hview]
    rfl

theorem rollback_durable (faults : Nat → Answer) (c : Conn σ) :
    (rollback faults c).2.durable = c.durable := by
  unfold rollback
  refine call_keeps (P := fun c' => c'.durable = c.durable) (fun _ _ => rfl) ?_
  split <;> rfl

/-- A commit makes the view durable or leaves the durable state as it is. -/
theorem commit_cases (faults : Nat → Answer) (hview : c.view = some t) :
    ((commit faults c).1 = false ∧ (commit faults c).2.durable = c.durable) ∨
    ((commit faults c).1 = true ∧ (commit faults c).2.durable = t) := by
  unfold commit
  rcases call_cases faults _ c with ⟨-, hfail, heq⟩ | ⟨-, heq⟩
  · rw [heq]
    exact .inl ⟨hfail, rfl⟩
  · rw [heq]
    simp only [Conn.count, hview]
    exact .inr ⟨trivial, trivial⟩

end Inside

-- ---------------------------------------------------------------------------
-- When a transaction ends
-- ---------------------------------------------------------------------------

/-- One of the calls from `first` up to `last` rolled the transaction back. -/
def RolledBackIn (faults : Nat → Answer) (first last : Nat) : Prop :=
  ∃ n, first ≤ n ∧ n < last ∧ faults n = .rolledBack

/-- The call `last`, a commit or a rollback, leaves nothing open of a transaction whose
    statements are the calls from `first` on. -/
def Ends (faults : Nat → Answer) (first last : Nat) : Prop :=
  faults last ≠ .failed ∨ RolledBackIn faults first last

/-- Between two states of a connection the caller neither began nor ended a
    transaction. -/
structure Conn.Stays (faults : Nat → Answer) (c c' : Conn σ) : Prop where
  calls : c.calls ≤ c'.calls
  view_iff : c'.view = none ↔ c.view = none ∨ RolledBackIn faults c.calls c'.calls

section Ends

variable {faults : Nat → Answer} {c c' c'' : Conn σ}

theorem rolledBackIn_succ (faults : Nat → Answer) (n : Nat) :
    RolledBackIn faults n (n + 1) ↔ faults n = .rolledBack := by
  constructor
  · rintro ⟨k, hle, hlt, hk⟩
    obtain rfl : k = n := Nat.le_antisymm (Nat.le_of_lt_succ hlt) hle
    exact hk
  · exact fun h => ⟨n, Nat.le_refl n, Nat.lt_succ_self n, h⟩

theorem rolledBackIn_split {first mid last : Nat} (hfirst : first ≤ mid) (hlast : mid ≤ last) :
    RolledBackIn faults first last ↔
      RolledBackIn faults first mid ∨ RolledBackIn faults mid last := by
  constructor
  · rintro ⟨n, hle, hlt, hn⟩
    by_cases hmid : n < mid
    · exact .inl ⟨n, hle, hmid, hn⟩
    · exact .inr ⟨n, Nat.le_of_not_lt hmid, hlt, hn⟩
  · rintro (⟨n, hle, hlt, hn⟩ | ⟨n, hle, hlt, hn⟩)
    · exact ⟨n, hle, Nat.lt_of_lt_of_le hlt hlast, hn⟩
    · exact ⟨n, Nat.le_trans hfirst hle, hlt, hn⟩

theorem Conn.Stays.refl (faults : Nat → Answer) (c : Conn σ) : c.Stays faults c where
  calls := Nat.le_refl _
  view_iff := by
    refine ⟨.inl, fun h => h.resolve_right ?_⟩
    rintro ⟨n, hle, hlt, -⟩
    exact Nat.not_lt.2 hle hlt

theorem Conn.Stays.trans (h : c.Stays faults c') (h' : c'.Stays faults c'') :
    c.Stays faults c'' where
  calls := Nat.le_trans h.calls h'.calls
  view_iff := by
    rw [h'.view_iff, h.view_iff, rolledBackIn_split h.calls h'.calls, or_assoc]

theorem exec_stays (faults : Nat → Answer) (stmt : σ → Option σ) (c : Conn σ) :
    c.Stays faults (exec faults stmt c).2 := by
  have hcalls := exec_calls faults stmt c
  refine ⟨hcalls ▸ Nat.le_succ _, ?_⟩
  rw [hcalls, rolledBackIn_succ]
  unfold exec call
  cases faults c.calls with
  | done =>
    dsimp only
    cases stmt c.count.sees with
    | none => simp [Conn.count]
    | some t => cases hview : c.view <;> simp [Conn.write, Conn.count, hview]
  | failed => simp [Conn.count]
  | rolledBack => simp

theorem execAll_stays (faults : Nat → Answer) (stmts : List (σ → Option σ)) (c : Conn σ) :
    c.Stays faults (execAll faults stmts c).2 := by
  induction stmts generalizing c with
  | nil => exact .refl faults c
  | cons stmt stmts ih =>
    have hone := exec_stays faults stmt c
    rw [execAll]
    cases hexec : exec faults stmt c with
    | mk ok c₁ =>
      rw [hexec] at hone
      cases ok with
      | false => exact hone
      | true => exact hone.trans (ih c₁)

/-- A commit leaves a transaction open exactly if one was open and the call failed
    without rolling it back. -/
theorem commit_view_iff (faults : Nat → Answer) (c : Conn σ) :
    (commit faults c).2.view = none ↔ faults c.calls ≠ .failed ∨ c.view = none := by
  unfold commit call
  cases faults c.calls <;> cases hview : c.view <;> simp [Conn.count, hview]

theorem rollback_view_iff (faults : Nat → Answer) (c : Conn σ) :
    (rollback faults c).2.view = none ↔ faults c.calls ≠ .failed ∨ c.view = none := by
  unfold rollback call
  cases faults c.calls <;> cases hview : c.view <;> simp [Conn.count, hview]

/-- What is open behind a commit or a rollback, from where the transaction began. -/
theorem Conn.Stays.ends_iff (h : c.Stays faults c') (hopen : c.view.isSome = true) :
    faults c'.calls ≠ .failed ∨ c'.view = none ↔ Ends faults c.calls c'.calls := by
  have hsome : c.view ≠ none := Option.isSome_iff_ne_none.1 hopen
  rw [h.view_iff, Ends, or_iff_right hsome]

end Ends

-- ---------------------------------------------------------------------------
-- The same calls on another store
-- ---------------------------------------------------------------------------

/-- Replace every state that a connection sees by its image. -/
def Conn.map (g : σ → τ) (c : Conn σ) : Conn τ := ⟨g c.durable, c.view.map g, c.calls⟩

section Map

variable {g : σ → τ} {faults : Nat → Answer} {c : Conn σ}

@[simp] theorem Conn.map_sees : (c.map g).sees = g c.sees := by
  unfold Conn.sees Conn.map
  cases c.view <;> rfl

theorem Conn.map_write (t : σ) : (c.write t).map g = (c.map g).write (g t) := by
  unfold Conn.write Conn.map
  cases c.view <;> rfl

/-- A call whose success commutes with `g` does the same on the image. -/
theorem call_map {run : Conn σ → Bool × Conn σ} {run' : Conn τ → Bool × Conn τ}
    (hrun : ∀ c, run' (c.map g) = ((run c).1, (run c).2.map g)) :
    call faults run' (c.map g) = ((call faults run c).1, (call faults run c).2.map g) := by
  unfold call
  have hcalls : (c.map g).calls = c.calls := rfl
  rw [hcalls]
  cases faults c.calls with
  | done => exact hrun c.count
  | failed => rfl
  | rolledBack => rfl

theorem begin_map : begin faults (c.map g) = ((begin faults c).1, (begin faults c).2.map g) := by
  refine call_map fun c => ?_
  obtain ⟨d, view, n⟩ := c
  cases view <;> rfl

/-- A statement that commutes with `g` does the same on the image. -/
theorem exec_map (faults : Nat → Answer) (stmt : σ → Option σ) (stmt' : τ → Option τ)
    (hstmt : ∀ t, stmt' (g t) = (stmt t).map g) :
    exec faults stmt' (c.map g) = ((exec faults stmt c).1, (exec faults stmt c).2.map g) := by
  refine call_map fun c => ?_
  rw [Conn.map_sees, hstmt]
  cases stmt c.sees with
  | none => rfl
  | some t => simp only [Option.map_some, Conn.map_write]

theorem execAll_map {g : σ → σ} {stmts : List (σ → Option σ)}
    (hstmts : ∀ stmt ∈ stmts, ∀ t, stmt (g t) = (stmt t).map g) :
    execAll faults stmts (c.map g) =
      ((execAll faults stmts c).1, (execAll faults stmts c).2.map g) := by
  induction stmts generalizing c with
  | nil => rfl
  | cons stmt stmts ih =>
    unfold execAll
    rw [exec_map faults stmt stmt (hstmts stmt List.mem_cons_self)]
    cases exec faults stmt c with
    | mk ok c₁ =>
      cases ok with
      | false => rfl
      | true => exact ih fun stmt hstmt => hstmts stmt (List.mem_cons_of_mem _ hstmt)

theorem commit_map :
    commit faults (c.map g) = ((commit faults c).1, (commit faults c).2.map g) := by
  refine call_map fun c => ?_
  obtain ⟨d, view, n⟩ := c
  cases view <;> rfl

theorem rollback_map :
    rollback faults (c.map g) = ((rollback faults c).1, (rollback faults c).2.map g) := by
  refine call_map fun c => ?_
  obtain ⟨d, view, n⟩ := c
  cases view <;> rfl

end Map

end Transaction
