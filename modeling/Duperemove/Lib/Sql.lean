-- SUMMARY: Three-valued logic and the query operators of SQL over lists of rows.
import Mathlib.Data.List.Dedup

/-!
# SQL

A table is a list of rows, and a column that may be NULL is an `Option`. A
condition is true, false or NULL, and a `where` keeps the rows on which it is
true. The lemmas say when a condition is true, which is all a query can see of
it, so that a proof about a query never looks at NULL again.
-/

namespace Sql

-- ---------------------------------------------------------------------------
-- Three-valued logic
-- ---------------------------------------------------------------------------

/-- The value of a condition; `none` is NULL. -/
abbrev Truth := Option Bool

def and : Truth → Truth → Truth
  | some false, _ => some false
  | _, some false => some false
  | some true, some true => some true
  | _, _ => none

def or : Truth → Truth → Truth
  | some true, _ => some true
  | _, some true => some true
  | some false, some false => some false
  | _, _ => none

def not : Truth → Truth
  | some b => some !b
  | none => none

/-- A comparison of two columns, which is NULL when one of them is. -/
def compare {α : Type} (r : α → α → Bool) : Option α → Option α → Truth
  | some a, some b => some (r a b)
  | _, _ => none

def eq {α : Type} [DecidableEq α] (a b : Option α) : Truth :=
  compare (fun a b => decide (a = b)) a b

/-- The bits two numbers have in common, as a condition: every number but zero
    is true. -/
def bitAnd : Option Nat → Option Nat → Truth
  | some a, some b => some (decide (a &&& b ≠ 0))
  | _, _ => none

@[simp] theorem and_eq_true {a b : Truth} : and a b = some true ↔ a = some true ∧ b = some true := by
  rcases a with _ | _ | _ <;> rcases b with _ | _ | _ <;> simp [and]

@[simp] theorem or_eq_true {a b : Truth} : or a b = some true ↔ a = some true ∨ b = some true := by
  rcases a with _ | _ | _ <;> rcases b with _ | _ | _ <;> simp [or]

@[simp] theorem not_eq_true {a : Truth} : not a = some true ↔ a = some false := by
  rcases a with _ | _ | _ <;> simp [not]

@[simp] theorem compare_eq_true {α : Type} {r : α → α → Bool} {a b : Option α} :
    compare r a b = some true ↔ ∃ x y, a = some x ∧ b = some y ∧ r x y = true := by
  cases a <;> cases b <;> simp [compare]

@[simp] theorem eq_eq_true {α : Type} [DecidableEq α] {a b : Option α} :
    eq a b = some true ↔ ∃ x, a = some x ∧ b = some x := by
  cases a <;> cases b <;> simp [eq, compare, eq_comm]

theorem eq_some_eq_true {α : Type} [DecidableEq α] {a b : α} :
    eq (some a) (some b) = some true ↔ a = b := by
  simp [eq, compare]

@[simp] theorem bitAnd_eq_false {a b : Option Nat} :
    bitAnd a b = some false ↔ ∃ x y, a = some x ∧ b = some y ∧ x &&& y = 0 := by
  cases a <;> cases b <;> simp [bitAnd]

-- ---------------------------------------------------------------------------
-- Row values
-- ---------------------------------------------------------------------------

section Rows

variable {α β : Type} [DecidableEq α] [DecidableEq β]

/-- `(a, b) = (c, d)` -/
def rowEq (v w : Option α × Option β) : Truth := and (eq v.1 w.1) (eq v.2 w.2)

/-- `v in (select ...)`: some row is equal to `v`. -/
def isIn (v : Option α × Option β) (rows : List (Option α × Option β)) : Truth :=
  rows.foldr (fun w found => or (rowEq v w) found) (some false)

/-- A row value is in a result when it is there and holds no NULL. -/
theorem isIn_eq_true {v : Option α × Option β} {rows : List (Option α × Option β)} :
    isIn v rows = some true ↔ ∃ x y, v = (some x, some y) ∧ (some x, some y) ∈ rows := by
  induction rows with
  | nil => simp [isIn]
  | cons w rows ih =>
    obtain ⟨a, b⟩ := v
    obtain ⟨c, d⟩ := w
    have hcons : isIn (a, b) ((c, d) :: rows) = or (rowEq (a, b) (c, d)) (isIn (a, b) rows) := rfl
    rw [hcons, or_eq_true, ih, rowEq, and_eq_true, eq_eq_true, eq_eq_true]
    constructor
    · rintro (⟨⟨x, rfl, rfl⟩, ⟨y, rfl, rfl⟩⟩ | ⟨x, y, heq, hmem⟩)
      · exact ⟨x, y, rfl, List.mem_cons_self⟩
      · exact ⟨x, y, heq, List.mem_cons_of_mem _ hmem⟩
    · rintro ⟨x, y, heq, hmem⟩
      cases heq
      rcases List.mem_cons.1 hmem with heq | hmem
      · cases heq
        exact .inl ⟨⟨x, rfl, rfl⟩, ⟨y, rfl, rfl⟩⟩
      · exact .inr ⟨x, y, rfl, hmem⟩

end Rows

-- ---------------------------------------------------------------------------
-- Queries
-- ---------------------------------------------------------------------------

section Queries

variable {ρ σ κ : Type}

/-- `select ... where c`: the rows on which the condition is true. -/
def whereTrue (c : ρ → Truth) (rows : List ρ) : List ρ :=
  rows.filter fun r => decide (c r = some true)

/-- `... join ... on c` -/
def join (c : ρ → σ → Truth) (rows : List ρ) (others : List σ) : List (ρ × σ) :=
  rows.flatMap fun r => (whereTrue (c r) others).map (r, ·)

/-- `group by key having count(*) > n`: one row for each value of the key.
    Grouping takes NULL for a value like any other. -/
def groupByHaving [DecidableEq κ] (key : ρ → κ) (n : Nat) (rows : List ρ) : List κ :=
  (rows.map key).dedup.filter fun k =>
    decide (n < (rows.filter fun r => decide (key r = k)).length)

@[simp] theorem mem_whereTrue {c : ρ → Truth} {rows : List ρ} {r : ρ} :
    r ∈ whereTrue c rows ↔ r ∈ rows ∧ c r = some true := by
  simp [whereTrue]

@[simp] theorem mem_join {c : ρ → σ → Truth} {rows : List ρ} {others : List σ} {p : ρ × σ} :
    p ∈ join c rows others ↔ p.1 ∈ rows ∧ p.2 ∈ others ∧ c p.1 p.2 = some true := by
  obtain ⟨r, o⟩ := p
  simp only [join, List.mem_flatMap, List.mem_map, mem_whereTrue, Prod.mk.injEq]
  constructor
  · rintro ⟨r, hr, o, ⟨ho, hc⟩, rfl, rfl⟩
    exact ⟨hr, ho, hc⟩
  · rintro ⟨hr, ho, hc⟩
    exact ⟨r, hr, o, ⟨ho, hc⟩, rfl, rfl⟩

theorem mem_groupByHaving [DecidableEq κ] {key : ρ → κ} {n : Nat} {rows : List ρ} {k : κ} :
    k ∈ groupByHaving key n rows ↔ n < (rows.filter fun r => decide (key r = k)).length := by
  simp only [groupByHaving, List.mem_filter, List.mem_dedup, decide_eq_true_eq]
  refine ⟨And.right, fun h => ⟨?_, h⟩⟩
  obtain ⟨r, hr⟩ := List.exists_mem_of_length_pos (Nat.lt_of_le_of_lt (Nat.zero_le n) h)
  rw [List.mem_filter, decide_eq_true_eq] at hr
  exact List.mem_map.2 ⟨r, hr.1, hr.2⟩

end Queries

end Sql
