-- SUMMARY: Programs that acquire and release shared handles, and the rules that show that they give back what they took.
import Mathlib.Data.List.Basic
import Mathlib.Data.List.Nodup

/-!
# Acquire and release

A program of one thread, as far as its handles go: it acquires a handle, which may
fail, releases one, asks its surroundings for a choice, returns, or aborts. `Safe` is
the weakest precondition: on every path no handle is taken twice, every release is of a
handle that the program holds, and it aborts only for the reasons that are allowed.
What the other threads do is not seen here. `Safe` says what a thread does to the
handles that it shares with them.
-/

namespace Handles

variable {κ ρ α β : Type}

/-- A program over handles `κ` with aborts `ρ`. -/
inductive Prog (κ ρ α : Type) where
  | ret (a : α)
  | abort (reason : ρ)
  | acquire (k : κ) (next : Bool → Prog κ ρ α)
  | release (k : κ) (next : Prog κ ρ α)
  | ask (next : Bool → Prog κ ρ α)

namespace Prog

def bind : Prog κ ρ α → (α → Prog κ ρ β) → Prog κ ρ β
  | ret a, f => f a
  | abort reason, _ => abort reason
  | acquire k next, f => acquire k fun b => (next b).bind f
  | release k next, f => release k (next.bind f)
  | ask next, f => ask fun b => (next b).bind f

instance : Monad (Prog κ ρ) where
  pure := ret
  bind := bind

theorem bind_eq (p : Prog κ ρ α) (f : α → Prog κ ρ β) : p >>= f = p.bind f := rfl

end Prog

/-- Take a handle: whether it was successful. -/
def acquire (k : κ) : Prog κ ρ Bool := .acquire k .ret

def release (k : κ) : Prog κ ρ Unit := .release k (.ret ())

/-- A choice of the surroundings. -/
def ask : Prog κ ρ Bool := .ask .ret

/-! ## Paths -/

/-- A path through a program that holds the handles `held`, to its return. -/
inductive Returns [DecidableEq κ] : Prog κ ρ α → List κ → α → List κ → Prop where
  | ret (a : α) (held : List κ) : Returns (.ret a) held a held
  | refused {k : κ} {next : Bool → Prog κ ρ α} {held held' : List κ} {a : α}
      (h : Returns (next false) held a held') : Returns (.acquire k next) held a held'
  | acquired {k : κ} {next : Bool → Prog κ ρ α} {held held' : List κ} {a : α}
      (h : Returns (next true) (k :: held) a held') : Returns (.acquire k next) held a held'
  | released {k : κ} {next : Prog κ ρ α} {held held' : List κ} {a : α}
      (h : Returns next (held.erase k) a held') : Returns (.release k next) held a held'
  | asked {next : Bool → Prog κ ρ α} {held held' : List κ} {a : α} (b : Bool)
      (h : Returns (next b) held a held') : Returns (.ask next) held a held'

/-! ## The rules -/

section Safe

variable [DecidableEq κ] {allowed : ρ → Prop} {held : List κ} {Q Q' : α → List κ → Prop}

/-- A program that holds `held` is safe, and returns with `Q`. -/
def Safe (allowed : ρ → Prop) : Prog κ ρ α → List κ → (α → List κ → Prop) → Prop
  | .ret a, held, Q => Q a held
  | .abort reason, _, _ => allowed reason
  | .acquire k next, held, Q =>
    k ∉ held ∧ Safe allowed (next false) held Q ∧ Safe allowed (next true) (k :: held) Q
  | .release k next, held, Q => k ∈ held ∧ Safe allowed next (held.erase k) Q
  | .ask next, held, Q => ∀ b, Safe allowed (next b) held Q

theorem Safe.mono {p : Prog κ ρ α} (h : Safe allowed p held Q) (hQ : ∀ a l, Q a l → Q' a l) :
    Safe allowed p held Q' := by
  induction p generalizing held with
  | ret a => exact hQ a held h
  | abort reason => exact h
  | acquire k next ih => exact ⟨h.1, ih false h.2.1, ih true h.2.2⟩
  | release k next ih => exact ⟨h.1, ih h.2⟩
  | ask next ih => exact fun b => ih b (h b)

theorem Safe.bind {p : Prog κ ρ α} {f : α → Prog κ ρ β} {R : β → List κ → Prop}
    (h : Safe allowed p held Q) (hf : ∀ a l, Q a l → Safe allowed (f a) l R) :
    Safe allowed (p >>= f) held R := by
  rw [Prog.bind_eq]
  induction p generalizing held with
  | ret a => exact hf a held h
  | abort reason => exact h
  | acquire k next ih => exact ⟨h.1, ih false h.2.1, ih true h.2.2⟩
  | release k next ih => exact ⟨h.1, ih h.2⟩
  | ask next ih => exact fun b => ih b (h b)

/-- A handle that is not held may be taken. -/
theorem safe_acquire {k : κ} (hk : k ∉ held) :
    Safe allowed (acquire k : Prog κ ρ Bool) held fun taken l =>
      l = if taken then k :: held else held := ⟨hk, rfl, rfl⟩

theorem safe_release {k : κ} (hk : k ∈ held) :
    Safe allowed (release k : Prog κ ρ Unit) held fun _ l => l = held.erase k := ⟨hk, rfl⟩

theorem safe_ask : Safe allowed (ask : Prog κ ρ Bool) held fun _ l => l = held := fun _ => rfl

/-- A safe program ends as its rule says on every path. -/
theorem Safe.returns {p : Prog κ ρ α} {a : α} {held' : List κ} (h : Safe allowed p held Q)
    (hret : Returns p held a held') : Q a held' := by
  induction hret with
  | ret a held => exact h
  | refused _ ih => exact ih h.2.1
  | acquired _ ih => exact ih h.2.2
  | released _ ih => exact ih h.2
  | asked b _ ih => exact ih (h b)

end Safe

end Handles
