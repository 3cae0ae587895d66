-- SUMMARY: Linked lists whose elements are unlinked while they are traversed.
import Mathlib.Data.List.Basic
import Mathlib.Data.List.Nodup

/-!
# Traversal with unlinking

`list_for_each_entry_safe` holds two pointers, the current element and the one
behind it, so that the body may unlink the current element. Elements are told
apart by a key, their address. When every round unlinks the current element, the
cursor always stands at the head of what is left.
-/

namespace SafeList

variable {α κ : Type} (key : α → κ)

/-- The element at an address. -/
def at? [DecidableEq κ] (l : List α) (k : κ) : Option α := l.find? fun a => key a = k

/-- The address behind `k` in the list; `none` is the list head. -/
def next [DecidableEq κ] (l : List α) (k : κ) : Option κ :=
  ((l.dropWhile fun a => key a ≠ k).tail.head?).map key

/-- `list_del`. -/
def unlink [DecidableEq κ] (l : List α) (k : κ) : List α := l.eraseP fun a => key a = k

/-- The two pointers of a traversal; `none` is the list head, where it ends. -/
structure Cursor (κ : Type) where
  cur : Option κ
  tmp : Option κ
  deriving DecidableEq, Repr

def Cursor.first (l : List α) : Cursor κ :=
  ⟨l.head?.map key, (l.tail.head?).map key⟩

/-- The step of the loop, after the body changed the list to `l`. -/
def Cursor.advance [DecidableEq κ] (l : List α) (c : Cursor κ) : Cursor κ :=
  ⟨c.tmp, c.tmp.bind (next key l)⟩

variable {key}

@[simp] theorem at?_cons_self [DecidableEq κ] (a : α) (l : List α) :
    at? key (a :: l) (key a) = some a := by
  simp [at?]

@[simp] theorem unlink_cons_self [DecidableEq κ] (a : α) (l : List α) :
    unlink key (a :: l) (key a) = l := by
  simp [unlink]

@[simp] theorem first_cur (l : List α) : (Cursor.first key l).cur = l.head?.map key := rfl

theorem next_cons_self [DecidableEq κ] (a : α) (l : List α) :
    next key (a :: l) (key a) = (l.head?).map key := by
  simp [next]

/-- After the current element was unlinked, the cursor stands at the head of the
    rest. -/
theorem advance_first [DecidableEq κ] (a : α) (l : List α) :
    (Cursor.first key (a :: l)).advance key l = Cursor.first key l := by
  cases l with
  | nil => rfl
  | cons b l => simp [Cursor.first, Cursor.advance, next_cons_self]

end SafeList
