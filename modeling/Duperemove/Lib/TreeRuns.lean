-- SUMMARY: Search trees over whole runs: after any insertions, removals and writes a tree holds the live nodes in order, and a lookup finds them.
import Mathlib.Data.List.Nodup
import Duperemove.Lib.SearchTree

/-!
# Runs of a search tree

A program inserts nodes into a tree, removes nodes, and writes to the nodes in it without
touching their keys. A node is live when it was inserted and not removed since. Where the
program descends by the side on which a key lies, the tree of every run holds the live
nodes in order, an insertion meets a node exactly when the key is live, and a lookup that
descends by the same side finds exactly the live node with the key.
-/

namespace SearchTree

variable {α κ : Type} {key : α → κ}

/-- What a program does with a tree. A program only removes nodes that are there; the
    removal of another one does nothing. A write may change any nodes, in place. -/
inductive Op (key : α → κ) where
  | insert (new : α)
  | erase (x : α)
  | write (f : α → α) (keeps : ∀ x, key (f x) = key x)

variable [DecidableEq α]

/-- The insertion of a program. `none` is the branch where the descent meets a node. -/
abbrev Insertion (α : Type) [DecidableEq α] := Balance α → KeyTree α → α → Option (KeyTree α)

/-- One operation. Where the insertion meets a node, the tree stays as it is. -/
def Op.apply (insert : Insertion α) (b : Balance α) (t : KeyTree α) : Op key → KeyTree α
  | .insert new => (insert b t new).getD t
  | .erase x => b.erase t x
  | .write f _ => t.map f

def run (insert : Insertion α) (b : Balance α) (ops : List (Op key)) : KeyTree α :=
  ops.foldl (Op.apply insert b) .nil

-- ---------------------------------------------------------------------------
-- Descents
-- ---------------------------------------------------------------------------

/-- The insertion descends by the side on which the key of the new node lies. -/
def Insertion.Descends (cmp : κ → κ → Ordering) (key : α → κ) (insert : Insertion α) : Prop :=
  ∀ b t new, insert b t new = (t.link (KeyTree.side cmp key (key new)) new).map b.insertColor

variable {cmp : κ → κ → Ordering} {ins : Insertion α} {b : Balance α} {t t' : KeyTree α}
  {new x : α}

/-- So it does when its own tests tell that side at every node. -/
theorem Insertion.descends_of_tests {dir : α → α → Ordering}
    (hdir : ∀ new x, dir new x = KeyTree.side cmp key (key new) x) :
    Insertion.Descends cmp key fun b t new => (t.link (dir new) new).map b.insertColor := by
  intro b t new
  exact congrArg (fun dir => (t.link dir new).map b.insertColor) (funext (hdir new))

-- ---------------------------------------------------------------------------
-- Trees as sets of keys
-- ---------------------------------------------------------------------------

/-- An ordered tree with exactly these keys. -/
structure KeyTree.HasKeys (cmp : κ → κ → Ordering) (key : α → κ) (t : KeyTree α)
    (keys : κ → Prop) : Prop where
  ordered : t.Ordered cmp key
  keys_iff : ∀ k, keys k ↔ ∃ x ∈ t.inorder, key x = k

section Keys

variable {keys : κ → Prop} [Std.TransCmp cmp]

theorem KeyTree.HasKeys.insert (h : t.HasKeys cmp key keys) (hins : ins.Descends cmp key)
    (hnew : ins b t new = some t') : t'.HasKeys cmp key fun k => key new = k ∨ keys k := by
  rw [hins] at hnew
  obtain ⟨linked, hlink, rfl⟩ := Option.map_eq_some_iff.1 hnew
  obtain ⟨hordered, hperm⟩ := h.ordered.insertColor_link b rfl hlink
  refine ⟨hordered, fun k => ?_⟩
  simp only [h.keys_iff, hperm.mem_iff, List.mem_cons, exists_eq_or_imp]

theorem KeyTree.HasKeys.erase (h : t.HasKeys cmp key keys) (hx : x ∈ t.inorder) :
    (b.erase t x).HasKeys cmp key fun k => key x ≠ k ∧ keys k := by
  refine ⟨h.ordered.erase b x, fun k => ?_⟩
  have hnodup := h.ordered.nodup_keys
  rw [h.keys_iff, b.inorder_erase]
  constructor
  · rintro ⟨hne, y, hy, rfl⟩
    exact ⟨y, (List.mem_erase_of_ne fun heq => hne (congrArg key heq.symm)).2 hy, rfl⟩
  · rintro ⟨y, hy, rfl⟩
    have hy' := List.mem_of_mem_erase hy
    refine ⟨fun heq => ?_, y, hy', rfl⟩
    rw [List.inj_on_of_nodup_map hnodup hx hy' heq] at hy
    exact (List.Nodup.not_mem_erase hnodup.of_map) hy

variable [Std.LawfulEqCmp cmp]

theorem KeyTree.HasKeys.duplicate_iff (h : t.HasKeys cmp key keys) (hins : ins.Descends cmp key)
    (new : α) : ins b t new = none ↔ keys (key new) := by
  rw [hins, Option.map_eq_none_iff, h.ordered.link_eq_none_iff, h.keys_iff]

/-- The two ways out of an insertion. -/
theorem KeyTree.HasKeys.insert_cases (h : t.HasKeys cmp key keys) (hins : ins.Descends cmp key)
    (b : Balance α) (new : α) :
    (ins b t new = none ∧ keys (key new)) ∨
      ∃ t', ins b t new = some t' ∧ ¬ keys (key new) ∧
        t'.HasKeys cmp key fun k => key new = k ∨ keys k := by
  have hdup := h.duplicate_iff (b := b) hins new
  cases hnew : ins b t new with
  | none => exact .inl ⟨rfl, hdup.1 hnew⟩
  | some t' =>
    refine .inr ⟨t', rfl, fun hin => ?_, h.insert hins hnew⟩
    exact Option.some_ne_none t' (hnew.symm.trans (hdup.2 hin))

omit [DecidableEq α] in
theorem KeyTree.HasKeys.isSome_find_iff (h : t.HasKeys cmp key keys) (k : κ) :
    (t.find (side cmp key k)).isSome ↔ keys k := by
  rw [h.keys_iff, Option.isSome_iff_exists]
  exact exists_congr fun x => h.ordered.find_eq_some_iff

end Keys

-- ---------------------------------------------------------------------------
-- Live nodes
-- ---------------------------------------------------------------------------

variable [DecidableEq κ]

/-- The live nodes behind an operation. -/
def Op.after (live : List α) : Op key → List α
  | insert new => if ∃ x ∈ live, key x = key new then live else new :: live
  | erase x => live.erase x
  | write f _ => live.map f

def live (ops : List (Op key)) : List α := ops.foldl Op.after []

/-- What a tree should do: the tree of every run is ordered and holds the live nodes, and
    the insertion meets a node exactly when a live one has the key. -/
structure InsertsInOrder (cmp : κ → κ → Ordering) (key : α → κ) (insert : Insertion α) :
    Prop where
  ordered : ∀ b (ops : List (Op key)), (run insert b ops).Ordered cmp key
  nodes : ∀ b (ops : List (Op key)), (run insert b ops).inorder.Perm (live ops)
  duplicate : ∀ b (ops : List (Op key)) new,
    insert b (run insert b ops) new = none ↔ ∃ x ∈ live ops, key x = key new

/-- The lookup returns the live node with the key, and nothing else, after every run. -/
def FindsLive (key : α → κ) (insert : Insertion α) (find : KeyTree α → κ → Option α) : Prop :=
  ∀ b (ops : List (Op key)) k x,
    find (run insert b ops) k = some x ↔ x ∈ live ops ∧ key x = k

/-- The invariant: an ordered tree with these nodes. -/
structure KeyTree.Holds (cmp : κ → κ → Ordering) (key : α → κ) (t : KeyTree α)
    (nodes : List α) : Prop where
  ordered : t.Ordered cmp key
  perm : t.inorder.Perm nodes

omit [DecidableEq α] [DecidableEq κ] in
theorem KeyTree.Holds.hasKeys {nodes : List α} (h : t.Holds cmp key nodes) :
    t.HasKeys cmp key fun k => ∃ x ∈ nodes, key x = k :=
  ⟨h.ordered, fun _ => exists_congr fun _ => and_congr_left' h.perm.mem_iff.symm⟩

variable [Std.TransCmp cmp] [Std.LawfulEqCmp cmp]

/-- Each operation keeps the order, and the nodes change as they should. -/
theorem KeyTree.Holds.apply {nodes : List α} (h : t.Holds cmp key nodes)
    (hins : ins.Descends cmp key) (op : Op key) :
    (op.apply ins b t).Holds cmp key (op.after nodes) := by
  cases op with
  | insert new =>
    rcases h.hasKeys.insert_cases hins b new with ⟨hdup, hin⟩ | ⟨t', hnew, hno, hkeys⟩
    · rw [Op.apply, Op.after, hdup, if_pos hin]
      exact h
    · rw [Op.apply, Op.after, hnew, if_neg hno]
      refine ⟨hkeys.ordered, ?_⟩
      rw [hins] at hnew
      obtain ⟨linked, hlink, rfl⟩ := Option.map_eq_some_iff.1 hnew
      exact (h.ordered.insertColor_link b rfl hlink).2.trans (h.perm.cons new)
  | erase x =>
    refine ⟨h.ordered.erase b x, ?_⟩
    rw [Op.apply, b.inorder_erase]
    exact h.perm.erase x
  | write f keeps =>
    refine ⟨h.ordered.map fun x _ => keeps x, ?_⟩
    rw [Op.apply, KeyTree.inorder_map]
    exact h.perm.map f

/-- The tree of a run holds the live nodes. -/
theorem run_holds (hins : ins.Descends cmp key) (b : Balance α) (ops : List (Op key)) :
    (run ins b ops).Holds cmp key (live ops) := by
  suffices hfrom : ∀ (ops : List (Op key)) t nodes, KeyTree.Holds cmp key t nodes →
      (ops.foldl (Op.apply ins b) t).Holds cmp key (ops.foldl Op.after nodes) from
    hfrom ops .nil [] ⟨List.Pairwise.nil, .refl _⟩
  intro ops
  induction ops with
  | nil => exact fun t nodes h => h
  | cons op ops ih => exact fun t nodes h => ih _ _ (h.apply hins op)

theorem Insertion.Descends.insertsInOrder (hins : ins.Descends cmp key) :
    InsertsInOrder cmp key ins where
  ordered := fun b ops => (run_holds hins b ops).ordered
  nodes := fun b ops => (run_holds hins b ops).perm
  duplicate := fun b ops new => (run_holds hins b ops).hasKeys.duplicate_iff hins new

theorem Insertion.Descends.findsLive (hins : ins.Descends cmp key)
    {find : KeyTree α → κ → Option α}
    (hfind : ∀ t k, find t k = t.find (KeyTree.side cmp key k)) : FindsLive key ins find := by
  intro b ops k x
  have h := run_holds hins b ops
  rw [hfind, h.ordered.find_eq_some_iff, h.perm.mem_iff]

end SearchTree
