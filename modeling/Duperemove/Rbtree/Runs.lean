-- SUMMARY: The search trees of the program on the memory of rbtree.c: every run of insertions and removals keeps a red-black tree in order.
import Duperemove.Descents
import Duperemove.Rbtree.Insert
import Duperemove.Rbtree.Remove
import Duperemove.Rbtree.Walk

/-!
# Search trees in memory

The trees of the program on memory: each insertion goes down by its own tests, links the new
node and calls `rb_insert_color`, each removal is `rb_erase`, and a lookup goes down like the
insertion. The other modules model these trees under any library that keeps the order of the
nodes. Here that library is `rbtree.c` itself: every run follows no null pointer, the memory
holds a red-black tree throughout, and its nodes in order are those of the other models.
-/

namespace Duperemove.RbHeap

open RedBlack (Color Side ColorTree Frame IsRedBlack plug before behind)
open SearchTree (KeyTree Balance Insertion Op)
open Loop (Next)

variable {ν κ : Type} [DecidableEq ν]

-- ---------------------------------------------------------------------------
-- Descents
-- ---------------------------------------------------------------------------

/-- The loop of an insertion: the link it is at, and where that is. It stops at a node with
    the key, or at the null link for the new node. -/
def descendBody (dir : ν → Ordering) (h : RbHeap ν) :
    Option ν × Option (ν × Side) → Next (Option ν × Option (ν × Side)) (ν ⊕ Option (ν × Side))
  | (none, place) => .leave (.inr place)
  | (some parent, _) =>
    match dir parent with
    | .lt => .again ((h.node parent).rbLeft, some (parent, .left))
    | .eq => .leave (.inl parent)
    | .gt => .again ((h.node parent).rbRight, some (parent, .right))

/-- An insertion. `some none` is the branch that meets a node with the key. -/
def insertNode (dir : ν → Ordering) (fuel : Nat) (h : RbHeap ν) (new : ν) :
    Option (Option (RbHeap ν)) := do
  match ← Loop.run (h.descendBody dir) fuel (h.rbNode, none) with
  | .inl _ => return none
  | .inr place => return some (← (h.rbLinkNode new place).rbInsertColor fuel new)

/-- The loop of a lookup. -/
def findBody (dir : ν → Ordering) (h : RbHeap ν) : Option ν → Next (Option ν) (Option ν)
  | none => .leave none
  | some n =>
    match dir n with
    | .lt => .again (h.node n).rbLeft
    | .eq => .leave (some n)
    | .gt => .again (h.node n).rbRight

def findNode (dir : ν → Ordering) (fuel : Nat) (h : RbHeap ν) : Option (Option ν) :=
  Loop.run (h.findBody dir) fuel h.rbNode

/-- The tree without its colors. -/
def keyTree : ColorTree ν → KeyTree ν
  | .nil => .nil
  | .node _ left x right => .node (keyTree left) x (keyTree right)

/-- The descent of an insertion on the tree. -/
def descend (dir : ν → Ordering) : ColorTree ν → List (Frame ν) → ν ⊕ List (Frame ν)
  | .nil, path => .inr path
  | .node c left x right, path =>
    match dir x with
    | .lt => descend dir left (⟨.left, c, x, right⟩ :: path)
    | .eq => .inl x
    | .gt => descend dir right (⟨.right, c, x, left⟩ :: path)

section Descend

variable {h : RbHeap ν} {t : ColorTree ν} {path path' : List (Frame ν)} {dir : ν → Ordering}
  {p : Option ν} {x new : ν} {fuel : Nat}

omit [DecidableEq ν] in
@[simp] theorem inorder_keyTree : (keyTree t).inorder = t.inorder := by
  induction t with
  | nil => rfl
  | node c left x right ihl ihr => rw [keyTree, KeyTree.inorder, ihl, ihr, ColorTree.inorder]

omit [DecidableEq ν] in
theorem IsTree.run_descendBody (ht : h.IsTree p t) (hfuel : t.height < fuel) :
    Loop.run (h.descendBody dir) fuel (link t, linkAt path) =
      some (match descend dir t path with
        | .inl x => .inl x
        | .inr path => .inr (linkAt path)) := by
  induction t generalizing p path fuel with
  | nil =>
    obtain ⟨fuel, rfl⟩ := Nat.exists_eq_succ_of_ne_zero (Nat.ne_zero_of_lt hfuel)
    exact Loop.run_leave rfl fuel
  | node c left x right ihl ihr =>
    obtain ⟨fuel, rfl⟩ := Nat.exists_eq_succ_of_ne_zero (Nat.ne_zero_of_lt hfuel)
    obtain ⟨hx, hl, hr⟩ := ht
    simp only [ColorTree.height, Nat.succ_eq_add_one] at hfuel
    cases hdir : dir x with
    | lt =>
      have hless : left.height < fuel := by omega
      have hagain : h.descendBody dir (some x, linkAt path) =
          .again (link left, linkAt (⟨.left, c, x, right⟩ :: path)) := by
        simp only [descendBody, hdir, hx]
        rfl
      rw [link, Loop.run_again hagain, ihl hl hless, descend, hdir]
    | eq =>
      rw [descend, hdir]
      refine Loop.run_leave ?_ fuel
      simp only [descendBody, link, hdir]
    | gt =>
      have hless : right.height < fuel := by omega
      have hagain : h.descendBody dir (some x, linkAt path) =
          .again (link right, linkAt (⟨.right, c, x, left⟩ :: path)) := by
        simp only [descendBody, hdir, hx]
        rfl
      rw [link, Loop.run_again hagain, ihr hr hless, descend, hdir]

omit [DecidableEq ν] in
/-- The lookup on memory is the one on the tree. -/
theorem IsTree.run_findBody (ht : h.IsTree p t) (hfuel : t.height < fuel) :
    Loop.run (h.findBody dir) fuel (link t) = some ((keyTree t).find dir) := by
  induction t generalizing p fuel with
  | nil =>
    obtain ⟨fuel, rfl⟩ := Nat.exists_eq_succ_of_ne_zero (Nat.ne_zero_of_lt hfuel)
    exact Loop.run_leave rfl fuel
  | node c left x right ihl ihr =>
    obtain ⟨fuel, rfl⟩ := Nat.exists_eq_succ_of_ne_zero (Nat.ne_zero_of_lt hfuel)
    obtain ⟨hx, hl, hr⟩ := ht
    simp only [ColorTree.height, Nat.succ_eq_add_one] at hfuel
    rw [keyTree, KeyTree.find]
    cases hdir : dir x with
    | lt =>
      have hless : left.height < fuel := by omega
      have hagain : h.findBody dir (link (.node c left x right)) = .again (link left) := by
        simp only [findBody, link, hdir, hx]
      rw [Loop.run_again hagain, ihl hl hless]
    | eq =>
      refine Loop.run_leave ?_ fuel
      simp only [findBody, link, hdir]
    | gt =>
      have hless : right.height < fuel := by omega
      have hagain : h.findBody dir (link (.node c left x right)) = .again (link right) := by
        simp only [findBody, link, hdir, hx]
      rw [Loop.run_again hagain, ihr hr hless]

/-- An insertion follows the descent on the tree. -/
theorem Holds.insertNode_eq (dir : ν → Ordering) (new : ν) (hh : h.Holds t [])
    (hfuel : t.height < fuel) :
    h.insertNode dir fuel new =
      match descend dir t [] with
      | .inl _ => some none
      | .inr path => ((h.rbLinkNode new (linkAt path)).rbInsertColor fuel new).map some := by
  have hroot : h.rbNode = link t := hh.above
  have hrun : Loop.run (h.descendBody dir) fuel (link t, linkAt []) = _ :=
    hh.tree.run_descendBody hfuel
  rw [linkAt, ← hroot] at hrun
  rw [insertNode, hrun]
  cases descend dir t [] with
  | inl x => rfl
  | inr path =>
    simp only [Option.bind_eq_bind, Option.bind_some]
    cases (h.rbLinkNode new (linkAt path)).rbInsertColor fuel new <;> rfl

omit [DecidableEq ν] in
/-- A descent that meets a node is one of an insertion that does. -/
theorem descend_inl (new : ν) (hmeet : descend dir t path = .inl x) :
    (keyTree t).link dir new = none := by
  induction t generalizing path with
  | nil => cases hmeet
  | node c left y right ihl ihr =>
    rw [keyTree, KeyTree.link]
    rw [descend] at hmeet
    cases hdir : dir y with
    | lt =>
      rw [hdir] at hmeet
      rw [ihl hmeet]
      rfl
    | eq => rfl
    | gt =>
      rw [hdir] at hmeet
      rw [ihr hmeet]
      rfl

omit [DecidableEq ν] in
/-- The other descents end where the new node is linked. -/
theorem descend_inr (new : ν) (hplace : descend dir t path = .inr path') :
    plug .nil path' = plug t path ∧
      ∃ t', (keyTree t).link dir new = some t' ∧
        before path ++ t'.inorder ++ behind path = before path' ++ new :: behind path' := by
  induction t generalizing path with
  | nil =>
    cases hplace
    exact ⟨rfl, _, rfl, by simp [KeyTree.inorder]⟩
  | node c left y right ihl ihr =>
    rw [descend] at hplace
    rw [keyTree, KeyTree.link]
    cases hdir : dir y with
    | lt =>
      rw [hdir] at hplace
      obtain ⟨hplug, t', hlink, horder⟩ := ihl hplace
      refine ⟨hplug, .node t' y (keyTree right), by rw [hlink]; rfl, ?_⟩
      rw [← horder]
      simp [KeyTree.inorder, before, behind, Side.pick]
    | eq =>
      rw [hdir] at hplace
      cases hplace
    | gt =>
      rw [hdir] at hplace
      obtain ⟨hplug, t', hlink, horder⟩ := ihr hplace
      refine ⟨hplug, .node (keyTree left) y t', by rw [hlink]; rfl, ?_⟩
      rw [← horder]
      simp [KeyTree.inorder, before, behind, Side.pick]

end Descend

-- ---------------------------------------------------------------------------
-- Runs
-- ---------------------------------------------------------------------------

section Runs

variable {α : Type} [DecidableEq α]

/-- Where an insertion of the other models goes at a node: what it does with the tree of that
    node alone. -/
def turn (ins : Insertion α) (new x : α) : Ordering :=
  match ins (.none α) (.node .nil x .nil) new with
  | none => .eq
  | some (.node .nil _ _) => .gt
  | some _ => .lt

/-- The nodes in a tree, and the record that each node of the memory lies in. -/
structure Nodes (ν α : Type) where
  live : List ν
  record : ν → α

/-- What the program does with a tree and its memory. It writes to a record in place and keeps
    the key, and it writes anything to a record that is in no tree, new memory included. -/
inductive NodeOp (ν : Type) (key : α → κ) where
  | insert (new : ν)
  | erase (x : ν)
  | write (x : ν) (f : α → α) (keeps : ∀ a, key (f a) = key a)
  | reuse (x : ν) (node : RbNode ν) (record : α)

namespace NodeOp

variable {key : α → κ} [DecidableEq κ]

def apply (ins : Insertion α) (fuel : Nat) (record : ν → α) (h : RbHeap ν) :
    NodeOp ν key → Option (RbHeap ν)
  | insert new => do
    return (← h.insertNode (fun x => turn ins (record new) (record x)) fuel new).getD h
  | erase x => h.rbErase fuel x
  | write _ _ _ => some h
  | reuse x node _ => some (h.write x fun _ => node)

/-- The nodes behind an operation. -/
def after (s : Nodes ν α) : NodeOp ν key → Nodes ν α
  | insert new =>
    if ∃ x ∈ s.live, key (s.record x) = key (s.record new) then s
    else { s with live := new :: s.live }
  | erase x => { s with live := s.live.erase x }
  | write x f _ => { s with record := Function.update s.record x (f (s.record x)) }
  | reuse x _ record => { s with record := Function.update s.record x record }

/-- The program removes what is in the tree, and reuses what is not. -/
def Allowed (s : Nodes ν α) : NodeOp ν key → Prop
  | erase x => x ∈ s.live
  | reuse x _ _ => x ∉ s.live
  | _ => True

omit [DecidableEq κ] in
theorem keeps_at {f : α → α} (keeps : ∀ a, key (f a) = key a) (r a : α) :
    key (if a = r then f a else a) = key a := by
  split
  · exact keeps a
  · rfl

/-- The same operation on the trees of the other models, whose nodes are the records. -/
def onRecords (s : Nodes ν α) : NodeOp ν key → List (Op key)
  | insert new => [.insert (s.record new)]
  | erase x => [.erase (s.record x)]
  | write x f keeps =>
    if x ∈ s.live then
      [.write (fun a => if a = s.record x then f a else a) (keeps_at keeps (s.record x))]
    else []
  | reuse _ _ _ => []

end NodeOp

variable {key : α → κ} [DecidableEq κ]

def runNodes (ins : Insertion α) (fuel : Nat) :
    RbHeap ν → Nodes ν α → List (NodeOp ν key) → Option (RbHeap ν)
  | h, _, [] => some h
  | h, s, op :: ops => do
    let h ← op.apply ins fuel s.record h
    runNodes ins fuel h (op.after s) ops

def nodesAfter (s : Nodes ν α) (ops : List (NodeOp ν key)) : Nodes ν α :=
  ops.foldl NodeOp.after s

def AllAllowed (s : Nodes ν α) : List (NodeOp ν key) → Prop
  | [] => True
  | op :: ops => op.Allowed s ∧ AllAllowed (op.after s) ops

def onRecords (s : Nodes ν α) : List (NodeOp ν key) → List (Op key)
  | [] => []
  | op :: ops => op.onRecords s ++ onRecords (op.after s) ops

variable {cmp : κ → κ → Ordering} {ins : Insertion α} {b : Balance α} {h h' : RbHeap ν}
  {s : Nodes ν α} {t : ColorTree ν} {abs : Balance α → KeyTree α} {op : NodeOp ν key}
  {ops : List (NodeOp ν key)} {fuel : Nat} {x : ν} {k : κ}

omit [DecidableEq ν] [DecidableEq κ] in
/-- The tests of an insertion tell the side of the key at every node. -/
theorem turn_eq (hins : ins.Descends cmp key) (new a : α) :
    turn ins new a = KeyTree.side cmp key (key new) a := by
  rw [turn, hins]
  simp only [KeyTree.link]
  cases KeyTree.side cmp key (key new) a <;> rfl

omit [DecidableEq ν] [DecidableEq κ] in
/-- The tests on the records, as a side in the tree of nodes. -/
theorem turn_side (hins : ins.Descends cmp key) (record : ν → α) (new : ν) :
    (fun x => turn ins (record new) (record x)) =
      KeyTree.side cmp (fun x => key (record x)) (key (record new)) :=
  funext fun x => turn_eq hins (record new) (record x)

/-- The memory holds a red-black tree of the live nodes, and the records of its nodes in order
    are those of a tree of the other models, under any library that balances it. -/
structure Refines (cmp : κ → κ → Ordering) (key : α → κ) (h : RbHeap ν) (s : Nodes ν α)
    (t : ColorTree ν) (abs : Balance α → KeyTree α) : Prop where
  holds : h.Holds t []
  redBlack : IsRedBlack t
  perm : t.inorder.Perm s.live
  order : ∀ b, t.inorder.map s.record = (abs b).inorder
  ordered : ∀ b, (abs b).Ordered cmp key

omit [DecidableEq ν] [DecidableEq κ] in
theorem Refines.empty (node : ν → RbNode ν) (record : ν → α) :
    Refines cmp key (.empty node) ⟨[], record⟩ .nil fun _ => .nil where
  holds := ⟨trivial, rfl, List.nodup_nil⟩
  redBlack := ⟨0, .nil⟩
  perm := .refl _
  order := fun _ => rfl
  ordered := fun _ => List.Pairwise.nil

omit [DecidableEq ν] [DecidableEq κ] in
/-- The tree in memory is ordered by the keys of the records. -/
theorem Refines.keyTree_ordered (hr : Refines cmp key h s t abs) :
    (keyTree t).Ordered cmp fun x => key (s.record x) := by
  have hordered := hr.ordered (.none α)
  rw [KeyTree.Ordered, ← hr.order, List.pairwise_map] at hordered
  rw [KeyTree.Ordered, inorder_keyTree]
  exact hordered

omit [DecidableEq ν] [DecidableEq κ] in
theorem Refines.exists_key_iff (hr : Refines cmp key h s t abs) (b : Balance α) :
    (∃ a ∈ (abs b).inorder, key a = k) ↔ ∃ x ∈ s.live, key (s.record x) = k := by
  simp only [← hr.order b, List.mem_map, exists_exists_and_eq_and, hr.perm.mem_iff]

section Step

variable [Std.TransCmp cmp] [Std.LawfulEqCmp cmp]

omit [DecidableEq ν] [DecidableEq κ] [Std.TransCmp cmp] in
/-- Two nodes of the tree never have one key. -/
theorem Refines.nodup_keys (hr : Refines cmp key h s t abs) :
    (t.inorder.map fun x => key (s.record x)).Nodup := by
  have hkeys := (hr.ordered (.none α)).nodup_keys
  rwa [← hr.order, List.map_map] at hkeys

omit [DecidableEq ν] [DecidableEq κ] [Std.TransCmp cmp] in
theorem Refines.record_inj (hr : Refines cmp key h s t abs) {x y : ν} (hx : x ∈ t.inorder)
    (hy : y ∈ t.inorder) (heq : key (s.record x) = key (s.record y)) : x = y :=
  List.inj_on_of_nodup_map hr.nodup_keys hx hy heq

omit [DecidableEq ν] [DecidableEq κ] in
/-- An insertion that meets a node does so in the other models too. -/
theorem Refines.insert_meets (hr : Refines cmp key h s t abs) (hins : ins.Descends cmp key)
    {new : ν} (hin : ∃ x ∈ s.live, key (s.record x) = key (s.record new)) (b : Balance α) :
    ins b (abs b) (s.record new) = none := by
  rw [hins, Option.map_eq_none_iff, (hr.ordered b).link_eq_none_iff, hr.exists_key_iff b]
  exact hin

omit [DecidableEq κ] in
/-- The insertion of a node with a new key: `rb_link_node` and `rb_insert_color` behind the
    descent. -/
theorem Refines.insert_links (hr : Refines cmp key h s t abs) (hins : ins.Descends cmp key)
    {new : ν} {path : List (Frame ν)} (hfuel : t.inorder.length < fuel)
    (hplace : descend (fun x => turn ins (s.record new) (s.record x)) t [] = .inr path) :
    ∃ h' t', (h.rbLinkNode new (linkAt path)).rbInsertColor fuel new = some h' ∧
      (¬∃ x ∈ s.live, key (s.record x) = key (s.record new)) ∧
      Refines cmp key h' { s with live := new :: s.live } t'
        fun b => (ins b (abs b) (s.record new)).getD (abs b) := by
  have hordered := hr.keyTree_ordered
  rw [turn_side hins] at hplace
  obtain ⟨hplug, linked, hlink, hinorder⟩ := descend_inr new hplace
  have hno : ¬∃ x ∈ s.live, key (s.record x) = key (s.record new) := by
    rintro ⟨x, hx, hkey⟩
    have hmeets : (keyTree t).link _ new = none := hordered.link_eq_none_iff.2
      ⟨x, by rwa [inorder_keyTree, hr.perm.mem_iff], hkey⟩
    rw [hlink] at hmeets
    cases hmeets
  have hperm : t.inorder.Perm (nodesOf path) := by
    have hplugged : (plug .nil path).inorder.Perm (nodesOf path) := perm_plug
    rwa [hplug] at hplugged
  have hnew : new ∉ nodesOf path := fun hmem =>
    hno ⟨new, hr.perm.mem_iff.1 (hperm.mem_iff.2 hmem), rfl⟩
  have hholds : h.Holds .nil path := by
    rw [← holds_plug, hplug]
    exact hr.holds
  have hshort : path.length < fuel :=
    Nat.lt_of_le_of_lt (length_le_nodesOf.trans_eq hperm.length_eq.symm) hfuel
  have hred : IsRedBlack (plug .nil path) := by
    rw [hplug]
    exact hr.redBlack
  obtain ⟨h', hrun, hholds', hred', -⟩ := hholds.rbInsert hred hnew hshort
  have hlinked : (RedBlack.insertColor (.node .red .nil new .nil) path).inorder =
      linked.inorder := by
    rw [RedBlack.inorder_insertColor, RedBlack.inorder_plug]
    simpa [before, behind, ColorTree.inorder] using hinorder.symm
  have hcons : linked.inorder.Perm (new :: t.inorder) := by
    rw [← inorder_keyTree (t := t)]
    exact KeyTree.perm_link hlink
  refine ⟨h', _, hrun, hno, hholds', hred', ?_, fun b => ?_, fun b => ?_⟩
  · rw [hlinked]
    exact hcons.trans (hr.perm.cons new)
  all_goals
    have hfresh : ∀ a ∈ (abs b).inorder, key a ≠ key (s.record new) := fun a ha hkey =>
      hno ((hr.exists_key_iff b).1 ⟨a, ha, hkey⟩)
    obtain ⟨t', hins', hordered', hperm'⟩ := (hr.ordered b).exists_link b rfl hfresh
    rw [hins, hins']
  · have hrecords : (KeyTree.ofList (linked.inorder.map s.record)).Ordered cmp key := by
      rw [KeyTree.Ordered, KeyTree.inorder_ofList, List.pairwise_map]
      exact hordered.link hlink rfl
    rw [hlinked]
    refine (KeyTree.inorder_ofList _).symm.trans (hrecords.inorder_eq_of_perm hordered' ?_)
    rw [KeyTree.inorder_ofList]
    refine (hcons.map s.record).trans ?_
    rw [List.map_cons, hr.order b]
    exact hperm'.symm
  · exact hordered'

/-- What an operation does with the trees of the other models. -/
def onTrees (ins : Insertion α) (s : Nodes ν α) (op : NodeOp ν key)
    (abs : Balance α → KeyTree α) : Balance α → KeyTree α :=
  fun b => (op.onRecords s).foldl (Op.apply ins b) (abs b)

theorem Refines.insert (hr : Refines cmp key h s t abs) (hins : ins.Descends cmp key) (new : ν)
    (hfuel : t.inorder.length < fuel) :
    ∃ h' t', (NodeOp.insert new : NodeOp ν key).apply ins fuel s.record h = some h' ∧
      Refines cmp key h' ((NodeOp.insert new : NodeOp ν key).after s) t'
        (onTrees ins s (.insert new : NodeOp ν key) abs) := by
  have hheight : t.height < fuel := Nat.lt_of_le_of_lt RedBlack.ColorTree.height_le_length hfuel
  have hdescent :=
    hr.holds.insertNode_eq (fun x => turn ins (s.record new) (s.record x)) new hheight
  cases hplace : descend (fun x => turn ins (s.record new) (s.record x)) t [] with
  | inl x =>
    rw [hplace] at hdescent
    rw [turn_side hins] at hplace
    obtain ⟨y, hy, hkey⟩ := hr.keyTree_ordered.link_eq_none_iff.1
      (descend_inl new hplace)
    rw [inorder_keyTree, hr.perm.mem_iff] at hy
    refine ⟨h, t, ?_, ?_⟩
    · rw [NodeOp.apply, hdescent]
      rfl
    · rw [NodeOp.after, if_pos ⟨y, hy, hkey⟩]
      refine { hr with order := fun b => ?_, ordered := fun b => ?_ }
      all_goals
        simp only [onTrees, NodeOp.onRecords, List.foldl_cons, List.foldl_nil, Op.apply,
          hr.insert_meets hins ⟨y, hy, hkey⟩ b, Option.getD_none]
      · exact hr.order b
      · exact hr.ordered b
  | inr path =>
    rw [hplace] at hdescent
    obtain ⟨h', t', hcolor, hno, hrefines⟩ := hr.insert_links hins hfuel hplace
    refine ⟨h', t', ?_, ?_⟩
    · rw [NodeOp.apply, hdescent]
      simp only [hcolor]
      rfl
    · rw [NodeOp.after, if_neg hno]
      exact hrefines

omit [DecidableEq κ] [Std.TransCmp cmp] in
/-- The removal of a node: `rb_erase`. -/
theorem Refines.erase (hr : Refines cmp key h s t abs) (hx : x ∈ s.live)
    (hfuel : t.inorder.length ≤ fuel) :
    ∃ h' t', h.rbErase fuel x = some h' ∧
      Refines cmp key h' { s with live := s.live.erase x } t'
        fun b => b.erase (abs b) (s.record x) := by
  have hmem := hr.perm.mem_iff.2 hx
  obtain ⟨a, r, hsplit⟩ := List.append_of_mem hmem
  obtain ⟨h', t', hrun, hholds', hred', hrest, -⟩ :=
    hr.holds.rbErase_split hr.redBlack hsplit hfuel
  have hnodup : t.inorder.Nodup := hr.nodup_keys.of_map
  have hno : x ∉ a := by
    rw [hsplit, List.nodup_append'] at hnodup
    exact fun hin => hnodup.2.2 hin List.mem_cons_self
  have hinorder : t'.inorder = t.inorder.erase x := by
    rw [hrest, hsplit, List.erase_append_right _ hno, List.erase_cons_head]
  have herase : (t.inorder.erase x).map s.record = (t.inorder.map s.record).erase (s.record x) := by
    have hno' : s.record x ∉ a.map s.record := by
      rintro hin
      obtain ⟨y, hy, hrecord⟩ := List.mem_map.1 hin
      have hmem' : y ∈ t.inorder := by
        rw [hsplit]
        exact List.mem_append_left _ hy
      obtain rfl := hr.record_inj hmem' hmem (congrArg key hrecord)
      exact hno hy
    rw [hsplit, List.erase_append_right _ hno, List.erase_cons_head, List.map_append,
      List.map_append, List.map_cons, List.erase_append_right _ hno', List.erase_cons_head]
  refine ⟨h', t', hrun, hholds', hred', ?_, fun b => ?_, fun b => (hr.ordered b).erase b _⟩
  · rw [hinorder]
    exact hr.perm.erase x
  · rw [hinorder, herase, hr.order b, b.inorder_erase]

omit [DecidableEq κ] [Std.TransCmp cmp] in
/-- A write to a record in the tree is one write in the other models. -/
theorem Refines.write (hr : Refines cmp key h s t abs) (hx : x ∈ s.live) {f : α → α}
    (keeps : ∀ a, key (f a) = key a) :
    Refines cmp key h { s with record := Function.update s.record x (f (s.record x)) } t
      fun b => (abs b).map fun a => if a = s.record x then f a else a where
  holds := hr.holds
  redBlack := hr.redBlack
  perm := hr.perm
  order := fun b => by
    rw [KeyTree.inorder_map, ← hr.order b, List.map_map]
    refine List.map_congr_left fun y hy => ?_
    simp only [Function.comp_apply]
    by_cases hyx : y = x
    · rw [hyx, Function.update_self, if_pos rfl]
    · have hne : s.record y ≠ s.record x := fun heq =>
        hyx (hr.record_inj hy (hr.perm.mem_iff.2 hx) (congrArg key heq))
      rw [Function.update_of_ne hyx, if_neg hne]
  ordered := fun b => (hr.ordered b).map fun a _ => NodeOp.keeps_at keeps (s.record x) a

omit [DecidableEq κ] [Std.TransCmp cmp] [Std.LawfulEqCmp cmp] in
/-- A record in no tree may become anything. -/
theorem Refines.reuse (hr : Refines cmp key h s t abs) (hx : x ∉ s.live) (a : α)
    (hoff : ∀ y ∈ t.inorder, h'.node y = h.node y) (hroot : h'.rbNode = h.rbNode) :
    Refines cmp key h' { s with record := Function.update s.record x a } t abs where
  holds := ⟨hr.holds.tree.congr hoff, hroot.trans hr.holds.above, hr.holds.nodup⟩
  redBlack := hr.redBlack
  perm := hr.perm
  order := fun b => by
    rw [← hr.order b]
    refine List.map_congr_left fun y hy => Function.update_of_ne (fun heq => hx ?_) a s.record
    rw [← heq]
    exact hr.perm.mem_iff.1 hy
  ordered := hr.ordered

/-- Each operation ends, and the tree in memory does what the other models do. -/
theorem Refines.apply (hr : Refines cmp key h s t abs) (hins : ins.Descends cmp key)
    (hallowed : op.Allowed s) (hfuel : t.inorder.length < fuel) :
    ∃ h' t', op.apply ins fuel s.record h = some h' ∧
      Refines cmp key h' (op.after s) t' (onTrees ins s op abs) := by
  cases op with
  | insert new => exact hr.insert hins new hfuel
  | erase x => exact hr.erase hallowed hfuel.le
  | write x f keeps =>
    refine ⟨h, t, rfl, ?_⟩
    by_cases hx : x ∈ s.live
    · have htrees : onTrees ins s (.write x f keeps) abs =
          fun b => (abs b).map fun a => if a = s.record x then f a else a := by
        funext b
        rw [onTrees, NodeOp.onRecords, if_pos hx]
        rfl
      rw [htrees]
      exact hr.write hx keeps
    · have htrees : onTrees ins s (.write x f keeps) abs = abs := by
        funext b
        rw [onTrees, NodeOp.onRecords, if_neg hx]
        rfl
      rw [htrees]
      exact hr.reuse hx (f (s.record x)) (fun _ _ => rfl) rfl
  | reuse x node a =>
    refine ⟨_, t, rfl, hr.reuse hallowed a (fun y hy => if_neg fun heq => hallowed ?_) rfl⟩
    rw [← heq]
    exact hr.perm.mem_iff.1 hy

omit [DecidableEq α] in
/-- An operation puts at most one node into the tree. -/
theorem NodeOp.length_after (s : Nodes ν α) (op : NodeOp ν key) :
    (op.after s).live.length ≤ s.live.length + 1 := by
  cases op with
  | insert new =>
    rw [NodeOp.after]
    split
    · omega
    · rfl
  | erase x => exact List.length_erase_le.trans (Nat.le_succ _)
  | write x f keeps => exact Nat.le_succ _
  | reuse x node a => exact Nat.le_succ _

theorem Refines.run (hr : Refines cmp key h s t abs) (hins : ins.Descends cmp key)
    (hallowed : AllAllowed s ops) (hfuel : s.live.length + ops.length < fuel) :
    ∃ h' t', runNodes ins fuel h s ops = some h' ∧
      Refines cmp key h' (nodesAfter s ops) t'
        fun b => (onRecords s ops).foldl (Op.apply ins b) (abs b) := by
  induction ops generalizing h s t abs with
  | nil => exact ⟨h, t, rfl, hr⟩
  | cons op ops ih =>
    rw [List.length_cons] at hfuel
    have hlength := hr.perm.length_eq
    have hafter := op.length_after s
    have hroom : t.inorder.length < fuel := by omega
    obtain ⟨h₁, t₁, happly, hr₁⟩ := hr.apply hins hallowed.1 hroom
    obtain ⟨h₂, t₂, hrun, hr₂⟩ := ih hr₁ hallowed.2 (by omega)
    refine ⟨h₂, t₂, ?_, ?_⟩
    · rw [runNodes, happly]
      exact hrun
    · simp only [onRecords, List.foldl_append]
      exact hr₂

-- ---------------------------------------------------------------------------
-- The memory behind a run
-- ---------------------------------------------------------------------------

omit [DecidableEq ν] [DecidableEq κ] in
/-- A lookup in memory finds exactly the live node with the key. -/
theorem Refines.findNode (hr : Refines cmp key h s t abs) (k : κ)
    (hfuel : t.inorder.length < fuel) :
    ∃ found, h.findNode (KeyTree.side cmp (fun x => key (s.record x)) k) fuel = some found ∧
      ∀ x, found = some x ↔ x ∈ s.live ∧ key (s.record x) = k := by
  have hroot : h.rbNode = link t := hr.holds.above
  have hheight : t.height < fuel := Nat.lt_of_le_of_lt RedBlack.ColorTree.height_le_length hfuel
  refine ⟨_, hroot ▸ hr.holds.tree.run_findBody hheight, fun x => ?_⟩
  rw [hr.keyTree_ordered.find_eq_some_iff, inorder_keyTree, hr.perm.mem_iff]

/-- What the memory holds behind a run: a red-black tree whose ways down are short, the nodes
    of the other models in the walk over it, and what they find in a lookup. -/
structure InMemory (cmp : κ → κ → Ordering) (key : α → κ) (ins : Insertion α) (fuel : Nat)
    (h : RbHeap ν) (s : Nodes ν α) (ops : List (Op key)) : Prop where
  tree : ∃ t, h.Holds t [] ∧ IsRedBlack t ∧ t.height ≤ 2 * Nat.log 2 (s.live.length + 1)
  walk : ∃ first xs, h.rbFirst fuel = some first ∧ h.rbWalk fuel fuel first = some xs ∧
    xs.Perm s.live ∧ ∀ b, xs.map s.record = (SearchTree.run ins b ops).inorder
  lookup : ∀ k, ∃ found,
    h.findNode (KeyTree.side cmp (fun x => key (s.record x)) k) fuel = some found ∧
      ∀ x, found = some x ↔ x ∈ s.live ∧ key (s.record x) = k

/-- Every run ends, from any memory with an empty tree. -/
def RunsInMemory (cmp : κ → κ → Ordering) (key : α → κ) (ins : Insertion α) : Prop :=
  ∀ (ν : Type) [DecidableEq ν] (node : ν → RbNode ν) (record : ν → α) (ops : List (NodeOp ν key))
    (fuel : Nat), AllAllowed ⟨[], record⟩ ops → ops.length < fuel →
    ∃ h, runNodes ins fuel (.empty node) ⟨[], record⟩ ops = some h ∧
      InMemory cmp key ins fuel h (nodesAfter ⟨[], record⟩ ops) (onRecords ⟨[], record⟩ ops)

omit [DecidableEq α] in
theorem length_nodesAfter (s : Nodes ν α) (ops : List (NodeOp ν key)) :
    (nodesAfter s ops).live.length ≤ s.live.length + ops.length := by
  induction ops generalizing s with
  | nil => exact le_rfl
  | cons op ops ih =>
    have hafter := op.length_after s
    have hrest := ih (op.after s)
    rw [List.length_cons]
    simp only [nodesAfter, List.foldl_cons] at hrest ⊢
    omega

theorem runsInMemory (hins : ins.Descends cmp key) : RunsInMemory cmp key ins := by
  intro ν _ node record ops fuel hallowed hfuel
  have hempty : Refines cmp key _ _ _ _ := .empty node record
  obtain ⟨h, t, hrun, hr⟩ := hempty.run hins hallowed (by simpa using hfuel)
  have hlength := length_nodesAfter ⟨[], record⟩ ops
  have hshort : t.inorder.length < fuel := by
    rw [hr.perm.length_eq]
    simp only [List.length_nil] at hlength
    omega
  have hheight := hr.redBlack.height_le
  rw [hr.perm.length_eq] at hheight
  obtain ⟨hfirst, hwalk⟩ := hr.holds.rbWalk hshort.le
  exact ⟨h, hrun, ⟨t, hr.holds, hr.redBlack, hheight⟩, ⟨_, _, hfirst, hwalk, hr.perm, hr.order⟩,
    fun k => hr.findNode k hshort⟩

end Step

end Runs

-- ---------------------------------------------------------------------------
-- The trees of the program
-- ---------------------------------------------------------------------------

open HashTree (FileHashHead DupeBlocksList)

/-- All seven trees in memory, each with the tests of its own insertion. -/
structure TreesInMemory : Prop where
  groups : RunsInMemory pairCmp DupeExtentsNode.key Descents.insertDupeExtents
  extents : RunsInMemory pairCmp ResultExtent.key Descents.insertExtentRb
  blockLists : RunsInMemory compare DupeBlocksList.dlHash Descents.insertBlockList
  heads : RunsInMemory HashTree.cmpHeads FileHashHead.hFile Descents.insertFileHashHead
  blocks : RunsInMemory compare HashTree.FileBlock.bLoff Descents.insertBlockIntoFilerec
  records : RunsInMemory Duperemove.cmpFilerecs FilerecNode.fileid Descents.insertFilerec
  tokens : RunsInMemory compare FilerecToken.tFile Descents.insertFilerecTokenRb

theorem treesInMemory : TreesInMemory where
  groups := runsInMemory Descents.insertDupeExtents_descends
  extents := runsInMemory Descents.insertExtentRb_descends
  blockLists := runsInMemory Descents.insertBlockList_descends
  heads := runsInMemory Descents.insertFileHashHead_descends
  blocks := runsInMemory Descents.insertBlockIntoFilerec_descends
  records := runsInMemory Descents.insertFilerec_descends
  tokens := runsInMemory Descents.insertFilerecTokenRb_descends

/-- Five tokens, one of them twice, and one removed: the memory is walked by address. -/
example : ((runNodes Descents.insertFilerecTokenRb 8 (.empty fun _ => ⟨none, .red, none, none⟩)
    ⟨[], fun x => ⟨x, x⟩⟩ ([.insert 5, .insert 3, .insert 4, .insert 3, .insert 1, .insert 2,
      .erase 4] : List (NodeOp Nat FilerecToken.tFile))).bind fun h =>
        (h.rbFirst 8).bind (h.rbWalk 8 8)) = some [1, 2, 3, 5] := by
  decide

end Duperemove.RbHeap
