-- SUMMARY: rbtree.c on the memory of its nodes: linking, the repairs of an insertion and a removal, and the walk in order.
import Duperemove.Lib.Loop
import Duperemove.Lib.RedBlack

/-!
# Red-black trees in memory

`rbtree.c` and the functions of `rbtree_augmented.h` behind it, as writes to the nodes. A
node is known by its address. The word `__rb_parent_color` is a pointer with the color in
its low bit, here two fields. A program that follows a null pointer, or that takes the word
of a black node for a pointer, ends in `none`.

The two branches of each loop are mirror images, so each loop has one branch, with the side
that it works on. The callbacks of augmented trees do nothing in `rb_insert_color` and
`rb_erase`.
-/

namespace Duperemove

open RedBlack (Color Side)
open Loop (Next)

/-- `struct rb_node`. -/
@[ext]
structure RbNode (ν : Type) where
  rbParent : Option ν
  rbColor : Color
  rbRight : Option ν
  rbLeft : Option ν
  deriving DecidableEq, Repr

namespace RbNode

variable {ν : Type}

def child (n : RbNode ν) : Side → Option ν
  | .left => n.rbLeft
  | .right => n.rbRight

def setChild (s : Side) (p : Option ν) (n : RbNode ν) : RbNode ν :=
  match s with
  | .left => { n with rbLeft := p }
  | .right => { n with rbRight := p }

/-- `rb_set_parent_color`, on one node. -/
def setParentColor (p : Option ν) (c : Color) (n : RbNode ν) : RbNode ν :=
  { n with rbParent := p, rbColor := c }

def setParent (p : Option ν) (n : RbNode ν) : RbNode ν := { n with rbParent := p }

variable {n : RbNode ν} {s : Side} {p : Option ν} {c : Color}

@[simp] theorem child_setChild : (n.setChild s p).child s = p := by cases s <;> rfl

@[simp] theorem child_setChild_other : (n.setChild s p).child s.other = n.child s.other := by
  cases s <;> rfl

@[simp] theorem child_other_setChild : (n.setChild s.other p).child s = n.child s := by
  cases s <;> rfl

@[simp] theorem rbParent_setChild : (n.setChild s p).rbParent = n.rbParent := by cases s <;> rfl

@[simp] theorem rbColor_setChild : (n.setChild s p).rbColor = n.rbColor := by cases s <;> rfl

@[simp] theorem child_setParentColor : (n.setParentColor p c).child s = n.child s := by
  cases s <;> rfl

@[simp] theorem rbParent_setParentColor : (n.setParentColor p c).rbParent = p := rfl

@[simp] theorem rbColor_setParentColor : (n.setParentColor p c).rbColor = c := rfl

@[simp] theorem child_setParent : (n.setParent p).child s = n.child s := by cases s <;> rfl

@[simp] theorem rbParent_setParent : (n.setParent p).rbParent = p := rfl

@[simp] theorem rbColor_setParent : (n.setParent p).rbColor = n.rbColor := rfl

end RbNode

/-- The nodes in memory, and one `struct rb_root`. -/
structure RbHeap (ν : Type) where
  node : ν → RbNode ν
  rbNode : Option ν

namespace RbHeap

variable {ν : Type} [DecidableEq ν]

def write (h : RbHeap ν) (x : ν) (f : RbNode ν → RbNode ν) : RbHeap ν :=
  { h with node := fun y => if y = x then f (h.node y) else h.node y }

/-- A write behind a test that the pointer is not null. -/
def writeIf (h : RbHeap ν) (p : Option ν) (f : RbNode ν → RbNode ν) : RbHeap ν :=
  match p with
  | some x => h.write x f
  | none => h

/-- `rb_red_parent`, which does not mask the color. -/
def rbRedParent (h : RbHeap ν) (red : ν) : Option (Option ν) :=
  if (h.node red).rbColor = .red then some (h.node red).rbParent else none

/-- `RB_ROOT`. -/
def empty (node : ν → RbNode ν) : RbHeap ν := ⟨node, none⟩

/-- `rb_link_node`. The link is the one of `parent` on the side `s`, or the root. -/
def rbLinkNode (h : RbHeap ν) (node : ν) (parent : Option (ν × Side)) : RbHeap ν :=
  let h := h.write node fun _ => ⟨parent.map Prod.fst, .red, none, none⟩
  match parent with
  | some (p, s) => h.write p (RbNode.setChild s (some node))
  | none => { h with rbNode := some node }

/-- `__rb_change_child`. -/
def rbChangeChild (h : RbHeap ν) (old : ν) (new parent : Option ν) : RbHeap ν :=
  match parent with
  | some p =>
    if (h.node p).rbLeft = some old then h.write p (RbNode.setChild .left new)
    else h.write p (RbNode.setChild .right new)
  | none => { h with rbNode := new }

/-- `__rb_rotate_set_parents`. -/
def rbRotateSetParents (h : RbHeap ν) (old new : ν) (color : Color) : RbHeap ν :=
  let parent := (h.node old).rbParent
  let h := h.write new (RbNode.setParentColor (h.node old).rbParent (h.node old).rbColor)
  let h := h.write old (RbNode.setParentColor (some new) color)
  h.rbChangeChild old (some new) parent

-- ---------------------------------------------------------------------------
-- Insertion
-- ---------------------------------------------------------------------------

/-- The variables `node` and `parent` of a loop, and the memory. -/
structure Turn (ν : Type) where
  heap : RbHeap ν
  node : Option ν
  parent : Option ν

/-- Case 1 of `__rb_insert`: color flips. -/
def flipColors (h : RbHeap ν) (tmp parent gparent : ν) : RbHeap ν :=
  let h := h.write tmp (RbNode.setParentColor (some gparent) .black)
  let h := h.write parent (RbNode.setParentColor (some gparent) .black)
  h.write gparent (RbNode.setParentColor (h.node gparent).rbParent .red)

/-- Case 2 of `__rb_insert`: rotate at parent. -/
def rotateParent (s : Side) (h : RbHeap ν) (node parent : ν) : RbHeap ν :=
  let tmp := (h.node node).child s
  let h := h.write parent (RbNode.setChild s.other tmp)
  let h := h.write node (RbNode.setChild s (some parent))
  let h := h.writeIf tmp (RbNode.setParentColor (some parent) .black)
  h.write parent (RbNode.setParentColor (some node) .red)

/-- Case 3 of `__rb_insert`: rotate at gparent. -/
def rotateGparent (s : Side) (h : RbHeap ν) (parent gparent : ν) (tmp : Option ν) : RbHeap ν :=
  let h := h.write gparent (RbNode.setChild s tmp)
  let h := h.write parent (RbNode.setChild s.other (some gparent))
  let h := h.writeIf tmp (RbNode.setParentColor (some gparent) .black)
  h.rbRotateSetParents gparent parent .red

/-- The branch of `__rb_insert` where `parent` is the child of `gparent` on the side `s`. -/
def insertBranch (s : Side) (h : RbHeap ν) (node parent gparent : ν) :
    Next (Turn ν) (Option (RbHeap ν)) :=
  match ((h.node gparent).child s.other).filter fun tmp => (h.node tmp).rbColor = .red with
  | some tmp =>
    let h := h.flipColors tmp parent gparent
    .again ⟨h, some gparent, (h.node gparent).rbParent⟩
  | none =>
    let tmp := (h.node parent).child s.other
    if tmp = some node then
      let h := h.rotateParent s node parent
      .leave (some (h.rotateGparent s node gparent ((h.node node).child s.other)))
    else .leave (some (h.rotateGparent s parent gparent tmp))

/-- The body of the loop of `__rb_insert`. -/
def insertBody (t : Turn ν) : Next (Turn ν) (Option (RbHeap ν)) :=
  match t.node, t.parent with
  | none, _ => .leave none
  | some node, none => .leave (some (t.heap.write node (RbNode.setParentColor none .black)))
  | some node, some parent =>
    if (t.heap.node parent).rbColor = .black then .leave (some t.heap)
    else
      match t.heap.rbRedParent parent with
      | some (some gparent) =>
        if (t.heap.node gparent).rbRight ≠ some parent then
          insertBranch .left t.heap node parent gparent
        else insertBranch .right t.heap node parent gparent
      | _ => .leave none

def rbInsertColor (fuel : Nat) (h : RbHeap ν) (node : ν) : Option (RbHeap ν) := do
  let parent ← h.rbRedParent node
  (Loop.run insertBody fuel ⟨h, some node, parent⟩).join

-- ---------------------------------------------------------------------------
-- Removal
-- ---------------------------------------------------------------------------

/-- Case 4 of `____rb_erase_color`: rotate at parent, and color flips. -/
def eraseRotate (s : Side) (h : RbHeap ν) (parent sibling : ν) (tmp1 : Option ν) :
    Option (RbHeap ν) := do
  let tmp2 := (h.node sibling).child s
  let h := h.write parent (RbNode.setChild s.other tmp2)
  let h := h.write sibling (RbNode.setChild s (some parent))
  let tmp1 ← tmp1
  let h := h.write tmp1 (RbNode.setParentColor (some sibling) .black)
  let h := h.writeIf tmp2 (RbNode.setParent (some parent))
  return h.rbRotateSetParents parent sibling .black

/-- Case 1 of `____rb_erase_color`: rotate at parent. The memory and the new sibling. -/
def eraseRotateRed (s : Side) (h : RbHeap ν) (parent sibling : ν) : Option (RbHeap ν × ν) := do
  let tmp1 := (h.node sibling).child s
  let h := h.write parent (RbNode.setChild s.other tmp1)
  let h := h.write sibling (RbNode.setChild s (some parent))
  let tmp1 ← tmp1
  let h := h.write tmp1 (RbNode.setParentColor (some parent) .black)
  return (h.rbRotateSetParents parent sibling .red, tmp1)

/-- Cases 2 to 4 of `____rb_erase_color`, with a black sibling. -/
def eraseLend (s : Side) (h : RbHeap ν) (parent sibling : ν) :
    Next (Turn ν) (Option (RbHeap ν)) :=
  let tmp1 := (h.node sibling).child s.other
  match tmp1.filter fun tmp1 => (h.node tmp1).rbColor = .red with
  | some tmp1 => .leave (eraseRotate s h parent sibling (some tmp1))
  | none =>
    match ((h.node sibling).child s).filter fun tmp2 => (h.node tmp2).rbColor = .red with
    | none =>
      -- Case 2: sibling color flip.
      let h := h.write sibling (RbNode.setParentColor (some parent) .red)
      if (h.node parent).rbColor = .red then
        .leave (some (h.write parent fun n => { n with rbColor := .black }))
      else
        match (h.node parent).rbParent with
        | some gparent => .again ⟨h, some parent, some gparent⟩
        | none => .leave (some h)
    | some tmp2 =>
      -- Case 3: rotate at sibling.
      let tmp1 := (h.node tmp2).child s.other
      let h := h.write sibling (RbNode.setChild s tmp1)
      let h := h.write tmp2 (RbNode.setChild s.other (some sibling))
      let h := h.write parent (RbNode.setChild s.other (some tmp2))
      let h := h.writeIf tmp1 (RbNode.setParentColor (some sibling) .black)
      .leave (eraseRotate s h parent tmp2 (some sibling))

/-- The branch of `____rb_erase_color` where `node` is the child of `parent` on the side `s`. -/
def eraseBranch (s : Side) (h : RbHeap ν) (parent : ν) : Next (Turn ν) (Option (RbHeap ν)) :=
  match (h.node parent).child s.other with
  | none => .leave none
  | some sibling =>
    if (h.node sibling).rbColor = .red then
      match eraseRotateRed s h parent sibling with
      | some (h, sibling) => eraseLend s h parent sibling
      | none => .leave none
    else eraseLend s h parent sibling

/-- The body of the loop of `____rb_erase_color`. -/
def eraseBody (t : Turn ν) : Next (Turn ν) (Option (RbHeap ν)) :=
  match t.parent with
  | none => .leave none
  | some parent =>
    if (t.heap.node parent).rbRight ≠ t.node then eraseBranch .left t.heap parent
    else eraseBranch .right t.heap parent

def rbEraseColor (fuel : Nat) (h : RbHeap ν) (parent : ν) : Option (RbHeap ν) :=
  (Loop.run eraseBody fuel ⟨h, none, some parent⟩).join

/-- The loop of `__rb_erase_augmented` that goes to the leftmost node: from `parent` and its
    left child to the last such pair. -/
def leftmostBody (h : RbHeap ν) : ν × ν → Next (ν × ν) (ν × ν)
  | (parent, successor) =>
    match (h.node successor).rbLeft with
    | some tmp => .again (successor, tmp)
    | none => .leave (parent, successor)

/-- Cases 2 and 3 of `__rb_erase_augmented`: the successor leaves its place. The memory, the
    successor, the node `parent` that lost a child, and the child that came up. -/
def takeSuccessor (fuel : Nat) (h : RbHeap ν) (child : ν) :
    Option (RbHeap ν × ν × ν × Option ν) :=
  match (h.node child).rbLeft with
  | none => some (h, child, child, (h.node child).rbRight)
  | some tmp => do
    let (parent, successor) ← Loop.run h.leftmostBody fuel (child, tmp)
    let child2 := (h.node successor).rbRight
    let h := h.write parent (RbNode.setChild .left child2)
    let h := h.write successor (RbNode.setChild .right (some child))
    let h := h.write child (RbNode.setParent (some successor))
    return (h, successor, parent, child2)

/-- The end of cases 2 and 3 of `__rb_erase_augmented`: the successor takes the place of `node`. -/
def placeSuccessor (h : RbHeap ν) (node successor parent : ν) (child2 : Option ν) :
    Option (RbHeap ν × Option ν) := do
  let tmp := (h.node node).rbLeft
  let h := h.write successor (RbNode.setChild .left tmp)
  let tmp ← tmp
  let h := h.write tmp (RbNode.setParent (some successor))
  let pc := h.node node
  let h := h.rbChangeChild node (some successor) pc.rbParent
  match child2 with
  | some child2 =>
    let h := h.write successor (RbNode.setParentColor pc.rbParent pc.rbColor)
    return (h.write child2 (RbNode.setParentColor (some parent) .black), none)
  | none =>
    let pc2 := h.node successor
    let h := h.write successor (RbNode.setParentColor pc.rbParent pc.rbColor)
    return (h, if pc2.rbColor = .black then some parent else none)

/-- `__rb_erase_augmented`: the memory, and where to rebalance. -/
def rbEraseAugmented (fuel : Nat) (h : RbHeap ν) (node : ν) : Option (RbHeap ν × Option ν) :=
  match (h.node node).rbLeft, (h.node node).rbRight with
  | none, child =>
    -- Case 1: no more than one child.
    let pc := h.node node
    let h := h.rbChangeChild node child pc.rbParent
    match child with
    | some child => some (h.write child (RbNode.setParentColor pc.rbParent pc.rbColor), none)
    | none => some (h, if pc.rbColor = .black then pc.rbParent else none)
  | some tmp, none =>
    let pc := h.node node
    let h := h.write tmp (RbNode.setParentColor pc.rbParent pc.rbColor)
    some (h.rbChangeChild node (some tmp) pc.rbParent, none)
  | some _, some child => do
    let (h, successor, parent, child2) ← h.takeSuccessor fuel child
    h.placeSuccessor node successor parent child2

/-- The end of `rb_erase`. -/
def rebalanceAt (fuel : Nat) (h : RbHeap ν) : Option ν → Option (RbHeap ν)
  | none => some h
  | some rebalance => h.rbEraseColor fuel rebalance

def rbErase (fuel : Nat) (h : RbHeap ν) (node : ν) : Option (RbHeap ν) := do
  let (h, rebalance) ← h.rbEraseAugmented fuel node
  h.rebalanceAt fuel rebalance

-- ---------------------------------------------------------------------------
-- The walk in order
-- ---------------------------------------------------------------------------

def firstBody (h : RbHeap ν) (n : ν) : Next ν ν :=
  match (h.node n).rbLeft with
  | some left => .again left
  | none => .leave n

def rbFirst (fuel : Nat) (h : RbHeap ν) : Option (Option ν) :=
  match h.rbNode with
  | none => some none
  | some n => (Loop.run h.firstBody fuel n).map some

/-- The loop of `rb_next` that goes up. -/
def nextBody (h : RbHeap ν) (node : ν) : Next ν (Option ν) :=
  match (h.node node).rbParent with
  | none => .leave none
  | some parent =>
    if (h.node parent).rbRight = some node then .again parent else .leave (some parent)

/-- `rb_next`. A node that is its own parent, and red, is in no tree. -/
def rbNext (fuel : Nat) (h : RbHeap ν) (node : ν) : Option (Option ν) :=
  if (h.node node).rbParent = some node ∧ (h.node node).rbColor = .red then some none
  else
    match (h.node node).rbRight with
    | some right => (Loop.run h.firstBody fuel right).map some
    | none => Loop.run h.nextBody fuel node

end RbHeap

end Duperemove
