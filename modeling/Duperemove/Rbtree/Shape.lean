-- SUMMARY: When the memory holds a colored tree, seen from one of its places, and what a write to some nodes leaves of it.
import Mathlib.Data.List.Nodup
import Duperemove.Rbtree

/-!
# Trees in memory

The memory holds a tree when each node has the color, the children and the parent that it
has in the tree, and no node occurs twice. A place of the tree is a subtree and the path
above it; `Holds` says what the memory is like at a place. It depends on the nodes of the
tree only, and on the root pointer.
-/

namespace Duperemove.RbHeap

open RedBlack (Color Side ColorTree Frame plug)
open RedBlack.ColorTree (build)

variable {ν : Type}

/-- The pointer to a tree. -/
def link : ColorTree ν → Option ν
  | .nil => none
  | .node _ _ x _ => some x

/-- The pointer to the parent of a place. -/
def parentOf : List (Frame ν) → Option ν
  | [] => none
  | f :: _ => some f.x

/-- The nodes off a place. -/
def nodesOf : List (Frame ν) → List ν
  | [] => []
  | f :: path => f.x :: f.far.inorder ++ nodesOf path

def IsTree (h : RbHeap ν) : Option ν → ColorTree ν → Prop
  | _, .nil => True
  | p, .node c left x right =>
    h.node x = ⟨p, c, link right, link left⟩ ∧ h.IsTree (some x) left ∧ h.IsTree (some x) right

/-- The nodes above a place where `hole` is linked. -/
def IsPath (h : RbHeap ν) : List (Frame ν) → Option ν → Prop
  | [], hole => h.rbNode = hole
  | f :: path, hole =>
    h.node f.x = ⟨parentOf path, f.color, f.side.pick (link f.far) hole,
      f.side.pick hole (link f.far)⟩ ∧
    h.IsTree (some f.x) f.far ∧ h.IsPath path (some f.x)

/-- The memory holds the tree with `t` at the end of `path`. -/
structure Holds (h : RbHeap ν) (t : ColorTree ν) (path : List (Frame ν)) : Prop where
  tree : h.IsTree (parentOf path) t
  above : h.IsPath path (link t)
  nodup : (t.inorder ++ nodesOf path).Nodup

/-- The nodes of the tree are the only ones that differ. -/
def SameOff (h h' : RbHeap ν) (t : ColorTree ν) (path : List (Frame ν)) : Prop :=
  ∀ z, z ∉ t.inorder → z ∉ nodesOf path → h'.node z = h.node z

section Shape

variable {h h' : RbHeap ν} {p q hole : Option ν} {s : Side} {c : Color}
  {t u near far left right : ColorTree ν} {x y : ν} {f : Frame ν} {path : List (Frame ν)}

@[simp] theorem link_build : link (build s c near x far) = some x := rfl

@[simp] theorem link_fill : link (f.fill t) = some f.x := rfl

@[simp] theorem link_paint : link (t.paint c) = link t := by cases t <;> rfl

theorem mem_of_link (h : link t = some x) : x ∈ t.inorder := by
  cases t with
  | nil => cases h
  | node c left y right =>
    cases h
    simp [ColorTree.inorder]

theorem exists_link (hred : t.color = .red) : ∃ x, link t = some x := by
  cases t with
  | nil => cases hred
  | node c left x right => exact ⟨x, rfl⟩

/-- A node, seen from one of its sides. -/
theorem node_eq_build : ColorTree.node c left x right =
    build s c (s.pick left right) x (s.pick right left) := by cases s <;> rfl

theorem mem_inorder_build :
    y ∈ (build s c near x far).inorder ↔ y = x ∨ y ∈ near.inorder ∨ y ∈ far.inorder := by
  cases s <;>
    simp only [RedBlack.inorder_build, Side.pick, List.mem_append, List.mem_cons] <;>
    tauto

theorem nodup_inorder_build : (build s c near x far).inorder.Nodup ↔
    x ∉ near.inorder ∧ x ∉ far.inorder ∧ near.inorder.Nodup ∧ far.inorder.Nodup ∧
      near.inorder.Disjoint far.inorder := by
  cases s
  · simp only [RedBlack.inorder_build, Side.pick, List.nodup_append', List.nodup_cons,
      List.disjoint_cons_right]
    tauto
  · have hcomm : far.inorder.Disjoint near.inorder ↔ near.inorder.Disjoint far.inorder :=
      List.disjoint_comm
    simp only [RedBlack.inorder_build, Side.pick, List.nodup_append', List.nodup_cons,
      List.disjoint_cons_right, hcomm]
    tauto

/-- The node at the root, seen from one of its sides. -/
theorem isTree_build : h.IsTree p (build s c near x far) ↔
    ((h.node x).rbParent = p ∧ (h.node x).rbColor = c ∧ (h.node x).child s = link near ∧
      (h.node x).child s.other = link far) ∧
    h.IsTree (some x) near ∧ h.IsTree (some x) far := by
  cases s
  all_goals
    simp only [build, IsTree, Side.pick, RbNode.ext_iff, RbNode.child, Side.other]
    tauto

theorem isPath_cons : h.IsPath (f :: path) hole ↔
    ((h.node f.x).rbParent = parentOf path ∧ (h.node f.x).rbColor = f.color ∧
      (h.node f.x).child f.side = hole ∧ (h.node f.x).child f.side.other = link f.far) ∧
    h.IsTree (some f.x) f.far ∧ h.IsPath path (some f.x) := by
  rw [IsPath]
  cases f.side with
  | left =>
    simp only [Side.pick, RbNode.ext_iff, RbNode.child, Side.other]
    tauto
  | right => simp only [Side.pick, RbNode.ext_iff, RbNode.child, Side.other]

theorem perm_fill :
    ((f.fill t).inorder ++ nodesOf path).Perm (t.inorder ++ nodesOf (f :: path)) := by
  rw [Frame.fill, RedBlack.inorder_build, nodesOf]
  cases f.side with
  | left => simp [Side.pick]
  | right =>
    have hturn : (f.x :: f.far.inorder ++ t.inorder).Perm (t.inorder ++ f.x :: f.far.inorder) :=
      List.perm_append_comm
    have hswap : (f.far.inorder ++ f.x :: t.inorder).Perm (t.inorder ++ f.x :: f.far.inorder) :=
      (List.perm_append_comm_assoc f.far.inorder [f.x] t.inorder).trans hturn
    simpa [Side.pick] using hswap.append_right (nodesOf path)

/-- The tree around a place is the same at each place on the path. -/
theorem holds_fill : h.Holds (f.fill t) path ↔ h.Holds t (f :: path) := by
  constructor
  · rintro ⟨htree, hpath, hnodup⟩
    obtain ⟨hnode, ht, hfar⟩ := isTree_build.1 htree
    exact ⟨ht, isPath_cons.2 ⟨hnode, hfar, hpath⟩, perm_fill.nodup_iff.1 hnodup⟩
  · rintro ⟨ht, hpath, hnodup⟩
    obtain ⟨hnode, hfar, hpath⟩ := isPath_cons.1 hpath
    exact ⟨isTree_build.2 ⟨hnode, ht, hfar⟩, hpath, perm_fill.nodup_iff.2 hnodup⟩

theorem holds_plug : h.Holds (plug t path) [] ↔ h.Holds t path := by
  induction path generalizing t with
  | nil => rfl
  | cons f path ih => rw [plug, ih, holds_fill]

theorem holds_append {a : List (Frame ν)} : h.Holds (plug t a) path ↔ h.Holds t (a ++ path) := by
  induction a generalizing t with
  | nil => rfl
  | cons f a ih => exact ih.trans holds_fill

theorem length_le_nodesOf : path.length ≤ (nodesOf path).length := by
  induction path with
  | nil => exact Nat.le_refl 0
  | cons f path ih =>
    simp only [nodesOf, List.length_cons, List.length_append]
    omega

theorem nodesOf_append {a : List (Frame ν)} : nodesOf (a ++ path) = nodesOf a ++ nodesOf path := by
  induction a with
  | nil => rfl
  | cons f a ih => simp [nodesOf, ih]

theorem perm_plug : (plug t path).inorder.Perm (t.inorder ++ nodesOf path) := by
  induction path generalizing t with
  | nil => simp [plug, nodesOf]
  | cons f path ih => exact ih.trans perm_fill

/-- The root above a place does not depend on what is there. -/
theorem exists_link_plug : ∃ x ∈ nodesOf (f :: path), ∀ t, link (plug t (f :: path)) = some x := by
  induction path generalizing f with
  | nil => exact ⟨f.x, List.mem_cons_self, fun t => rfl⟩
  | cons g path ih =>
    obtain ⟨x, hx, hlink⟩ := @ih g
    exact ⟨x, List.mem_append_right _ hx, fun t => hlink (f.fill t)⟩

/-- The two nodes above a place, with the trees off it and the rest of the path, are apart. -/
structure Apart (t : ColorTree ν) (f g : Frame ν) (path : List (Frame ν)) : Prop where
  nodup : (t.inorder ++ nodesOf (f :: g :: path)).Nodup
  ne : f.x ≠ g.x
  lower : f.x ∉ nodesOf path
  upper : g.x ∉ nodesOf path
  above : (nodesOf path).Nodup
  below : t.inorder.Nodup
  far : f.far.inorder.Nodup
  outer : g.far.inorder.Nodup
  of_below : ∀ z ∈ t.inorder,
    z ≠ f.x ∧ z ∉ f.far.inorder ∧ z ≠ g.x ∧ z ∉ g.far.inorder ∧ z ∉ nodesOf path
  of_far : ∀ z ∈ f.far.inorder,
    z ∉ t.inorder ∧ z ≠ f.x ∧ z ≠ g.x ∧ z ∉ g.far.inorder ∧ z ∉ nodesOf path
  of_outer : ∀ z ∈ g.far.inorder,
    z ∉ t.inorder ∧ z ≠ f.x ∧ z ∉ f.far.inorder ∧ z ≠ g.x ∧ z ∉ nodesOf path

theorem apart_of_nodup {g : Frame ν} (hnodup : (t.inorder ++ nodesOf (f :: g :: path)).Nodup) :
    Apart t f g path := by
  have hall := hnodup
  simp only [nodesOf, List.cons_append, List.nodup_append', List.nodup_cons, List.mem_append,
    List.mem_cons, not_or, List.disjoint_cons_right, List.disjoint_append_right] at hnodup
  obtain ⟨ht, ⟨⟨hff, hfg, hfgf, hfp⟩, hfar, ⟨⟨hgg, hgp⟩, houter, hpath, hop⟩, hgff, hfo, hfp'⟩,
    hft, htf, hgt, htg, htp⟩ := hnodup
  exact {
    nodup := hall
    ne := hfg, lower := hfp, upper := hgp, above := hpath, below := ht, far := hfar,
    outer := houter
    of_below := fun z hz => ⟨fun heq => hft (heq ▸ hz), fun hz' => htf hz hz',
      fun heq => hgt (heq ▸ hz), fun hz' => htg hz hz', fun hz' => htp hz hz'⟩
    of_far := fun z hz => ⟨fun hz' => htf hz' hz, fun heq => hff (heq ▸ hz),
      fun heq => hgff (heq ▸ hz), fun hz' => hfo hz hz', fun hz' => hfp' hz hz'⟩
    of_outer := fun z hz => ⟨fun hz' => htg hz' hz, fun heq => hfgf (heq ▸ hz),
      fun hz' => hfo hz' hz, fun heq => hgg (heq ▸ hz), fun hz' => hop hz hz'⟩ }

theorem Holds.apart {g : Frame ν} (hh : h.Holds t (f :: g :: path)) : Apart t f g path :=
  apart_of_nodup hh.nodup

/-- The same nodes make the same tree. -/
theorem IsTree.congr (ht : h.IsTree p t) (hsame : ∀ x ∈ t.inorder, h'.node x = h.node x) :
    h'.IsTree p t := by
  induction t generalizing p with
  | nil => trivial
  | node c left x right ihl ihr =>
    obtain ⟨hx, hl, hr⟩ := ht
    simp only [ColorTree.inorder, List.mem_append, List.mem_cons] at hsame
    exact ⟨(hsame x (.inr (.inl rfl))).trans hx, ihl hl fun y hy => hsame y (.inl hy),
      ihr hr fun y hy => hsame y (.inr (.inr hy))⟩

/-- A tree that is linked at another node, in another color. -/
theorem IsTree.rehang (ht : h.IsTree p t) (hnodup : t.inorder.Nodup)
    (hroot : ∀ x, link t = some x → h'.node x = (h.node x).setParentColor q c)
    (hsame : ∀ x ∈ t.inorder, link t ≠ some x → h'.node x = h.node x) :
    h'.IsTree q (t.paint c) := by
  cases t with
  | nil => trivial
  | node c' left x right =>
    obtain ⟨hx, hl, hr⟩ := ht
    simp only [ColorTree.inorder, List.nodup_append', List.nodup_cons, List.disjoint_cons_right]
      at hnodup
    obtain ⟨_, ⟨hxr, _⟩, hxl, _⟩ := hnodup
    refine ⟨?_, hl.congr fun y hy => ?_, hr.congr fun y hy => ?_⟩
    · rw [hroot x rfl, hx]
      rfl
    · refine hsame y (by simp [ColorTree.inorder, hy]) fun heq => hxl ?_
      cases heq
      exact hy
    · refine hsame y (by simp [ColorTree.inorder, hy]) fun heq => hxr ?_
      cases heq
      exact hy

theorem paint_color : t.paint t.color = t := by cases t <;> rfl

theorem IsTree.setParentColor_eq (ht : h.IsTree p t) (hx : link t = some x) :
    (h.node x).setParentColor p t.color = h.node x := by
  cases t with
  | nil => cases hx
  | node c left y right =>
    cases hx
    rw [ht.1]
    rfl

theorem IsTree.rbColor_eq (ht : h.IsTree p t) (hx : link t = some x) :
    (h.node x).rbColor = t.color := by
  cases t with
  | nil => cases hx
  | node c left y right =>
    cases hx
    rw [ht.1]
    rfl

/-- The color that a pointer leads to. -/
theorem IsTree.filter_red (ht : h.IsTree p t) :
    (link t).filter (fun x => (h.node x).rbColor = .red) =
      if t.color = .red then link t else none := by
  cases t with
  | nil => rfl
  | node c left x right =>
    rw [link, Option.filter_some, ht.1]
    cases c <;> rfl

theorem IsPath.congr (hpath : h.IsPath path hole)
    (hsame : ∀ x ∈ nodesOf path, h'.node x = h.node x) (hroot : h'.rbNode = h.rbNode) :
    h'.IsPath path hole := by
  induction path generalizing hole with
  | nil => exact hroot.trans hpath
  | cons f path ih =>
    simp only [nodesOf, List.cons_append, List.mem_cons, List.mem_append] at hsame
    obtain ⟨hf, hfar, hrest⟩ := hpath
    exact ⟨(hsame f.x (.inl rfl)).trans hf, hfar.congr fun y hy => hsame y (.inr (.inl hy)),
      ih hrest fun y hy => hsame y (.inr (.inr hy))⟩

end Shape

-- ---------------------------------------------------------------------------
-- Writes
-- ---------------------------------------------------------------------------

section Writes

variable [DecidableEq ν] {h h' : RbHeap ν} {x y old : ν} {p new parent : Option ν}
  {g : RbNode ν → RbNode ν} {path : List (Frame ν)} {c : Color}

@[simp] theorem node_write :
    (h.write x g).node y = if y = x then g (h.node y) else h.node y := rfl

@[simp] theorem rbNode_write : (h.write x g).rbNode = h.rbNode := rfl

theorem write_eq_self (hg : g (h.node x) = h.node x) : h.write x g = h := by
  have hnode : (h.write x g).node = h.node := by
    funext z
    by_cases hz : z = x
    · subst hz
      simpa using hg
    · simp [hz]
  exact congrArg (RbHeap.mk · h.rbNode) hnode

@[simp] theorem node_writeIf :
    (h.writeIf p g).node y = if p = some y then g (h.node y) else h.node y := by
  cases p with
  | none => rfl
  | some x =>
    simp only [writeIf, node_write, Option.some.injEq, eq_comm]

@[simp] theorem rbNode_writeIf : (h.writeIf p g).rbNode = h.rbNode := by cases p <;> rfl

/-- A node that is not the parent keeps its children. -/
theorem node_rbChangeChild (hne : parent ≠ some y) :
    (h.rbChangeChild old new parent).node y = h.node y := by
  cases parent with
  | none => rfl
  | some p =>
    have hyp : y ≠ p := fun heq => hne (congrArg some heq.symm)
    rw [rbChangeChild]
    split <;> simp [hyp]

/-- The link to a node is replaced, wherever it is. -/
theorem IsPath.changeChild (hpath : h.IsPath path (some old)) (hnodup : (nodesOf path).Nodup)
    (hold : old ∉ nodesOf path) : (h.rbChangeChild old new (parentOf path)).IsPath path new := by
  cases path with
  | nil => rfl
  | cons f path =>
    obtain ⟨⟨hparent, hcolor, hhole, hother⟩, hfar, hrest⟩ := isPath_cons.1 hpath
    simp only [nodesOf, List.cons_append, List.nodup_cons, List.mem_append, not_or] at hnodup
    simp only [nodesOf, List.cons_append, List.mem_cons, List.mem_append, not_or] at hold
    -- The test on the left child tells the side of the place.
    have hwrite : h.rbChangeChild old new (parentOf (f :: path)) =
        h.write f.x (RbNode.setChild f.side new) := by
      rw [parentOf, rbChangeChild]
      cases hside : f.side with
      | left =>
        rw [hside] at hhole
        exact if_pos hhole
      | right =>
        rw [hside] at hother
        refine if_neg fun heq => ?_
        exact hold.2.1 (mem_of_link (hother.symm.trans heq))
    rw [hwrite]
    refine isPath_cons.2 ⟨?_, hfar.congr fun y hy => ?_, hrest.congr (fun y hy => ?_) rfl⟩
    · simp [hparent, hcolor, hother]
    · have hne : y ≠ f.x := fun heq => hnodup.1.1 (heq ▸ hy)
      simp [hne]
    · have hne : y ≠ f.x := fun heq => hnodup.1.2 (heq ▸ hy)
      simp [hne]

omit [DecidableEq ν] in
theorem parentOf_ne (hy : y ∉ nodesOf path) : parentOf path ≠ some y := by
  cases path with
  | nil => exact nofun
  | cons f path =>
    rintro heq
    cases heq
    exact hy (by simp [nodesOf])

/-- What `__rb_rotate_set_parents` does to the nodes off the path. -/
theorem node_rbRotateSetParents {new : ν} (hparent : (h.node old).rbParent = parentOf path)
    (hne : old ≠ new) (hy : y ∉ nodesOf path) : (h.rbRotateSetParents old new c).node y =
      if y = old then (h.node y).setParentColor (some new) c
      else if y = new then (h.node y).setParentColor (parentOf path) (h.node old).rbColor
      else h.node y := by
  rw [rbRotateSetParents, hparent, node_rbChangeChild (parentOf_ne hy)]
  by_cases hold : y = old
  · simp [hold, hne]
  · simp [hold]

/-- And to the path: the other node is linked there. -/
theorem IsPath.rotateSetParents {new : ν} (hpath : h.IsPath path (some old))
    (hparent : (h.node old).rbParent = parentOf path) (hnodup : (nodesOf path).Nodup)
    (hold : old ∉ nodesOf path) (hnew : new ∉ nodesOf path) :
    (h.rbRotateSetParents old new c).IsPath path (some new) := by
  rw [rbRotateSetParents, hparent]
  refine IsPath.changeChild (hpath.congr (fun z hz => ?_) rfl) hnodup hold
  have hzo : z ≠ old := fun heq => hold (heq ▸ hz)
  have hzn : z ≠ new := fun heq => hnew (heq ▸ hz)
  simp [hzo, hzn]

end Writes

end Duperemove.RbHeap
