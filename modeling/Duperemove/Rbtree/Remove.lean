-- SUMMARY: rb_erase in memory: a node leaves its place, and its child or its successor takes it.
import Duperemove.Rbtree.Erase

/-!
# Removal in memory

`rb_erase` on a memory that holds a red-black tree. A node with at most one child is replaced
by it. With two children its successor takes its place, and the child of the successor takes
the place of the successor. Where a black leaf left its place, the tree is repaired above it.
-/

namespace Duperemove.RbHeap

open RedBlack (Color Side ColorTree Frame plug)
open RedBlack.ColorTree (build)

variable {ν : Type} {h h' : RbHeap ν} {t left right : ColorTree ν} {f : Frame ν}
  {path : List (Frame ν)} {c cs : Color} {n s : ν} {p q : Option ν}

/-- A tree that takes the place of another one. -/
theorem Holds.replace {u : ColorTree ν} {k : Color} (hnodup : (u.inorder ++ nodesOf path).Nodup)
    (hu : h.IsTree q u)
    (hroot : ∀ z, link u = some z → h'.node z = (h.node z).setParentColor (parentOf path) k)
    (hsame : ∀ z ∈ u.inorder, link u ≠ some z → h'.node z = h.node z)
    (hpath : h'.IsPath path (link u)) : h'.Holds (u.paint k) path := by
  refine ⟨hu.rehang (List.nodup_append'.1 hnodup).1 hroot hsame, ?_, ?_⟩
  · rwa [link_paint]
  · rwa [RedBlack.inorder_paint]

/-- A node that takes the place of another one, with its children and its color. -/
theorem Holds.takePlace (hh : h.Holds (.node c left n right) path)
    (hs : s ∉ left.inorder ∧ s ∉ right.inorder ∧ s ∉ nodesOf path)
    (hnode : h'.node s = ⟨parentOf path, c, link right, link left⟩)
    (hleft : ∀ z, link left = some z → h'.node z = (h.node z).setParent (some s))
    (hright : ∀ z, link right = some z → h'.node z = (h.node z).setParent (some s))
    (hsame : ∀ z, z ∈ left.inorder ∨ z ∈ right.inorder → link left ≠ some z → link right ≠ some z →
      h'.node z = h.node z)
    (hpath : h'.IsPath path (some s)) : h'.Holds (.node c left s right) path := by
  obtain ⟨⟨hn, hl, hr⟩, -, hnodup⟩ := hh
  simp only [ColorTree.inorder, List.nodup_append', List.nodup_cons, List.disjoint_cons_right,
    List.disjoint_append_left, List.disjoint_cons_left] at hnodup
  obtain ⟨⟨hlnodup, ⟨hnr, hrnodup⟩, hnl, hlr⟩, hpnodup, hlp, hnp, hrp⟩ := hnodup
  refine ⟨⟨hnode, ?_, ?_⟩, hpath, ?_⟩
  · have htree : h'.IsTree (some s) (left.paint left.color) := hl.rehang hlnodup
      (fun z hz => by rw [hleft z hz, ← hl.rbColor_eq hz]; rfl)
      fun z hz hne => hsame z (.inl hz) hne fun heq => hlr hz (mem_of_link heq)
    rwa [paint_color] at htree
  · have htree : h'.IsTree (some s) (right.paint right.color) := hr.rehang hrnodup
      (fun z hz => by rw [hright z hz, ← hr.rbColor_eq hz]; rfl)
      fun z hz hne => hsame z (.inr hz) (fun heq => hlr (mem_of_link heq) hz) hne
    rwa [paint_color] at htree
  · simp only [ColorTree.inorder, List.nodup_append', List.nodup_cons, List.disjoint_cons_right,
      List.disjoint_append_left, List.disjoint_cons_left]
    exact ⟨⟨hlnodup, ⟨hs.2.1, hrnodup⟩, hs.1, hlr⟩, hpnodup, hlp, hs.2.2, hrp⟩

/-- The loop of `__rb_erase_augmented` goes to the leftmost node. -/
theorem IsTree.run_leftmostBody {fuel : Nat} {child : ColorTree ν} {above : List (Frame ν)} {x : ν}
    (ht : h.IsTree p t) (hx : link t = some x)
    (hleft : RedBlack.leftmost t (f :: path) = some (cs, s, child, above))
    (hfuel : t.height ≤ fuel) :
    ∃ pp, parentOf above = some pp ∧ Loop.run h.leftmostBody fuel (f.x, x) = some (pp, s) := by
  induction t generalizing p f path x fuel with
  | nil => cases hx
  | node c l y r ihl ihr =>
    cases hx
    obtain ⟨fuel, rfl⟩ := Nat.exists_eq_succ_of_ne_zero
      (Nat.ne_zero_of_lt (Nat.lt_of_lt_of_le (Nat.succ_pos _) hfuel))
    obtain ⟨hy, hl, -⟩ := ht
    cases l with
    | nil =>
      cases hleft
      refine ⟨f.x, rfl, Loop.run_leave ?_ fuel⟩
      rw [leftmostBody, hy]
      rfl
    | node cl ll z lr =>
      rw [RedBlack.leftmost.eq_3 _ _ _ _ _ (by simp)] at hleft
      have hheight : (ColorTree.node cl ll z lr).height ≤ fuel := by
        rw [ColorTree.height] at hfuel
        omega
      obtain ⟨pp, hpp, hrun⟩ := ihl hl rfl hleft hheight
      refine ⟨pp, hpp, (Loop.run_again ?_ fuel).trans hrun⟩
      rw [leftmostBody, hy]
      rfl

-- ---------------------------------------------------------------------------
-- Rebalancing
-- ---------------------------------------------------------------------------

section Removal

variable [DecidableEq ν] {child : ColorTree ν} {c' : Color} {k m fuel : Nat}

/-- `__rb_erase_augmented` tells where to rebalance, and the loop does. -/
theorem Holds.rebalance (hh : h.Holds (child.paint c') path) (hfits : RedBlack.Fits path c k)
    (hbelow : (c = .red ∧ k = m) ∨ (c = .black ∧ k = m + 1))
    (hchild : (child = .nil ∧ m = 0) ∨ (RedBlack.Balanced child .red m ∧ c = .black))
    (hfuel : path.length ≤ fuel) :
    ∃ h', h.rebalanceAt fuel (if link child = none ∧ c = .black then parentOf path else none) =
        some h' ∧
      h'.Holds (RedBlack.splice c c' child path) [] ∧ SameOff h h' child path := by
  rcases hchild with ⟨rfl, rfl⟩ | ⟨hred, rfl⟩
  · rcases hbelow with ⟨rfl, rfl⟩ | ⟨rfl, rfl⟩
    · exact ⟨h, rfl, holds_plug.2 hh, fun z _ _ => rfl⟩
    · cases path with
      | nil => exact ⟨h, rfl, hh, fun z _ _ => rfl⟩
      | cons f path =>
        obtain ⟨h', hrun, hholds, hoff⟩ := hh.run_eraseBody hfits .nil hfuel
        refine ⟨h', ?_, hholds, hoff⟩
        exact congrArg Option.join hrun
  · cases hred with
    | red hl hr => exact ⟨h, rfl, holds_plug.2 hh, fun z _ _ => rfl⟩

-- ---------------------------------------------------------------------------
-- Case 1
-- ---------------------------------------------------------------------------

/-- Writes to two nodes, in any order. -/
theorem rbChangeChild_writeIf {F : RbNode ν → RbNode ν} {new parent : Option ν}
    (hne : ∀ x, q = some x → parent ≠ some x) :
    (h.writeIf q F).rbChangeChild n new parent = (h.rbChangeChild n new parent).writeIf q F := by
  cases q with
  | none => rfl
  | some x =>
    cases parent with
    | none => rfl
    | some y =>
      have hyx : y ≠ x := fun heq => hne x rfl (congrArg some heq)
      have hswap : ∀ G : RbNode ν → RbNode ν,
          (h.write x F).write y G = (h.write y G).write x F := by
        intro G
        refine congrArg (RbHeap.mk · h.rbNode) (funext fun z => ?_)
        by_cases hz : z = y
        · subst hz
          simp [hyx]
        · by_cases hzx : z = x <;> simp [hz]
      simp only [rbChangeChild, writeIf, node_write, if_neg hyx, hswap]
      split <;> rfl

/-- The memory behind case 1, where `child` takes the place of a node. -/
theorem Holds.unlink {s : Side} {x : ν} (hh : h.Holds (build s c child x .nil) path) (k : Color) :
    ((h.rbChangeChild x (link child) (parentOf path)).writeIf (link child)
        (RbNode.setParentColor (parentOf path) k)).Holds (child.paint k) path ∧
      SameOff h ((h.rbChangeChild x (link child) (parentOf path)).writeIf (link child)
        (RbNode.setParentColor (parentOf path) k)) child path := by
  obtain ⟨htree, hpath, hnodup⟩ := hh
  obtain ⟨-, hchild, -⟩ := isTree_build.1 htree
  obtain ⟨hbuild, hpnodup, hdisj⟩ := List.nodup_append'.1 hnodup
  obtain ⟨hx, -, hcnodup, -, -⟩ := nodup_inorder_build.1 hbuild
  have hout : ∀ z, z = x ∨ z ∈ child.inorder → z ∉ nodesOf path := fun z hz hz' =>
    hdisj (mem_inorder_build.2 (by tauto)) hz'
  have hnode : ∀ z, z ∉ nodesOf path → (h.rbChangeChild x (link child) (parentOf path)).node z =
      h.node z := fun z hz => node_rbChangeChild (parentOf_ne hz)
  refine ⟨Holds.replace ?_ hchild (fun z hz => ?_) (fun z hz hne => ?_) ?_, fun z hz hzpath => ?_⟩
  · exact List.nodup_append'.2 ⟨hcnodup, hpnodup, fun z hz => hout z (.inr hz)⟩
  · rw [node_writeIf, if_pos hz, hnode z (hout z (.inr (mem_of_link hz)))]
  · rw [node_writeIf, if_neg hne, hnode z (hout z (.inr hz))]
  · refine (hpath.changeChild hpnodup (hout x (.inl rfl))).congr (fun z hz => ?_) (by simp)
    rw [node_writeIf, if_neg fun heq => hout z (.inr (mem_of_link heq)) hz]
  · rw [node_writeIf, if_neg fun heq => hz (mem_of_link heq), hnode z hzpath]

theorem rbErase_of_augmented {rebalance : Option ν}
    (h₁ : h.rbEraseAugmented fuel n = some (h', rebalance)) :
    h.rbErase fuel n = h'.rebalanceAt fuel rebalance := by
  rw [RbHeap.rbErase, h₁]
  rfl

/-- The removal of a node with no left child. -/
theorem Holds.rbErase_left (hh : h.Holds (.node c .nil n right) path)
    (hfits : RedBlack.Fits path c k) (ht : RedBlack.Balanced (.node c .nil n right) c k)
    (hfuel : path.length ≤ fuel) :
    ∃ h', h.rbErase fuel n = some h' ∧ h'.Holds (RedBlack.erase c .nil right path) [] ∧
      SameOff h h' right path := by
  obtain ⟨hn, -, -⟩ := hh.tree
  have hbuild : h.Holds (build .right c right n .nil) path := hh
  obtain ⟨hholds, hoff⟩ := hbuild.unlink c
  obtain ⟨m, hbelow, hchild⟩ := ht.only_child
  obtain ⟨h', hrun, hholds', hoff'⟩ := hholds.rebalance hfits hbelow hchild hfuel
  refine ⟨h', ?_, hholds', fun z hz hzpath => (hoff' z hz hzpath).trans (hoff z hz hzpath)⟩
  refine (rbErase_of_augmented ?_).trans hrun
  rw [RbHeap.rbEraseAugmented, hn]
  cases right with
  | nil => cases c <;> rfl
  | node cr l x r => rfl

/-- The removal of a node with a left child only, which is red. -/
theorem Holds.rbErase_right {cl : Color} {l r : ColorTree ν} {x : ν}
    (hh : h.Holds (.node c (.node cl l x r) n .nil) path) (fuel : Nat) :
    ∃ h', h.rbErase fuel n = some h' ∧
      h'.Holds (RedBlack.erase c (.node cl l x r) .nil path) [] ∧
      SameOff h h' (.node cl l x r) path := by
  obtain ⟨hn, -, -⟩ := hh.tree
  have hbuild : h.Holds (build .left c (.node cl l x r) n .nil) path := hh
  obtain ⟨hholds, hoff⟩ := hbuild.unlink c
  have hswap : ∀ F, (h.writeIf (some x) F).rbChangeChild n (some x) (parentOf path) =
      (h.rbChangeChild n (some x) (parentOf path)).writeIf (some x) F := by
    intro F
    refine rbChangeChild_writeIf fun z hz => ?_
    cases hz
    refine parentOf_ne fun hz => ?_
    have hnodup := hh.nodup
    simp only [ColorTree.inorder, List.nodup_append', List.disjoint_append_left,
      List.disjoint_cons_left] at hnodup
    exact hnodup.2.2.1.2.1 hz
  have haug : h.rbEraseAugmented fuel n = some ((h.rbChangeChild n (some x) (parentOf path)).writeIf
      (some x) (RbNode.setParentColor (parentOf path) c), none) := by
    rw [RbHeap.rbEraseAugmented, hn]
    exact congrArg (fun h => some (h, none)) (hswap _)
  exact ⟨_, rbErase_of_augmented haug, holds_plug.2 hholds, hoff⟩

-- ---------------------------------------------------------------------------
-- Cases 2 and 3
-- ---------------------------------------------------------------------------

/-- What the end of both cases does to each node off the path, and to the path. -/
theorem placeSuccessor_eq (h : RbHeap ν) {n s l : ν} (pp : ν) {child2 : Option ν}
    (hn : (h.node n).rbParent = parentOf path ∧ (h.node n).rbColor = c ∧
      (h.node n).rbLeft = some l)
    (hns : n ≠ s) (hnl : n ≠ l) (hsl : s ≠ l) (h2s : child2 ≠ some s) (h2l : child2 ≠ some l)
    (hnp : n ∉ nodesOf path) (hsp : s ∉ nodesOf path) (hlp : l ∉ nodesOf path)
    (h2p : ∀ z ∈ nodesOf path, child2 ≠ some z) :
    ∃ h', h.placeSuccessor n s pp child2 =
        some (h', if child2 = none ∧ (h.node s).rbColor = .black then some pp else none) ∧
      (∀ z, z ∉ nodesOf path → h'.node z =
        if child2 = some z then (h.node z).setParentColor (some pp) .black
        else if z = s then
          ((h.node z).setChild .left (some l)).setParentColor (parentOf path) c
        else if z = l then (h.node z).setParent (some s)
        else h.node z) ∧
      ((nodesOf path).Nodup → h.IsPath path (some n) → h'.IsPath path (some s)) := by
  obtain ⟨hparent, hcolor, hleft⟩ := hn
  -- The memory behind the last write, in front of the color of the successor being read.
  obtain ⟨h₁, hh₁, hnode, hpath⟩ : ∃ h₁, h₁ = (((h.write s (RbNode.setChild .left (some l))).write l
      (RbNode.setParent (some s))).rbChangeChild n (some s) (parentOf path)) ∧
      (∀ z, z ∉ nodesOf path → h₁.node z = if z = l then (h.node z).setParent (some s)
        else if z = s then (h.node z).setChild .left (some l) else h.node z) ∧
      ((nodesOf path).Nodup → h.IsPath path (some n) → h₁.IsPath path (some s)) := by
    refine ⟨_, rfl, fun z hz => ?_, fun hnodup hpath => ?_⟩
    · rw [node_rbChangeChild (parentOf_ne hz)]
      by_cases hzl : z = l
      · subst hzl
        simp [hsl.symm]
      · simp [hzl]
    · refine IsPath.changeChild (hpath.congr (fun z hz => ?_) rfl) hnodup hnp
      have hzl : z ≠ l := fun heq => hlp (heq ▸ hz)
      have hzs : z ≠ s := fun heq => hsp (heq ▸ hz)
      simp [hzl, hzs]
  refine ⟨(h₁.write s (RbNode.setParentColor (parentOf path) c)).writeIf child2
    (RbNode.setParentColor (some pp) .black), ?_, fun z hz => ?_, fun hnodup hn => ?_⟩
  · have hcs : (h₁.node s).rbColor = (h.node s).rbColor := by
      rw [hnode s hsp, if_neg hsl, if_pos rfl, RbNode.rbColor_setChild]
    have hn₁ : ((h.write s (RbNode.setChild .left (some l))).write l
        (RbNode.setParent (some s))).node n = h.node n := by simp [hns, hnl]
    rw [← hcs, RbHeap.placeSuccessor, hleft]
    simp only [Option.bind_eq_bind, Option.bind_some, hn₁, hparent, hcolor]
    rw [← hh₁]
    cases child2 with
    | none => simp [writeIf]
    | some k => simp [writeIf]
  · have hz₁ := hnode z hz
    by_cases hz2 : child2 = some z
    · have hzs : z ≠ s := fun heq => h2s (heq ▸ hz2)
      have hzl : z ≠ l := fun heq => h2l (heq ▸ hz2)
      simp [hz2, hzs, hzl, hz₁]
    · by_cases hzs : z = s
      · subst hzs
        simp [hz2, hsl, hz₁]
      · simp [hz2, hzs, hz₁]
  · refine (hpath hnodup hn).congr (fun z hz => ?_) (by simp)
    have hzs : z ≠ s := fun heq => hsp (heq ▸ hz)
    simp [h2p z hz, hzs]

/-- Case 2: the successor is the right child. -/
theorem Holds.placeNext {l : ν} (hh : h.Holds (.node c left n (.node cs .nil s child)) path)
    (hl : link left = some l) :
    ∃ h', h.placeSuccessor n s s (link child) =
        some (h', if link child = none ∧ cs = .black then some s else none) ∧
      h'.Holds (child.paint .black) (⟨.right, c, s, left⟩ :: path) ∧
      SameOff h h' (.node c left n (.node cs .nil s child)) path := by
  obtain ⟨⟨hn, hleft, hs, -, -⟩, hpath, hnodup⟩ := id hh
  simp only [ColorTree.inorder, List.nil_append, List.nodup_append', List.nodup_cons,
    List.mem_cons, not_or, List.disjoint_cons_right, List.disjoint_cons_left,
    List.disjoint_append_left] at hnodup
  obtain ⟨⟨-, ⟨⟨hns, hnc⟩, hsc, -⟩, hnl, hsl, hlc⟩, hpnodup, hlp, hnp, hsp, hcp⟩ := hnodup
  have hlmem := mem_of_link hl
  have hnel : n ≠ l := fun heq => hnl (heq ▸ hlmem)
  have hsel : s ≠ l := fun heq => hsl (heq ▸ hlmem)
  have hnfields : (h.node n).rbParent = parentOf path ∧ (h.node n).rbColor = c ∧
      (h.node n).rbLeft = some l := by rw [hn, hl]; exact ⟨rfl, rfl, rfl⟩
  obtain ⟨h', heq, hnode, hpath'⟩ := placeSuccessor_eq h s hnfields hns hnel hsel
    (fun heq => hsc (mem_of_link heq)) (fun heq => hlc hlmem (mem_of_link heq)) hnp hsp
    (fun hz => hlp hlmem hz) fun z hz heq => hcp (mem_of_link heq) hz
  have hcolor : (h.node s).rbColor = cs := by rw [hs]
  rw [hcolor] at heq
  refine ⟨h', heq, holds_fill.1 ?_, fun z hz hzpath => ?_⟩
  · -- The successor first leaves its own place, then takes the other one.
    have hbelow : h.Holds (build .right cs child s .nil) (⟨.right, c, n, left⟩ :: path) :=
      holds_fill.1 hh
    obtain ⟨hholds, -⟩ := hbelow.unlink .black
    have hbase : ∀ z, z ≠ n → ((h.rbChangeChild s (link child) (some n)).writeIf (link child)
        (RbNode.setParentColor (some n) .black)).node z = if link child = some z then
          (h.node z).setParentColor (some n) .black else h.node z := by
      intro z hz
      rw [node_writeIf, node_rbChangeChild fun heq => hz (Option.some.inj heq).symm]
    have hleft_ne : ∀ z ∈ left.inorder,
        z ∉ nodesOf path ∧ z ≠ n ∧ z ≠ s ∧ link child ≠ some z := fun z hz =>
      ⟨fun hz' => hlp hz hz', fun heq => hnl (heq ▸ hz), fun heq => hsl (heq ▸ hz),
        fun heq => hlc hz (mem_of_link heq)⟩
    have hchild_ne : ∀ z ∈ child.inorder, z ∉ nodesOf path ∧ z ≠ n ∧ z ≠ s ∧ z ≠ l := fun z hz =>
      ⟨fun hz' => hcp hz hz', fun heq => hnc (heq ▸ hz), fun heq => hsc (heq ▸ hz),
        fun heq => hlc hlmem (heq ▸ hz)⟩
    have hmid : ((h.rbChangeChild s (link child) (some n)).writeIf (link child)
        (RbNode.setParentColor (some n) .black)).Holds (.node c left n (child.paint .black)) path :=
      holds_fill.2 hholds
    refine hmid.takePlace ⟨hsl, ?_, hsp⟩ ?_ (fun z hz => ?_) (fun z hz => ?_)
      (fun z hz hne hne' => ?_) (hpath' hpnodup hpath)
    · rwa [RedBlack.inorder_paint]
    · rw [hnode s hsp, if_neg fun heq => hsc (mem_of_link heq), if_pos rfl, hs, hl, link_paint]
      rfl
    · obtain rfl := Option.some.inj (hl.symm.trans hz)
      obtain ⟨hzp, hzn, hzs, hzc⟩ := hleft_ne l hlmem
      rw [hnode l hzp, if_neg hzc, if_neg hzs, if_pos rfl]
      exact congrArg _ ((hbase l hzn).trans (if_neg hzc)).symm
    · rw [link_paint] at hz
      obtain ⟨hzp, hzn, hzs, hzl⟩ := hchild_ne z (mem_of_link hz)
      rw [hnode z hzp, if_pos hz]
      exact congrArg (RbNode.setParent (some s)) ((hbase z hzn).trans (if_pos hz)).symm
    · rw [link_paint] at hne'
      rw [RedBlack.inorder_paint] at hz
      have hzl : z ≠ l := fun heq => hne (heq ▸ hl)
      obtain ⟨hzp, hzn, hzs⟩ : z ∉ nodesOf path ∧ z ≠ n ∧ z ≠ s := by
        rcases hz with hz | hz
        · exact ⟨(hleft_ne z hz).1, (hleft_ne z hz).2.1, (hleft_ne z hz).2.2.1⟩
        · exact ⟨(hchild_ne z hz).1, (hchild_ne z hz).2.1, (hchild_ne z hz).2.2.1⟩
      rw [hnode z hzp, if_neg hne', if_neg hzs, if_neg hzl]
      exact ((hbase z hzn).trans (if_neg hne')).symm
  · simp only [ColorTree.inorder, List.nil_append, List.mem_append, List.mem_cons, not_or] at hz
    obtain ⟨hzl, hzn, hzs, hzc⟩ := hz
    rw [hnode z hzpath, if_neg fun heq => hzc (mem_of_link heq), if_neg hzs,
      if_neg fun heq => hzl (by rw [heq]; exact hlmem)]

omit [DecidableEq ν] in
/-- The memory at the place of the successor. -/
theorem Holds.leftmost {above : List (Frame ν)} (hh : h.Holds (.node c left n right) path)
    (hright : RedBlack.leftmost right [] = some (cs, s, child, above)) :
    h.Holds (.node cs .nil s child) (above ++ ⟨.right, c, n, left⟩ :: path) := by
  refine holds_append.1 ?_
  rw [(RedBlack.plug_leftmost hright).1]
  exact holds_fill.1 hh

/-- The memory behind the writes of case 3 that take the successor out of its place. -/
def takeOut (h : RbHeap ν) (parent successor child : ν) (child2 : Option ν) : RbHeap ν :=
  let h := h.write parent (RbNode.setChild .left child2)
  let h := h.write successor (RbNode.setChild .right (some child))
  h.write child (RbNode.setParent (some successor))

/-- Case 3: the successor is the leftmost node below the right child. -/
theorem Holds.placeLeftmost {l x : ν} {g : Frame ν} {above : List (Frame ν)}
    (hh : h.Holds (.node c left n right) path) (hl : link left = some l) (hx : link right = some x)
    (hright : RedBlack.leftmost right [] = some (cs, s, child, g :: above)) :
    ∃ h', (h.takeOut g.x s x (link child)).placeSuccessor n s g.x (link child) =
        some (h', if link child = none ∧ cs = .black then some g.x else none) ∧
      h'.Holds (child.paint .black) ((g :: above) ++ ⟨.right, c, s, left⟩ :: path) ∧
      SameOff h h' (.node c left n right) path := by
  obtain ⟨hplug, hbefore⟩ := RedBlack.plug_leftmost hright
  have hside : g.side = .left := by
    cases hg : g.side with
    | left => rfl
    | right => simp [RedBlack.before, hg, Side.pick] at hbefore
  obtain ⟨x', hx', hroot⟩ : ∃ x ∈ nodesOf (g :: above), ∀ t, link (plug t (g :: above)) = some x :=
    exists_link_plug
  obtain rfl : x' = x := by
    have hx'' : link right = some x' := by
      rw [← show plug right [] = right from rfl, ← hplug]
      exact hroot _
    exact Option.some.inj (hx''.symm.trans hx)
  have hbelow : h.Holds (build .right cs child s .nil)
      ((g :: above) ++ ⟨.right, c, n, left⟩ :: path) := hh.leftmost hright
  obtain ⟨⟨-, -, hgs, -⟩, -, -⟩ := isPath_cons.1 hbelow.above
  rw [hside] at hgs
  -- The successor first leaves its own place, then takes the other one.
  obtain ⟨hout, -⟩ := hbelow.unlink .black
  have hcc : h.rbChangeChild s (link child) (some g.x) =
      h.write g.x (RbNode.setChild .left (link child)) := if_pos hgs
  have hmid := holds_fill.2 (holds_append.2 hout)
  have hnodup := hh.nodup
  have hchild := (List.nodup_append'.1 hout.nodup).2.2
  rw [nodesOf_append, RedBlack.inorder_paint, List.disjoint_append_right] at hchild
  have hperm : right.inorder.Perm (s :: (plug (child.paint .black) (g :: above)).inorder) := by
    rw [← show plug right [] = right from rfl, ← hplug]
    refine perm_plug.trans (List.Perm.cons s ?_)
    have hperm' : (plug (child.paint .black) (g :: above)).inorder.Perm
        ((child.paint .black).inorder ++ nodesOf (g :: above)) := perm_plug
    rw [RedBlack.inorder_paint] at hperm'
    exact hperm'.symm
  have hsub : ∀ z, z ∈ child.inorder ∨ z ∈ nodesOf (g :: above) →
      z ∈ (plug (child.paint .black) (g :: above)).inorder := by
    intro z hz
    rw [perm_plug.mem_iff, List.mem_append, RedBlack.inorder_paint]
    exact hz
  have hrlink := hroot (child.paint .black)
  have hplace : ∀ h' : RbHeap ν,
      h'.Holds (.node c left s (plug (child.paint .black) (g :: above))) path →
      h'.Holds (child.paint .black) ((g :: above) ++ ⟨.right, c, s, left⟩ :: path) :=
    fun h' hh' => holds_append.1 (holds_fill.1 hh')
  generalize plug (child.paint .black) (g :: above) = r' at *
  simp only [ColorTree.inorder, List.nodup_append', List.nodup_cons, List.disjoint_cons_right,
    List.disjoint_append_left, List.disjoint_cons_left, hperm.nodup_iff, hperm.mem_iff,
    List.mem_cons, not_or] at hnodup
  obtain ⟨⟨-, ⟨⟨hns, hnr⟩, hsr, -⟩, hnl, hlr⟩, hpnodup, hlp, hnp, hrp⟩ := hnodup
  have hsright : s ∈ right.inorder := hperm.mem_iff.2 List.mem_cons_self
  have hrright : ∀ z ∈ r'.inorder, z ∈ right.inorder := fun z hz =>
    hperm.mem_iff.2 (List.mem_cons_of_mem s hz)
  have hgr : g.x ∈ r'.inorder := hsub g.x (.inr List.mem_cons_self)
  have hxr : x' ∈ r'.inorder := hsub x' (.inr hx')
  have hgc : link child ≠ some g.x := fun heq =>
    hchild.1 (mem_of_link heq) List.mem_cons_self
  have hxc : link child ≠ some x' := fun heq => hchild.1 (mem_of_link heq) hx'
  have hcr : ∀ z, link child = some z → z ∈ r'.inorder := fun z hz => hsub z (.inl (mem_of_link hz))
  have hlmem := mem_of_link hl
  -- What lies apart: the left child, the nodes below the right one, and the successor.
  have hleft_ne : ∀ z ∈ left.inorder,
      z ∉ nodesOf path ∧ z ≠ n ∧ z ≠ s ∧ z ∉ r'.inorder := fun z hz =>
    ⟨fun hz' => hlp hz hz', fun heq => hnl (heq ▸ hz), fun heq => hlr hz (heq ▸ hsright),
      fun hz' => hlr hz (hrright z hz')⟩
  have hr_ne : ∀ z ∈ r'.inorder, z ∉ nodesOf path ∧ z ≠ n ∧ z ≠ s ∧ z ∉ left.inorder := fun z hz =>
    ⟨fun hz' => hrp (hrright z hz) hz', fun heq => hnr (heq ▸ hz), fun heq => hsr (heq ▸ hz),
      fun hz' => hlr hz' (hrright z hz)⟩
  have hsp : s ∉ nodesOf path := fun hz => hrp hsright hz
  obtain ⟨hlpath, hln, hls, hlr'⟩ := hleft_ne l hlmem
  -- The two memories that the end of the case and the tree are about.
  have hnode₁ : ∀ z, (h.takeOut g.x s x' (link child)).node z =
      if z = s then (h.node z).setChild .right (some x')
      else if z = x' then
        (if z = g.x then (h.node z).setChild .left (link child) else h.node z).setParent (some s)
      else if z = g.x then (h.node z).setChild .left (link child) else h.node z := by
    intro z
    have hsx : s ≠ x' := fun heq => hsr (heq ▸ hxr)
    have hsg : s ≠ g.x := fun heq => hsr (heq ▸ hgr)
    by_cases hzs : z = s
    · subst hzs
      simp [takeOut, hsx, hsg]
    · by_cases hzx : z = x'
      · subst hzx
        simp [takeOut, hzs]
      · simp [takeOut, hzs, hzx]
  have hbase : ∀ z, ((h.rbChangeChild s (link child) (some g.x)).writeIf (link child)
      (RbNode.setParentColor (some g.x) .black)).node z =
        if link child = some z then (h.node z).setParentColor (some g.x) .black
        else if z = g.x then (h.node z).setChild .left (link child) else h.node z := by
    intro z
    rw [hcc, node_writeIf]
    by_cases hz : link child = some z
    · have hzg : z ≠ g.x := fun heq => hgc (heq ▸ hz)
      simp [hz, hzg]
    · simp [hz]
  have hsame₁ : ∀ z, z ≠ s → z ∉ r'.inorder → (h.takeOut g.x s x' (link child)).node z =
      h.node z := by
    intro z hzs hzr
    have hzx : z ≠ x' := fun heq => hzr (heq ▸ hxr)
    have hzg : z ≠ g.x := fun heq => hzr (heq ▸ hgr)
    rw [hnode₁, if_neg hzs, if_neg hzx, if_neg hzg]
  obtain ⟨hn, -, -⟩ := hh.tree
  have hnfields : ((h.takeOut g.x s x' (link child)).node n).rbParent = parentOf path ∧
      ((h.takeOut g.x s x' (link child)).node n).rbColor = c ∧
      ((h.takeOut g.x s x' (link child)).node n).rbLeft = some l := by
    rw [hsame₁ n hns hnr, hn, hl]
    exact ⟨rfl, rfl, rfl⟩
  obtain ⟨h', heq, hnode, hpath'⟩ := placeSuccessor_eq (h.takeOut g.x s x' (link child)) g.x
    hnfields hns hln.symm hls.symm (fun heq => (hr_ne s (hcr s heq)).2.2.1 rfl)
    (fun heq => hlr' (hcr l heq)) hnp hsp hlpath fun z hz heq => (hr_ne z (hcr z heq)).1 hz
  obtain ⟨hsnode, -, -⟩ := hbelow.tree
  have hcolor : ((h.takeOut g.x s x' (link child)).node s).rbColor = cs := by
    rw [hnode₁, if_pos rfl, hsnode]
    rfl
  rw [hcolor] at heq
  refine ⟨h', heq, ?_, fun z hz hzpath => ?_⟩
  · have hmid' : ((h.rbChangeChild s (link child) (some g.x)).writeIf (link child)
        (RbNode.setParentColor (some g.x) .black)).Holds (.node c left n r') path := hmid
    refine hplace h' (hmid'.takePlace ⟨fun hz => (hleft_ne s hz).2.2.1 rfl, hsr, hsp⟩ ?_
      (fun z hz => ?_) (fun z hz => ?_) (fun z hz hne hne' => ?_) ?_)
    · rw [hnode s hsp, if_neg fun heq => (hr_ne s (hcr s heq)).2.2.1 rfl, if_pos rfl, hnode₁,
        if_pos rfl, hrlink, hl]
      rfl
    · obtain rfl := Option.some.inj (hl.symm.trans hz)
      have hlg : l ≠ g.x := fun heq => hlr' (heq ▸ hgr)
      rw [hnode l hlpath, if_neg fun heq => hlr' (hcr l heq), if_neg hls, if_pos rfl,
        hsame₁ l hls hlr', hbase, if_neg fun heq => hlr' (hcr l heq),
        if_neg hlg]
    · obtain rfl := Option.some.inj (hrlink.symm.trans hz)
      obtain ⟨hzp, -, hzs, hzl⟩ := hr_ne x' hxr
      have hxl : x' ≠ l := fun heq => hzl (heq ▸ hlmem)
      rw [hnode x' hzp, if_neg hxc, if_neg hzs, if_neg hxl, hnode₁, if_neg hzs, if_pos rfl, hbase,
        if_neg hxc]
    · have hzl : z ≠ l := fun heq => hne (heq ▸ hl)
      have hzx : z ≠ x' := fun heq => hne' (heq ▸ hrlink)
      obtain ⟨hzp, hzs⟩ : z ∉ nodesOf path ∧ z ≠ s := by
        rcases hz with hz | hz
        · exact ⟨(hleft_ne z hz).1, (hleft_ne z hz).2.2.1⟩
        · exact ⟨(hr_ne z hz).1, (hr_ne z hz).2.2.1⟩
      rw [hnode z hzp, hbase, if_neg hzs, if_neg hzl, hnode₁, if_neg hzs, if_neg hzx]
      by_cases hzc : link child = some z
      · have hzg : z ≠ g.x := fun heq => hgc (heq ▸ hzc)
        rw [if_pos hzc, if_pos hzc, if_neg hzg]
      · rw [if_neg hzc, if_neg hzc]
    · refine hpath' hpnodup (hh.above.congr (fun z hz => ?_) rfl)
      refine hsame₁ z (fun heq => hsp (heq ▸ hz)) fun hzr => (hr_ne z hzr).1 hz
  · simp only [ColorTree.inorder, List.mem_append, List.mem_cons, not_or, hperm.mem_iff] at hz
    obtain ⟨hzl, hzn, hzs, hzr⟩ := hz
    rw [hnode z hzpath, if_neg fun heq => hzr (hcr z heq), if_neg hzs,
      if_neg fun heq => hzl (by rw [heq]; exact hlmem), hsame₁ z hzs hzr]

-- ---------------------------------------------------------------------------
-- The removal of a node
-- ---------------------------------------------------------------------------

/-- The removal of a node with two children. -/
theorem Holds.rbErase_both {l x : ν} {above : List (Frame ν)}
    (hh : h.Holds (.node c left n right) path) (hl : link left = some l) (hx : link right = some x)
    (hfits : RedBlack.Fits path c k) (ht : RedBlack.Balanced (.node c left n right) c k)
    (hright : RedBlack.leftmost right [] = some (cs, s, child, above))
    (hfuel : right.inorder.length + path.length < fuel) :
    ∃ h', h.rbErase fuel n = some h' ∧
      h'.Holds (RedBlack.splice cs .black child (above ++ ⟨.right, c, s, left⟩ :: path)) [] ∧
      SameOff h h' (.node c left n right) path := by
  obtain ⟨k', m, hplace, hbelow, hchild⟩ := hfits.successor ht hright
  obtain ⟨hplug, -⟩ := RedBlack.plug_leftmost hright
  have hperm : right.inorder.Perm (s :: child.inorder ++ nodesOf above) := by
    rw [← show plug right [] = right from rfl, ← hplug]
    exact perm_plug
  have hlength : (above ++ (⟨.right, c, s, left⟩ : Frame ν) :: path).length ≤ fuel := by
    have hsize := hperm.length_eq
    have habove : above.length ≤ (nodesOf above).length := length_le_nodesOf
    simp only [List.length_append, List.length_cons] at hsize ⊢
    omega
  have hstep : ∃ h₁, h.rbEraseAugmented fuel n =
        some (h₁, if link child = none ∧ cs = .black then
          parentOf (above ++ ⟨.right, c, s, left⟩ :: path) else none) ∧
      h₁.Holds (child.paint .black) (above ++ ⟨.right, c, s, left⟩ :: path) ∧
      SameOff h h₁ (.node c left n right) path := by
    obtain ⟨hn, -, hrtree⟩ := hh.tree
    simp only [RbHeap.rbEraseAugmented, hn, hl, hx]
    cases above with
    | nil =>
      obtain rfl : .node cs .nil s child = right := hplug
      cases hx
      obtain ⟨h₁, hplaceEq, hholds, hoff⟩ := hh.placeNext hl
      refine ⟨h₁, ?_, hholds, hoff⟩
      rw [takeSuccessor, hrtree.1]
      exact hplaceEq
    | cons g above =>
      obtain ⟨h₁, hplaceEq, hholds, hoff⟩ := hh.placeLeftmost hl hx hright
      refine ⟨h₁, ?_, hholds, hoff⟩
      obtain ⟨hsnode, -, -⟩ := (hh.leftmost hright).tree
      have htake : h.takeSuccessor fuel x =
          some (h.takeOut g.x s x (link child), s, g.x, link child) := by
        cases right with
        | nil => cases hx
        | node cr rl y rr =>
          cases hx
          obtain ⟨hxnode, hrl, -⟩ := hrtree
          cases rl with
          | nil => cases hright
          | node cl ll z lr =>
            have hfirst := hright
            rw [RedBlack.leftmost.eq_3 _ _ _ _ _ (by simp)] at hfirst
            have hheight : (ColorTree.node cl ll z lr).height ≤ fuel := by
              have hle := RedBlack.ColorTree.height_le_length (t := .node cl ll z lr)
              rw [ColorTree.inorder, List.length_append] at hfuel
              omega
            obtain ⟨pp, hpp, hrun⟩ := hrl.run_leftmostBody rfl hfirst hheight
            cases hpp
            rw [takeSuccessor, hxnode]
            simp only [link, hrun, Option.bind_eq_bind, Option.bind_some, hsnode]
            rfl
      rw [htake]
      exact hplaceEq
  obtain ⟨h₁, haug, hholds, hoff⟩ := hstep
  obtain ⟨h', hrun, hholds', hoff'⟩ := hholds.rebalance hplace hbelow hchild hlength
  refine ⟨h', (rbErase_of_augmented haug).trans hrun, hholds', fun z hz hzpath => ?_⟩
  refine (hoff' z (fun hz' => hz ?_) fun hz' => ?_).trans (hoff z hz hzpath)
  · simp only [ColorTree.inorder, List.mem_append, List.mem_cons, hperm.mem_iff]
    tauto
  · simp only [ColorTree.inorder, List.mem_append, List.mem_cons, hperm.mem_iff] at hz
    simp only [nodesOf_append, nodesOf, List.cons_append, List.mem_append, List.mem_cons] at hz'
    tauto

/-- `rb_erase` on the memory of a red-black tree ends, and leaves the one that the removal of
    the node makes. It writes to the nodes of the tree only. -/
theorem Holds.rbErase (hh : h.Holds (.node c left n right) path)
    (htree : RedBlack.IsRedBlack (plug (.node c left n right) path))
    (hfuel : (plug (.node c left n right) path).inorder.length ≤ fuel) :
    ∃ h', h.rbErase fuel n = some h' ∧ h'.Holds (RedBlack.erase c left right path) [] ∧
      RedBlack.IsRedBlack (RedBlack.erase c left right path) ∧
      SameOff h h' (.node c left n right) path := by
  obtain ⟨_, hbalanced⟩ := htree
  obtain ⟨c', k, ht, hfits⟩ := hbalanced.exists_fits
  obtain rfl : c = c' := ht.color_eq
  have hperm : (plug (.node c left n right) path).inorder.Perm
      ((ColorTree.node c left n right).inorder ++ nodesOf path) := perm_plug
  have hsize := hperm.length_eq
  have hpath : path.length ≤ (nodesOf path).length := length_le_nodesOf
  simp only [ColorTree.inorder, List.length_append, List.length_cons] at hsize
  have hresult := hfits.erase ht
  cases left with
  | nil =>
    have hshort : path.length ≤ fuel := by omega
    obtain ⟨h', hrun, hholds, hoff⟩ := hh.rbErase_left hfits ht hshort
    refine ⟨h', hrun, hholds, hresult, fun z hz hzpath => hoff z (fun hz' => hz ?_) hzpath⟩
    simp [ColorTree.inorder, hz']
  | node cl l x r =>
    cases hright : RedBlack.leftmost right [] with
    | none =>
      obtain rfl := RedBlack.leftmost_eq_none_iff.1 hright
      obtain ⟨h', hrun, hholds, hoff⟩ := hh.rbErase_right fuel
      refine ⟨h', hrun, hholds, hresult, fun z hz hzpath => hoff z (fun hz' => hz ?_) hzpath⟩
      rw [ColorTree.inorder]
      exact List.mem_append_left _ hz'
    | some found =>
      obtain ⟨cs, s, child, above⟩ := found
      obtain ⟨y, hy⟩ : ∃ y, link right = some y := by
        cases right with
        | nil => cases hright
        | node cr rl y rr => exact ⟨y, rfl⟩
      have hshort : right.inorder.length + path.length < fuel := by omega
      obtain ⟨h', hrun, hholds, hoff⟩ := hh.rbErase_both rfl hy hfits ht hright hshort
      have heq : RedBlack.erase c (.node cl l x r) right path =
          RedBlack.splice cs .black child (above ++ ⟨.right, c, s, .node cl l x r⟩ :: path) := by
        rw [RedBlack.erase.eq_def, hright]
      rw [heq] at hresult ⊢
      exact ⟨h', hrun, hholds, hresult, hoff⟩

end Removal

/-- The node stands at its place. -/
theorem Holds.exists_place {a b : List ν} (hh : h.Holds t []) (hsplit : t.inorder = a ++ n :: b) :
    ∃ c left right path, plug (.node c left n right) path = t ∧
      h.Holds (.node c left n right) path ∧ RedBlack.before path ++ left.inorder = a ∧
        right.inorder ++ RedBlack.behind path = b := by
  obtain ⟨c, left, right, path, hplug, hbefore, hbehind⟩ := RedBlack.exists_place hsplit
  refine ⟨c, left, right, path, hplug, ?_, hbefore, hbehind⟩
  rw [← holds_plug, hplug]
  exact hh

/-- `rb_erase` takes the node out of the order, wherever it is. -/
theorem Holds.rbErase_split [DecidableEq ν] {a b : List ν} {fuel : Nat} (hh : h.Holds t [])
    (hred : RedBlack.IsRedBlack t) (hsplit : t.inorder = a ++ n :: b)
    (hfuel : t.inorder.length ≤ fuel) :
    ∃ h' t', h.rbErase fuel n = some h' ∧ h'.Holds t' [] ∧ RedBlack.IsRedBlack t' ∧
      t'.inorder = a ++ b ∧ ∀ z, z ∉ t.inorder → h'.node z = h.node z := by
  obtain ⟨c, left, right, path, rfl, hplace, hbefore, hbehind⟩ := hh.exists_place hsplit
  obtain ⟨h', hrun, hh', hred', hoff⟩ := hplace.rbErase hred hfuel
  refine ⟨h', _, hrun, hh', hred', ?_, fun z hz => ?_⟩
  · rw [RedBlack.inorder_erase, ← hbefore, ← hbehind]
    simp
  · rw [perm_plug.mem_iff, List.mem_append, not_or] at hz
    exact hoff z hz.1 hz.2

end Duperemove.RbHeap
