-- SUMMARY: The repair of an insertion in memory is the repair of the tree: each case of the loop, and the whole loop.
import Duperemove.Rbtree.Shape

/-!
# Insertion in memory

`rb_insert_color` on a memory that holds a red-black tree with a red node at some place. Each
case of the loop writes to the nodes around this place, and the memory then holds the tree
that the same case of the repair on trees makes. So the loop ends, follows no null pointer,
and leaves a red-black tree with its nodes in the same order.
-/

namespace Duperemove.RbHeap

open RedBlack (Color Side ColorTree Frame plug)
open RedBlack.ColorTree (build)

variable {ν : Type} [DecidableEq ν] {h : RbHeap ν} {t : ColorTree ν} {f g : Frame ν}
  {path : List (Frame ν)} {u n z : ν}

theorem node_flipColors (hu : z ≠ u) (hf : z ≠ f.x) (hg : z ≠ g.x) :
    (h.flipColors u f.x g.x).node z = h.node z := by
  simp [flipColors, hu, hf, hg]

/-- Case 1: the two red nodes become black, and the one above them red. -/
theorem Holds.flipColors (hh : h.Holds t (f :: g :: path)) (hu : link g.far = some u) :
    (h.flipColors u f.x g.x).Holds
      (build g.side .red ({ f with color := .black }.fill t) g.x (g.far.paint .black)) path := by
  have hfill := (holds_fill.2 (holds_fill.2 hh)).nodup
  have hapart := hh.apart
  obtain ⟨ht, hpath, -⟩ := hh
  obtain ⟨⟨hfp, hfc, hfn, hfo⟩, hff, hpath⟩ := isPath_cons.1 hpath
  obtain ⟨⟨hgp, hgc, hgn, hgo⟩, hgf, hpath⟩ := isPath_cons.1 hpath
  obtain ⟨-, hfu, -, hug, -⟩ := hapart.of_outer u (mem_of_link hu)
  have hsame : ∀ z, z ∈ t.inorder ∨ z ∈ f.far.inorder ∨ z ∈ nodesOf path →
      (h.flipColors u f.x g.x).node z = h.node z := by
    intro z hz
    have hzu : z ∉ g.far.inorder := by
      rcases hz with hz | hz | hz
      · exact (hapart.of_below z hz).2.2.2.1
      · exact (hapart.of_far z hz).2.2.2.1
      · exact fun hz' => (hapart.of_outer z hz').2.2.2.2 hz
    refine node_flipColors (fun heq => hzu (heq ▸ mem_of_link hu)) ?_ ?_
    · rcases hz with hz | hz | hz
      · exact (hapart.of_below z hz).1
      · exact (hapart.of_far z hz).2.1
      · exact fun heq => hapart.lower (heq ▸ hz)
    · rcases hz with hz | hz | hz
      · exact (hapart.of_below z hz).2.2.1
      · exact (hapart.of_far z hz).2.2.1
      · exact fun heq => hapart.upper (heq ▸ hz)
  have hfnode : (h.flipColors u f.x g.x).node f.x =
      (h.node f.x).setParentColor (some g.x) .black := by
    simp [RbHeap.flipColors, hfu.symm, hapart.ne]
  have hgnode : (h.flipColors u f.x g.x).node g.x =
      (h.node g.x).setParentColor (parentOf path) .red := by
    simp [RbHeap.flipColors, hug.symm, hapart.ne.symm, hgp]
  refine ⟨isTree_build.2 ⟨?_, isTree_build.2 ⟨?_, ?_, ?_⟩, ?_⟩, ?_, ?_⟩
  · simp [hgnode, hgn, hgo]
  · simp [hfnode, hfn, hfo]
  · exact ht.congr fun z hz => hsame z (.inl hz)
  · exact hff.congr fun z hz => hsame z (.inr (.inl hz))
  · refine hgf.rehang hapart.outer (fun z hz => ?_) fun z hz hne => ?_
    · rw [hu] at hz
      cases hz
      simp [RbHeap.flipColors, hfu, hug]
    · obtain ⟨-, hzf, -, hzg, -⟩ := hapart.of_outer z hz
      exact node_flipColors (fun heq => hne (heq ▸ hu)) hzf hzg
  · exact hpath.congr (fun z hz => hsame z (.inr (.inr hz))) rfl
  · rw [RedBlack.inorder_flip]
    exact hfill

section Rotations

variable {s : Side} {p x : ν} {tmp : Option ν}

/-- What case 2 does to each node. -/
theorem node_rotateParent (hnp : n ≠ p) (hn : (h.node n).child s ≠ some n)
    (hp : (h.node n).child s ≠ some p) : (h.rotateParent s n p).node z =
      if z = p then ((h.node z).setChild s.other ((h.node n).child s)).setParentColor (some n) .red
      else if z = n then (h.node z).setChild s (some p)
      else if (h.node n).child s = some z then (h.node z).setParentColor (some p) .black
      else h.node z := by
  by_cases hzp : z = p
  · subst hzp
    simp [rotateParent, hnp.symm, hp]
  · by_cases hzn : z = n
    · subst hzn
      simp [rotateParent, hnp, hn]
    · simp [rotateParent, hzp, hzn]

/-- What case 3 does to each node off the path. -/
theorem node_rotateGparent (hparent : (h.node x).rbParent = parentOf path) (hpx : p ≠ x)
    (hp : tmp ≠ some p) (hx : tmp ≠ some x) (hz : z ∉ nodesOf path) :
    (h.rotateGparent s p x tmp).node z =
      if z = x then ((h.node z).setChild s tmp).setParentColor (some p) .red
      else if z = p then
        ((h.node z).setChild s.other (some x)).setParentColor (parentOf path) (h.node x).rbColor
      else if tmp = some z then (h.node z).setParentColor (some x) .black
      else h.node z := by
  rw [rotateGparent, node_rbRotateSetParents _ hpx.symm hz]
  · by_cases hzx : z = x
    · subst hzx
      simp [hpx.symm, hx]
    · by_cases hzp : z = p
      · subst hzp
        simp [hpx, hpx.symm, hp, hx]
      · simp [hzx, hzp]
  · simp [hpx.symm, hx, hparent]

theorem IsPath.rotateGparent (hpath : h.IsPath path (some x))
    (hparent : (h.node x).rbParent = parentOf path) (hnodup : (nodesOf path).Nodup)
    (hx : x ∉ nodesOf path) (hp : p ∉ nodesOf path) (hpx : p ≠ x) (htx : tmp ≠ some x)
    (htmp : ∀ z ∈ nodesOf path, tmp ≠ some z) :
    (h.rotateGparent s p x tmp).IsPath path (some p) := by
  refine IsPath.rotateSetParents (hpath.congr (fun z hz => ?_) ?_) ?_ hnodup hx hp
  · have hzx : z ≠ x := fun heq => hx (heq ▸ hz)
    have hzp : z ≠ p := fun heq => hp (heq ▸ hz)
    simp [hzx, hzp, htmp z hz]
  · simp
  · simp [hpx.symm, htx, hparent]

end Rotations

/-- Case 3: the parent takes the place of the node above it. -/
theorem Holds.rotateGparent (hh : h.Holds t (f :: g :: path)) (hside : f.side = g.side) :
    (h.rotateGparent g.side f.x g.x (link f.far)).Holds (RedBlack.rotateRed t f g) path ∧
      SameOff h (h.rotateGparent g.side f.x g.x (link f.far)) t (f :: g :: path) := by
  have hfill := (holds_fill.2 (holds_fill.2 hh)).nodup
  have hapart := hh.apart
  obtain ⟨ht, hpath, -⟩ := hh
  obtain ⟨⟨hfp, hfc, hfn, hfo⟩, hff, hpath⟩ := isPath_cons.1 hpath
  obtain ⟨⟨hgp, hgc, hgn, hgo⟩, hgf, hpath⟩ := isPath_cons.1 hpath
  rw [hside] at hfn hfo
  have hlf : link f.far ≠ some f.x := fun heq => (hapart.of_far _ (mem_of_link heq)).2.1 rfl
  have hlg : link f.far ≠ some g.x := fun heq => (hapart.of_far _ (mem_of_link heq)).2.2.1 rfl
  have hnode : ∀ z, z ∉ nodesOf path → _ := fun z hz =>
    node_rotateGparent (s := g.side) hgp hapart.ne hlf hlg hz
  have hsame : ∀ z, z ∈ t.inorder ∨ z ∈ g.far.inorder →
      (h.rotateGparent g.side f.x g.x (link f.far)).node z = h.node z := by
    intro z hz
    have hlz : link f.far ≠ some z := fun heq => by
      have hz' := hapart.of_far z (mem_of_link heq)
      exact hz.elim hz'.1 hz'.2.2.2.1
    rcases hz with hz | hz
    · obtain ⟨hzf, -, hzg, -, hzpath⟩ := hapart.of_below z hz
      rw [hnode z hzpath, if_neg hzg, if_neg hzf, if_neg hlz]
    · obtain ⟨-, hzf, -, hzg, hzpath⟩ := hapart.of_outer z hz
      rw [hnode z hzpath, if_neg hzg, if_neg hzf, if_neg hlz]
  rw [RedBlack.rotateRed.eq_def, if_pos hside]
  refine ⟨⟨isTree_build.2 ⟨?_, ?_, isTree_build.2 ⟨?_, ?_, ?_⟩⟩, ?_, ?_⟩, fun z _ hz => ?_⟩
  · simp [hnode f.x hapart.lower, hapart.ne, hfn, hgc]
  · exact ht.congr fun z hz => hsame z (.inl hz)
  · simp [hnode g.x hapart.upper, hgo]
  · refine hff.rehang hapart.far (fun z hz => ?_) fun z hz hne => ?_
    · obtain ⟨-, hzf, hzg, -, hzpath⟩ := hapart.of_far z (mem_of_link hz)
      rw [hnode z hzpath, if_neg hzg, if_neg hzf, if_pos hz]
    · obtain ⟨-, hzf, hzg, -, hzpath⟩ := hapart.of_far z hz
      rw [hnode z hzpath, if_neg hzg, if_neg hzf, if_neg hne]
  · exact hgf.congr fun z hz => hsame z (.inr hz)
  · exact hpath.rotateGparent hgp hapart.above hapart.upper hapart.lower hapart.ne hlg
      fun z hz heq => (hapart.of_far z (mem_of_link heq)).2.2.2.2 hz
  · have horder := RedBlack.inorder_rotateRed (t := t) (f := f) (g := g)
    rw [RedBlack.rotateRed.eq_def, if_pos hside] at horder
    rw [horder]
    exact hfill
  · simp only [nodesOf, List.cons_append, List.mem_cons, List.mem_append, not_or] at hz
    obtain ⟨hzf, hzfar, hzg, -, hzpath⟩ := hz
    rw [hnode z hzpath, if_neg hzg, if_neg hzf, if_neg fun heq => hzfar (mem_of_link heq)]

/-- Cases 2 and 3: the red node takes the place of the node two above it. -/
theorem Holds.rotateBoth {c : Color} {l r : ColorTree ν}
    (hh : h.Holds (.node c l n r) (f :: g :: path)) (hside : f.side = g.side.other) :
    ∃ h', h' = (h.rotateParent g.side n f.x).rotateGparent g.side n g.x
        (((h.rotateParent g.side n f.x).node n).child g.side.other) ∧
      h'.Holds (RedBlack.rotateRed (.node c l n r) f g) path ∧
      SameOff h h' (.node c l n r) (f :: g :: path) := by
  have hfill := (holds_fill.2 (holds_fill.2 hh)).nodup
  have hapart := hh.apart
  obtain ⟨ht, hpath, -⟩ := hh
  obtain ⟨⟨hfp, hfc, hfn, hfo⟩, hff, hpath⟩ := isPath_cons.1 hpath
  obtain ⟨⟨hgp, hgc, hgn, hgo⟩, hgf, hpath⟩ := isPath_cons.1 hpath
  rw [hside, RedBlack.Side.other_other] at hfo
  rw [hside] at hfn
  -- The red node seen from the side of the node two above it.
  have hseen : ColorTree.node c l n r = build g.side c (g.side.pick l r) n (g.side.pick r l) :=
    node_eq_build
  have horder := RedBlack.inorder_rotateRed (t := .node c l n r) (f := f) (g := g)
  rw [RedBlack.rotateRed.eq_def, if_neg (by simp [hside])] at horder ⊢
  dsimp only at horder ⊢
  rw [hseen] at ht hapart hfn hfill ⊢
  generalize g.side.pick l r = near at *
  generalize g.side.pick r l = far at *
  obtain ⟨⟨hnp, hnc, hnn, hno⟩, hnear, hfar⟩ := isTree_build.1 ht
  obtain ⟨hn_near, hn_far, hnear_nodup, hfar_nodup, hnear_far⟩ := nodup_inorder_build.1 hapart.below
  have hout : ∀ z, z = n ∨ z ∈ near.inorder ∨ z ∈ far.inorder →
      z ≠ f.x ∧ z ∉ f.far.inorder ∧ z ≠ g.x ∧ z ∉ g.far.inorder ∧ z ∉ nodesOf path := fun z hz =>
    hapart.of_below z (mem_inorder_build.2 hz)
  obtain ⟨hnf, -, hng, -, hnpath⟩ := hout n (.inl rfl)
  have hnear_ne : ∀ z, link near = some z → z ≠ n ∧ z ≠ f.x ∧ z ≠ g.x ∧ z ∉ far.inorder := by
    intro z hz
    have hmem := mem_of_link hz
    have hz' := hout z (.inr (.inl hmem))
    exact ⟨fun heq => hn_near (heq ▸ hmem), hz'.1, hz'.2.2.1, fun hz => hnear_far hmem hz⟩
  have hfar_ne : ∀ z, link far = some z → z ≠ n ∧ z ≠ f.x ∧ z ≠ g.x := by
    intro z hz
    have hmem := mem_of_link hz
    have hz' := hout z (.inr (.inr hmem))
    exact ⟨fun heq => hn_far (heq ▸ hmem), hz'.1, hz'.2.2.1⟩
  -- The memory behind case 2, and behind case 3.
  have hnode₂ : ∀ z, (h.rotateParent g.side n f.x).node z = _ := fun z =>
    node_rotateParent hnf (fun heq => (hnear_ne n (hnn.symm.trans heq)).1 rfl)
      fun heq => (hnear_ne f.x (hnn.symm.trans heq)).2.1 rfl
  rw [hnn] at hnode₂
  have htmp : ((h.rotateParent g.side n f.x).node n).child g.side.other = link far := by
    rw [hnode₂, if_neg hnf, if_pos rfl, RbNode.child_setChild_other, hno]
  have hg₂ : (h.rotateParent g.side n f.x).node g.x = h.node g.x := by
    rw [hnode₂, if_neg hapart.ne.symm, if_neg hng.symm,
      if_neg fun heq => (hnear_ne _ heq).2.2.1 rfl]
  have hgp₂ : ((h.rotateParent g.side n f.x).node g.x).rbParent = parentOf path := by rw [hg₂, hgp]
  rw [htmp]
  have hnode : ∀ z, z ∉ nodesOf path → _ := fun z hz =>
    node_rotateGparent (s := g.side) hgp₂ hng (fun heq => (hfar_ne n heq).1 rfl)
      (fun heq => (hfar_ne g.x heq).2.2 rfl) hz
  rw [hg₂, hgc] at hnode
  have hsame : ∀ z, z ∈ f.far.inorder ∨ z ∈ g.far.inorder → ((h.rotateParent g.side n
      f.x).rotateGparent g.side n g.x (link far)).node z = h.node z := by
    intro z hz
    obtain ⟨hzin, hzf, hzg, hzpath⟩ : z ∉ (build g.side c near n far).inorder ∧ z ≠ f.x ∧
        z ≠ g.x ∧ z ∉ nodesOf path := by
      rcases hz with hz | hz
      · obtain ⟨hzin, hzf, hzg, -, hzpath⟩ := hapart.of_far z hz
        exact ⟨hzin, hzf, hzg, hzpath⟩
      · obtain ⟨hzin, hzf, -, hzg, hzpath⟩ := hapart.of_outer z hz
        exact ⟨hzin, hzf, hzg, hzpath⟩
    rw [mem_inorder_build] at hzin
    simp only [not_or] at hzin
    rw [hnode z hzpath, if_neg hzg, if_neg hzin.1, if_neg fun heq => hzin.2.2 (mem_of_link heq),
      hnode₂, if_neg hzf, if_neg hzin.1, if_neg fun heq => hzin.2.1 (mem_of_link heq)]
  refine ⟨_, rfl, ⟨isTree_build.2
    ⟨?_, isTree_build.2 ⟨?_, ?_, ?_⟩, isTree_build.2 ⟨?_, ?_, ?_⟩⟩, ?_, ?_⟩, fun z hzin hz => ?_⟩
  · simp [hnode n hnpath, hng, hnode₂, hnf]
  · have hlf : link far ≠ some f.x := fun heq => (hfar_ne f.x heq).2.1 rfl
    rw [hnode f.x hapart.lower, if_neg hapart.ne, if_neg hnf.symm, if_neg hlf, hnode₂, if_pos rfl]
    exact ⟨rfl, rfl, by simp [hfo], by simp⟩
  · exact hff.congr fun z hz => hsame z (.inl hz)
  · refine hnear.rehang hnear_nodup (fun z hz => ?_) fun z hz hne => ?_
    · obtain ⟨hzn, hzf, hzg, hzfar⟩ := hnear_ne z hz
      rw [hnode z (hout z (.inr (.inl (mem_of_link hz)))).2.2.2.2, if_neg hzg, if_neg hzn,
        if_neg fun heq => hzfar (mem_of_link heq), hnode₂, if_neg hzf, if_neg hzn, if_pos hz]
    · obtain ⟨hzf, -, hzg, -, hzpath⟩ := hout z (.inr (.inl hz))
      have hzn : z ≠ n := fun heq => hn_near (heq ▸ hz)
      rw [hnode z hzpath, if_neg hzg, if_neg hzn, if_neg fun heq => hnear_far hz (mem_of_link heq),
        hnode₂, if_neg hzf, if_neg hzn, if_neg hne]
  · simp [hnode g.x hapart.upper, hg₂, hgo]
  · refine hfar.rehang hfar_nodup (fun z hz => ?_) fun z hz hne => ?_
    · obtain ⟨hzn, hzf, hzg⟩ := hfar_ne z hz
      rw [hnode z (hout z (.inr (.inr (mem_of_link hz)))).2.2.2.2, if_neg hzg, if_neg hzn,
        if_pos hz, hnode₂, if_neg hzf, if_neg hzn,
        if_neg fun heq => hnear_far (mem_of_link heq) (mem_of_link hz)]
    · obtain ⟨hzf, -, hzg, -, hzpath⟩ := hout z (.inr (.inr hz))
      have hzn : z ≠ n := fun heq => hn_far (heq ▸ hz)
      rw [hnode z hzpath, if_neg hzg, if_neg hzn, if_neg hne, hnode₂, if_neg hzf, if_neg hzn,
        if_neg fun heq => hnear_far (mem_of_link heq) hz]
  · exact hgf.congr fun z hz => hsame z (.inr hz)
  · refine IsPath.rotateGparent (hpath.congr (fun z hz => ?_) ?_) hgp₂ hapart.above hapart.upper
      hnpath hng (fun heq => (hfar_ne g.x heq).2.2 rfl)
      fun z hz heq => (hout z (.inr (.inr (mem_of_link heq)))).2.2.2.2 hz
    · have hzn : z ≠ n := fun heq => hnpath (heq ▸ hz)
      have hzf : z ≠ f.x := fun heq => hapart.lower (heq ▸ hz)
      rw [hnode₂, if_neg hzf, if_neg hzn,
        if_neg fun heq => (hout z (.inr (.inl (mem_of_link heq)))).2.2.2.2 hz]
    · simp [RbHeap.rotateParent]
  · rw [horder, hseen]
    exact hfill
  · simp only [nodesOf, List.cons_append, List.mem_cons, List.mem_append, not_or] at hz
    obtain ⟨hzf, -, hzg, -, hzpath⟩ := hz
    simp only [mem_inorder_build, not_or] at hzin
    rw [hnode z hzpath, if_neg hzg, if_neg hzin.1, if_neg fun heq => hzin.2.2 (mem_of_link heq),
      hnode₂, if_neg hzf, if_neg hzin.1, if_neg fun heq => hzin.2.1 (mem_of_link heq)]

-- ---------------------------------------------------------------------------
-- One round of the loop
-- ---------------------------------------------------------------------------

/-- The loop finds the side of a red parent by a test on one child of the node above it. -/
theorem Holds.insertBody_red (hh : h.Holds t (f :: g :: path)) (hred : f.color = .red) :
    insertBody ⟨h, some n, some f.x⟩ = insertBranch g.side h n f.x g.x := by
  have hapart := hh.apart
  obtain ⟨-, hpath, -⟩ := hh
  obtain ⟨⟨hfp, hfc, hfn, hfo⟩, hff, hpath⟩ := isPath_cons.1 hpath
  obtain ⟨⟨hgp, hgc, hgn, hgo⟩, hgf, hpath⟩ := isPath_cons.1 hpath
  have hparent : h.rbRedParent f.x = some (some g.x) := by
    rw [rbRedParent, hfc, if_pos hred, hfp]
    rfl
  simp only [insertBody, hfc, hred, hparent, reduceCtorEq, if_false]
  cases hside : g.side with
  | left =>
    rw [hside] at hgo
    refine if_pos fun heq => ?_
    exact (hapart.of_outer f.x (mem_of_link (hgo.symm.trans heq))).2.1 rfl
  | right =>
    rw [hside] at hgn
    exact if_neg fun hne => hne hgn

/-- A red sibling of the parent: the loop goes on above. -/
theorem Holds.insertBranch_red (hh : h.Holds t (f :: g :: path)) (huncle : g.far.color = .red) :
    ∃ u, link g.far = some u ∧ insertBranch g.side h n f.x g.x =
      .again ⟨h.flipColors u f.x g.x, some g.x, parentOf path⟩ := by
  have hapart := hh.apart
  obtain ⟨-, hpath, -⟩ := hh
  obtain ⟨-, -, hpath⟩ := isPath_cons.1 hpath
  obtain ⟨⟨hgp, hgc, hgn, hgo⟩, hgf, -⟩ := isPath_cons.1 hpath
  obtain ⟨u, hu⟩ := exists_link huncle
  refine ⟨u, hu, ?_⟩
  have hug := (hapart.of_outer u (mem_of_link hu)).2.2.2.1
  rw [insertBranch, hgo, hgf.filter_red, if_pos huncle, hu]
  simp [RbHeap.flipColors, hug.symm, hapart.ne.symm, hgp]

/-- A black one: the loop ends behind the rotations. -/
theorem Holds.insertBranch_black (hh : h.Holds t (f :: g :: path)) (hn : link t = some n)
    (huncle : g.far.color = .black) :
    ∃ h', insertBranch g.side h n f.x g.x = .leave (some h') ∧
      h'.Holds (RedBlack.rotateRed t f g) path ∧ SameOff h h' t (f :: g :: path) := by
  have hapart := hh.apart
  have hrotate := hh.rotateGparent
  obtain ⟨-, hpath, -⟩ := id hh
  obtain ⟨⟨hfp, hfc, hfn, hfo⟩, hff, hpath⟩ := isPath_cons.1 hpath
  obtain ⟨⟨hgp, hgc, hgn, hgo⟩, hgf, -⟩ := isPath_cons.1 hpath
  have hred : g.far.color ≠ .red := by simp [huncle]
  rw [insertBranch, hgo, hgf.filter_red, if_neg hred]
  by_cases hside : f.side = g.side
  · rw [hside] at hfo
    have hne : link f.far ≠ some n := fun heq =>
      (hapart.of_far n (mem_of_link heq)).1 (mem_of_link hn)
    simp only [hfo, if_neg hne]
    exact ⟨_, rfl, hrotate hside⟩
  · have hother := RedBlack.Side.eq_other hside
    rw [hother, hn] at hfn
    simp only [hfn, if_true]
    cases t with
    | nil => cases hn
    | node c l x r =>
      cases hn
      obtain ⟨h', rfl, hholds, hsame⟩ := hh.rotateBoth hother
      exact ⟨_, rfl, hholds, hsame⟩

-- ---------------------------------------------------------------------------
-- The loop
-- ---------------------------------------------------------------------------

/-- The loop of `__rb_insert` ends, and the memory holds the repaired tree. -/
theorem Holds.run_insertBody {k fuel : Nat} (hh : h.Holds t path)
    (hfits : RedBlack.Fits path .black k) (ht : RedBlack.Balanced t .red k)
    (hfuel : path.length < fuel) :
    ∃ h', Loop.run insertBody fuel ⟨h, link t, parentOf path⟩ = some (some h') ∧
      h'.Holds (RedBlack.insertColor t path) [] ∧ SameOff h h' t path := by
  obtain ⟨n, hn⟩ : ∃ n, link t = some n := by
    cases ht
    exact ⟨_, rfl⟩
  obtain ⟨fuel, rfl⟩ := Nat.exists_eq_succ_of_ne_zero (Nat.ne_zero_of_lt hfuel)
  induction t, path using RedBlack.insertColor.induct generalizing h n k fuel with
  | case1 t =>
    refine ⟨h.write n (RbNode.setParentColor none .black), ?_, ⟨?_, ?_, ?_⟩, fun z hz _ => ?_⟩
    · rw [hn]
      exact Loop.run_leave rfl fuel
    · refine hh.tree.rehang (by simpa [nodesOf] using hh.nodup) (fun z hz => ?_) fun z _ hne => ?_
      · rw [hn] at hz
        cases hz
        simp [parentOf]
      · have hzn : z ≠ n := fun heq => hne (heq ▸ hn)
        simp [hzn]
    · rw [RedBlack.insertColor, link_paint]
      exact hh.above
    · rw [RedBlack.insertColor, RedBlack.inorder_paint]
      exact hh.nodup
    · have hzn : z ≠ n := fun heq => hz (heq ▸ mem_of_link hn)
      simp [hzn]
  | case2 t f =>
    cases hfits with
    | red _ hroot => cases hroot
    | black _ _ =>
      obtain ⟨⟨_, hcolor, _⟩, _⟩ := isPath_cons.1 hh.above
      refine ⟨h, ?_, holds_fill.2 hh, fun z _ _ => rfl⟩
      rw [hn]
      exact Loop.run_leave (by simp only [insertBody, parentOf, hcolor, if_true]) fuel
  | case3 t f g path hf =>
    obtain ⟨⟨_, hcolor, _⟩, _⟩ := isPath_cons.1 hh.above
    refine ⟨h, ?_, ?_, fun z _ _ => rfl⟩
    · rw [hn]
      exact Loop.run_leave (by simp only [insertBody, parentOf, hcolor, hf, if_true]) fuel
    · rw [RedBlack.insertColor, hf]
      exact holds_plug.2 hh
  | case4 t f g path hg hf ih =>
    obtain ⟨u, hu, hbranch⟩ := hh.insertBranch_red (n := n) hg
    obtain ⟨hfar, _, _, _, heq, _, huncle, hrest⟩ := hfits.red_parent hf
    cases heq
    obtain rfl := huncle.color_eq.symm.trans hg
    have hflip := hh.flipColors hu
    simp only [List.length_cons] at hfuel
    obtain ⟨fuel, rfl⟩ : ∃ fuel', fuel = fuel' + 1 := ⟨fuel - 1, by omega⟩
    obtain ⟨h', hrun, hholds, hsame⟩ := ih hflip hrest ((ht.build_black hfar).build_red
      huncle.paint_red) g.x rfl fuel (by omega)
    refine ⟨h', ?_, ?_, fun z hz hzpath => ?_⟩
    · rw [hn]
      exact (Loop.run_again ((hh.insertBody_red hf).trans hbranch) _).trans hrun
    · rw [RedBlack.insertColor, hf, hg]
      exact hholds
    · simp only [nodesOf, List.cons_append, List.mem_cons, List.mem_append, not_or] at hzpath
      obtain ⟨hzf, hzfar, hzg, hzu, hzrest⟩ := hzpath
      refine (hsame z ?_ hzrest).trans
        (node_flipColors (fun heq => hzu (heq ▸ mem_of_link hu)) hzf hzg)
      simp only [mem_inorder_build, Frame.fill, RedBlack.inorder_paint]
      tauto
  | case5 t f g path hg hf =>
    obtain ⟨h', hbranch, hholds, hsame⟩ := hh.insertBranch_black hn hg
    refine ⟨h', ?_, ?_, hsame⟩
    · rw [hn]
      exact Loop.run_leave ((hh.insertBody_red hf).trans hbranch) fuel
    · rw [RedBlack.insertColor, hf, hg]
      exact holds_plug.2 hholds

-- ---------------------------------------------------------------------------
-- The insertion of a node
-- ---------------------------------------------------------------------------

/-- The null link at a place: the node that has it, and its side. -/
def linkAt : List (Frame ν) → Option (ν × Side)
  | [] => none
  | f :: _ => some (f.x, f.side)

/-- `rb_link_node` at a null link. -/
theorem Holds.rbLinkNode {new : ν} (hh : h.Holds .nil path) (hnew : new ∉ nodesOf path) :
    (h.rbLinkNode new (linkAt path)).Holds (.node .red .nil new .nil) path ∧
      SameOff h (h.rbLinkNode new (linkAt path)) (.node .red .nil new .nil) path := by
  obtain ⟨-, hpath, hnodup⟩ := hh
  have hnodup' : ((ColorTree.node .red .nil new .nil).inorder ++ nodesOf path).Nodup := by
    simpa [ColorTree.inorder] using ⟨hnew, hnodup⟩
  cases path with
  | nil =>
    refine ⟨⟨⟨?_, trivial, trivial⟩, rfl, hnodup'⟩, fun z hz _ => ?_⟩
    · simp [RbHeap.rbLinkNode, linkAt, parentOf, link]
    · have hzn : z ≠ new := by simpa [ColorTree.inorder] using hz
      simp [RbHeap.rbLinkNode, linkAt, hzn]
  | cons f path =>
    obtain ⟨⟨hp, hc, hhole, hother⟩, hfar, hrest⟩ := isPath_cons.1 hpath
    simp only [nodesOf, List.cons_append, List.mem_cons, List.mem_append, not_or] at hnew
    obtain ⟨hnf, hnfar, hnrest⟩ := hnew
    have hpnodup := (List.nodup_append'.1 hnodup).2.1
    simp only [nodesOf, List.cons_append, List.nodup_cons, List.mem_append, not_or] at hpnodup
    obtain ⟨⟨hffar, hfrest⟩, -⟩ := hpnodup
    have hsame : ∀ z, z ≠ new → z ≠ f.x →
        (h.rbLinkNode new (linkAt (f :: path))).node z = h.node z := by
      intro z hzn hzf
      simp [RbHeap.rbLinkNode, linkAt, hzn, hzf]
    refine ⟨⟨⟨?_, trivial, trivial⟩, isPath_cons.2 ⟨?_, ?_, ?_⟩, hnodup'⟩, fun z hz hzpath => ?_⟩
    · simp [RbHeap.rbLinkNode, linkAt, parentOf, link, hnf]
    · simp [RbHeap.rbLinkNode, linkAt, link, Ne.symm hnf, hp, hc, hother]
    · exact hfar.congr fun z hz =>
        hsame z (fun heq => hnfar (heq ▸ hz)) fun heq => hffar (heq ▸ hz)
    · exact hrest.congr (fun z hz =>
        hsame z (fun heq => hnrest (heq ▸ hz)) fun heq => hfrest (heq ▸ hz)) rfl
    · have hzn : z ≠ new := by simpa [ColorTree.inorder] using hz
      simp only [nodesOf, List.cons_append, List.mem_cons, List.mem_append, not_or] at hzpath
      exact hsame z hzn hzpath.1

/-- `rb_link_node` and `rb_insert_color` on the memory of a red-black tree end, and leave the
    one that the insertion makes. They write to the new node and the nodes of the tree only. -/
theorem Holds.rbInsert {new : ν} {fuel : Nat} (hh : h.Holds .nil path)
    (htree : RedBlack.IsRedBlack (plug .nil path)) (hnew : new ∉ nodesOf path)
    (hfuel : path.length < fuel) :
    ∃ h', (h.rbLinkNode new (linkAt path)).rbInsertColor fuel new = some h' ∧
      h'.Holds (RedBlack.insertColor (.node .red .nil new .nil) path) [] ∧
      RedBlack.IsRedBlack (RedBlack.insertColor (.node .red .nil new .nil) path) ∧
      SameOff h h' (.node .red .nil new .nil) path := by
  obtain ⟨_, hbalanced⟩ := htree
  obtain ⟨c, k, hnil, hfits⟩ := hbalanced.exists_fits
  cases hnil
  obtain ⟨hlinked, hoff⟩ := hh.rbLinkNode hnew
  have hred : RedBlack.Balanced (.node .red .nil new .nil) .red 0 := .red .nil .nil
  obtain ⟨h', hrun, hholds, hoff'⟩ := hlinked.run_insertBody hfits hred hfuel
  refine ⟨h', ?_, hholds, hfits.insertColor hred, fun z hz hzpath =>
    (hoff' z hz hzpath).trans (hoff z hz hzpath)⟩
  have hparent : (h.rbLinkNode new (linkAt path)).rbRedParent new = some (parentOf path) := by
    rw [rbRedParent, hlinked.tree.1]
    rfl
  rw [rbInsertColor, hparent]
  exact congrArg Option.join hrun

end Duperemove.RbHeap
