-- SUMMARY: The repair of a removal in memory is the repair of the tree: each case of the loop, and the whole loop.
import Duperemove.Rbtree.Shape

/-!
# The repair of a removal in memory

`____rb_erase_color` on a memory that holds a tree with a place that lacks one black node.
Both rotations take the sibling up to the place of the parent; they differ in the colors,
and in the pointers that are right already. Behind case 3 two parent pointers are stale, and
the rotation of case 4 writes both.
-/

namespace Duperemove.RbHeap

open RedBlack (Color Side ColorTree Frame plug)
open RedBlack.ColorTree (build)

variable {ν : Type} {h h' : RbHeap ν} {s : Side} {t : ColorTree ν} {f g : Frame ν}
  {path : List (Frame ν)} {q q' : Option ν}

/-- A rotation that leaves `g` at the place and `f` below it. The trees off the place are
    linked again, and each may have had another parent before. -/
theorem Apart.holds (hapart : Apart t f g path) (cf cg : Color) (ht : h.IsTree (some f.x) t)
    (hff : h.IsTree q f.far) (hgf : h.IsTree q' g.far)
    (hsame : ∀ z, z ≠ f.x → z ≠ g.x → link f.far ≠ some z → link g.far ≠ some z →
      z ∉ nodesOf path → h'.node z = h.node z)
    (hf : (h'.node f.x).rbParent = some g.x ∧ (h'.node f.x).rbColor = f.color ∧
      (h'.node f.x).child f.side = link t ∧ (h'.node f.x).child f.side.other = link f.far)
    (hg : (h'.node g.x).rbParent = parentOf path ∧ (h'.node g.x).rbColor = g.color ∧
      (h'.node g.x).child g.side = some f.x ∧ (h'.node g.x).child g.side.other = link g.far)
    (hfroot : ∀ z, link f.far = some z → h'.node z = (h.node z).setParentColor (some f.x) cf)
    (hgroot : ∀ z, link g.far = some z → h'.node z = (h.node z).setParentColor (some g.x) cg)
    (hpath : h'.IsPath path (some g.x)) :
    h'.Holds t ({ f with far := f.far.paint cf } :: { g with far := g.far.paint cg } :: path) := by
  refine ⟨ht.congr fun z hz => ?_, isPath_cons.2 ⟨?_, ?_, isPath_cons.2 ⟨?_, ?_, hpath⟩⟩, ?_⟩
  · obtain ⟨hzf, hzff, hzg, hzgf, hzpath⟩ := hapart.of_below z hz
    exact hsame z hzf hzg (fun heq => hzff (mem_of_link heq)) (fun heq => hzgf (mem_of_link heq))
      hzpath
  · simpa [parentOf] using hf
  · refine hff.rehang hapart.far hfroot fun z hz hne => ?_
    obtain ⟨-, hzf, hzg, hzgf, hzpath⟩ := hapart.of_far z hz
    exact hsame z hzf hzg hne (fun heq => hzgf (mem_of_link heq)) hzpath
  · simpa using hg
  · refine hgf.rehang hapart.outer hgroot fun z hz hne => ?_
    obtain ⟨-, hzf, hzff, hzg, hzpath⟩ := hapart.of_outer z hz
    exact hsame z hzf hzg (fun heq => hzff (mem_of_link heq)) hne hzpath
  · have hnodup := hapart.nodup
    simpa [nodesOf] using hnodup

section Rotations

variable [DecidableEq ν] {c : Color} {x y o i : ν} {inner outer : ColorTree ν}

/-- What case 4 does to each node off the path, and to the path. -/
theorem eraseRotate_eq (hparent : (h.node y).rbParent = parentOf path) (hyx : y ≠ x)
    (hoy : o ≠ y) (hox : o ≠ x) (hy : (h.node x).child s ≠ some y)
    (hx : (h.node x).child s ≠ some x) (ho : (h.node x).child s ≠ some o) :
    ∃ h', h.eraseRotate s y x (some o) = some h' ∧
      (∀ z, z ∉ nodesOf path → h'.node z =
        if z = y then
          ((h.node z).setChild s.other ((h.node x).child s)).setParentColor (some x) .black
        else if z = x then
          ((h.node z).setChild s (some y)).setParentColor (parentOf path) (h.node y).rbColor
        else if z = o then (h.node z).setParentColor (some x) .black
        else if (h.node x).child s = some z then (h.node z).setParent (some y)
        else h.node z) ∧
      ((∀ z ∈ nodesOf path, z ≠ y ∧ z ≠ x ∧ z ≠ o ∧ (h.node x).child s ≠ some z) →
        (nodesOf path).Nodup → h.IsPath path (some y) → h'.IsPath path (some x)) := by
  refine ⟨_, rfl, fun z hz => ?_, fun hapart hnodup hpath => ?_⟩
  · rw [node_rbRotateSetParents _ hyx hz]
    · by_cases hzy : z = y
      · subst hzy
        simp [hyx, hoy.symm, hy]
      · by_cases hzx : z = x
        · subst hzx
          simp [hyx, hyx.symm, hox.symm, hoy.symm, hx, hy]
        · by_cases hzo : z = o
          · subst hzo
            simp [hox, hoy, ho]
          · simp [hzy, hzx, hzo]
    · simp [hyx, hoy.symm, hy, hparent]
  · refine IsPath.rotateSetParents (hpath.congr (fun z hz => ?_) ?_) ?_ hnodup
      (fun hz => (hapart y hz).1 rfl) fun hz => (hapart x hz).2.1 rfl
    · obtain ⟨hzy, hzx, hzo, hzi⟩ := hapart z hz
      simp [hzy, hzx, hzo, hzi]
    · simp
    · simp [hyx, hoy.symm, hy, hparent]

/-- Case 4: the sibling takes the place of the parent, which becomes black. -/
theorem Apart.eraseRotate (hapart : Apart t ⟨s, .black, y, inner⟩ ⟨s, c, x, outer⟩ path)
    (ht : h.IsTree (some y) t) (hinner : h.IsTree q inner) (houter : h.IsTree q' outer)
    (hpath : h.IsPath path (some y))
    (hy : (h.node y).rbParent = parentOf path ∧ (h.node y).rbColor = c ∧
      (h.node y).child s = link t)
    (hx : (h.node x).child s = link inner ∧ (h.node x).child s.other = link outer)
    (ho : link outer = some o) :
    ∃ h', h.eraseRotate s y x (some o) = some h' ∧
      h'.Holds t (⟨s, .black, y, inner⟩ :: ⟨s, c, x, outer.paint .black⟩ :: path) ∧
      SameOff h h' t (⟨s, .black, y, inner⟩ :: ⟨s, c, x, outer⟩ :: path) := by
  obtain ⟨hyp, hyc, hyt⟩ := hy
  obtain ⟨-, hoy, hoi, hox, hopath⟩ := hapart.of_outer o (mem_of_link ho)
  have hio : ∀ z, link inner = some z → z ≠ y ∧ z ≠ x ∧ z ≠ o ∧ z ∉ nodesOf path := by
    intro z hz
    obtain ⟨-, hzy, hzx, hzo, hzpath⟩ := hapart.of_far z (mem_of_link hz)
    exact ⟨hzy, hzx, fun heq => hzo (heq ▸ mem_of_link ho), hzpath⟩
  obtain ⟨h', heq, hnode, hpath'⟩ := eraseRotate_eq (h := h) (s := s) hyp hapart.ne hoy hox
    (fun heq => (hio y (hx.1.symm.trans heq)).1 rfl)
    (fun heq => (hio x (hx.1.symm.trans heq)).2.1 rfl)
    fun heq => (hio o (hx.1.symm.trans heq)).2.2.1 rfl
  rw [hx.1, hyc] at hnode
  rw [hx.1] at hpath'
  have hsame : ∀ z, z ≠ y → z ≠ x → link inner ≠ some z → link outer ≠ some z →
      z ∉ nodesOf path → h'.node z = h.node z := by
    intro z hzy hzx hzi hzo hzpath
    have hne : z ≠ o := fun heq => hzo (heq ▸ ho)
    rw [hnode z hzpath, if_neg hzy, if_neg hzx, if_neg hne, if_neg hzi]
  refine ⟨h', heq, ?_, fun z hz hzpath => ?_⟩
  · have hholds := hapart.holds inner.color .black ht hinner houter hsame ?_ ?_
      (fun z hz => ?_) (fun z hz => ?_) ?_
    · rwa [paint_color] at hholds
    · rw [hnode y hapart.lower, if_pos rfl]
      exact ⟨rfl, rfl, by simp [hyt], by simp⟩
    · rw [hnode x hapart.upper, if_neg hapart.ne.symm, if_pos rfl]
      exact ⟨rfl, rfl, by simp, by simp [hx.2]⟩
    · obtain ⟨hzy, hzx, hzo, hzpath⟩ := hio z hz
      rw [hnode z hzpath, if_neg hzy, if_neg hzx, if_neg hzo, if_pos hz, ← hinner.rbColor_eq hz]
      rfl
    · obtain rfl := Option.some.inj (ho.symm.trans hz)
      rw [hnode o hopath, if_neg hoy, if_neg hox, if_pos rfl]
    · refine hpath' (fun z hz => ?_) hapart.above hpath
      exact ⟨fun heq => hapart.lower (heq ▸ hz), fun heq => hapart.upper (heq ▸ hz),
        fun heq => hopath (heq ▸ hz), fun heq => (hio z heq).2.2.2 hz⟩
  · simp only [nodesOf, List.cons_append, List.mem_cons, List.mem_append, not_or] at hzpath
    obtain ⟨hzy, hzi, hzx, hzo, hzpath⟩ := hzpath
    exact hsame z hzy hzx (fun heq => hzi (mem_of_link heq)) (fun heq => hzo (mem_of_link heq))
      hzpath

/-- What case 1 does to each node off the path, and to the path. -/
theorem eraseRotateRed_eq (hparent : (h.node y).rbParent = parentOf path) (hyx : y ≠ x)
    (hi : (h.node x).child s = some i) (hiy : i ≠ y) (hix : i ≠ x) :
    ∃ h', h.eraseRotateRed s y x = some (h', i) ∧
      (∀ z, z ∉ nodesOf path → h'.node z =
        if z = y then ((h.node z).setChild s.other (some i)).setParentColor (some x) .red
        else if z = x then
          ((h.node z).setChild s (some y)).setParentColor (parentOf path) (h.node y).rbColor
        else if z = i then (h.node z).setParentColor (some y) .black
        else h.node z) ∧
      ((∀ z ∈ nodesOf path, z ≠ y ∧ z ≠ x ∧ z ≠ i) → (nodesOf path).Nodup →
        h.IsPath path (some y) → h'.IsPath path (some x)) := by
  rw [RbHeap.eraseRotateRed, hi]
  refine ⟨_, rfl, fun z hz => ?_, fun hapart hnodup hpath => ?_⟩
  · rw [node_rbRotateSetParents _ hyx hz]
    · by_cases hzy : z = y
      · subst hzy
        simp [hyx, hiy.symm]
      · by_cases hzx : z = x
        · subst hzx
          simp [hyx, hyx.symm, hix.symm, hiy.symm]
        · by_cases hzi : z = i
          · subst hzi
            simp [hix, hiy]
          · simp [hzy, hzx, hzi]
    · simp [hyx, hiy.symm, hparent]
  · refine IsPath.rotateSetParents (hpath.congr (fun z hz => ?_) ?_) ?_ hnodup
      (fun hz => (hapart y hz).1 rfl) fun hz => (hapart x hz).2.1 rfl
    · obtain ⟨hzy, hzx, hzi⟩ := hapart z hz
      simp [hzy, hzx, hzi]
    · simp
    · simp [hyx, hiy.symm, hparent]

/-- Case 1: the red sibling takes the place of the parent, which becomes red. -/
theorem Apart.eraseRotateRed (hapart : Apart t ⟨s, .red, y, inner⟩ ⟨s, c, x, outer⟩ path)
    (ht : h.IsTree (some y) t) (hinner : h.IsTree q inner) (houter : h.IsTree (some x) outer)
    (hpath : h.IsPath path (some y))
    (hy : (h.node y).rbParent = parentOf path ∧ (h.node y).rbColor = c ∧
      (h.node y).child s = link t)
    (hx : (h.node x).child s = link inner ∧ (h.node x).child s.other = link outer)
    (hi : link inner = some i) :
    ∃ h', h.eraseRotateRed s y x = some (h', i) ∧
      h'.Holds t (⟨s, .red, y, inner.paint .black⟩ :: ⟨s, c, x, outer⟩ :: path) ∧
      SameOff h h' t (⟨s, .red, y, inner⟩ :: ⟨s, c, x, outer⟩ :: path) := by
  obtain ⟨hyp, hyc, hyt⟩ := hy
  obtain ⟨-, hiy, hix, hio, hipath⟩ := hapart.of_far i (mem_of_link hi)
  obtain ⟨h', heq, hnode, hpath'⟩ :=
    eraseRotateRed_eq (h := h) hyp hapart.ne (hx.1.trans hi) hiy hix
  rw [hyc] at hnode
  have hsame : ∀ z, z ≠ y → z ≠ x → link inner ≠ some z → link outer ≠ some z →
      z ∉ nodesOf path → h'.node z = h.node z := by
    intro z hzy hzx hzi _ hzpath
    have hne : z ≠ i := fun heq => hzi (heq ▸ hi)
    rw [hnode z hzpath, if_neg hzy, if_neg hzx, if_neg hne]
  refine ⟨h', heq, ?_, fun z hz hzpath => ?_⟩
  · have hholds := hapart.holds .black outer.color ht hinner houter hsame ?_ ?_
      (fun z hz => ?_) (fun z hz => ?_) ?_
    · rwa [paint_color] at hholds
    · rw [hnode y hapart.lower, if_pos rfl]
      exact ⟨rfl, rfl, by simp [hyt], by simp [hi]⟩
    · rw [hnode x hapart.upper, if_neg hapart.ne.symm, if_pos rfl]
      exact ⟨rfl, rfl, by simp, by simp [hx.2]⟩
    · obtain rfl := Option.some.inj (hi.symm.trans hz)
      rw [hnode i hipath, if_neg hiy, if_neg hix, if_pos rfl]
    · obtain ⟨-, hzy, hzi, hzx, hzpath⟩ := hapart.of_outer z (mem_of_link hz)
      have hne : z ≠ i := fun heq => hzi (heq ▸ mem_of_link hi)
      rw [hnode z hzpath, if_neg hzy, if_neg hzx, if_neg hne, houter.setParentColor_eq hz]
    · refine hpath' (fun z hz => ?_) hapart.above hpath
      exact ⟨fun heq => hapart.lower (heq ▸ hz), fun heq => hapart.upper (heq ▸ hz),
        fun heq => hipath (heq ▸ hz)⟩
  · simp only [nodesOf, List.cons_append, List.mem_cons, List.mem_append, not_or] at hzpath
    obtain ⟨hzy, hzi, hzx, hzo, hzpath⟩ := hzpath
    exact hsame z hzy hzx (fun heq => hzi (mem_of_link heq)) (fun heq => hzo (mem_of_link heq))
      hzpath

end Rotations

-- ---------------------------------------------------------------------------
-- One round of the loop
-- ---------------------------------------------------------------------------

section Round

variable [DecidableEq ν] {c : Color} {x y : ν} {inner outer far : ColorTree ν}

/-- The memory behind case 2. -/
def flipSibling (h : RbHeap ν) (parent sibling : ν) : RbHeap ν :=
  (h.write sibling (RbNode.setParentColor (some parent) .red)).write parent
    fun n => { n with rbColor := .black }

/-- Case 2: the sibling becomes red, and the parent black. -/
theorem Holds.flipSibling (hh : h.Holds t (⟨s, c, y, far⟩ :: path)) (hx : link far = some x) :
    (h.flipSibling y x).Holds (build s .black t y (far.paint .red)) path ∧
      SameOff h (h.flipSibling y x) t (⟨s, c, y, far⟩ :: path) := by
  have hfill := (holds_fill.2 hh).nodup
  obtain ⟨ht, hpath, hnodup⟩ := hh
  obtain ⟨⟨hyp, hyc, hyt, hyo⟩, hfar, hpath⟩ := isPath_cons.1 hpath
  simp only [nodesOf, List.cons_append, List.nodup_append', List.nodup_cons, List.mem_append,
    not_or, List.disjoint_cons_right, List.disjoint_append_right] at hnodup
  obtain ⟨-, ⟨⟨hyfar, hypath⟩, hfnodup, -, hfp⟩, hyt', htf, htp⟩ := hnodup
  have hxfar := mem_of_link hx
  have hyx : y ≠ x := fun heq => hyfar (heq ▸ hxfar)
  have hsame : ∀ z, z ≠ y → z ≠ x → (h.flipSibling y x).node z = h.node z := by
    intro z hzy hzx
    simp [RbHeap.flipSibling, hzy, hzx]
  refine ⟨⟨isTree_build.2 ⟨?_, ht.congr fun z hz => ?_, hfar.rehang hfnodup (fun z hz => ?_)
    fun z hz hne => ?_⟩, hpath.congr (fun z hz => ?_) rfl, ?_⟩, fun z hz hzpath => ?_⟩
  · cases s <;> simpa [RbHeap.flipSibling, hyx, RbNode.child] using ⟨hyp, hyt, hyo⟩
  · exact hsame z (fun heq => hyt' (heq ▸ hz)) fun heq => htf hz (heq ▸ hxfar)
  · obtain rfl := Option.some.inj (hx.symm.trans hz)
    simp [RbHeap.flipSibling, hyx.symm]
  · exact hsame z (fun heq => hyfar (heq ▸ hz)) fun heq => hne (heq ▸ hx)
  · exact hsame z (fun heq => hypath (heq ▸ hz)) fun heq => hfp hxfar (heq ▸ hz)
  · simpa [Frame.fill] using hfill
  · simp only [nodesOf, List.cons_append, List.mem_cons, List.mem_append, not_or] at hzpath
    exact hsame z hzpath.1 fun heq => hzpath.2.1 (heq ▸ hxfar)

/-- The memory behind the writes of case 3. -/
def rotateSibling (s : Side) (h : RbHeap ν) (parent sibling tmp2 : ν) : RbHeap ν :=
  let tmp1 := (h.node tmp2).child s.other
  let h := h.write sibling (RbNode.setChild s tmp1)
  let h := h.write tmp2 (RbNode.setChild s.other (some sibling))
  let h := h.write parent (RbNode.setChild s.other (some tmp2))
  h.writeIf tmp1 (RbNode.setParentColor (some sibling) .black)

theorem node_rotateSibling {z : ν} (hyx : y ≠ x) (hyi : y ≠ i) (hxi : x ≠ i)
    (hy : (h.node i).child s.other ≠ some y) (hx : (h.node i).child s.other ≠ some x)
    (hi : (h.node i).child s.other ≠ some i) : (h.rotateSibling s y x i).node z =
      if z = y then (h.node z).setChild s.other (some i)
      else if z = x then (h.node z).setChild s ((h.node i).child s.other)
      else if z = i then (h.node z).setChild s.other (some x)
      else if (h.node i).child s.other = some z then (h.node z).setParentColor (some x) .black
      else h.node z := by
  by_cases hzy : z = y
  · subst hzy
    simp [rotateSibling, hyx, hyi, hy]
  · by_cases hzx : z = x
    · subst hzx
      simp [rotateSibling, hxi, hzy, hx]
    · by_cases hzi : z = i
      · subst hzi
        simp [rotateSibling, hzy, hzx, hi]
      · simp [rotateSibling, hzy, hzx, hzi]

/-- Cases 3 and 4: the inner child of the sibling takes the place of the parent. -/
theorem Holds.rotateSibling {ci : Color} {near : ColorTree ν}
    (hh : h.Holds t (⟨s, c, y, build s .black (build s ci near i far) x outer⟩ :: path)) :
    ∃ h', (h.rotateSibling s y x i).eraseRotate s y i (some x) = some h' ∧
      h'.Holds t (⟨s, .black, y, near⟩ ::
        ⟨s, c, i, build s .black (far.paint .black) x outer⟩ :: path) ∧
      SameOff h h' t (⟨s, c, y, build s .black (build s ci near i far) x outer⟩ :: path) := by
  obtain ⟨ht, hpath, hnodup⟩ := hh
  obtain ⟨⟨hyp, hyc, hyt, hyo⟩, hsibling, hpath⟩ := isPath_cons.1 hpath
  obtain ⟨⟨hxp, hxc, hxi, hxo⟩, hinner, houter⟩ := isTree_build.1 hsibling
  obtain ⟨⟨hip, hic, hin, hif⟩, hnear, hfar⟩ := isTree_build.1 hinner
  -- The nodes of the new arrangement are those of the old one.
  have hperm : (nodesOf (⟨s, c, y, build s .black (build s ci near i far) x outer⟩ :: path)).Perm
      (nodesOf (⟨s, .black, y, near⟩ ::
        ⟨s, c, i, build s .black (far.paint .black) x outer⟩ :: path)) := by
    rw [List.perm_iff_count]
    intro z
    cases s <;> simp only [nodesOf, RedBlack.inorder_build, Side.pick, RedBlack.inorder_paint,
      List.count_append, List.count_cons] <;> omega
  have hapart := apart_of_nodup ((hperm.append_left t.inorder).nodup_iff.1 hnodup)
  obtain ⟨hx_far, hx_outer, hfar_nodup, -, hfar_outer⟩ := nodup_inorder_build.1 hapart.outer
  rw [RedBlack.inorder_paint] at hx_far hfar_nodup hfar_outer
  have hout : ∀ z, z = x ∨ z ∈ far.inorder ∨ z ∈ outer.inorder →
      z ∉ t.inorder ∧ z ≠ y ∧ z ∉ near.inorder ∧ z ≠ i ∧ z ∉ nodesOf path := by
    intro z hz
    refine hapart.of_outer z (mem_inorder_build.2 ?_)
    rwa [RedBlack.inorder_paint]
  obtain ⟨-, hxy, -, hxi', hxpath⟩ := hout x (.inl rfl)
  have hfar_ne : ∀ z, link far = some z → z ≠ x ∧ z ≠ y ∧ z ≠ i := by
    intro z hz
    obtain ⟨-, hzy, -, hzi, -⟩ := hout z (.inr (.inl (mem_of_link hz)))
    exact ⟨fun heq => hx_far (heq ▸ mem_of_link hz), hzy, hzi⟩
  have hnode : ∀ z, (h.rotateSibling s y x i).node z = _ := fun z =>
    node_rotateSibling hxy.symm hapart.ne hxi'
      (fun heq => (hfar_ne y (hif.symm.trans heq)).2.1 rfl)
      (fun heq => (hfar_ne x (hif.symm.trans heq)).1 rfl)
      fun heq => (hfar_ne i (hif.symm.trans heq)).2.2 rfl
  rw [hif] at hnode
  have hsame : ∀ z, z ≠ y → z ≠ x → z ≠ i → link far ≠ some z →
      (h.rotateSibling s y x i).node z = h.node z := by
    intro z hzy hzx hzi hzf
    rw [hnode, if_neg hzy, if_neg hzx, if_neg hzi, if_neg hzf]
  -- The old sibling is a child now, though its parent pointer is stale.
  have houter' : (h.rotateSibling s y x i).IsTree (some y)
      (build s .black (far.paint .black) x outer) := by
    refine isTree_build.2 ⟨?_, ?_, houter.congr fun z hz => ?_⟩
    · rw [hnode, if_neg hxy, if_pos rfl]
      simpa using ⟨hxp, hxc, hxo⟩
    · refine hfar.rehang hfar_nodup (fun z hz => ?_) fun z hz hne => ?_
      · obtain ⟨hzx, hzy, hzi⟩ := hfar_ne z hz
        rw [hnode, if_neg hzy, if_neg hzx, if_neg hzi, if_pos hz]
      · obtain ⟨-, hzy, -, hzi, -⟩ := hout z (.inr (.inl hz))
        exact hsame z hzy (fun heq => hx_far (heq ▸ hz)) hzi hne
    · obtain ⟨-, hzy, -, hzi, -⟩ := hout z (.inr (.inr hz))
      exact hsame z hzy (fun heq => hx_outer (heq ▸ hz)) hzi fun heq =>
        hfar_outer (mem_of_link heq) hz
  have hout_of : ∀ z, z ∈ t.inorder ∨ z ∈ near.inorder ∨ z ∈ nodesOf path →
      z ≠ x ∧ link far ≠ some z := by
    intro z hz
    have hno : ¬(z = x ∨ z ∈ far.inorder ∨ z ∈ outer.inorder) := fun hz' => by
      have hz'' := hout z hz'
      tauto
    exact ⟨fun heq => hno (.inl heq), fun heq => hno (.inr (.inl (mem_of_link heq)))⟩
  have ht' : (h.rotateSibling s y x i).IsTree (some y) t := ht.congr fun z hz => by
    obtain ⟨hzy, -, hzi, -⟩ := hapart.of_below z hz
    obtain ⟨hzx, hzf⟩ := hout_of z (.inl hz)
    exact hsame z hzy hzx hzi hzf
  have hnear' : (h.rotateSibling s y x i).IsTree (some i) near := hnear.congr fun z hz => by
    obtain ⟨-, hzy, hzi, -⟩ := hapart.of_far z hz
    obtain ⟨hzx, hzf⟩ := hout_of z (.inr (.inl hz))
    exact hsame z hzy hzx hzi hzf
  have hpath' : (h.rotateSibling s y x i).IsPath path (some y) := by
    refine hpath.congr (fun z hz => ?_) ?_
    · obtain ⟨hzx, hzf⟩ := hout_of z (.inr (.inr hz))
      exact hsame z (fun heq => hapart.lower (heq ▸ hz)) hzx
        (fun heq => hapart.upper (heq ▸ hz)) hzf
    · simp [RbHeap.rotateSibling]
  obtain ⟨h', heq, hholds, hoff⟩ := hapart.eraseRotate ht' hnear' houter' hpath'
    (by rw [hnode, if_pos rfl]; simpa using ⟨hyp, hyc, hyt⟩)
    (by
      rw [hnode, if_neg hapart.ne.symm, if_neg hxi'.symm, if_pos rfl]
      exact ⟨by simp [hin], by simp⟩) rfl
  refine ⟨h', heq, hholds, fun z hz hzpath => ?_⟩
  have hzpath' := fun hz => hzpath (hperm.mem_iff.2 hz)
  refine (hoff z hz hzpath').trans ?_
  simp only [nodesOf, List.cons_append, List.mem_cons, List.mem_append, mem_inorder_build,
    not_or] at hzpath
  obtain ⟨hzy, ⟨hzx, ⟨hzi, -, hzf⟩, -⟩, -⟩ := hzpath
  exact hsame z hzy hzx hzi fun heq => hzf (mem_of_link heq)

/-- How a round ends that leaves this memory: at the root there is no further one. -/
def climb (h : RbHeap ν) (node : Option ν) : Option ν → Loop.Next (Turn ν) (Option (RbHeap ν))
  | some parent => .again ⟨h, node, some parent⟩
  | none => .leave (some h)

omit [DecidableEq ν] in
/-- The sibling and what is below it, as two nodes above the place. -/
theorem perm_sibling {cs c' : Color} {inner outer : ColorTree ν} :
    (nodesOf (⟨s, c, y, build s cs inner x outer⟩ :: path)).Perm
      (nodesOf (⟨s, c', y, inner⟩ :: ⟨s, c, x, outer⟩ :: path)) := by
  cases s
  · simp [nodesOf, Side.pick]
  · have hturn : (x :: outer.inorder ++ inner.inorder).Perm (inner.inorder ++ x :: outer.inorder) :=
      List.perm_append_comm
    have hswap : (outer.inorder ++ x :: inner.inorder).Perm (inner.inorder ++ x :: outer.inorder) :=
      (List.perm_append_comm_assoc outer.inorder [x] inner.inorder).trans hturn
    simpa [nodesOf, Side.pick] using hswap.append_right (nodesOf path)

/-- Case 2 as the source writes it: a black parent is not written to, and lacks a black node
    from then on. -/
theorem Holds.eraseFlip (hh : h.Holds t (⟨s, c, y, far⟩ :: path)) (hx : link far = some x) :
    ∃ h', h'.Holds (build s .black t y (far.paint .red)) path ∧
      SameOff h h' t (⟨s, c, y, far⟩ :: path) ∧
      (let h₁ := h.write x (RbNode.setParentColor (some y) .red)
        if (h₁.node y).rbColor = .red then
          Loop.Next.leave (some (h₁.write y fun n => { n with rbColor := .black }))
        else
          match (h₁.node y).rbParent with
          | some gparent => .again ⟨h₁, some y, some gparent⟩
          | none => .leave (some h₁)) =
      if decide (c = .black) then h'.climb (some y) (parentOf path) else .leave (some h') := by
  obtain ⟨hholds, hoff⟩ := hh.flipSibling hx
  refine ⟨h.flipSibling y x, hholds, hoff, ?_⟩
  have hyfar : y ∉ far.inorder := by
    have hnodup := hh.nodup
    simp only [nodesOf, List.cons_append, List.nodup_append', List.nodup_cons, List.mem_append,
      not_or] at hnodup
    exact hnodup.2.1.1.1
  have hyx : y ≠ x := fun heq => hyfar (heq ▸ mem_of_link hx)
  obtain ⟨⟨hyp, hyc, -, -⟩, -⟩ := isPath_cons.1 hh.above
  have hy : (h.write x (RbNode.setParentColor (some y) .red)).node y = h.node y := by simp [hyx]
  simp only [hy]
  rw [hyc, hyp]
  cases c with
  | red => rfl
  | black =>
    have hself : h.flipSibling y x = h.write x (RbNode.setParentColor (some y) .red) := by
      refine write_eq_self ?_
      rw [hy]
      cases hn : h.node y
      rw [hn] at hyc
      cases hyc
      rfl
    rw [hself]
    cases parentOf path <;> rfl

/-- Cases 2 to 4, with a black sibling. -/
theorem Holds.eraseLend (hh : h.Holds t (f :: path)) (hx : link f.far = some x)
    (hblack : f.far.color = .black) :
    ∃ h', h'.Holds (RedBlack.lend t f).1 path ∧ SameOff h h' t (f :: path) ∧
      h.eraseLend f.side f.x x =
        if (RedBlack.lend t f).2 then h'.climb (some f.x) (parentOf path)
        else .leave (some h') := by
  obtain ⟨s, c, y, far⟩ := f
  cases far with
  | nil => cases hx
  | node cs l x' r =>
    cases hx
    cases hblack
    have hpath := hh.above
    obtain ⟨⟨hyp, hyc, hyt, hyo⟩, hsibling, -⟩ := isPath_cons.1 hpath
    rw [node_eq_build (s := s)] at hsibling
    obtain ⟨⟨hxp, hxc, hxi, hxo⟩, hinner, houter⟩ := isTree_build.1 hsibling
    have hseen : h.Holds t (⟨s, c, y, build s .black (s.pick l r) x (s.pick r l)⟩ :: path) := by
      rw [← node_eq_build]
      exact hh
    rw [RedBlack.lend.eq_def, RbHeap.eraseLend]
    simp only [hxo, hxi, houter.filter_red, hinner.filter_red]
    cases houterColor : (s.pick r l).color with
    | red =>
      obtain ⟨o, ho⟩ := exists_link houterColor
      simp only [if_true, ho]
      have hapart : Apart t ⟨s, .black, y, s.pick l r⟩ ⟨s, c, x, s.pick r l⟩ path :=
        apart_of_nodup ((perm_sibling.append_left t.inorder).nodup_iff.1 hseen.nodup)
      obtain ⟨⟨_, _, _, _⟩, _, hrest⟩ := isPath_cons.1 hpath
      obtain ⟨h', heq, hholds, hoff⟩ := hapart.eraseRotate hh.tree hinner houter hrest
        ⟨hyp, hyc, hyt⟩ ⟨hxi, hxo⟩ ho
      refine ⟨h', holds_fill.2 (holds_fill.2 hholds), fun z hz hzpath => hoff z hz fun hz' => ?_,
        by rw [heq]; rfl⟩
      rw [node_eq_build (s := s)] at hzpath
      exact hzpath (perm_sibling.mem_iff.2 hz')
    | black =>
      simp only [reduceCtorEq, if_false]
      cases hinnerTree : s.pick l r with
      | nil => exact hh.eraseFlip rfl
      | node ci il i ir =>
        cases ci with
        | black => exact hh.eraseFlip rfl
        | red =>
          have hfar : ColorTree.node .black l x r = build s .black
              (build s .red (s.pick il ir) i (s.pick ir il)) x (s.pick r l) := by
            rw [← node_eq_build, ← hinnerTree]
            exact node_eq_build
          rw [hfar] at hh ⊢
          obtain ⟨h', heq, hholds, hoff⟩ := hh.rotateSibling
          exact ⟨h', holds_fill.2 (holds_fill.2 hholds), hoff, congrArg Loop.Next.leave heq⟩

/-- Case 1 and what follows it, with a red sibling. The parent is red then, so the loop ends. -/
theorem Holds.eraseBranch_red {l r : ColorTree ν}
    (hh : h.Holds t (⟨s, c, y, .node .red l x r⟩ :: path)) (hi : link (s.pick l r) = some i) :
    ∃ h', h.eraseBranch s y = .leave (some h') ∧
      h'.Holds (RedBlack.lend t ⟨s, .red, y, (s.pick l r).paint .black⟩).1
        (⟨s, c, x, s.pick r l⟩ :: path) ∧
      SameOff h h' t (⟨s, c, y, .node .red l x r⟩ :: path) := by
  have hseen : ColorTree.node .red l x r = build s .red (s.pick l r) x (s.pick r l) := node_eq_build
  rw [hseen] at hh ⊢
  generalize s.pick l r = inner at *
  generalize s.pick r l = outer at *
  obtain ⟨⟨hyp, hyc, hyt, hyo⟩, hsibling, hpath⟩ := isPath_cons.1 hh.above
  obtain ⟨⟨hxp, hxc, hxi, hxo⟩, hinnerTree, houter⟩ := isTree_build.1 hsibling
  have hapart : Apart t ⟨s, .red, y, inner⟩ ⟨s, c, x, outer⟩ path :=
    apart_of_nodup ((perm_sibling.append_left t.inorder).nodup_iff.1 hh.nodup)
  obtain ⟨h₁, hrotate, hholds₁, hoff₁⟩ := hapart.eraseRotateRed hh.tree hinnerTree houter hpath
    ⟨hyp, hyc, hyt⟩ ⟨hxi, hxo⟩ hi
  have hblack : (inner.paint .black).color = .black := by cases inner <;> rfl
  obtain ⟨h', hholds, hoff, hlend⟩ := hholds₁.eraseLend (x := i) (by rw [link_paint, hi]) hblack
  have hstop : (RedBlack.lend t ⟨s, .red, y, inner.paint .black⟩).2 = false :=
    RedBlack.lend_red rfl
  refine ⟨h', ?_, hholds, fun z hz hzpath => ?_⟩
  · rw [hstop] at hlend
    rw [RbHeap.eraseBranch, hyo]
    simp only [link_build, hxc, if_true, hrotate]
    exact hlend
  · have hzpath' : z ∉ nodesOf (⟨s, .red, y, inner⟩ :: ⟨s, c, x, outer⟩ :: path) := fun hz =>
      hzpath (perm_sibling.mem_iff.2 hz)
    refine (hoff z hz ?_).trans (hoff₁ z hz hzpath')
    simpa [nodesOf] using hzpath'

/-- The loop finds the side of its place by a test on one child of the parent. -/
theorem Holds.eraseBody_eq (hh : h.Holds t (f :: path)) (hx : link f.far = some x) :
    eraseBody ⟨h, link t, some f.x⟩ = h.eraseBranch f.side f.x := by
  obtain ⟨⟨-, -, hhole, hother⟩, -, -⟩ := isPath_cons.1 hh.above
  have hne : link f.far ≠ link t := by
    intro heq
    have hnodup := hh.nodup
    simp only [nodesOf, List.cons_append, List.nodup_append', List.disjoint_cons_right,
      List.disjoint_append_right] at hnodup
    exact hnodup.2.2.2.1 (mem_of_link (heq ▸ hx)) (mem_of_link hx)
  cases hside : f.side with
  | left =>
    rw [hside] at hother
    exact if_pos fun heq => hne (hother.symm.trans heq)
  | right =>
    rw [hside] at hhole
    exact if_neg fun hneq => hneq hhole

end Round

-- ---------------------------------------------------------------------------
-- The loop
-- ---------------------------------------------------------------------------

section Loop

variable [DecidableEq ν] {k : Nat}

/-- A round repairs the tree, or takes the place that lacks a black node up to the parent. -/
theorem Holds.eraseRound (hh : h.Holds t (f :: path))
    (hfits : RedBlack.Fits (f :: path) .black (k + 1)) (ht : RedBlack.Balanced t .black k) :
    ∃ h', SameOff h h' t (f :: path) ∧
      ((eraseBody ⟨h, link t, some f.x⟩ = .leave (some h') ∧
          h'.Holds (RedBlack.eraseColor t (f :: path)) []) ∨
        ∃ u, (∀ z, z ∈ u.inorder → z ∈ t.inorder ∨ z = f.x ∨ z ∈ f.far.inorder) ∧
          eraseBody ⟨h, link t, some f.x⟩ = h'.climb (link u) (parentOf path) ∧
          h'.Holds u path ∧
          RedBlack.eraseColor t (f :: path) = RedBlack.eraseColor u path ∧
          RedBlack.Fits path .black (k + 2) ∧ RedBlack.Balanced u .black (k + 1)) := by
  obtain ⟨s, c, y, far⟩ := f
  obtain ⟨⟨-, -, -, hother⟩, hfar, -⟩ := isPath_cons.1 hh.above
  cases far with
  | nil => exact absurd rfl hfits.far_ne_nil
  | node cs l x r =>
    have hbody := hh.eraseBody_eq rfl
    cases cs with
    | red =>
      obtain ⟨i, hi⟩ : ∃ i, link (s.pick l r) = some i := by
        cases hfits with
        | red hfar => cases hfar
        | black hfar _ =>
          cases hfar with
          | red hl hr =>
            have hinner : RedBlack.Balanced (s.pick l r) .black (k + 1) := hl.pick_black hr
            generalize s.pick l r = inner at hinner
            cases hinner
            exact ⟨_, rfl⟩
      obtain ⟨h', hbranch, hholds, hoff⟩ := hh.eraseBranch_red hi
      exact ⟨h', hoff, .inl ⟨hbody.trans hbranch, holds_plug.2 hholds⟩⟩
    | black =>
      obtain ⟨h', hholds, hoff, hlend⟩ := hh.eraseLend rfl rfl
      have hround : eraseBody ⟨h, link t, some y⟩ = h.eraseLend s y x := by
        have hcolor : (h.node x).rbColor = .black := hfar.rbColor_eq rfl
        rw [hbody, RbHeap.eraseBranch, hother]
        simp only [link, hcolor, reduceCtorEq, if_false]
      rw [hlend] at hround
      refine ⟨h', hoff, ?_⟩
      rw [RedBlack.eraseColor_black rfl]
      rcases hfits.lend ht rfl with ⟨u, hu, _, hlow, hplace⟩ | ⟨u, hu, _⟩
      · obtain rfl : u = build s .black t y ((ColorTree.node .black l x r).paint .red) := by
          have hshort := RedBlack.lend_short (congrArg Prod.snd hu)
          rw [hu] at hshort
          exact hshort
        rw [hu] at hholds hround ⊢
        refine .inr ⟨_, fun z hz => ?_, hround.trans (if_pos rfl), hholds, rfl, hplace, hlow⟩
        rw [mem_inorder_build, RedBlack.inorder_paint] at hz
        tauto
      · rw [hu] at hholds hround ⊢
        exact .inl ⟨hround, holds_plug.2 hholds⟩

/-- The loop of `____rb_erase_color` ends, and the memory holds the repaired tree. -/
theorem Holds.run_eraseBody {fuel : Nat} (hh : h.Holds t (f :: path))
    (hfits : RedBlack.Fits (f :: path) .black (k + 1)) (ht : RedBlack.Balanced t .black k)
    (hfuel : path.length < fuel) :
    ∃ h', Loop.run eraseBody fuel ⟨h, link t, some f.x⟩ = some (some h') ∧
      h'.Holds (RedBlack.eraseColor t (f :: path)) [] ∧ SameOff h h' t (f :: path) := by
  induction path generalizing h t f k fuel with
  | nil =>
    obtain ⟨fuel, rfl⟩ := Nat.exists_eq_succ_of_ne_zero (Nat.ne_zero_of_lt hfuel)
    obtain ⟨h', hoff, ⟨hbody, hholds⟩ | ⟨u, _, hbody, hholds, heq, _⟩⟩ := hh.eraseRound hfits ht
    · exact ⟨h', Loop.run_leave hbody fuel, hholds, hoff⟩
    · exact ⟨h', Loop.run_leave hbody fuel, heq ▸ hholds, hoff⟩
  | cons g path ih =>
    obtain ⟨fuel, rfl⟩ := Nat.exists_eq_succ_of_ne_zero (Nat.ne_zero_of_lt hfuel)
    rw [List.length_cons] at hfuel
    obtain ⟨h', hoff, ⟨hbody, hholds⟩ | ⟨u, hsub, hbody, hholds, heq, hplace, hlow⟩⟩ :=
      hh.eraseRound hfits ht
    · exact ⟨h', Loop.run_leave hbody fuel, hholds, hoff⟩
    · have hless : path.length < fuel := by omega
      obtain ⟨h'', hrun, hholds', hoff'⟩ := ih hholds hplace hlow hless
      refine ⟨h'', (Loop.run_again hbody fuel).trans hrun, heq ▸ hholds', fun z hz hzpath => ?_⟩
      have hzout : z ∉ u.inorder ∧ z ∉ nodesOf (g :: path) := by
        have hz' := hsub z
        rw [nodesOf, List.cons_append, List.mem_cons, List.mem_append] at hzpath
        tauto
      exact (hoff' z hzout.1 hzout.2).trans (hoff z hz hzpath)

end Loop

end Duperemove.RbHeap
