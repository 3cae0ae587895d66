-- SUMMARY: rb_first and rb_next visit the nodes of a tree in memory in order, each once.
import Duperemove.Rbtree.Shape

/-!
# The walk in order

`rb_first` goes to the left, and `rb_next` to the successor: below the right child, or above
on the first way up that comes from a left child. The loop over both visits the nodes in
order and ends.
-/

namespace Duperemove.RbHeap

open RedBlack (Color Side ColorTree Frame plug before behind)
open RedBlack.ColorTree (build)

variable {ν : Type} [DecidableEq ν] {h : RbHeap ν} {t left right : ColorTree ν} {f : Frame ν}
  {path : List (Frame ν)} {c : Color} {x : ν} {p : Option ν} {fuel : Nat}

/-- The loop `for (n = rb_first(root); n; n = rb_next(n))`: the nodes that it visits. -/
def rbWalk (fuel : Nat) (h : RbHeap ν) : Nat → Option ν → Option (List ν)
  | _, none => some []
  | 0, some _ => none
  | rounds + 1, some n => do
    let next ← h.rbNext fuel n
    let rest ← h.rbWalk fuel rounds next
    return n :: rest

omit [DecidableEq ν] in
theorem IsTree.run_firstBody (ht : h.IsTree p t) (hx : link t = some x) (hfuel : t.height ≤ fuel) :
    ∃ y, t.inorder.head? = some y ∧ Loop.run h.firstBody fuel x = some y := by
  induction t generalizing p x fuel with
  | nil => cases hx
  | node c left y right ihl ihr =>
    cases hx
    obtain ⟨fuel, rfl⟩ := Nat.exists_eq_succ_of_ne_zero
      (Nat.ne_zero_of_lt (Nat.lt_of_lt_of_le (Nat.succ_pos _) hfuel))
    obtain ⟨hy, hl, -⟩ := ht
    cases left with
    | nil =>
      refine ⟨y, rfl, Loop.run_leave ?_ fuel⟩
      rw [firstBody, hy]
      rfl
    | node cl ll z lr =>
      have hheight : (ColorTree.node cl ll z lr).height ≤ fuel := by
        rw [ColorTree.height] at hfuel
        omega
      obtain ⟨w, hw, hrun⟩ := ihl hl rfl hheight
      refine ⟨w, ?_, (Loop.run_again ?_ fuel).trans hrun⟩
      · rw [ColorTree.inorder, List.head?_append, hw]
        rfl
      · rw [firstBody, hy]
        rfl

omit [DecidableEq ν] in
/-- `rb_first` returns the first node in order. -/
theorem Holds.rbFirst (hh : h.Holds t []) (hfuel : t.height ≤ fuel) :
    h.rbFirst fuel = some t.inorder.head? := by
  have hroot : h.rbNode = link t := hh.above
  rw [RbHeap.rbFirst, hroot]
  cases t with
  | nil => rfl
  | node c left y right =>
    obtain ⟨z, hz, hrun⟩ := hh.tree.run_firstBody rfl hfuel
    simp only [link, hrun, hz, Option.map_some]

/-- The way up goes to the first node behind the place. -/
theorem Holds.run_nextBody (hh : h.Holds t path) (hx : link t = some x)
    (hfuel : path.length < fuel) :
    Loop.run h.nextBody fuel x = some (behind path).head? := by
  obtain ⟨fuel, rfl⟩ := Nat.exists_eq_succ_of_ne_zero (Nat.ne_zero_of_lt hfuel)
  induction path generalizing t x fuel with
  | nil =>
    refine Loop.run_leave ?_ fuel
    cases t with
    | nil => cases hx
    | node c l y r =>
      cases hx
      rw [nextBody, hh.tree.1]
      rfl
  | cons f path ih =>
    obtain ⟨⟨-, -, hhole, hother⟩, -, -⟩ := isPath_cons.1 hh.above
    have hparent : (h.node x).rbParent = some f.x := by
      cases t with
      | nil => cases hx
      | node c l y r =>
        cases hx
        rw [hh.tree.1]
        rfl
    cases hside : f.side with
    | left =>
      have hright : (h.node f.x).rbRight ≠ some x := by
        rw [hside] at hother
        intro heq
        have hnodup := hh.nodup
        simp only [nodesOf, List.cons_append, List.nodup_append', List.disjoint_cons_right,
          List.disjoint_append_right] at hnodup
        exact hnodup.2.2.2.1 (mem_of_link hx) (mem_of_link (hother.symm.trans heq))
      have hleave : h.nextBody x = .leave (some f.x) := by
        rw [nextBody, hparent]
        exact if_neg hright
      rw [Loop.run_leave hleave]
      simp [behind, hside, Side.pick]
    | right =>
      rw [hside, hx] at hhole
      rw [List.length_cons] at hfuel
      obtain ⟨fuel, rfl⟩ : ∃ fuel', fuel = fuel' + 1 := ⟨fuel - 1, by omega⟩
      have hagain : h.nextBody x = .again f.x := by
        rw [nextBody, hparent]
        exact if_pos hhole
      have hbehind : behind (f :: path) = behind path := by simp [behind, hside, Side.pick]
      have hless : path.length < fuel + 1 := by omega
      rw [Loop.run_again hagain, hbehind]
      exact ih (holds_fill.2 hh) rfl fuel hless

/-- `rb_next` returns the next node in order. -/
theorem Holds.rbNext (hh : h.Holds (.node c left x right) path)
    (hfuel : (plug (.node c left x right) path).inorder.length ≤ fuel) :
    h.rbNext fuel x = some (right.inorder ++ behind path).head? := by
  obtain ⟨hx, -, hr⟩ := hh.tree
  have hperm : (plug (.node c left x right) path).inorder.Perm
      ((ColorTree.node c left x right).inorder ++ nodesOf path) := perm_plug
  have hsize := hperm.length_eq
  have hlength : path.length ≤ (nodesOf path).length := length_le_nodesOf
  simp only [ColorTree.inorder, List.length_append, List.length_cons] at hsize
  have hin : ¬((h.node x).rbParent = some x ∧ (h.node x).rbColor = .red) := by
    rw [hx]
    rintro ⟨heq, -⟩
    refine parentOf_ne (fun hmem => ?_) heq
    refine (List.nodup_append'.1 hh.nodup).2.2 ?_ hmem
    simp [ColorTree.inorder]
  rw [RbHeap.rbNext, if_neg hin, hx]
  cases right with
  | nil =>
    have hshort : path.length < fuel := by omega
    exact hh.run_nextBody rfl hshort
  | node cr rl y rr =>
    have hheight : (ColorTree.node cr rl y rr).height ≤ fuel := by
      have hle := RedBlack.ColorTree.height_le_length (t := .node cr rl y rr)
      omega
    obtain ⟨z, hz, hrun⟩ := hr.run_firstBody rfl hheight
    simp only [link, hrun, List.head?_append, hz, Option.map_some, Option.some_or]

/-- The loop over `rb_next` from any node on. -/
theorem Holds.rbWalk_from {rounds : Nat} {a b : List ν} (hh : h.Holds t [])
    (hsplit : t.inorder = a ++ b) (hfuel : t.inorder.length ≤ fuel) (hrounds : b.length ≤ rounds) :
    h.rbWalk fuel rounds b.head? = some b := by
  induction b generalizing a rounds with
  | nil => cases rounds <;> rfl
  | cons x b ih =>
    obtain ⟨rounds, rfl⟩ := Nat.exists_eq_succ_of_ne_zero (Nat.ne_zero_of_lt hrounds)
    obtain ⟨c, left, right, path, rfl, -, hbehind⟩ := RedBlack.exists_place hsplit
    have hnext := (holds_plug.1 hh).rbNext hfuel
    rw [hbehind] at hnext
    rw [List.length_cons] at hrounds
    have hrest := @ih rounds (a ++ [x]) (by simp [hsplit]) (by omega)
    simp only [List.head?_cons, rbWalk, hnext, Option.bind_eq_bind, Option.bind_some, hrest]
    rfl

/-- The loop visits each node of the tree once, in order, and ends. -/
theorem Holds.rbWalk (hh : h.Holds t []) (hfuel : t.inorder.length ≤ fuel) :
    h.rbFirst fuel = some t.inorder.head? ∧
      h.rbWalk fuel fuel t.inorder.head? = some t.inorder :=
  ⟨hh.rbFirst (RedBlack.ColorTree.height_le_length.trans hfuel),
    hh.rbWalk_from (a := []) rfl hfuel hfuel⟩

end Duperemove.RbHeap
