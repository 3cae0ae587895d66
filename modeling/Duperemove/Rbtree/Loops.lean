-- SUMMARY: Loops over a tree in memory that loses nodes meanwhile: the one that empties it, and the walk beside removals of what it has passed.
import Duperemove.Lib.Steps
import Duperemove.Rbtree.Remove
import Duperemove.Rbtree.Walk

/-!
# Loops over a tree that changes

`filerec_close_open_list` removes the first node until there is none. `push_extents` walks
over the groups and hands them to workers, which remove the groups that they were handed
while the walk goes on: it takes the next node in front of handing out the one it stands on.
-/

namespace Duperemove.RbHeap

open RedBlack (ColorTree IsRedBlack)

variable {ν : Type} [DecidableEq ν] {h : RbHeap ν} {t : ColorTree ν} {fuel : Nat}

/-- Three nodes in memory, the outer ones red. -/
def threeNodes : RbHeap Nat :=
  ⟨fun x => if x = 2 then ⟨none, .black, some 3, some 1⟩ else ⟨some 2, .red, none, none⟩, some 2⟩

theorem threeNodes_holds :
    threeNodes.Holds (.node .black (.node .red .nil 1 .nil) 2 (.node .red .nil 3 .nil)) [] :=
  ⟨⟨rfl, ⟨rfl, trivial, trivial⟩, rfl, trivial, trivial⟩, rfl, by decide⟩

theorem threeNodes_redBlack :
    IsRedBlack (.node .black (.node .red .nil 1 .nil) 2 (.node .red .nil 3 .nil)) :=
  ⟨1, .black (.red .nil .nil) (.red .nil .nil)⟩

-- ---------------------------------------------------------------------------
-- Removing the first node
-- ---------------------------------------------------------------------------

/-- The loop of `filerec_close_open_list`: the nodes that it closes, and the memory behind. -/
def closeAll (fuel : Nat) : Nat → RbHeap ν → Option ν → Option (List ν × RbHeap ν)
  | _, h, none => some ([], h)
  | 0, _, some _ => none
  | rounds + 1, h, some n => do
    let h ← h.rbErase fuel n
    let next ← h.rbFirst fuel
    let (closed, h) ← closeAll fuel rounds h next
    return (n :: closed, h)

/-- The loop closes every node once, in order, and leaves an empty tree. Other memory stays. -/
theorem Holds.closeAll_empties {rounds : Nat} (hh : h.Holds t []) (hred : IsRedBlack t)
    (hfuel : t.inorder.length ≤ fuel) (hrounds : t.inorder.length ≤ rounds) :
    ∃ h', closeAll fuel rounds h t.inorder.head? = some (t.inorder, h') ∧ h'.rbNode = none ∧
      ∀ z, z ∉ t.inorder → h'.node z = h.node z := by
  induction hnodes : t.inorder generalizing h t rounds with
  | nil =>
    cases t with
    | nil => exact ⟨h, by cases rounds <;> rfl, hh.above, fun _ _ => rfl⟩
    | node c left x right => simp [ColorTree.inorder] at hnodes
  | cons x rest ih =>
    rw [hnodes, List.length_cons] at hfuel hrounds
    obtain ⟨rounds, rfl⟩ := Nat.exists_eq_succ_of_ne_zero (Nat.ne_zero_of_lt hrounds)
    have hroom : t.inorder.length ≤ fuel := by simpa [hnodes] using hfuel
    obtain ⟨h₁, t₁, herase, hh₁, hred₁, hrest, hoff₁⟩ :=
      hh.rbErase_split (a := []) hred hnodes hroom
    rw [List.nil_append] at hrest
    have hheight : t₁.height ≤ rest.length := by
      rw [← hrest]
      exact RedBlack.ColorTree.height_le_length
    have hfirst : h₁.rbFirst fuel = some t₁.inorder.head? := hh₁.rbFirst (by omega)
    have hless : t₁.inorder.length ≤ rounds := by
      rw [hrest]
      omega
    obtain ⟨h', hclose, hempty, hoff⟩ := ih hh₁ hred₁ (by rw [hrest]; omega) hless hrest
    refine ⟨h', ?_, hempty, fun z hz => ?_⟩
    · rw [hrest] at hfirst
      simp only [List.head?_cons, RbHeap.closeAll, herase, hfirst, hclose, Option.bind_eq_bind,
        Option.bind_some, Option.pure_def]
    · rw [List.mem_cons, not_or] at hz
      rw [hoff z hz.2, hoff₁ z (by simp [hnodes, hz])]

theorem closes_three_nodes : ∃ h', closeAll 3 3 threeNodes (some 1) = some ([1, 2, 3], h') ∧
    h'.rbNode = none ∧ ∀ z, z ∉ [1, 2, 3] → h'.node z = threeNodes.node z :=
  threeNodes_holds.closeAll_empties threeNodes_redBlack (by decide) (by decide)

-- ---------------------------------------------------------------------------
-- The walk beside removals
-- ---------------------------------------------------------------------------

/-- `push_extents` between two rounds: the memory, the node that comes next, the nodes that
    the walk has visited, and those of them that the workers have removed. Whether a group it
    visits is pushed, and whether a push that fails ends the walk, does not matter to the
    tree and is left out. -/
structure HandOut (ν : Type) where
  heap : RbHeap ν
  node : Option ν
  handed : List ν
  gone : List ν

/-- One round of `push_extents`, a worker that removes a node, or one that writes anything to a
    node it has removed. -/
inductive HandOutEvent (ν : Type) where
  | round
  | remove (x : ν)
  | reuse (x : ν) (node : RbNode ν)

/-- Both sides hold the lock around `rbtree.c`, so the steps follow each other. A worker removes
    a node that the walk has visited, once. An event that cannot happen does nothing. -/
def HandOut.step (fuel : Nat) (s : HandOut ν) : HandOutEvent ν → Option (HandOut ν)
  | .round =>
    match s.node with
    | none => some s
    | some n => do
      let node ← s.heap.rbNext fuel n
      return { s with node, handed := s.handed ++ [n] }
  | .remove x =>
    if x ∈ s.handed ∧ x ∉ s.gone then do
      let heap ← s.heap.rbErase fuel x
      return { s with heap, gone := x :: s.gone }
    else some s
  | .reuse x node =>
    some (if x ∈ s.gone then { s with heap := s.heap.write x fun _ => node } else s)

/-- The memory holds the nodes of the walk that are not removed, and the walk stands in front
    of the nodes that were not visited. -/
structure HandOut.Stands (s : HandOut ν) (all rest : List ν) (t : ColorTree ν) : Prop where
  holds : s.heap.Holds t []
  redBlack : IsRedBlack t
  all_eq : s.handed ++ rest = all
  gone_handed : ∀ x ∈ s.gone, x ∈ s.handed
  nodup : all.Nodup
  inorder : t.inorder = s.handed.filter (· ∉ s.gone) ++ rest
  next : s.node = rest.head?

variable {s : HandOut ν} {all rest : List ν}

theorem HandOut.Stands.length_le (hs : s.Stands all rest t) : t.inorder.length ≤ all.length := by
  rw [hs.inorder, ← hs.all_eq, List.length_append, List.length_append]
  exact Nat.add_le_add_right (List.length_filter_le _ _) _

/-- A round visits the node that the walk stands on. -/
theorem HandOut.Stands.round {n : ν} (hs : s.Stands all (n :: rest) t) (hfuel : all.length ≤ fuel) :
    ∃ node, s.heap.rbNext fuel n = some node ∧
      HandOut.Stands { s with node, handed := s.handed ++ [n] } all rest t := by
  obtain ⟨c, left, right, path, hplug, hplace, -, hbehind⟩ := hs.holds.exists_place hs.inorder
  have hroom : (RedBlack.plug (.node c left n right) path).inorder.length ≤ fuel := by
    rw [hplug]
    exact hs.length_le.trans hfuel
  have hnext := hplace.rbNext hroom
  rw [hbehind] at hnext
  have hnodup := hs.nodup
  rw [← hs.all_eq, List.nodup_append'] at hnodup
  have hn : n ∉ s.gone := fun hin =>
    hnodup.2.2 (hs.gone_handed n hin) List.mem_cons_self
  refine ⟨_, hnext, hs.holds, hs.redBlack, ?_, fun x hx => ?_, hs.nodup, ?_, rfl⟩
  · simp [← hs.all_eq]
  · exact List.mem_append_left _ (hs.gone_handed x hx)
  · rw [hs.inorder, List.filter_append, List.filter_cons_of_pos (by simpa using hn)]
    simp

/-- A worker removes a node that the walk has passed, so the next one stays. -/
theorem HandOut.Stands.remove {x : ν} (hs : s.Stands all rest t) (hx : x ∈ s.handed)
    (hgone : x ∉ s.gone) (hfuel : all.length ≤ fuel) :
    ∃ heap t', s.heap.rbErase fuel x = some heap ∧
      HandOut.Stands { s with heap, gone := x :: s.gone } all rest t' := by
  have hmem : x ∈ t.inorder := by
    rw [hs.inorder]
    exact List.mem_append_left _ (List.mem_filter.2 ⟨hx, by simpa using hgone⟩)
  obtain ⟨a, b, hsplit⟩ := List.append_of_mem hmem
  obtain ⟨heap, t', hrun, hholds, hred, hrest, -⟩ :=
    hs.holds.rbErase_split hs.redBlack hsplit (hs.length_le.trans hfuel)
  have hnodup := hs.nodup
  rw [← hs.all_eq, List.nodup_append'] at hnodup
  have hin : t.inorder.Nodup := by
    have hholds := hs.holds.nodup
    rwa [nodesOf, List.append_nil] at hholds
  have hno : x ∉ a := by
    rw [hsplit, List.nodup_append'] at hin
    exact fun h => hin.2.2 h List.mem_cons_self
  refine ⟨heap, t', hrun, hholds, hred, hs.all_eq, fun y hy => ?_, hs.nodup, ?_, hs.next⟩
  · rcases List.mem_cons.1 hy with rfl | hy
    · exact hx
    · exact hs.gone_handed y hy
  · have herase : t'.inorder = t.inorder.erase x := by
      rw [hrest, hsplit, List.erase_append_right _ hno, List.erase_cons_head]
    rw [herase, hin.erase_eq_filter, hs.inorder, List.filter_append, List.filter_filter]
    congr 1
    · refine List.filter_congr fun y _ => ?_
      by_cases hyx : y = x <;> simp [hyx]
    · refine List.filter_eq_self.2 fun y hy => ?_
      have hne : y ≠ x := fun heq => hnodup.2.2 hx (heq ▸ hy)
      simpa using hne

/-- What happens to a removed node changes nothing. -/
theorem HandOut.Stands.reuse {x : ν} (hs : s.Stands all rest t) (hx : x ∈ s.gone)
    (node : RbNode ν) :
    HandOut.Stands { s with heap := s.heap.write x fun _ => node } all rest t := by
  have hno : x ∉ t.inorder := by
    have hnodup := hs.nodup
    rw [← hs.all_eq, List.nodup_append'] at hnodup
    rw [hs.inorder, List.mem_append, List.mem_filter]
    rintro (⟨-, hkept⟩ | hin)
    · exact of_decide_eq_true hkept hx
    · exact hnodup.2.2 (hs.gone_handed x hx) hin
  refine { hs with holds := ⟨hs.holds.tree.congr fun y hy => ?_, hs.holds.above, hs.holds.nodup⟩ }
  exact if_neg fun (heq : y = x) => hno (heq ▸ hy)

/-- No event follows a null pointer, and each keeps the walk. -/
theorem HandOut.Stands.step (hs : s.Stands all rest t) (hfuel : all.length ≤ fuel)
    (e : HandOutEvent ν) :
    ∃ s' rest' t', s.step fuel e = some s' ∧ s'.Stands all rest' t' := by
  cases e with
  | round =>
    cases rest with
    | nil => exact ⟨s, [], t, by rw [HandOut.step, hs.next]; rfl, hs⟩
    | cons n rest =>
      obtain ⟨node, hnext, hs'⟩ := hs.round hfuel
      refine ⟨_, rest, t, ?_, hs'⟩
      rw [HandOut.step, hs.next]
      simp only [List.head?_cons, hnext]
      rfl
  | remove x =>
    by_cases hx : x ∈ s.handed ∧ x ∉ s.gone
    · obtain ⟨heap, t', herase, hs'⟩ := hs.remove hx.1 hx.2 hfuel
      refine ⟨_, rest, t', ?_, hs'⟩
      rw [HandOut.step, if_pos hx, herase]
      rfl
    · exact ⟨s, rest, t, if_neg hx, hs⟩
  | reuse x node =>
    by_cases hx : x ∈ s.gone
    · exact ⟨_, rest, t, congrArg some (if_pos hx), hs.reuse hx node⟩
    · exact ⟨s, rest, t, congrArg some (if_neg hx), hs⟩

theorem HandOut.Stands.run (hs : s.Stands all rest t) (hfuel : all.length ≤ fuel)
    (events : List (HandOutEvent ν)) :
    ∃ s' rest' t', events.foldlM (HandOut.step fuel) s = some s' ∧ s'.Stands all rest' t' := by
  induction events generalizing s rest t with
  | nil => exact ⟨s, rest, t, rfl, hs⟩
  | cons e events ih =>
    obtain ⟨s₁, rest₁, t₁, hstep, hs₁⟩ := hs.step hfuel e
    obtain ⟨s₂, rest₂, t₂, hrun, hs₂⟩ := ih hs₁
    exact ⟨s₂, rest₂, t₂, Steps.run_cons.2 ⟨s₁, hstep, hrun⟩, hs₂⟩

/-- In every interleaving of the walk with the removals behind it, the nodes are visited in
    order, each once, and all of them when the walk ends. -/
theorem Holds.handOut_in_order (hh : h.Holds t []) (hred : IsRedBlack t)
    (hfuel : t.inorder.length ≤ fuel) (events : List (HandOutEvent ν)) :
    ∃ first s rest t', h.rbFirst fuel = some first ∧
      events.foldlM (HandOut.step fuel) ⟨h, first, [], []⟩ = some s ∧
      s.handed ++ rest = t.inorder ∧ s.node = rest.head? ∧
      s.heap.Holds t' [] ∧ IsRedBlack t' ∧ t'.inorder = t.inorder.filter (· ∉ s.gone) := by
  have hnodup : t.inorder.Nodup := by
    have hholds := hh.nodup
    rwa [nodesOf, List.append_nil] at hholds
  have hstart : HandOut.Stands ⟨h, t.inorder.head?, [], []⟩ t.inorder t.inorder t :=
    ⟨hh, hred, rfl, fun _ => id, hnodup, rfl, rfl⟩
  obtain ⟨s, rest, t', hrun, hs⟩ := hstart.run hfuel events
  have hheight : t.height ≤ fuel := RedBlack.ColorTree.height_le_length.trans hfuel
  have hfirst := hh.rbFirst hheight
  refine ⟨_, s, rest, t', hfirst, hrun, hs.all_eq, hs.next, hs.holds, hs.redBlack, ?_⟩
  rw [hs.inorder, ← hs.all_eq, List.filter_append]
  rw [← hs.all_eq, List.nodup_append'] at hnodup
  congr 1
  refine (List.filter_eq_self.2 fun x hx => ?_).symm
  simpa using fun hgone => hnodup.2.2 (hs.gone_handed x hgone) hx

/-- The worker removes the root while the walk stands on the node behind it. -/
theorem hands_out_three_nodes :
    ∃ first s rest t', threeNodes.rbFirst 3 = some first ∧
      [.round, .round, .remove 2, .reuse 2 ⟨none, .red, none, none⟩, .round].foldlM
        (HandOut.step 3) ⟨threeNodes, first, [], []⟩ = some s ∧
      s.handed ++ rest = [1, 2, 3] ∧ s.node = rest.head? ∧
      s.heap.Holds t' [] ∧ IsRedBlack t' ∧ t'.inorder = [1, 2, 3].filter (· ∉ s.gone) :=
  threeNodes_holds.handOut_in_order threeNodes_redBlack (by decide) _

end Duperemove.RbHeap
