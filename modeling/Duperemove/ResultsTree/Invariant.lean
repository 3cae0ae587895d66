-- SUMMARY: The counters, groups, lists and trees of the results tree stay in step over every sequence of operations.
import Duperemove.Lib.MapTotal
import Duperemove.ResultsTree.Removal

/-!
# The invariant of the results tree

What a group keeps about itself is part of its type. What is left are the two
counters of the tree, which are totals over the groups, and that no group is
empty. Both are kept by every operation, and the removals end.
-/

namespace Duperemove

namespace ResultsTree

/-- The groups in the order of the tree. -/
def groups (res : ResultsTree) : List DupeExtents := res.root.toList.map Prod.snd

theorem mem_groups_iff {res : ResultsTree} {g : DupeExtents} :
    g ∈ res.groups ↔ res.root[(g.deLen, g.deHash)]? = some g := by
  simp only [groups, List.mem_map, Prod.exists, exists_eq_right,
    Std.TreeMap.mem_toList_iff_getElem?_eq_some]
  constructor
  · rintro ⟨len, digest, hg⟩
    rwa [← res.keyed _ g hg] at hg
  · exact fun hg => ⟨_, _, hg⟩

/-! ## The counters -/

/-- The counters follow the tree, up to `pending` extents that were put in and are
    not counted yet. -/
structure Balanced (pending : Nat) (res : ResultsTree) : Prop where
  numDupes : res.numDupes = res.root.size
  numExtents : res.numExtents + pending = MapTotal.total DupeExtents.deNumDupes res.root

section Balanced

variable {pending : Nat} {res : ResultsTree} {p : Nat × DigestBytes} {g g' : DupeExtents}

theorem balanced_empty : Balanced 0 empty := ⟨rfl, rfl⟩

theorem getElem?_setGroup (k : Nat × DigestBytes) :
    (res.setGroup g).root[k]? = if (g.deLen, g.deHash) = k then some g else res.root[k]? := by
  rw [setGroup_root, getElem?_insert]

theorem getElem?_eraseGroup (k : Nat × DigestBytes) :
    (res.eraseGroup p).root[k]? = if p = k then none else res.root[k]? := by
  rw [eraseGroup, Std.TreeMap.getElem?_erase]
  simp only [Std.LawfulEqCmp.compare_eq_iff_eq]

/-- A new group is counted at once, and it is empty. -/
theorem Balanced.newGroup (h : Balanced pending res)
    (hnew : res.root[(g.deLen, g.deHash)]? = none) (hzero : g.deNumDupes = 0) :
    Balanced pending { res.setGroup g with numDupes := res.numDupes + 1 } := by
  constructor
  · change res.numDupes + 1 = (res.root.insert _ g).size
    rw [← MapTotal.total_one, MapTotal.total_insert hnew, MapTotal.total_one, h.numDupes,
      Nat.add_comm]
  · rw [setGroup_root, MapTotal.total_insert hnew, hzero, Nat.zero_add]
    exact h.numExtents

/-- A group that is changed in place. -/
theorem Balanced.setGroup (h : Balanced pending res)
    (hg : res.root[(g'.deLen, g'.deHash)]? = some g) {pending' : Nat}
    (hnum : pending + g'.deNumDupes = pending' + g.deNumDupes) :
    Balanced pending' (res.setGroup g') := by
  have hsize := MapTotal.total_replace (f := fun _ => 1) hg g'
  have htotal := MapTotal.total_replace (f := DupeExtents.deNumDupes) hg g'
  have hnumExtents := h.numExtents
  constructor
  · rw [MapTotal.total_one, MapTotal.total_one, Nat.add_right_cancel_iff] at hsize
    exact h.numDupes.trans hsize.symm
  · rw [setGroup_root]
    change res.numExtents + pending' = _
    omega

/-- Extents that are counted are no longer pending. -/
theorem Balanced.count {n : Nat} (h : Balanced (pending + n) res) :
    Balanced pending { res with numExtents := res.numExtents + n } := by
  refine ⟨h.numDupes, ?_⟩
  rw [← h.numExtents]
  change res.numExtents + n + pending = _
  omega

/-- An empty group is dropped. -/
theorem Balanced.eraseGroup (h : Balanced pending res) (hg : res.root[p]? = some g)
    (hzero : g.deNumDupes = 0) : Balanced pending (res.eraseGroup p) := by
  have hsize := MapTotal.total_erase (f := fun _ => 1) hg
  have htotal := MapTotal.total_erase (f := DupeExtents.deNumDupes) hg
  constructor
  · rw [MapTotal.total_one, MapTotal.total_one] at hsize
    change res.numDupes - 1 = (res.root.erase p).size
    rw [h.numDupes, ← hsize, Nat.add_sub_cancel_left]
  · change res.numExtents + pending = MapTotal.total _ (res.root.erase p)
    rw [h.numExtents]
    omega

/-- One extent goes, from its group and from the counter. -/
theorem Balanced.removed (h : Balanced 0 res) (hg : res.root[(g'.deLen, g'.deHash)]? = some g)
    (hnum : g'.deNumDupes + 1 = g.deNumDupes) :
    Balanced 0 { res.setGroup g' with numExtents := res.numExtents - 1 } := by
  have hrest := MapTotal.total_erase (f := DupeExtents.deNumDupes) hg
  have hnumExtents := h.numExtents
  have hless : Balanced 1 { res with numExtents := res.numExtents - 1 } := by
    refine ⟨h.numDupes, ?_⟩
    change res.numExtents - 1 + 1 = MapTotal.total _ res.root
    omega
  have hset : Balanced 0 (ResultsTree.setGroup { res with numExtents := res.numExtents - 1 } g') :=
    hless.setGroup hg (by omega)
  exact ⟨hset.numDupes, hset.numExtents⟩

end Balanced

/-! ## Removing one extent -/

/-- What `remove_extent` does to the group `g` of the extent, and to the others. -/
structure Removed (res : ResultsTree) (p : Nat × DigestBytes) (g : DupeExtents) (e : ResultExtent)
    (left : Nat) (res' : ResultsTree) : Prop where
  left_eq : left = if g.deNumDupes ≤ 2 then 0 else g.deNumDupes - 1
  gone : g.deNumDupes ≤ 2 → res'.root[p]? = none
  stays : 2 < g.deNumDupes → ∃ g', res'.root[p]? = some g' ∧ g'.deExtents = g.deExtents.erase e
  others : ∀ k, k ≠ p → res'.root[k]? = res.root[k]?
  balanced : Balanced 0 res → Balanced 0 res'

section Remove

variable {res : ResultsTree} {p : Nat × DigestBytes} {g : DupeExtents} {e : ResultExtent}

/-- The tree after one pass of `remove_extent`, in front of its tests. -/
structure Unlinked (res : ResultsTree) (p : Nat × DigestBytes) (g : DupeExtents) (e : ResultExtent)
    (g' : DupeExtents) (res' : ResultsTree) : Prop where
  unlink : (res.root[p]?.bind fun dext => dext.unlink e) = some g'
  tree : res' = { res.setGroup g' with numExtents := res.numExtents - 1 }
  numDupes : g'.deNumDupes + 1 = g.deNumDupes
  extents : g'.deExtents = g.deExtents.erase e
  here : res'.root[p]? = some g'
  others : ∀ k, k ≠ p → res'.root[k]? = res.root[k]?
  balanced : Balanced 0 res → Balanced 0 res'

theorem exists_unlinked (hg : res.root[p]? = some g) (he : e ∈ g.deExtents) :
    ∃ g' res', Unlinked res p g e g' res' := by
  obtain ⟨g', hunlink, hlen, hhash, hnum, hextents⟩ := DupeExtents.unlink_spec he
  have hkey : (g'.deLen, g'.deHash) = p := by
    rw [hlen, hhash]
    exact res.keyed p g hg
  refine ⟨g', _, ?_, rfl, hnum, hextents, ?_, ?_, ?_⟩
  · rw [hg, Option.bind_some, hunlink]
  · exact (getElem?_setGroup p).trans (if_pos hkey)
  · intro k hk
    exact (getElem?_setGroup k).trans (if_neg (hkey ▸ Ne.symm hk))
  · rw [← hkey] at hg
    exact fun h => h.removed hg hnum

/-- The pass that takes the last extent of a group drops the group. -/
theorem removeRound_last (hg : res.root[p]? = some g) (he : e ∈ g.deExtents)
    (hone : g.deNumDupes = 1) :
    ∃ res', removeRound p (e, res) = .leave (some (0, res')) ∧ res'.root[p]? = none ∧
      (∀ k, k ≠ p → res'.root[k]? = res.root[k]?) ∧ (Balanced 0 res → Balanced 0 res') := by
  obtain ⟨g', res', hunlinked⟩ := exists_unlinked hg he
  have hzero : g'.deNumDupes = 0 := by
    have := hunlinked.numDupes
    omega
  refine ⟨res'.eraseGroup p, ?_, ?_, ?_, ?_⟩
  · simp only [removeRound, hunlinked.unlink, hunlinked.tree, hzero, Nat.zero_ne_one, if_false,
      if_true]
  · exact (getElem?_eraseGroup p).trans (if_pos rfl)
  · intro k hk
    rw [getElem?_eraseGroup, if_neg (Ne.symm hk), hunlinked.others k hk]
  · exact fun h => (hunlinked.balanced h).eraseGroup hunlinked.here hzero

/-- An extent that is in its group is removed, alone or with the whole group. -/
theorem removeExtent_spec (hg : res.root[p]? = some g) (he : e ∈ g.deExtents) :
    ∃ left res', res.removeExtent e = some (left, res') ∧ Removed res p g e left res' := by
  have hparent : e.eParent = some p := by
    rw [g.parent_eq e he, res.keyed p g hg]
  unfold removeExtent
  rw [hparent, Option.bind_some]
  obtain ⟨g', res₁, hunlinked⟩ := exists_unlinked hg he
  have hnum := hunlinked.numDupes
  rcases Nat.lt_trichotomy g'.deNumDupes 1 with hlt | hone | hgt
  · -- It was the only extent.
    obtain ⟨res', hround, hgone, hothers, hbalanced⟩ := removeRound_last hg he (by omega)
    refine ⟨0, res', by rw [Loop.run_leave hround, Option.join_some], ?_⟩
    exact ⟨by rw [if_pos (by omega)], fun _ => hgone, fun h => by omega, hothers, hbalanced⟩
  · -- One extent is left, and the jump back removes it with the group.
    have hne : g'.deExtents ≠ [] := by
      rw [← List.length_pos_iff, ← g'.numDupes_eq, hone]
      exact Nat.one_pos
    obtain ⟨e₁, hfirst⟩ := DupeExtents.exists_rbFirst hne
    have hround : removeRound p (e, res) = .again (e₁, res₁) := by
      simp only [removeRound, hunlinked.unlink, hunlinked.tree, hone, if_true, hfirst]
    obtain ⟨res', hlast, hgone, hothers, hbalanced⟩ :=
      removeRound_last hunlinked.here (DupeExtents.rbFirst_mem hfirst) hone
    refine ⟨0, res', by rw [Loop.run_again hround, Loop.run_leave hlast, Option.join_some], ?_⟩
    refine ⟨by rw [if_pos (by omega)], fun _ => hgone, fun h => by omega, ?_, ?_⟩
    · exact fun k hk => (hothers k hk).trans (hunlinked.others k hk)
    · exact fun h => hbalanced (hunlinked.balanced h)
  · have hround : removeRound p (e, res) = .leave (some (g'.deNumDupes, res₁)) := by
      simp only [removeRound, hunlinked.unlink, hunlinked.tree, Nat.ne_of_gt hgt, if_false,
        Nat.ne_of_gt (Nat.lt_trans Nat.one_pos hgt)]
    refine ⟨g'.deNumDupes, res₁, by rw [Loop.run_leave hround, Option.join_some], ?_⟩
    refine ⟨?_, fun h => by omega, ?_, hunlinked.others, hunlinked.balanced⟩
    · rw [if_neg (by omega)]
      omega
    · exact fun _ => ⟨g', hunlinked.here, hunlinked.extents⟩

end Remove

/-! ## Freeing groups -/

/-- The invariant: the counters are right, and no group is empty. -/
structure Consistent (res : ResultsTree) : Prop where
  balanced : Balanced 0 res
  nonempty : ∀ (p : Nat × DigestBytes) (g : DupeExtents), res.root[p]? = some g → g.deExtents ≠ []

/-- What a removal keeps: the groups under other keys, and the counters. -/
structure Spares (res : ResultsTree) (p : Nat × DigestBytes) (res' : ResultsTree) : Prop where
  others : ∀ k, k ≠ p → res'.root[k]? = res.root[k]?
  balanced : Balanced 0 res → Balanced 0 res'

/-- The group `p` is gone, and nothing else. -/
structure Freed (res : ResultsTree) (p : Nat × DigestBytes) (res' : ResultsTree) : Prop
    extends Spares res p res' where
  gone : res'.root[p]? = none

section Free

variable {res : ResultsTree} {p : Nat × DigestBytes} {g : DupeExtents}

theorem Spares.trans {res' res'' : ResultsTree} (h : Spares res p res')
    (h' : Spares res' p res'') : Spares res p res'' where
  others := fun k hk => (h'.others k hk).trans (h.others k hk)
  balanced := fun hb => h'.balanced (h.balanced hb)

theorem Removed.spares {e : ResultExtent} {left : Nat} {res' : ResultsTree}
    (h : Removed res p g e left res') : Spares res p res' := ⟨h.others, h.balanced⟩

theorem Freed.consistent {res' : ResultsTree} (h : Freed res p res') (hc : Consistent res) :
    Consistent res' := by
  refine ⟨h.balanced hc.balanced, ?_⟩
  intro k g hg
  by_cases hk : k = p
  · rw [hk, h.gone] at hg
    cases hg
  · rw [h.others k hk] at hg
    exact hc.nonempty k g hg

/-- What is left of a group after one of its extents went is smaller and not
    empty. -/
theorem Removed.stays_smaller {e : ResultExtent} {left : Nat} {res' : ResultsTree}
    (h : Removed res p g e left res') (he : e ∈ g.deExtents) (hmany : 2 < g.deNumDupes) :
    ∃ g', res'.root[p]? = some g' ∧ g'.deExtents ≠ [] ∧ g'.deNumDupes < g.deNumDupes := by
  obtain ⟨g', hg', hextents⟩ := h.stays hmany
  have hlen := List.length_erase_of_mem he
  rw [← hextents, ← g'.numDupes_eq, ← g.numDupes_eq] at hlen
  refine ⟨g', hg', ?_, by omega⟩
  rw [← List.length_pos_iff, ← g'.numDupes_eq]
  omega

/-- `dupe_extents_free` ends, the group is gone, and the others are untouched. -/
theorem dupeExtentsFree_spec (hg : res.root[p]? = some g) (hne : g.deExtents ≠ []) :
    ∃ res', res.dupeExtentsFree p = some res' ∧ Freed res p res' := by
  suffices hloop : ∃ r, Loop.run (freeRound p) (g.deNumDupes + 1) res = some r ∧
      ∃ res', r = some res' ∧ Freed res p res' by
    obtain ⟨_, hrun, res', rfl, hfreed⟩ := hloop
    exact ⟨res', by rw [dupeExtentsFree, hg, Option.bind_some, hrun, Option.join_some], hfreed⟩
  refine Loop.run_total
    (fun s => Spares res p s ∧ ∃ g', s.root[p]? = some g' ∧ g'.deExtents ≠ [])
    (fun s => (s.root[p]?.map DupeExtents.deNumDupes).getD 0) ?_ _ _
    ⟨⟨fun _ _ => rfl, id⟩, g, hg, hne⟩ (by rw [hg]; exact Nat.lt_succ_self _)
  rintro s ⟨hspares, g', hg', hne'⟩
  obtain ⟨e, hfirst⟩ := DupeExtents.exists_rbFirst hne'
  obtain ⟨left, res', hremove, hremoved⟩ := removeExtent_spec hg' (DupeExtents.rbFirst_mem hfirst)
  simp only [freeRound, hg', Option.bind_some, hfirst, hremove]
  split
  · rename_i hleft
    have hmany : 2 < g'.deNumDupes := by
      rw [hremoved.left_eq] at hleft
      by_contra hfew
      rw [if_pos (by omega)] at hleft
      omega
    obtain ⟨g'', hg'', hne'', hless⟩ :=
      hremoved.stays_smaller (DupeExtents.rbFirst_mem hfirst) hmany
    exact .inl ⟨res', rfl, ⟨hspares.trans hremoved.spares, g'', hg'', hne''⟩,
      by rw [hg'']; exact hless⟩
  · rename_i hleft
    have hfew : g'.deNumDupes ≤ 2 := by
      rw [hremoved.left_eq] at hleft
      by_contra hmany
      rw [if_neg hmany] at hleft
      omega
    exact .inr ⟨_, rfl, res', rfl, hspares.trans hremoved.spares, hremoved.gone hfew⟩

/-- A tree without groups has no extents to count. -/
theorem Balanced.counters_eq_zero (h : Balanced 0 res)
    (hnone : ∀ k : Nat × DigestBytes, res.root[k]? = none) :
    res.numDupes = 0 ∧ res.numExtents = 0 := by
  have hempty : ∀ f : DupeExtents → Nat, MapTotal.total f res.root = 0 := by
    intro f
    refine (MapTotal.total_congr ?_).trans (MapTotal.total_empty f)
    intro k
    rw [hnone k]
    simp
  constructor
  · rw [h.numDupes, ← MapTotal.total_one, hempty]
  · rw [← hempty DupeExtents.deNumDupes, ← h.numExtents, Nat.add_zero]

theorem Freed.size_lt {res' : ResultsTree} (h : Freed res p res') (hg : res.root[p]? = some g) :
    res'.root.size < res.root.size := by
  have hsize := MapTotal.total_erase (f := fun _ => 1) hg
  have hsame : MapTotal.total (fun _ => 1) res'.root =
      MapTotal.total (fun _ => 1) (res.root.erase p) := by
    apply MapTotal.total_congr
    intro k
    refine congrArg (Option.map _) (Eq.trans ?_ (getElem?_eraseGroup (p := p) k).symm)
    split
    · rename_i hk
      rw [← hk, h.gone]
    · rename_i hk
      exact h.others k (Ne.symm hk)
  rw [← MapTotal.total_one, ← MapTotal.total_one res.root, hsame]
  omega

/-- `free_results_tree` ends with an empty tree and both counters at zero. -/
theorem freeResultsTree_spec (h : Consistent res) :
    ∃ res', res.freeResultsTree = some res' ∧ (∀ k : Nat × DigestBytes, res'.root[k]? = none) ∧
      res'.numDupes = 0 ∧ res'.numExtents = 0 ∧ Consistent res' := by
  suffices hloop : ∃ r, Loop.run freeTreeRound (res.root.size + 1) res = some r ∧
      ∃ res', r = some res' ∧ (∀ k : Nat × DigestBytes, res'.root[k]? = none) ∧
        Consistent res' by
    obtain ⟨_, hrun, res', rfl, hnone, hconsistent⟩ := hloop
    obtain ⟨hnumDupes, hnumExtents⟩ := hconsistent.balanced.counters_eq_zero hnone
    exact ⟨res', by rw [freeResultsTree, hrun, Option.join_some], hnone, hnumDupes, hnumExtents,
      hconsistent⟩
  refine Loop.run_total Consistent (fun s => s.root.size) ?_ _ _ h (Nat.lt_succ_self _)
  intro s hs
  unfold freeTreeRound
  split
  · rename_i hmin
    refine .inr ⟨_, rfl, s, rfl, ?_, hs⟩
    intro k
    rw [Std.TreeMap.minKey?_eq_none_iff] at hmin
    exact Std.TreeMap.getElem?_of_isEmpty hmin
  · rename_i p hp
    have hmem := (Std.TreeMap.minKey?_eq_some_iff_mem_and_forall.1 hp).1
    obtain ⟨g, hg⟩ := Option.isSome_iff_exists.1 (Std.TreeMap.mem_iff_isSome_getElem?.1 hmem)
    obtain ⟨res', hfree, hfreed⟩ := dupeExtentsFree_spec hg (hs.nonempty p g hg)
    rw [hfree]
    exact .inl ⟨res', rfl, hfreed.consistent hs, hfreed.size_lt hg⟩

end Free

end ResultsTree

/-! ## Inserting -/

namespace DupeExtents

theorem ne_nil_of_mem_root {g : DupeExtents} {k : Nat × Nat} (h : k ∈ g.deExtentsRoot) :
    g.deExtents ≠ [] := by
  obtain ⟨e, he, -⟩ := (g.mem_root k).1 h
  exact List.ne_nil_of_mem he

/-- A group with more extents: the same length and digest, `n` more to count, and
    the new places next to the old ones. -/
structure Grown (g : DupeExtents) (n : Nat) (places : Nat × Nat → Prop) (g' : DupeExtents) :
    Prop where
  key_eq : (g'.deLen, g'.deHash) = (g.deLen, g.deHash)
  numDupes : g'.deNumDupes = g.deNumDupes + n
  root : ∀ k, k ∈ g'.deExtentsRoot ↔ places k ∨ k ∈ g.deExtentsRoot

theorem insertExtent_spec (g : DupeExtents) (e : ResultExtent) :
    Grown g (g.insertExtent e).1.toNat (· = e.key) (g.insertExtent e).2 := by
  unfold insertExtent insertExtentListFree
  by_cases hin : e.key ∈ g.deExtentsRoot
  · rw [dif_pos hin]
    refine ⟨rfl, rfl, fun k => ⟨.inr, ?_⟩⟩
    rintro (rfl | hk)
    · exact hin
    · exact hk
  · rw [dif_neg hin]
    refine ⟨rfl, rfl, fun k => ?_⟩
    change k ∈ g.deExtentsRoot.insert e.key ↔ _
    rw [Std.TreeSet.mem_insert, Std.LawfulEqCmp.compare_eq_iff_eq, eq_comm]

theorem insertPair_spec (g : DupeExtents) (p : ResultPair) (addScore : Bool) :
    Grown g ((g.insertPair p addScore).1.1.toNat + (g.insertPair p addScore).1.2.toNat)
      (fun k => k = p.places.1 ∨ k = p.places.2) (g.insertPair p addScore).2 := by
  have h₀ := insertExtent_spec g (allocExtent p.recs.1 p.startoff.1)
  have h₁ := insertExtent_spec (g.insertExtent (allocExtent p.recs.1 p.startoff.1)).2
    (allocExtent p.recs.2 p.startoff.2)
  refine ⟨h₁.key_eq.trans h₀.key_eq, ?_, ?_⟩
  · refine h₁.numDupes.trans ?_
    rw [h₀.numDupes, Nat.add_assoc]
    rfl
  · intro k
    refine (h₁.root k).trans ?_
    rw [h₀.root k, ← or_assoc, or_comm (a := k = _)]
    rfl

end DupeExtents

namespace ResultsTree

section Insert

variable {res : ResultsTree}

/-- A lookup that found nothing is followed by an insertion that succeeds. -/
theorem insertDupeExtents_new {digest : DigestBytes} {len : Nat}
    (hnone : res.root[(len, digest)]? = none) :
    res.insertDupeExtents (dupeExtentsNew digest len) =
      some { res.setGroup (dupeExtentsNew digest len) with numDupes := res.numDupes + 1 } := by
  have hfind : res.findDupeExtents (dupeExtentsNew digest len).deHash
      (dupeExtentsNew digest len).deLen = none := hnone
  rw [insertDupeExtents, hfind]

/-- The group under a key is there afterwards: the old one, or a new one without
    extents. -/
structure Allocated (res : ResultsTree) (k : Nat × DigestBytes) (g : DupeExtents)
    (res' : ResultsTree) : Prop where
  here : res'.root[k]? = some g
  group : res.root[k]? = some g ∨ res.root[k]? = none ∧ g = dupeExtentsNew k.2 k.1
  others : ∀ k', k' ≠ k → res'.root[k']? = res.root[k']?
  balanced : ∀ n, Balanced n res → Balanced n res'

theorem allocated_found {k : Nat × DigestBytes} {g : DupeExtents} (h : res.root[k]? = some g) :
    Allocated res k g res := ⟨h, .inl h, fun _ _ => rfl, fun _ => id⟩

theorem allocated_new {digest : DigestBytes} {len : Nat}
    (hnone : res.root[(len, digest)]? = none) :
    Allocated res (len, digest) (dupeExtentsNew digest len)
      { res.setGroup (dupeExtentsNew digest len) with numDupes := res.numDupes + 1 } where
  here := (getElem?_setGroup _).trans (if_pos rfl)
  group := .inr ⟨hnone, rfl⟩
  others := fun _ hk => (getElem?_setGroup _).trans (if_neg (Ne.symm hk))
  balanced := fun _ h => h.newGroup hnone rfl

variable (res) in
/-- `find_alloc_dext` never aborts. -/
theorem findAllocDext_allocated (digest : DigestBytes) (len : Nat) :
    ∃ g res', res.findAllocDext digest len = some (g, res') ∧
      Allocated res (len, digest) g res' := by
  unfold findAllocDext
  cases hfind : res.findDupeExtents digest len with
  | some g => exact ⟨g, res, rfl, allocated_found hfind⟩
  | none =>
    simp only [insertDupeExtents_new hfind, Option.map_some]
    exact ⟨_, _, rfl, allocated_new hfind⟩

variable (res) in
theorem allocDext_allocated (digest : DigestBytes) (len : Nat) :
    ∃ addScore g res', res.allocDext digest len = some (addScore, res') ∧
      Allocated res (len, digest) g res' := by
  unfold allocDext
  cases hfind : res.findDupeExtents digest len with
  | some g => exact ⟨true, g, res, rfl, allocated_found hfind⟩
  | none =>
    rw [insertDupeExtents_new hfind]
    exact ⟨false, _, _, rfl, allocated_new hfind⟩

variable (res) in
theorem findAllocScore_allocated (digest : DigestBytes) (len : Nat) :
    ∃ addScore g res', res.findAllocScore digest len = some (addScore, res') ∧
      Allocated res (len, digest) g res' := by
  unfold findAllocScore
  cases hfind : res.findDupeExtents digest len with
  | some g => exact ⟨true, g, res, rfl, allocated_found hfind⟩
  | none => exact allocDext_allocated res digest len

/-- The section under the mutex of the group never aborts. It changes that group
    only, and its new extents are not counted yet. -/
theorem insertPair_spec (p : ResultPair) (addScore : Bool) {g : DupeExtents}
    (hg : res.root[(p.len, p.digest)]? = some g) :
    ∃ new g' res', res.insertPair p addScore = some (new, res') ∧
      DupeExtents.Grown g (new.1.toNat + new.2.toNat)
        (fun k => k = p.places.1 ∨ k = p.places.2) g' ∧
      res'.root[(p.len, p.digest)]? = some g' ∧
      (∀ k, k ≠ (p.len, p.digest) → res'.root[k]? = res.root[k]?) ∧
      ∀ n, Balanced n res → Balanced (n + (new.1.toNat + new.2.toNat)) res' := by
  have hkey := res.keyed _ g hg
  have hlen : g.deLen = p.len := congrArg Prod.fst hkey
  have hgrown := DupeExtents.insertPair_spec g p addScore
  have hkey' := hgrown.key_eq.trans hkey
  have hfind : res.findDupeExtents p.digest p.len = some g := hg
  refine ⟨_, _, res.setGroup (g.insertPair p addScore).2, ?_, hgrown, ?_, ?_, ?_⟩
  · simp only [insertPair, hfind, Option.bind_some, hlen, ne_eq, not_true_eq_false, if_false]
  · exact (getElem?_setGroup _).trans (if_pos hkey')
  · intro k hk
    exact (getElem?_setGroup _).trans (if_neg (hkey' ▸ Ne.symm hk))
  · intro n hn
    apply hn.setGroup (g := g)
    · rw [hkey', hg]
    · rw [hgrown.numDupes]
      omega

/-- A group that grew under its key leaves no empty group behind. -/
theorem Allocated.consistent_grown {k : Nat × DigestBytes} {g g' : DupeExtents}
    {res₁ res₂ : ResultsTree} (hc : Consistent res) (hallocated : Allocated res k g res₁)
    (hbalanced : Balanced 0 res₂) (hhere : res₂.root[k]? = some g') {place : Nat × Nat}
    (hplace : place ∈ g'.deExtentsRoot)
    (hothers : ∀ k', k' ≠ k → res₂.root[k']? = res₁.root[k']?) : Consistent res₂ := by
  refine ⟨hbalanced, ?_⟩
  intro k' g'' hg''
  by_cases hk : k' = k
  · rw [hk, hhere] at hg''
    cases hg''
    exact DupeExtents.ne_nil_of_mem_root hplace
  · rw [hothers k' hk, hallocated.others k' hk] at hg''
    exact hc.nonempty k' g'' hg''

/-- `insert_one_result` succeeds and keeps the invariant. -/
theorem Consistent.insertOneResult (h : Consistent res) (digest : DigestBytes) (file : Filerec)
    (startoff len poff : Nat) :
    ∃ res', res.insertOneResult digest file startoff len poff = some res' ∧ Consistent res' := by
  obtain ⟨g, res₁, hfind, hallocated⟩ := findAllocDext_allocated res digest len
  have hkey := res₁.keyed _ g hallocated.here
  have hlen : g.deLen = len := congrArg Prod.fst hkey
  have hbalanced := hallocated.balanced 0 h.balanced
  unfold ResultsTree.insertOneResult
  simp only [hfind, Option.bind_some, hlen, ne_eq, not_true_eq_false, if_false]
  have hgrown := DupeExtents.insertExtent_spec g
    { allocExtent file startoff with ePoff := poff, ePlen := len }
  unfold DupeExtents.insertExtent at hgrown
  split at hgrown <;> rename_i hinsert
  · rw [hinsert]
    exact ⟨res₁, rfl, hallocated.consistent_grown h hbalanced hallocated.here
      ((hgrown.root _).2 (.inl rfl)) fun _ _ => rfl⟩
  · rename_i g'
    rw [hinsert]
    have hkey' : (g'.deLen, g'.deHash) = (len, digest) := hgrown.key_eq.trans hkey
    have hset : Balanced 1 (res₁.setGroup g') := by
      refine hbalanced.setGroup (g := g) ?_ ?_
      · rw [hkey', hallocated.here]
      · rw [hgrown.numDupes, Bool.toNat_true]
        omega
    refine ⟨_, rfl, hallocated.consistent_grown h (Balanced.count hset) ?_
      ((hgrown.root _).2 (.inl rfl)) ?_⟩
    · exact (getElem?_setGroup _).trans (if_pos hkey')
    · intro k hk
      exact (getElem?_setGroup _).trans (if_neg (hkey' ▸ Ne.symm hk))

/-- `insert_result` succeeds and keeps the invariant. -/
theorem Consistent.insertResult (h : Consistent res) (p : ResultPair) :
    ∃ res', res.insertResult p = some res' ∧ Consistent res' := by
  obtain ⟨addScore, g, res₁, hfound, hallocated⟩ :=
    findAllocScore_allocated res p.digest p.len
  obtain ⟨new, g', res₂, hinsert, hgrown, hhere, hothers, hbalanced⟩ :=
    insertPair_spec p addScore hallocated.here
  unfold ResultsTree.insertResult
  rw [hfound]
  simp only [Option.bind_some, hinsert, Option.map_some]
  have hcounted : Balanced 0 (res₂.countPair new) := by
    have hpending := hbalanced 0 (hallocated.balanced 0 h.balanced)
    rw [countPair, Nat.add_assoc]
    exact Balanced.count hpending
  exact ⟨_, rfl, hallocated.consistent_grown h hcounted hhere
    ((hgrown.root _).2 (.inl (.inl rfl))) hothers⟩

end Insert

/-! ## Sequences of operations -/

/-- The operations of `results-tree.h`. -/
inductive TreeOp where
  | initResultsTree
  | insertOneResult (digest : DigestBytes) (file : Filerec) (startoff len poff : Nat)
  | insertResult (p : ResultPair)
  | removeExtent (e : ResultExtent)
  | dupeExtentsFree (k : Nat × DigestBytes)
  | freeResultsTree

namespace TreeOp

/-- An operation. `none` is an abort or a loop that does not end. -/
def apply (res : ResultsTree) : TreeOp → Option ResultsTree
  | initResultsTree => some .empty
  | insertOneResult digest file startoff len poff =>
    res.insertOneResult digest file startoff len poff
  | insertResult p => res.insertResult p
  | removeExtent e => (res.removeExtent e).map Prod.snd
  | dupeExtentsFree k => res.dupeExtentsFree k
  | freeResultsTree => res.freeResultsTree

/-- An extent or a group that is passed in is there. -/
def Present (res : ResultsTree) : TreeOp → Prop
  | removeExtent e => ∃ g ∈ res.groups, e ∈ g.deExtents
  | dupeExtentsFree k => ∃ g ∈ res.groups, (g.deLen, g.deHash) = k
  | _ => True

end TreeOp

/-- The trees that a sequence of operations can lead to. -/
inductive Reachable : ResultsTree → Prop where
  | init : Reachable .empty
  | step {res res' : ResultsTree} (op : TreeOp) (hres : Reachable res) (hop : op.Present res)
      (happly : op.apply res = some res') : Reachable res'

theorem consistent_empty : Consistent empty := ⟨balanced_empty, by simp [empty]⟩

/-- Removing an extent keeps the invariant. -/
theorem Removed.consistent {res : ResultsTree} {p : Nat × DigestBytes} {g : DupeExtents}
    {e : ResultExtent} {left : Nat} {res' : ResultsTree} (h : Removed res p g e left res')
    (he : e ∈ g.deExtents) (hc : Consistent res) : Consistent res' := by
  refine ⟨h.balanced hc.balanced, ?_⟩
  intro k g' hg'
  by_cases hk : k = p
  · by_cases hfew : g.deNumDupes ≤ 2
    · rw [hk, h.gone hfew] at hg'
      cases hg'
    · obtain ⟨g'', hg'', hne, -⟩ := h.stays_smaller he (by omega)
      rw [hk, hg''] at hg'
      cases hg'
      exact hne
  · rw [h.others k hk] at hg'
    exact hc.nonempty k g' hg'

/-- Every operation succeeds and keeps the invariant. -/
theorem Consistent.apply {res : ResultsTree} (h : Consistent res) {op : TreeOp}
    (hop : op.Present res) : ∃ res', op.apply res = some res' ∧ Consistent res' := by
  cases op with
  | initResultsTree => exact ⟨_, rfl, consistent_empty⟩
  | insertOneResult digest file startoff len poff => exact h.insertOneResult ..
  | insertResult p => exact h.insertResult p
  | removeExtent e =>
    obtain ⟨g, hg, he⟩ := hop
    obtain ⟨left, res', hremove, hremoved⟩ := removeExtent_spec (mem_groups_iff.1 hg) he
    exact ⟨res', by rw [TreeOp.apply, hremove, Option.map_some], hremoved.consistent he h⟩
  | dupeExtentsFree k =>
    obtain ⟨g, hg, rfl⟩ := hop
    rw [mem_groups_iff] at hg
    obtain ⟨res', hfree, hfreed⟩ := dupeExtentsFree_spec hg (h.nonempty _ g hg)
    exact ⟨res', hfree, hfreed.consistent h⟩
  | freeResultsTree =>
    obtain ⟨res', hfree, -, -, -, hconsistent⟩ := freeResultsTree_spec h
    exact ⟨res', hfree, hconsistent⟩

theorem Reachable.consistent {res : ResultsTree} (h : Reachable res) : Consistent res := by
  induction h with
  | init => exact consistent_empty
  | step op hres hop happly ih =>
    obtain ⟨res', happly', hconsistent⟩ := ih.apply hop
    rw [happly'] at happly
    cases happly
    exact hconsistent

/-! ## What holds of every reachable tree -/

/-- A group whose count, list and tree describe the same extents. -/
structure GroupInStep (g : DupeExtents) : Prop where
  nonempty : g.deExtents ≠ []
  count : g.deNumDupes = g.deExtents.length
  tree : g.deExtentsRoot.toList.Perm (g.deExtents.map ResultExtent.key)
  places : (g.deExtents.map fun e => (e.eFile.addr, e.eLoff)).Nodup
  parents : ∀ e ∈ g.deExtents, e.eParent = some (g.deLen, g.deHash)

/-- A tree whose counters and groups are in step. -/
structure InStep (res : ResultsTree) : Prop where
  numDupes : res.numDupes = res.groups.length
  numExtents : res.numExtents = (res.groups.map DupeExtents.deNumDupes).sum
  distinct : (res.groups.map fun g => (g.deLen, g.deHash)).Nodup
  groups : ∀ g ∈ res.groups, GroupInStep g

theorem groups_keys (res : ResultsTree) :
    (res.groups.map fun g => (g.deLen, g.deHash)) = res.root.keys := by
  rw [← Std.TreeMap.map_fst_toList_eq_keys, groups, List.map_map]
  apply List.map_congr_left
  rintro ⟨k, g⟩ hmem
  exact res.keyed k g (Std.TreeMap.mem_toList_iff_getElem?_eq_some.1 hmem)

theorem tree_perm (g : DupeExtents) :
    g.deExtentsRoot.toList.Perm (g.deExtents.map ResultExtent.key) := by
  have hnodup : g.deExtentsRoot.toList.Nodup := by
    apply Std.TreeSet.distinct_toList.imp
    rintro a _ hne rfl
    exact hne Std.ReflCmp.compare_self
  rw [List.perm_ext_iff_of_nodup hnodup g.keys_nodup]
  intro k
  rw [Std.TreeSet.mem_toList, g.mem_map_key]

theorem Consistent.inStep {res : ResultsTree} (h : Consistent res) : InStep res where
  numDupes := by
    rw [h.balanced.numDupes, groups, List.length_map, Std.TreeMap.length_toList]
  numExtents := by
    rw [groups, List.map_map]
    exact h.balanced.numExtents
  distinct := by
    rw [groups_keys]
    exact Std.TreeMap.nodup_keys
  groups := by
    intro g hg
    exact ⟨h.nonempty _ g (mem_groups_iff.1 hg), g.numDupes_eq, tree_perm g, g.keys_nodup,
      g.parent_eq⟩

theorem groups_eq_nil {res : ResultsTree} (h : ∀ k : Nat × DigestBytes, res.root[k]? = none) :
    res.groups = [] := by
  apply List.eq_nil_iff_forall_not_mem.2
  intro g hg
  rw [mem_groups_iff, h] at hg
  cases hg

/-- Every reachable tree is in step. Removing an extent deletes exactly it, or its
    group when fewer than two would stay, and returns how many are left. Freeing
    a group or the tree ends, and deletes that and nothing else. -/
theorem reachable_inStep {res : ResultsTree} (h : Reachable res) :
    InStep res ∧
    (∀ op : TreeOp, op.Present res → ∃ res', op.apply res = some res' ∧ Reachable res') ∧
    (∀ g ∈ res.groups, ∀ e ∈ g.deExtents, ∃ left res', res.removeExtent e = some (left, res') ∧
      (2 < g.deNumDupes → left = g.deNumDupes - 1 ∧
        ∃ g', res'.findDupeExtents g.deHash g.deLen = some g' ∧ g'.deNumDupes = left ∧
          g'.deExtents = g.deExtents.erase e) ∧
      (g.deNumDupes ≤ 2 → left = 0 ∧ res'.findDupeExtents g.deHash g.deLen = none) ∧
      ∀ digest len, (len, digest) ≠ (g.deLen, g.deHash) →
        res'.findDupeExtents digest len = res.findDupeExtents digest len) ∧
    (∀ g ∈ res.groups, ∃ res', res.dupeExtentsFree (g.deLen, g.deHash) = some res' ∧
      res'.findDupeExtents g.deHash g.deLen = none ∧
      ∀ digest len, (len, digest) ≠ (g.deLen, g.deHash) →
        res'.findDupeExtents digest len = res.findDupeExtents digest len) ∧
    ∃ res', res.freeResultsTree = some res' ∧ res'.groups = [] ∧ res'.numDupes = 0 ∧
      res'.numExtents = 0 := by
  have hc := h.consistent
  refine ⟨hc.inStep, ?_, ?_, ?_, ?_⟩
  · intro op hop
    obtain ⟨res', happly, -⟩ := hc.apply hop
    exact ⟨res', happly, .step op h hop happly⟩
  · intro g hg e he
    obtain ⟨left, res', hremove, hremoved⟩ := removeExtent_spec (mem_groups_iff.1 hg) he
    refine ⟨left, res', hremove, ?_, ?_, fun digest len hk => hremoved.others _ hk⟩
    · intro hmany
      obtain ⟨g', hg', hextents⟩ := hremoved.stays hmany
      have hleft : left = g.deNumDupes - 1 := by
        rw [hremoved.left_eq, if_neg (by omega)]
      refine ⟨hleft, g', hg', ?_, hextents⟩
      rw [g'.numDupes_eq, hextents, List.length_erase_of_mem he, hleft, g.numDupes_eq]
    · intro hfew
      exact ⟨by rw [hremoved.left_eq, if_pos hfew], hremoved.gone hfew⟩
  · intro g hg
    rw [mem_groups_iff] at hg
    obtain ⟨res', hfree, hfreed⟩ := dupeExtentsFree_spec hg (hc.nonempty _ g hg)
    exact ⟨res', hfree, hfreed.gone, fun digest len hk => hfreed.others _ hk⟩
  · obtain ⟨res', hfree, hnone, hnumDupes, hnumExtents, -⟩ := freeResultsTree_spec hc
    exact ⟨res', hfree, groups_eq_nil hnone, hnumDupes, hnumExtents⟩

/-- A match of one page between two files. -/
def pageMatch : ResultPair where
  digest := Vector.replicate digestLen 0
  recs := (⟨1, "a", 1, 4096⟩, ⟨2, "b", 2, 4096⟩)
  startoff := (0, 0)
  endoff := (4095, 4095)

theorem reachable_inStep_pageMatch :
    ∃ res, empty.insertResult pageMatch = some res ∧ res.numExtents = 2 ∧ InStep res := by
  obtain ⟨res, hres, -⟩ := consistent_empty.insertResult pageMatch
  have hcount : (empty.insertResult pageMatch).map numExtents = some 2 := by decide +kernel
  rw [hres] at hcount
  exact ⟨res, hres, Option.some.inj hcount,
    (reachable_inStep (.step (.insertResult _) .init trivial hres)).1⟩

end ResultsTree

end Duperemove
