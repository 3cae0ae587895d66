-- SUMMARY: Removal from the results tree: single extents, whole groups and the whole tree.
import Mathlib.Data.List.Nodup
import Duperemove.Lib.Loop
import Duperemove.ResultsTree

/-!
# Removal

`remove_extent` takes one extent out of its group. It jumps back once when a
single extent would be left, so a group never keeps one. `dupe_extents_free` and
`free_results_tree` are loops around it. In the source a group is known by its
address, and here by the length and digest that the tree finds it under.
-/

namespace Duperemove

/-! ## One extent of a group -/

namespace DupeExtents

/-- The first extent in the order of the tree. -/
def rbFirst (dext : DupeExtents) : Option ResultExtent :=
  dext.deExtentsRoot.toList.head?.bind fun k => dext.deExtents.find? fun e => e.key = k

theorem mem_map_key (dext : DupeExtents) (k : Nat × Nat) :
    k ∈ dext.deExtents.map ResultExtent.key ↔ k ∈ dext.deExtentsRoot := by
  rw [dext.mem_root, List.mem_map]

/-- An extent of the group is found by its key. -/
theorem find?_key {dext : DupeExtents} {e : ResultExtent} (he : e ∈ dext.deExtents) :
    dext.deExtents.find? (fun e' => e'.key = e.key) = some e := by
  obtain ⟨e', hfind⟩ : ∃ e', dext.deExtents.find? (fun e' => e'.key = e.key) = some e' := by
    rw [← Option.isSome_iff_exists, List.find?_isSome]
    exact ⟨e, he, by simp⟩
  have hkey := List.find?_some hfind
  simp only [decide_eq_true_eq] at hkey
  have heq := List.inj_on_of_nodup_map dext.keys_nodup (List.mem_of_find?_eq_some hfind) he hkey
  rw [hfind, heq]

theorem rbFirst_mem {dext : DupeExtents} {e : ResultExtent} (h : dext.rbFirst = some e) :
    e ∈ dext.deExtents := by
  obtain ⟨k, -, hfind⟩ := Option.bind_eq_some_iff.1 h
  exact List.mem_of_find?_eq_some hfind

theorem exists_rbFirst {dext : DupeExtents} (h : dext.deExtents ≠ []) :
    ∃ e, dext.rbFirst = some e := by
  obtain ⟨e, he⟩ := List.exists_mem_of_ne_nil _ h
  have hmem : e.key ∈ dext.deExtentsRoot := (dext.mem_root _).2 ⟨e, he, rfl⟩
  obtain ⟨k, hk⟩ := Option.isSome_iff_exists.1 (Std.TreeSet.isSome_min?_of_mem hmem)
  have hkmem := (Std.TreeSet.min?_eq_some_iff_mem_and_forall.1 hk).1
  obtain ⟨e', he', rfl⟩ := (dext.mem_root k).1 hkmem
  refine ⟨e', ?_⟩
  rw [rbFirst, ← Std.TreeSet.min?_eq_head?_toList, hk, Option.bind_some, find?_key he']

/-- The part of `remove_extent` that takes an extent out of the list and of the
    tree of its group. `none` is an extent that is not in the group. -/
def unlink (dext : DupeExtents) (e : ResultExtent) : Option DupeExtents :=
  if hin : e.key ∈ dext.deExtentsRoot then
    some { dext with
      deScore := Word.sub 64 dext.deScore dext.deLen
      deNumDupes := dext.deNumDupes - 1
      deExtents := dext.deExtents.eraseP fun e' => e'.key = e.key
      deExtentsRoot := dext.deExtentsRoot.erase e.key
      numDupes_eq := by
        obtain ⟨e', he', hkey⟩ := (dext.mem_root _).1 hin
        rw [List.length_eraseP_of_mem he' (decide_eq_true hkey), dext.numDupes_eq]
      mem_root := by
        intro k
        have hnodup := dext.keys_nodup
        rw [Std.TreeSet.mem_erase, ← mem_map_key, ← List.mem_map, ne_eq,
          Std.LawfulEqCmp.compare_eq_iff_eq]
        have herase : (dext.deExtents.eraseP fun e' => e'.key = e.key).map ResultExtent.key =
            (dext.deExtents.map ResultExtent.key).erase e.key := by
          have hpred : (fun e' : ResultExtent => decide (e'.key = e.key)) =
              (fun k => e.key == k) ∘ ResultExtent.key := by
            funext e'
            rw [Bool.eq_iff_iff, decide_eq_true_eq, Function.comp_apply, beq_iff_eq]
            exact eq_comm
          rw [List.erase_eq_eraseP, List.eraseP_map, hpred]
        rw [herase, hnodup.mem_erase_iff, ne_comm]
      keys_nodup := dext.keys_nodup.sublist ((List.eraseP_sublist ..).map _)
      parent_eq := fun e' he' => dext.parent_eq e' (List.mem_of_mem_eraseP he') }
  else none

theorem eraseP_key {es : List ResultExtent} (hnodup : (es.map ResultExtent.key).Nodup)
    {e : ResultExtent} (he : e ∈ es) : (es.eraseP fun e' => e'.key = e.key) = es.erase e := by
  induction es with
  | nil => cases he
  | cons a es ih =>
    rw [List.map_cons, List.nodup_cons] at hnodup
    rcases List.mem_cons.1 he with rfl | he
    · simp
    · have hkey : a.key ≠ e.key := fun h => hnodup.1 (h ▸ List.mem_map_of_mem he)
      have hne : a ≠ e := fun h => hkey (congrArg _ h)
      rw [List.eraseP_cons_of_neg (by simpa using hkey), List.erase_cons_tail (by simpa using hne),
        ih hnodup.2 he]

/-- An extent of the group goes, and nothing else. -/
theorem unlink_spec {dext : DupeExtents} {e : ResultExtent} (he : e ∈ dext.deExtents) :
    ∃ dext', dext.unlink e = some dext' ∧ dext'.deLen = dext.deLen ∧ dext'.deHash = dext.deHash ∧
      dext'.deNumDupes + 1 = dext.deNumDupes ∧ dext'.deExtents = dext.deExtents.erase e := by
  have hin : e.key ∈ dext.deExtentsRoot := (dext.mem_root _).2 ⟨e, he, rfl⟩
  have hpos := List.length_pos_of_mem he
  rw [← dext.numDupes_eq] at hpos
  refine ⟨_, dif_pos hin, rfl, rfl, Nat.succ_pred_eq_of_pos hpos, eraseP_key dext.keys_nodup he⟩

end DupeExtents

/-! ## The operations on the tree -/

namespace ResultsTree

/-- Take a group out of the tree. -/
def eraseGroup (res : ResultsTree) (p : Nat × DigestBytes) : ResultsTree where
  root := res.root.erase p
  numDupes := res.numDupes - 1
  numExtents := res.numExtents
  keyed := by
    intro k g hg
    rw [Std.TreeMap.getElem?_erase] at hg
    split at hg
    · cases hg
    · exact res.keyed k g hg

/-- One pass of `remove_extent` behind its label `again`. It leaves with `none` at
    an abort, or when the extent is not in the group `p`. -/
def removeRound (p : Nat × DigestBytes) (s : ResultExtent × ResultsTree) :
    Loop.Next (ResultExtent × ResultsTree) (Option (Nat × ResultsTree)) :=
  match s.2.root[p]?.bind fun dext => dext.unlink s.1 with
  | none => .leave none
  | some dext =>
    let res := { s.2.setGroup dext with numExtents := s.2.numExtents - 1 }
    if dext.deNumDupes = 1 then
      match dext.rbFirst with
      | none => .leave none
      | some extent => .again (extent, res)
    else if dext.deNumDupes = 0 then .leave (some (0, res.eraseGroup p))
    else .leave (some (dext.deNumDupes, res))

/-- `remove_extent`: the number of extents that are left, and the tree. The jump
    back is taken with one extent left, so two passes are enough. -/
def removeExtent (res : ResultsTree) (extent : ResultExtent) : Option (Nat × ResultsTree) :=
  extent.eParent.bind fun p => (Loop.run (removeRound p) 2 (extent, res)).join

/-- One pass of the loop of `dupe_extents_free`. -/
def freeRound (p : Nat × DigestBytes) (res : ResultsTree) :
    Loop.Next ResultsTree (Option ResultsTree) :=
  match res.root[p]?.bind DupeExtents.rbFirst with
  | none => .leave none
  | some extent =>
    match res.removeExtent extent with
    | none => .leave none
    | some (count, res) => if count > 0 then .again res else .leave (some res)

/-- `dupe_extents_free` on the group `p`. -/
def dupeExtentsFree (res : ResultsTree) (p : Nat × DigestBytes) : Option ResultsTree :=
  res.root[p]?.bind fun dext => (Loop.run (freeRound p) (dext.deNumDupes + 1) res).join

/-- One pass of the loop of `free_results_tree`. -/
def freeTreeRound (res : ResultsTree) : Loop.Next ResultsTree (Option ResultsTree) :=
  match res.root.minKey? with
  | none => .leave (some res)
  | some p =>
    match res.dupeExtentsFree p with
    | none => .leave none
    | some res => .again res

def freeResultsTree (res : ResultsTree) : Option ResultsTree :=
  (Loop.run freeTreeRound (res.root.size + 1) res).join

end ResultsTree

end Duperemove
