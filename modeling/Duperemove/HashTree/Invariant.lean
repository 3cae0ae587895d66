-- SUMMARY: Any run of insertions, removals and frees keeps the hash tree, its lists, heads and block trees in step.
import Duperemove.HashTree.Lists
import Duperemove.Lib.Steps
import Mathlib.Data.List.Dedup

/-!
# The invariant of the hash tree

A block is linked into the list of its digest, into the head of its file in that list,
and into the block tree of its file. The invariant says of each of the three which
blocks it holds, in terms of the blocks that were inserted and not removed since. It
holds between the steps of an operation as well, with one exception: a list may be
empty until the operation is done.
-/

namespace Duperemove.HashTree

open SearchTree (KeyTree Balance)

variable {rb : (α : Type) → [DecidableEq α] → Balance α} {Q : FileBlock → Prop} {e : FileBlock}

-- ---------------------------------------------------------------------------
-- The tree
-- ---------------------------------------------------------------------------

/-- A block that was inserted and not removed since, with the digest it was inserted
    with. -/
structure LiveBlock where
  digest : DigestBytes
  block : FileBlock
  deriving DecidableEq, Repr

/-- The lists are in order, at addresses of their own, and counted. The size list has only
    lists that are there. -/
structure Shaped (s : HashTree) : Prop where
  ordered : s.root.Ordered compare DupeBlocksList.dlHash
  addrs : (s.root.inorder.map DupeBlocksList.addr).Nodup
  addr_lt : ∀ d ∈ s.root.inorder, d.addr < s.nextAddr
  numHashes : s.numHashes = s.root.inorder.length
  sizeNodup : s.sizeList.Nodup
  sizeSub : ∀ a ∈ s.sizeList, ∃ d ∈ s.root.inorder, d.addr = a

/-- The live blocks are linked wherever they should be, and nothing else is. -/
structure Linked (s : HashTree) (live : List LiveBlock) : Prop extends Shaped s where
  nodup : (live.map LiveBlock.block).Nodup
  parent : ∀ x ∈ live, ∃ d ∈ s.root.inorder, d.addr = x.block.bParent ∧ d.dlHash = x.digest
  lists : ∀ d ∈ s.root.inorder,
    d.Holds fun b => b ∈ live.map LiveBlock.block ∧ b.bParent = d.addr
  files : InBlockTrees s.blockTree (· ∈ live.map LiveBlock.block)
  sizeList : ∀ d ∈ s.root.inorder, 2 ≤ d.dlNumElem → d.addr ∈ s.sizeList
  numBlocks : s.numBlocks = live.length

variable {s s' : HashTree} {live live' : List LiveBlock} {d d' x : DupeBlocksList}

theorem linked_init : initHashTree.Linked [] where
  ordered := List.Pairwise.nil
  addrs := List.nodup_nil
  addr_lt := fun _ hd => nomatch hd
  numHashes := rfl
  sizeNodup := List.nodup_nil
  sizeSub := fun _ ha => nomatch ha
  nodup := List.nodup_nil
  parent := fun _ hx => nomatch hx
  lists := fun _ hd => nomatch hd
  files := fun _ => ⟨List.Pairwise.nil, .nil fun _ hb => nomatch hb.1⟩
  sizeList := fun _ hd => nomatch hd
  numBlocks := rfl

theorem Shaped.addr_inj (h : s.Shaped) (hd : d ∈ s.root.inorder) (hd' : d' ∈ s.root.inorder)
    (haddr : d.addr = d'.addr) : d = d' :=
  List.inj_on_of_nodup_map h.addrs hd hd' haddr

theorem Shaped.hash_inj (h : s.Shaped) (hd : d ∈ s.root.inorder) (hd' : d' ∈ s.root.inorder)
    (hhash : d.dlHash = d'.dlHash) : d = d' :=
  List.inj_on_of_nodup_map h.ordered.nodup_keys hd hd' hhash

theorem Shaped.listAt_eq_some_iff (h : s.Shaped) {addr : Nat} :
    s.listAt addr = some d ↔ d ∈ s.root.inorder ∧ d.addr = addr := by
  constructor
  · intro hfind
    exact ⟨List.mem_of_find?_eq_some hfind, by simpa using List.find?_some hfind⟩
  · rintro ⟨hd, rfl⟩
    cases hfind : s.listAt d.addr with
    | none => exact absurd (decide_eq_true rfl) (List.find?_eq_none.1 hfind d hd)
    | some d' =>
      have haddr : d'.addr = d.addr := by simpa using List.find?_some hfind
      rw [h.addr_inj (List.mem_of_find?_eq_some hfind) hd haddr]

/-! ## Writing one list -/

/-- Only this list was written, and its node kept its place. -/
structure Rewrites (s s' : HashTree) (d d' : DupeBlocksList) : Prop where
  mem : d ∈ s.root.inorder
  addr : d'.addr = d.addr
  dlHash : d'.dlHash = d.dlHash
  root : s'.root.inorder = (write s.root d').inorder
  nextAddr : s'.nextAddr = s.nextAddr
  numHashes : s'.numHashes = s.numHashes
  sizeNodup : s'.sizeList.Nodup
  sizeSub : ∀ a ∈ s'.sizeList, a = d.addr ∨ a ∈ s.sizeList
  sizeSup : ∀ a ∈ s.sizeList, a ∈ s'.sizeList
  sizeList : 2 ≤ d'.dlNumElem → d.addr ∈ s'.sizeList

theorem Rewrites.mem_iff (h : s.Rewrites s' d d') :
    x ∈ s'.root.inorder ↔ x = d' ∨ x ∈ s.root.inorder ∧ x.addr ≠ d.addr := by
  simp only [h.root, write, KeyTree.inorder_map, List.mem_map, h.addr]
  constructor
  · rintro ⟨y, hy, rfl⟩
    split
    · exact .inl rfl
    · rename_i hne
      exact .inr ⟨hy, hne⟩
  · rintro (rfl | ⟨hx, hne⟩)
    · exact ⟨d, h.mem, if_pos rfl⟩
    · exact ⟨x, hx, if_neg hne⟩

theorem Rewrites.map_addr (h : s.Rewrites s' d d') :
    s'.root.inorder.map DupeBlocksList.addr = s.root.inorder.map DupeBlocksList.addr := by
  simp only [h.root, write, KeyTree.inorder_map, List.map_map]
  refine List.map_congr_left fun y _ => ?_
  simp only [Function.comp_apply]
  split
  · rename_i heq
    exact heq.symm
  · rfl

theorem Rewrites.exists_addr_iff (h : s.Rewrites s' d d') {a : Nat} :
    (∃ x ∈ s'.root.inorder, x.addr = a) ↔ ∃ x ∈ s.root.inorder, x.addr = a := by
  have hmap := h.map_addr
  simp only [← List.mem_map, hmap]

theorem Rewrites.shaped (h : s.Rewrites s' d d') (hs : s.Shaped) : s'.Shaped where
  ordered := by
    refine KeyTree.ordered_of_inorder (hs.ordered.map fun y hy => ?_) h.root
    split
    · rename_i heq
      rw [h.dlHash, hs.addr_inj hy h.mem (heq.trans h.addr)]
    · rfl
  addrs := by
    rw [h.map_addr]
    exact hs.addrs
  addr_lt := by
    intro y hy
    obtain ⟨z, hz, haddr⟩ := h.exists_addr_iff.1 ⟨y, hy, rfl⟩
    rw [h.nextAddr, ← haddr]
    exact hs.addr_lt z hz
  numHashes := by
    rw [h.numHashes, hs.numHashes, h.root, write, KeyTree.inorder_map, List.length_map]
  sizeNodup := h.sizeNodup
  sizeSub := by
    intro a ha
    rw [h.exists_addr_iff]
    rcases h.sizeSub a ha with rfl | ha
    · exact ⟨d, h.mem, rfl⟩
    · exact hs.sizeSub a ha

/-- Writing a list with other blocks of its own changes what is live, and the other lists
    do not notice. -/
theorem Rewrites.linked (h : s.Rewrites s' d d') (hs : s.Linked live)
    (hnodup : (live'.map LiveBlock.block).Nodup)
    (hparent : ∀ x ∈ live', x ∈ live ∨ x.block.bParent = d.addr ∧ x.digest = d.dlHash)
    (hothers : ∀ b : FileBlock, b.bParent ≠ d.addr →
      (b ∈ live.map LiveBlock.block ↔ b ∈ live'.map LiveBlock.block))
    (hholds : d'.Holds fun b => b ∈ live'.map LiveBlock.block ∧ b.bParent = d.addr)
    (hfiles : InBlockTrees s'.blockTree (· ∈ live'.map LiveBlock.block))
    (hnum : s'.numBlocks = live'.length) : s'.Linked live' where
  toShaped := h.shaped hs.toShaped
  nodup := hnodup
  parent := by
    intro x hx
    have hnew : d' ∈ s'.root.inorder := h.mem_iff.2 (.inl rfl)
    rcases hparent x hx with hx | ⟨haddr, hdigest⟩
    · obtain ⟨y, hy, haddr, hdigest⟩ := hs.parent x hx
      by_cases hyd : y.addr = d.addr
      · have heq := hs.addr_inj hy h.mem hyd
        subst heq
        exact ⟨d', hnew, h.addr.trans haddr, h.dlHash.trans hdigest⟩
      · exact ⟨y, h.mem_iff.2 (.inr ⟨hy, hyd⟩), haddr, hdigest⟩
    · exact ⟨d', hnew, h.addr.trans haddr.symm, h.dlHash.trans hdigest.symm⟩
  lists := by
    intro y hy
    rcases h.mem_iff.1 hy with rfl | ⟨hy, hne⟩
    · rw [h.addr]
      exact hholds
    · refine (hs.lists y hy).congr fun b => ?_
      exact and_congr_left fun haddr => hothers b (by rw [haddr]; exact hne)
  files := hfiles
  sizeList := by
    intro y hy hnum
    rcases h.mem_iff.1 hy with rfl | ⟨hy, -⟩
    · rw [h.addr]
      exact h.sizeList hnum
    · exact h.sizeSup _ (hs.sizeList y hy hnum)
  numBlocks := hnum

/-! ## Insertion -/

theorem Shaped.findBlockList_eq_some_iff (h : s.Shaped) {digest : DigestBytes} :
    s.findBlockList digest = some d ↔ d ∈ s.root.inorder ∧ d.dlHash = digest :=
  h.ordered.find_eq_some_iff

variable (rb) in
/-- A list that was just created is linked into the tree, without an abort. It has no
    blocks, since no live block has an address as its parent that was not used yet. -/
theorem Linked.insertBlockList (h : s.Linked live) {digest : DigestBytes}
    (hnone : ∀ x ∈ s.root.inorder, x.dlHash ≠ digest)
    (hd : d = ⟨s.nextAddr, digest, 0, [], 0, .nil⟩) :
    ∃ s', s.insertBlockList rb d = some s' ∧
      Linked { s' with nextAddr := s'.nextAddr + 1 } live ∧
      ∀ x, x ∈ s'.root.inorder ↔ x = d ∨ x ∈ s.root.inorder := by
  have haddr : d.addr = s.nextAddr := hd ▸ rfl
  have hhash : d.dlHash = digest := hd ▸ rfl
  have hnum : d.dlNumElem = 0 := hd ▸ rfl
  have hunused : ∀ x ∈ s.root.inorder, x.addr ≠ d.addr := fun x hx heq =>
    Nat.lt_irrefl _ ((heq.trans haddr) ▸ h.addr_lt x hx)
  have hempty : d.Holds fun b => b ∈ live.map LiveBlock.block ∧ b.bParent = d.addr := by
    rw [haddr, hd]
    refine DupeBlocksList.holds_new _ _ fun b hb => ?_
    obtain ⟨y, hy, rfl⟩ := List.mem_map.1 hb.1
    obtain ⟨z, hz, hzaddr, -⟩ := h.parent y hy
    exact hunused z hz ((hzaddr.trans hb.2).trans haddr.symm)
  have hno : ∀ x ∈ s.root.inorder, x.dlHash ≠ d.dlHash := fun x hx => hhash ▸ hnone x hx
  obtain ⟨t, hlink, hordered, hperm⟩ := h.ordered.exists_link (rb DupeBlocksList) rfl hno
  have hmem : ∀ x, x ∈ ((rb DupeBlocksList).insertColor t).inorder ↔
      x = d ∨ x ∈ s.root.inorder := fun x => hperm.mem_iff.trans List.mem_cons
  refine ⟨{ s with
    root := (rb DupeBlocksList).insertColor t, numHashes := s.numHashes + 1 }, ?_, ?_, hmem⟩
  · rw [HashTree.insertBlockList, hlink]
    rfl
  constructor
  · constructor
    · exact hordered
    · rw [(hperm.map _).nodup_iff, List.map_cons, List.nodup_cons]
      refine ⟨fun hin => ?_, h.addrs⟩
      obtain ⟨x, hx, hxaddr⟩ := List.mem_map.1 hin
      exact hunused x hx hxaddr
    · intro x hx
      rcases (hmem x).1 hx with rfl | hx
      · exact haddr ▸ Nat.lt_succ_self _
      · exact Nat.lt_succ_of_lt (h.addr_lt x hx)
    · rw [hperm.length_eq, List.length_cons, h.numHashes]
    · exact h.sizeNodup
    · intro a ha
      obtain ⟨x, hx, hxaddr⟩ := h.sizeSub a ha
      exact ⟨x, (hmem x).2 (.inr hx), hxaddr⟩
  · exact h.nodup
  · intro y hy
    obtain ⟨x, hx, hx'⟩ := h.parent y hy
    exact ⟨x, (hmem x).2 (.inr hx), hx'⟩
  · intro x hx
    rcases (hmem x).1 hx with rfl | hx
    · exact hempty
    · exact h.lists x hx
  · exact h.files
  · intro x hx htwo
    rcases (hmem x).1 hx with rfl | hx
    · omega
    · exact h.sizeList x hx htwo
  · exact h.numBlocks

variable (rb) in
/-- The list of a digest, which may be a new one. -/
theorem Linked.blockList (h : s.Linked live) (digest : DigestBytes) :
    ∃ d s', s.blockList rb digest = some (d, s') ∧ s'.Linked live ∧ d ∈ s'.root.inorder ∧
      d.dlHash = digest ∧ ∀ x ∈ s'.root.inorder, x = d ∨ x ∈ s.root.inorder := by
  cases hfind : s.findBlockList digest with
  | some d =>
    obtain ⟨hd, hhash⟩ := h.findBlockList_eq_some_iff.1 hfind
    exact ⟨d, s, by rw [HashTree.blockList, hfind], h, hd, hhash, fun x hx => .inr hx⟩
  | none =>
    obtain ⟨s', hinsert, hs', hmem⟩ := h.insertBlockList rb (h.ordered.find_eq_none_iff.1 hfind) rfl
    refine ⟨_, { s' with nextAddr := s'.nextAddr + 1 }, ?_, hs', (hmem _).2 (.inl rfl), rfl,
      fun x hx => (hmem x).1 hx⟩
    simp only [HashTree.blockList, hfind, hinsert, Option.map_some]

/-- A list that got its next block, in the size list from two blocks on. -/
theorem Shaped.rewrites_link (h : s.Shaped) (hd : d ∈ s.root.inorder) (d' : DupeBlocksList)
    (haddr : d'.addr = d.addr) (hhash : d'.dlHash = d.dlHash) (numBlocks : Nat)
    (blockTree : Nat → KeyTree FileBlock) :
    s.Rewrites
      { s with
        root := write s.root d'
        sizeList := if 1 < d'.dlNumElem ∧ d.addr ∉ s.sizeList then d.addr :: s.sizeList
          else s.sizeList
        blockTree
        numBlocks } d d' where
  mem := hd
  addr := haddr
  dlHash := hhash
  root := rfl
  nextAddr := rfl
  numHashes := rfl
  sizeNodup := by
    dsimp only
    split
    · rename_i hnew
      exact List.nodup_cons.2 ⟨hnew.2, h.sizeNodup⟩
    · exact h.sizeNodup
  sizeSub := by
    intro a ha
    dsimp only at ha
    split at ha
    · exact List.mem_cons.1 ha
    · exact .inr ha
  sizeSup := by
    intro a ha
    dsimp only
    split
    · exact List.mem_cons_of_mem _ ha
    · exact ha
  sizeList := by
    intro htwo
    dsimp only
    split
    · exact List.mem_cons_self
    · rename_i hnot
      by_contra hnotin
      exact hnot ⟨htwo, hnotin⟩

variable (rb) in
/-- A block at a new place is linked into a list that is there, without an abort. -/
theorem Linked.linkBlock (h : s.Linked live) (hd : d ∈ s.root.inorder) (haddr : e.bParent = d.addr)
    (hnew : ∀ x ∈ live, x.block.bFile = e.bFile → x.block.bLoff ≠ e.bLoff) :
    ∃ s', s.linkBlock rb d e = some s' ∧ s'.Linked (⟨d.dlHash, e⟩ :: live) ∧
      ∀ x ∈ s'.root.inorder, x.dlList ≠ [] ∨ x ∈ s.root.inorder ∧ x ≠ d := by
  have hfresh : ∀ b, b ∈ live.map LiveBlock.block → b.bFile = e.bFile → b.bLoff ≠ e.bLoff := by
    intro b hb
    obtain ⟨x, hx, rfl⟩ := List.mem_map.1 hb
    exact hnew x hx
  have hnot : e ∉ live.map LiveBlock.block := fun he => hfresh e he rfl rfl
  obtain ⟨t, n, hadd, hholds⟩ := (h.lists d hd).addFileHashHead rb (e := e) fun hQ => hnot hQ.1
  obtain ⟨bt, hbt, hfiles⟩ := h.files.insert rb hfresh
  have hwrites := h.rewrites_link hd ⟨d.addr, d.dlHash, d.dlNumElem + 1, d.dlList ++ [e], n, t⟩
    rfl rfl (s.numBlocks + 1) (Function.update s.blockTree e.bFile bt)
  refine ⟨_, ?_, hwrites.linked h ?_ ?_ ?_ ?_ ?_ ?_, ?_⟩
  · simp only [HashTree.linkBlock, hadd, hbt, Option.bind_eq_bind]
    rfl
  · exact List.nodup_cons.2 ⟨hnot, h.nodup⟩
  · intro x hx
    rcases List.mem_cons.1 hx with rfl | hx
    · exact .inr ⟨haddr, rfl⟩
    · exact .inl hx
  · intro b hb
    rw [List.map_cons, List.mem_cons, or_iff_right]
    rintro rfl
    exact hb haddr
  · refine hholds.congr fun b => ?_
    rw [List.map_cons, List.mem_cons]
    constructor
    · rintro (rfl | ⟨hb, hbp⟩)
      · exact ⟨.inl rfl, haddr⟩
      · exact ⟨.inr hb, hbp⟩
    · rintro ⟨rfl | hb, hbp⟩
      · exact .inl rfl
      · exact .inr ⟨hb, hbp⟩
  · exact hfiles.congr fun b => by rw [List.map_cons, List.mem_cons]
  · exact congrArg (· + 1) h.numBlocks
  · intro x hx
    rcases hwrites.mem_iff.1 hx with rfl | ⟨hx, hne⟩
    · exact .inl (List.append_ne_nil_of_right_ne_nil _ (List.cons_ne_nil _ _))
    · exact .inr ⟨hx, fun heq => hne (congrArg _ heq)⟩

/-! ## Removal -/

variable (rb) in
/-- A list that ran empty leaves the tree and the size list. -/
theorem Linked.eraseList (h : s.Linked live) (hd : d ∈ s.root.inorder) (hempty : d.dlList = []) :
    Linked { s with
      root := (rb DupeBlocksList).erase s.root d
      sizeList := s.sizeList.erase d.addr
      numHashes := s.numHashes - 1 } live := by
  have hmem : ∀ x, x ∈ ((rb DupeBlocksList).erase s.root d).inorder ↔
      x ≠ d ∧ x ∈ s.root.inorder := by
    intro x
    rw [Balance.inorder_erase, (h.addrs.of_map _).mem_erase_iff]
  have haddr : ∀ x ∈ s.root.inorder, x.addr ≠ d.addr ↔ x ≠ d := fun x hx =>
    ⟨fun hne heq => hne (congrArg _ heq), fun hne heq => hne (h.addr_inj hx hd heq)⟩
  constructor
  · constructor
    · exact h.ordered.erase _ _
    · rw [Balance.inorder_erase]
      exact h.addrs.sublist (List.erase_sublist.map _)
    · exact fun x hx => h.addr_lt x ((hmem x).1 hx).2
    · rw [Balance.inorder_erase, List.length_erase_of_mem hd, h.numHashes]
    · exact h.sizeNodup.erase _
    · intro a ha
      obtain ⟨hne, ha⟩ := h.sizeNodup.mem_erase_iff.1 ha
      obtain ⟨x, hx, rfl⟩ := h.sizeSub a ha
      exact ⟨x, (hmem x).2 ⟨(haddr x hx).1 hne, hx⟩, rfl⟩
  · exact h.nodup
  · intro y hy
    obtain ⟨x, hx, hparent, hdigest⟩ := h.parent y hy
    refine ⟨x, (hmem x).2 ⟨?_, hx⟩, hparent, hdigest⟩
    rintro rfl
    have hin := ((h.lists x hd).dlList.mem_iff y.block).2 ⟨List.mem_map_of_mem hy, hparent.symm⟩
    rw [hempty] at hin
    cases hin
  · exact fun x hx => h.lists x ((hmem x).1 hx).2
  · exact h.files
  · intro x hx htwo
    obtain ⟨hne, hx⟩ := (hmem x).1 hx
    exact h.sizeNodup.mem_erase_iff.2 ⟨(haddr x hx).2 hne, h.sizeList x hx htwo⟩
  · exact h.numBlocks

theorem map_block_unlink (live : List LiveBlock) (e : FileBlock) :
    (SafeList.unlink LiveBlock.block live e).map LiveBlock.block =
      (live.map LiveBlock.block).erase e := by
  rw [List.erase_eq_eraseP, List.eraseP_map, SafeList.unlink]
  congr 2
  funext x
  rw [Function.comp_apply, beq_eq_decide, decide_eq_decide]
  exact eq_comm

theorem length_unlink (he : e ∈ live.map LiveBlock.block) :
    (SafeList.unlink LiveBlock.block live e).length = live.length - 1 := by
  obtain ⟨x, hx, hxe⟩ := List.mem_map.1 he
  exact List.length_eraseP_of_mem hx (decide_eq_true hxe)

theorem Linked.mem_unlink (h : s.Linked live) {b : FileBlock} :
    b ∈ (SafeList.unlink LiveBlock.block live e).map LiveBlock.block ↔
      b ∈ live.map LiveBlock.block ∧ b ≠ e := by
  rw [map_block_unlink, h.nodup.mem_erase_iff, and_comm]

/-- The lists besides the parent of a block are not changed by `list_del`. -/
theorem Linked.inorder_write_listDel (h : s.Linked live) (haddr : d'.addr = e.bParent) :
    (write (s.root.map fun dups => dups.listDel e) d').inorder = (write s.root d').inorder := by
  simp only [write, KeyTree.inorder_map, List.map_map]
  refine List.map_congr_left fun x hx => ?_
  simp only [Function.comp_apply]
  by_cases hx' : x.addr = d'.addr
  · have hdel : (x.listDel e).addr = d'.addr := hx'
    rw [if_pos hdel, if_pos hx']
  · have hdel : (x.listDel e).addr ≠ d'.addr := hx'
    rw [if_neg hdel, if_neg hx']
    exact (h.lists x hx).listDel_eq fun hQ => hx' (hQ.2.symm.trans haddr.symm)

/-- The list of a live block is there, and has the block. -/
theorem Linked.listAt (h : s.Linked live) (he : e ∈ live.map LiveBlock.block) :
    ∃ d, s.listAt e.bParent = some d ∧ d ∈ s.root.inorder ∧ d.addr = e.bParent ∧ e ∈ d.dlList := by
  obtain ⟨x, hx, rfl⟩ := List.mem_map.1 he
  obtain ⟨d, hd, haddr, -⟩ := h.parent x hx
  exact ⟨d, h.listAt_eq_some_iff.2 ⟨hd, haddr⟩, hd, haddr,
    ((h.lists d hd).dlList.mem_iff _).2 ⟨he, haddr.symm⟩⟩

variable (rb) in
/-- A live block is unlinked from everything, which writes its list. The list is freed when
    it ran empty. -/
theorem Linked.unlinkBlock (h : s.Linked live) (hd : s.listAt e.bParent = some d)
    (he : e ∈ live.map LiveBlock.block) :
    ∃ d' s', s.Rewrites s' d d' ∧ s'.Linked (SafeList.unlink LiveBlock.block live e) ∧
      d'.dlList = d.dlList.erase e ∧ d'.dlNumElem = (d.dlList.erase e).length ∧
      s.removeHashedBlock rb e =
        if d'.dlNumElem = 0 then
          some (1,
            { s' with
              root := (rb DupeBlocksList).erase s'.root d'
              sizeList := s'.sizeList.erase d'.addr
              numHashes := s'.numHashes - 1 })
        else some (0, s') := by
  obtain ⟨hdmem, haddr⟩ := h.listAt_eq_some_iff.1 hd
  have hQ : e ∈ live.map LiveBlock.block ∧ e.bParent = d.addr := ⟨he, haddr.symm⟩
  have hnum : d.dlNumElem ≠ 0 := by
    rw [(h.lists d hdmem).numElem]
    exact (List.length_pos_of_mem (((h.lists d hdmem).dlList.mem_iff e).2 hQ)).ne'
  obtain ⟨t, hfree, hholds⟩ := (h.lists d hdmem).unlink rb hQ
  generalize hd' : (⟨d.addr, d.dlHash, d.dlNumElem - 1, d.dlList.erase e, d.dlNumFiles, t⟩ :
    DupeBlocksList) = d' at hholds
  have haddr' : d'.addr = d.addr := hd' ▸ rfl
  have hlist' : d'.dlList = d.dlList.erase e := hd' ▸ rfl
  have hnum' : d'.dlNumElem = d.dlNumElem - 1 := hd' ▸ rfl
  have hwrites : s.Rewrites
      { s with
        root := write (s.root.map fun dups => dups.listDel e) d'
        blockTree := Function.update s.blockTree e.bFile
          ((rb FileBlock).erase (s.blockTree e.bFile) e)
        numBlocks := s.numBlocks - 1 } d d' :=
    ⟨hdmem, haddr', hd' ▸ rfl, h.inorder_write_listDel (haddr'.trans haddr), rfl, rfl, h.sizeNodup,
      fun a ha => .inr ha, fun a ha => ha, fun htwo => h.sizeList d hdmem (by omega)⟩
  refine ⟨d', _, hwrites, hwrites.linked h ?_ ?_ ?_ ?_ ?_ ?_, hlist', ?_, ?_⟩
  · rw [map_block_unlink]
    exact h.nodup.erase e
  · exact fun x hx => .inl (List.mem_of_mem_eraseP hx)
  · intro b hb
    rw [h.mem_unlink, iff_self_and]
    rintro - rfl
    exact hb haddr.symm
  · refine hholds.congr fun b => ?_
    rw [h.mem_unlink, and_right_comm]
  · exact (h.files.erase rb e).congr fun b => h.mem_unlink.symm
  · rw [length_unlink he, ← h.numBlocks]
  · rw [hholds.numElem, hlist']
  · simp only [HashTree.removeHashedBlock, hd, if_neg hnum, hfree, hd', hnum', haddr']

variable (rb) in
/-- A live block is removed. Its list stays when it has another block. -/
theorem Linked.removeHashedBlock (h : s.Linked live) (hd : s.listAt e.bParent = some d)
    (he : e ∈ live.map LiveBlock.block) :
    ∃ ret s', s.removeHashedBlock rb e = some (ret, s') ∧
      s'.Linked (SafeList.unlink LiveBlock.block live e) ∧
      (∀ x ∈ s'.root.inorder, x.dlList ≠ [] ∨ x ∈ s.root.inorder) ∧
      (d.dlList.erase e = [] → ret = 1) ∧
      (d.dlList.erase e ≠ [] → ret = 0 ∧
        ∃ d', s'.listAt e.bParent = some d' ∧ d'.dlList = d.dlList.erase e) := by
  obtain ⟨-, haddr⟩ := h.listAt_eq_some_iff.1 hd
  obtain ⟨d', s', hwrites, hlinked, hlist, hnum, hremove⟩ := h.unlinkBlock rb hd he
  have hmem : d' ∈ s'.root.inorder := hwrites.mem_iff.2 (.inl rfl)
  rw [hremove]
  by_cases hempty : d.dlList.erase e = []
  · rw [if_pos (by rw [hnum, hempty]; rfl)]
    refine ⟨1, _, rfl, hlinked.eraseList rb hmem (hlist.trans hempty), fun x hx => ?_, fun _ => rfl,
      fun hne => absurd hempty hne⟩
    rw [Balance.inorder_erase, (hlinked.addrs.of_map _).mem_erase_iff] at hx
    exact .inr ((hwrites.mem_iff.1 hx.2).resolve_left hx.1).1
  · rw [if_neg (by rw [hnum]; exact fun hzero => hempty (List.length_eq_zero_iff.1 hzero))]
    refine ⟨0, s', rfl, hlinked, fun x hx => ?_, fun hnil => absurd hnil hempty,
      fun _ => ⟨rfl, d', ?_, hlist⟩⟩
    · rcases hwrites.mem_iff.1 hx with rfl | ⟨hx, -⟩
      · exact .inl (by rw [hlist]; exact hempty)
      · exact .inr hx
    · exact hlinked.listAt_eq_some_iff.2 ⟨hmem, hwrites.addr.trans haddr⟩

-- ---------------------------------------------------------------------------
-- The invariant between the operations
-- ---------------------------------------------------------------------------

/-- Everything is linked, and no list is empty. -/
structure Inv (s : HashTree) (live : List LiveBlock) : Prop extends Linked s live where
  nonempty : ∀ d ∈ s.root.inorder, d.dlList ≠ []

theorem inv_init : initHashTree.Inv [] := ⟨linked_init, fun _ hd => nomatch hd⟩

/-- The two lists of live blocks are empty together. -/
theorem Inv.root_eq_nil_iff (h : s.Inv live) : s.root.inorder = [] ↔ live = [] := by
  constructor
  · intro hroot
    refine List.eq_nil_iff_forall_not_mem.2 fun x hx => ?_
    obtain ⟨d, hd, -⟩ := h.parent x hx
    rw [hroot] at hd
    cases hd
  · rintro rfl
    refine List.eq_nil_iff_forall_not_mem.2 fun d hd => h.nonempty d hd ?_
    exact (h.lists d hd).dlList.eq_nil_iff.2 fun b hb => nomatch hb.1

variable (rb) in
/-- A block at a new place is inserted without an abort. -/
theorem Inv.insertHashedBlock (h : s.Inv live) (digest : DigestBytes) {file loff : Nat}
    (hnew : ∀ x ∈ live, x.block.bFile = file → x.block.bLoff ≠ loff) :
    ∃ a s', s.insertHashedBlock rb digest file loff = some (⟨a, file, loff⟩, s') ∧
      s'.Inv (⟨digest, ⟨a, file, loff⟩⟩ :: live) := by
  obtain ⟨d, s₁, hlist, h₁, hd, rfl, hmem₁⟩ := h.blockList rb digest
  obtain ⟨s', hlink, h', hmem'⟩ := h₁.linkBlock rb (e := ⟨d.addr, file, loff⟩) hd rfl hnew
  refine ⟨d.addr, s', ?_, h', fun x hx => ?_⟩
  · simp only [HashTree.insertHashedBlock, hlist, hlink, Option.bind_eq_bind, Option.bind_some]
  · rcases hmem' x hx with hne | ⟨hx, hxd⟩
    · exact hne
    · exact h.nonempty x ((hmem₁ x hx).resolve_left hxd)

variable (rb) in
theorem Inv.removeHashedBlock (h : s.Inv live) (hd : s.listAt e.bParent = some d)
    (he : e ∈ live.map LiveBlock.block) :
    ∃ ret s', s.removeHashedBlock rb e = some (ret, s') ∧
      s'.Inv (SafeList.unlink LiveBlock.block live e) ∧
      (d.dlList.erase e = [] → ret = 1) ∧
      (d.dlList.erase e ≠ [] → ret = 0 ∧
        ∃ d', s'.listAt e.bParent = some d' ∧ d'.dlList = d.dlList.erase e) := by
  obtain ⟨ret, s', hremove, h', hmem, hlast, hmore⟩ := h.toLinked.removeHashedBlock rb hd he
  exact ⟨ret, s', hremove, ⟨h', fun x hx => (hmem x hx).elim id (h.nonempty x)⟩, hlast, hmore⟩

/-! ## Freeing the tree -/

/-- What holds when a round of `free_hash_tree` begins: the cursor stands at the head of a
    list that is there. -/
inductive FreeWalk.Inv : FreeWalk → Prop where
  | outer {s : HashTree} {live : List LiveBlock} (h : s.Inv live) : Inv ⟨s, none⟩
  | inner {s : HashTree} {live : List LiveBlock} {a : Nat} {d : DupeBlocksList} (h : s.Inv live)
      (hd : s.listAt a = some d) : Inv ⟨s, some (a, .first id d.dlList)⟩

/-- Two rounds for each block, and one more at the root. -/
def FreeWalk.measure (w : FreeWalk) : Nat :=
  2 * w.sys.numBlocks + if w.inner = none then 1 else 0

variable (rb) in
theorem freeRound_inv {w : FreeWalk} (hw : w.Inv) :
    (∃ w', freeRound rb w = .again w' ∧ w'.Inv ∧ w'.measure < w.measure) ∨
      ∃ r, freeRound rb w = .leave r ∧ ∃ s', r = some s' ∧ s'.Inv [] := by
  rcases hw with ⟨h⟩ | ⟨h, hd⟩
  case outer s live =>
    cases hroot : s.root.inorder with
    | nil =>
      obtain rfl := h.root_eq_nil_iff.1 hroot
      exact .inr ⟨some s, by simp only [freeRound, hroot, List.head?_nil], s, rfl, h⟩
    | cons d ds =>
      have hd : s.listAt d.addr = some d :=
        h.listAt_eq_some_iff.2 ⟨hroot ▸ List.mem_cons_self, rfl⟩
      refine .inl ⟨⟨s, some (d.addr, .first id d.dlList)⟩, ?_, .inner h hd, ?_⟩
      · simp only [freeRound, hroot, List.head?_cons]
      · simp [FreeWalk.measure]
  case inner s live a d =>
    obtain ⟨hdmem, rfl⟩ := h.listAt_eq_some_iff.1 hd
    cases hlist : d.dlList with
    | nil => exact absurd hlist (h.nonempty d hdmem)
    | cons b bs =>
      obtain ⟨hb, hparent⟩ := ((h.lists d hdmem).dlList.mem_iff b).1 (hlist ▸ List.mem_cons_self)
      obtain ⟨ret, s', hremove, h', hlast, hmore⟩ :=
        h.removeHashedBlock rb (hparent.symm ▸ hd) hb
      have hnum : s'.numBlocks + 1 = s.numBlocks := by
        have hpos := List.length_pos_of_mem hb
        rw [List.length_map] at hpos
        rw [h'.numBlocks, h.numBlocks, length_unlink hb]
        omega
      rw [hlist, List.erase_cons_head, hparent] at hmore
      rw [hlist, List.erase_cons_head] at hlast
      have hcur : ((s.listAt d.addr).bind fun dups => SafeList.at? id dups.dlList b) = some b := by
        rw [hd, Option.bind_some, hlist]
        exact SafeList.at?_cons_self b bs
      by_cases hbs : bs = []
      · obtain rfl := hlast hbs
        refine .inl ⟨⟨s', none⟩, ?_, .outer h', ?_⟩
        · simp only [freeRound, SafeList.first_cur, List.head?_cons, Option.map_some, id, hcur,
            hremove]
        · simp only [FreeWalk.measure]
          split <;> split <;> omega
      · obtain ⟨rfl, d', hd', hlist'⟩ := hmore hbs
        refine .inl ⟨⟨s', some (d.addr, .first id d'.dlList)⟩, ?_, .inner h' hd', ?_⟩
        · simp only [freeRound, SafeList.first_cur, List.head?_cons, Option.map_some, id, hcur,
            hremove, hd', hlist', SafeList.advance_first b bs]
        · simp [FreeWalk.measure]
          omega

variable (rb) in
/-- `free_hash_tree` ends, and no block is left. -/
theorem Inv.freeHashTree (h : s.Inv live) :
    ∃ s', s.freeHashTree rb = some s' ∧ s'.Inv [] := by
  obtain ⟨r, hrun, s', rfl, hs'⟩ := Loop.run_total FreeWalk.Inv FreeWalk.measure
    (fun w hw => freeRound_inv rb hw) (2 * s.numBlocks + 2) ⟨s, none⟩ (.outer h)
    (Nat.lt_succ_self _)
  exact ⟨s', by rw [HashTree.freeHashTree, hrun]; rfl, hs'⟩

-- ---------------------------------------------------------------------------
-- Runs
-- ---------------------------------------------------------------------------

/-- What the program does with the tree. -/
inductive HashOp where
  | insert (digest : DigestBytes) (file loff : Nat)
  | remove (block : FileBlock)
  | free
  deriving DecidableEq, Repr

/-- Only blocks that are live are removed, and no live block is inserted again. -/
def HashOp.Allowed (live : List LiveBlock) : HashOp → Prop
  | insert _ file loff => ∀ x ∈ live, x.block.bFile = file → x.block.bLoff ≠ loff
  | remove block => block ∈ live.map LiveBlock.block
  | free => True

/-- The tree, and the blocks that are live. -/
structure HashRun where
  sys : HashTree
  live : List LiveBlock

namespace HashRun

def init : HashRun := ⟨initHashTree, []⟩

/-- One operation; `none` is an abort, or access to what was freed. -/
def step (rb : (α : Type) → [DecidableEq α] → Balance α) (r : HashRun) : HashOp → Option HashRun
  | .insert digest file loff =>
    (r.sys.insertHashedBlock rb digest file loff).map fun (e, sys) => ⟨sys, ⟨digest, e⟩ :: r.live⟩
  | .remove block =>
    (r.sys.removeHashedBlock rb block).map fun (_, sys) =>
      ⟨sys, SafeList.unlink LiveBlock.block r.live block⟩
  | .free => (r.sys.freeHashTree rb).map fun sys => ⟨sys, []⟩

/-- The tree after some operations. -/
inductive Reachable (rb : (α : Type) → [DecidableEq α] → Balance α) : HashRun → Prop where
  | init : Reachable rb HashRun.init
  | step {r r' : HashRun} (op : HashOp) (h : Reachable rb r) (hop : op.Allowed r.live)
      (hstep : r.step rb op = some r') : Reachable rb r'

end HashRun

variable (rb) in
/-- Every operation that is allowed succeeds, and keeps the invariant. -/
theorem Inv.step {r : HashRun} (h : r.sys.Inv r.live) {op : HashOp} (hop : op.Allowed r.live) :
    ∃ r', r.step rb op = some r' ∧ r'.sys.Inv r'.live := by
  cases op with
  | insert digest file loff =>
    obtain ⟨a, s', hinsert, h'⟩ := h.insertHashedBlock rb digest hop
    exact ⟨⟨s', ⟨digest, ⟨a, file, loff⟩⟩ :: r.live⟩, by rw [HashRun.step, hinsert]; rfl, h'⟩
  | remove block =>
    obtain ⟨d, hd, -⟩ := h.listAt hop
    obtain ⟨ret, s', hremove, h', -⟩ := h.removeHashedBlock rb hd hop
    exact ⟨⟨s', SafeList.unlink LiveBlock.block r.live block⟩,
      by rw [HashRun.step, hremove]; rfl, h'⟩
  | free =>
    obtain ⟨s', hfree, h'⟩ := h.freeHashTree rb
    exact ⟨⟨s', []⟩, by rw [HashRun.step, hfree]; rfl, h'⟩

theorem HashRun.Reachable.inv {r : HashRun} (h : r.Reachable rb) : r.sys.Inv r.live := by
  induction h with
  | init => exact inv_init
  | step op _ hop hstep ih =>
    obtain ⟨r'', hstep', h'⟩ := ih.step rb hop
    obtain rfl := Option.some.inj (hstep'.symm.trans hstep)
    exact h'

-- ---------------------------------------------------------------------------
-- What the tree should be
-- ---------------------------------------------------------------------------

/-- The counters, the lists, the heads and the block trees say the same as the live
    blocks, and each live block is where it belongs, once. -/
structure InStep (s : HashTree) (live : List LiveBlock) : Prop where
  distinct : (live.map fun x => (x.block.bFile, x.block.bLoff)).Nodup
  numBlocks : s.numBlocks = live.length
  numHashes : s.numHashes = (live.map LiveBlock.digest).dedup.length
  /-- Each digest has one list. -/
  oneList : (s.root.inorder.map DupeBlocksList.dlHash).Perm (live.map LiveBlock.digest).dedup
  parent : ∀ x ∈ live, ∀ d ∈ s.root.inorder, d.dlHash = x.digest → x.block.bParent = d.addr
  numElem : ∀ d ∈ s.root.inorder, d.dlNumElem = d.dlList.length ∧ 0 < d.dlNumElem
  dlList : ∀ d ∈ s.root.inorder,
    d.dlList.Perm ((live.filter fun x => x.digest = d.dlHash).map LiveBlock.block)
  /-- Each digest has one head for each file. -/
  oneHead : ∀ d ∈ s.root.inorder, (d.dlFilesRoot.inorder.map FileHashHead.hFile).Perm
    ((live.filter fun x => x.digest = d.dlHash).map fun x => x.block.bFile).dedup
  hBlocks : ∀ d ∈ s.root.inorder, ∀ h ∈ d.dlFilesRoot.inorder, h.hBlocks ≠ [] ∧
    h.hBlocks.Perm ((live.filter fun x => x.digest = d.dlHash ∧ x.block.bFile = h.hFile).map
      LiveBlock.block)
  blockTree : ∀ file, (s.blockTree file).inorder.Perm
    ((live.filter fun x => x.block.bFile = file).map LiveBlock.block)
  /-- The lookup in a block tree finds the live blocks. -/
  found : ∀ file loff b, s.findFilerecBlock file loff = some b ↔
    b ∈ live.map LiveBlock.block ∧ b.bFile = file ∧ b.bLoff = loff
  sizeList : ∀ d ∈ s.root.inorder, 2 ≤ d.dlNumElem → d.addr ∈ s.sizeList
  /-- The size list has no list twice, and none that was freed. -/
  sizeSub : s.sizeList.Nodup ∧ ∀ a ∈ s.sizeList, ∃ d ∈ s.root.inorder, d.addr = a

/-- A list of all blocks with a property is the live blocks with that property. -/
theorem Linked.perm_filter (h : s.Linked live) {l : List FileBlock} (hl : Enumerates l Q)
    {p : LiveBlock → Bool}
    (hiff : ∀ x ∈ live, Q x.block ↔ p x = true) (hsub : ∀ b, Q b → b ∈ live.map LiveBlock.block) :
    l.Perm ((live.filter p).map LiveBlock.block) := by
  rw [List.perm_ext_iff_of_nodup hl.nodup (h.nodup.sublist (List.filter_sublist.map _))]
  intro b
  rw [hl.mem_iff]
  simp only [List.mem_map, List.mem_filter]
  constructor
  · intro hb
    obtain ⟨x, hx, rfl⟩ := List.mem_map.1 (hsub b hb)
    exact ⟨x, ⟨hx, (hiff x hx).1 hb⟩, rfl⟩
  · rintro ⟨x, ⟨hx, hp⟩, rfl⟩
    exact (hiff x hx).2 hp

/-- A block has a list as its parent exactly when it was inserted with the digest. -/
theorem Linked.parent_iff (h : s.Linked live) {x : LiveBlock} (hx : x ∈ live)
    (hd : d ∈ s.root.inorder) : x.block.bParent = d.addr ↔ x.digest = d.dlHash := by
  obtain ⟨y, hy, haddr, hdigest⟩ := h.parent x hx
  constructor
  · intro hparent
    rw [← hdigest, h.addr_inj hy hd (haddr.trans hparent)]
  · intro hdigest'
    rw [← haddr, h.hash_inj hy hd (hdigest.trans hdigest')]

/-- The digests that have a list are the digests of the live blocks. -/
theorem Inv.perm_digests (h : s.Inv live) :
    (s.root.inorder.map DupeBlocksList.dlHash).Perm (live.map LiveBlock.digest).dedup := by
  rw [List.perm_ext_iff_of_nodup h.ordered.nodup_keys (List.nodup_dedup _)]
  intro digest
  simp only [List.mem_dedup, List.mem_map]
  constructor
  · rintro ⟨d, hd, rfl⟩
    obtain ⟨b, hb⟩ := List.exists_mem_of_ne_nil _ (h.nonempty d hd)
    obtain ⟨hb, hparent⟩ := ((h.lists d hd).dlList.mem_iff b).1 hb
    obtain ⟨x, hx, rfl⟩ := List.mem_map.1 hb
    exact ⟨x, hx, (h.parent_iff hx hd).1 hparent⟩
  · rintro ⟨x, hx, rfl⟩
    obtain ⟨d, hd, -, hdigest⟩ := h.parent x hx
    exact ⟨d, hd, hdigest⟩

/-- The files that have a head in a list are the files of the blocks in it. -/
theorem Linked.perm_files (h : s.Linked live) (hd : d ∈ s.root.inorder) :
    (d.dlFilesRoot.inorder.map FileHashHead.hFile).Perm
      ((live.filter fun x => x.digest = d.dlHash).map fun x => x.block.bFile).dedup := by
  have hheads := (h.lists d hd).headed
  rw [List.perm_ext_iff_of_nodup hheads.ordered.nodup_keys (List.nodup_dedup _)]
  intro file
  simp only [List.mem_dedup, List.mem_map, List.mem_filter, decide_eq_true_eq]
  constructor
  · rintro ⟨head, hhead, rfl⟩
    obtain ⟨b, hb⟩ := List.exists_mem_of_ne_nil _ ((h.lists d hd).nonempty head hhead)
    obtain ⟨⟨hb, hparent⟩, hfile⟩ := ((hheads.hBlocks head hhead).mem_iff b).1 hb
    obtain ⟨x, hx, rfl⟩ := List.mem_map.1 hb
    exact ⟨x, ⟨hx, (h.parent_iff hx hd).1 hparent⟩, hfile⟩
  · rintro ⟨x, ⟨hx, hdigest⟩, rfl⟩
    exact hheads.headOf x.block ⟨List.mem_map_of_mem hx, (h.parent_iff hx hd).2 hdigest⟩

theorem Linked.findFilerecBlock_eq_some_iff (h : s.Linked live) {file loff : Nat} {b : FileBlock} :
    s.findFilerecBlock file loff = some b ↔
      b ∈ live.map LiveBlock.block ∧ b.bFile = file ∧ b.bLoff = loff := by
  rw [HashTree.findFilerecBlock, (h.files file).1.find_eq_some_iff, (h.files file).2.mem_iff,
    and_assoc]

theorem Inv.inStep (h : s.Inv live) : s.InStep live where
  distinct := by
    have hinj : ∀ b ∈ live.map LiveBlock.block, ∀ b' ∈ live.map LiveBlock.block,
        (b.bFile, b.bLoff) = (b'.bFile, b'.bLoff) → b = b' := by
      intro b hb b' hb' heq
      obtain ⟨hfile, hloff⟩ := Prod.mk.inj heq
      have hfind := h.findFilerecBlock_eq_some_iff.2 ⟨hb, rfl, rfl⟩
      have hfind' := h.findFilerecBlock_eq_some_iff.2 ⟨hb', hfile.symm, hloff.symm⟩
      exact Option.some.inj (hfind.symm.trans hfind')
    have hnodup := h.nodup.map_on hinj
    rwa [List.map_map] at hnodup
  numBlocks := h.numBlocks
  numHashes := by rw [h.numHashes, ← h.perm_digests.length_eq, List.length_map]
  oneList := h.perm_digests
  parent := fun x hx d hd hhash => (h.parent_iff hx hd).2 hhash.symm
  numElem := fun d hd => ⟨(h.lists d hd).numElem,
    (h.lists d hd).numElem ▸ List.length_pos_of_ne_nil (h.nonempty d hd)⟩
  dlList := by
    intro d hd
    refine h.perm_filter (h.lists d hd).dlList (fun x hx => ?_) fun b hb => hb.1
    rw [decide_eq_true_eq, ← h.parent_iff hx hd]
    exact and_iff_right (List.mem_map_of_mem hx)
  oneHead := fun d hd => h.perm_files hd
  hBlocks := by
    intro d hd head hhead
    refine ⟨(h.lists d hd).nonempty head hhead, ?_⟩
    refine h.perm_filter ((h.lists d hd).headed.hBlocks head hhead) (fun x hx => ?_)
      fun b hb => hb.1.1
    rw [decide_eq_true_eq, ← h.parent_iff hx hd, and_assoc]
    exact and_iff_right (List.mem_map_of_mem hx)
  blockTree := by
    intro file
    refine h.perm_filter (h.files file).2 (fun x hx => ?_) fun b hb => hb.1
    rw [decide_eq_true_eq]
    exact and_iff_right (List.mem_map_of_mem hx)
  found := fun file loff b => h.findFilerecBlock_eq_some_iff
  sizeList := h.sizeList
  sizeSub := ⟨h.sizeNodup, h.sizeSub⟩

/-- A tree without live blocks is as it was initialised. -/
theorem Inv.of_nil (h : s.Inv []) : s.root = .nil ∧ s.sizeList = [] ∧ s.numBlocks = 0 ∧
    s.numHashes = 0 ∧ ∀ file, s.blockTree file = .nil := by
  have hroot := h.root_eq_nil_iff.2 rfl
  refine ⟨KeyTree.inorder_eq_nil_iff.1 hroot, ?_, h.numBlocks, ?_, fun file => ?_⟩
  · refine List.eq_nil_iff_forall_not_mem.2 fun a ha => ?_
    obtain ⟨d, hd, -⟩ := h.sizeSub a ha
    rw [hroot] at hd
    cases hd
  · rw [h.numHashes, hroot]
    rfl
  · exact KeyTree.inorder_eq_nil_iff.1 ((h.files file).2.eq_nil_iff.2 fun b hb => nomatch hb.1)

/-- After any run of allowed operations the tree is in step with the live blocks. An
    insertion at a new place and the removal of a live block succeed, and `free_hash_tree`
    ends with nothing left. -/
theorem hashTree_inStep {r : HashRun} (h : r.Reachable rb) :
    r.sys.InStep r.live ∧
    (∀ digest file loff, (HashOp.insert digest file loff).Allowed r.live →
      ∃ e s, r.sys.insertHashedBlock rb digest file loff = some (e, s) ∧
        e.bFile = file ∧ e.bLoff = loff) ∧
    (∀ block, (HashOp.remove block).Allowed r.live →
      ∃ ret s, r.sys.removeHashedBlock rb block = some (ret, s)) ∧
    ∃ s, r.sys.freeHashTree rb = some s ∧ s.root = .nil ∧ s.sizeList = [] ∧ s.numBlocks = 0 ∧
      s.numHashes = 0 ∧ ∀ file, s.blockTree file = .nil := by
  have hinv := h.inv
  refine ⟨hinv.inStep, ?_, ?_, ?_⟩
  · intro digest file loff hop
    obtain ⟨a, s, hinsert, -⟩ := hinv.insertHashedBlock rb digest hop
    exact ⟨_, s, hinsert, rfl, rfl⟩
  · intro block hop
    obtain ⟨d, hd, -⟩ := hinv.listAt hop
    obtain ⟨ret, s, hremove, -⟩ := hinv.removeHashedBlock rb hd hop
    exact ⟨ret, s, hremove⟩
  · obtain ⟨s, hfree, hs⟩ := hinv.freeHashTree rb
    exact ⟨s, hfree, hs.of_nil⟩

/-- Two blocks of a file with one digest, and the removal of the first one. -/
def twoBlocks : List HashOp :=
  [.insert (Vector.replicate digestLen 0) 1 0, .insert (Vector.replicate digestLen 0) 1 4096,
    .remove ⟨0, 1, 0⟩]

theorem hashTree_inStep_twoBlocks :
    ∃ r, twoBlocks.foldlM (HashRun.step fun α _ => Balance.none α) .init = some r ∧
      r.live.map LiveBlock.block = [⟨0, 1, 4096⟩] ∧ r.sys.numBlocks = 1 ∧ r.sys.numHashes = 1 ∧
      r.sys.InStep r.live := by
  have hlive : ∀ n r, (twoBlocks.take n).foldlM (HashRun.step fun α _ => Balance.none α) .init =
      some r → ((twoBlocks.take n).foldlM (HashRun.step fun α _ => Balance.none α) .init).map
        (fun r => r.live.map LiveBlock.block) = some (r.live.map LiveBlock.block) :=
    fun n r hrun => by rw [hrun, Option.map_some]
  have hend : (twoBlocks.foldlM (HashRun.step fun α _ => Balance.none α) .init).map
      (fun r => (r.live.map LiveBlock.block, r.sys.numBlocks, r.sys.numHashes)) =
      some ([⟨0, 1, 4096⟩], 1, 1) := by
    decide +kernel
  obtain ⟨r, hrun, hcounts⟩ := Option.map_eq_some_iff.1 hend
  obtain ⟨r₁, hfirst, hrest⟩ := Steps.run_cons.1 hrun
  obtain ⟨r₂, hsecond, hrest⟩ := Steps.run_cons.1 hrest
  obtain ⟨_, hthird, hnil⟩ := Steps.run_cons.1 hrest
  cases hnil
  have hone : r₁.live.map LiveBlock.block = [⟨0, 1, 0⟩] := by
    refine (Option.some.inj ?_).symm
    rw [← hlive 1 r₁ (Steps.run_cons.2 ⟨r₁, hfirst, rfl⟩)]
    decide +kernel
  have htwo : r₂.live.map LiveBlock.block = [⟨0, 1, 4096⟩, ⟨0, 1, 0⟩] := by
    refine (Option.some.inj ?_).symm
    rw [← hlive 2 r₂ (Steps.run_cons.2 ⟨r₁, hfirst, Steps.run_cons.2 ⟨r₂, hsecond, rfl⟩⟩)]
    decide +kernel
  have hreach : r.Reachable fun α _ => Balance.none α := by
    refine .step _ (.step _ (.step _ .init ?_ hfirst) ?_ hsecond) ?_ hthird
    · exact fun x hx => absurd hx List.not_mem_nil
    · intro x hx _
      have hblock := List.mem_map_of_mem (f := LiveBlock.block) hx
      rw [hone, List.mem_singleton] at hblock
      rw [hblock]
      decide
    · rw [HashOp.Allowed, htwo]
      decide
  obtain ⟨hblocks, hcounts⟩ := Prod.mk.inj hcounts
  obtain ⟨hblock, hhashes⟩ := Prod.mk.inj hcounts
  exact ⟨r, hrun, hblocks, hblock, hhashes, (hashTree_inStep hreach).1⟩

end Duperemove.HashTree
