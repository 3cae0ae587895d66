-- SUMMARY: One list of the hash tree with its heads, and the block trees: which blocks they hold.
import Duperemove.HashTree
import Duperemove.Lib.Enumerates

/-!
# The lists of the hash tree

What the list of a digest, the heads in it and the block trees hold is a property of
blocks, and each small operation on them says how the property changes. The heads keep
theirs while one of them is empty, which it is between `list_del` and
`free_one_hash_head`.
-/

namespace Duperemove.HashTree

open SearchTree (KeyTree Balance)

variable {rb : (α : Type) → [DecidableEq α] → Balance α} {Q : FileBlock → Prop} {e : FileBlock}

-- ---------------------------------------------------------------------------
-- Heads
-- ---------------------------------------------------------------------------

/-- The heads of a list that holds these blocks. -/
structure Headed (t : KeyTree FileHashHead) (Q : FileBlock → Prop) : Prop where
  ordered : t.Ordered cmpHeads FileHashHead.hFile
  hBlocks : ∀ h ∈ t.inorder, Enumerates h.hBlocks fun b => Q b ∧ b.bFile = h.hFile
  headOf : ∀ b, Q b → ∃ h ∈ t.inorder, h.hFile = b.bFile

namespace Headed

variable {t t' : KeyTree FileHashHead} {head h h' : FileHashHead}

theorem nodup (ht : Headed t Q) : t.inorder.Nodup := .of_map _ ht.ordered.nodup_keys

theorem hFile_inj (ht : Headed t Q) (hh : h ∈ t.inorder) (hh' : h' ∈ t.inorder)
    (hfile : h.hFile = h'.hFile) : h = h' :=
  List.inj_on_of_nodup_map ht.ordered.nodup_keys hh hh' hfile

variable (rb) in
/-- A head for a file that has none starts without blocks. -/
theorem insert (ht : Headed t Q) {file : Nat} (hnone : ∀ h ∈ t.inorder, h.hFile ≠ file) :
    ∃ t', t.link (KeyTree.side cmpHeads FileHashHead.hFile file) ⟨file, []⟩ = some t' ∧
      Headed ((rb FileHashHead).insertColor t') Q ∧
      ∀ h, h ∈ ((rb FileHashHead).insertColor t').inorder ↔ h = ⟨file, []⟩ ∨ h ∈ t.inorder := by
  obtain ⟨t', hlink, hordered, hperm⟩ :=
    ht.ordered.exists_link (rb FileHashHead) (show FileHashHead.hFile ⟨file, []⟩ = file from rfl)
      hnone
  have hmem : ∀ h, h ∈ ((rb FileHashHead).insertColor t').inorder ↔
      h = ⟨file, []⟩ ∨ h ∈ t.inorder := fun h => hperm.mem_iff.trans List.mem_cons
  refine ⟨t', hlink, ⟨hordered, ?_, ?_⟩, hmem⟩
  · intro h hh
    rcases (hmem h).1 hh with rfl | hh
    · refine .nil fun b hb => ?_
      obtain ⟨h', hh', hfile⟩ := ht.headOf b hb.1
      exact hnone h' hh' (hfile.trans hb.2)
    · exact ht.hBlocks h hh
  · intro b hb
    obtain ⟨h, hh, hfile⟩ := ht.headOf b hb
    exact ⟨h, (hmem h).2 (.inr hh), hfile⟩

/-- A new block behind the others of its file. -/
theorem listAddTail (ht : Headed t Q) (hhead : head ∈ t.inorder) (hfile : head.hFile = e.bFile)
    (hnew : ¬ Q e) :
    Headed (t.map fun h => if h = head then { h with hBlocks := h.hBlocks ++ [e] } else h)
      fun b => b = e ∨ Q b := by
  have hkey : ∀ h : FileHashHead,
      (if h = head then { h with hBlocks := h.hBlocks ++ [e] } else h).hFile = h.hFile := by
    intro h
    split <;> rfl
  refine ⟨ht.ordered.map fun h _ => hkey h, ?_, ?_⟩
  · intro h hh
    rw [KeyTree.inorder_map] at hh
    obtain ⟨h₀, hh₀, rfl⟩ := List.mem_map.1 hh
    rw [hkey]
    split
    · rename_i heq
      refine ((ht.hBlocks h₀ hh₀).concat fun hQ => hnew hQ.1).congr fun b => ?_
      constructor
      · rintro (rfl | ⟨hb, hbf⟩)
        · exact ⟨.inl rfl, (hfile.symm.trans (congrArg _ heq.symm))⟩
        · exact ⟨.inr hb, hbf⟩
      · rintro ⟨rfl | hb, hbf⟩
        · exact .inl rfl
        · exact .inr ⟨hb, hbf⟩
    · rename_i hne
      refine (ht.hBlocks h₀ hh₀).congr fun b => ?_
      constructor
      · exact fun hb => ⟨.inr hb.1, hb.2⟩
      · rintro ⟨rfl | hb, hbf⟩
        · exact absurd (ht.hFile_inj hh₀ hhead (hbf.symm.trans hfile.symm)) hne
        · exact ⟨hb, hbf⟩
  · have hmap : ∀ h ∈ t.inorder, ∃ h' ∈ (t.map fun h =>
        if h = head then { h with hBlocks := h.hBlocks ++ [e] } else h).inorder,
        h'.hFile = h.hFile := by
      intro h hh
      rw [KeyTree.inorder_map]
      exact ⟨_, List.mem_map_of_mem hh, hkey h⟩
    rintro b (rfl | hb)
    · obtain ⟨h', hh', hf⟩ := hmap head hhead
      exact ⟨h', hh', hf.trans hfile⟩
    · obtain ⟨h, hh, hf⟩ := ht.headOf b hb
      obtain ⟨h', hh', hf'⟩ := hmap h hh
      exact ⟨h', hh', hf'.trans hf⟩

/-- The block is unlinked. Its head may have run empty. -/
theorem listDel (ht : Headed t Q) (e : FileBlock) :
    Headed (t.map fun h => { h with hBlocks := h.hBlocks.erase e }) fun b => Q b ∧ b ≠ e := by
  refine ⟨ht.ordered.map fun h _ => rfl, ?_, ?_⟩
  · intro h hh
    rw [KeyTree.inorder_map] at hh
    obtain ⟨h₀, hh₀, rfl⟩ := List.mem_map.1 hh
    exact ((ht.hBlocks h₀ hh₀).erase e).congr fun b => and_right_comm
  · intro b hb
    obtain ⟨h, hh, hfile⟩ := ht.headOf b hb.1
    rw [KeyTree.inorder_map]
    exact ⟨_, List.mem_map_of_mem hh, hfile⟩

variable (rb) in
/-- A head without blocks is freed. -/
theorem erase (ht : Headed t Q) (hhead : head ∈ t.inorder) (hempty : head.hBlocks = []) :
    Headed ((rb FileHashHead).erase t head) Q where
  ordered := ht.ordered.erase _ _
  hBlocks := by
    intro h hh
    rw [Balance.inorder_erase] at hh
    exact ht.hBlocks h (List.mem_of_mem_erase hh)
  headOf := by
    intro b hb
    obtain ⟨h, hh, hfile⟩ := ht.headOf b hb
    refine ⟨h, ?_, hfile⟩
    rw [Balance.inorder_erase]
    refine (List.mem_erase_of_ne ?_).2 hh
    rintro rfl
    have hmem := ((ht.hBlocks h hhead).mem_iff b).2 ⟨hb, hfile.symm⟩
    rw [hempty] at hmem
    cases hmem

end Headed

-- ---------------------------------------------------------------------------
-- One list
-- ---------------------------------------------------------------------------

namespace DupeBlocksList

/-- The list and its heads hold these blocks, and no head is empty. -/
structure Holds (d : DupeBlocksList) (Q : FileBlock → Prop) : Prop where
  dlList : Enumerates d.dlList Q
  numElem : d.dlNumElem = d.dlList.length
  headed : Headed d.dlFilesRoot Q
  nonempty : ∀ h ∈ d.dlFilesRoot.inorder, h.hBlocks ≠ []

variable {d d' : DupeBlocksList} {Q' : FileBlock → Prop} {head : FileHashHead} {file : Nat}

theorem Holds.congr (h : d.Holds Q) (hiff : ∀ b, Q b ↔ Q' b) : d.Holds Q' where
  dlList := h.dlList.congr hiff
  numElem := h.numElem
  headed :=
    ⟨h.headed.ordered,
      fun head hhead => (h.headed.hBlocks head hhead).congr fun b => and_congr_left' (hiff b),
      fun b hb => h.headed.headOf b ((hiff b).2 hb)⟩
  nonempty := h.nonempty

/-- A list that was just created. -/
theorem holds_new (addr : Nat) (digest : DigestBytes) (hnone : ∀ b, ¬ Q b) :
    Holds ⟨addr, digest, 0, [], 0, .nil⟩ Q where
  dlList := .nil hnone
  numElem := rfl
  headed := ⟨List.Pairwise.nil, (fun _ hh => nomatch hh), fun b hb => absurd hb (hnone b)⟩
  nonempty := fun _ hh => nomatch hh

/-! ## Insertion -/

variable (rb) in
/-- A block is added to the head of its file, and then to the list. -/
theorem Holds.addFileHashHead (h : d.Holds Q) (hnew : ¬ Q e) :
    ∃ t n, d.addFileHashHead rb e = some { d with dlFilesRoot := t, dlNumFiles := n } ∧
      Holds ⟨d.addr, d.dlHash, d.dlNumElem + 1, d.dlList ++ [e], n, t⟩ fun b => b = e ∨ Q b := by
  -- The block is added to a head, and every other head has blocks already.
  have hadd : ∀ (t : KeyTree FileHashHead) (head : FileHashHead), Headed t Q → head ∈ t.inorder →
      head.hFile = e.bFile → (∀ h ∈ t.inorder, h = head ∨ h.hBlocks ≠ []) →
      ∀ n, Holds ⟨d.addr, d.dlHash, d.dlNumElem + 1, d.dlList ++ [e], n,
        t.map fun h => if h = head then { h with hBlocks := h.hBlocks ++ [e] } else h⟩
        fun b => b = e ∨ Q b := by
    intro t head ht hhead hfile hothers n
    refine ⟨h.dlList.concat hnew, ?_, ht.listAddTail hhead hfile hnew, fun h hh => ?_⟩
    · rw [List.length_append, h.numElem]
      rfl
    rw [KeyTree.inorder_map] at hh
    obtain ⟨h₀, hh₀, rfl⟩ := List.mem_map.1 hh
    split
    · exact List.append_ne_nil_of_right_ne_nil _ (List.cons_ne_nil _ _)
    · rename_i hne
      exact (hothers h₀ hh₀).resolve_left hne
  rw [DupeBlocksList.addFileHashHead]
  cases hfind : d.findFileHashHead e.bFile with
  | some head =>
    obtain ⟨hhead, hfile⟩ := h.headed.ordered.find_eq_some_iff.1 hfind
    exact ⟨_, d.dlNumFiles, rfl,
      hadd _ head h.headed hhead hfile (fun x hx => .inr (h.nonempty x hx)) _⟩
  | none =>
    have hnone := h.headed.ordered.find_eq_none_iff.1 hfind
    obtain ⟨t, hlink, ht, hmem⟩ := h.headed.insert rb hnone
    refine ⟨_, d.dlNumFiles + 1, ?_, hadd _ ⟨e.bFile, []⟩ ht ((hmem _).2 (.inl rfl)) rfl
      (fun x hx => ((hmem x).1 hx).imp_right (h.nonempty x)) _⟩
    simp only [insertFileHashHead, hlink, Option.map_some]
    rfl

/-! ## Removal -/

/-- `list_del` does not change a list that does not have the block. -/
theorem Holds.listDel_eq (h : d.Holds Q) (he : ¬ Q e) : d.listDel e = d := by
  have hlist : d.dlList.erase e = d.dlList :=
    List.erase_of_not_mem fun hmem => he ((h.dlList.mem_iff e).1 hmem)
  have hroot : (d.dlFilesRoot.map fun h => { h with hBlocks := h.hBlocks.erase e }) =
      d.dlFilesRoot := by
    refine KeyTree.map_eq_self fun head hhead => ?_
    have hnot : e ∉ head.hBlocks := fun hmem =>
      he (((h.headed.hBlocks head hhead).mem_iff e).1 hmem).1
    rw [List.erase_of_not_mem hnot]
  rw [listDel, hlist, hroot]

variable (rb) in
/-- The list without a block of it: its head is freed when it had no other block. -/
theorem Holds.unlink (h : d.Holds Q) (he : Q e) :
    ∃ t, (d.listDel e).freeEmptyHead rb e.bFile =
        { d with dlList := d.dlList.erase e, dlFilesRoot := t } ∧
      Holds { d with dlList := d.dlList.erase e, dlFilesRoot := t, dlNumElem := d.dlNumElem - 1 }
        fun b => Q b ∧ b ≠ e := by
  have hlist := h.dlList.erase e
  have hnum : d.dlNumElem - 1 = (d.dlList.erase e).length := by
    rw [List.length_erase_of_mem ((h.dlList.mem_iff e).2 he), h.numElem]
  have ht : Headed (d.listDel e).dlFilesRoot _ := h.headed.listDel e
  -- The other heads did not lose a block.
  have hothers : ∀ x ∈ (d.listDel e).dlFilesRoot.inorder, x.hFile ≠ e.bFile → x.hBlocks ≠ [] := by
    intro x hx hfile
    simp only [listDel, KeyTree.inorder_map, List.mem_map] at hx
    obtain ⟨x₀, hx₀, rfl⟩ := hx
    have hnot : e ∉ x₀.hBlocks := fun hmem =>
      hfile (((h.headed.hBlocks x₀ hx₀).mem_iff e).1 hmem).2.symm
    rw [List.erase_of_not_mem hnot]
    exact h.nonempty x₀ hx₀
  rw [freeEmptyHead]
  cases hfind : (d.listDel e).findFileHashHead e.bFile with
  | none =>
    have hnone := ht.ordered.find_eq_none_iff.1 hfind
    exact ⟨_, rfl, hlist, hnum, ht, fun x hx => hothers x hx (hnone x hx)⟩
  | some head =>
    obtain ⟨hhead, hfile⟩ := ht.ordered.find_eq_some_iff.1 hfind
    have hsame : ∀ x ∈ (d.listDel e).dlFilesRoot.inorder, x ≠ head → x.hFile ≠ e.bFile :=
      fun x hx hne hxf => hne (ht.hFile_inj hx hhead (hxf.trans hfile.symm))
    dsimp only
    split
    · rename_i hempty
      refine ⟨_, rfl, hlist, hnum, ht.erase rb hhead hempty, fun x hx => ?_⟩
      rw [Balance.inorder_erase, ht.nodup.mem_erase_iff] at hx
      exact hothers x hx.2 (hsame x hx.2 hx.1)
    · rename_i hne
      refine ⟨_, rfl, hlist, hnum, ht, fun x hx => ?_⟩
      by_cases hx' : x = head
      · rw [hx']
        exact hne
      · exact hothers x hx (hsame x hx hx')

end DupeBlocksList

-- ---------------------------------------------------------------------------
-- The block trees
-- ---------------------------------------------------------------------------

/-- The block tree of each file holds the blocks of the file, by their offsets. -/
def InBlockTrees (blockTree : Nat → KeyTree FileBlock) (Q : FileBlock → Prop) : Prop :=
  ∀ file, (blockTree file).Ordered compare FileBlock.bLoff ∧
    Enumerates (blockTree file).inorder fun b => Q b ∧ b.bFile = file

namespace InBlockTrees

variable {blockTree : Nat → KeyTree FileBlock}

theorem congr {Q' : FileBlock → Prop} (h : InBlockTrees blockTree Q) (hiff : ∀ b, Q b ↔ Q' b) :
    InBlockTrees blockTree Q' :=
  fun file => ⟨(h file).1, (h file).2.congr fun b => and_congr_left' (hiff b)⟩

variable (rb) in
/-- A block at a new offset of its file is linked without an abort. -/
theorem insert (h : InBlockTrees blockTree Q)
    (hnew : ∀ b, Q b → b.bFile = e.bFile → b.bLoff ≠ e.bLoff) :
    ∃ t, insertBlockIntoFilerec rb (blockTree e.bFile) e = some t ∧
      InBlockTrees (Function.update blockTree e.bFile t) fun b => b = e ∨ Q b := by
  obtain ⟨hordered, hblocks⟩ := h e.bFile
  have hno : ∀ b ∈ (blockTree e.bFile).inorder, b.bLoff ≠ e.bLoff := by
    intro b hb
    obtain ⟨hQ, hfile⟩ := (hblocks.mem_iff b).1 hb
    exact hnew b hQ hfile
  obtain ⟨t, hlink, hordered', hperm⟩ := hordered.exists_link (rb FileBlock) rfl hno
  refine ⟨(rb FileBlock).insertColor t, ?_, fun file => ?_⟩
  · rw [insertBlockIntoFilerec, hlink]
    rfl
  by_cases hfile : file = e.bFile
  · subst hfile
    rw [Function.update_self]
    refine ⟨hordered', ((hblocks.cons fun hQ => ?_).perm hperm).congr fun b => ?_⟩
    · exact hnew e hQ.1 rfl rfl
    · constructor
      · rintro (rfl | hb)
        · exact ⟨.inl rfl, rfl⟩
        · exact ⟨.inr hb.1, hb.2⟩
      · rintro ⟨rfl | hb, hbf⟩
        · exact .inl rfl
        · exact .inr ⟨hb, hbf⟩
  · rw [Function.update_of_ne hfile]
    refine ⟨(h file).1, (h file).2.congr fun b => ?_⟩
    constructor
    · exact fun hb => ⟨.inr hb.1, hb.2⟩
    · rintro ⟨rfl | hb, hbf⟩
      · exact absurd hbf.symm hfile
      · exact ⟨hb, hbf⟩

variable (rb) in
theorem erase (h : InBlockTrees blockTree Q) (e : FileBlock) :
    InBlockTrees (Function.update blockTree e.bFile ((rb FileBlock).erase (blockTree e.bFile) e))
      fun b => Q b ∧ b ≠ e := by
  intro file
  by_cases hfile : file = e.bFile
  · subst hfile
    rw [Function.update_self, Balance.inorder_erase]
    exact ⟨(h e.bFile).1.erase _ _, ((h e.bFile).2.erase e).congr fun b => and_right_comm⟩
  · rw [Function.update_of_ne hfile]
    refine ⟨(h file).1, (h file).2.congr fun b => ?_⟩
    constructor
    · rintro ⟨hb, rfl⟩
      exact ⟨⟨hb, fun heq => hfile (congrArg _ heq)⟩, rfl⟩
    · exact fun hb => ⟨hb.1.1, hb.2⟩

end InBlockTrees

end Duperemove.HashTree
