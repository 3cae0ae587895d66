-- SUMMARY: A scan under any behaviour of the kernel, up to the commit that no constraint can fail.
import Duperemove.FileScan.AnyReads
import Duperemove.FileScan.Exact
import Duperemove.ScanRun.Interrupt

/-!
# Robust scans

`scanLoop_any` says how the loop ends when nothing is known about the answers of
`pread`. Its rows come in order, so they have distinct keys, and the transaction
at the end of `csum_whole_file` inserts all of them into tables that hold no rows
of the file yet.
-/

namespace Duperemove

open Transaction (Answer Conn)

/-! ## Rows with distinct keys -/

section Insert

variable {fileid : Nat} {t : Tables}

/-- The file has its row, and the blocks to come are new. -/
structure ReadyForBlocks (fileid : Nat) (t : Tables) (blocks : List (BlockCsum DigestBytes)) :
    Prop where
  file : ∃ f ∈ t.files, f.id = fileid
  new : ∀ b ∈ t.blocks, b.fileid = fileid → ∀ b' ∈ blocks, b.loff < b'.loff
  sorted : blocks.Pairwise fun a b => a.loff < b.loff
  noExtents : ∀ e ∈ t.extents, e.fileid ≠ fileid

/-- A row in order leaves the rows of the file in front of the entries to come. -/
theorem new_append {Row Entry : Type} {rows : List Row} {row : Row} {entry : Entry}
    {entries : List Entry} {mine : Row → Prop} {offRow : Row → Nat} {offEntry : Entry → Nat}
    (hnew : ∀ a ∈ rows, mine a → ∀ b ∈ entry :: entries, offRow a < offEntry b)
    (hrow : offRow row = offEntry entry) (hfirst : ∀ b ∈ entries, offEntry entry < offEntry b) :
    ∀ a ∈ rows ++ [row], mine a → ∀ b ∈ entries, offRow a < offEntry b := by
  intro a ha hmine b hb
  rcases List.mem_append.1 ha with ha | ha
  · exact hnew a ha hmine b (List.mem_cons_of_mem _ hb)
  · rw [List.mem_singleton.1 ha, hrow]
    exact hfirst b hb

/-- Blocks in order are inserted without a conflict. -/
theorem blockStatements_succeed {blocks : List (BlockCsum DigestBytes)}
    (hready : ReadyForBlocks fileid t blocks) :
    ∃ t', (blockStatements fileid blocks).foldlM (fun t stmt => stmt t) t = some t' ∧
      ReadyForBlocks fileid t' [] := by
  refine Transaction.foldlM_insert (ReadyForBlocks fileid) ?_ blocks t hready
  intro t b blocks h
  obtain ⟨hfirst, hrest⟩ := List.pairwise_cons.1 h.sorted
  have hnew : ¬ ∃ b' ∈ t.blocks, (b'.fileid, b'.loff) = (fileid, b.loff) := by
    rintro ⟨b', hb', hkey⟩
    obtain ⟨hid, hloff⟩ := Prod.mk.inj hkey
    exact absurd hloff (Nat.ne_of_lt (h.new b' hb' hid b List.mem_cons_self))
  exact ⟨_, if_pos ⟨h.file, hnew⟩, h.file, new_append h.new rfl hfirst, hrest, h.noExtents⟩

/-- The file has its row, and the extents to come are new. -/
structure ReadyForExtents (fileid : Nat) (t : Tables) (extents : List (ExtentCsum DigestBytes)) :
    Prop where
  file : ∃ f ∈ t.files, f.id = fileid
  new : ∀ e ∈ t.extents, e.fileid = fileid → ∀ e' ∈ extents, e.loff < e'.loff
  sorted : extents.Pairwise fun a b => a.loff < b.loff

/-- Extents in order are inserted without a conflict. -/
theorem extentStatements_succeed {extents : List (ExtentCsum DigestBytes)}
    (hready : ReadyForExtents fileid t (extents.filter fun e => decide (e.len ≠ 0))) :
    ∃ t', (extentStatements fileid extents).foldlM (fun t stmt => stmt t) t = some t' := by
  suffices hready' : ∃ t', (extentStatements fileid extents).foldlM (fun t stmt => stmt t) t =
      some t' ∧ ReadyForExtents fileid t' [] by
    obtain ⟨t', hfold, -⟩ := hready'
    exact ⟨t', hfold⟩
  refine Transaction.foldlM_insert (ReadyForExtents fileid) ?_ _ t hready
  intro t e extents h
  obtain ⟨hfirst, hrest⟩ := List.pairwise_cons.1 h.sorted
  have hnew : ¬ ∃ e' ∈ t.extents, (e'.fileid, e'.loff, e'.len) = (fileid, e.loff, e.len) := by
    rintro ⟨e', he', hkey⟩
    obtain ⟨hid, hrow⟩ := Prod.mk.inj hkey
    exact absurd (Prod.mk.inj hrow).1 (Nat.ne_of_lt (h.new e' he' hid e List.mem_cons_self))
  exact ⟨_, if_pos ⟨h.file, hnew⟩, h.file, new_append h.new rfl hfirst, hrest⟩

/-- The transaction of a worker succeeds on a file without hashes, when SQLite does and
    the rows are in order. -/
theorem csumCommit_succeeds {r : ScanCommit DigestBytes} (hhalf : t.NoHalfStored)
    (hfile : ∃ f ∈ t.files, f.id = fileid ∧ f.digest = none)
    (hblocks : r.blocks.Pairwise fun a b => a.loff < b.loff)
    (hextents : (r.extents.filter fun e => decide (e.len ≠ 0)).Pairwise fun a b =>
      a.loff < b.loff) :
    (csumCommit (fun _ => .done) fileid r ⟨t, none, 0⟩).1 = true := by
  obtain ⟨f, hf, rfl, hnull⟩ := hfile
  have hnoBlocks := hhalf.blocks f hf hnull
  have hready : ReadyForBlocks f.id t r.blocks :=
    ⟨⟨f, hf, rfl⟩, fun b hb hid => absurd hid (hnoBlocks b hb), hblocks, hhalf.extents f hf hnull⟩
  obtain ⟨t₁, hfold₁, hready₁⟩ := blockStatements_succeed hready
  have hready' : ReadyForExtents f.id t₁ (r.extents.filter fun e => decide (e.len ≠ 0)) :=
    ⟨hready₁.file, fun e he hid => absurd hid (hready₁.noExtents e he), hextents⟩
  obtain ⟨t₂, hfold₂⟩ := extentStatements_succeed hready'
  let c₀ : Conn Tables := ⟨t, some t, 1⟩
  have hbegin : Transaction.begin (fun _ => .done) ⟨t, none, 0⟩ = (true, c₀) := rfl
  obtain ⟨hok₁, hview₁⟩ := Transaction.execAll_eq_true (c := c₀) rfl hfold₁
  rw [csumCommit, hbegin]
  simp only
  generalize Transaction.execAll (fun _ => .done) (blockStatements f.id r.blocks) c₀ = b₁ at *
  obtain ⟨ok₁, c₁⟩ := b₁
  subst hok₁
  obtain ⟨hok₂, hview₂⟩ := Transaction.execAll_eq_true hview₁ hfold₂
  simp only
  generalize Transaction.execAll (fun _ => .done) (extentStatements f.id r.extents) c₁ = b₂ at *
  obtain ⟨ok₂, c₂⟩ := b₂
  subst hok₂
  simp only at hview₂
  simp only [Transaction.call, Transaction.exec, Transaction.commit, Conn.write, Conn.count, hview₂]

end Insert

/-! ## The scan -/

/-- Whatever the calls of `pread` return, the loop of `csum_whole_file` ends, no
    assertion fails and no call asks for nothing. When the commit is reached, the file
    checksum got the byte of every offset of the file once and in order, the rows are
    in order, and no constraint fails the commit. -/
theorem csumWholeFile_any_reads (job : ScanJob) (h : Xxh DigestBytes) (thread : ThreadBuffer) :
    ∃ exit s, scanLoop fillBuffer job h thread = some (exit, s) ∧
      exit ≠ .assertFailed ∧ exit ≠ .outOfFuel ∧
      (∀ s' count start, LoopHead job h thread s' → preadCall job s' = some (count, start) →
        0 < count) ∧
      ∀ commit, commitOf job h exit s = some commit →
        commit.digest = finishRunningChecksum h s.fileCsum ∧
        s.fileCsum.bytes.length = job.filesize ∧
        (∀ off b, s.fileCsum.bytes[off]? = some b → Given job h thread off b) ∧
        (s.hashes.blocks.Pairwise fun a b => a.loff < b.loff) ∧
        ((s.hashes.extents.filter fun e => decide (e.len ≠ 0)).Pairwise fun a b =>
          a.loff < b.loff) ∧
        ∀ fileid (t : Tables), t.NoHalfStored →
          (∃ f ∈ t.files, f.id = fileid ∧ f.digest = none) →
          (csumCommit (fun _ => .done) fileid commit ⟨t, none, 0⟩).1 = true := by
  obtain ⟨⟨exit, s⟩, hrun, hpost⟩ := scanLoop_any job h thread
  refine ⟨exit, s, hrun, hpost.assertions.1, hpost.assertions.2,
    fun s' count start hhead hcall => hhead.preadCall_pos hcall, ?_⟩
  intro commit hcommit
  obtain ⟨hoff, hhanded, hdigest, hblocks, hextents⟩ := hpost.commitOf hcommit
  refine ⟨hdigest, hhanded.length.trans hoff, hhanded.bytes, hhanded.blocks.sorted,
    hhanded.extents.sorted, fun fileid t hhalf hfile => ?_⟩
  refine csumCommit_succeeds hhalf hfile ?_ ?_
  · rcases hblocks with hnone | hall
    · rw [hnone]
      exact List.Pairwise.nil
    · rw [hall]
      exact hhanded.blocks.sorted
  · rw [hextents]
    exact hhanded.extents.sorted

/-- A hash with one digest. -/
def Xxh.zero : Xxh DigestBytes where
  xxh128 := fun _ => zeroDigest
  digest := fun _ => zeroDigest
  digest_eq := fun _ => rfl

/-- A hashfile with one file that was listed and not scanned. -/
def listedTables : Tables := ⟨[⟨1, "a", 1, 1, 5000, 1, 1, none, none⟩], [], []⟩

/-- The sample file is committed. -/
theorem csumWholeFile_any_reads_sampleJob :
    ∃ commit, csumWholeFile sampleJob .zero .fresh = some commit ∧
      (csumCommit (fun _ => .done) 1 commit ⟨listedTables, none, 0⟩).1 = true := by
  have hskip : ∀ e ∈ sampleJob.fiemap.fmExtents, e.isSkipped = false := by decide
  have hext : sampleJob.fiemap.getExtent (sampleJob.filesize - 1) ≠ none := by
    rw [sampleJob_filesize]
    decide
  obtain ⟨s, hrun, hoff, -⟩ := @scanLoop_plain _ sampleJob (List.replicate 5000 7) .zero _ rfl
    (readsFile_ofContent (by decide)) (fillsWith_plain (.inr hskip)) (.inr hext) .fresh
  obtain ⟨exit, s', hrun', -, -, -, hcommitted⟩ :=
    csumWholeFile_any_reads sampleJob .zero .fresh
  rw [hrun] at hrun'
  cases hrun'
  have hcommit : (commitOf sampleJob .zero .finished s).isSome := by
    simp [commitOf, hoff]
  obtain ⟨commit, hcommit⟩ := Option.isSome_iff_exists.1 hcommit
  obtain ⟨-, -, -, -, -, hstored⟩ := hcommitted commit hcommit
  refine ⟨commit, ?_, hstored 1 listedTables ⟨by decide, by decide⟩ ⟨_, List.mem_singleton.2 rfl,
    rfl, rfl⟩⟩
  rw [csumWholeFile, csumWholeFileWith, hrun]
  exact hcommit

end Duperemove
