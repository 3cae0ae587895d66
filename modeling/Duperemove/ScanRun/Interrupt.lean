-- SUMMARY: What holds of the hashfile wherever a scan is interrupted: its constraints, and no half-stored hashes.
import Duperemove.ScanRun.Model

/-!
# Interrupted scans

The invariant is about everything a connection can see: the tables satisfy their
constraints, and a file without a digest has no hashes. During a run it also
says where the files without a digest come from: the lister came across them
since the start. A worker breaks the invariant inside its transaction and has
restored it when it commits.
-/

namespace Duperemove

open Transaction (Answer Conn)

-- ---------------------------------------------------------------------------
-- The invariant
-- ---------------------------------------------------------------------------

/-- What holds of the tables at every point of a run in which the given files
    were visited. -/
structure Tables.Sound (visited : List (Nat × Nat)) (t : Tables) : Prop where
  constraints : t.Constraints
  noHalf : t.NoHalfStored
  unscanned : ∀ f ∈ t.files, f.digest = none → (f.ino, f.subvol) ∈ visited

namespace Tables.Sound

variable {t : Tables} {visited : List (Nat × Nat)}

theorem mono {visited' : List (Nat × Nat)} (h : t.Sound visited) (hsub : visited ⊆ visited') :
    t.Sound visited' :=
  ⟨h.constraints, h.noHalf, fun f hf hnull => hsub (h.unscanned f hf hnull)⟩

theorem writeFile (h : t.Sound visited) {info : FileInfo}
    (hvisited : (info.ino, info.subvol) ∈ visited) : (t.writeFile info).Sound visited where
  constraints := h.constraints.writeFile info
  noHalf := h.noHalf.writeFile h.constraints info
  unscanned := by
    intro f hf hnull
    rcases mem_writeFile_files.1 hf with ⟨hf, -⟩ | rfl
    · exact h.unscanned f hf hnull
    · exact hvisited

theorem renameFile (h : t.Sound visited) (path : String) (id : Nat) :
    (t.renameFile path id).Sound visited where
  constraints := h.constraints.renameFile path id
  noHalf := h.noHalf.renameFile path id
  unscanned := by
    intro f hf hnull
    obtain ⟨g, hg, rfl | ⟨-, rfl⟩⟩ := exists_of_mem_renameFile hf
    · exact h.unscanned f hg hnull
    · exact h.unscanned g hg hnull

theorem removeBlockHashes (h : t.Sound visited) (fileid : Nat) :
    (t.removeBlockHashes fileid).Sound visited :=
  ⟨h.constraints.removeBlockHashes fileid, h.noHalf.removeBlockHashes fileid, h.unscanned⟩

theorem removeExtentHashes (h : t.Sound visited) (fileid : Nat) :
    (t.removeExtentHashes fileid).Sound visited :=
  ⟨h.constraints.removeExtentHashes fileid, h.noHalf.removeExtentHashes fileid, h.unscanned⟩

/-- Pruning leaves no file without a digest, whoever left them. -/
theorem deleteUnscannedFiles (hc : t.Constraints) : t.deleteUnscannedFiles.Sound [] := by
  have hsome : ∀ f ∈ t.deleteUnscannedFiles.files, f.digest ≠ none := by
    intro f hf hnull
    have hsome := digest_of_mem_deleteUnscannedFiles hf
    rw [hnull] at hsome
    cases hsome
  exact ⟨hc.deleteFiles _, ⟨fun f hf hnull => absurd hnull (hsome f hf),
    fun f hf hnull => absurd hnull (hsome f hf)⟩, fun f hf hnull => absurd hnull (hsome f hf)⟩

end Tables.Sound

-- ---------------------------------------------------------------------------
-- The transaction of the lister
-- ---------------------------------------------------------------------------

section Lister

variable {P : Tables → Prop} {v : ListedFile} {c : Conn Tables}

theorem renameIfMoved_all (h : c.All P) {id : Nat} (hrename : ∀ t, P t → P (t.renameFile v.path id))
    (faults : Nat → Answer) (renamed : Bool) : (renameIfMoved faults v id renamed c).2.All P := by
  unfold renameIfMoved
  split
  · refine Transaction.all_exec ?_ h
    rintro t _ ht ⟨⟩
    exact hrename t ht
  · exact h

theorem removeOldHashes_all (h : c.All P) {id : Nat}
    (hblocks : ∀ t, P t → P (t.removeBlockHashes id))
    (hextents : ∀ t, P t → P (t.removeExtentHashes id)) (faults : Nat → Answer) :
    (removeOldHashes faults v id c).All P := by
  unfold removeOldHashes
  split
  · refine Transaction.all_exec ?_ (Transaction.all_exec ?_ h)
    · rintro t _ ht ⟨⟩
      exact hextents t ht
    · rintro t _ ht ⟨⟩
      exact hblocks t ht
  · exact h

theorem storeFileInfo_all (h : c.All P) {seq : Nat} (hwrite : ∀ t, P t → P (t.writeFile (v.info seq)))
    (faults : Nat → Answer) : (storeFileInfo faults v seq c).2.All P := by
  have hexec : (Transaction.exec faults (fun t => some (t.writeFile (v.info seq))) c).2.All P := by
    refine Transaction.all_exec ?_ h
    rintro t _ ht ⟨⟩
    exact hwrite t ht
  unfold storeFileInfo
  split
  · rename_i heq
    rw [heq] at hexec
    exact Transaction.all_rollback hexec
  · rename_i heq
    rw [heq] at hexec
    exact Transaction.all_commit hexec

/-- What the statements of the lister preserve one by one, its transaction
    preserves, whichever of them fail. -/
theorem scanFileStore_all (h : c.All P) {id seq : Nat}
    (hrename : ∀ t, P t → P (t.renameFile v.path id))
    (hblocks : ∀ t, P t → P (t.removeBlockHashes id))
    (hextents : ∀ t, P t → P (t.removeExtentHashes id))
    (hwrite : ∀ t, P t → P (t.writeFile (v.info seq))) (faults : Nat → Answer) (renamed : Bool) :
    (scanFileStore faults v id renamed seq c).2.All P := by
  have hmoved := renameIfMoved_all (Transaction.all_begin faults h) hrename faults
    renamed
  unfold scanFileStore
  split
  · rename_i heq
    rw [heq] at hmoved
    exact hmoved
  · rename_i heq
    rw [heq] at hmoved
    exact storeFileInfo_all (removeOldHashes_all hmoved hblocks hextents faults) hwrite faults

theorem scanFileStore_sound {visited : List (Nat × Nat)} (h : c.All (Tables.Sound visited))
    (hvisited : (v.ino, v.subvol) ∈ visited) (faults : Nat → Answer) (id : Nat) (renamed : Bool)
    (seq : Nat) : (scanFileStore faults v id renamed seq c).2.All (Tables.Sound visited) :=
  scanFileStore_all h (fun _ ht => ht.renameFile v.path id) (fun _ ht => ht.removeBlockHashes id)
    (fun _ ht => ht.removeExtentHashes id) (fun _ ht => ht.writeFile hvisited) faults renamed

/-- A digest that the lister sees belongs to the same file in the hashfile. -/
def DigestsFrom (d t : Tables) : Prop :=
  ∀ f ∈ t.files, f.digest.isSome = true → ∃ g ∈ d.files, g.ino = f.ino ∧ g.subvol = f.subvol ∧
    g.size = f.size ∧ g.mtime = f.mtime ∧ g.digest = f.digest

theorem scanFileStore_rel (h : c.Rel DigestsFrom) (faults : Nat → Answer) (id : Nat)
    (renamed : Bool) (seq : Nat) :
    (scanFileStore faults v id renamed seq c).2.Rel DigestsFrom := by
  have hbegin := Transaction.rel_begin faults
    (fun t f hf _ => ⟨f, hf, rfl, rfl, rfl, rfl, rfl⟩) h
  have hrename : (renameIfMoved faults v id renamed (Transaction.begin faults c).2).2.Rel
      DigestsFrom := by
    unfold renameIfMoved
    split
    · refine Transaction.rel_exec ?_ hbegin
      rintro d t _ ht ⟨⟩ f hf hsome
      obtain ⟨g, hg, rfl | ⟨-, rfl⟩⟩ := Tables.exists_of_mem_renameFile hf
      · exact ht f hg hsome
      · exact ht g hg hsome
    · exact hbegin
  unfold scanFileStore
  split
  · rename_i heq
    rw [heq] at hrename
    exact hrename
  rename_i c₁ heq
  rw [heq] at hrename
  have hremove : (removeOldHashes faults v id c₁).Rel DigestsFrom := by
    unfold removeOldHashes
    split
    · refine Transaction.rel_exec ?_ (Transaction.rel_exec ?_ hrename)
      · rintro d t _ ht ⟨⟩
        exact ht
      · rintro d t _ ht ⟨⟩
        exact ht
    · exact hrename
  have hexec : (Transaction.exec faults (fun t => some (t.writeFile (v.info seq)))
      (removeOldHashes faults v id c₁)).2.Rel DigestsFrom := by
    refine Transaction.rel_exec ?_ hremove
    rintro d t _ ht ⟨⟩ f hf hsome
    rcases Tables.mem_writeFile_files.1 hf with ⟨hf, -⟩ | rfl
    · exact ht f hf hsome
    · cases hsome
  unfold storeFileInfo
  split
  · rename_i heq
    rw [heq] at hexec
    exact Transaction.rel_rollback hexec
  · rename_i heq
    rw [heq] at hexec
    exact Transaction.rel_commit hexec

end Lister

-- ---------------------------------------------------------------------------
-- The transaction of a worker
-- ---------------------------------------------------------------------------

/-- What a worker has done in front of its last statement: it added hashes for
    its file, and the file exists if it added any. -/
structure AddedHashes (fileid : Nat) (t t' : Tables) : Prop where
  files : t'.files = t.files
  constraints : t.Constraints → t'.Constraints
  extents : ∀ e ∈ t'.extents, e ∈ t.extents ∨ e.fileid = fileid
  blocks : ∀ b ∈ t'.blocks, b ∈ t.blocks ∨ b.fileid = fileid

namespace AddedHashes

variable {fileid : Nat} {t t' t'' : Tables}

theorem refl (fileid : Nat) (t : Tables) : AddedHashes fileid t t :=
  ⟨rfl, id, fun _ => .inl, fun _ => .inl⟩

theorem trans (h : AddedHashes fileid t t') (h' : AddedHashes fileid t' t'') :
    AddedHashes fileid t t'' where
  files := h'.files.trans h.files
  constraints := h'.constraints ∘ h.constraints
  extents := fun e he => (h'.extents e he).elim (h.extents e) .inr
  blocks := fun b hb => (h'.blocks b hb).elim (h.blocks b) .inr

theorem insertBlock {digest : DigestBytes} {loff : Nat}
    (hins : t.insertBlock ⟨digest, fileid, loff⟩ = some t') : AddedHashes fileid t t' := by
  have hcons : t.Constraints → t'.Constraints := fun h => h.insertBlock hins
  obtain ⟨rfl, -, -⟩ := Tables.insertBlock_eq_some hins
  refine ⟨rfl, hcons, fun _ => .inl, fun b hb => ?_⟩
  rcases List.mem_append.1 hb with hb | hb
  · exact .inl hb
  · exact .inr (by rw [List.mem_singleton.1 hb])

theorem insertExtent {digest : DigestBytes} {loff poff len : Nat}
    (hins : t.insertExtent ⟨digest, fileid, loff, poff, len⟩ = some t') :
    AddedHashes fileid t t' := by
  have hcons : t.Constraints → t'.Constraints := fun h => h.insertExtent hins
  obtain ⟨rfl, -, -⟩ := Tables.insertExtent_eq_some hins
  refine ⟨rfl, hcons, fun e he => ?_, fun _ => .inl⟩
  rcases List.mem_append.1 he with he | he
  · exact .inl he
  · exact .inr (by rw [List.mem_singleton.1 he])

/-- Any number of such statements. -/
theorem foldlM {stmts : List (Tables → Option Tables)}
    (hstmts : ∀ stmt ∈ stmts, ∀ t t', stmt t = some t' → AddedHashes fileid t t')
    (hfold : stmts.foldlM (fun t stmt => stmt t) t = some t') : AddedHashes fileid t t' := by
  refine Steps.run_keeps (AddedHashes fileid t) ?_ (refl fileid t) hfold
  intro stmt hmem t₁ t₂ hadded hstmt
  exact hadded.trans (hstmts stmt hmem t₁ t₂ hstmt)

/-- With the digest in place the invariant holds again. -/
theorem sound {visited : List (Nat × Nat)} (h : AddedHashes fileid t t') (hs : t.Sound visited)
    (digest : DigestBytes) (flags : Nat) :
    (t'.updateScannedFile digest flags fileid).Sound visited := by
  have hold : ∀ f ∈ (t'.updateScannedFile digest flags fileid).files, f.digest = none →
      f ∈ t.files ∧ f.id ≠ fileid := by
    intro f hf hnull
    obtain ⟨g, hg, ⟨hid, rfl⟩ | ⟨-, rfl⟩⟩ := Tables.exists_of_mem_updateScannedFile hf
    · rw [h.files] at hg
      exact ⟨hg, hid⟩
    · cases hnull
  refine ⟨(h.constraints hs.constraints).updateScannedFile digest flags fileid, ⟨?_, ?_⟩, ?_⟩
  · intro f hf hnull e he
    obtain ⟨hf, hid⟩ := hold f hf hnull
    rcases h.extents e he with he | he
    · exact hs.noHalf.extents f hf hnull e he
    · exact fun heq => hid (heq.symm.trans he)
  · intro f hf hnull b hb
    obtain ⟨hf, hid⟩ := hold f hf hnull
    rcases h.blocks b hb with hb | hb
    · exact hs.noHalf.blocks f hf hnull b hb
    · exact fun heq => hid (heq.symm.trans hb)
  · intro f hf hnull
    exact hs.unscanned f (hold f hf hnull).1 hnull

end AddedHashes

theorem addedHashes_blockStatements {fileid : Nat} {blocks : List (BlockCsum DigestBytes)}
    {t t' : Tables} (h : (blockStatements fileid blocks).foldlM (fun t stmt => stmt t) t = some t') :
    AddedHashes fileid t t' := by
  refine AddedHashes.foldlM (fun stmt hstmt t t' ht => ?_) h
  obtain ⟨b, -, rfl⟩ := List.mem_map.1 hstmt
  exact AddedHashes.insertBlock ht

theorem addedHashes_extentStatements {fileid : Nat} {extents : List (ExtentCsum DigestBytes)}
    {t t' : Tables}
    (h : (extentStatements fileid extents).foldlM (fun t stmt => stmt t) t = some t') :
    AddedHashes fileid t t' := by
  refine AddedHashes.foldlM (fun stmt hstmt t t' ht => ?_) h
  obtain ⟨e, -, rfl⟩ := List.mem_map.1 hstmt
  exact AddedHashes.insertExtent ht

/-- The transaction of a worker is committed as a whole or has no effect at
    all. -/
theorem csumCommit_cases (faults : Nat → Answer) (fileid : Nat) (r : ScanCommit DigestBytes)
    (c : Conn Tables) :
    ((csumCommit faults fileid r c).1 = false ∧
      (csumCommit faults fileid r c).2.durable = c.durable) ∨
    ((csumCommit faults fileid r c).1 = true ∧ ∃ t₁ t₂,
      (blockStatements fileid r.blocks).foldlM (fun t stmt => stmt t) c.durable = some t₁ ∧
      (extentStatements fileid r.extents).foldlM (fun t stmt => stmt t) t₁ = some t₂ ∧
      (csumCommit faults fileid r c).2.durable = t₂.updateScannedFile r.digest r.flags fileid) := by
  unfold csumCommit
  rcases Transaction.begin_cases faults c with ⟨hok, hd₀⟩ | ⟨hok, hd₀, hview₀⟩ <;>
    generalize Transaction.begin faults c = b at * <;> obtain ⟨ok, c₀⟩ := b <;>
    simp only at hok hd₀ <;> subst hok
  · exact .inl ⟨rfl, hd₀⟩
  obtain ⟨hd₁, hdone₁⟩ := Transaction.execAll_cases faults (blockStatements fileid r.blocks) hview₀
  simp only
  generalize Transaction.execAll faults (blockStatements fileid r.blocks) c₀ = b at *
  obtain ⟨ok, c₁⟩ := b
  simp only at hd₁ hdone₁
  cases ok with
  | false => exact .inl ⟨rfl, (Transaction.rollback_durable faults c₁).trans (hd₁.trans hd₀)⟩
  | true =>
    obtain ⟨t₁, hfold₁, hview₁⟩ := hdone₁ rfl
    obtain ⟨hd₂, hdone₂⟩ :=
      Transaction.execAll_cases faults (extentStatements fileid r.extents) hview₁
    simp only
    generalize Transaction.execAll faults (extentStatements fileid r.extents) c₁ = b at *
    obtain ⟨ok, c₂⟩ := b
    simp only at hd₂ hdone₂
    have hd₂ : c₂.durable = c.durable := hd₂.trans (hd₁.trans hd₀)
    cases ok with
    | false => exact .inl ⟨rfl, (Transaction.rollback_durable faults c₂).trans hd₂⟩
    | true =>
      obtain ⟨t₂, hfold₂, hview₂⟩ := hdone₂ rfl
      simp only
      rcases Transaction.exec_cases faults
          (fun t => some (t.updateScannedFile r.digest r.flags fileid)) hview₂ with
        ⟨view, -, heq⟩ | ⟨t₃, ht₃, heq⟩
      · rw [heq]
        exact .inl ⟨rfl, (Transaction.rollback_durable faults _).trans hd₂⟩
      · rw [heq]
        cases ht₃
        rcases Transaction.commit_cases faults (c := { c₂.count with
            view := some (t₂.updateScannedFile r.digest r.flags fileid) }) rfl with
          ⟨hok, hd₃⟩ | ⟨hok, hd₃⟩
        · exact .inl ⟨hok, hd₃.trans hd₂⟩
        · exact .inr ⟨hok, t₁, t₂, hfold₁, hfold₂, hd₃⟩

/-- A worker changes nothing, or it adds hashes for its file and sets the digest. -/
theorem workerCommit_cases (c : Conn Tables) (faults : Nat → Answer) (fileid : Nat)
    (r : ScanCommit DigestBytes) :
    (workerCommit c faults fileid r).view = c.view ∧
    ((workerCommit c faults fileid r).durable = c.durable ∨
      ∃ t, AddedHashes fileid c.durable t ∧
        (workerCommit c faults fileid r).durable = t.updateScannedFile r.digest r.flags fileid) := by
  unfold workerCommit
  split
  · exact ⟨rfl, .inl rfl⟩
  · refine ⟨rfl, ?_⟩
    rcases csumCommit_cases faults fileid r ⟨c.durable, none, 0⟩ with
      ⟨-, hd⟩ | ⟨-, t₁, t₂, hfold₁, hfold₂, hd⟩
    · exact .inl hd
    · exact .inr ⟨t₂, (addedHashes_blockStatements hfold₁).trans
        (addedHashes_extentStatements hfold₂), hd⟩

/-- What adding hashes and setting the digest preserve together, the transaction
    of a worker preserves. -/
theorem workerCommit_all {P : Tables → Prop} {c : Conn Tables} (h : c.All P) {fileid : Nat}
    {r : ScanCommit DigestBytes}
    (hadded : ∀ t t', AddedHashes fileid t t' → P t →
      P (t'.updateScannedFile r.digest r.flags fileid)) (faults : Nat → Answer) :
    (workerCommit c faults fileid r).All P := by
  obtain ⟨hview, hd | ⟨t, ht, hd⟩⟩ := workerCommit_cases c faults fileid r
  · exact ⟨hd ▸ h.durable, hview ▸ h.view⟩
  · refine ⟨?_, hview ▸ h.view⟩
    rw [hd]
    exact hadded _ _ ht h.durable

theorem workerCommit_rel {c : Conn Tables} (h : c.Rel DigestsFrom) (faults : Nat → Answer)
    (fileid : Nat) (r : ScanCommit DigestBytes) :
    (workerCommit c faults fileid r).Rel DigestsFrom := by
  unfold workerCommit
  split
  · exact h
  · rename_i hview
    intro t ht
    rw [hview] at ht
    cases ht

-- ---------------------------------------------------------------------------
-- Runs
-- ---------------------------------------------------------------------------

namespace ScanSys

structure Inv (s : ScanSys) : Prop where
  running_sound : s.running = true → s.conn.All (Tables.Sound s.visited)
  stopped_sound : s.running = false → s.tables.Constraints ∧ s.tables.NoHalfStored
  described : ∀ v id renamed seq, s.lister = .described v id renamed seq →
    s.running = true ∧ (v.ino, v.subvol) ∈ s.visited
  queue : s.queue ≠ [] → s.running = true
  digests : s.conn.Rel DigestsFrom

variable {cfg : ScanConfig} {s s' : ScanSys}

theorem Inv.tables_sound (h : s.Inv) : s.tables.Constraints ∧ s.tables.NoHalfStored := by
  cases hr : s.running with
  | true =>
    have hs := (h.running_sound hr).durable
    exact ⟨hs.constraints, hs.noHalf⟩
  | false => exact h.stopped_sound hr

theorem inv_stopped {t : Tables} (hc : t.Constraints) (hn : t.NoHalfStored) : (stopped t).Inv where
  running_sound := fun h => by cases h
  stopped_sound := fun _ => ⟨hc, hn⟩
  described := fun _ _ _ _ h => by cases h
  queue := fun h => absurd rfl h
  digests := fun _ h => by cases h

/-- While a process runs and its lister is not in front of a transaction, the
    tables are all there is to check. -/
theorem inv_of_running (hr : s.running = true) (hall : s.conn.All (Tables.Sound s.visited))
    (hdigests : s.conn.Rel DigestsFrom)
    (hlister : ∀ v id renamed seq, s.lister ≠ .described v id renamed seq) : s.Inv where
  running_sound := fun _ => hall
  stopped_sound := fun hf => by
    rw [hr] at hf
    cases hf
  described := fun v id renamed seq heq => absurd heq (hlister v id renamed seq)
  queue := fun _ => hr
  digests := hdigests

/-- A process starts with a pruned hashfile. -/
theorem inv_started {t : Tables} (hc : t.Constraints) : (started t.deleteUnscannedFiles).Inv :=
  inv_of_running rfl ⟨Tables.Sound.deleteUnscannedFiles hc, fun _ ht => by cases ht⟩
    (fun _ ht => by cases ht) fun _ _ _ _ heq => by cases heq

theorem Inv.describeFile (h : s.Inv) (hr : s.running = true) (hidle : s.lister = .idle)
    (v : ListedFile) (ok : Bool) : (describeFile cfg s v ok).Inv := by
  have hall : s.conn.All (Tables.Sound ((v.ino, v.subvol) :: s.visited)) := by
    have hold := h.running_sound hr
    exact ⟨hold.durable.mono (List.subset_cons_self _ _),
      fun t ht => (hold.view t ht).mono (List.subset_cons_self _ _)⟩
  rcases describeFile_cases cfg s v ok with ⟨heq, -⟩ | ⟨heq, -⟩ <;> rw [heq]
  · refine inv_of_running hr hall h.digests fun v' id renamed seq heq => ?_
    rw [hidle] at heq
    cases heq
  · refine ⟨fun _ => hall, fun hf => absurd (hr.symm.trans hf) (by simp), ?_, h.queue, h.digests⟩
    intro v' id renamed seq heq
    cases heq
    exact ⟨hr, List.mem_cons_self⟩

/-- Every step keeps the invariant. -/
theorem Inv.scanStep (h : s.Inv) {event : ScanEvent} (hstep : scanStep cfg s event = some s') :
    s'.Inv := by
  cases event with
  | start pruned =>
    obtain ⟨-, rfl⟩ := scanStep_start hstep
    obtain ⟨hc, hn⟩ := h.tables_sound
    split
    · exact inv_started hc
    · exact inv_stopped hc hn
  | describe v ok =>
    obtain ⟨hr, hidle, rfl⟩ := scanStep_describe hstep
    exact h.describeFile hr hidle v ok
  | store faults pushed =>
    have hlister := lister_of_scanStep_store hstep
    obtain ⟨v, id, renamed, seq, hdescribed, _, _, _, -, rfl, -⟩ := scanStep_store hstep
    obtain ⟨hr, hvisited⟩ := h.described v id renamed seq hdescribed
    exact inv_of_running hr
      (scanFileStore_sound (h.running_sound hr) hvisited faults id renamed seq)
      (scanFileStore_rel h.digests faults id renamed seq)
      fun v id renamed seq heq => absurd heq (hlister v id renamed seq)
  | worker i result faults =>
    obtain ⟨job, hjob, ⟨-, rfl⟩ | ⟨r, -, -, rfl⟩⟩ := scanStep_worker hstep
    · exact ⟨h.running_sound, h.stopped_sound, h.described,
        fun hne => h.queue fun hnil => hne (by simp [hnil]), h.digests⟩
    · have hne : s.queue ≠ [] := by
        intro hnil
        rw [hnil] at hjob
        cases hjob
      have hr := h.queue hne
      have hall := h.running_sound hr
      refine ⟨fun _ => workerCommit_all hall (fun _ _ hadded ht => hadded.sound ht _ _) faults,
        fun hf => ?_, h.described, fun _ => hr, workerCommit_rel h.digests faults _ _⟩
      rw [hr] at hf
      cases hf
  | kill =>
    cases hstep
    obtain ⟨hc, hn⟩ := h.tables_sound
    exact inv_stopped hc hn

/-- So does every run. -/
theorem Inv.scanRun (h : s.Inv) {events : List ScanEvent} (hrun : scanRun cfg s events = some s') :
    s'.Inv := by
  refine Steps.run_keeps Inv ?_ h hrun
  intro event _ s s' h hstep
  exact h.scanStep hstep

end ScanSys

-- ---------------------------------------------------------------------------
-- Files that are skipped
-- ---------------------------------------------------------------------------

section Skipped

variable {cfg : ScanConfig} {s s' : ScanSys}

/-- An up-to-date file is one that the lister has a row for, since no file is
    empty. -/
theorem exists_of_isUpToDate {t : Tables} {v : ListedFile}
    (h : isUpToDate v (dbfileDescribeFile t v.ino v.subvol) = true) :
    ∃ f ∈ t.files, f.ino = v.ino ∧ f.subvol = v.subvol ∧ f.mtime = v.mtime ∧ f.size = v.size := by
  unfold dbfileDescribeFile at h
  cases hfind : t.files.find? fun f => decide (f.ino = v.ino ∧ f.subvol = v.subvol) with
  | none =>
    rw [hfind] at h
    simp only [isUpToDate, Bool.and_eq_true, decide_eq_true_eq] at h
    have hpos := v.size_pos
    omega
  | some f =>
    rw [hfind] at h
    simp only [isUpToDate, Bool.and_eq_true, decide_eq_true_eq] at h
    have hino := List.find?_some hfind
    simp only [decide_eq_true_eq] at hino
    exact ⟨f, List.mem_of_find?_eq_some hfind, hino.1, hino.2, h.1.1, h.1.2⟩

theorem digest_of_skipped (h : s.Inv) {v : ListedFile}
    (hstep : scanStep cfg s (.describe v true) = some s') (hfirst : (v.ino, v.subvol) ∉ s.visited)
    (hidle : s'.lister = .idle) :
    ∃ f ∈ s.tables.files, f.ino = v.ino ∧ f.subvol = v.subvol ∧ f.mtime = v.mtime ∧
      f.size = v.size ∧ f.digest.isSome = true := by
  obtain ⟨hr, -, rfl⟩ := scanStep_describe hstep
  have huptodate : isUpToDate v (dbfileDescribeFile s.conn.sees v.ino v.subvol) = true := by
    by_contra hnot
    simp only [describeFile, Bool.true_eq_false, hnot, false_or] at hidle
    cases hidle
  obtain ⟨f, hf, hino, hsubvol, hmtime, hsize⟩ := exists_of_isUpToDate huptodate
  -- A row without a digest was inserted during this run, after a visit.
  have hsome : f.digest.isSome = true := by
    cases hd : f.digest with
    | some d => rfl
    | none =>
      have hvisited := (h.running_sound hr).sees.unscanned f hf hd
      rw [hino, hsubvol] at hvisited
      exact absurd hvisited hfirst
  unfold Conn.sees at hf
  cases hview : s.conn.view with
  | none =>
    rw [hview] at hf
    exact ⟨f, hf, hino, hsubvol, hmtime, hsize, hsome⟩
  | some t =>
    rw [hview] at hf
    obtain ⟨g, hg, hino', hsubvol', hsize', hmtime', hdigest⟩ := h.digests t hview f hf hsome
    exact ⟨g, hg, hino'.trans hino, hsubvol'.trans hsubvol, hmtime'.trans hmtime,
      hsize'.trans hsize, hdigest ▸ hsome⟩

end Skipped

/-- A hashfile that was just created. -/
def emptyHashfile : Hashfile where
  files := []
  extents := []
  blocks := []
  constraints := by
    constructor <;> simp

/-- A file of one block that was never seen before. -/
def newFile : ListedFile := ⟨"/a", 10, 0, 4096, 5, fun _ => false, by decide⟩

/-- A new hashfile and the default size of a batch. -/
def defaultConfig : ScanConfig := ⟨0, 1024, by decide, by decide⟩

end Duperemove
