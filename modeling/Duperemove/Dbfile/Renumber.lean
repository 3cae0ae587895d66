-- SUMMARY: Changing the sequence numbers of a hashfile commutes with every statement of a scan.
import Duperemove.Dbfile.Statements

/-!
# Renumbering

No statement of a scan looks at a sequence number. So a hashfile may be
renumbered before a statement or after it, and that is how two scans with
different batches are compared.
-/

namespace Duperemove

def FileRow.renumber (g : Int → Int) (f : FileRow) : FileRow :=
  { f with dedupeSeq := g f.dedupeSeq }

def FileInfo.renumber (g : Int → Int) (info : FileInfo) : FileInfo :=
  { info with dedupeSeq := g info.dedupeSeq }

namespace Tables

def renumber (g : Int → Int) (t : Tables) : Tables :=
  { t with files := t.files.map (FileRow.renumber g) }

section Renumber

variable {g : Int → Int}

/-- A condition that does not look at the number. -/
def SeqFree (p : FileRow → Bool) : Prop := ∀ g f, p (FileRow.renumber g f) = p f

theorem deleteFiles_renumber (t : Tables) {p : FileRow → Bool} (hp : SeqFree p) :
    (t.renumber g).deleteFiles p = (t.deleteFiles p).renumber g := by
  have hcomp : (fun f => !p f) ∘ FileRow.renumber g = fun f => !p f := by
    funext f
    rw [Function.comp_apply, hp]
  have hany : ∀ id, ((t.files.map (FileRow.renumber g)).any fun f => p f && decide (f.id = id)) =
      t.files.any fun f => p f && decide (f.id = id) := by
    intro id
    rw [List.any_map]
    congr 1
    funext f
    rw [Function.comp_apply, hp]
    rfl
  unfold deleteFiles renumber
  simp only [List.filter_map, hcomp, hany]

theorem newRowid_renumber (t : Tables) : (t.renumber g).newRowid = t.newRowid := by
  unfold newRowid renumber
  rw [List.map_map]
  rfl

theorem writeFile_renumber (t : Tables) (info : FileInfo) :
    (t.renumber g).writeFile (info.renumber g) = (t.writeFile info).renumber g := by
  unfold writeFile
  simp only [newRowid_renumber, FileInfo.renumber]
  rw [deleteFiles_renumber t fun _ _ => rfl]
  simp only [renumber, List.map_append, List.map_singleton]
  rfl

theorem renameFile_renumber (t : Tables) (path : String) (id : Nat) :
    (t.renumber g).renameFile path id = (t.renameFile path id).renumber g := by
  have hany : ((t.renumber g).files.any fun f => decide (f.id = id)) =
      t.files.any fun f => decide (f.id = id) := by
    rw [renumber, List.any_map]
    rfl
  unfold renameFile
  rw [hany]
  split
  · rw [deleteFiles_renumber t fun _ _ => rfl]
    simp only [renumber, List.map_map]
    congr 2
    funext f
    simp only [Function.comp_apply, FileRow.renumber]
    by_cases hid : f.id = id <;> simp [hid]
  · rfl

theorem insertBlock_renumber (t : Tables) (b : BlockRow) :
    (t.renumber g).insertBlock b = (t.insertBlock b).map (renumber g) := by
  have hfile : (∃ f ∈ (t.renumber g).files, f.id = b.fileid) ↔ ∃ f ∈ t.files, f.id = b.fileid := by
    simp [renumber, FileRow.renumber]
  unfold insertBlock
  simp only [hfile]
  rw [apply_ite (Option.map (renumber g))]
  rfl

theorem insertExtent_renumber (t : Tables) (e : ExtentRow) :
    (t.renumber g).insertExtent e = (t.insertExtent e).map (renumber g) := by
  have hfile : (∃ f ∈ (t.renumber g).files, f.id = e.fileid) ↔ ∃ f ∈ t.files, f.id = e.fileid := by
    simp [renumber, FileRow.renumber]
  unfold insertExtent
  simp only [hfile]
  rw [apply_ite (Option.map (renumber g))]
  rfl

theorem updateScannedFile_renumber (t : Tables) (digest : DigestBytes) (flags id : Nat) :
    (t.renumber g).updateScannedFile digest flags id =
      (t.updateScannedFile digest flags id).renumber g := by
  unfold updateScannedFile renumber
  simp only [List.map_map]
  congr 2
  funext f
  simp only [Function.comp_apply, FileRow.renumber]
  by_cases hid : f.id = id <;> simp [hid]

theorem Constraints.renumber {t : Tables} (h : t.Constraints) : (t.renumber g).Constraints := by
  have hname : ∀ f, (FileRow.renumber g f).filename = f.filename := fun _ => rfl
  refine h.mapFiles (fun _ => rfl) (fun _ => rfl) ?_
  rw [map_key_map hname]
  exact h.filename_unique

end Renumber

end Tables

end Duperemove
