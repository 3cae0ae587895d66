-- SUMMARY: The config table of a hashfile, the programs that open it, and the block size that a scan starts with.
import Duperemove.FileScan.Model

/-!
# The config table

Every program that opens a hashfile reads its config table over the defaults,
checks it, and writes it back. The default block size is the global `blocksize`,
and the check takes over the one that was read, so the first program that writes
the table decides for all later ones. `duperemove` sets the global to a usable
size, and `hashstats` leaves it at zero. The identifier of the file system is
left out.
-/

namespace Duperemove

def defaultBlocksize : Nat := 128 * 1024

/-! ## The table -/

def dbFileMajor : Nat := 4

def dbFileMinor : Nat := 1

def hashType : String := "XXHASH3 "

/-- `struct dbfile_config` -/
structure DbfileConfig where
  blocksize : Nat
  major : Nat
  minor : Nat
  hashType : String
  dedupeSeq : Nat
  deriving DecidableEq, Repr

/-- The rows of `config`, by their keys. -/
structure ConfigTable where
  blockSize : Option Nat
  hashType : Option String
  versionMajor : Option Nat
  versionMinor : Option Nat
  dedupeSequence : Option Nat
  deriving DecidableEq, Repr

/-- The table that `create_tables` creates. -/
def ConfigTable.empty : ConfigTable := ⟨none, none, none, none, none⟩

def dbfileConfigDefaults (blocksize : Nat) : DbfileConfig :=
  ⟨blocksize, dbFileMajor, dbFileMinor, hashType, 0⟩

/-- `dbfile_get_config`. A row that is missing leaves its default. -/
def dbfileGetConfig (blocksize : Nat) (t : ConfigTable) : DbfileConfig :=
  let defaults := dbfileConfigDefaults blocksize
  { blocksize := t.blockSize.getD defaults.blocksize
    major := t.versionMajor.getD defaults.major
    minor := t.versionMinor.getD defaults.minor
    hashType := t.hashType.getD defaults.hashType
    dedupeSeq := t.dedupeSequence.getD defaults.dedupeSeq }

/-- The statements of `__dbfile_sync_config`, in order. -/
def configStatements (cfg : DbfileConfig) : List (ConfigTable → ConfigTable) :=
  [fun t => { t with hashType := some cfg.hashType },
    fun t => { t with blockSize := some cfg.blocksize },
    fun t => { t with dedupeSequence := some cfg.dedupeSeq },
    fun t => { t with versionMinor := some cfg.minor },
    fun t => { t with versionMajor := some cfg.major }]

/-- `__dbfile_sync_config`, when the first `n` statements succeed. -/
def dbfileSyncConfig (n : Nat) (cfg : DbfileConfig) (t : ConfigTable) : ConfigTable :=
  ((configStatements cfg).take n).foldl (fun t statement => statement t) t

/-- `dbfile_check`: the new value of the global `blocksize`, or `none` for a
    hashfile of another version. -/
def dbfileCheck (cfg : DbfileConfig) (blocksize : Nat) : Option Nat :=
  if cfg.major ≠ dbFileMajor ∨ cfg.minor ≠ dbFileMinor then none
  else if cfg.hashType.toLower ≠ hashType.toLower then none
  else if cfg.blocksize ≠ blocksize then some cfg.blocksize
  else some blocksize

/-! ## The programs -/

/-- What is left after a program opened the hashfile. -/
structure OpenedHashfile where
  table : ConfigTable
  blocksize : Nat
  ok : Bool
  deriving DecidableEq, Repr

/-- `dbfile_open_handle`, when the first `n` statements of the sync succeed. A
    missing file is created. A hashfile of another version is deleted and created
    again, and the handle that is returned then is closed already, so the program
    does not get further. -/
def dbfileOpenHandle (n blocksize : Nat) (file : Option ConfigTable) : OpenedHashfile :=
  let t := file.getD .empty
  let cfg := dbfileGetConfig blocksize t
  match dbfileCheck cfg blocksize with
  | none => ⟨dbfileSyncConfig n (dbfileConfigDefaults blocksize) .empty, blocksize, false⟩
  | some blocksize =>
    ⟨dbfileSyncConfig n cfg t, blocksize, decide ((configStatements cfg).length ≤ n)⟩

/-- The option `-b` of `parse_options`, with the value of `parse_size`. -/
def parseBlocksize (size : Option Nat) : Option Nat :=
  match size with
  | none => some defaultBlocksize
  | some size =>
    let blocksize := Word.wrap 32 size
    if blocksize < minBlocksize ∨ blocksize > maxBlocksize then none else some blocksize

/-- What a run of `duperemove` does to the table after it opened the hashfile: a
    sync with the sequence number it has then, or a thread that opens a handle of
    its own. The number says how many statements succeed. -/
inductive ConfigAccess where
  | sync (dedupeSeq n : Nat)
  | openThread (n : Nat)
  deriving DecidableEq, Repr

def ConfigAccess.apply (cfg : DbfileConfig) (blocksize : Nat) (t : ConfigTable) :
    ConfigAccess → ConfigTable
  | sync dedupeSeq n => dbfileSyncConfig n { cfg with dedupeSeq := dedupeSeq } t
  | openThread n => (dbfileOpenHandle n blocksize (some t)).table

/-- One run of one of the two programs. It may end at any point: `opened` is the
    number of statements of the first sync that succeed. `scans` is false for
    `-L`, `-R` and `--read-hashes`. -/
inductive ProgramRun where
  | duperemove (size : Option Nat) (scans : Bool) (opened : Nat) (later : List ConfigAccess)
  | hashstats (opened : Nat)
  deriving DecidableEq, Repr

/-- A run: the hashfile it leaves, and the global `blocksize` with which it starts
    scanning, if it does. The global of `hashstats` is zero. -/
def ProgramRun.apply (file : Option ConfigTable) : ProgramRun → Option ConfigTable × Option Nat
  | duperemove size scans opened later =>
    match parseBlocksize size with
    | none => (file, none)
    | some blocksize =>
      let h := dbfileOpenHandle opened blocksize file
      if h.ok then
        let cfg := dbfileGetConfig h.blocksize h.table
        (some (later.foldl (fun t access => access.apply cfg h.blocksize t) h.table),
          if scans then some h.blocksize else none)
      else (some h.table, none)
  | hashstats opened => (some (dbfileOpenHandle opened 0 file).table, none)

/-- The block sizes with which the runs start scanning. -/
def scanStarts (file : Option ConfigTable) : List ProgramRun → List Nat
  | [] => []
  | run :: runs => (run.apply file).2.toList ++ scanStarts (run.apply file).1 runs

/-! ## Usable block sizes -/

def Usable (blocksize : Nat) : Prop := minBlocksize ≤ blocksize ∧ blocksize ≤ maxBlocksize

/-- A hashfile that the next program accepts: what it stores is of this version,
    and a stored block size is usable. -/
structure WellStored (t : ConfigTable) : Prop where
  major : t.versionMajor.getD dbFileMajor = dbFileMajor
  minor : t.versionMinor.getD dbFileMinor = dbFileMinor
  hash : t.hashType.getD hashType = hashType
  size : ∀ b, t.blockSize = some b → Usable b

/-- A config of this version. -/
structure OfThisVersion (cfg : DbfileConfig) : Prop where
  major : cfg.major = dbFileMajor
  minor : cfg.minor = dbFileMinor
  hash : cfg.hashType = hashType

theorem wellStored_empty : WellStored .empty := ⟨rfl, rfl, rfl, by simp [ConfigTable.empty]⟩

section Sync

variable {t : ConfigTable} {cfg : DbfileConfig}

/-- A statement of a sync leaves a usable table. -/
theorem WellStored.statement (h : WellStored t) (hcfg : OfThisVersion cfg)
    (hsize : Usable cfg.blocksize) {statement : ConfigTable → ConfigTable}
    (hmem : statement ∈ configStatements cfg) : WellStored (statement t) := by
  simp only [configStatements, List.mem_cons, List.not_mem_nil, or_false] at hmem
  rcases hmem with rfl | rfl | rfl | rfl | rfl
  · exact ⟨h.major, h.minor, hcfg.hash, h.size⟩
  · refine ⟨h.major, h.minor, h.hash, ?_⟩
    rintro b hb
    cases hb
    exact hsize
  · exact ⟨h.major, h.minor, h.hash, h.size⟩
  · exact ⟨h.major, hcfg.minor, h.hash, h.size⟩
  · exact ⟨hcfg.major, h.minor, h.hash, h.size⟩

theorem WellStored.foldl {statements : List (ConfigTable → ConfigTable)}
    (hall : ∀ statement ∈ statements, ∀ t, WellStored t → WellStored (statement t))
    (h : WellStored t) : WellStored (statements.foldl (fun t statement => statement t) t) := by
  induction statements generalizing t with
  | nil => exact h
  | cons s statements ih =>
    exact ih (fun s' hs' => hall s' (List.mem_cons_of_mem _ hs')) (hall s List.mem_cons_self t h)

/-- A sync leaves a usable table, wherever it stops. The block size is written by
    the second statement. -/
theorem WellStored.sync (h : WellStored t) (hcfg : OfThisVersion cfg) (n : Nat)
    (hsize : 2 ≤ n → Usable cfg.blocksize) : WellStored (dbfileSyncConfig n cfg t) := by
  rcases Nat.lt_or_ge n 2 with hshort | hlong
  · obtain rfl | rfl : n = 0 ∨ n = 1 := by omega
    · exact h
    · exact ⟨h.major, h.minor, hcfg.hash, h.size⟩
  · refine h.foldl fun statement hmem t ht => ?_
    exact ht.statement hcfg (hsize hlong) (List.mem_of_mem_take hmem)

/-- The config that is read from a usable table. -/
theorem WellStored.getConfig (h : WellStored t) (blocksize : Nat) :
    OfThisVersion (dbfileGetConfig blocksize t) := ⟨h.major, h.minor, h.hash⟩

theorem WellStored.getConfig_usable (h : WellStored t) {blocksize : Nat}
    (hsize : t.blockSize = none → Usable blocksize) :
    Usable (dbfileGetConfig blocksize t).blocksize := by
  cases hb : t.blockSize with
  | some b =>
    simp only [dbfileGetConfig, hb, Option.getD_some]
    exact h.size b hb
  | none =>
    simp only [dbfileGetConfig, hb, Option.getD_none, dbfileConfigDefaults]
    exact hsize hb

theorem OfThisVersion.check (h : OfThisVersion cfg) (blocksize : Nat) :
    dbfileCheck cfg blocksize = some cfg.blocksize := by
  rw [dbfileCheck, if_neg (by simp [h.major, h.minor]), if_neg (by simp [h.hash])]
  split
  · rfl
  · rename_i hsame
    rw [Decidable.not_not.1 hsame]

end Sync

section Programs

variable {t : ConfigTable} {blocksize : Nat} {file : Option ConfigTable}

/-- The table stays usable when a usable hashfile is opened, unless a block size
    is stored that is not. -/
theorem dbfileOpenHandle_wellStored (h : WellStored (file.getD .empty)) (n : Nat)
    (hsize : (file.getD .empty).blockSize = none → 2 ≤ n → Usable blocksize) :
    WellStored (dbfileOpenHandle n blocksize file).table := by
  unfold dbfileOpenHandle
  simp only [(h.getConfig blocksize).check]
  exact h.sync (h.getConfig blocksize) n fun hn => h.getConfig_usable fun hb => hsize hb hn

/-- The global is usable afterwards. -/
theorem dbfileOpenHandle_usable (h : WellStored (file.getD .empty)) (n : Nat)
    (hsize : Usable blocksize) : Usable (dbfileOpenHandle n blocksize file).blocksize := by
  unfold dbfileOpenHandle
  simp only [(h.getConfig blocksize).check]
  exact h.getConfig_usable fun _ => hsize

theorem parseBlocksize_usable {size : Option Nat} (h : parseBlocksize size = some blocksize) :
    Usable blocksize := by
  cases size with
  | none =>
    cases h
    exact ⟨by decide, by decide⟩
  | some size =>
    simp only [parseBlocksize] at h
    split at h
    · cases h
    · rename_i hrange
      cases h
      unfold Usable
      omega

/-- What a run does later keeps the table usable. -/
theorem WellStored.accesses (h : WellStored t) {cfg : DbfileConfig} (hcfg : OfThisVersion cfg)
    (hstored : Usable cfg.blocksize) (hsize : Usable blocksize) (later : List ConfigAccess) :
    WellStored (later.foldl (fun t access => access.apply cfg blocksize t) t) := by
  induction later generalizing t with
  | nil => exact h
  | cons access later ih =>
    apply ih
    cases access with
    | sync dedupeSeq n =>
      have hseq : OfThisVersion { cfg with dedupeSeq := dedupeSeq } :=
        ⟨hcfg.major, hcfg.minor, hcfg.hash⟩
      exact h.sync hseq n fun _ => hstored
    | openThread n =>
      have hfile : WellStored ((some t).getD .empty) := h
      exact dbfileOpenHandle_wellStored hfile n fun _ _ => hsize

/-- `hashstats` opens a hashfile that is missing or has no block size yet, and gets
    as far as storing one. -/
def ProgramRun.StoresZero (file : Option ConfigTable) : ProgramRun → Prop
  | duperemove .. => False
  | hashstats opened => (file.getD .empty).blockSize = none ∧ 2 ≤ opened

/-- Every other run keeps the table usable, and starts scanning with a usable
    block size. -/
theorem ProgramRun.apply_usable (h : WellStored (file.getD .empty)) {run : ProgramRun}
    (hrun : ¬ run.StoresZero file) :
    WellStored ((run.apply file).1.getD .empty) ∧ ∀ b ∈ (run.apply file).2, Usable b := by
  cases run with
  | hashstats opened =>
    refine ⟨dbfileOpenHandle_wellStored h opened fun hnone hn => ?_, by simp [apply]⟩
    exact absurd ⟨hnone, hn⟩ hrun
  | duperemove size scans opened later =>
    cases hparse : parseBlocksize size with
    | none =>
      simp only [apply, hparse]
      exact ⟨h, by simp⟩
    | some blocksize =>
      have hgiven := parseBlocksize_usable hparse
      have htable := dbfileOpenHandle_wellStored h opened fun _ _ => hgiven
      have hsize := dbfileOpenHandle_usable h opened hgiven
      simp only [apply, hparse]
      split
      · refine ⟨?_, by split <;> simp [hsize]⟩
        exact htable.accesses (htable.getConfig _) (htable.getConfig_usable fun _ => hsize) hsize
          later
      · exact ⟨htable, by simp⟩

/-- No run of a sequence stores the zero of `hashstats`. -/
def NeverStoresZero (file : Option ConfigTable) : List ProgramRun → Prop
  | [] => True
  | run :: runs => ¬ run.StoresZero file ∧ NeverStoresZero (run.apply file).1 runs

theorem scanStarts_usable_from (h : WellStored (file.getD .empty)) {runs : List ProgramRun}
    (hruns : NeverStoresZero file runs) : ∀ b ∈ scanStarts file runs, Usable b := by
  induction runs generalizing file with
  | nil => simp [scanStarts]
  | cons run runs ih =>
    obtain ⟨hrun, hrest⟩ := hruns
    obtain ⟨htable, hstart⟩ := ProgramRun.apply_usable h hrun
    intro b hb
    rcases List.mem_append.1 hb with hb | hb
    · exact hstart b (Option.mem_toList.1 hb)
    · exact ih htable hrest b hb

end Programs

/-- Over every sequence of runs on a path where no hashfile was, in which
    `hashstats` never stores a block size of its own, every scan starts with a
    usable block size, and no division by it is one by zero. -/
theorem scanStarts_usable {runs : List ProgramRun} (hruns : NeverStoresZero none runs) :
    ∀ blocksize ∈ scanStarts none runs,
      minBlocksize ≤ blocksize ∧ blocksize ≤ maxBlocksize ∧ blocksize ≠ 0 := by
  intro blocksize hmem
  obtain ⟨hmin, hmax⟩ := @scanStarts_usable_from none wellStored_empty runs hruns blocksize hmem
  refine ⟨hmin, hmax, ?_⟩
  have : 0 < minBlocksize := by decide
  omega

/-- `hashstats` between two runs of `duperemove` does no harm. -/
theorem scanStarts_usable_between :
    scanStarts none [.duperemove (some 4096) true 5 [.sync 1 5], .hashstats 5,
        .duperemove none true 5 []] = [4096, 4096] ∧
      ∀ blocksize ∈ scanStarts none [.duperemove (some 4096) true 5 [.sync 1 5], .hashstats 5,
        .duperemove none true 5 []], minBlocksize ≤ blocksize ∧ blocksize ≤ maxBlocksize ∧
          blocksize ≠ 0 := by
  refine ⟨by decide +kernel, scanStarts_usable ⟨fun h => h, ?_, fun h => h, trivial⟩⟩
  rintro ⟨hnone, -⟩
  revert hnone
  decide +kernel

/-- `hashstats` on a missing hashfile creates it with block size zero, and the next
    scan starts with that. -/
theorem scanStarts_hashstatsFirst :
    ¬ ∀ runs : List ProgramRun, ∀ blocksize ∈ scanStarts none runs,
      minBlocksize ≤ blocksize ∧ blocksize ≤ maxBlocksize ∧ blocksize ≠ 0 := by
  intro h
  have hzero : (0 : Nat) ∈ scanStarts none [.hashstats 5, .duperemove none true 5 []] := by
    decide +kernel
  exact (h _ 0 hzero).2.2 rfl

end Duperemove
