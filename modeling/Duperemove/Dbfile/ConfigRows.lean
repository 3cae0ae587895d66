-- SUMMARY: The rows of the config table with the types of their columns, and which configs are read back.
import Mathlib.Data.List.Nodup

/-!
# The rows of the config table

The config is stored one field per row: numbers as signed integers, the hash type and
the identifier of the file system as texts of a fixed length without a terminator. The
reader copies the text of the identifier to a local buffer that is one byte longer and
was not set, and parses it there. So the identifier comes back when the last byte of the
buffer happens to be zero, and every other field comes back always.
-/

namespace Duperemove

namespace ConfigRows

-- ---------------------------------------------------------------------------
-- The table
-- ---------------------------------------------------------------------------

abbrev Uuid := Vector UInt8 16

/-- `struct dbfile_config` -/
structure DbfileConfig where
  blocksize : UInt32
  major : Int32
  minor : Int32
  hashType : Vector UInt8 8
  dedupeSeq : UInt32
  fsUuid : Uuid
  deriving DecidableEq

/-- A value in the column `keyval`, which has no type of its own. -/
inductive KeyVal where
  | integer (v : Int64)
  | text (bytes : List UInt8)
  deriving DecidableEq

structure ConfigRow where
  keyname : String
  keyval : KeyVal
  deriving DecidableEq

/-- The table `config`, whose primary key is `keyname`. -/
structure ConfigTable where
  rows : List ConfigRow
  keys_nodup : (rows.map ConfigRow.keyname).Nodup

namespace ConfigTable

def empty : ConfigTable := ⟨[], List.nodup_nil⟩

/-- `insert or replace into config` -/
def insertOrReplace (t : ConfigTable) (key : String) (val : KeyVal) : ConfigTable where
  rows := t.rows.filter (fun row => row.keyname ≠ key) ++ [⟨key, val⟩]
  keys_nodup := by
    rw [List.map_append, List.nodup_append]
    refine ⟨t.keys_nodup.sublist (List.filter_sublist.map _), List.pairwise_singleton _ _, ?_⟩
    rintro k hk k' hk' rfl
    obtain ⟨row, hrow, rfl⟩ := List.mem_map.1 hk
    have hne := of_decide_eq_true (List.mem_filter.1 hrow).2
    exact hne (List.mem_singleton.1 hk')

/-- `select keyval from config where keyname=?1` -/
def selectKeyval (t : ConfigTable) (key : String) : List KeyVal :=
  (t.rows.filter fun row => row.keyname = key).map ConfigRow.keyval

theorem selectKeyval_insertOrReplace (t : ConfigTable) (key key' : String) (val : KeyVal) :
    (t.insertOrReplace key val).selectKeyval key' =
      if key = key' then [val] else t.selectKeyval key' := by
  unfold selectKeyval insertOrReplace
  rw [List.filter_append, List.filter_filter, List.map_append]
  split
  next heq =>
    subst heq
    simp
  next hne =>
    have hrest : ∀ row : ConfigRow,
        (decide (row.keyname = key') && decide (row.keyname ≠ key)) =
          decide (row.keyname = key') := by
      intro row
      by_cases hrow : row.keyname = key'
      · simp [hrow, Ne.symm hne]
      · simp [hrow]
    simp_rw [hrest]
    simp [hne]

end ConfigTable

-- ---------------------------------------------------------------------------
-- The libraries
-- ---------------------------------------------------------------------------

/-- What is used of libuuid and of the conversions of SQLite. `uuid_unparse` writes 36
    characters and a terminator. `uuid_parse` reads a string from a buffer and writes to an
    identifier that it may leave unchanged. -/
structure ConfigLib where
  uuidUnparse : Uuid → Vector UInt8 36
  uuidParse : Vector UInt8 37 → Uuid → Uuid
  textToInt : List UInt8 → Int64
  intToText : Int64 → List UInt8

namespace ConfigLib

variable (lib : ConfigLib)

/-- `sqlite3_column_int`, which takes the lower half of an integer. -/
def columnInt : KeyVal → Int32
  | .integer v => v.toInt32
  | .text bytes => (lib.textToInt bytes).toInt32

/-- `sqlite3_column_text`, without the terminator behind the text. -/
def columnText : KeyVal → List UInt8
  | .integer v => lib.intToText v
  | .text bytes => bytes

end ConfigLib

-- ---------------------------------------------------------------------------
-- Writing
-- ---------------------------------------------------------------------------

/-- The arguments of `sync_config_text` and `sync_config_int`, in order. -/
def configStatements (lib : ConfigLib) (cfg : DbfileConfig) : List (String × KeyVal) :=
  [("hash_type", .text cfg.hashType.toList),
    ("block_size", .integer cfg.blocksize.toInt32.toInt64),
    ("dedupe_sequence", .integer cfg.dedupeSeq.toInt32.toInt64),
    ("version_minor", .integer cfg.minor.toInt64),
    ("fs_uuid", .text (lib.uuidUnparse cfg.fsUuid).toList),
    ("version_major", .integer cfg.major.toInt64)]

/-- Execute statements until one fails; `ok` says which ones succeed. -/
def syncStatements : (ok : List Bool) → List (String × KeyVal) → ConfigTable → Bool × ConfigTable
  | _, [], t => (true, t)
  | true :: ok, (key, val) :: rest, t => syncStatements ok rest (t.insertOrReplace key val)
  | _, _ :: _, t => (false, t)

/-- `__dbfile_sync_config`: whether it succeeded, and the table. -/
def dbfileSyncConfig (lib : ConfigLib) (ok : List Bool) (cfg : DbfileConfig) (t : ConfigTable) :
    Bool × ConfigTable := syncStatements ok (configStatements lib cfg) t

-- ---------------------------------------------------------------------------
-- Reading
-- ---------------------------------------------------------------------------

/-- A byte from the start of a text on. Behind the terminator is other memory. -/
def byteAt (text : List UInt8) (behind : Nat → UInt8) (i : Nat) : UInt8 :=
  if h : i < text.length then text[i]
  else if i = text.length then 0
  else behind (i - text.length)

/-- `memcpy` of `len` bytes of a text to the start of a buffer. -/
def copyText {n : Nat} (val : Vector UInt8 n) (text : List UInt8) (behind : Nat → UInt8)
    (len : Nat) : Vector UInt8 n :=
  Vector.ofFn fun i => if i < len then byteAt text behind i else val[i]

/-- `get_config_int`: each row that is found replaces the value. -/
def getConfigInt (lib : ConfigLib) (rows : List KeyVal) (val : Int32) : Int32 :=
  rows.foldl (fun _ row => lib.columnInt row) val

/-- `get_config_text` -/
def getConfigText (lib : ConfigLib) (behind : Nat → UInt8) {n : Nat} (rows : List KeyVal)
    (val : Vector UInt8 n) (len : Nat) : Vector UInt8 n :=
  rows.foldl (fun val row => copyText val (lib.columnText row) behind len) val

def hashType : Vector UInt8 8 := #v[88, 88, 72, 65, 83, 72, 51, 32]

def dbfileConfigDefaults (blocksize : UInt32) : DbfileConfig where
  blocksize := blocksize
  major := 4
  minor := 1
  hashType := hashType
  dedupeSeq := 0
  fsUuid := Vector.replicate 16 0

/-- What is not set by the reader: the local `uuid`, the memory behind a text of SQLite, and
    which lookups succeed. -/
structure ReaderState where
  uuid : Vector UInt8 37
  behind : Nat → UInt8
  ok : Nat → Bool

/-- `dbfile_get_config`, up to the first error. -/
def dbfileGetConfig (lib : ConfigLib) (s : ReaderState) (blocksize : UInt32) (t : ConfigTable) :
    Option DbfileConfig := do
  let cfg := dbfileConfigDefaults blocksize
  guard (s.ok 0)
  let cfg := { cfg with
    blocksize := (getConfigInt lib (t.selectKeyval "block_size") cfg.blocksize.toInt32).toUInt32 }
  guard (s.ok 1)
  let cfg := { cfg with
    hashType := getConfigText lib s.behind (t.selectKeyval "hash_type") cfg.hashType 8 }
  guard (s.ok 2)
  let cfg := { cfg with major := getConfigInt lib (t.selectKeyval "version_major") cfg.major }
  guard (s.ok 3)
  let cfg := { cfg with minor := getConfigInt lib (t.selectKeyval "version_minor") cfg.minor }
  guard (s.ok 4)
  let cfg := { cfg with
    dedupeSeq :=
      (getConfigInt lib (t.selectKeyval "dedupe_sequence") cfg.dedupeSeq.toInt32).toUInt32 }
  guard (s.ok 5)
  let uuid := getConfigText lib s.behind (t.selectKeyval "fs_uuid") s.uuid 36
  return { cfg with fsUuid := lib.uuidParse uuid cfg.fsUuid }

-- ---------------------------------------------------------------------------
-- The round trip
-- ---------------------------------------------------------------------------

/-- What the libraries promise: a text of `uuid_unparse` is parsed back, and a string that
    does not end behind 36 characters leaves the identifier unchanged. -/
structure ConfigLib.Documented (lib : ConfigLib) : Prop where
  inverse : ∀ uuid out, lib.uuidParse ((lib.uuidUnparse uuid).push 0) out = uuid
  unterminated : ∀ text out, text[36] ≠ 0 → lib.uuidParse text out = out

section RoundTrip

variable {lib : ConfigLib} {cfg : DbfileConfig} {t t' : ConfigTable}

/-- The first of some statements that all succeed. -/
theorem syncStatements_cons {ok : List Bool} {statement : String × KeyVal}
    {rest : List (String × KeyVal)}
    (hsync : syncStatements ok (statement :: rest) t = (true, t')) :
    ∃ ok', syncStatements ok' rest (t.insertOrReplace statement.1 statement.2) = (true, t') := by
  match ok, hsync with
  | true :: ok, hsync => exact ⟨ok, hsync⟩

/-- Statements for other keys leave a value as it is. -/
theorem selectKeyval_of_sync_others {ok : List Bool} {statements : List (String × KeyVal)}
    (hsync : syncStatements ok statements t = (true, t')) {key : String}
    (hkey : key ∉ statements.map Prod.fst) : t'.selectKeyval key = t.selectKeyval key := by
  induction statements generalizing ok t with
  | nil =>
    rw [syncStatements] at hsync
    cases hsync
    rfl
  | cons statement rest ih =>
    obtain ⟨ok', hrest⟩ := syncStatements_cons hsync
    obtain ⟨hne, hkey⟩ := not_or.1 (mt List.mem_cons.2 hkey)
    rw [ih hrest hkey, ConfigTable.selectKeyval_insertOrReplace, if_neg (Ne.symm hne)]

/-- Statements for distinct keys leave their values in the table. -/
theorem selectKeyval_of_sync {ok : List Bool} {statements : List (String × KeyVal)}
    (hsync : syncStatements ok statements t = (true, t'))
    (hkeys : (statements.map Prod.fst).Nodup) {key : String} {val : KeyVal}
    (hmem : (key, val) ∈ statements) : t'.selectKeyval key = [val] := by
  induction statements generalizing ok t with
  | nil => cases hmem
  | cons statement rest ih =>
    obtain ⟨ok', hrest⟩ := syncStatements_cons hsync
    rw [List.map_cons, List.nodup_cons] at hkeys
    rcases List.mem_cons.1 hmem with rfl | hmem
    · rw [selectKeyval_of_sync_others hrest hkeys.1, ConfigTable.selectKeyval_insertOrReplace,
        if_pos rfl]
    · exact ih hrest hkeys.2 hmem

theorem configStatements_keys (lib : ConfigLib) (cfg : DbfileConfig) :
    ((configStatements lib cfg).map Prod.fst).Nodup := by
  show ["hash_type", "block_size", "dedupe_sequence", "version_minor", "fs_uuid",
    "version_major"].Nodup
  decide

/-- A text fills the buffer that it is as long as. -/
theorem copyText_all {n : Nat} (val text : Vector UInt8 n) (behind : Nat → UInt8) :
    copyText val text.toList behind n = text := by
  ext i hi
  simp [copyText, byteAt]

/-- A text that is one byte shorter leaves the last byte of the buffer. -/
theorem copyText_push {n : Nat} (val : Vector UInt8 (n + 1)) (text : Vector UInt8 n)
    (behind : Nat → UInt8) : copyText val text.toList behind n = text.push val[n] := by
  ext i hi
  rw [Vector.getElem_push]
  by_cases hlt : i < n
  · simp [copyText, byteAt, hlt]
  · obtain rfl : i = n := by omega
    simp [copyText]

/-- What stands behind a check is reached when the whole succeeds. -/
theorem of_guard {α : Type} {p : Prop} [Decidable p] {x : Option α} {a : α}
    (h : (do guard p; x) = some a) : x = some a := by
  obtain ⟨-, -, hx⟩ := Option.bind_eq_some_iff.1 h
  exact hx

/-- What is read back: everything but the identifier, which depends on the byte of the
    buffer that is not set. -/
theorem dbfileGetConfig_of_sync (hlib : lib.Documented) {ok : List Bool}
    (hsync : dbfileSyncConfig lib ok cfg t = (true, t')) {s : ReaderState} {blocksize : UInt32}
    {cfg' : DbfileConfig} (hget : dbfileGetConfig lib s blocksize t' = some cfg') :
    cfg' = { cfg with fsUuid := if s.uuid[36] = 0 then cfg.fsUuid else Vector.replicate 16 0 } := by
  have hstored : ∀ (i : Nat) (key : String) (val : KeyVal),
      (configStatements lib cfg)[i]? = some (key, val) → t'.selectKeyval key = [val] :=
    fun i key val hi =>
      selectKeyval_of_sync hsync (configStatements_keys lib cfg) (List.mem_of_getElem? hi)
  have huuid : lib.uuidParse (copyText s.uuid (lib.uuidUnparse cfg.fsUuid).toList s.behind 36)
      (Vector.replicate 16 0) = if s.uuid[36] = 0 then cfg.fsUuid else Vector.replicate 16 0 := by
    rw [copyText_push]
    split
    next hzero => rw [hzero, hlib.inverse]
    next hset => exact hlib.unterminated _ _ (by rwa [Vector.getElem_push_eq])
  have hcfg := of_guard (of_guard (of_guard (of_guard (of_guard (of_guard hget)))))
  simp only [hstored 0 "hash_type" _ rfl, hstored 1 "block_size" _ rfl,
    hstored 2 "dedupe_sequence" _ rfl, hstored 3 "version_minor" _ rfl,
    hstored 4 "fs_uuid" _ rfl, hstored 5 "version_major" _ rfl, getConfigInt, getConfigText,
    List.foldl_cons, List.foldl_nil, ConfigLib.columnInt, ConfigLib.columnText, copyText_all,
    dbfileConfigDefaults, huuid, Int32.toInt32_toInt64, UInt32.toUInt32_toInt32] at hcfg
  exact (Option.some.inj hcfg).symm

/-- A config that was stored is read back if and only if the last byte of the local buffer
    is zero or the config has no identifier of a file system. -/
theorem dbfileGetConfig_roundTrip_iff (hlib : lib.Documented) {ok : List Bool}
    (hsync : dbfileSyncConfig lib ok cfg t = (true, t')) {s : ReaderState} {blocksize : UInt32}
    {cfg' : DbfileConfig} (hget : dbfileGetConfig lib s blocksize t' = some cfg') :
    cfg' = cfg ↔ s.uuid[36] = 0 ∨ cfg.fsUuid = Vector.replicate 16 0 := by
  rw [dbfileGetConfig_of_sync hlib hsync hget]
  constructor
  · intro hsame
    have huuid := congrArg DbfileConfig.fsUuid hsame
    by_cases hzero : s.uuid[36] = 0
    · exact .inl hzero
    · exact .inr (by simpa [hzero] using huuid.symm)
  · rintro (hzero | hnull)
    · rw [if_pos hzero]
    · rw [← hnull, ite_self]

end RoundTrip

-- ---------------------------------------------------------------------------
-- A library
-- ---------------------------------------------------------------------------

def hexDigit (n : UInt8) : UInt8 := if n < 10 then 48 + n else 87 + n

def hexValue (c : UInt8) : UInt8 := if c < 58 then c - 48 else c - 87

/-- The place of a digit in the text of an identifier, between the dashes. -/
def digitPlace (j : Nat) : Nat :=
  j + (if 8 ≤ j then 1 else 0) + (if 12 ≤ j then 1 else 0) + (if 16 ≤ j then 1 else 0) +
    (if 20 ≤ j then 1 else 0)

/-- The two digits of a byte. -/
def hexByte (b : UInt8) (low : Bool) : UInt8 := hexDigit (if low then b % 16 else b / 16)

/-- An identifier as hexadecimal digits in five groups. -/
def hexUnparse (uuid : Uuid) : Vector UInt8 36 :=
  Vector.ofFn fun i =>
    match (List.range 32).find? fun j => digitPlace j = i with
    | none => 45
    | some j => hexByte (uuid[j / 2]?.getD 0) (j % 2 = 1)

def hexParse (text : Vector UInt8 37) (out : Uuid) : Uuid :=
  if text[36] ≠ 0 then out
  else Vector.ofFn fun k =>
    hexValue (text[digitPlace (2 * k)]?.getD 0) * 16 +
      hexValue (text[digitPlace (2 * k + 1)]?.getD 0)

def hexLib : ConfigLib := ⟨hexUnparse, hexParse, fun _ => 0, fun _ => []⟩

theorem hexValue_hexByte (b : UInt8) :
    hexValue (hexByte b false) * 16 + hexValue (hexByte b true) = b := by
  have hall : ∀ n : Fin 256,
      hexValue (hexByte (.ofFin n) false) * 16 + hexValue (hexByte (.ofFin n) true) = .ofFin n := by
    decide +kernel
  exact hall b.toFin

/-- Each digit is found at its place. -/
theorem hexUnparse_digit (uuid : Uuid) {j : Nat} (hj : j < 32) :
    ((hexUnparse uuid).push 0)[digitPlace j]?.getD 0 =
      hexByte (uuid[j / 2]?.getD 0) (j % 2 = 1) := by
  have hplaces : ∀ j < 32, digitPlace j < 36 ∧
      (List.range 32).find? (fun i => digitPlace i = digitPlace j) = some j := by decide +kernel
  obtain ⟨hlt, hfind⟩ := hplaces j hj
  rw [Vector.getElem?_push, if_neg (Nat.ne_of_lt hlt), hexUnparse, Vector.getElem?_ofFn,
    dif_pos hlt]
  simp only [hfind, Option.getD_some]

theorem hexParse_hexUnparse (uuid out : Uuid) : hexParse ((hexUnparse uuid).push 0) out = uuid := by
  rw [hexParse, if_neg (not_not.2 Vector.getElem_push_eq)]
  refine Vector.ext fun k hk => ?_
  have heven : 2 * k / 2 = k ∧ 2 * k % 2 ≠ 1 := by omega
  have hodd : (2 * k + 1) / 2 = k ∧ (2 * k + 1) % 2 = 1 := by omega
  rw [Vector.getElem_ofFn, hexUnparse_digit uuid (by omega), hexUnparse_digit uuid (by omega),
    heven.1, hodd.1, decide_eq_false heven.2, decide_eq_true hodd.2,
    Vector.getElem?_eq_getElem hk, Option.getD_some]
  exact hexValue_hexByte _

theorem hexLib_documented : hexLib.Documented where
  inverse := by
    intro uuid out
    simp only [hexLib]
    exact hexParse_hexUnparse uuid out
  unterminated := by
    intro text out hset
    simp only [hexLib]
    rw [hexParse, if_pos hset]

-- ---------------------------------------------------------------------------
-- Two readers
-- ---------------------------------------------------------------------------

/-- A config with an identifier, and numbers that do not fit a signed integer. -/
def storedConfig : DbfileConfig where
  blocksize := 0xfffff000
  major := 4
  minor := 1
  hashType := hashType
  dedupeSeq := 0x80000000
  fsUuid := Vector.ofFn fun i => 0x10 + i.val.toUInt8

/-- A reader whose local buffer is filled with a byte. -/
def readerOf (byte : UInt8) : ReaderState := ⟨Vector.replicate 37 byte, fun _ => 0, fun _ => true⟩

/-- The config that such a reader reads behind a sync. -/
def readBack (byte : UInt8) : Option DbfileConfig :=
  dbfileGetConfig hexLib (readerOf byte) 131072
    (dbfileSyncConfig hexLib (List.replicate 6 true) storedConfig .empty).2

theorem dbfileGetConfig_roundTrip_iff_zeroes :
    ∃ cfg', readBack 0 = some cfg' ∧
      (cfg' = storedConfig ↔
        (readerOf 0).uuid[36] = 0 ∨ storedConfig.fsUuid = Vector.replicate 16 0) := by
  cases hread : readBack 0 with
  | none =>
    have hsome : (readBack 0).isSome = true := by decide +kernel
    rw [hread] at hsome
    cases hsome
  | some cfg' =>
    have hsync : dbfileSyncConfig hexLib (List.replicate 6 true) storedConfig .empty =
        (true, (dbfileSyncConfig hexLib (List.replicate 6 true) storedConfig .empty).2) := rfl
    exact ⟨cfg', rfl, dbfileGetConfig_roundTrip_iff hexLib_documented hsync hread⟩

/-- With another byte the identifier is lost, and the rest is not. -/
theorem readBack_filled :
    hexLib.Documented ∧
      (dbfileSyncConfig hexLib (List.replicate 6 true) storedConfig .empty).1 = true ∧
      readBack 0xff = some { storedConfig with fsUuid := Vector.replicate 16 0 } ∧
      readBack 0xff ≠ some storedConfig := by
  refine ⟨hexLib_documented, rfl, by decide +kernel, by decide +kernel⟩

end ConfigRows

end Duperemove
