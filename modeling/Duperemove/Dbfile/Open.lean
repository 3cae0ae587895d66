-- SUMMARY: Opening a hashfile, with the connections that are opened and closed on the way, and what the caller gets.
import Duperemove.Dbfile.Config
import Mathlib.Data.List.Nodup

/-!
# Opening a hashfile

`__dbfile_open_handle` opens a connection, and `dbfile_prepare` brings the file
behind it up to date. For a hashfile of another version `dbfile_prepare` closes the
connection it was given, deletes the file, opens a new one through
`__dbfile_open_handle`, and prepares that. The new connection stays in a variable of
`dbfile_prepare`: the caller above goes on with the one it had, which is closed.

Connections are numbered in the order in which they are opened. A failed open gives
a connection too, which has to be closed. The allocation of the handle succeeds.
-/

namespace Duperemove

namespace Opening

/-! ## Connections -/

/-- The answers of `sqlite3_open_v2` that are told apart. -/
inductive OpenRet where
  | ok
  | cantOpen
  | error
  deriving DecidableEq, Repr

/-- The calls that may fail while a hashfile is opened. -/
inductive DbCall where
  | setModes
  | createTables
  | createIndexes
  | getDbpath
  | chmod
  | getConfig
  | unlink
  | prepareStmts
  deriving DecidableEq, Repr

/-- What SQLite and the kernel answer: how each open ends, whether the call with a
    number fails, and how many statements of a sync succeed. -/
structure Answers where
  opens : Nat → OpenRet
  faults : DbCall → Nat → Bool
  synced : Nat → Nat

/-- The file behind the path (or the shared memory database), the global
    `blocksize`, the number of connections opened so far, those that were closed,
    and the number of calls so far. -/
structure DbState where
  file : Option ConfigTable
  blocksize : Nat
  opened : Nat
  closes : List Nat
  calls : Nat
  deriving DecidableEq, Repr

namespace DbState

def start (file : Option ConfigTable) (blocksize : Nat) : DbState := ⟨file, blocksize, 0, [], 0⟩

/-- `sqlite3_close` -/
def close (db : Nat) (s : DbState) : DbState := { s with closes := db :: s.closes }

/-- A call: whether it succeeds. -/
def call (w : Answers) (c : DbCall) (s : DbState) : Bool × DbState :=
  (!w.faults c s.calls, { s with calls := s.calls + 1 })

/-- Several calls, up to the first that fails. -/
def callAll (w : Answers) : List DbCall → DbState → Bool × DbState
  | [], s => (true, s)
  | c :: cs, s =>
    match s.call w c with
    | (false, s) => (false, s)
    | (true, s) => callAll w cs s

end DbState

/-- `sqlite3_open_v2`. Without `SQLITE_OPEN_CREATE`, a missing file cannot be opened. -/
def sqliteOpen (w : Answers) (create : Bool) (s : DbState) : OpenRet × DbState :=
  let opened := { s with opened := s.opened + 1 }
  match w.opens s.opened with
  | .ok =>
    if s.file.isNone && !create then (.cantOpen, opened)
    else (.ok, { opened with file := some (s.file.getD .empty) })
  | .cantOpen => (.cantOpen, opened)
  | .error => (.error, opened)

/-! ## The code -/

/-- The calls of `dbfile_prepare` in front of the check. The permissions are set on
    a file only. -/
def prepareCalls (memory : Bool) : List DbCall :=
  [.createTables, .createIndexes, .getDbpath] ++ (if memory then [] else [.chmod]) ++ [.getConfig]

/-- `__dbfile_sync_config` on the connection. -/
def syncConfig (w : Answers) (cfg : DbfileConfig) (s : DbState) : Bool × DbState :=
  let n := w.synced s.calls
  (decide ((configStatements cfg).length ≤ n),
    { s with file := s.file.map (dbfileSyncConfig n cfg), calls := s.calls + 1 })

mutual

/-- `__dbfile_open_handle`: the connection, or `none` for `NULL`. The outer `none` is
    a run that is out of fuel. -/
def innerOpenHandle (w : Answers) (memory : Bool) :
    Nat → Bool → DbState → Option (Option Nat × DbState)
  | 0, _, _ => none
  | fuel + 1, forceCreate, s =>
    let create := forceCreate || memory
    let db := s.opened
    match sqliteOpen w create s with
    | (.cantOpen, s) =>
      if create then some (none, s.close db)
      else innerOpenHandle w memory fuel true (s.close db)
    | (.error, s) => some (none, s.close db)
    | (.ok, s) =>
      match s.call w .setModes with
      | (false, s) => some (none, s.close db)
      | (true, s) =>
        match dbfilePrepare w memory fuel (some db) s with
        | none => none
        | some (false, s) => some (none, s.close db)
        | some (true, s) => some (some db, s)

/-- `dbfile_prepare`: whether it returns zero. The first statement on a connection
    that is `NULL` is a misuse, which is an error. -/
def dbfilePrepare (w : Answers) (memory : Bool) :
    Nat → Option Nat → DbState → Option (Bool × DbState)
  | 0, _, _ => none
  | _ + 1, none, s => some (false, s)
  | fuel + 1, some db, s =>
    match s.callAll w (prepareCalls memory) with
    | (false, s) => some (false, s)
    | (true, s) =>
      let cfg := dbfileGetConfig s.blocksize (s.file.getD .empty)
      match dbfileCheck cfg s.blocksize with
      | some blocksize => some (syncConfig w cfg { s with blocksize := blocksize })
      | none =>
        if memory then some (syncConfig w cfg s)
        else
          match (s.close db).call w .unlink with
          | (false, s) => some (false, s)
          | (true, s) =>
            match innerOpenHandle w memory fuel false { s with file := none } with
            | none => none
            | some (db, s) => dbfilePrepare w memory fuel db s

end

/-- `dbfile_open_handle`: the connection of the handle, or `none` for `NULL`. -/
def dbfileOpenHandle (w : Answers) (memory : Bool) (fuel : Nat) (s : DbState) :
    Option (Option Nat × DbState) :=
  match innerOpenHandle w memory fuel false s with
  | none => none
  | some (none, s) => some (none, s)
  | some (some db, s) =>
    match s.call w .prepareStmts with
    | (false, s) => some (none, s.close db)
    | (true, s) => some (some db, s)

/-! ## Current hashfiles -/

/-- What the check asks of a table: a row that is missing has this version's value. -/
structure IsCurrent (t : ConfigTable) : Prop where
  major : t.versionMajor.getD dbFileMajor = dbFileMajor
  minor : t.versionMinor.getD dbFileMinor = dbFileMinor
  hash : (t.hashType.getD hashType).toLower = hashType.toLower

/-- The block size does not matter for the check. -/
theorem dbfileCheck_eq_none_iff (blocksize : Nat) (t : ConfigTable) :
    dbfileCheck (dbfileGetConfig blocksize t) blocksize = none ↔ ¬ IsCurrent t := by
  have hcfg : ∀ cfg : DbfileConfig, dbfileCheck cfg blocksize = none ↔
      ¬ (cfg.major = dbFileMajor ∧ cfg.minor = dbFileMinor ∧
        cfg.hashType.toLower = hashType.toLower) := by
    intro cfg
    unfold dbfileCheck
    split_ifs with hversion hhash hsize
    · simp only [true_iff]
      tauto
    · simp [hhash]
    · simp only [false_iff]
      tauto
    · simp only [false_iff]
      tauto
  rw [hcfg]
  refine not_congr ⟨fun h => ⟨h.1, h.2.1, h.2.2⟩, fun h => ⟨h.major, h.minor, h.hash⟩⟩

theorem isCurrent_empty : IsCurrent .empty := ⟨rfl, rfl, rfl⟩

/-- A sync with the config that was read keeps a hashfile current, wherever it stops. -/
theorem IsCurrent.sync {t : ConfigTable} (h : IsCurrent t) (n blocksize : Nat) :
    IsCurrent (dbfileSyncConfig n (dbfileGetConfig blocksize t) t) := by
  have hall : ∀ statement ∈ configStatements (dbfileGetConfig blocksize t),
      ∀ t', IsCurrent t' → IsCurrent (statement t') := by
    intro statement hmem t' h'
    simp only [configStatements, List.mem_cons, List.not_mem_nil, or_false] at hmem
    rcases hmem with rfl | rfl | rfl | rfl | rfl
    · exact ⟨h'.major, h'.minor, h.hash⟩
    · exact ⟨h'.major, h'.minor, h'.hash⟩
    · exact ⟨h'.major, h'.minor, h'.hash⟩
    · exact ⟨h'.major, h.minor, h'.hash⟩
    · exact ⟨h.major, h'.minor, h'.hash⟩
  refine List.foldlRecOn _ _ h fun t' h' statement hmem => ?_
  exact hall statement (List.mem_of_mem_take hmem) t' h'

/-- A file that is there and current. -/
def CurrentFile (file : Option ConfigTable) : Prop := ∃ t, file = some t ∧ IsCurrent t

/-! ## Calls in a row -/

/-- Whether the calls succeed, when the first of them has the number `n`. -/
def passes (w : Answers) : List DbCall → Nat → Bool
  | [], _ => true
  | c :: cs, n => !w.faults c n && passes w cs (n + 1)

theorem callAll_eq (w : Answers) (cs : List DbCall) (s : DbState) :
    ∃ n, s.callAll w cs = (passes w cs s.calls, { s with calls := n }) := by
  induction cs generalizing s with
  | nil => exact ⟨s.calls, rfl⟩
  | cons c cs ih =>
    cases hc : w.faults c s.calls with
    | true => exact ⟨s.calls + 1, by simp [DbState.callAll, DbState.call, passes, hc]⟩
    | false =>
      obtain ⟨n, hn⟩ := ih { s with calls := s.calls + 1 }
      refine ⟨n, ?_⟩
      simp only [DbState.callAll, DbState.call, passes, hc, Bool.not_false, Bool.true_and]
      exact hn

/-- The calls between a successful open and the check. -/
def checkCalls (memory : Bool) : List DbCall := .setModes :: prepareCalls memory

/-! ## Files that are not deleted -/

section Quiet

variable {w : Answers} {memory : Bool} {s : DbState}

/-- A connection is prepared without another one when the check is not reached or the
    file is current. -/
theorem dbfilePrepare_quiet (w : Answers) {t : ConfigTable} (hfile : s.file = some t)
    (hquiet : passes w (prepareCalls memory) s.calls = true → IsCurrent t) (fuel db : Nat) :
    ∃ ok s', dbfilePrepare w memory (fuel + 1) (some db) s = some (ok, s') ∧
      s'.opened = s.opened ∧ s'.closes = s.closes ∧ (ok = true → CurrentFile s'.file) := by
  obtain ⟨n, hcalls⟩ := callAll_eq w (prepareCalls memory) s
  cases hpass : passes w (prepareCalls memory) s.calls with
  | false =>
    refine ⟨false, { s with calls := n }, ?_, rfl, rfl, by simp⟩
    simp only [dbfilePrepare, hcalls, hpass]
  | true =>
    have hcur := hquiet hpass
    cases hcheck : dbfileCheck (dbfileGetConfig s.blocksize t) s.blocksize with
    | none => exact absurd hcur ((dbfileCheck_eq_none_iff _ _).1 hcheck)
    | some blocksize =>
      let synced := syncConfig w (dbfileGetConfig s.blocksize t)
        { s with calls := n, blocksize := blocksize }
      have hsynced : synced.2.file =
          some (dbfileSyncConfig (w.synced n) (dbfileGetConfig s.blocksize t) t) := by
        simp [synced, syncConfig, hfile]
      refine ⟨synced.1, synced.2, ?_, rfl, rfl,
        fun _ => ⟨_, hsynced, hcur.sync (w.synced n) s.blocksize⟩⟩
      have hget : s.file.getD .empty = t := by rw [hfile, Option.getD_some]
      simp only [dbfilePrepare, hcalls, hpass, hget, hcheck]
      rfl

/-- A successful open whose check is not reached or passes. -/
theorem innerOpenHandle_ok {s₁ : DbState} {forceCreate : Bool}
    (hopen : sqliteOpen w (forceCreate || memory) s = (.ok, s₁)) {t : ConfigTable}
    (hfile : s₁.file = some t)
    (hquiet : passes w (checkCalls memory) s₁.calls = true → IsCurrent t) (fuel : Nat) :
    ∃ r s', innerOpenHandle w memory (fuel + 2) forceCreate s = some (r, s') ∧
      s'.opened = s₁.opened ∧
      (r = some s.opened ∧ s'.closes = s₁.closes ∧ CurrentFile s'.file ∨
        r = none ∧ s'.closes = s.opened :: s₁.closes) := by
  cases hmodes : w.faults .setModes s₁.calls with
  | true =>
    refine ⟨none, { s₁ with calls := s₁.calls + 1, closes := s.opened :: s₁.closes }, ?_, rfl,
      Or.inr ⟨rfl, rfl⟩⟩
    simp only [innerOpenHandle, hopen, DbState.call, hmodes, Bool.not_true]
    rfl
  | false =>
    have hprepare := @dbfilePrepare_quiet memory { s₁ with calls := s₁.calls + 1 } w t hfile
      (fun hpass => hquiet (by simpa [checkCalls, passes, hmodes] using hpass)) fuel s.opened
    obtain ⟨ok, s', heq, hopened, hcloses, hcur⟩ := hprepare
    cases ok with
    | false =>
      refine ⟨none, s'.close s.opened, ?_, hopened, Or.inr ⟨rfl, ?_⟩⟩
      · simp only [innerOpenHandle, hopen, DbState.call, hmodes, Bool.not_false, heq]
      · exact congrArg (s.opened :: ·) hcloses
    | true =>
      refine ⟨some s.opened, s', ?_, hopened, Or.inl ⟨rfl, hcloses, hcur rfl⟩⟩
      simp only [innerOpenHandle, hopen, DbState.call, hmodes, Bool.not_false, heq]

/-- What an open call leaves when it has opened the connections from `s.opened` on: the
    last one is returned and the file is current, or all of them are closed. -/
structure Settled (s : DbState) (r : Option Nat) (s' : DbState) : Prop where
  more : s.opened < s'.opened
  live : ∀ db, r = some db → db + 1 = s'.opened ∧ CurrentFile s'.file ∧
    s'.closes = (List.range' s.opened (db - s.opened)).reverse ++ s.closes
  gone : r = none → s'.closes = (List.range' s.opened (s'.opened - s.opened)).reverse ++ s.closes

/-- One connection. -/
theorem Settled.one {r : Option Nat} {s' : DbState} (hopened : s'.opened = s.opened + 1)
    (hr : r = some s.opened ∧ s'.closes = s.closes ∧ CurrentFile s'.file ∨
      r = none ∧ s'.closes = s.opened :: s.closes) : Settled s r s' := by
  refine ⟨by omega, ?_, ?_⟩
  · rintro db rfl
    rcases hr with ⟨hdb, hcloses, hcur⟩ | ⟨hnone, -⟩
    · cases hdb
      exact ⟨hopened.symm, hcur, by simp [hcloses]⟩
    · cases hnone
  · rintro rfl
    rcases hr with ⟨hdb, -⟩ | ⟨-, hcloses⟩
    · cases hdb
    · simp [hcloses, hopened]

/-- A connection that is closed again, in front of the others. -/
theorem Settled.retry {r : Option Nat} {s₁ s' : DbState} (hopened : s₁.opened = s.opened + 1)
    (hcloses : s₁.closes = s.opened :: s.closes) (h : Settled s₁ r s') : Settled s r s' := by
  have hmore := h.more
  have hfront : ∀ n, (List.range' s₁.opened n).reverse ++ s₁.closes =
      (List.range' s.opened (n + 1)).reverse ++ s.closes := by
    intro n
    rw [hcloses, hopened, List.range'_succ, List.reverse_cons, List.append_assoc]
    rfl
  refine ⟨by omega, ?_, ?_⟩
  · intro db hdb
    obtain ⟨hlast, hcur, hlist⟩ := h.live db hdb
    refine ⟨hlast, hcur, ?_⟩
    rw [hlist, hfront]
    congr 3
    omega
  · intro hnone
    rw [h.gone hnone, hfront]
    congr 3
    omega

/-- An open with the flag to create the file. -/
theorem innerOpenHandle_create (w : Answers)
    (hquiet : w.opens s.opened = .ok → passes w (checkCalls memory) s.calls = true →
      IsCurrent (s.file.getD .empty)) {forceCreate : Bool}
    (hcreate : (forceCreate || memory) = true) (fuel : Nat) :
    ∃ r s', innerOpenHandle w memory (fuel + 2) forceCreate s = some (r, s') ∧
      Settled s r s' := by
  cases hopens : w.opens s.opened with
  | ok =>
    have hopen : sqliteOpen w (forceCreate || memory) s =
        (.ok, { s with opened := s.opened + 1, file := some (s.file.getD .empty) }) := by
      simp [sqliteOpen, hopens, hcreate]
    obtain ⟨r, s', heq, hopened, hr⟩ := innerOpenHandle_ok hopen rfl (hquiet hopens) fuel
    exact ⟨r, s', heq, .one hopened hr⟩
  | cantOpen =>
    refine ⟨none, { s with opened := s.opened + 1, closes := s.opened :: s.closes }, ?_,
      .one rfl (Or.inr ⟨rfl, rfl⟩)⟩
    simp only [innerOpenHandle, sqliteOpen, hopens, hcreate, if_true]
    rfl
  | error =>
    refine ⟨none, { s with opened := s.opened + 1, closes := s.opened :: s.closes }, ?_,
      .one rfl (Or.inr ⟨rfl, rfl⟩)⟩
    simp only [innerOpenHandle, sqliteOpen, hopens]
    rfl

/-- An open that cannot find the file is tried again with the flag to create it. -/
theorem innerOpenHandle_cantOpen
    (hopen : sqliteOpen w false s = (.cantOpen, { s with opened := s.opened + 1 })) (fuel : Nat) :
    innerOpenHandle w false (fuel + 1) false s =
      innerOpenHandle w false fuel true
        { s with opened := s.opened + 1, closes := s.opened :: s.closes } := by
  rw [innerOpenHandle]
  simp only [Bool.or_false, hopen]
  rfl

/-- An open succeeds, at the first attempt or with the flag to create the file. -/
def Opens (w : Answers) (db : Nat) : Prop :=
  w.opens db = .ok ∨ w.opens db = .cantOpen ∧ w.opens (db + 1) = .ok

/-- An open whose check is not reached or passes. -/
theorem innerOpenHandle_quiet (w : Answers)
    (hquiet : Opens w s.opened → passes w (checkCalls memory) s.calls = true →
      IsCurrent (s.file.getD .empty)) (forceCreate : Bool) (fuel : Nat) :
    ∃ r s', innerOpenHandle w memory (fuel + 3) forceCreate s = some (r, s') ∧
      Settled s r s' := by
  cases hcreate : forceCreate || memory with
  | true => exact innerOpenHandle_create w (fun hok => hquiet (Or.inl hok)) hcreate (fuel + 1)
  | false =>
    obtain ⟨rfl, rfl⟩ := Bool.or_eq_false_iff.1 hcreate
    have hretry : sqliteOpen w false s = (.cantOpen, { s with opened := s.opened + 1 }) →
        (w.opens (s.opened + 1) = .ok → passes w (checkCalls false) s.calls = true →
          IsCurrent (s.file.getD .empty)) →
        ∃ r s', innerOpenHandle w false (fuel + 3) false s = some (r, s') ∧ Settled s r s' := by
      intro hopen hsecond
      obtain ⟨r, s', heq, hsettled⟩ := @innerOpenHandle_create false
        { s with opened := s.opened + 1, closes := s.opened :: s.closes } w hsecond true rfl fuel
      exact ⟨r, s', (innerOpenHandle_cantOpen hopen _).trans heq, hsettled.retry rfl rfl⟩
    cases hopens : w.opens s.opened with
    | ok =>
      cases hfile : s.file with
      | none =>
        refine hretry (by simp [sqliteOpen, hopens, hfile]) fun _ _ => ?_
        rw [hfile]
        exact isCurrent_empty
      | some t =>
        have hopen : sqliteOpen w (false || false) s =
            (.ok, { s with opened := s.opened + 1, file := some t }) := by
          simp [sqliteOpen, hopens, hfile]
        rw [hfile] at hquiet
        obtain ⟨r, s', heq, hopened, hr⟩ := innerOpenHandle_ok hopen rfl (hquiet (Or.inl hopens))
          (fuel + 1)
        exact ⟨r, s', heq, .one hopened hr⟩
    | cantOpen =>
      exact hretry (by simp [sqliteOpen, hopens]) fun hok => hquiet (Or.inr ⟨hopens, hok⟩)
    | error =>
      refine ⟨none, { s with opened := s.opened + 1, closes := s.opened :: s.closes }, ?_,
        .one rfl (Or.inr ⟨rfl, rfl⟩)⟩
      simp only [innerOpenHandle, sqliteOpen, hopens]
      rfl

theorem Settled.suffix {r : Option Nat} {s' : DbState} (h : Settled s r s') :
    s.closes <:+ s'.closes := by
  cases r with
  | none => exact ⟨_, (h.gone rfl).symm⟩
  | some db => exact ⟨_, (h.live db rfl).2.2.symm⟩

end Quiet

/-! ## Files that are deleted -/

section Recreated

variable {w : Answers} {s : DbState} {t : ConfigTable}

/-- A hashfile of another version, when the check is reached: the connection is closed,
    whatever comes of the new one. -/
theorem dbfilePrepare_recreates (hfile : s.file = some t) (hold : ¬ IsCurrent t)
    (hpass : passes w (prepareCalls false) s.calls = true) (fuel db : Nat) :
    ∃ ok s', dbfilePrepare w false (fuel + 4) (some db) s = some (ok, s') ∧
      s.opened ≤ s'.opened ∧ db :: s.closes <:+ s'.closes := by
  obtain ⟨n, hcalls⟩ := callAll_eq w (prepareCalls false) s
  have hget : s.file.getD .empty = t := by rw [hfile, Option.getD_some]
  have hcheck := (dbfileCheck_eq_none_iff s.blocksize t).2 hold
  cases hunlink : w.faults .unlink n with
  | true =>
    refine ⟨false, { s with closes := db :: s.closes, calls := n + 1 }, ?_, le_rfl,
      List.suffix_rfl⟩
    simp only [dbfilePrepare, hcalls, hpass, hget, hcheck, DbState.call, DbState.close, hunlink]
    rfl
  | false =>
    let s₁ : DbState := { s with closes := db :: s.closes, calls := n + 1, file := none }
    obtain ⟨r, s₂, hinner, hsettled⟩ :=
      @innerOpenHandle_quiet false s₁ w (fun _ _ => isCurrent_empty) false fuel
    have hprepare : dbfilePrepare w false (fuel + 4) (some db) s =
        dbfilePrepare w false (fuel + 3) r s₂ := by
      rw [dbfilePrepare]
      simp only [hcalls, hpass, hget, hcheck, DbState.call, DbState.close, hunlink]
      exact congrArg (fun x => match x with
        | none => none
        | some (db, s) => dbfilePrepare w false (fuel + 3) db s) hinner
    have hmore : s.opened < s₂.opened := hsettled.more
    rw [hprepare]
    -- the second preparation of the new connection; a failed open leaves `NULL`
    cases r with
    | none => exact ⟨false, s₂, by simp only [dbfilePrepare], hmore.le, hsettled.suffix⟩
    | some db' =>
      obtain ⟨-, ⟨t', hfile', hcur⟩, -⟩ := hsettled.live db' rfl
      obtain ⟨ok, s', heq, hopened, hcloses, -⟩ :=
        dbfilePrepare_quiet w hfile' (fun _ => hcur) (fuel + 2) db'
      refine ⟨ok, s', heq, by omega, ?_⟩
      rw [hcloses]
      exact hsettled.suffix

/-- The connection `db` is returned after it was closed, or closed twice. -/
def Misused (db : Nat) (r : Option Nat) (s' : DbState) : Prop :=
  db < s'.opened ∧ (r = some db ∧ db ∈ s'.closes ∨ r = none ∧ 2 ≤ s'.closes.count db)

theorem innerOpenHandle_recreates {s₁ : DbState} {forceCreate : Bool}
    (hopen : sqliteOpen w forceCreate s = (.ok, s₁)) (hopened : s₁.opened = s.opened + 1)
    (hfile : s₁.file = some t) (hold : ¬ IsCurrent t)
    (hpass : passes w (checkCalls false) s₁.calls = true) (fuel : Nat) :
    ∃ r s', innerOpenHandle w false (fuel + 5) forceCreate s = some (r, s') ∧
      Misused s.opened r s' := by
  simp only [checkCalls, passes, Bool.and_eq_true, Bool.not_eq_true'] at hpass
  obtain ⟨hmodes, hpass⟩ := hpass
  obtain ⟨ok, s', heq, hmore, hcloses⟩ := @dbfilePrepare_recreates w
    { s₁ with calls := s₁.calls + 1 } t hfile hold hpass fuel s.opened
  have hmem : s.opened ∈ s'.closes := hcloses.subset List.mem_cons_self
  have hdb : s.opened < s'.opened := by
    have : s₁.opened ≤ s'.opened := hmore
    omega
  cases ok with
  | true =>
    refine ⟨some s.opened, s', ?_, hdb, Or.inl ⟨rfl, hmem⟩⟩
    simp only [innerOpenHandle, Bool.or_false, hopen, DbState.call, hmodes, Bool.not_false, heq]
  | false =>
    refine ⟨none, s'.close s.opened, ?_, hdb, Or.inr ⟨rfl, ?_⟩⟩
    · simp only [innerOpenHandle, Bool.or_false, hopen, DbState.call, hmodes, Bool.not_false, heq]
    · have hpos := List.count_pos_iff.2 hmem
      simp only [DbState.close, List.count_cons_self]
      omega

end Recreated

/-! ## The handle -/

/-- A handle that is returned is live and its hashfile passes the check; when none is
    returned, every connection was closed once. -/
structure Sound (r : Option Nat) (s' : DbState) : Prop where
  live : ∀ db, r = some db → db < s'.opened ∧ db ∉ s'.closes ∧ ∃ t, s'.file = some t ∧
    (dbfileCheck (dbfileGetConfig s'.blocksize t) s'.blocksize).isSome
  gone : r = none → ∀ db < s'.opened, s'.closes.count db = 1

/-- The open gets as far as the check with a hashfile that the check rejects: it is
    opened, at the first attempt or with the flag to create it, and the calls in front of
    the check succeed. -/
structure Recreates (w : Answers) (file : Option ConfigTable) (blocksize : Nat) : Prop where
  rejected : ∃ t, file = some t ∧ dbfileCheck (dbfileGetConfig blocksize t) blocksize = none
  opened : Opens w 0
  reached : passes w (checkCalls false) 0 = true

section Handle

variable {w : Answers} {file : Option ConfigTable} {blocksize : Nat} {r : Option Nat}
  {s s₁ s' : DbState} {memory : Bool} {fuel : Nat}

theorem Settled.sound (h : Settled (.start file blocksize) r s') : Sound r s' := by
  constructor
  · intro db hdb
    obtain ⟨hlast, ⟨t, hfile, hcur⟩, hcloses⟩ := h.live db hdb
    refine ⟨by omega, ?_, t, hfile, ?_⟩
    · simp [hcloses, DbState.start, List.mem_range']
    · rw [Option.isSome_iff_ne_none, ne_eq, dbfileCheck_eq_none_iff, not_not]
      exact hcur
  · intro hnone db hdb
    have hcloses : s'.closes = (List.range s'.opened).reverse := by
      simpa [DbState.start, List.range_eq_range'] using h.gone hnone
    rw [hcloses, List.count_reverse]
    exact List.count_eq_one_of_mem List.nodup_range (List.mem_range.2 hdb)

theorem Misused.not_sound {db : Nat} (h : Misused db r s') : ¬ Sound r s' := by
  obtain ⟨hdb, ⟨hr, hmem⟩ | ⟨hr, htwice⟩⟩ := h
  · exact fun hs => (hs.live db hr).2.1 hmem
  · intro hs
    have := hs.gone hr db hdb
    omega

/-- The statements of the handle are prepared, or its connection is closed. -/
theorem dbfileOpenHandle_settled (h : innerOpenHandle w memory fuel false s = some (r, s₁))
    (hsettled : Settled s r s₁) :
    ∃ r s', dbfileOpenHandle w memory fuel s = some (r, s') ∧ Settled s r s' := by
  cases r with
  | none => exact ⟨none, s₁, by simp only [dbfileOpenHandle, h], hsettled⟩
  | some db =>
    obtain ⟨hlast, hcur, hcloses⟩ := hsettled.live db rfl
    cases hstmts : w.faults .prepareStmts s₁.calls with
    | false =>
      refine ⟨some db, { s₁ with calls := s₁.calls + 1 }, ?_, hsettled.more, hsettled.live, by simp⟩
      simp only [dbfileOpenHandle, h, DbState.call, hstmts, Bool.not_false]
    | true =>
      refine ⟨none, { s₁ with calls := s₁.calls + 1, closes := db :: s₁.closes }, ?_,
        hsettled.more, by simp, fun _ => ?_⟩
      · simp only [dbfileOpenHandle, h, DbState.call, hstmts, Bool.not_true]
        rfl
      · have hmore := hsettled.more
        have hrange : s₁.opened - s.opened = (db - s.opened) + 1 := by omega
        have hend : s.opened + (db - s.opened) = db := by omega
        simp only [hcloses, hrange, List.range'_concat, Nat.one_mul, hend, List.reverse_append,
          List.reverse_singleton, List.cons_append, List.nil_append]

theorem dbfileOpenHandle_misused {db : Nat}
    (h : innerOpenHandle w memory fuel false s = some (r, s₁)) (hbad : Misused db r s₁) :
    ∃ r s', dbfileOpenHandle w memory fuel s = some (r, s') ∧ Misused db r s' := by
  obtain ⟨hdb, ⟨rfl, hmem⟩ | ⟨rfl, htwice⟩⟩ := hbad
  · cases hstmts : w.faults .prepareStmts s₁.calls with
    | false =>
      refine ⟨some db, { s₁ with calls := s₁.calls + 1 }, ?_, hdb, Or.inl ⟨rfl, hmem⟩⟩
      simp only [dbfileOpenHandle, h, DbState.call, hstmts, Bool.not_false]
    | true =>
      refine ⟨none, { s₁ with calls := s₁.calls + 1, closes := db :: s₁.closes }, ?_, hdb,
        Or.inr ⟨rfl, ?_⟩⟩
      · simp only [dbfileOpenHandle, h, DbState.call, hstmts, Bool.not_true]
        rfl
      · have hpos := List.count_pos_iff.2 hmem
        rw [List.count_cons_self]
        omega
  · exact ⟨none, s₁, by simp only [dbfileOpenHandle, h], hdb, Or.inr ⟨rfl, htwice⟩⟩

/-- A hashfile that the check rejects, when the check is reached. -/
theorem Recreates.misused (h : Recreates w file blocksize) (fuel : Nat) :
    ∃ db r s', innerOpenHandle w false (fuel + 6) false (.start file blocksize) = some (r, s') ∧
      Misused db r s' := by
  obtain ⟨⟨t, rfl, hcheck⟩, hopens, hpass⟩ := h
  have hold := (dbfileCheck_eq_none_iff blocksize t).1 hcheck
  rcases hopens with hfirst | ⟨hfirst, hsecond⟩
  · have hopen : sqliteOpen w false (.start (some t) blocksize) =
        (.ok, { DbState.start (some t) blocksize with opened := 1 }) := by
      simp [sqliteOpen, DbState.start, hfirst]
    exact ⟨0, innerOpenHandle_recreates hopen rfl rfl hold hpass (fuel + 1)⟩
  · have hcant : sqliteOpen w false (.start (some t) blocksize) =
        (.cantOpen, { DbState.start (some t) blocksize with opened := 0 + 1 }) := by
      simp [sqliteOpen, DbState.start, hfirst]
    have hopen : sqliteOpen w true { DbState.start (some t) blocksize with
        opened := 1, closes := [0] } =
        (.ok, { DbState.start (some t) blocksize with opened := 2, closes := [0] }) := by
      simp [sqliteOpen, DbState.start, hsecond]
    obtain ⟨r, s', heq, hbad⟩ := innerOpenHandle_recreates hopen rfl rfl hold hpass fuel
    exact ⟨1, r, s', (innerOpenHandle_cantOpen hcant _).trans heq, hbad⟩

/-- Without that, every connection is accounted for. -/
theorem settled_of_not_recreates (h : ¬ Recreates w file blocksize) (fuel : Nat) :
    ∃ r s', innerOpenHandle w false (fuel + 3) false (.start file blocksize) = some (r, s') ∧
      Settled (.start file blocksize) r s' := by
  refine innerOpenHandle_quiet w (fun hopens hpass => ?_) false fuel
  by_contra hold
  cases file with
  | none => exact hold isCurrent_empty
  | some t => exact h ⟨⟨t, rfl, (dbfileCheck_eq_none_iff blocksize t).2 hold⟩, hopens, hpass⟩

/-- The shared memory database is never deleted, and a current one stays so. -/
theorem dbfileOpenHandle_memory (w : Answers) (hcur : IsCurrent (file.getD .empty)) (fuel : Nat) :
    ∃ r s', dbfileOpenHandle w true (fuel + 3) (.start file blocksize) = some (r, s') ∧
      Sound r s' := by
  obtain ⟨r, s₁, heq, hsettled⟩ := @innerOpenHandle_quiet true (.start file blocksize) w
    (fun _ _ => hcur) false fuel
  obtain ⟨r, s', heq, hsettled⟩ := dbfileOpenHandle_settled heq hsettled
  exact ⟨r, s', heq, hsettled.sound⟩

end Handle

/-- A hashfile of version 3.0. -/
def oldHashfile : ConfigTable := ⟨some 131072, some hashType, some 3, some 0, some 0⟩

def allSucceed : Answers := ⟨fun _ => .ok, fun _ _ => false, fun _ => 5⟩

end Opening

end Duperemove
