-- SUMMARY: `check_file` as a machine over the locked filesystem: what a sequence of calls accepts, and on which filesystem it lies.
import Mathlib.Data.List.Basic

/-!
# The locked filesystem

A run works on one filesystem. Its UUID comes from the hashfile, or from the first
path that is checked, and its device number is filled in later. `check_file` has a
different test for each state of these fields. What the system answers to a call
is part of the call: whether the config can be read, what the lookups of
`get_uuid` find, and whether `statfs` works. The UUID of the filesystem that holds
the path is there only to be compared with.
-/

namespace Duperemove

/-- `uuid_t` -/
abbrev Uuid := Vector UInt8 16

def nullUuid : Uuid := Vector.replicate 16 0

/-! ## Lookups -/

/-- The file types that `check_file` tells apart. -/
inductive FileMode where
  | reg
  | dir
  | other
  deriving DecidableEq, Repr

/-- What the system answers while `get_uuid` looks up a path: whether it opens,
    whether `statfs` works, `BTRFS_IOC_FS_INFO`, the device of `statx`, the mount
    of a device with its source, whether there is memory, the tag of a device in
    libblkid, and the UUID that a text stands for. -/
structure FsLookups where
  opens : Bool
  statfs : Bool
  fsInfo : Option Uuid
  statx : Option (Nat × Nat)
  findDevno : Nat × Nat → Option (Option String)
  memory : Bool
  tagValue : String → Option String
  parse : String → Option Uuid

/-- A call of `check_file`. `dev` is `stx_to_dev` of its `statx`, `statfsAgain` is
    whether `statfs` works when `check_file` itself asks for the type of the
    filesystem, and `fsUuid` and `onBtrfs` are the truth about it. -/
structure CheckCall where
  excluded : Bool
  mode : FileMode
  size : Nat
  parentChecked : Bool
  dev : Nat
  configRead : Bool
  lookups : FsLookups
  statfsAgain : Bool
  fsUuid : Uuid
  onBtrfs : Bool

/-- `is_btrfs` as a truth value. When `statfs` fails it returns `errno`, which is not
    zero. -/
def isBtrfs (onBtrfs works : Bool) : Bool := !works || onBtrfs

/-- `extract_first_device` -/
def extractFirstDevice (memory : Bool) (fsSource : Option String) : Option String :=
  match fsSource with
  | none => none
  | some source => if memory then some (source.takeWhile (· != ':')).toString else none

/-- `get_uuid`: whether it succeeds, and what is in the variable of the caller. The
    result of `uuid_parse` is not checked. -/
def getUuid (call : CheckCall) (uuid : Uuid) : Bool × Uuid :=
  let l := call.lookups
  if !l.opens then (false, uuid)
  else if isBtrfs call.onBtrfs l.statfs then
    match l.fsInfo with
    | none => (false, uuid)
    | some found => (true, found)
  else
    match l.statx with
    | none => (false, uuid)
    | some (major, minor) =>
      if major = 0 then (false, uuid)
      else
        match l.findDevno (major, minor) with
        | none => (false, uuid)
        | some fsSource =>
          match extractFirstDevice l.memory fsSource with
          | none => (false, uuid)
          | some device =>
            match l.tagValue device with
            | none => (false, uuid)
            | some text => (true, (l.parse text).getD uuid)

/-! ## `check_file` -/

structure LockedFs where
  uuid : Uuid
  dev : Nat
  isBtrfs : Bool
  deriving DecidableEq, Repr

/-- The global before the first call. -/
def LockedFs.zero : LockedFs := ⟨nullUuid, 0, false⟩

/-- The tests in front of those for the locked filesystem: the value that is returned
    there, if one is. -/
def checkPath (call : CheckCall) : Option Bool :=
  if call.excluded then some false
  else if call.mode ≠ .reg ∧ call.mode ≠ .dir then some false
  else if call.mode = .reg ∧ call.size = 0 then some false
  else if call.mode = .reg ∧ call.parentChecked = true then some true
  else none

/-- The branch that locks on the path. -/
def lockOnPath (fs : LockedFs) (call : CheckCall) : Bool × LockedFs :=
  match getUuid call fs.uuid with
  | (false, uuid) => (false, { fs with uuid := uuid })
  | (true, uuid) => (true, ⟨uuid, call.dev, isBtrfs call.onBtrfs call.statfsAgain⟩)

/-- The branches for a UUID that is known. -/
def checkLocked (fs : LockedFs) (call : CheckCall) : Bool × LockedFs :=
  if fs.dev = 0 then
    match getUuid call nullUuid with
    | (false, _) => (false, fs)
    | (true, uuid) =>
      if uuid ≠ fs.uuid then (false, fs)
      else (true, { fs with dev := call.dev, isBtrfs := isBtrfs call.onBtrfs call.statfsAgain })
  else if !fs.isBtrfs then (decide (fs.dev = call.dev), fs)
  else
    match getUuid call nullUuid with
    | (false, _) => (false, fs)
    | (true, uuid) => (decide (uuid = fs.uuid), fs)

/-- `check_file` with a hashfile whose config has the UUID `cfgUuid`. A config that
    cannot be read returns 1. -/
def checkFile (cfgUuid : Uuid) (fs : LockedFs) (call : CheckCall) : Bool × LockedFs :=
  match checkPath call with
  | some ret => (ret, fs)
  | none =>
    if fs.uuid = nullUuid then
      if !call.configRead then (true, fs)
      else if cfgUuid ≠ nullUuid then checkLocked { fs with uuid := cfgUuid } call
      else lockOnPath fs call
    else checkLocked fs call

/-- The global after a sequence of calls. -/
def checkFiles (cfgUuid : Uuid) (fs : LockedFs) (calls : List CheckCall) : LockedFs :=
  calls.foldl (fun fs call => (checkFile cfgUuid fs call).2) fs

/-! ## What is accepted -/

/-- The call keeps a UUID that is set, and accepts only a path of that filesystem. -/
structure Locks (cfgUuid : Uuid) (fs : LockedFs) (call : CheckCall) : Prop where
  keeps : fs.uuid ≠ nullUuid → (checkFile cfgUuid fs call).2.uuid = fs.uuid
  accepts : (checkFile cfgUuid fs call).1 = true →
    (checkFile cfgUuid fs call).2.uuid = call.fsUuid

/-- The call needs the config and cannot read it, for a path on a filesystem that has a
    UUID. -/
structure MissesConfig (fs : LockedFs) (call : CheckCall) : Prop where
  asks : checkPath call = none
  unlocked : fs.uuid = nullUuid
  unread : call.configRead = false
  known : call.fsUuid ≠ nullUuid

/-- What is assumed of the system: a successful `get_uuid` reports the UUID of the
    filesystem, and a device number of a filesystem other than btrfs belongs to no
    other filesystem. -/
structure TrueLookups (calls : List CheckCall) : Prop where
  uuid : ∀ call ∈ calls, ∀ u, (getUuid call u).1 = true → (getUuid call u).2 = call.fsUuid
  dev : ∀ a ∈ calls, ∀ b ∈ calls, a.onBtrfs = false → b.dev = a.dev → b.fsUuid = a.fsUuid

/-- The device number is not filled in, or it is that of a path that was accepted. -/
def LockedFs.Anchored (calls : List CheckCall) (fs : LockedFs) : Prop :=
  fs.dev = 0 ∨ ∃ a ∈ calls, a.fsUuid = fs.uuid ∧ a.dev = fs.dev ∧
    (fs.isBtrfs = false → a.onBtrfs = false)

/-- What holds of the global between the calls. A path is locked on only if the config
    has no UUID. -/
structure LockedFs.Sound (cfgUuid : Uuid) (calls : List CheckCall) (fs : LockedFs) : Prop where
  anchored : fs.Anchored calls
  config : fs.uuid = nullUuid → fs.dev = 0 ∨ cfgUuid = nullUuid

section Checks

variable {cfgUuid : Uuid} {calls : List CheckCall} {fs : LockedFs} {call : CheckCall}

theorem onBtrfs_of_not_isBtrfs {onBtrfs works : Bool} (h : isBtrfs onBtrfs works = false) :
    onBtrfs = false := by
  simp only [isBtrfs, Bool.or_eq_false_iff] at h
  exact h.2

/-- `get_uuid` leaves the variable alone when it fails. -/
theorem getUuid_of_fails {uuid : Uuid} (h : (getUuid call uuid).1 = false) :
    (getUuid call uuid).2 = uuid := by
  revert h
  unfold getUuid
  simp only
  repeat' split
  all_goals simp

/-- Locking on a path. -/
theorem lockOnPath_spec (htrue : TrueLookups calls) (hcall : call ∈ calls)
    (hsound : fs.Sound cfgUuid calls) (hcfg : cfgUuid = nullUuid) :
    ((lockOnPath fs call).1 = true → (lockOnPath fs call).2.uuid = call.fsUuid) ∧
      (lockOnPath fs call).2.Sound cfgUuid calls := by
  have hfails := @getUuid_of_fails call fs.uuid
  have hfound := htrue.uuid call hcall fs.uuid
  unfold lockOnPath
  cases hget : getUuid call fs.uuid with
  | mk ok uuid =>
    rw [hget] at hfails hfound
    cases ok with
    | false =>
      have hsame : uuid = fs.uuid := hfails rfl
      subst hsame
      exact ⟨fun h => (by cases h), hsound⟩
    | true =>
      have huuid : uuid = call.fsUuid := hfound rfl
      refine ⟨fun _ => huuid, .inr ⟨call, hcall, huuid.symm, rfl, onBtrfs_of_not_isBtrfs⟩, ?_⟩
      exact fun _ => .inr hcfg

/-- The tests for a UUID that is known. -/
theorem checkLocked_spec (htrue : TrueLookups calls) (hcall : call ∈ calls)
    (hanchored : fs.Anchored calls) :
    (checkLocked fs call).2.uuid = fs.uuid ∧
      ((checkLocked fs call).1 = true → fs.uuid = call.fsUuid) ∧
      (checkLocked fs call).2.Anchored calls := by
  have hfound := htrue.uuid call hcall nullUuid
  unfold checkLocked
  split
  case isTrue hdev =>
    cases hget : getUuid call nullUuid with
    | mk ok uuid =>
      rw [hget] at hfound
      cases ok with
      | false => exact ⟨rfl, fun h => (by cases h), hanchored⟩
      | true =>
        have huuid : uuid = call.fsUuid := hfound rfl
        simp only
        split
        · exact ⟨rfl, fun h => (by cases h), hanchored⟩
        · rename_i hsame
          have hlocked : fs.uuid = call.fsUuid := (Decidable.not_not.1 hsame).symm.trans huuid
          exact ⟨rfl, fun _ => hlocked,
            .inr ⟨call, hcall, hlocked.symm, rfl, onBtrfs_of_not_isBtrfs⟩⟩
  case isFalse hdev =>
    split
    case isTrue hbtrfs =>
      refine ⟨rfl, fun hret => ?_, hanchored⟩
      obtain ⟨a, ha, huuid, hsame, htype⟩ := hanchored.resolve_left hdev
      have hequal : fs.dev = call.dev := of_decide_eq_true hret
      have hother := htype (by simpa using hbtrfs)
      rw [← huuid]
      exact (htrue.dev a ha call hcall hother (hequal.symm.trans hsame.symm)).symm
    case isFalse hbtrfs =>
      cases hget : getUuid call nullUuid with
      | mk ok uuid =>
        rw [hget] at hfound
        cases ok with
        | false => exact ⟨rfl, fun h => (by cases h), hanchored⟩
        | true =>
          have huuid : uuid = call.fsUuid := hfound rfl
          exact ⟨rfl, fun hret => (of_decide_eq_true hret).symm.trans huuid, hanchored⟩

/-- Only a regular file in a directory that was checked is accepted before the locked
    filesystem is looked at. -/
theorem checkPath_ne_some_true (h : call.mode = .dir ∨ call.parentChecked = false) :
    checkPath call ≠ some true := by
  unfold checkPath
  repeat' split
  all_goals simp
  rename_i hreg
  rcases h with hdir | hparent
  · rw [hdir] at hreg
    exact absurd hreg.1 (by decide)
  · rw [hparent] at hreg
    exact absurd hreg.2 (by decide)

theorem LockedFs.Sound.checkLocked (htrue : TrueLookups calls) (hcall : call ∈ calls)
    (hanchored : fs.Anchored calls) (hset : fs.uuid ≠ nullUuid) :
    (checkLocked fs call).2.Sound cfgUuid calls := by
  obtain ⟨huuid, -, hstill⟩ := checkLocked_spec htrue hcall hanchored
  exact ⟨hstill, fun hnull => absurd (huuid.symm.trans hnull) hset⟩

/-- The UUID of the config names no device, so the device number is still missing. -/
theorem LockedFs.Sound.withConfig (h : fs.Sound cfgUuid calls) (hnull : fs.uuid = nullUuid)
    (hcfg : cfgUuid ≠ nullUuid) : ({ fs with uuid := cfgUuid } : LockedFs).Anchored calls :=
  .inl ((h.config hnull).resolve_right hcfg)

/-- Every call keeps the global sound. -/
theorem LockedFs.Sound.checkFile (h : fs.Sound cfgUuid calls) (htrue : TrueLookups calls)
    (hcall : call ∈ calls) : (checkFile cfgUuid fs call).2.Sound cfgUuid calls := by
  unfold Duperemove.checkFile
  split
  · exact h
  · split
    case isTrue hnull =>
      split
      · exact h
      · split
        case isTrue hcfg => exact .checkLocked htrue hcall (h.withConfig hnull hcfg) hcfg
        case isFalse hcfg =>
          exact (lockOnPath_spec htrue hcall h (Decidable.not_not.1 hcfg)).2
    case isFalse hset => exact .checkLocked htrue hcall h.anchored hset

/-- A call does what it should unless it misses the config. -/
theorem locks_iff (h : fs.Sound cfgUuid calls) (htrue : TrueLookups calls) (hcall : call ∈ calls)
    (hparent : call.mode = .dir ∨ call.parentChecked = false) :
    Locks cfgUuid fs call ↔ ¬ MissesConfig fs call := by
  constructor
  · rintro ⟨-, haccepts⟩ ⟨hasks, hnull, hunread, hknown⟩
    simp only [checkFile, hasks, hnull, hunread, if_true, Bool.not_false] at haccepts
    exact hknown (haccepts trivial).symm
  · intro hmiss
    cases hpath : checkPath call with
    | some ret =>
      cases ret with
      | true => exact absurd hpath (checkPath_ne_some_true hparent)
      | false => constructor <;> simp [checkFile, hpath]
    | none =>
      by_cases hnull : fs.uuid = nullUuid
      · refine ⟨fun hset => absurd hnull hset, ?_⟩
        cases hread : call.configRead with
        | false =>
          -- The path is accepted with the null UUID, which must then be its own.
          have hown : call.fsUuid = nullUuid := by
            by_contra hknown
            exact hmiss ⟨hpath, hnull, hread, hknown⟩
          simp [checkFile, hpath, hnull, hread, hown]
        | true =>
          by_cases hcfg : cfgUuid = nullUuid
          · have hspec := (lockOnPath_spec htrue hcall h hcfg).1
            simpa [checkFile, hpath, hnull, hread, hcfg] using hspec
          · obtain ⟨huuid, haccepts, -⟩ := checkLocked_spec htrue hcall (h.withConfig hnull hcfg)
            simp only [checkFile, hpath, hnull, hread, hcfg, if_true, Bool.not_true, ne_eq,
              not_false_eq_true, Bool.false_eq_true, if_false]
            exact fun hret => huuid.trans (haccepts hret)
      · obtain ⟨huuid, haccepts, -⟩ := checkLocked_spec htrue hcall h.anchored
        constructor
        · simp only [checkFile, hpath, hnull, if_false]
          exact fun _ => huuid
        · simp only [checkFile, hpath, hnull, if_false]
          exact fun hret => huuid.trans (haccepts hret)

/-- The global is sound after every sequence of calls. -/
theorem checkFiles_sound (htrue : TrueLookups calls) (h : fs.Sound cfgUuid calls)
    {pre : List CheckCall} (hpre : ∀ call ∈ pre, call ∈ calls) :
    (checkFiles cfgUuid fs pre).Sound cfgUuid calls := by
  induction pre generalizing fs with
  | nil => exact h
  | cons call pre ih =>
    exact ih (h.checkFile htrue (hpre call List.mem_cons_self))
      fun call hcall => hpre call (List.mem_cons_of_mem _ hcall)

end Checks

/-- Every call of a sequence keeps the UUID and accepts only paths on the locked
    filesystem, if and only if no call is made without a UUID while the config cannot be
    read. -/
theorem checkFiles_locks_iff {calls : List CheckCall} (htrue : TrueLookups calls)
    (hparent : ∀ call ∈ calls, call.mode = .dir ∨ call.parentChecked = false) (cfgUuid : Uuid) :
    (∀ pre call post, calls = pre ++ call :: post →
      Locks cfgUuid (checkFiles cfgUuid .zero pre) call) ↔
    ∀ pre call post, calls = pre ++ call :: post →
      ¬ MissesConfig (checkFiles cfgUuid .zero pre) call := by
  have hzero : LockedFs.zero.Sound cfgUuid calls := ⟨.inl rfl, fun _ => .inl rfl⟩
  refine forall_congr' fun pre => forall_congr' fun call => forall_congr' fun post =>
    forall_congr' fun hsplit => ?_
  have hcall : call ∈ calls := by simp [hsplit]
  refine locks_iff (checkFiles_sound htrue hzero ?_) htrue hcall (hparent call hcall)
  intro call' hcall'
  simp [hsplit, hcall']

/-- A UUID that is not null. -/
def sampleUuid : Uuid := Vector.replicate 16 7

/-- A directory on btrfs where every lookup works, with a config that can be read or
    not. -/
def btrfsDir (configRead : Bool) : CheckCall where
  excluded := false
  mode := .dir
  size := 0
  parentChecked := false
  dev := 42
  configRead := configRead
  lookups :=
    { opens := true
      statfs := true
      fsInfo := some sampleUuid
      statx := none
      findDevno := fun _ => none
      memory := true
      tagValue := fun _ => none
      parse := fun _ => none }
  statfsAgain := true
  fsUuid := sampleUuid
  onBtrfs := true

theorem trueLookups_btrfsDir (configRead : Bool) : TrueLookups [btrfsDir configRead] where
  uuid := by
    intro call hcall u _
    cases List.mem_singleton.1 hcall
    rfl
  dev := by
    intro a ha b hb _ _
    cases List.mem_singleton.1 ha
    cases List.mem_singleton.1 hb
    rfl

/-- A directory on another btrfs filesystem. -/
def otherDir : CheckCall :=
  { btrfsDir true with
    dev := 43
    lookups := { (btrfsDir true).lookups with fsInfo := some (Vector.replicate 16 8) }
    fsUuid := Vector.replicate 16 8 }

/-- The first of two directories is locked on, and the second one refused. -/
theorem checkFiles_locks_twoDirs :
    (checkFile nullUuid .zero (btrfsDir true)).1 = true ∧
      (checkFiles nullUuid .zero [btrfsDir true]).uuid = sampleUuid ∧
      (checkFile nullUuid (checkFiles nullUuid .zero [btrfsDir true]) otherDir).1 = false ∧
      Locks nullUuid (checkFiles nullUuid .zero []) (btrfsDir true) ∧
      Locks nullUuid (checkFiles nullUuid .zero [btrfsDir true]) otherDir := by
  have hcases : ∀ call ∈ [btrfsDir true, otherDir], call = btrfsDir true ∨ call = otherDir := by
    intro call hcall
    rwa [List.mem_pair] at hcall
  have htrue : TrueLookups [btrfsDir true, otherDir] := by
    constructor
    · intro call hcall u _
      obtain rfl | rfl := hcases call hcall <;> rfl
    · intro a ha b _ hother _
      obtain rfl | rfl := hcases a ha <;> cases hother
  have hlocks := (checkFiles_locks_iff htrue ?_ nullUuid).2 ?_
  · exact ⟨by decide, by decide, by decide, hlocks [] _ [otherDir] rfl,
      hlocks [btrfsDir true] _ [] rfl⟩
  · intro call hcall
    obtain rfl | rfl := hcases call hcall <;> exact .inl rfl
  · intro pre call post hsplit hmiss
    have hcall : call ∈ [btrfsDir true, otherDir] := by simp [hsplit]
    have hunread := hmiss.unread
    obtain rfl | rfl := hcases call hcall <;> cases hunread

/-- A directory is accepted without a UUID when the config cannot be read. -/
theorem accepts_unlocked_btrfsDir :
    TrueLookups [btrfsDir false] ∧ (btrfsDir false).mode = .dir ∧
      (checkFile nullUuid .zero (btrfsDir false)).1 = true ∧
      (checkFile nullUuid .zero (btrfsDir false)).2.uuid ≠ (btrfsDir false).fsUuid ∧
      ¬ Locks nullUuid (checkFiles nullUuid .zero []) (btrfsDir false) := by
  have hother : (checkFile nullUuid .zero (btrfsDir false)).2.uuid ≠ (btrfsDir false).fsUuid := by
    decide
  have htrue : (checkFile nullUuid .zero (btrfsDir false)).1 = true := by decide
  exact ⟨trueLookups_btrfsDir false, rfl, htrue, hother, fun h => hother (h.accepts htrue)⟩

end Duperemove
