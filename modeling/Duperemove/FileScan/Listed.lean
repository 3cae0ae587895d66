-- SUMMARY: What a run lists over all its arguments: exactly the files of their trees that pass on the locked filesystem, none of them twice, and never the hashfile.
import Duperemove.FileScan.WalkDir
import Mathlib.Data.List.Nodup

/-!
# What a run lists

The arguments are scanned one after the other, and the first one that is accepted settles the
filesystem for the others. An error of `__scan_file` ends the run, and so does an abort.
-/

namespace Duperemove

variable {σ : Type}

-- ---------------------------------------------------------------------------
-- The arguments of a run
-- ---------------------------------------------------------------------------

/-- The call of `check_file` for an argument that can be stated. -/
def Argument.check (o : ListOptions) (a : Argument) : Option (String × StatX × CheckCall) :=
  match a.realpath, a.stat.filter fun st => st.mask &&& statxBasicStats ≠ 0 with
  | some path, some st => some (path, st, checkCall o path st a.answers false)
  | _, _ => none

/-- The locked filesystem behind an argument. -/
def lockAfter (o : ListOptions) (fs : LockedFs) (a : Argument) : LockedFs :=
  match a.check o with
  | some (_, _, call) => (checkFile o.cfgUuid fs call).2
  | none => fs

/-- What arrives from an argument. -/
def Argument.arrivals (o : ListOptions) (fs : LockedFs) (a : Argument) : List Arrival :=
  match a.check o with
  | some (path, st, call) =>
    if (checkFile o.cfgUuid fs call).1 = false then []
    else if st.mode = .reg then [.file ⟨path, st⟩]
    else if a.opens then Duperemove.arrivals o (lockAfter o fs a) path a.below
    else []
  | none => []

/-- What arrives in a run. -/
def runArrivals (o : ListOptions) (fs : LockedFs) : List Argument → List Arrival
  | [] => []
  | a :: args => a.arrivals o fs ++ runArrivals o (lockAfter o fs a) args

/-- What is assumed of the system when an argument is checked: the config can be read, the
    filesystem has a device, and a UUID that is found is not null. -/
structure CheckCall.Tells (call : CheckCall) : Prop where
  configRead : call.configRead = true
  dev : call.dev ≠ 0
  uuid : ∀ u, (getUuid call u).1 = true → (getUuid call u).2 ≠ nullUuid

def Argument.Tells (o : ListOptions) (a : Argument) : Prop :=
  ∀ path st call, a.check o = some (path, st, call) → call.Tells

section Run

variable {o : ListOptions} {scan : σ → FoundFile → σ × Bool} {fs : LockedFs} {call : CheckCall}
  {a : Argument} {args : List Argument} {path : String} {st : StatX} {s : σ}

theorem lockOnPath_settled (htells : call.Tells) (haccepts : (lockOnPath fs call).1 = true) :
    (lockOnPath fs call).2.Settled := by
  have huuid := htells.uuid fs.uuid
  rw [lockOnPath] at haccepts ⊢
  cases hget : getUuid call fs.uuid with
  | mk ok uuid =>
    rw [hget] at haccepts huuid
    cases ok with
    | false => cases haccepts
    | true => exact ⟨huuid rfl, htells.dev⟩

theorem checkLocked_settled (htells : call.Tells) (hset : fs.uuid ≠ nullUuid)
    (haccepts : (checkLocked fs call).1 = true) : (checkLocked fs call).2.Settled := by
  by_cases hdev : fs.dev = 0
  · rw [checkLocked, if_pos hdev] at haccepts ⊢
    cases hget : getUuid call nullUuid with
    | mk ok uuid =>
      rw [hget] at haccepts
      cases ok with
      | false => cases haccepts
      | true =>
        dsimp only at haccepts ⊢
        split at haccepts
        · cases haccepts
        · next hsame =>
          rw [if_neg hsame]
          exact ⟨hset, htells.dev⟩
  · have hsettled : fs.Settled := ⟨hset, hdev⟩
    rw [hsettled.checkLocked]
    exact hsettled

/-- An argument that is accepted settles the filesystem. -/
theorem checkFile_settled (o : ListOptions) (fs : LockedFs) (htells : call.Tells)
    (hparent : call.parentChecked = false)
    (haccepts : (checkFile o.cfgUuid fs call).1 = true) :
    (checkFile o.cfgUuid fs call).2.Settled := by
  rw [checkFile] at haccepts ⊢
  cases hpath : checkPath call with
  | some ret =>
    rw [hpath] at haccepts
    obtain rfl : ret = true := haccepts
    exact absurd hpath (checkPath_ne_some_true (.inr hparent))
  | none =>
    rw [hpath] at haccepts
    simp only [htells.configRead, Bool.not_true, Bool.false_eq_true, if_false] at haccepts ⊢
    split at haccepts
    · next hnull =>
      rw [if_pos hnull]
      split at haccepts
      · next hcfg =>
        rw [if_pos hcfg]
        exact checkLocked_settled htells hcfg haccepts
      · next hcfg =>
        rw [if_neg hcfg]
        exact lockOnPath_settled htells haccepts
    · next hset =>
      rw [if_neg hset]
      exact checkLocked_settled htells hset haccepts

/-- What an argument hands out. -/
theorem scanFile_eq (htells : a.Tells o) (s : σ) :
    scanFile o scan a fs s = (handOut scan (a.arrivals o fs) s).map fun (fatal, s) =>
      (fatal, lockAfter o fs a, s) := by
  have hcheck : a.check o = match a.realpath, a.stat.filter
      (fun st => st.mask &&& statxBasicStats ≠ 0) with
    | some path, some st => some (path, st, checkCall o path st a.answers false)
    | _, _ => none := rfl
  rw [scanFile, Argument.arrivals, lockAfter]
  cases hpath : a.realpath with
  | none =>
    rw [hpath] at hcheck
    rw [hcheck]
    rfl
  | some path =>
    cases hstat : a.stat.filter fun st => st.mask &&& statxBasicStats ≠ 0 with
    | none =>
      rw [hpath, hstat] at hcheck
      rw [hcheck]
      rfl
    | some st =>
      rw [hpath, hstat] at hcheck
      rw [hcheck]
      have hsettled := checkFile_settled o fs (htells path st _ hcheck) rfl
      dsimp only
      cases haccepts : checkFile o.cfgUuid fs (checkCall o path st a.answers false) with
      | mk ok fs' =>
      rw [haccepts] at hsettled
      cases ok with
      | false => rfl
      | true =>
        dsimp only
        rw [if_neg Bool.true_eq_false.mp]
        split
        · next hmode =>
          rw [scanRegular, if_neg (not_not_intro hmode)]
          simp only [handOut]
          cases scan s ⟨path, st⟩ with
          | mk s fatal => cases fatal <;> rfl
        · split
          · exact walkDir_eq (hsettled rfl) path a.below s
          · rfl

/-- A run hands out what arrives, in the order of the arguments. -/
theorem scanFilesFromCmdline_eq (htells : ∀ a ∈ args, a.Tells o) (fs : LockedFs) (s : σ) :
    (scanFilesFromCmdline o scan args fs s).map (fun ret => (ret.1, ret.2.2)) =
      handOut scan (runArrivals o fs args) s := by
  induction args generalizing fs s with
  | nil => rfl
  | cons a args ih =>
    rw [scanFilesFromCmdline, runArrivals, scanFile_eq (htells a List.mem_cons_self),
      handOut_append]
    cases handOut scan (a.arrivals o fs) s with
    | none => rfl
    | some ret =>
      obtain ⟨fatal, s⟩ := ret
      cases fatal with
      | true => rfl
      | false => exact ih (fun a ha => htells a (List.mem_cons_of_mem _ ha)) _ s

end Run

-- ---------------------------------------------------------------------------
-- The files of an argument
-- ---------------------------------------------------------------------------

/-- The argument lists the file: it is the file, or the file is at the end of a way below it
    that the walk enters. -/
structure Argument.Lists (o : ListOptions) (fs : LockedFs) (a : Argument) (path : String)
    (st : StatX) (call : CheckCall) (f : FoundFile) : Prop where
  check_eq : a.check o = some (path, st, call)
  accepted : (checkFile o.cfgUuid fs call).1 = true
  found : (st.mode = .reg ∧ f = ⟨path, st⟩) ∨ (st.mode ≠ .reg ∧ a.opens = true ∧
    ∃ dirs e, dirs ++ [e] ∈ a.below.places ∧
      (∀ above d below, dirs = above ++ d :: below →
        Enters o (lockAfter o fs a) (pathOf path above) d) ∧
      Gives o (lockAfter o fs a) (pathOf path dirs) e f)

section Files

variable {o : ListOptions} {fs : LockedFs} {a : Argument} {args : List Argument} {path : String}
  {f : FoundFile} {l : Listing}

theorem mem_arrivals_iff (h : fs.Settled) : .file f ∈ arrivals o fs path l ↔
    ∃ dirs e, dirs ++ [e] ∈ l.places ∧
      (∀ above d below, dirs = above ++ d :: below → Enters o fs (pathOf path above) d) ∧
      Gives o fs (pathOf path dirs) e f := by
  simp only [arrivals, List.mem_filterMap, arrives_file_iff h]
  constructor
  · rintro ⟨chain, hchain, dirs, e, rfl, hdirs, hgives⟩
    exact ⟨dirs, e, hchain, hdirs, hgives⟩
  · rintro ⟨dirs, e, hchain, hdirs, hgives⟩
    exact ⟨_, hchain, dirs, e, rfl, hdirs, hgives⟩

theorem Argument.check_parent {st : StatX} {call : CheckCall}
    (h : a.check o = some (path, st, call)) : call.parentChecked = false := by
  rw [Argument.check] at h
  split at h
  · cases h
    rfl
  · cases h

theorem Argument.check_excluded {st : StatX} {call : CheckCall}
    (h : a.check o = some (path, st, call)) : call.excluded = isExcluded o path := by
  rw [Argument.check] at h
  split at h
  · cases h
    rfl
  · cases h

theorem Argument.check_realpath {st : StatX} {call : CheckCall}
    (h : a.check o = some (path, st, call)) : a.realpath = some path := by
  rw [Argument.check] at h
  split at h
  · next hpath _ =>
    cases h
    exact hpath
  · cases h

theorem Argument.mem_arrivals_iff (htells : a.Tells o) :
    .file f ∈ a.arrivals o fs ↔ ∃ path st call, a.Lists o fs path st call f := by
  rw [Argument.arrivals]
  cases hcheck : a.check o with
  | none =>
    simp only [List.not_mem_nil, false_iff]
    rintro ⟨path, st, call, hlists⟩
    have hsome := hlists.check_eq
    rw [hcheck] at hsome
    cases hsome
  | some checked =>
    obtain ⟨path, st, call⟩ := checked
    have hsettled := checkFile_settled o fs (htells path st call hcheck)
      (a.check_parent hcheck)
    have hlock : lockAfter o fs a = (checkFile o.cfgUuid fs call).2 := by
      rw [lockAfter, hcheck]
    constructor
    · intro hin
      dsimp only at hin
      split at hin
      · cases hin
      next haccepts =>
      have haccepts := eq_true_of_ne_false haccepts
      refine ⟨path, st, call, hcheck, haccepts, ?_⟩
      split at hin
      · next hmode =>
        obtain rfl : f = ⟨path, st⟩ := by simpa using hin
        exact .inl ⟨hmode, rfl⟩
      next hmode =>
      split at hin
      · next hopens =>
        rw [hlock] at hin ⊢
        exact .inr ⟨hmode, hopens, (Duperemove.mem_arrivals_iff (hsettled haccepts)).1 hin⟩
      · cases hin
    · rintro ⟨path', st', call', hlists⟩
      obtain ⟨rfl, rfl, rfl⟩ : path' = path ∧ st' = st ∧ call' = call := by
        have hsame := hlists.check_eq
        rw [hcheck] at hsame
        cases hsame
        exact ⟨rfl, rfl, rfl⟩
      dsimp only
      rw [if_neg (by simp [hlists.accepted])]
      rcases hlists.found with ⟨hmode, rfl⟩ | ⟨hmode, hopens, hway⟩
      · rw [if_pos hmode]
        exact List.mem_singleton.2 rfl
      · rw [if_neg hmode, if_pos hopens]
        rw [hlock] at hway ⊢
        exact (Duperemove.mem_arrivals_iff (hsettled hlists.accepted)).2 hway

/-- What arrives in a run, argument by argument. -/
theorem mem_runArrivals_iff : .file f ∈ runArrivals o fs args ↔
    ∃ before a after, args = before ++ a :: after ∧
      .file f ∈ a.arrivals o (before.foldl (lockAfter o) fs) := by
  induction args generalizing fs with
  | nil => simp [runArrivals]
  | cons a args ih =>
    rw [runArrivals, List.mem_append, ih]
    constructor
    · rintro (hin | ⟨before, b, after, rfl, hin⟩)
      · exact ⟨[], a, args, rfl, hin⟩
      · exact ⟨a :: before, b, after, rfl, hin⟩
    · rintro ⟨before, b, after, hsplit, hin⟩
      cases before with
      | nil =>
        rw [List.nil_append, List.cons.injEq] at hsplit
        obtain ⟨rfl, rfl⟩ := hsplit
        exact .inl hin
      | cons c before =>
        rw [List.cons_append, List.cons.injEq] at hsplit
        obtain ⟨rfl, rfl⟩ := hsplit
        exact .inr ⟨before, b, after, rfl, hin⟩

end Files

/-- A run hands the files that its arguments list to `__scan_file`, in order, up to an error or
    an abort. The arguments before an argument tell which filesystem is locked. -/
theorem run_lists {o : ListOptions} {args : List Argument} (htells : ∀ a ∈ args, a.Tells o) :
    (∀ (σ : Type) (scan : σ → FoundFile → σ × Bool) (s : σ),
      (scanFilesFromCmdline o scan args .zero s).map (fun ret => (ret.1, ret.2.2)) =
        handOut scan (runArrivals o .zero args) s) ∧
    ∀ f, .file f ∈ runArrivals o .zero args ↔ ∃ before a after path st call,
      args = before ++ a :: after ∧
        a.Lists o (before.foldl (lockAfter o) .zero) path st call f := by
  refine ⟨fun σ scan s => scanFilesFromCmdline_eq htells .zero s, fun f => ?_⟩
  rw [mem_runArrivals_iff]
  constructor
  · rintro ⟨before, a, after, hsplit, hin⟩
    have ha : a ∈ args := by
      rw [hsplit]
      exact List.mem_append_right _ List.mem_cons_self
    obtain ⟨path, st, call, hlists⟩ := (Argument.mem_arrivals_iff (htells a ha)).1 hin
    exact ⟨before, a, after, path, st, call, hsplit, hlists⟩
  · rintro ⟨before, a, after, path, st, call, hsplit, hlists⟩
    have ha : a ∈ args := by
      rw [hsplit]
      exact List.mem_append_right _ List.mem_cons_self
    exact ⟨before, a, after, hsplit,
      (Argument.mem_arrivals_iff (htells a ha)).2 ⟨path, st, call, hlists⟩⟩

/-- A directory with a file, and with a file in a directory of its own. The third entry is the
    hashfile. -/
def sampleArgument : Argument :=
  let answers : PathAnswers :=
    { configRead := true
      lookups := (btrfsDir true).lookups
      statfsAgain := true
      fsUuid := sampleUuid
      onBtrfs := true }
  let dir : StatX := ⟨statxBasicStats, .dir, 256, 0, 1, 42⟩
  let file (ino : Nat) : StatX := ⟨statxBasicStats, .reg, ino, 5, 1, 42⟩
  { realpath := some "/d"
    stat := some dir
    answers := answers
    opens := true
    below :=
      .entry ⟨"a", some .reg, none, some (file 257), answers, false⟩ .ended
        (.entry ⟨"s", none, some dir, some dir, answers, true⟩
          (.entry ⟨"b", some .reg, none, some (file 258), answers, false⟩ .ended .ended)
          (.entry ⟨"h", some .reg, none, some (file 259), answers, false⟩ .ended .ended)) }

/-- The options of a run in `/d` with the hashfile `h`. -/
def sampleOptions : ListOptions where
  recurseDirs := true
  excludes := ["/d/h-shm", "/d/h-wal", "/d/h"]
  fnmatch := fun pattern name => decide (pattern = name)
  cfgUuid := nullUuid

theorem sampleArgument_tells : ∀ a ∈ [sampleArgument], a.Tells sampleOptions := by
  intro a ha path st call hcheck
  cases List.mem_singleton.1 ha
  cases hcheck
  have hne : sampleUuid ≠ nullUuid := by decide
  exact ⟨rfl, by decide, fun u _ => hne⟩

theorem sampleArgument_lists :
    .file ⟨"/d/s/b", statxBasicStats, .reg, 258, 5, 1, 42⟩ ∈
        runArrivals sampleOptions .zero [sampleArgument] ↔
      ∃ before a after path st call, [sampleArgument] = before ++ a :: after ∧
        a.Lists sampleOptions (before.foldl (lockAfter sampleOptions) .zero) path st call
          ⟨"/d/s/b", statxBasicStats, .reg, 258, 5, 1, 42⟩ :=
  (run_lists sampleArgument_tells).2 _

example : runArrivals sampleOptions .zero [sampleArgument] =
    [.file ⟨"/d/a", statxBasicStats, .reg, 257, 5, 1, 42⟩,
      .file ⟨"/d/s/b", statxBasicStats, .reg, 258, 5, 1, 42⟩] := by
  decide

-- ---------------------------------------------------------------------------
-- No file twice
-- ---------------------------------------------------------------------------

/-- The names in a directory. -/
def Listing.names : Listing → List String
  | .ended => []
  | .failed => []
  | .entry e _ rest => e.name :: rest.names

/-- What a filesystem promises: the names in a directory differ, and a name is not empty and has
    no slash. -/
def Listing.Proper : Listing → Prop
  | .ended => True
  | .failed => True
  | .entry e below rest =>
    e.name ∉ rest.names ∧ e.name ≠ "" ∧ '/' ∉ e.name.toList ∧ below.Proper ∧ rest.Proper

section Once

variable {o : ListOptions} {fs : LockedFs} {path : String} {l : Listing}
  {chain chain' : List Dirent}

/-- Names behind slashes. -/
def slashed (names : List (List Char)) : List Char := names.flatMap (List.cons '/')

theorem takeWhile_slashed {n : List Char} (hn : '/' ∉ n) (names : List (List Char)) :
    (n ++ slashed names).takeWhile (· ≠ '/') = n := by
  have hall : ∀ c ∈ n, decide (c ≠ '/') = true := fun c hc =>
    decide_eq_true fun heq => hn (heq ▸ hc)
  rw [List.takeWhile_append_of_pos hall]
  cases names with
  | nil => exact List.append_nil n
  | cons m names => exact List.append_nil n

theorem slashed_inj {a b : List (List Char)} (ha : ∀ n ∈ a, '/' ∉ n) (hb : ∀ n ∈ b, '/' ∉ n)
    (heq : slashed a = slashed b) : a = b := by
  induction a generalizing b with
  | nil =>
    cases b with
    | nil => rfl
    | cons m b => cases heq
  | cons n a ih =>
    cases b with
    | nil => cases heq
    | cons m b =>
      have hrest : n ++ slashed a = m ++ slashed b := List.tail_eq_of_cons_eq heq
      have hname : n = m := by
        rw [← takeWhile_slashed (ha n List.mem_cons_self) a, hrest,
          takeWhile_slashed (hb m List.mem_cons_self) b]
      rw [hname] at hrest ⊢
      rw [ih (fun x hx => ha x (List.mem_cons_of_mem _ hx))
        (fun x hx => hb x (List.mem_cons_of_mem _ hx)) (List.append_cancel_left hrest)]

/-- The characters in front of the slash of a name. -/
def dirChars (path : String) : List Char := if path = "/" then [] else path.toList

theorem toList_childPath (path name : String) :
    (childPath path name).toList = dirChars path ++ '/' :: name.toList := by
  rw [childPath, dirChars]
  split <;> simp

theorem toList_pathOf (path : String) (hchain : ∀ e ∈ chain, e.name ≠ "") :
    dirChars (pathOf path chain) = dirChars path ++ slashed (chain.map (·.name.toList)) := by
  induction chain generalizing path with
  | nil => exact (List.append_nil _).symm
  | cons e chain ih =>
    have hne : childPath path e.name ≠ "/" := by
      intro heq
      have hlength := congrArg (fun s => s.toList.length) heq
      simp only [toList_childPath, List.length_append, List.length_cons] at hlength
      have hname : e.name.toList = [] := List.length_eq_zero_iff.1 (by
        change _ = 1 at hlength
        omega)
      exact hchain e List.mem_cons_self (String.toList_eq_nil_iff.1 hname)
    rw [pathOf, List.foldl_cons, ← pathOf, ih _ fun x hx => hchain x (List.mem_cons_of_mem _ hx)]
    rw [dirChars, if_neg hne, toList_childPath]
    simp [slashed]

/-- A path tells the names on the way to it. -/
theorem pathOf_inj (hchain : ∀ e ∈ chain, e.name ≠ "" ∧ '/' ∉ e.name.toList)
    (hchain' : ∀ e ∈ chain', e.name ≠ "" ∧ '/' ∉ e.name.toList)
    (heq : pathOf path chain = pathOf path chain') :
    chain.map Dirent.name = chain'.map Dirent.name := by
  have hchars := congrArg dirChars heq
  rw [toList_pathOf path fun e he => (hchain e he).1,
    toList_pathOf path fun e he => (hchain' e he).1]
    at hchars
  have hnames := slashed_inj (by simpa using fun e he => (hchain e he).2)
    (by simpa using fun e he => (hchain' e he).2) (List.append_cancel_left hchars)
  refine (List.map_injective_iff.2 fun _ _ => String.toList_injective)
    (?_ : List.map String.toList _ = List.map String.toList _)
  rw [List.map_map, List.map_map]
  exact hnames

theorem proper_of_mem_places (h : l.Proper) (hchain : chain ∈ l.places) :
    ∀ e ∈ chain, e.name ≠ "" ∧ '/' ∉ e.name.toList := by
  induction l generalizing chain with
  | ended => cases hchain
  | failed => cases hchain
  | entry e below rest ihbelow ihrest =>
    obtain ⟨-, hne, hslash, hbelow, hrest⟩ := h
    rw [Listing.places, List.cons_append, List.mem_cons, List.mem_append, List.mem_map] at hchain
    rcases hchain with rfl | ⟨chain, hin, rfl⟩ | hin
    · simpa using ⟨hne, hslash⟩
    · simpa [hne, hslash] using ihbelow hbelow hin
    · exact ihrest hrest hin

/-- The first name on a way is that of an entry of the directory. -/
theorem head_mem_names {e : Dirent} (h : e :: chain ∈ l.places) : e.name ∈ l.names := by
  induction l with
  | ended => cases h
  | failed => cases h
  | entry d below rest _ ihrest =>
    rw [Listing.places, List.cons_append, List.mem_cons, List.mem_append, List.mem_map] at h
    rw [Listing.names, List.mem_cons]
    rcases h with heq | ⟨chain, _, heq⟩ | h
    · cases heq
      exact .inl rfl
    · cases heq
      exact .inl rfl
    · exact .inr (ihrest h)

/-- No two places have the same names on the way. -/
theorem nodup_places (h : l.Proper) : (l.places.map fun chain => chain.map Dirent.name).Nodup := by
  induction l with
  | ended => exact List.nodup_nil
  | failed => exact List.nodup_nil
  | entry e below rest ihbelow ihrest =>
    obtain ⟨hno, -, -, hbelow, hrest⟩ := h
    have hother : ∀ chain ∈ rest.places, ∀ names, chain.map Dirent.name ≠ e.name :: names := by
      intro chain hchain names heq
      cases chain with
      | nil => cases heq
      | cons d chain =>
        rw [List.map_cons, List.cons.injEq] at heq
        exact hno (heq.1 ▸ head_mem_names hchain)
    have hcons : (below.places.map fun chain => (e :: chain).map Dirent.name).Nodup := by
      have hmapped := List.Nodup.map (@List.cons_injective _ e.name) (ihbelow hbelow)
      rwa [List.map_map] at hmapped
    rw [Listing.places, List.map_append, List.map_cons, List.map_map, List.nodup_append',
      List.nodup_cons]
    refine ⟨⟨fun hin => ?_, hcons⟩, ihrest hrest, fun names hin hin' => ?_⟩
    · obtain ⟨chain, hchain, heq⟩ := List.mem_map.1 hin
      have hnil : chain.map Dirent.name = [] := List.tail_eq_of_cons_eq heq
      exact ne_nil_of_mem_places hchain (List.map_eq_nil_iff.1 hnil)
    · obtain ⟨chain', hchain', heq'⟩ := List.mem_map.1 hin'
      rcases List.mem_cons.1 hin with heq | hin
      · exact hother chain' hchain' [] (heq'.trans heq)
      · obtain ⟨chain, -, heq⟩ := List.mem_map.1 hin
        exact hother chain' hchain' _ (heq'.trans heq.symm)

/-- The path that arrives. -/
def Arrival.path? : Arrival → Option String
  | .file f => some f.path
  | .abort => none

theorem path_of_arrives (h : fs.Settled) {f : FoundFile}
    (harrives : arrives o fs path chain = some (.file f)) : f.path = pathOf path chain := by
  obtain ⟨dirs, e, rfl, -, hgives⟩ := (arrives_file_iff h).1 harrives
  rw [hgives.path_eq, pathOf, pathOf, List.foldl_append]
  rfl

theorem filterMap_sublist_map {α β : Type} {g : α → Option β} {f : α → β} {xs : List α}
    (h : ∀ x ∈ xs, ∀ y, g x = some y → y = f x) : (xs.filterMap g).Sublist (xs.map f) := by
  induction xs with
  | nil => exact List.Sublist.slnil
  | cons x xs ih =>
    have hrest := ih fun y hy => h y (List.mem_cons_of_mem _ hy)
    rw [List.filterMap_cons, List.map_cons]
    cases hx : g x with
    | none => exact hrest.cons (f x)
    | some y =>
      rw [h x List.mem_cons_self y hx]
      exact hrest.cons_cons (f x)

/-- Below one directory no path is handed out twice. -/
theorem nodup_arrivals (h : fs.Settled) (hl : l.Proper) :
    ((arrivals o fs path l).filterMap Arrival.path?).Nodup := by
  have hplaces : (l.places.map (pathOf path)).Nodup := by
    refine List.Nodup.map_on ?_ (List.Nodup.of_map _ (nodup_places hl))
    intro chain hchain chain' hchain' heq
    have hnames := pathOf_inj (proper_of_mem_places hl hchain) (proper_of_mem_places hl hchain') heq
    exact List.inj_on_of_nodup_map (nodup_places hl) hchain hchain' hnames
  rw [arrivals, List.filterMap_filterMap]
  refine (filterMap_sublist_map fun chain _ p hp => ?_).nodup hplaces
  obtain ⟨x, hx, hpath⟩ := Option.bind_eq_some_iff.1 hp
  cases x with
  | abort => cases hpath
  | file f =>
    cases hpath
    exact path_of_arrives h hx

/-- The path is `top`, or a path below it. -/
def InTree (top path : String) : Prop :=
  path = top ∨ ∃ rest, path.toList = dirChars top ++ '/' :: rest

theorem inTree_of_inTree_both {p q x : String} (hp : InTree p x) (hq : InTree q x) :
    InTree p q ∨ InTree q p := by
  rcases hp with rfl | ⟨r, hr⟩
  · exact .inr hq
  rcases hq with rfl | ⟨r', hr'⟩
  · exact .inl (.inr ⟨r, hr⟩)
  -- One of the two is in front of the other, and a slash comes next.
  have hunder : ∀ {p q : String} {as r r' : List Char}, dirChars q = dirChars p ++ as →
      '/' :: r = as ++ '/' :: r' → InTree p q ∨ InTree q p := by
    intro p q as r r' heq hslash
    cases as with
    | nil =>
      rw [List.append_nil] at heq
      rw [dirChars, dirChars] at heq
      split at heq
      · next hroot =>
        split at heq
        · next hroot' => exact .inl (.inl (hroot.trans hroot'.symm))
        · refine .inl (.inr ⟨[], ?_⟩)
          rw [hroot, dirChars, if_neg ‹_›, ← heq]
          rfl
      · next hne =>
        split at heq
        · next hroot' =>
          refine .inr (.inr ⟨[], ?_⟩)
          rw [hroot', dirChars, if_neg hne, heq]
          rfl
        · exact .inl (.inl (String.toList_injective heq))
    | cons c as =>
      rw [List.cons_append, List.cons.injEq] at hslash
      obtain ⟨rfl, -⟩ := hslash
      refine .inl (.inr ⟨as, ?_⟩)
      rw [← heq, dirChars]
      split
      · next hroot =>
        rw [dirChars, if_pos hroot] at heq
        simp at heq
      · rfl
  rcases List.append_eq_append_iff.1 (hr.symm.trans hr') with ⟨as, hq, hslash⟩ | ⟨as, hp, hslash⟩
  · exact hunder hq hslash
  · exact (hunder hp hslash).symm

theorem inTree_pathOf (path : String) (hchain : ∀ e ∈ chain, e.name ≠ "") (hne : chain ≠ []) :
    InTree path (pathOf path chain) := by
  obtain ⟨dirs, e, rfl⟩ := (List.eq_nil_or_concat' chain).resolve_left hne
  have hdirs := toList_pathOf path fun d hd => hchain d (List.mem_append_left [e] hd)
  have hlast : (pathOf path (dirs ++ [e])).toList =
      dirChars path ++ slashed ((dirs ++ [e]).map (·.name.toList)) := by
    rw [pathOf, List.foldl_append, List.foldl_cons, List.foldl_nil, toList_childPath, ← pathOf,
      hdirs]
    simp [slashed]
  cases dirs with
  | nil => exact .inr ⟨e.name.toList, hlast.trans (by simp [slashed])⟩
  | cons d dirs => exact .inr ⟨_, hlast⟩

end Once

section OnceInRun

variable {o : ListOptions} {fs : LockedFs} {a : Argument} {args : List Argument} {x : String}

/-- Two arguments have nothing in common. -/
def Argument.Apart (a b : Argument) : Prop :=
  ∀ p q, a.realpath = some p → b.realpath = some q → ¬InTree p q ∧ ¬InTree q p

theorem Argument.inTree_of_arrives (htells : a.Tells o) (hproper : a.below.Proper)
    (hx : x ∈ (a.arrivals o fs).filterMap Arrival.path?) :
    ∃ p, a.realpath = some p ∧ InTree p x := by
  obtain ⟨arrival, harrival, hpath⟩ := List.mem_filterMap.1 hx
  cases arrival with
  | abort => cases hpath
  | file f =>
    cases hpath
    obtain ⟨path, st, call, hlists⟩ := (a.mem_arrivals_iff htells).1 harrival
    refine ⟨path, a.check_realpath hlists.check_eq, ?_⟩
    rcases hlists.found with ⟨-, rfl⟩ | ⟨-, -, dirs, e, hplace, -, hgives⟩
    · exact .inl rfl
    · have hnames := proper_of_mem_places hproper hplace
      have hin := inTree_pathOf path (fun e he => (hnames e he).1) (by simp)
      rw [pathOf, List.foldl_append] at hin
      rw [hgives.path_eq]
      exact hin

theorem Argument.nodup_arrivals (htells : a.Tells o) (hproper : a.below.Proper) :
    ((a.arrivals o fs).filterMap Arrival.path?).Nodup := by
  rw [Argument.arrivals]
  cases hcheck : a.check o with
  | none => exact List.nodup_nil
  | some checked =>
    obtain ⟨path, st, call⟩ := checked
    have hsettled := checkFile_settled o fs (htells path st call hcheck)
      (a.check_parent hcheck)
    have hlock : lockAfter o fs a = (checkFile o.cfgUuid fs call).2 := by
      rw [lockAfter, hcheck]
    dsimp only
    split
    · exact List.nodup_nil
    next haccepts =>
    split
    · exact List.nodup_singleton path
    split
    · rw [hlock]
      exact Duperemove.nodup_arrivals (hsettled (eq_true_of_ne_false haccepts)) hproper
    · exact List.nodup_nil

/-- A run over arguments that are apart hands out no path twice. -/
theorem run_lists_once (htells : ∀ a ∈ args, a.Tells o) (hproper : ∀ a ∈ args, a.below.Proper)
    (hapart : args.Pairwise Argument.Apart) :
    ((runArrivals o fs args).filterMap Arrival.path?).Nodup := by
  induction args generalizing fs with
  | nil => exact List.nodup_nil
  | cons a args ih =>
    rw [List.pairwise_cons] at hapart
    rw [runArrivals, List.filterMap_append, List.nodup_append']
    refine ⟨a.nodup_arrivals (htells a List.mem_cons_self) (hproper a List.mem_cons_self),
      ih (fun b hb => htells b (List.mem_cons_of_mem _ hb))
        (fun b hb => hproper b (List.mem_cons_of_mem _ hb)) hapart.2, fun x hx hx' => ?_⟩
    obtain ⟨p, hp, hpx⟩ :=
      a.inTree_of_arrives (htells a List.mem_cons_self) (hproper a List.mem_cons_self) hx
    obtain ⟨b, hb, fs', hx'⟩ : ∃ b ∈ args, ∃ fs',
        x ∈ (b.arrivals o fs').filterMap Arrival.path? := by
      obtain ⟨arrival, harrival, hpath⟩ := List.mem_filterMap.1 hx'
      cases arrival with
      | abort => cases hpath
      | file f =>
        obtain ⟨before, b, after, rfl, hin⟩ := mem_runArrivals_iff.1 harrival
        exact ⟨b, List.mem_append_right _ List.mem_cons_self, _,
          List.mem_filterMap.2 ⟨_, hin, hpath⟩⟩
    obtain ⟨q, hq, hqx⟩ := b.inTree_of_arrives (htells b (List.mem_cons_of_mem _ hb))
      (hproper b (List.mem_cons_of_mem _ hb)) hx'
    obtain ⟨hpq, hqp⟩ := hapart.1 b hb p q hp hq
    exact (inTree_of_inTree_both hpx hqx).elim hpq hqp

end OnceInRun

theorem sampleArgument_lists_once :
    ((runArrivals sampleOptions .zero [sampleArgument]).filterMap Arrival.path?).Nodup := by
  refine run_lists_once sampleArgument_tells (fun a ha => ?_) (List.pairwise_singleton _ _)
  cases List.mem_singleton.1 ha
  exact ⟨by decide, by decide, by decide, trivial,
    by decide, by decide, by decide, ⟨by decide, by decide, by decide, trivial, trivial⟩,
    by decide, by decide, by decide, trivial, trivial⟩

-- ---------------------------------------------------------------------------
-- The hashfile
-- ---------------------------------------------------------------------------

/-- The pattern that `add_exclude_pattern` stores, unless its path gets too long. -/
def fullPattern (cwd pattern : String) : Option String :=
  if pattern.toList.head? = some '/' then some pattern
  else if strlen cwd + strlen pattern > pathMax then none
  else some (cwd ++ "/" ++ pattern)

/-- `add_exclude_pattern`: what it returns, and the patterns. -/
def addExcludePattern (cwd pattern : String) (excludes : List String) : Nat × List String :=
  match fullPattern cwd pattern with
  | some pattern => (0, pattern :: excludes)
  | none => (1, excludes)

/-- The files that sqlite keeps beside the hashfile, and the hashfile. -/
def hashfileNames (hashfile : String) : List String :=
  [hashfile, hashfile ++ "-wal", hashfile ++ "-shm"]

/-- What `parse_options` does in the end, without looking at what the calls return. -/
def excludeHashfile (cwd : String) (hashfile : Option String) (excludes : List String) :
    List String :=
  match hashfile with
  | some hashfile =>
    (hashfileNames hashfile).foldl
      (fun excludes pattern => (addExcludePattern cwd pattern excludes).2) excludes
  | none => excludes

/-- No character of the pattern is special to `fnmatch`. -/
def Plain (pattern : String) : Prop := ∀ c ∈ pattern.toList, c ∉ ['*', '?', '[', '\\']

instance (pattern : String) : Decidable (Plain pattern) :=
  decidable_of_iff
    (pattern.toList.all fun c => not (['*', '?', '[', '\\'].contains c)) (by simp [Plain])

section Hashfile

variable {o : ListOptions} {fs : LockedFs} {a : Argument} {args : List Argument} {f : FoundFile}
  {cwd pattern full : String} {excludes : List String}

theorem addExcludePattern_mem (h : fullPattern cwd pattern = some full) :
    full ∈ (addExcludePattern cwd pattern excludes).2 := by
  rw [addExcludePattern, h]
  exact List.mem_cons_self

theorem addExcludePattern_subset : excludes ⊆ (addExcludePattern cwd pattern excludes).2 := by
  rw [addExcludePattern]
  split
  · exact List.subset_cons_self _ _
  · exact List.Subset.refl _

/-- Each pattern that is not too long is there. -/
theorem foldl_addExcludePattern_mem {names : List String} (hname : pattern ∈ names)
    (h : fullPattern cwd pattern = some full) :
    full ∈ names.foldl (fun excludes pattern => (addExcludePattern cwd pattern excludes).2)
      excludes := by
  have hkeeps : ∀ (names excludes : List String), full ∈ excludes →
      full ∈ names.foldl (fun excludes pattern => (addExcludePattern cwd pattern excludes).2)
        excludes := by
    intro names
    induction names with
    | nil => exact fun _ hin => hin
    | cons name names ih => exact fun _ hin => ih _ (addExcludePattern_subset hin)
  induction names generalizing excludes with
  | nil => cases hname
  | cons name names ih =>
    rcases List.mem_cons.1 hname with rfl | hname
    · exact hkeeps names _ (addExcludePattern_mem h)
    · exact ih hname

theorem checkFile_excluded {call : CheckCall} {cfgUuid : Uuid} (h : call.excluded = true) :
    (checkFile cfgUuid fs call).1 = false := by
  rw [checkFile, checkPath, if_pos h]

/-- Nothing that is listed matches an exclude pattern. -/
theorem included_of_runArrivals (htells : ∀ a ∈ args, a.Tells o)
    (hin : .file f ∈ runArrivals o fs args) : isExcluded o f.path = false := by
  obtain ⟨before, a, after, rfl, harrives⟩ := mem_runArrivals_iff.1 hin
  have ha := htells a (List.mem_append_right _ List.mem_cons_self)
  obtain ⟨path, st, call, hcheck, haccepted, hfound⟩ := (a.mem_arrivals_iff ha).1 harrives
  rcases hfound with ⟨-, rfl⟩ | ⟨-, -, dirs, e, -, -, hgives⟩
  · refine Bool.eq_false_iff.2 fun hexcluded => ?_
    rw [checkFile_excluded ((a.check_excluded hcheck).trans hexcluded)] at haccepted
    cases haccepted
  · rw [hgives.path_eq]
    exact hgives.passes.included

end Hashfile

/-- The hashfile and what sqlite keeps beside it are never listed, when `realpath` finds them
    where the patterns say: the name that was given, behind the working directory if it is a
    relative one, has no dots, empty parts or symbolic links, and is not too long. And `fnmatch`
    has to read it literally. -/
theorem run_spares_hashfile {o : ListOptions} {args : List Argument} {fs : LockedFs}
    {cwd hashfile name : String} {patterns : List String} {realpath : String → Option String}
    (hfnmatch : ∀ p, Plain p → o.fnmatch p p = true) (htells : ∀ a ∈ args, a.Tells o)
    (hexcludes : o.excludes = excludeHashfile cwd (some hashfile) patterns)
    (hname : name ∈ hashfileNames hashfile)
    (hreal : ∀ path, realpath name = some path → fullPattern cwd name = some path ∧ Plain path) :
    ∀ f, .file f ∈ runArrivals o fs args → realpath name ≠ some f.path := by
  intro f hin hpath
  obtain ⟨hfull, hplain⟩ := hreal f.path hpath
  have hincluded := included_of_runArrivals htells hin
  have hmem : f.path ∈ o.excludes := by
    rw [hexcludes]
    exact foldl_addExcludePattern_mem hname hfull
  rw [isExcluded, List.any_eq_false] at hincluded
  exact hincluded f.path hmem (hfnmatch f.path hplain)

/-- Where the files of the sample are. -/
def sampleRealpath (name : String) : Option String :=
  if name = "h" then some "/d/h" else none

/-- The directory has the hashfile in it, and the other files are listed. -/
theorem sampleRun_spares_hashfile :
    .file ⟨"/d/a", statxBasicStats, .reg, 257, 5, 1, 42⟩ ∈
        runArrivals sampleOptions .zero [sampleArgument] ∧
      ∀ f, .file f ∈ runArrivals sampleOptions .zero [sampleArgument] →
        sampleRealpath "h" ≠ some f.path := by
  refine ⟨by decide, ?_⟩
  refine @run_spares_hashfile sampleOptions [sampleArgument] .zero "/d" "h" "h" [] sampleRealpath
    (fun p _ => decide_eq_true rfl) sampleArgument_tells (by decide) (by decide) ?_
  rintro path hpath
  cases hpath
  decide

end Duperemove
