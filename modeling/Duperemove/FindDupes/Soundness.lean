-- SUMMARY: Which matches of `compare_extents` are real: the first one always, a second one never.
import Mathlib.Data.List.Chain
import Mathlib.Data.List.Infix
import Duperemove.FindDupes.Model

/-!
# Soundness of recorded matches

A match is real when its two ranges consist of the same number of adjacent blocks
with the same digests, and its id is the checksum of these digests. The first
match of a call is real: it starts at the pair the caller chose. For every later
match the source remembers the start before it fast-forwards to the next pair
with equal digests, so the recorded ranges begin with blocks that differ.
-/

namespace Duperemove

-- ---------------------------------------------------------------------------
-- Real matches
-- ---------------------------------------------------------------------------

/-- The blocks of a file from the one at `soff` to the one that ends at `eoff`,
    all adjacent. -/
structure IsRange (blocksize : Nat) (f : BlockFile) (soff eoff : Nat) (blocks : List FileBlock) :
    Prop where
  inFile : blocks <:+: f.blocks
  adjacent : blocks.IsChain fun a b => b.bLoff = a.bLoff + blocksize
  first : blocks.head?.map FileBlock.bLoff = some soff
  last : blocks.getLast?.map (blockEnd blocksize f.size) = some eoff

/-- The number of bytes of a range, as `record_match` computes it. -/
def rangeBytes (soff eoff : Nat) : Nat := Word.wrap 64 (Word.sub 64 eoff soff + 1)

/-- A match whose ranges hold the same blocks. -/
def RealMatch (h : Xxh (List Byte)) (blocksize : Nat) (orig walk : BlockFile) (m : BlockMatch) :
    Prop :=
  ∃ as cs, IsRange blocksize orig m.soff.1 m.eoff.1 as ∧ IsRange blocksize walk m.soff.2 m.eoff.2 cs ∧
    as.length = cs.length ∧
    rangeBytes m.soff.1 m.eoff.1 = rangeBytes m.soff.2 m.eoff.2 ∧
    as.map FileBlock.digest = cs.map FileBlock.digest ∧
    m.digest = h.xxh128 (as.map FileBlock.digest).flatten

-- ---------------------------------------------------------------------------
-- The longest match
-- ---------------------------------------------------------------------------

/-- The longest run of matching adjacent pairs from the first pair on. -/
def matchRun (job : CompareJob) : List BlockPair → List BlockPair
  | [] => []
  | [p] => if isMatch job p then [p] else []
  | p :: q :: ps =>
    if isMatch job p then
      if isContiguous job p q then p :: matchRun job (q :: ps) else [p]
    else []

section Run

variable {job : CompareJob}

theorem matchRun_eq_nil_iff {p : BlockPair} {ps : List BlockPair} :
    matchRun job (p :: ps) = [] ↔ isMatch job p = false := by
  cases ps with
  | nil => simp [matchRun]
  | cons q ps =>
    cases hm : isMatch job p with
    | false => simp [matchRun, hm]
    | true =>
      unfold matchRun
      rw [if_pos hm]
      split <;> simp

variable (job) in
theorem matchRun_isPrefix (ps : List BlockPair) : matchRun job ps <+: ps := by
  fun_induction matchRun job ps with
  | case1 => exact List.nil_prefix
  | case2 p hm => exact List.prefix_refl _
  | case3 p hm => exact List.nil_prefix
  | case4 p q ps hm hc ih => exact (List.prefix_cons_inj p).2 ih
  | case5 p q ps hm hc => exact ⟨q :: ps, rfl⟩
  | case6 p q ps hm => exact List.nil_prefix

theorem isMatch_of_mem_matchRun {ps : List BlockPair} {p : BlockPair}
    (hp : p ∈ matchRun job ps) : isMatch job p = true := by
  fun_induction matchRun job ps with
  | case1 => cases hp
  | case2 q hm =>
    rw [List.mem_singleton.1 hp]
    exact hm
  | case3 q hm => cases hp
  | case4 q q' ps hm hc ih =>
    rcases List.mem_cons.1 hp with rfl | hp
    · exact hm
    · exact ih hp
  | case5 q q' ps hm hc =>
    rw [List.mem_singleton.1 hp]
    exact hm
  | case6 q q' ps hm => cases hp

theorem matchRun_isChain (ps : List BlockPair) :
    (matchRun job ps).IsChain fun p q => isContiguous job p q = true := by
  fun_induction matchRun job ps with
  | case1 => exact .nil
  | case2 p hm => exact .singleton p
  | case3 p hm => exact .nil
  | case4 p q ps hm hc ih =>
    refine List.isChain_cons.2 ⟨?_, ih⟩
    intro r hr
    obtain ⟨_, heq⟩ := matchRun_isPrefix job (q :: ps)
    cases hrun : matchRun job (q :: ps) with
    | nil =>
      rw [hrun] at hr
      cases hr
    | cons r' rest =>
      rw [hrun] at hr heq
      cases hr
      cases heq
      exact hc
  | case5 p q ps hm hc => exact .singleton p
  | case6 p q ps hm => exact .nil

/-- A run is followed by its end, by a gap, or by a pair that does not match. -/
theorem isMatch_after_matchRun {ps : List BlockPair} {e q : BlockPair} {rest : List BlockPair}
    (he : (matchRun job ps).getLast? = some e)
    (hq : ps.drop (matchRun job ps).length = q :: rest) (hc : isContiguous job e q = true) :
    isMatch job q = false := by
  fun_induction matchRun job ps with
  | case1 => cases he
  | case2 p hm => cases hq
  | case3 p hm => cases he
  | case4 p q' ps hm hc' ih =>
    rw [List.length_cons, List.drop_succ_cons] at hq
    cases hrun : matchRun job (q' :: ps) with
    | nil =>
      rw [hrun] at hq
      cases hq
      exact matchRun_eq_nil_iff.1 hrun
    | cons r rest' =>
      rw [hrun, List.getLast?_cons_cons, ← hrun] at he
      exact ih he hq
  | case5 p q' ps hm hc' =>
    cases he
    cases hq
    exact absurd hc hc'
  | case6 p q' ps hm => cases he

/-- What the second loop has done when it stops. -/
structure Extended (job : CompareJob) (csum : RunningChecksum) (stop ps : List BlockPair)
    (m : MatchLoop) : Prop where
  bytes : m.csum.bytes =
    csum.bytes ++ ((matchRun job ps).map fun p => p.2.digest).flatten
  empty : matchRun job ps = [] → m.stop = stop ∧ m.matchmore = true ∧ m.pairs = ps
  last : ∀ e, (matchRun job ps).getLast? = some e →
    m.stop = e :: ps.drop (matchRun job ps).length ∧
    (m.matchmore = true ↔ ∃ q rest, ps.drop (matchRun job ps).length = q :: rest ∧
      isContiguous job e q = true) ∧
    (m.matchmore = true → m.pairs = ps.drop (matchRun job ps).length)

variable (job) in
theorem extendMatch_spec (csum : RunningChecksum) (stop ps : List BlockPair) :
    Extended job csum stop ps (extendMatch job csum stop ps) := by
  fun_induction extendMatch job csum stop ps with
  | case1 csum stop => exact ⟨by simp [matchRun], fun _ => ⟨rfl, rfl, rfl⟩, by simp [matchRun]⟩
  | case2 csum stop p hm =>
    have hrun : matchRun job [p] = [p] := by simp [matchRun, hm]
    refine ⟨by simp [hrun], by simp [hrun], ?_⟩
    intro e he
    rw [hrun] at he
    cases he
    simp [hrun]
  | case3 csum stop p hm =>
    have hrun : matchRun job [p] = [] := by simp [matchRun, hm]
    exact ⟨by simp [hrun], fun _ => ⟨rfl, rfl, rfl⟩, by simp [hrun]⟩
  | case4 csum stop p q ps hm csum' hc ih =>
    have hrun : matchRun job (p :: q :: ps) = p :: matchRun job (q :: ps) := by
      simp [matchRun, hm, hc]
    have hcsum : csum'.bytes = csum.bytes ++ p.2.digest := addToRunningChecksum_bytes _ _
    refine ⟨?_, by simp [hrun], ?_⟩
    · rw [ih.bytes, hrun, hcsum]
      simp
    · intro e he
      rw [hrun, List.length_cons, List.drop_succ_cons]
      cases hrest : matchRun job (q :: ps) with
      | nil =>
        rw [hrun, hrest] at he
        cases he
        obtain ⟨hstop, hmore, hpairs⟩ := ih.empty hrest
        exact ⟨hstop, ⟨fun _ => ⟨q, ps, rfl, hc⟩, fun _ => hmore⟩, fun _ => hpairs⟩
      | cons r rest =>
        rw [hrun, hrest, List.getLast?_cons_cons, ← hrest] at he
        rw [← hrest]
        exact ih.last e he
  | case5 csum stop p q ps hm csum' hc =>
    have hrun : matchRun job (p :: q :: ps) = [p] := by simp [matchRun, hm, hc]
    have hcsum : csum'.bytes = csum.bytes ++ p.2.digest := addToRunningChecksum_bytes _ _
    refine ⟨by simp [hrun, hcsum], by simp [hrun], ?_⟩
    intro e he
    rw [hrun] at he
    cases he
    simp [hrun, hc]
  | case6 csum stop p q ps hm =>
    have hrun : matchRun job (p :: q :: ps) = [] := by simp [matchRun, hm]
    exact ⟨by simp [hrun], fun _ => ⟨rfl, rfl, rfl⟩, by simp [hrun]⟩

/-- The first loop drops the mismatching pairs, and it returns when nothing else
    is left. -/
theorem skipMismatches_eq (ps : List BlockPair) :
    skipMismatches job ps =
      if ps.dropWhile (isMismatch job) = [] then none else some (ps.dropWhile (isMismatch job)) := by
  fun_induction skipMismatches job ps with
  | case1 => rfl
  | case2 p hm => simp [hm]
  | case3 p hm => simp [hm]
  | case4 p q ps hm ih => rw [ih, List.dropWhile_cons_of_pos hm]
  | case5 p q ps hm => rw [List.dropWhile_cons_of_neg hm, if_neg (by simp)]

end Run

-- ---------------------------------------------------------------------------
-- Rounds
-- ---------------------------------------------------------------------------

/-- The match id of a run. -/
def runDigest (h : Xxh (List Byte)) (run : List BlockPair) : List Byte :=
  h.xxh128 (run.map fun p => p.2.digest).flatten

/-- What one round finds: the run behind the mismatching pairs, and its last
    pair, which ends inside the searched area. -/
structure Finds (job : CompareJob) (ps run : List BlockPair) (e : BlockPair) : Prop where
  found : run = matchRun job (ps.dropWhile (isMismatch job))
  last : run.getLast? = some e
  inside : blockEnd job.blocksize job.walk.size e.2 ≤ job.extentEnd

/-- Whether the search goes on behind a run: a pair follows that is adjacent to
    its last pair and does not start behind the searched area. -/
def GoesOn (job : CompareJob) (ps run : List BlockPair) (e : BlockPair)
    (rest : List BlockPair) : Prop :=
  (ps.dropWhile (isMismatch job)).drop run.length = rest ∧
    ∃ q, rest.head? = some q ∧ isContiguous job e q = true ∧ q.2.bLoff ≤ job.extentEnd

section Rounds

variable {h : Xxh (List Byte)} {job : CompareJob} {s : CompareState} {start : BlockPair}
variable {ps run : List BlockPair} {e : BlockPair}

/-- A round that finds no run records nothing and returns. -/
theorem compareRound_nothing (hpairs : s.pairs = start :: ps)
    (hno : ∀ run e, ¬ Finds job (start :: ps) run e) :
    compareRound h job s = .leave s.recorded := by
  unfold compareRound
  rw [hpairs]
  simp only
  rw [skipMismatches_eq]
  by_cases hnil : (start :: ps).dropWhile (isMismatch job) = []
  · rw [if_pos hnil]
  · rw [if_neg hnil]
    simp only
    have hext := extendMatch_spec job startRunningChecksum []
      ((start :: ps).dropWhile (isMismatch job))
    generalize extendMatch job startRunningChecksum []
      ((start :: ps).dropWhile (isMismatch job)) = m at hext ⊢
    cases hrun : (matchRun job ((start :: ps).dropWhile (isMismatch job))).getLast? with
    | none => rw [(hext.empty (List.getLast?_eq_none_iff.1 hrun)).1]
    | some e =>
      rw [(hext.last e hrun).1]
      simp only
      rw [if_neg fun hle => hno _ e ⟨rfl, hrun, hle⟩]

/-- A round that finds a run records it with the pair it started from, and goes
    on when it can. -/
theorem compareRound_finds (hpairs : s.pairs = start :: ps) (hf : Finds job (start :: ps) run e) :
    (∃ rest, GoesOn job (start :: ps) run e rest ∧
      compareRound h job s =
        .again ⟨rest, s.recorded ++ [recordMatch job (runDigest h run) start e]⟩) ∨
    ((∀ rest, ¬ GoesOn job (start :: ps) run e rest) ∧
      compareRound h job s =
        .leave (s.recorded ++ [recordMatch job (runDigest h run) start e])) := by
  obtain ⟨rfl, hlast, hinside⟩ := hf
  have hnil : (start :: ps).dropWhile (isMismatch job) ≠ [] := by
    intro hnil
    rw [hnil] at hlast
    cases hlast
  unfold compareRound
  rw [hpairs]
  simp only
  rw [skipMismatches_eq, if_neg hnil]
  simp only
  have hext := extendMatch_spec job startRunningChecksum []
    ((start :: ps).dropWhile (isMismatch job))
  generalize extendMatch job startRunningChecksum []
    ((start :: ps).dropWhile (isMismatch job)) = m at hext ⊢
  obtain ⟨hstop, hmore, hcur⟩ := hext.last e hlast
  have hdigest : finishRunningChecksum h m.csum =
      runDigest h (matchRun job ((start :: ps).dropWhile (isMismatch job))) := by
    rw [finishRunningChecksum_eq, hext.bytes]
    rfl
  rw [hstop]
  simp only [if_pos hinside, hdigest]
  cases hm : m.matchmore with
  | false =>
    right
    refine ⟨?_, rfl⟩
    rintro rest ⟨hrest, q, hq, hc, -⟩
    rw [Bool.eq_false_iff, Ne, hmore] at hm
    obtain ⟨rest', rfl⟩ : ∃ rest', rest = q :: rest' := by
      cases rest with
      | nil => cases hq
      | cons q' rest' =>
        cases hq
        exact ⟨rest', rfl⟩
    exact hm ⟨q, rest', hrest, hc⟩
  | true =>
    obtain ⟨q, rest, hrest, hc⟩ := hmore.1 hm
    rw [hcur hm, hrest]
    simp only [if_true]
    by_cases hpast : q.2.bLoff > job.extentEnd
    · right
      refine ⟨?_, by rw [if_pos hpast]⟩
      rintro rest' ⟨hrest', q', hq', -, hle⟩
      rw [hrest] at hrest'
      subst hrest'
      cases hq'
      omega
    · left
      exact ⟨q :: rest, ⟨hrest, q, rfl, hc, by omega⟩, by rw [if_neg hpast]⟩

end Rounds

-- ---------------------------------------------------------------------------
-- The first match is real
-- ---------------------------------------------------------------------------

theorem map_fst_zip_isPrefix {α β : Type} (as : List α) (bs : List β) :
    (as.zip bs).map Prod.fst <+: as := by
  induction as generalizing bs with
  | nil => exact List.nil_prefix
  | cons a as ih =>
    cases bs with
    | nil => exact List.nil_prefix
    | cons b bs => exact (List.prefix_cons_inj a).2 (ih bs)

theorem map_snd_zip_isPrefix {α β : Type} (as : List α) (bs : List β) :
    (as.zip bs).map Prod.snd <+: bs := by
  induction bs generalizing as with
  | nil => simp
  | cons b bs ih =>
    cases as with
    | nil => exact List.nil_prefix
    | cons a as => exact (List.prefix_cons_inj b).2 (ih as)

/-- In a chain of adjacent blocks the last offset is a multiple of the block size
    behind the first one. -/
theorem last_bLoff_of_isChain {blocksize : Nat} {a z : FileBlock} {blocks : List FileBlock}
    (hchain : (a :: blocks).IsChain fun a b => b.bLoff = a.bLoff + blocksize)
    (hlast : (a :: blocks).getLast? = some z) :
    z.bLoff = a.bLoff + blocks.length * blocksize := by
  induction blocks generalizing a with
  | nil =>
    cases hlast
    simp
  | cons b blocks ih =>
    obtain ⟨hstep, hchain⟩ := List.isChain_cons_cons.1 hchain
    rw [ih hchain (by rwa [List.getLast?_cons_cons] at hlast), hstep, List.length_cons,
      Nat.succ_mul]
    omega

theorem blockLen_add_lt {f : BlockFile} {b : FileBlock} (hb : b ∈ f.blocks) (blocksize : Nat) :
    blockLen blocksize f.size b + b.bLoff < 2 ^ 64 := by
  have hsize := f.size_lt
  have hoff := f.bLoff_lt b hb
  have hmod := Nat.mod_le (f.size - b.bLoff) blocksize
  unfold blockLen
  split
  · omega
  · split <;> omega

/-- A range from a block to a later one has the bytes between them and the last
    block. -/
theorem rangeBytes_blockEnd {blocksize size soff : Nat} {z : FileBlock} (hle : soff ≤ z.bLoff)
    (hlt : blockLen blocksize size z + z.bLoff < 2 ^ 64) :
    rangeBytes soff (blockEnd blocksize size z) =
      blockLen blocksize size z + (z.bLoff - soff) := by
  unfold rangeBytes blockEnd
  generalize blockLen blocksize size z = len at *
  by_cases hzero : len + z.bLoff = 0
  · have hsoff : soff = 0 := by omega
    have hlen : len = 0 := by omega
    have hoff : z.bLoff = 0 := by omega
    rw [hsoff, hlen, hoff]
    decide
  · have hend : Word.sub 64 (len + z.bLoff) 1 = len + z.bLoff - 1 := Word.sub_of_le (by omega)
    rw [hend]
    by_cases hempty : soff ≤ len + z.bLoff - 1
    · rw [Word.sub_of_le hempty, Word.wrap_of_lt (by omega)]
      omega
    · -- An empty last block: the length wraps around to zero.
      have hlen : len = 0 := by omega
      have hoff : z.bLoff = soff := by omega
      have hone : soff - (0 + soff - 1) = 1 := by omega
      rw [hlen, hoff, Word.sub, if_neg (by omega), hone]
      simp [Word.wrap]

/-- One side of a run of adjacent pairs: its blocks are a range of the file, up to the
    block of the last pair. -/
theorem isRange_side {f : BlockFile} {blocksize : Nat} {start e : BlockPair}
    {tail : List BlockPair} (side : BlockPair → FileBlock)
    (hin : (start :: tail).map side <:+: f.blocks)
    (hchain : (start :: tail).IsChain fun p q => (side q).bLoff = (side p).bLoff + blocksize)
    (he : (start :: tail).getLast? = some e) :
    IsRange blocksize f (side start).bLoff (blockEnd blocksize f.size (side e))
        ((start :: tail).map side) ∧
      rangeBytes (side start).bLoff (blockEnd blocksize f.size (side e)) =
        blockLen blocksize f.size (side e) + tail.length * blocksize := by
  have hblocks : ((start :: tail).map side).IsChain fun a b => b.bLoff = a.bLoff + blocksize := by
    rw [List.isChain_map]
    exact hchain
  have hlast : ((start :: tail).map side).getLast? = some (side e) := by
    rw [List.getLast?_map, he]
    rfl
  have hmem : side e ∈ f.blocks := hin.subset (List.mem_map_of_mem (List.mem_of_getLast? he))
  have hoff := last_bLoff_of_isChain hblocks hlast
  rw [List.length_map] at hoff
  refine ⟨⟨hin, hblocks, rfl, ?_⟩, ?_⟩
  · rw [hlast]
    rfl
  · rw [rangeBytes_blockEnd (by omega) (blockLen_add_lt hmem _), hoff, Nat.add_sub_cancel_left]

section First

variable {h : Xxh (List Byte)} {job : CompareJob} {i j : Nat}
variable {run ps : List BlockPair} {start e : BlockPair}

variable (job) in
/-- A nonempty run from the start of the walk gives a real match. -/
theorem realMatch_matchRun
    (hlens : ∀ a ∈ job.orig.blocks, ∀ b ∈ job.walk.blocks, a.digest = b.digest →
      blockLen job.blocksize job.orig.size a = blockLen job.blocksize job.walk.size b)
    (hpairs : lockstep job.orig job.walk i j = start :: ps)
    (hrun : run = matchRun job (start :: ps)) (he : run.getLast? = some e) :
    RealMatch h job.blocksize job.orig job.walk (recordMatch job (runDigest h run) start e) := by
  have hinit : run <+: lockstep job.orig job.walk i j := by
    rw [hpairs, hrun]
    exact matchRun_isPrefix job _
  have hchain : run.IsChain fun p q => isContiguous job p q = true := by
    rw [hrun]
    exact matchRun_isChain _
  have hdigests : ∀ p ∈ run, p.2.digest = p.1.digest := by
    intro p hp
    rw [hrun] at hp
    have hm := isMatch_of_mem_matchRun hp
    simp only [isMatch, Bool.and_eq_true, decide_eq_true_eq] at hm
    exact hm.1
  obtain ⟨tail, rfl⟩ : ∃ tail, run = start :: tail := by
    rw [hpairs] at hinit
    cases run with
    | nil => cases he
    | cons p tail =>
      obtain ⟨rest, hrest⟩ := hinit
      cases hrest
      exact ⟨tail, rfl⟩
  -- The two projections of the run are runs of blocks of the two files.
  have hfst : (start :: tail).map Prod.fst <:+: job.orig.blocks :=
    ((hinit.map Prod.fst).trans (map_fst_zip_isPrefix _ _)).isInfix.trans
      (List.drop_suffix _ _).isInfix
  have hsnd : (start :: tail).map Prod.snd <:+: job.walk.blocks :=
    ((hinit.map Prod.snd).trans (map_snd_zip_isPrefix _ _)).isInfix.trans
      (List.drop_suffix _ _).isInfix
  simp only [isContiguous, Bool.and_eq_true, decide_eq_true_eq] at hchain
  obtain ⟨hrange₁, hbytes₁⟩ := isRange_side Prod.fst hfst (hchain.imp fun p q hpq => hpq.1) he
  obtain ⟨hrange₂, hbytes₂⟩ := isRange_side Prod.snd hsnd (hchain.imp fun p q hpq => hpq.2) he
  have hmem : e ∈ start :: tail := List.mem_of_getLast? he
  have hlen := hlens e.1 (hfst.subset (List.mem_map_of_mem hmem)) e.2
    (hsnd.subset (List.mem_map_of_mem hmem)) (hdigests e hmem).symm
  have hsame : (start :: tail).map (fun p => p.1.digest) =
      (start :: tail).map fun p => p.2.digest :=
    List.map_congr_left fun p hp => (hdigests p hp).symm
  refine ⟨(start :: tail).map Prod.fst, (start :: tail).map Prod.snd, hrange₁, hrange₂, ?_, ?_, ?_,
    ?_⟩
  · rw [List.length_map, List.length_map]
  · exact hbytes₁.trans (hlen ▸ hbytes₂.symm)
  · rw [List.map_map, List.map_map]
    exact hsame
  · rw [List.map_map]
    show runDigest h (start :: tail) = _
    rw [runDigest, ← hsame]
    rfl

end First

-- ---------------------------------------------------------------------------
-- A later match is not
-- ---------------------------------------------------------------------------

/-- Two blocks of a tree at the same offset are the same block. -/
theorem BlockFile.eq_of_bLoff {f : BlockFile} {a b : FileBlock} (ha : a ∈ f.blocks)
    (hb : b ∈ f.blocks) (heq : a.bLoff = b.bLoff) : a = b := by
  obtain ⟨m, hm, rfl⟩ := List.getElem_of_mem ha
  obtain ⟨n, hn, rfl⟩ := List.getElem_of_mem hb
  have hsorted := List.pairwise_iff_getElem.1 f.sorted
  rcases Nat.lt_trichotomy m n with hlt | rfl | hgt
  · have := hsorted m n hm hn hlt
    omega
  · rfl
  · have := hsorted n m hn hm hgt
    omega

/-- The first block of a range is the block at its first offset. -/
theorem IsRange.head_eq {blocksize : Nat} {f : BlockFile} {eoff : Nat} {a : FileBlock}
    {blocks : List FileBlock} (hr : IsRange blocksize f a.bLoff eoff blocks) (ha : a ∈ f.blocks) :
    blocks.head? = some a := by
  have hfirst := hr.first
  cases hblocks : blocks with
  | nil =>
    rw [hblocks] at hfirst
    cases hfirst
  | cons b rest =>
    rw [hblocks] at hfirst
    have hb : b ∈ f.blocks := hr.inFile.subset (by rw [hblocks]; exact List.mem_cons_self)
    rw [List.head?_cons, BlockFile.eq_of_bLoff hb ha (Option.some.inj hfirst)]

/-- A match that starts with two different digests is not real. -/
theorem not_realMatch_of_start {h : Xxh (List Byte)} (job : CompareJob) {start e : BlockPair}
    {digest : List Byte} (h₁ : start.1 ∈ job.orig.blocks) (h₂ : start.2 ∈ job.walk.blocks)
    (hne : start.2.digest ≠ start.1.digest) :
    ¬ RealMatch h job.blocksize job.orig job.walk (recordMatch job digest start e) := by
  rintro ⟨as, cs, has, hcs, -, -, hdigests, -⟩
  have ha := IsRange.head_eq has h₁
  have hc := IsRange.head_eq hcs h₂
  have hheads := congrArg List.head? hdigests
  rw [List.head?_map, List.head?_map, ha, hc] at hheads
  exact hne (Option.some.inj hheads).symm

-- ---------------------------------------------------------------------------
-- Whole calls
-- ---------------------------------------------------------------------------

/-- Behind the first run the search goes on inside the searched area, and it
    finds a second run. -/
def HasSecondRun (job : CompareJob) (ps : List BlockPair) : Prop :=
  ∃ run e rest run' e', Finds job ps run e ∧ GoesOn job ps run e rest ∧ Finds job rest run' e'

section Call

variable {h : Xxh (List Byte)} {job : CompareJob} {s : CompareState} {start e : BlockPair}
variable {ps run rest : List BlockPair}

/-- Nothing is found behind the last pair. -/
theorem not_finds_nil : ¬ Finds job [] run e := by
  rintro ⟨rfl, hlast, -⟩
  cases hlast

theorem GoesOn.length_lt (hf : Finds job ps run e) (hg : GoesOn job ps run e rest) :
    rest.length < ps.length := by
  obtain ⟨hrest, q, hq, -, -⟩ := hg
  have hrun : 0 < run.length := List.length_pos_of_mem (List.mem_of_getLast? hf.last)
  have hdrop := (List.dropWhile_suffix (isMismatch job) (l := ps)).length_le
  have hne : rest ≠ [] := by
    rintro rfl
    cases hq
  have hpos := List.length_pos_iff.2 hne
  rw [← hrest, List.length_drop] at hpos ⊢
  omega

/-- The pair behind a run, when another run is found from there on, has two
    different digests. -/
theorem GoesOn.head_differs {run' : List BlockPair} {q e' : BlockPair}
    (hf : Finds job ps run e) (hg : GoesOn job ps run e rest) (hf' : Finds job rest run' e')
    (hq : rest.head? = some q) : q.2.digest ≠ q.1.digest := by
  obtain ⟨hrest, q', hq', hc, -⟩ := hg
  rw [hq] at hq'
  cases hq'
  cases rest with
  | nil => cases hq
  | cons p tail =>
    cases hq
    have hnomatch : isMatch job q = false := by
      rw [hf.found] at hrest
      refine isMatch_after_matchRun ?_ hrest hc
      rw [← hf.found]
      exact hf.last
    have hskip : isMismatch job q = true := by
      by_contra hskip
      have hrun := hf'.found
      rw [List.dropWhile_cons_of_neg hskip, matchRun_eq_nil_iff.2 hnomatch] at hrun
      have hlast := hf'.last
      rw [hrun] at hlast
      cases hlast
    simp only [isMismatch, Bool.and_eq_true, decide_eq_true_eq] at hskip
    exact hskip.1

variable (h job) in
/-- What a round records, and whether there is a next one. -/
theorem compareRound_cases (s : CompareState) :
    ((∀ run e, ¬ Finds job s.pairs run e) ∧ compareRound h job s = .leave s.recorded) ∨
    ∃ start ps run e, s.pairs = start :: ps ∧ Finds job s.pairs run e ∧
      ((∃ rest, GoesOn job s.pairs run e rest ∧
        compareRound h job s =
          .again ⟨rest, s.recorded ++ [recordMatch job (runDigest h run) start e]⟩) ∨
      ((∀ rest, ¬ GoesOn job s.pairs run e rest) ∧
        compareRound h job s =
          .leave (s.recorded ++ [recordMatch job (runDigest h run) start e]))) := by
  by_cases hfinds : ∃ run e, Finds job s.pairs run e
  · right
    obtain ⟨run, e, hf⟩ := hfinds
    cases hpairs : s.pairs with
    | nil =>
      rw [hpairs] at hf
      exact absurd hf not_finds_nil
    | cons start ps =>
      rw [hpairs] at hf
      exact ⟨start, ps, run, e, rfl, hf, compareRound_finds hpairs hf⟩
  · left
    have hno : ∀ run e, ¬ Finds job s.pairs run e := fun run e hf => hfinds ⟨run, e, hf⟩
    refine ⟨hno, ?_⟩
    cases hpairs : s.pairs with
    | nil => rw [compareRound, hpairs]
    | cons start ps =>
      rw [hpairs] at hno
      exact compareRound_nothing hpairs hno

variable (h job) in
/-- Every call returns, and a round only adds to what was recorded before it. -/
theorem run_compareRound (s : CompareState) (fuel : Nat) (hfuel : s.pairs.length < fuel) :
    ∃ ms, Loop.run (compareRound h job) fuel s = some ms ∧ s.recorded <+: ms := by
  refine Loop.run_total (fun t => s.recorded <+: t.recorded)
    (fun t => t.pairs.length) ?_ fuel s (List.prefix_refl _) hfuel
  intro t hinv
  rcases compareRound_cases h job t with
    ⟨-, heq⟩ | ⟨start, ps, run, e, -, hf, ⟨rest, hg, heq⟩ | ⟨-, heq⟩⟩
  · exact .inr ⟨_, heq, hinv⟩
  · exact .inl ⟨_, heq, hinv.trans (List.prefix_append _ _), hg.length_lt hf⟩
  · exact .inr ⟨_, heq, hinv.trans (List.prefix_append _ _)⟩

/-- Without a second run a call records at most one match, from its first run. -/
theorem run_compareRound_once (fuel : Nat) (hpairs : s.pairs = start :: ps)
    (hnone : s.recorded = []) (hfuel : s.pairs.length < fuel)
    (honce : ¬ HasSecondRun job (start :: ps)) :
    ∃ ms, Loop.run (compareRound h job) fuel s = some ms ∧
      ∀ m ∈ ms, ∃ run e, Finds job (start :: ps) run e ∧
        m = recordMatch job (runDigest h run) start e := by
  obtain ⟨fuel, rfl⟩ : ∃ n, fuel = n + 1 := ⟨fuel - 1, by omega⟩
  rcases compareRound_cases h job s with
    ⟨-, heq⟩ | ⟨start', ps', run, e, hpairs', hf, ⟨rest, hg, heq⟩ | ⟨-, heq⟩⟩
  · exact ⟨_, Loop.run_leave heq fuel, by simp [hnone]⟩
  · rw [hpairs] at hpairs'
    cases hpairs'
    have hlt := hg.length_lt hf
    rw [hpairs] at hf hg
    -- The second round finds nothing and returns.
    obtain ⟨fuel, rfl⟩ : ∃ n, fuel = n + 1 := ⟨fuel - 1, by omega⟩
    rcases compareRound_cases h job
        ⟨rest, s.recorded ++ [recordMatch job (runDigest h run) start e]⟩ with
      ⟨-, heq'⟩ | ⟨_, _, run', e', -, hf', -⟩
    · refine ⟨_, by rw [Loop.run_again heq, Loop.run_leave heq'], ?_⟩
      simp only [hnone, List.nil_append, List.mem_singleton]
      rintro m rfl
      exact ⟨run, e, hf, rfl⟩
    · exact absurd ⟨run, e, rest, run', e', hf, hg, hf'⟩ honce
  · rw [hpairs] at hpairs'
    cases hpairs'
    refine ⟨_, Loop.run_leave heq fuel, ?_⟩
    simp only [hnone, List.nil_append, List.mem_singleton]
    rintro m rfl
    exact ⟨run, e, by rw [← hpairs]; exact hf, rfl⟩

/-- The run that a round finds is recorded, whatever the later rounds do. -/
theorem run_compareRound_finds (fuel : Nat) (hpairs : s.pairs = start :: ps)
    (hf : Finds job s.pairs run e) (hfuel : s.pairs.length < fuel) :
    ∃ ms, Loop.run (compareRound h job) fuel s = some ms ∧
      recordMatch job (runDigest h run) start e ∈ ms := by
  obtain ⟨fuel, rfl⟩ : ∃ n, fuel = n + 1 := ⟨fuel - 1, by omega⟩
  have hmem : recordMatch job (runDigest h run) start e ∈
      s.recorded ++ [recordMatch job (runDigest h run) start e] :=
    List.mem_append_right _ (List.mem_singleton.2 rfl)
  rw [hpairs] at hf
  rcases compareRound_finds (h := h) hpairs hf with ⟨rest, hg, heq⟩ | ⟨-, heq⟩
  · have hlt := hg.length_lt hf
    rw [← hpairs] at hlt
    obtain ⟨ms, hrun, hinit⟩ := run_compareRound h job
      ⟨rest, s.recorded ++ [recordMatch job (runDigest h run) start e]⟩ fuel
      (by simp only; omega)
    exact ⟨ms, by rw [Loop.run_again heq, hrun], hinit.subset hmem⟩
  · exact ⟨_, Loop.run_leave heq fuel, hmem⟩

/-- A second run is recorded, with the pair behind the first run as its start. -/
theorem run_compareRound_twice (fuel : Nat) (hpairs : s.pairs = start :: ps)
    (hfuel : s.pairs.length < fuel) (htwice : HasSecondRun job (start :: ps)) :
    ∃ ms, Loop.run (compareRound h job) fuel s = some ms ∧
      ∃ q ∈ start :: ps, q.2.digest ≠ q.1.digest ∧ ∃ digest e, recordMatch job digest q e ∈ ms := by
  obtain ⟨run, e, rest, run', e', hf, hg, hf'⟩ := htwice
  have hlt := hg.length_lt hf
  rw [← hpairs] at hlt
  obtain ⟨fuel, rfl⟩ : ∃ n, fuel = n + 1 := ⟨fuel - 1, by omega⟩
  cases rest with
  | nil => exact absurd hf' not_finds_nil
  | cons q tail =>
    have hmem : q ∈ start :: ps := by
      refine (List.dropWhile_suffix (isMismatch job)).subset ?_
      refine (List.drop_suffix run.length _).subset ?_
      rw [hg.1]
      exact List.mem_cons_self
    have hne : q.2.digest ≠ q.1.digest := hg.head_differs hf hf' rfl
    rcases compareRound_finds (h := h) hpairs hf with ⟨rest', hg', heq⟩ | ⟨hno, -⟩
    · have hrest : rest' = q :: tail := hg'.1.symm.trans hg.1
      subst hrest
      obtain ⟨ms, hrun, hin⟩ := run_compareRound_finds (h := h)
        (s := ⟨q :: tail, s.recorded ++ [recordMatch job (runDigest h run) start e]⟩)
        fuel rfl hf' (by simp only; omega)
      exact ⟨ms, by rw [Loop.run_again heq, hrun], q, hmem, hne, _, e', hin⟩
    · exact absurd hg (hno _)

end Call

/-- Blocks with the same digest have the same length. -/
def LengthsAgree (blocksize : Nat) (orig walk : BlockFile) : Prop :=
  ∀ a ∈ orig.blocks, ∀ b ∈ walk.blocks, a.digest = b.digest →
    blockLen blocksize orig.size a = blockLen blocksize walk.size b

theorem lockstep_eq_cons {orig walk : BlockFile} {i j : Nat} {a b : FileBlock}
    (ha : orig.blocks[i]? = some a) (hb : walk.blocks[j]? = some b) :
    ∃ ps, lockstep orig walk i j = (a, b) :: ps := by
  obtain ⟨hi, hgeta⟩ := List.getElem?_eq_some_iff.1 ha
  obtain ⟨hj, hgetb⟩ := List.getElem?_eq_some_iff.1 hb
  rw [lockstep, List.drop_eq_getElem_cons hi, List.drop_eq_getElem_cons hj, hgeta, hgetb]
  exact ⟨_, rfl⟩

/-- The matches of a call that starts at two blocks with the same digest are all
    real exactly when no second run follows the first one. -/
theorem compareExtents_real_iff (h : Xxh (List Byte)) {blocksize : Nat} {orig walk : BlockFile}
    {i j : Nat} {a b : FileBlock} (ha : orig.blocks[i]? = some a) (hb : walk.blocks[j]? = some b)
    (hsame : a.digest = b.digest) (hlens : LengthsAgree blocksize orig walk) (searchLen : Nat) :
    ∃ ms, compareExtents h blocksize orig walk i j searchLen = some ms ∧
      ((∀ m ∈ ms, RealMatch h blocksize orig walk m) ↔
        ¬ HasSecondRun ⟨blocksize, orig, walk, extentEndOf b.bLoff searchLen⟩
          (lockstep orig walk i j)) := by
  obtain ⟨ps, hpairs⟩ := lockstep_eq_cons ha hb
  have hcall : compareExtents h blocksize orig walk i j searchLen =
      Loop.run (compareRound h ⟨blocksize, orig, walk, extentEndOf b.bLoff searchLen⟩)
        (ps.length + 2) ⟨(a, b) :: ps, []⟩ := by
    rw [compareExtents, hpairs]
  rw [hcall, hpairs]
  generalize hjob : (⟨blocksize, orig, walk, extentEndOf b.bLoff searchLen⟩ : CompareJob) = job
  by_cases htwice : HasSecondRun job ((a, b) :: ps)
  · obtain ⟨ms, hrun, q, hq, hne, digest, e, hin⟩ :=
      run_compareRound_twice (h := h) (s := ⟨(a, b) :: ps, []⟩) (ps.length + 2) rfl
        (by simp) htwice
    refine ⟨ms, hrun, ⟨fun hreal => ?_, fun hno => absurd htwice hno⟩⟩
    rw [← hpairs] at hq
    have hq' : q ∈ (orig.blocks.drop i).zip (walk.blocks.drop j) := hq
    have hq₁ : q.1 ∈ orig.blocks := List.mem_of_mem_drop (List.of_mem_zip hq').1
    have hq₂ : q.2 ∈ walk.blocks := List.mem_of_mem_drop (List.of_mem_zip hq').2
    subst hjob
    exact (not_realMatch_of_start ⟨blocksize, orig, walk, _⟩ hq₁ hq₂ hne
      (hreal _ hin)).elim
  · obtain ⟨ms, hrun, honly⟩ :=
      run_compareRound_once (h := h) (s := ⟨(a, b) :: ps, []⟩) (ps.length + 2) rfl rfl
        (by simp) htwice
    refine ⟨ms, hrun, ⟨fun _ => htwice, fun _ m hm => ?_⟩⟩
    obtain ⟨run, e, hf, rfl⟩ := honly m hm
    -- The call starts on a match, so the first round skips nothing.
    have hstay : ((a, b) :: ps).dropWhile (isMismatch job) = (a, b) :: ps := by
      refine List.dropWhile_cons_of_neg ?_
      simp [isMismatch, hsame]
    have hfound := hf.found
    rw [hstay] at hfound
    subst hjob
    exact realMatch_matchRun ⟨blocksize, orig, walk, _⟩ hlens hpairs hfound hf.last

/-- A file of three whole blocks with the given digests. -/
def threeBlocks (file : FileId) (d₀ d₁ d₂ : List Byte) : BlockFile where
  file := file
  size := 12288
  blocks := [⟨0, d₀⟩, ⟨4096, d₁⟩, ⟨8192, d₂⟩]
  sorted := by simp
  size_lt := by decide
  bLoff_lt := by simp

/-- Two files that differ in their last block: the match of the first two blocks
    is the only one. -/
theorem compareExtents_real_lastDiffers :
    LengthsAgree 4096 (threeBlocks 0 [1] [2] [3]) (threeBlocks 1 [1] [2] [4]) ∧
    ∃ ms, compareExtents Xxh.message 4096 (threeBlocks 0 [1] [2] [3]) (threeBlocks 1 [1] [2] [4])
        0 0 12288 = some ms ∧
      ((∀ m ∈ ms, RealMatch Xxh.message 4096 (threeBlocks 0 [1] [2] [3])
          (threeBlocks 1 [1] [2] [4]) m) ↔
        ¬ HasSecondRun ⟨4096, threeBlocks 0 [1] [2] [3], threeBlocks 1 [1] [2] [4],
            extentEndOf 0 12288⟩
          (lockstep (threeBlocks 0 [1] [2] [3]) (threeBlocks 1 [1] [2] [4]) 0 0)) := by
  have hlens : LengthsAgree 4096 (threeBlocks 0 [1] [2] [3]) (threeBlocks 1 [1] [2] [4]) := by
    unfold LengthsAgree
    decide
  exact ⟨hlens, compareExtents_real_iff Xxh.message (a := ⟨0, [1]⟩) (b := ⟨0, [1]⟩) rfl rfl rfl
    hlens 12288⟩

/-- Two files that differ in the block in the middle: the second match is
    recorded from there on, although it starts behind it. -/
theorem compareExtents_unreal_middleDiffers :
    LengthsAgree 4096 (threeBlocks 0 [1] [2] [3]) (threeBlocks 1 [1] [9] [3]) ∧
    compareExtents Xxh.message 4096 (threeBlocks 0 [1] [2] [3]) (threeBlocks 1 [1] [9] [3])
        0 0 12288 =
      some [⟨[1], (0, 0), (4095, 4095)⟩, ⟨[3], (4096, 4096), (12287, 12287)⟩] ∧
    ¬ RealMatch Xxh.message 4096 (threeBlocks 0 [1] [2] [3]) (threeBlocks 1 [1] [9] [3])
        ⟨[3], (4096, 4096), (12287, 12287)⟩ := by
  refine ⟨?_, by decide +kernel, ?_⟩
  · unfold LengthsAgree
    decide
  · have hmatch : (⟨[3], (4096, 4096), (12287, 12287)⟩ : BlockMatch) =
        recordMatch ⟨4096, threeBlocks 0 [1] [2] [3], threeBlocks 1 [1] [9] [3], 12287⟩ [3]
          (⟨4096, [2]⟩, ⟨4096, [9]⟩) (⟨8192, [3]⟩, ⟨8192, [3]⟩) := by decide +kernel
    rw [hmatch]
    exact not_realMatch_of_start
      ⟨4096, threeBlocks 0 [1] [2] [3], threeBlocks 1 [1] [9] [3], 12287⟩
      (by decide) (by decide) (by decide)

end Duperemove
