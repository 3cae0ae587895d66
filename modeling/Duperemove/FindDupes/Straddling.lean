-- SUMMARY: Which matches that fit the searched area `compare_extents` throws away: those with a match across its end behind them.
import Mathlib.Order.Bounds.Defs
import Duperemove.FindDupes.Soundness

/-!
# Matches at the end of the searched area

The loop of `compare_extents` takes a pair as long as its block starts in front of the
last byte of the searched area, and the whole match is thrown away when its last block
ends behind that byte. So a match that fits is lost when the pair behind it matches as
well and lies across the end of the area, or when one of its own pairs starts at the
last byte.
-/

namespace Duperemove

-- ---------------------------------------------------------------------------
-- Pairs that fit
-- ---------------------------------------------------------------------------

/-- The first `k` pairs have equal digests, are adjacent and end in the searched area. -/
structure FitsFirst (job : CompareJob) (ps : List BlockPair) (k : Nat) : Prop where
  le : k ≤ ps.length
  same : ∀ p ∈ ps.take k, p.2.digest = p.1.digest
  adjacent : (ps.take k).IsChain fun p q => isContiguous job p q = true
  inside : ∀ p ∈ ps.take k, blockEnd job.blocksize job.walk.size p.2 ≤ job.extentEnd

/-- The bytes of a block lie in a range. -/
def HoldsBlock (blocksize size soff eoff : Nat) (b : FileBlock) : Prop :=
  ∀ off, b.bLoff ≤ off → off < b.bLoff + blockLen blocksize size b → soff ≤ off ∧ off ≤ eoff

/-- A match covers a pair in both files. -/
structure BlockMatch.Covers (job : CompareJob) (m : BlockMatch) (p : BlockPair) : Prop where
  orig : HoldsBlock job.blocksize job.orig.size m.soff.1 m.eoff.1 p.1
  walk : HoldsBlock job.blocksize job.walk.size m.soff.2 m.eoff.2 p.2

/-- Neither block of the pair has a byte. -/
def BothEmpty (job : CompareJob) (p : BlockPair) : Prop :=
  blockLen job.blocksize job.orig.size p.1 = 0 ∧ blockLen job.blocksize job.walk.size p.2 = 0

/-- The first `k` pairs end evenly: the first one starts in front of the last byte of the
    searched area, those that do not are empty, and the pair behind them, if it goes on
    with the match, does not start in front of that byte. -/
structure EndsEvenly (job : CompareJob) (ps : List BlockPair) (k : Nat) : Prop where
  starts : ∀ p ∈ ps.head?, p.2.bLoff < job.extentEnd
  late : ∀ p ∈ ps.take k, job.extentEnd ≤ p.2.bLoff → BothEmpty job p
  next : ∀ e ∈ (ps.take k).getLast?, ∀ q ∈ ps[k]?, isContiguous job e q = true →
    q.2.digest = q.1.digest → job.extentEnd ≤ q.2.bLoff

section Fits

variable {job : CompareJob} {ps : List BlockPair} {k : Nat}

/-- A pair lies a block or more behind another one in both files. -/
def Behind (job : CompareJob) (p q : BlockPair) : Prop :=
  p.1.bLoff + job.blocksize ≤ q.1.bLoff ∧ p.2.bLoff + job.blocksize ≤ q.2.bLoff

theorem pairwise_behind (hchain : ps.IsChain fun p q => isContiguous job p q = true) :
    ps.Pairwise (Behind job) := by
  have htrans : ∀ {p q r : BlockPair}, Behind job p q → Behind job q r → Behind job p r := by
    rintro p q r ⟨h₁, h₂⟩ ⟨h₃, h₄⟩
    exact ⟨by omega, by omega⟩
  have : Trans (Behind job) (Behind job) (Behind job) := ⟨htrans⟩
  refine (hchain.imp fun p q hc => ?_).pairwise
  simp only [isContiguous, Bool.and_eq_true, decide_eq_true_eq] at hc
  exact ⟨by omega, by omega⟩

/-- The run has the first `k` pairs when all of them match and are adjacent. -/
theorem le_length_matchRun_iff :
    k ≤ (matchRun job ps).length ↔
      k ≤ ps.length ∧ (∀ p ∈ ps.take k, isMatch job p = true) ∧
        (ps.take k).IsChain fun p q => isContiguous job p q = true := by
  constructor
  · intro hk
    obtain ⟨rest, hps⟩ := matchRun_isPrefix job ps
    have htake : ps.take k = (matchRun job ps).take k := by
      rw [← List.take_append_of_le_length hk, hps]
    have hlen := (matchRun_isPrefix job ps).length_le
    rw [htake]
    exact ⟨by omega, fun p hp => isMatch_of_mem_matchRun (List.mem_of_mem_take hp),
      (matchRun_isChain ps).take k⟩
  · rintro ⟨hle, hmatch, hchain⟩
    fun_induction matchRun job ps generalizing k with
    | case1 => exact hle
    | case2 p hm => exact hle
    | case3 p hm =>
      cases k with
      | zero => exact Nat.zero_le _
      | succ k => exact absurd (hmatch p List.mem_cons_self) hm
    | case4 p q ps hm hc ih =>
      cases k with
      | zero => exact Nat.zero_le _
      | succ k =>
        rw [List.take_succ_cons] at hmatch hchain
        refine Nat.succ_le_succ (ih (Nat.le_of_succ_le_succ hle) (fun p hp => ?_) hchain.of_cons)
        exact hmatch p (List.mem_cons_of_mem _ hp)
    | case5 p q ps hm hc =>
      rcases k with _ | _ | k
      · exact Nat.zero_le _
      · exact Nat.le_refl _
      · rw [List.take_succ_cons, List.take_succ_cons] at hchain
        exact absurd (List.isChain_cons_cons.1 hchain).1 hc
    | case6 p q ps hm =>
      cases k with
      | zero => exact Nat.zero_le _
      | succ k => exact absurd (hmatch p List.mem_cons_self) hm

theorem isMatch_iff {p : BlockPair} :
    isMatch job p = true ↔ p.2.digest = p.1.digest ∧ p.2.bLoff < job.extentEnd := by
  simp [isMatch]

/-- A block has no byte behind its end. -/
theorem le_blockEnd {f : BlockFile} {b : FileBlock} (hb : b ∈ f.blocks) {blocksize off : Nat}
    (hle : b.bLoff ≤ off) (hlt : off < b.bLoff + blockLen blocksize f.size b) :
    off ≤ blockEnd blocksize f.size b := by
  have hbits := blockLen_add_lt hb blocksize
  rw [blockEnd, Word.sub_of_le (by omega)]
  omega

theorem blockLen_le (blocksize size : Nat) (b : FileBlock) :
    blockLen blocksize size b ≤ blocksize := by
  unfold blockLen
  split
  · exact Nat.le_refl _
  · split
    · exact Nat.zero_le _
    · rcases Nat.eq_zero_or_pos blocksize with rfl | hpos
      · omega
      · exact Nat.le_of_lt (Nat.mod_lt _ hpos)

/-- Nor does a block that lies a block or more in front. -/
theorem le_blockEnd_of_behind {f : BlockFile} {b c : FileBlock} (hc : c ∈ f.blocks)
    {blocksize off : Nat} (hbehind : b.bLoff + blocksize ≤ c.bLoff)
    (hlt : off < b.bLoff + blockLen blocksize f.size b) : off ≤ blockEnd blocksize f.size c := by
  have hlen := blockLen_le blocksize f.size b
  have hbits := blockLen_add_lt hc blocksize
  rw [blockEnd, Word.sub_of_le (by omega)]
  omega

/-- A block ends in front of a block behind it, unless that one is empty. -/
theorem blockEnd_lt_of_behind {blocksize size : Nat} {b c : FileBlock}
    (hbehind : b.bLoff + blocksize ≤ c.bLoff) (hpos : 0 < blockLen blocksize size c) :
    blockEnd blocksize size b < c.bLoff := by
  have hblock := Nat.lt_of_lt_of_le hpos (blockLen_le blocksize size c)
  have hin : c.bLoff < size := by
    by_contra hout
    rw [blockLen, if_neg (by omega), if_pos (by omega)] at hpos
    exact absurd hpos (Nat.lt_irrefl 0)
  rw [blockEnd, blockLen, if_pos (by omega), Word.sub_of_le (by omega)]
  omega

/-- The pairs that fit and are not in the run start at the last byte of the area or behind
    it. -/
theorem FitsFirst.late (hfits : FitsFirst job ps k) :
    ∀ p ∈ (ps.take k).drop (matchRun job ps).length, job.extentEnd ≤ p.2.bLoff := by
  generalize hr : (matchRun job ps).length = r
  cases hrest : (ps.take k).drop r with
  | nil => exact fun p hp => absurd hp List.not_mem_nil
  | cons q rest =>
    have hq : (ps.take k)[r]? = some q := by
      rw [← List.head?_drop, hrest]
      rfl
    have hlt : r < (ps.take k).length := (List.getElem?_eq_some_iff.1 hq).1
    have hrk : r < k := Nat.lt_of_lt_of_le hlt (List.length_take_le _ _)
    rw [List.getElem?_take_of_lt hrk] at hq
    have hsplit : ps.take (r + 1) = ps.take r ++ [q] := by
      rw [List.take_add_one, hq]
      rfl
    have htake : (ps.take k).take (r + 1) = ps.take (r + 1) := by
      rw [List.take_take, Nat.min_eq_left hrk]
    -- Otherwise the run would go on with `q`.
    have hfirst : job.extentEnd ≤ q.2.bLoff := by
      by_contra hin
      have hmatch : ∀ p ∈ ps.take (r + 1), isMatch job p = true := by
        intro p hp
        rw [hsplit, List.mem_append, List.mem_singleton] at hp
        rcases hp with hp | rfl
        · have hrun : p ∈ matchRun job ps := by
            rwa [List.prefix_iff_eq_take.1 (matchRun_isPrefix job ps), hr]
          exact isMatch_of_mem_matchRun hrun
        · refine isMatch_iff.2 ⟨hfits.same p ?_, Nat.lt_of_not_le hin⟩
          exact List.mem_of_mem_take (i := r + 1) (htake ▸ hsplit ▸ by simp)
      have hlonger := le_length_matchRun_iff.2
        ⟨Nat.le_trans hrk hfits.le, hmatch, htake ▸ hfits.adjacent.take (r + 1)⟩
      omega
    have hbehind := (pairwise_behind hfits.adjacent).drop (i := r)
    rw [hrest, List.pairwise_cons] at hbehind
    intro p hp
    rcases List.mem_cons.1 hp with rfl | hp
    · exact hfirst
    · have := (hbehind.1 p hp).2
      omega

/-- When the first `k` pairs end evenly, the run is found and is not longer. -/
theorem EndsEvenly.finds (heven : EndsEvenly job ps k) (hfits : FitsFirst job ps k)
    (hpos : 1 ≤ k) : (matchRun job ps).length ≤ k ∧ ∃ e, Finds job ps (matchRun job ps) e := by
  have hle := hfits.le
  cases ps with
  | nil =>
    rw [List.length_nil] at hle
    omega
  | cons start tail =>
    have hstart : start.2.digest = start.1.digest := by
      refine hfits.same start ?_
      rw [List.take_cons hpos]
      exact List.mem_cons_self
    have hin : start.2.bLoff < job.extentEnd := heven.starts start rfl
    have hshort : (matchRun job (start :: tail)).length ≤ k := by
      by_contra hlong
      obtain ⟨hlen, hmatch, hchain⟩ := le_length_matchRun_iff.1 (Nat.lt_of_not_le hlong)
      have hq := List.getElem?_eq_getElem (l := start :: tail) (i := k) (by omega)
      generalize (start :: tail)[k] = q at hq
      rw [List.take_add_one, hq, Option.toList_some] at hmatch hchain
      obtain ⟨hdigest, hbefore⟩ := isMatch_iff.1 (hmatch q (by simp))
      have htake : (start :: tail).take k ≠ [] := by
        rw [List.take_cons hpos]
        exact List.cons_ne_nil _ _
      obtain ⟨e, he⟩ := Option.ne_none_iff_exists'.1 (mt List.getLast?_eq_none_iff.1 htake)
      have hcontiguous := (List.isChain_append.1 hchain).2.2 e he q rfl
      exact absurd (heven.next e he q hq hcontiguous hdigest) (Nat.not_le.2 hbefore)
    have hrun : matchRun job (start :: tail) ≠ [] := by
      rw [ne_eq, matchRun_eq_nil_iff, isMatch_iff.2 ⟨hstart, hin⟩]
      exact Bool.noConfusion
    obtain ⟨e, he⟩ := Option.ne_none_iff_exists'.1 (mt List.getLast?_eq_none_iff.1 hrun)
    refine ⟨hshort, e, ?_, he, hfits.inside e ?_⟩
    · rw [List.dropWhile_cons_of_neg (by simp [isMismatch, hstart])]
    · have hmem := List.mem_of_getLast? he
      rw [List.prefix_iff_eq_take.1 (matchRun_isPrefix job (start :: tail))] at hmem
      exact (List.take_sublist_take_left hshort).subset hmem

/-- The bytes of a block lie between the start of a block that is not behind it and the end
    of one that is not in front of it. -/
theorem holdsBlock_between {f : BlockFile} {blocksize : Nat} {a b c : FileBlock}
    (hc : c ∈ f.blocks) (hstart : a.bLoff ≤ b.bLoff)
    (hstop : b = c ∨ b.bLoff + blocksize ≤ c.bLoff) :
    HoldsBlock blocksize f.size a.bLoff (blockEnd blocksize f.size c) b := by
  intro off hle hlt
  refine ⟨Nat.le_trans hstart hle, ?_⟩
  rcases hstop with rfl | hbehind
  · exact le_blockEnd hc hle hlt
  · exact le_blockEnd_of_behind hc hbehind hlt

/-- The bytes of an empty block lie anywhere. -/
theorem holdsBlock_of_empty {blocksize size soff eoff : Nat} {b : FileBlock}
    (hempty : blockLen blocksize size b = 0) : HoldsBlock blocksize size soff eoff b := by
  intro off hle hlt
  omega

/-- The first pair fits, so the first loop skips nothing. -/
theorem FitsFirst.dropWhile_eq (hfits : FitsFirst job ps k) (hpos : 1 ≤ k) :
    ps.dropWhile (isMismatch job) = ps := by
  cases ps with
  | nil => rfl
  | cons start tail =>
    have hstart : start.2.digest = start.1.digest := by
      refine hfits.same start ?_
      rw [List.take_cons hpos]
      exact List.mem_cons_self
    exact List.dropWhile_cons_of_neg (by simp [isMismatch, hstart])

/-- Whatever precedes the last pair of a run lies a block or more in front of it. -/
theorem eq_or_behind_of_mem_matchRun {p e : BlockPair} (he : (matchRun job ps).getLast? = some e)
    (hp : p ∈ matchRun job ps) : p = e ∨ Behind job p e := by
  have hpairs : (matchRun job ps).Pairwise (Behind job) := pairwise_behind (matchRun_isChain ps)
  rw [← List.dropLast_append_getLast? e he] at hp hpairs
  rcases List.mem_append.1 hp with hp | hp
  · exact .inr ((List.pairwise_append.1 hpairs).2.2 p hp e List.mem_cons_self)
  · exact .inl (List.mem_singleton.1 hp)

/-- A match that is recorded for pairs that end evenly covers all of them. -/
theorem EndsEvenly.covers {start e : BlockPair} {digest : List Byte} (heven : EndsEvenly job ps k)
    (hfits : FitsFirst job ps k) (hhead : ps.head? = some start)
    (hblocks : ∀ p ∈ ps, p.1 ∈ job.orig.blocks ∧ p.2 ∈ job.walk.blocks)
    (he : (matchRun job ps).getLast? = some e) :
    ∀ p ∈ ps.take k, (recordMatch job digest start e).Covers job p := by
  intro p hp
  by_cases hrun : p ∈ matchRun job ps
  · have hmem : e ∈ ps := (matchRun_isPrefix job ps).mem (List.mem_of_getLast? he)
    obtain ⟨horig, hwalk⟩ := hblocks e hmem
    have hstart : start.1.bLoff ≤ p.1.bLoff ∧ start.2.bLoff ≤ p.2.bLoff := by
      obtain ⟨tail, rfl⟩ := List.head?_eq_some_iff.1 hhead
      have hk : k ≠ 0 := by
        rintro rfl
        cases hp
      have hpairs := pairwise_behind hfits.adjacent
      rw [List.take_cons (Nat.pos_of_ne_zero hk)] at hp hpairs
      rcases List.mem_cons.1 hp with rfl | hp
      · exact ⟨Nat.le_refl _, Nat.le_refl _⟩
      · obtain ⟨h₁, h₂⟩ := (List.pairwise_cons.1 hpairs).1 p hp
        exact ⟨by omega, by omega⟩
    have hstop := eq_or_behind_of_mem_matchRun he hrun
    refine ⟨holdsBlock_between horig hstart.1 ?_, holdsBlock_between hwalk hstart.2 ?_⟩
    · exact hstop.imp (congrArg Prod.fst) And.left
    · exact hstop.imp (congrArg Prod.snd) And.right
  · -- The pairs that fit and are not in the run start too late and are empty.
    have hdrop : p ∈ (ps.take k).drop (matchRun job ps).length := by
      rw [← List.take_append_drop (matchRun job ps).length (ps.take k), List.mem_append] at hp
      refine hp.resolve_left fun hin => hrun ?_
      rw [List.prefix_iff_eq_take.1 (matchRun_isPrefix job ps)]
      rw [List.take_take] at hin
      exact (List.take_sublist_take_left (Nat.min_le_left _ _)).subset hin
    obtain ⟨h₁, h₂⟩ := heven.late p hp (hfits.late p hdrop)
    exact ⟨holdsBlock_of_empty h₁, holdsBlock_of_empty h₂⟩

/-- A run that is found starts in front of the last byte of the area. -/
theorem Finds.starts {run : List BlockPair} {e : BlockPair} (hf : Finds job ps run e)
    (hfound : run = matchRun job ps) : ∀ p ∈ ps.head?, p.2.bLoff < job.extentEnd := by
  intro p hp
  obtain ⟨tail, rfl⟩ := List.head?_eq_some_iff.1 hp
  have hne : matchRun job (p :: tail) ≠ [] := by
    rw [← hfound]
    exact List.ne_nil_of_mem (List.mem_of_getLast? hf.last)
  rw [ne_eq, matchRun_eq_nil_iff, Bool.not_eq_false] at hne
  exact (isMatch_iff.1 hne).2

/-- When a run is found, no pair behind those that fit goes on with it in front of the
    last byte of the area: the run would end behind the area. -/
theorem Finds.next {run : List BlockPair} {e : BlockPair} (hf : Finds job ps run e)
    (hfound : run = matchRun job ps)
    (hsorted : ps.Pairwise fun p q => p.2.bLoff < q.2.bLoff)
    (hblocks : ∀ p ∈ ps, p.2 ∈ job.walk.blocks)
    (hk : IsGreatest {n | FitsFirst job ps n} k) :
    ∀ p ∈ (ps.take k).getLast?, ∀ q ∈ ps[k]?, isContiguous job p q = true →
      q.2.digest = q.1.digest → job.extentEnd ≤ q.2.bLoff := by
  intro p hp q hq hc hsame
  by_contra hin
  have hsplit : ps.take (k + 1) = ps.take k ++ [q] := by
    rw [List.take_add_one, hq]
    rfl
  have hlt : k < ps.length := (List.getElem?_eq_some_iff.1 hq).1
  have hfits : FitsFirst job ps k := hk.1
  have hchain : (ps.take (k + 1)).IsChain fun p q => isContiguous job p q = true := by
    rw [hsplit]
    refine List.isChain_append.2 ⟨hfits.adjacent, .singleton q, ?_⟩
    intro x hx y hy
    cases hy
    rw [Option.mem_def.1 hp] at hx
    cases hx
    exact hc
  have hdigests : ∀ x ∈ ps.take (k + 1), x.2.digest = x.1.digest := by
    intro x hx
    rw [hsplit, List.mem_append, List.mem_singleton] at hx
    rcases hx with hx | rfl
    · exact hfits.same x hx
    · exact hsame
  have hfront : ∀ x ∈ ps.take k, x.2.bLoff < q.2.bLoff := by
    have htake := hsorted.take (i := k + 1)
    rw [hsplit, List.pairwise_append] at htake
    exact fun x hx => htake.2.2 x hx q List.mem_cons_self
  -- `q` ends behind the area, as `k` is the greatest number of pairs that fit.
  have hbehind : job.extentEnd < blockEnd job.blocksize job.walk.size q.2 := by
    by_contra hinside
    have hmore : FitsFirst job ps (k + 1) := by
      refine ⟨hlt, hdigests, hchain, fun x hx => ?_⟩
      rw [hsplit, List.mem_append, List.mem_singleton] at hx
      rcases hx with hx | rfl
      · exact hfits.inside x hx
      · omega
    exact absurd (hk.2 hmore) (Nat.not_succ_le_self k)
  have hlonger : k + 1 ≤ (matchRun job ps).length := by
    refine le_length_matchRun_iff.2 ⟨hlt, fun x hx => isMatch_iff.2 ⟨hdigests x hx, ?_⟩, hchain⟩
    rw [hsplit, List.mem_append, List.mem_singleton] at hx
    rcases hx with hx | rfl
    · have := hfront x hx
      omega
    · omega
  have hmem : q ∈ matchRun job ps := by
    have htake := List.take_sublist_take_left (l := ps) hlonger
    rw [← List.prefix_iff_eq_take.1 (matchRun_isPrefix job ps), hsplit] at htake
    exact htake.subset (List.mem_append_right _ List.mem_cons_self)
  have hinside := hf.inside
  have hlast := hf.last
  rw [hfound] at hlast
  have heblock := hblocks e ((matchRun_isPrefix job ps).mem (List.mem_of_getLast? hlast))
  have hqblock := hblocks q (List.mem_of_getElem? hq)
  have hbits := blockLen_add_lt hqblock job.blocksize
  have hoff := hfront p (List.mem_of_getLast? hp)
  rcases eq_or_behind_of_mem_matchRun hlast hmem with rfl | hbefore
  · omega
  · rw [blockEnd, Word.sub_of_le (by omega)] at hbehind
    have hbyte : q.2.bLoff + blockLen job.blocksize job.walk.size q.2 - 1 ≤
        blockEnd job.blocksize job.walk.size e.2 :=
      le_blockEnd_of_behind heblock hbefore.2 (by omega)
    omega

/-- When a recorded match covers the pairs that fit, those that start too late are empty. -/
theorem Finds.late {run : List BlockPair} {start e : BlockPair} {digest : List Byte}
    (hf : Finds job ps run e) (hfound : run = matchRun job ps) (hfits : FitsFirst job ps k)
    (hcovers : ∀ p ∈ ps.take k, (recordMatch job digest start e).Covers job p) :
    ∀ p ∈ ps.take k, job.extentEnd ≤ p.2.bLoff → BothEmpty job p := by
  intro p hp hlate
  have hlast := hf.last
  rw [hfound] at hlast
  have hmem : e ∈ matchRun job ps := List.mem_of_getLast? hlast
  have hnotin : p ∉ matchRun job ps := fun hin =>
    Nat.not_lt.2 hlate (isMatch_iff.1 (isMatch_of_mem_matchRun hin)).2
  -- `p` follows the whole run.
  have hbehind : Behind job e p := by
    have hfirst := List.prefix_iff_eq_take.1 (matchRun_isPrefix job ps)
    generalize (matchRun job ps).length = r at hfirst
    have hpairs := pairwise_behind hfits.adjacent
    rw [← List.take_append_drop r (ps.take k), List.take_take] at hp hpairs
    have hin : ∀ x ∈ ps.take (min r k), x ∈ matchRun job ps := by
      rw [hfirst]
      exact (List.take_sublist_take_left (Nat.min_le_left _ _)).subset
    have hdrop := (List.mem_append.1 hp).resolve_left fun hx => hnotin (hin p hx)
    refine (List.pairwise_append.1 hpairs).2.2 e ?_ p hdrop
    have hrk : r ≤ k := by
      by_contra hlong
      rw [List.drop_eq_nil_of_le] at hdrop
      · cases hdrop
      · exact Nat.le_trans (List.length_take_le _ _) (by omega)
    rwa [Nat.min_eq_left hrk, ← hfirst]
  obtain ⟨horig, hwalk⟩ := hcovers p hp
  constructor
  · by_contra hpos
    have hstop := (horig p.1.bLoff (Nat.le_refl _) (by omega)).2
    have := blockEnd_lt_of_behind hbehind.1 (Nat.pos_of_ne_zero hpos)
    exact absurd hstop (Nat.not_le.2 this)
  · by_contra hpos
    have hstop := (hwalk p.2.bLoff (Nat.le_refl _) (by omega)).2
    have := blockEnd_lt_of_behind hbehind.2 (Nat.pos_of_ne_zero hpos)
    exact absurd hstop (Nat.not_le.2 this)

/-- When a second run is found, the pairs that fit are all in the first one: the pair
    behind it has two different digests. -/
theorem FitsFirst.le_of_secondRun (hfits : FitsFirst job ps k) (hpos : 1 ≤ k)
    (htwice : HasSecondRun job ps) : k ≤ (matchRun job ps).length := by
  obtain ⟨run, e, rest, run', e', hf, hg, hf'⟩ := htwice
  obtain ⟨q, hq, -, -⟩ := hg.2
  have hdiffers := hg.head_differs hf hf' hq
  have hfound := hf.found
  rw [hfits.dropWhile_eq hpos] at hfound
  by_contra hshort
  have hbehind : ps[(matchRun job ps).length]? = some q := by
    rw [← hfound, ← List.head?_drop, ← hq, ← hg.1, hfits.dropWhile_eq hpos]
  have hmem : q ∈ ps.take k := by
    refine List.mem_of_getElem? (i := (matchRun job ps).length) ?_
    rwa [List.getElem?_take_of_lt (by omega)]
  exact hdiffers (hfits.same q hmem)

end Fits

-- ---------------------------------------------------------------------------
-- The call
-- ---------------------------------------------------------------------------

section Call

variable {h : Xxh (List Byte)} {job : CompareJob} {start : BlockPair} {tail : List BlockPair}
variable {fuel k : Nat} {ms : List BlockMatch}

/-- A call that records anything finds a run. -/
theorem finds_of_recorded (hfuel : tail.length + 1 < fuel)
    (hrun : Loop.run (compareRound h job) fuel ⟨start :: tail, []⟩ = some ms) {m : BlockMatch}
    (hm : m ∈ ms) : ∃ run e, Finds job (start :: tail) run e := by
  by_cases htwice : HasSecondRun job (start :: tail)
  · obtain ⟨run, e, rest, run', e', hf, -, -⟩ := htwice
    exact ⟨run, e, hf⟩
  · obtain ⟨ms', hrun', honly⟩ := run_compareRound_once (h := h) (s := ⟨start :: tail, []⟩) fuel
      rfl rfl hfuel htwice
    rw [hrun] at hrun'
    cases hrun'
    obtain ⟨run, e, hf, -⟩ := honly m hm
    exact ⟨run, e, hf⟩

/-- The pairs that fit are recorded when they end evenly, and not otherwise. -/
theorem covers_iff_endsEvenly (hfuel : tail.length + 1 < fuel)
    (hrun : Loop.run (compareRound h job) fuel ⟨start :: tail, []⟩ = some ms)
    (hblocks : ∀ p ∈ start :: tail, p.1 ∈ job.orig.blocks ∧ p.2 ∈ job.walk.blocks)
    (hsorted : (start :: tail).Pairwise fun p q => p.2.bLoff < q.2.bLoff)
    (hk : IsGreatest {n | FitsFirst job (start :: tail) n} k) (hpos : 1 ≤ k) :
    (∃ m ∈ ms, ∀ p ∈ (start :: tail).take k, m.Covers job p) ↔
      EndsEvenly job (start :: tail) k := by
  have hfits : FitsFirst job (start :: tail) k := hk.1
  constructor
  · rintro ⟨m, hm, hcovers⟩
    obtain ⟨run, e, hf⟩ := finds_of_recorded hfuel hrun hm
    have hfound := hf.found
    rw [hfits.dropWhile_eq hpos] at hfound
    refine ⟨hf.starts hfound, ?_,
      hf.next hfound hsorted (fun p hp => (hblocks p hp).2) hk⟩
    by_cases htwice : HasSecondRun job (start :: tail)
    · -- All of them are in the run, so none starts too late.
      intro p hp hlate
      have hfirst := List.prefix_iff_eq_take.1 (matchRun_isPrefix job (start :: tail))
      have hin : p ∈ matchRun job (start :: tail) := by
        rw [hfirst]
        exact (List.take_sublist_take_left (hfits.le_of_secondRun hpos htwice)).subset hp
      exact absurd hlate (Nat.not_le.2 (isMatch_iff.1 (isMatch_of_mem_matchRun hin)).2)
    · obtain ⟨ms', hrun', honly⟩ := run_compareRound_once (h := h) (s := ⟨start :: tail, []⟩)
        fuel rfl rfl hfuel htwice
      rw [hrun] at hrun'
      cases hrun'
      obtain ⟨run', e', hf', rfl⟩ := honly m hm
      have hfound' := hf'.found
      rw [hfits.dropWhile_eq hpos] at hfound'
      exact hf'.late hfound' hfits hcovers
  · intro heven
    obtain ⟨hshort, e, hf⟩ := heven.finds hfits hpos
    obtain ⟨ms', hrun', hin⟩ := run_compareRound_finds (h := h) (s := ⟨start :: tail, []⟩) fuel
      rfl hf hfuel
    rw [hrun] at hrun'
    cases hrun'
    exact ⟨_, hin, heven.covers hfits rfl hblocks hf.last⟩

end Call

/-- `compare_extents` records a match that covers the pairs that fit in the searched area if
    and only if these end evenly. -/
theorem compareExtents_keeps_iff (h : Xxh (List Byte)) {blocksize : Nat} {orig walk : BlockFile}
    {i j : Nat} {a b : FileBlock} (ha : orig.blocks[i]? = some a) (hb : walk.blocks[j]? = some b)
    {searchLen k : Nat}
    (hk : IsGreatest {n | FitsFirst ⟨blocksize, orig, walk, extentEndOf b.bLoff searchLen⟩
      (lockstep orig walk i j) n} k) :
    ∃ ms, compareExtents h blocksize orig walk i j searchLen = some ms ∧
      ((1 ≤ k → ∃ m ∈ ms, ∀ p ∈ (lockstep orig walk i j).take k,
          m.Covers ⟨blocksize, orig, walk, extentEndOf b.bLoff searchLen⟩ p) ↔
        k = 0 ∨ EndsEvenly ⟨blocksize, orig, walk, extentEndOf b.bLoff searchLen⟩
          (lockstep orig walk i j) k) := by
  obtain ⟨ps, hpairs⟩ := lockstep_eq_cons ha hb
  have hcall : compareExtents h blocksize orig walk i j searchLen =
      Loop.run (compareRound h ⟨blocksize, orig, walk, extentEndOf b.bLoff searchLen⟩)
        (ps.length + 2) ⟨(a, b) :: ps, []⟩ := by
    rw [compareExtents, hpairs]
  have hblocks : ∀ p ∈ lockstep orig walk i j, p.1 ∈ orig.blocks ∧ p.2 ∈ walk.blocks := by
    intro p hp
    obtain ⟨h₁, h₂⟩ := List.of_mem_zip hp
    exact ⟨List.mem_of_mem_drop h₁, List.mem_of_mem_drop h₂⟩
  have hsorted : (lockstep orig walk i j).Pairwise fun p q => p.2.bLoff < q.2.bLoff := by
    have hfirst := map_snd_zip_isPrefix (orig.blocks.drop i) (walk.blocks.drop j)
    have hpairwise := (walk.sorted.drop (i := j)).sublist hfirst.sublist
    rwa [List.pairwise_map] at hpairwise
  rw [hpairs] at hk hblocks hsorted
  rw [hcall, hpairs]
  obtain ⟨ms, hrun, -⟩ := run_compareRound h
    ⟨blocksize, orig, walk, extentEndOf b.bLoff searchLen⟩ ⟨(a, b) :: ps, []⟩ (ps.length + 2)
    (by simp)
  refine ⟨ms, hrun, ?_⟩
  rcases Nat.eq_zero_or_pos k with rfl | hpos
  · exact ⟨fun _ => .inl rfl, fun _ hone => absurd hone (by omega)⟩
  · have hiff := covers_iff_endsEvenly (by omega) hrun hblocks hsorted hk hpos
    constructor
    · exact fun hkeeps => .inr (hiff.1 (hkeeps hpos))
    · rintro (rfl | heven) _
      · cases hpos
      · exact hiff.2 heven

/-- A file of two whole blocks of 8 KiB. -/
def twoBlocks (file : FileId) : BlockFile where
  file := file
  size := 16384
  blocks := [⟨0, [1]⟩, ⟨8192, [2]⟩]
  sorted := by simp
  size_lt := by decide
  bLoff_lt := by simp

/-- When the area holds both blocks, the match of the two is recorded. -/
theorem compareExtents_keeps_wholeArea :
    IsGreatest {n | FitsFirst ⟨8192, twoBlocks 0, twoBlocks 1, extentEndOf 0 16384⟩
      (lockstep (twoBlocks 0) (twoBlocks 1) 0 0) n} 2 ∧
    ∃ ms, compareExtents Xxh.message 8192 (twoBlocks 0) (twoBlocks 1) 0 0 16384 = some ms ∧
      ((1 ≤ 2 → ∃ m ∈ ms, ∀ p ∈ (lockstep (twoBlocks 0) (twoBlocks 1) 0 0).take 2,
          m.Covers ⟨8192, twoBlocks 0, twoBlocks 1, extentEndOf 0 16384⟩ p) ↔
        2 = 0 ∨ EndsEvenly ⟨8192, twoBlocks 0, twoBlocks 1, extentEndOf 0 16384⟩
          (lockstep (twoBlocks 0) (twoBlocks 1) 0 0) 2) := by
  have hk : IsGreatest {n | FitsFirst ⟨8192, twoBlocks 0, twoBlocks 1, extentEndOf 0 16384⟩
      (lockstep (twoBlocks 0) (twoBlocks 1) 0 0) n} 2 := by
    refine ⟨⟨by decide, by decide, by decide, by decide⟩, ?_⟩
    exact fun n hn => hn.le
  exact ⟨hk, compareExtents_keeps_iff Xxh.message (a := ⟨0, [1]⟩) (b := ⟨0, [1]⟩) rfl rfl hk⟩

/-- When it ends in the middle of the second block, which matches as well, the match of the
    first block is thrown away with it. -/
theorem compareExtents_drops_straddling :
    IsGreatest {n | FitsFirst ⟨8192, twoBlocks 0, twoBlocks 1, extentEndOf 0 12288⟩
      (lockstep (twoBlocks 0) (twoBlocks 1) 0 0) n} 1 ∧
    compareExtents Xxh.message 8192 (twoBlocks 0) (twoBlocks 1) 0 0 12288 = some [] := by
  refine ⟨⟨⟨by decide, by decide, by decide, by decide⟩, ?_⟩, by decide +kernel⟩
  intro n hn
  by_contra hmore
  have hsecond : (⟨8192, [2]⟩, ⟨8192, [2]⟩) ∈
      (lockstep (twoBlocks 0) (twoBlocks 1) 0 0).take n := by
    rw [List.take_of_length_le (Nat.lt_of_not_le hmore)]
    decide
  exact absurd (hn.inside _ hsecond) (by decide)

end Duperemove
