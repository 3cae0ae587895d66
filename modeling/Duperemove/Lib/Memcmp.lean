-- SUMMARY: Comparing memory byte by byte: when two ranges are equal, how they are ordered, and a range against itself one byte on.
import Mathlib.Data.List.Basic

/-!
# Comparing bytes

`memcmp` compares two ranges byte by byte up to the first difference, and the sign of the
result is the order of the two bytes there. A pointer is a function from offsets to bytes,
so two ranges may overlap. On byte strings of one length `memcmp` is the lexicographic
order, and a range that equals itself one byte on has only one byte throughout.
-/

namespace Memcmp

def memcmp (s₁ s₂ : Nat → UInt8) : Nat → Int
  | 0 => 0
  | n + 1 =>
    if s₁ 0 = s₂ 0 then memcmp (fun i => s₁ (i + 1)) (fun i => s₂ (i + 1)) n
    else (s₁ 0).toNat - (s₂ 0).toNat

/-- The three ways out of `if (c < 0) … else if (c > 0) … else`. -/
def branch (c : Int) : Ordering := if c < 0 then .lt else if 0 < c then .gt else .eq

variable {s₁ s₂ s : Nat → UInt8} {n : Nat}

theorem memcmp_eq_zero_iff : memcmp s₁ s₂ n = 0 ↔ ∀ i < n, s₁ i = s₂ i := by
  induction n generalizing s₁ s₂ with
  | zero => simp [memcmp]
  | succ n ih =>
    rw [memcmp]
    by_cases hfirst : s₁ 0 = s₂ 0
    · rw [if_pos hfirst, ih]
      constructor
      · rintro hrest (_ | i) hi
        · exact hfirst
        · exact hrest i (by omega)
      · exact fun hall i hi => hall (i + 1) (by omega)
    · rw [if_neg hfirst]
      have hne : (s₁ 0).toNat ≠ (s₂ 0).toNat := fun heq => hfirst (UInt8.toNat_inj.1 heq)
      refine iff_of_false (by omega) fun hall => hfirst (hall 0 (by omega))

/-- A range that equals itself one byte on: each byte is its neighbour, and so the first. -/
theorem memcmp_next_eq_zero_iff :
    memcmp s (fun i => s (i + 1)) n = 0 ↔ ∀ i ≤ n, s i = s 0 := by
  rw [memcmp_eq_zero_iff]
  constructor
  · intro hnext i hi
    induction i with
    | zero => rfl
    | succ i ih => rw [← hnext i (by omega), ih (by omega)]
  · intro hall i hi
    rw [hall i (by omega), hall (i + 1) (by omega)]

-- ---------------------------------------------------------------------------
-- Lists of bytes
-- ---------------------------------------------------------------------------

/-- The bytes of a list, from its first one on. -/
def bytes (l : List UInt8) (i : Nat) : UInt8 := l.getD i 0

section Lists

variable {l : List UInt8}

theorem bytes_eq_getElem {i : Nat} (hi : i < l.length) : bytes l i = l[i] := by
  rw [bytes, List.getD_eq_getElem?_getD, List.getElem?_eq_getElem hi, Option.getD_some]

theorem forall_mem_take_iff {x : UInt8} (hlen : n ≤ l.length) :
    (∀ b ∈ l.take n, b = x) ↔ ∀ i < n, bytes l i = x := by
  constructor
  · intro hall i hi
    rw [bytes_eq_getElem (Nat.lt_of_lt_of_le hi hlen)]
    exact hall _ (List.mem_take_iff_getElem.2 ⟨i, by omega, rfl⟩)
  · intro hall b hb
    obtain ⟨i, hi, rfl⟩ := List.mem_take_iff_getElem.1 hb
    rw [← bytes_eq_getElem]
    exact hall i (by omega)

/-- A range and the one that starts a byte later, as lists and as memory. -/
theorem take_eq_take_drop_iff (hlen : n + 1 ≤ l.length) :
    l.take n = (l.drop 1).take n ↔ memcmp (bytes l) (fun i => bytes l (i + 1)) n = 0 := by
  rw [memcmp_eq_zero_iff]
  constructor
  · intro heq i hi
    have hget := congrArg (fun l => l[i]?) heq
    simp only [List.getElem?_take_of_lt hi, List.getElem?_drop] at hget
    rw [bytes, bytes, List.getD_eq_getElem?_getD, List.getD_eq_getElem?_getD, hget, Nat.add_comm 1]
  · intro hall
    have hlength : (l.take n).length = ((l.drop 1).take n).length := by
      simp only [List.length_take, List.length_drop]
      omega
    refine List.ext_getElem hlength fun i hi _ => ?_
    have hi' : i < n := by
      rw [List.length_take] at hi
      omega
    have hbyte := hall i hi'
    rw [bytes_eq_getElem (by omega), bytes_eq_getElem (by omega)] at hbyte
    rw [List.getElem_take, List.getElem_take, List.getElem_drop, hbyte]
    congr 1
    omega

end Lists

-- ---------------------------------------------------------------------------
-- The order
-- ---------------------------------------------------------------------------

theorem branch_sub_toNat {x y : UInt8} (hne : x ≠ y) :
    branch (x.toNat - y.toNat) = compare x y := by
  have hnat : x.toNat ≠ y.toNat := fun heq => hne (UInt8.toNat_inj.1 heq)
  by_cases hlt : x < y
  · have hsub : (x.toNat : Int) - y.toNat < 0 := by
      have := UInt8.lt_iff_toNat_lt.1 hlt
      omega
    rw [branch, if_pos hsub]
    exact (compareOfLessAndEq_eq_lt.2 hlt).symm
  · have hsub : 0 < (x.toNat : Int) - y.toNat := by
      have := mt UInt8.lt_iff_toNat_lt.2 hlt
      omega
    rw [branch, if_neg (by omega), if_pos hsub]
    exact ((if_neg hlt).trans (if_neg hne)).symm

theorem memcmp_bytes_cons (x y : UInt8) (l l' : List UInt8) :
    memcmp (bytes (x :: l)) (bytes (y :: l')) (n + 1) =
      if x = y then memcmp (bytes l) (bytes l') n else x.toNat - y.toNat := rfl

/-- On lists of one length the sign is the lexicographic order. -/
theorem branch_memcmp_bytes {l l' : List UInt8} (hlen : l.length = l'.length) :
    branch (memcmp (bytes l) (bytes l') l.length) = compare l l' := by
  induction l generalizing l' with
  | nil =>
    obtain rfl := List.eq_nil_of_length_eq_zero hlen.symm
    rfl
  | cons x l ih =>
    cases l' with
    | nil => cases hlen
    | cons y l' =>
      have hrest := ih (Nat.succ.inj hlen)
      rw [List.length_cons, memcmp_bytes_cons, List.compare_cons_cons]
      by_cases hxy : x = y
      · have hself : compare y y = .eq := Std.ReflCmp.compare_self
        rw [if_pos hxy, hxy, hself, hrest]
        rfl
      · have hne : compare x y ≠ .eq := fun heq => hxy (Std.LawfulEqCmp.compare_eq_iff_eq.1 heq)
        rw [if_neg hxy, branch_sub_toNat hxy]
        cases hcmp : compare x y with
        | eq => exact absurd hcmp hne
        | lt => rfl
        | gt => rfl

/-- The comparison of two arrays of one size, as a program branches on it. -/
theorem branch_memcmp_vector {k : Nat} (a b : Vector UInt8 k) :
    branch (memcmp (bytes a.toList) (bytes b.toList) k) = compare a b := by
  have hlists := branch_memcmp_bytes (a.length_toList.trans b.length_toList.symm)
  rw [a.length_toList] at hlists
  rw [hlists, Vector.compare_eq_compare_toList]

end Memcmp
