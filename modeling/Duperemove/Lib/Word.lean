-- SUMMARY: Unsigned machine words as natural numbers with explicit wrap-around.
import Mathlib.Algebra.Group.Int.Defs
import Mathlib.Algebra.Group.Nat.Defs
import Mathlib.Data.Nat.ModEq

/-!
# Machine words

Unsigned integers of a fixed width, written as natural numbers. `wrap` reduces
a result to the width, and `sub` is the subtraction of the machine, which wraps
instead of going below zero.
-/

namespace Word

/-- The value of `n` in a word of `w` bits. -/
def wrap (w n : Nat) : Nat := n % 2 ^ w

/-- Subtraction of two words of `w` bits. -/
def sub (w a b : Nat) : Nat := if b ≤ a then a - b else 2 ^ w - (b - a)

theorem wrap_of_lt {w n : Nat} (h : n < 2 ^ w) : wrap w n = n :=
  Nat.mod_eq_of_lt h

theorem wrap_lt (w n : Nat) : wrap w n < 2 ^ w :=
  Nat.mod_lt n (Nat.two_pow_pos w)

theorem sub_of_le {w a b : Nat} (h : b ≤ a) : sub w a b = a - b := if_pos h

theorem sub_lt {w a : Nat} (ha : a < 2 ^ w) (b : Nat) : sub w a b < 2 ^ w := by
  unfold sub
  split <;> omega

theorem sub_eq_zero_iff {w a b : Nat} (hb : b < 2 ^ w) : sub w a b = 0 ↔ a = b := by
  unfold sub
  split <;> omega

/-- Only the last of several sums needs to be reduced. -/
theorem wrap_wrap_add (w a b : Nat) : wrap w (wrap w a + b) = wrap w (a + b) :=
  Nat.mod_add_mod a (2 ^ w) b

/-- Subtraction adds the complement. -/
theorem sub_eq_wrap {w a b : Nat} (ha : a < 2 ^ w) (hb : b < 2 ^ w) :
    sub w a b = wrap w (a + (2 ^ w - b)) := by
  unfold sub wrap
  split
  · rw [Nat.mod_eq_sub_mod (by omega), Nat.mod_eq_of_lt (by omega)]
    omega
  · rw [Nat.mod_eq_of_lt (by omega)]
    omega

/-- The low `k` bits of a mask of `w` bits are clear, and so are those above `w`: the
    word is cut to `w` bits and rounded down. -/
theorem and_two_pow_sub {w k : Nat} (hk : k ≤ w) (n : Nat) :
    n &&& (2 ^ w - 2 ^ k) = n % 2 ^ w / 2 ^ k * 2 ^ k := by
  have hlt : 2 ^ k - 1 < 2 ^ w :=
    Nat.lt_of_lt_of_le (Nat.sub_one_lt (Nat.ne_of_gt (Nat.two_pow_pos k)))
      (Nat.pow_le_pow_right Nat.two_pos hk)
  have hmask : 2 ^ w - 2 ^ k = 2 ^ w - (2 ^ k - 1 + 1) := by
    rw [Nat.sub_add_cancel (Nat.two_pow_pos k)]
  apply Nat.eq_of_testBit_eq
  intro i
  rw [hmask, Nat.testBit_and, Nat.testBit_two_pow_sub_succ hlt, Nat.testBit_two_pow_sub_one,
    Nat.testBit_mul_two_pow, Nat.testBit_div_two_pow, Nat.testBit_mod_two_pow]
  by_cases hki : k ≤ i
  · rw [Nat.sub_add_cancel hki]
    simp [hki, Nat.not_lt.2 hki, Bool.and_comm]
  · simp [hki, Nat.lt_of_not_le hki]

/-- What is subtracted comes back as the difference. -/
theorem sub_sub_self {w a b : Nat} (ha : a < 2 ^ w) (hb : b < 2 ^ w) :
    sub w a (sub w a b) = b := by
  unfold sub
  split <;> split <;> omega

/-- A difference goes on with its first word. -/
theorem sub_wrap_left {w a b : Nat} (ha : a < 2 ^ w) (hb : b < 2 ^ w) (c : Nat) :
    sub w (wrap w (a + c)) b = wrap w (sub w a b + c) := by
  rw [sub_eq_wrap (wrap_lt w _) hb, sub_eq_wrap ha hb]
  simp only [wrap, Nat.mod_add_mod]
  rw [Nat.add_right_comm]

/-- Two amounts that lead to the same word are the same. -/
theorem wrap_add_left_cancel {w a b c : Nat} (hb : b < 2 ^ w) (hc : c < 2 ^ w)
    (h : wrap w (a + b) = wrap w (a + c)) : b = c := by
  have hmod : a + b ≡ a + c [MOD 2 ^ w] := h
  have hbc : b % 2 ^ w = c % 2 ^ w := Nat.ModEq.add_left_cancel' a hmod
  rwa [Nat.mod_eq_of_lt hb, Nat.mod_eq_of_lt hc] at hbc

/-- Adding back what was subtracted returns to the start, also across a wrap. -/
theorem wrap_add_sub_eq_iff {w a b x : Nat} (ha : a < 2 ^ w) (hb : b < 2 ^ w) (hx : x < 2 ^ w) :
    wrap w (x + sub w a b) = a ↔ x = b := by
  obtain ⟨d, hd, hcase⟩ : ∃ d, sub w a b = d ∧ (b + d = a ∨ (a < b ∧ b + d = a + 2 ^ w)) := by
    refine ⟨_, rfl, ?_⟩
    unfold sub
    split <;> omega
  rw [hd, wrap]
  by_cases hlt : x + d < 2 ^ w
  · rw [Nat.mod_eq_of_lt hlt]
    omega
  · rw [Nat.mod_eq_sub_mod (by omega), Nat.mod_eq_of_lt (by omega)]
    omega

/-- A difference stays the same when both words go on by the same amount. -/
theorem sub_wrap_add {w a b : Nat} (ha : a < 2 ^ w) (hb : b < 2 ^ w) (c : Nat) :
    sub w (wrap w (a + c)) (wrap w (b + c)) = sub w a b := by
  have hstep : ∀ x < 2 ^ w, wrap w (x + c) = x + c % 2 ^ w ∨
      (2 ^ w ≤ x + c % 2 ^ w ∧ wrap w (x + c) + 2 ^ w = x + c % 2 ^ w) := by
    intro x hx
    have hmod : c % 2 ^ w < 2 ^ w := Nat.mod_lt c (Nat.two_pow_pos w)
    have hwrap : wrap w (x + c) = (x + c % 2 ^ w) % 2 ^ w := by
      rw [wrap, Nat.add_mod_mod]
    by_cases hlt : x + c % 2 ^ w < 2 ^ w
    · exact .inl (by rw [hwrap, Nat.mod_eq_of_lt hlt])
    · refine .inr ⟨by omega, ?_⟩
      rw [hwrap, Nat.mod_eq_sub_mod (by omega), Nat.mod_eq_of_lt (by omega)]
      omega
  have hmod : c % 2 ^ w < 2 ^ w := Nat.mod_lt c (Nat.two_pow_pos w)
  have hlta := wrap_lt w (a + c)
  have hltb := wrap_lt w (b + c)
  unfold sub
  rcases hstep a ha with hwa | ⟨hle, hwa⟩ <;> rcases hstep b hb with hwb | ⟨hle', hwb⟩ <;>
    split <;> split <;> omega

end Word
