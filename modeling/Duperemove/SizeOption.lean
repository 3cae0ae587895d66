-- SUMMARY: `parse_size` and the option `-b`: which sizes on the command line mean what they say.
import Mathlib.Data.Nat.Digits.Defs
import Duperemove.Dbfile.Config

/-!
# Sizes on the command line

`parse_size` reads a decimal number with an optional suffix. The number saturates in
`strtoull`, the product with the suffix wraps in 64 bits, and the option `-b` keeps 32
bits of it before it looks at the bounds. So a size means what it says as long as it
fits in 64 bits and does not wrap into the bounds.
-/

namespace Duperemove

-- ---------------------------------------------------------------------------
-- The C library
-- ---------------------------------------------------------------------------

/-- A C string without its terminator. -/
structure CString where
  bytes : List Byte
  noNul : 0 ∉ bytes

def isDigit (c : Byte) : Bool := 48 ≤ c ∧ c ≤ 57

def isSpace (c : Byte) : Bool := c = 32 ∨ 9 ≤ c ∧ c ≤ 13

def toLower (c : Byte) : Byte := if 65 ≤ c ∧ c ≤ 90 then c + 32 else c

/-- The number that a string of decimal digits stands for. -/
def decimalValue (digits : List Byte) : Nat :=
  Nat.ofDigits 10 (digits.map fun c => c.toNat - 48).reverse

/-- `strtoull` in base 10. A number that does not fit saturates. -/
def strtoull (s : List Byte) : Nat :=
  match s.dropWhile isSpace with
  | [] => 0
  | c :: rest =>
    if c = 45 then
      let n := decimalValue (rest.takeWhile isDigit)
      if n < 2 ^ 64 then Word.sub 64 0 n else 2 ^ 64 - 1
    else min (decimalValue ((if c = 43 then rest else c :: rest).takeWhile isDigit)) (2 ^ 64 - 1)

-- ---------------------------------------------------------------------------
-- `parse_size`
-- ---------------------------------------------------------------------------

/-- The three ways to exit. -/
inductive SizeError where
  | empty
  | unknownDescriptor
  | illegalSuffix
  deriving DecidableEq, Repr

def letters (s : String) : List Byte := s.toList.map Char.toUInt8

/-- The labels of the `switch` with the factor behind each. A case falls through to those
    below it. -/
def sizeCases : List (List Byte × Nat) :=
  [(letters "e", 1024), (letters "p", 1024), (letters "t", 1024), (letters "gG", 1024),
    (letters "mM", 1024), (letters "kK", 1024), (letters "b", 1)]

/-- The `switch` on the lower-case descriptor. -/
def sizeMult (c : Byte) : Option Nat :=
  match sizeCases.dropWhile fun p => c ∉ p.1 with
  | [] => none
  | p :: rest => some ((p :: rest).foldl (fun mult p => Word.wrap 64 (mult * p.2)) 1)

def parseSize (s : CString) : Except SizeError Nat :=
  if s.bytes.takeWhile isDigit = [] then .error .empty
  else
    match s.bytes.dropWhile isDigit with
    | [] => .ok (Word.wrap 64 (strtoull s.bytes * 1))
    | c :: rest =>
      match sizeMult (toLower c) with
      | none => .error .unknownDescriptor
      | some mult =>
        if rest ≠ [] then .error .illegalSuffix
        else .ok (Word.wrap 64 (strtoull s.bytes * mult))

/-- `-b` with its argument. -/
def parseBlocksizeOption (s : CString) : Option Nat :=
  match parseSize s with
  | .error _ => none
  | .ok size => parseBlocksize (some size)

-- ---------------------------------------------------------------------------
-- What a size means
-- ---------------------------------------------------------------------------

/-- The power of 1024 that a suffix letter stands for, in either case. -/
def suffixPower (c : Byte) : Option Nat :=
  ((letters "bkmgtpe").findIdx? fun l => l = c).or ((letters "BKMGTPE").findIdx? fun l => l = c)

/-- A decimal number with at most one suffix letter, and the size that it means. -/
def SizeText (s : CString) (size : Nat) : Prop :=
  ∃ digits suffix, s.bytes = digits ++ suffix ∧ digits ≠ [] ∧ (∀ c ∈ digits, isDigit c = true) ∧
    (suffix = [] ∧ size = decimalValue digits ∨
      ∃ c power, suffix = [c] ∧ suffixPower c = some power ∧ size = decimalValue digits * 1024 ^ power)

/-- `parse_size` returns for the texts whose size fits in 64 bits, with that size, and `-b`
    accepts those whose size lies in the bounds. -/
def MeansWhatItSays (s : CString) : Prop :=
  ((∃ v, parseSize s = .ok v) ↔ ∃ size, SizeText s size ∧ size < 2 ^ 64) ∧
  (∀ v, parseSize s = .ok v → SizeText s v) ∧
  ((∃ b, parseBlocksizeOption s = some b) ↔
    ∃ size, SizeText s size ∧ minBlocksize ≤ size ∧ size ≤ maxBlocksize)

-- ---------------------------------------------------------------------------
-- Suffixes and numbers
-- ---------------------------------------------------------------------------

theorem forall_byte {p : Byte → Prop} (h : ∀ n : Fin 256, p (UInt8.ofFin n)) (c : Byte) : p c := by
  have hc := h c.toFin
  rwa [UInt8.ofFin_toFin] at hc

/-- The `switch` multiplies by 1024 once for each power. -/
theorem sizeMult_toLower (c : Byte) :
    sizeMult (toLower c) = (suffixPower c).map fun power => 1024 ^ power := by
  revert c
  refine forall_byte ?_
  decide +kernel

/-- A suffix letter is no digit. -/
theorem isDigit_of_suffixPower (c : Byte) : suffixPower c ≠ none → isDigit c = false := by
  revert c
  refine forall_byte ?_
  decide +kernel

/-- A digit is neither a space nor a sign. -/
theorem isDigit_start (c : Byte) :
    isDigit c = true → isSpace c = false ∧ c ≠ 45 ∧ c ≠ 43 := by
  revert c
  refine forall_byte ?_
  decide +kernel

/-- Of a string that starts with a digit `strtoull` reads the digits. -/
theorem strtoull_eq {s : List Byte} (hs : s.takeWhile isDigit ≠ []) :
    strtoull s = min (decimalValue (s.takeWhile isDigit)) (2 ^ 64 - 1) := by
  cases s with
  | nil => exact absurd rfl hs
  | cons c rest =>
    have hc : isDigit c = true := by
      by_contra hno
      rw [List.takeWhile_cons_of_neg hno] at hs
      exact hs rfl
    obtain ⟨hspace, hminus, hplus⟩ := isDigit_start c hc
    rw [strtoull, List.dropWhile_cons_of_neg (by rw [hspace]; decide)]
    simp only
    rw [if_neg hminus, if_neg hplus]

section Text

variable {s : CString} {digits suffix : List Byte} {size : Nat}

/-- Digits in front of something else are what the loop over the digits passes. -/
theorem takeWhile_digits (hs : s.bytes = digits ++ suffix) (hdigits : ∀ c ∈ digits, isDigit c = true)
    (hsuffix : ∀ c ∈ suffix.head?, isDigit c = false) :
    s.bytes.takeWhile isDigit = digits ∧ s.bytes.dropWhile isDigit = suffix := by
  have htake : suffix.takeWhile isDigit = [] ∧ suffix.dropWhile isDigit = suffix := by
    cases suffix with
    | nil => exact ⟨rfl, rfl⟩
    | cons c rest =>
      have hc : ¬ isDigit c = true := by
        rw [hsuffix c rfl]
        exact Bool.noConfusion
      exact ⟨List.takeWhile_cons_of_neg hc, List.dropWhile_cons_of_neg hc⟩
  rw [hs, List.takeWhile_append_of_pos hdigits, List.dropWhile_append_of_pos hdigits, htake.1,
    htake.2, List.append_nil]
  exact ⟨rfl, rfl⟩

/-- The digits of a text, what follows them, and the size that it means. -/
theorem SizeText.split (h : SizeText s size) :
    s.bytes.takeWhile isDigit ≠ [] ∧
      (s.bytes.dropWhile isDigit = [] ∧ size = decimalValue (s.bytes.takeWhile isDigit) ∨
        ∃ c power, s.bytes.dropWhile isDigit = [c] ∧ suffixPower c = some power ∧
          size = decimalValue (s.bytes.takeWhile isDigit) * 1024 ^ power) := by
  obtain ⟨digits, suffix, hs, hne, hdigits, hrest⟩ := h
  have hsuffix : ∀ c ∈ suffix.head?, isDigit c = false := by
    rcases hrest with ⟨rfl, -⟩ | ⟨c, power, rfl, hc, -⟩
    · intro c hc
      cases hc
    · rintro d ⟨⟩
      exact isDigit_of_suffixPower c (by rw [hc]; exact Option.some_ne_none power)
  obtain ⟨htake, hdrop⟩ := takeWhile_digits hs hdigits hsuffix
  rw [htake, hdrop]
  exact ⟨hne, hrest⟩

/-- A text means one size. -/
theorem SizeText.unique {size' : Nat} (h : SizeText s size) (h' : SizeText s size') :
    size = size' := by
  obtain ⟨-, ⟨hnil, rfl⟩ | ⟨c, power, hone, hc, rfl⟩⟩ := h.split
  · obtain ⟨-, ⟨-, rfl⟩ | ⟨c', power', hone', -, -⟩⟩ := h'.split
    · rfl
    · rw [hnil] at hone'
      cases hone'
  · obtain ⟨-, ⟨hnil', -⟩ | ⟨c', power', hone', hc', rfl⟩⟩ := h'.split
    · rw [hone] at hnil'
      cases hnil'
    · rw [hone] at hone'
      cases hone'
      rw [hc] at hc'
      cases hc'
      rfl

/-- `parse_size` returns for every text, with the saturated number times the factor in 64
    bits. -/
theorem parseSize_of_sizeText (h : SizeText s size) :
    ∃ n factor, size = n * factor ∧ 0 < factor ∧
      parseSize s = .ok (Word.wrap 64 (min n (2 ^ 64 - 1) * factor)) := by
  obtain ⟨hne, ⟨hnil, hsize⟩ | ⟨c, power, hone, hc, hsize⟩⟩ := h.split
  · refine ⟨decimalValue (s.bytes.takeWhile isDigit), 1, by rw [hsize, Nat.mul_one],
      Nat.one_pos, ?_⟩
    rw [parseSize, if_neg hne, hnil, strtoull_eq hne]
  · refine ⟨decimalValue (s.bytes.takeWhile isDigit), 1024 ^ power, hsize,
      Nat.pow_pos (by decide), ?_⟩
    have hmult := sizeMult_toLower c
    rw [hc] at hmult
    rw [parseSize, if_neg hne, hone, strtoull_eq hne]
    simp only [hmult, Option.map_some, ne_eq, not_true_eq_false, if_false]

/-- A size that fits is returned as it is. -/
theorem parseSize_exact (h : SizeText s size) (hbits : size < 2 ^ 64) : parseSize s = .ok size := by
  obtain ⟨n, factor, rfl, hpos, hparse⟩ := parseSize_of_sizeText h
  have hn : n ≤ n * factor := Nat.le_mul_of_pos_right n hpos
  rw [hparse, Nat.min_eq_left (by omega), Word.wrap_of_lt hbits]

/-- `parse_size` returns for nothing else. -/
theorem sizeText_of_parseSize {v : Nat} (h : parseSize s = .ok v) : ∃ size, SizeText s size := by
  unfold parseSize at h
  split at h
  · cases h
  · rename_i hne
    have hdigits : ∀ c ∈ s.bytes.takeWhile isDigit, isDigit c = true :=
      fun c hc => List.all_eq_true.1 List.all_takeWhile c hc
    split at h
    · rename_i hnil
      refine ⟨_, s.bytes.takeWhile isDigit, [], ?_, hne, hdigits, .inl ⟨rfl, rfl⟩⟩
      rw [← hnil, List.takeWhile_append_dropWhile]
    · rename_i c rest hcons
      split at h
      · cases h
      · rename_i mult hmult
        split at h
        · cases h
        · rename_i hrest
          rw [ne_eq, not_not] at hrest
          rw [sizeMult_toLower] at hmult
          obtain ⟨power, hc, -⟩ := Option.map_eq_some_iff.1 hmult
          refine ⟨_, s.bytes.takeWhile isDigit, [c], ?_, hne, hdigits,
            .inr ⟨c, power, rfl, hc, rfl⟩⟩
          rw [← hrest, ← hcons, List.takeWhile_append_dropWhile]

end Text

-- ---------------------------------------------------------------------------
-- Which sizes mean what they say
-- ---------------------------------------------------------------------------

/-- The size that `-b` keeps lies in the bounds. -/
theorem parseBlocksizeOption_isSome_iff {s : CString} {size : Nat} (hparse : parseSize s = .ok size) :
    (∃ b, parseBlocksizeOption s = some b) ↔
      minBlocksize ≤ Word.wrap 32 size ∧ Word.wrap 32 size ≤ maxBlocksize := by
  rw [parseBlocksizeOption, hparse]
  simp only [parseBlocksize]
  split
  · rename_i hout
    constructor
    · rintro ⟨b, hb⟩
      cases hb
    · rintro ⟨hmin, hmax⟩
      omega
  · rename_i hin
    exact ⟨fun _ => by omega, fun _ => ⟨_, rfl⟩⟩

/-- A size in the bounds fits in 32 bits. -/
theorem wrap_of_le_maxBlocksize {size : Nat} (h : size ≤ maxBlocksize) : Word.wrap 32 size = size :=
  Word.wrap_of_lt (Nat.lt_of_le_of_lt h (by decide))

/-- A string means what it says if and only if it is no size at all, or a size that fits in 64
    bits and is in the bounds of a block size when its low 32 bits are. -/
theorem parseSize_means_iff (s : CString) :
    MeansWhatItSays s ↔ ∀ size, SizeText s size → size < 2 ^ 64 ∧
      (minBlocksize ≤ Word.wrap 32 size → Word.wrap 32 size ≤ maxBlocksize →
        size ≤ maxBlocksize) := by
  constructor
  · rintro ⟨hreturns, -, hbounds⟩ size hsize
    obtain ⟨n, factor, -, -, hparse⟩ := parseSize_of_sizeText hsize
    obtain ⟨size', hsize', hbits⟩ := hreturns.1 ⟨_, hparse⟩
    obtain rfl := hsize.unique hsize'
    refine ⟨hbits, fun hmin hmax => ?_⟩
    have haccept := parseBlocksizeOption_isSome_iff (parseSize_exact hsize hbits)
    obtain ⟨size', hsize', -, hle⟩ := hbounds.1 (haccept.2 ⟨hmin, hmax⟩)
    rwa [hsize.unique hsize']
  · intro hsizes
    have hexact : ∀ v, parseSize s = .ok v → SizeText s v ∧ v < 2 ^ 64 := by
      intro v hv
      obtain ⟨size, hsize⟩ := sizeText_of_parseSize hv
      have hbits := (hsizes size hsize).1
      rw [parseSize_exact hsize hbits] at hv
      cases hv
      exact ⟨hsize, hbits⟩
    refine ⟨⟨?_, ?_⟩, fun v hv => (hexact v hv).1, ?_, ?_⟩
    · rintro ⟨v, hv⟩
      exact ⟨v, hexact v hv⟩
    · rintro ⟨size, hsize, hbits⟩
      exact ⟨size, parseSize_exact hsize hbits⟩
    · rintro ⟨b, hb⟩
      cases hparse : parseSize s with
      | error e =>
        rw [parseBlocksizeOption, hparse] at hb
        cases hb
      | ok size =>
        obtain ⟨hsize, -⟩ := hexact size hparse
        obtain ⟨hmin, hmax⟩ := (parseBlocksizeOption_isSome_iff hparse).1 ⟨b, hb⟩
        have hle := (hsizes size hsize).2 hmin hmax
        rw [wrap_of_le_maxBlocksize hle] at hmin
        exact ⟨size, hsize, hmin, hle⟩
    · rintro ⟨size, hsize, hmin, hmax⟩
      refine (parseBlocksizeOption_isSome_iff (parseSize_exact hsize ?_)).2 ?_
      · exact Nat.lt_of_le_of_lt hmax (by decide)
      · rw [wrap_of_le_maxBlocksize hmax]
        exact ⟨hmin, hmax⟩

/-- 2³² + 4096, in KiB. -/
def wrappedSize : CString := ⟨letters "4194308k", by decide +kernel⟩

/-- `-b 4194308k` sets a block size of 4096. -/
theorem not_means_wrappedSize :
    parseBlocksizeOption wrappedSize = some 4096 ∧ ¬ MeansWhatItSays wrappedSize := by
  have haccept : parseBlocksizeOption wrappedSize = some 4096 := by decide +kernel
  refine ⟨haccept, fun hmeans => ?_⟩
  obtain ⟨size, hsize, -, hmax⟩ := hmeans.2.2.1 ⟨4096, haccept⟩
  have hparse := parseSize_exact hsize (Nat.lt_of_le_of_lt hmax (by decide))
  have hvalue : parseSize wrappedSize = .ok 4294971392 := by decide +kernel
  rw [hvalue] at hparse
  cases hparse
  exact absurd hmax (by decide)

end Duperemove
