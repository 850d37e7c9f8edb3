import CcUtils.Lib.Decimal
import CcUtils.Lib.Memory
import Mathlib.Data.FinEnum
import Mathlib.Data.List.Induction

/-!
# `str_to_int`

A text of digits is read by `strtol`, and its value cut to an `int`. Whether something was lost is found by
taking the digits off the `int` again, the last one first, and comparing them with the text.

## What is proved

* `sameDigits_le` — a number that gives the digits of the text is not smaller than what they stand for.
* `sameDigits_self` — and that number gives them.
* `checked_eq` — so what the check lets through.
* `strToInt_eq` — so what is returned for any text and length.
-/

namespace CcUtils.Tools

open CcUtils.Lib

/-- A string in an object, none of which is larger than a `ptrdiff_t` can say. -/
structure Text where
  str : CString
  small : str.len < 2 ^ 63

/-- `INT_MIN`. -/
def intMin : ℤ := -2 ^ 31

/-- The loop that takes the digits off `checkVal` and compares them with the text, whose last byte comes
first here. -/
def sameDigits : ℤ → List UInt8 → Bool
  | _, [] => true
  | checkVal, c :: cs => 48 + checkVal.tmod 10 = c.toNat && sameDigits (checkVal.tdiv 10) cs

/-- `str_to_int`. The `length` is compared as a `size_t`. -/
def strToInt (buf : Text) (length : Int32) : ℤ :=
  let read := buf.str.val.take length.toInt.toNat
  let res := (Int32.ofInt (strtol buf.str.val).1).toInt
  if (buf.str.len : ℤ) ≠ length.toInt % 2 ^ 64 then intMin
  else if read.any fun c => !isDigit c then intMin
  else if sameDigits res read.reverse then res
  else intMin

/-! ### The digits, the last one first -/

variable {s : List UInt8} {c : UInt8} {k : ℤ}

theorem isDigit_iff : isDigit c = true ↔ 48 ≤ c.toNat ∧ c.toNat ≤ 57 := by
  rw [isDigit, Bool.and_eq_true, decide_eq_true_eq, decide_eq_true_eq, UInt8.le_iff_toNat_le,
    UInt8.le_iff_toNat_le]
  rfl

theorem ofDigits_concat (s : List UInt8) (c : UInt8) :
    ofDigits (s ++ [c]) = 10 * ofDigits s + (c.toNat - 48) := by
  rw [ofDigits_append, List.length_singleton, pow_one]
  simp [ofDigits]

theorem sameDigits_concat (k : ℤ) (s : List UInt8) (c : UInt8) :
    sameDigits k (s ++ [c]).reverse = true ↔
      48 + k.tmod 10 = c.toNat ∧ sameDigits (k.tdiv 10) s.reverse = true := by
  rw [List.reverse_concat, sameDigits, Bool.and_eq_true, decide_eq_true_eq]

/-- **A number that gives the digits** of a text is not smaller than what they stand for. A negative one
gives none but zeros. -/
theorem sameDigits_le (hs : ∀ c ∈ s, isDigit c = true) (h : sameDigits k s.reverse = true) :
    (ofDigits s : ℤ) ≤ max k 0 := by
  induction s using List.reverseRecOn generalizing k with
  | nil => exact le_max_right ..
  | append_singleton s c ih =>
    obtain ⟨hlast, hrest⟩ := (sameDigits_concat k s c).mp h
    have hle := ih (fun d hd => hs d (List.mem_append_left _ hd)) hrest
    have hc := isDigit_iff.mp (hs c (List.mem_append_right _ (List.mem_singleton_self c)))
    rw [ofDigits_concat]
    by_cases hk : 0 ≤ k
    · rw [Int.tdiv_eq_ediv_of_nonneg hk] at hle
      rw [Int.tmod_eq_emod_of_nonneg hk] at hlast
      omega
    · obtain ⟨j, hj⟩ := Int.eq_ofNat_of_zero_le (neg_nonneg.mpr (not_le.mp hk).le)
      obtain rfl : k = -(j : ℤ) := by omega
      have hdiv : (j : ℤ).tdiv 10 = (j / 10 : ℕ) := rfl
      have hmod : (j : ℤ).tmod 10 = (j % 10 : ℕ) := rfl
      rw [Int.neg_tdiv, hdiv] at hle
      rw [Int.neg_tmod, hmod] at hlast
      omega

/-- **The number that the digits stand for** gives them. -/
theorem sameDigits_self (hs : ∀ c ∈ s, isDigit c = true) :
    sameDigits (ofDigits s) s.reverse = true := by
  induction s using List.reverseRecOn with
  | nil => rfl
  | append_singleton s c ih =>
    have hc := isDigit_iff.mp (hs c (List.mem_append_right _ (List.mem_singleton_self c)))
    refine (sameDigits_concat _ s c).mpr ?_
    rw [ofDigits_concat, Int.tdiv_eq_ediv_of_nonneg (Int.natCast_nonneg _),
      Int.tmod_eq_emod_of_nonneg (Int.natCast_nonneg _)]
    have hdiv : ((10 * ofDigits s + (c.toNat - 48) : ℕ) : ℤ) / 10 = ofDigits s := by omega
    refine ⟨by omega, ?_⟩
    rw [hdiv]
    exact ih fun d hd => hs d (List.mem_append_left _ hd)

/-! ### The function -/

/-- The length is right as a `size_t` exactly when it is right. -/
theorem Text.length_iff (buf : Text) (length : Int32) :
    (buf.str.len : ℤ) = length.toInt % 2 ^ 64 ↔ length.toInt = buf.str.len := by
  have hsmall := buf.small
  have hlow := length.le_toInt
  have hhigh := length.toInt_lt
  omega

/-- What `strtol` gives for a text of digits, which may have none. -/
theorem strtol_text (hs : ∀ c ∈ s, isDigit c = true) : (strtol s).1 = clampLong (ofDigits s : ℕ) := by
  cases s with
  | nil => rfl
  | cons c s => rw [strtol_clamp (List.cons_ne_nil c s) hs]

/-- **The check** lets the value of a text of digits through exactly when it is an `int`. -/
theorem checked_eq (hs : ∀ c ∈ s, isDigit c = true) :
    (if sameDigits (Int32.ofInt (clampLong (ofDigits s : ℕ))).toInt s.reverse then
        (Int32.ofInt (clampLong (ofDigits s : ℕ))).toInt else intMin) =
      if ofDigits s ≤ 2 ^ 31 - 1 then (ofDigits s : ℤ) else intMin := by
  by_cases hfits : ofDigits s ≤ 2 ^ 31 - 1
  · have hclamp : clampLong (ofDigits s : ℕ) = ofDigits s := by
      rw [clampLong]
      omega
    have hres : (Int32.ofInt (clampLong (ofDigits s : ℕ))).toInt = ofDigits s := by
      rw [hclamp]
      exact Int32.toInt_ofInt_of_le (by omega) (by omega)
    rw [hres, if_pos (sameDigits_self hs), if_pos hfits]
  · have hdiffer : ¬ sameDigits (Int32.ofInt (clampLong (ofDigits s : ℕ))).toInt s.reverse = true := by
      intro hsame
      have hle := sameDigits_le hs hsame
      have hhigh := (Int32.ofInt (clampLong (ofDigits s : ℕ))).toInt_lt
      omega
    rw [if_neg hdiffer, if_neg hfits]

/-- **`str_to_int`** returns the value of a text of digits that is as long as is said and whose value is
an `int`, and `INT_MIN` otherwise. -/
theorem strToInt_eq (buf : Text) (length : Int32) :
    strToInt buf length =
      if length.toInt = buf.str.len ∧ (∀ c ∈ buf.str.val, isDigit c = true) ∧
          ofDigits buf.str.val ≤ 2 ^ 31 - 1 then (ofDigits buf.str.val : ℤ)
      else intMin := by
  rw [strToInt]
  by_cases hlen : length.toInt = buf.str.len
  · have hread : buf.str.val.take length.toInt.toNat = buf.str.val := by
      rw [hlen, Int.toNat_natCast]
      exact List.take_length
    have hsize : ¬ (buf.str.len : ℤ) ≠ length.toInt % 2 ^ 64 :=
      not_not.mpr ((buf.length_iff length).mpr hlen)
    simp only [hread, if_neg hsize, and_iff_right hlen]
    by_cases hs : ∀ c ∈ buf.str.val, isDigit c = true
    · have hany : ¬ (buf.str.val.any fun c => !isDigit c) = true := by
        simpa using hs
      simp only [if_neg hany, and_iff_right hs, strtol_text hs]
      exact checked_eq hs
    · have hany : (buf.str.val.any fun c => !isDigit c) = true := by
        simpa using hs
      rw [if_pos hany, if_neg fun h => hs h.1]
  · have hsize : (buf.str.len : ℤ) ≠ length.toInt % 2 ^ 64 := fun h =>
      hlen ((buf.length_iff length).mp h)
    rw [if_pos hsize, if_neg fun h => hlen h.1]

end CcUtils.Tools
