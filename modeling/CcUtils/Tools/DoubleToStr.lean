import CcUtils.Lib.Decimal
import CcUtils.Lib.Reverse
import Mathlib.Algebra.Order.Floor.Ring
import Mathlib.Data.Rat.Floor

/-!
# `double_to_str`

The value times a power of ten is rounded to a `long`, whose digits are written from the last one on, with
the point among them, and the whole is turned round. Where there are no digits behind which the point would
come, a zero and the point are put in front; but if there are too few digits even for the places after the
point, none is put between.

The value is a rational here, and what the code computes with it is exact.

## What is proved

* `roundLong_eq` — the rounding is to the nearest, with halves down.
* `digitLoop_eq` — what the loop writes.
* `doubleToStr_iff` — so for which values the text is right.
-/

namespace CcUtils.Tools

open CcUtils.Lib

/-! ### The function -/

/-- `output[i++] = c`. -/
def putChar (s : List UInt8 × ℕ) (c : UInt8) : Exec (List UInt8 × ℕ) := do
  let output ← store s.1 s.2 [c]
  return (output, s.2 + 1)

/-- The loop that computes `preserve_val`. -/
def powTen : ℕ → Exec ℤ
  | 0 => .ok 1
  | n + 1 => do
    let preserveVal ← powTen n
    check (preserveVal * 10 < 2 ^ 63) .overflow
    return preserveVal * 10

/-- The conversion of a floating-point number to `long`. -/
def truncLong (x : ℚ) : Exec ℤ := do
  let t := x.num.tdiv x.den
  check (-2 ^ 63 ≤ t ∧ t < 2 ^ 63) .overflow
  return t

/-- The rounding: `long_val` for the product `x`. -/
def roundLong (x : ℚ) : Exec ℤ := do
  let longVal ← truncLong x
  if 1 / 2 < x - longVal then do
    check (longVal + 1 < 2 ^ 63) .overflow
    return longVal + 1
  else return longVal

/-- The loop that writes the digits of `tmpVal`. -/
def digitLoop (preserve : ℤ) : ℕ → ℤ → List UInt8 × ℕ → Exec (List UInt8 × ℕ)
  | 0, _, _ => .error .outOfFuel
  | fuel + 1, tmpVal, s =>
    if 0 < tmpVal then do
      let s ← if (s.2 : ℤ) = preserve then putChar s 46 else .ok s
      let s ← putChar s (UInt8.ofNat (48 + tmpVal.tmod 10).toNat)
      digitLoop preserve fuel (tmpVal.tdiv 10) s
    else .ok s

/-- The point and the zero for a small value. -/
def putZero (longVal preserveVal : ℤ) (s : List UInt8 × ℕ) : Exec (List UInt8 × ℕ) :=
  if longVal < preserveVal then do
    let s ← putChar s 46
    putChar s 48
  else .ok s

/-- `double_to_str`, which leaves its `outputSize` unread. -/
def doubleToStr (val : ℚ) (preserve : ℤ) (output : List UInt8) : Exec (List UInt8) := do
  let preserveVal ← powTen preserve.toNat
  let longVal ← roundLong (val * preserveVal)
  let s ← digitLoop preserve (longVal.toNat + 1) longVal (output, 0)
  let s ← putZero longVal preserveVal s
  let len ← strlen s.1
  reverseBytes s.1 len

/-! ### What it is to write -/

/-- The decimal notation of `r / 10 ^ p`: no zero too many in front, and `p` digits after the point. -/
def pointNotation (r p : ℕ) : List UInt8 := digits (r / 10 ^ p) ++ 46 :: lastDigits p r

/-- So its parts say. -/
theorem pointNotation_value (r p : ℕ) :
    10 ^ p * ofDigits (digits (r / 10 ^ p)) + ofDigits (lastDigits p r) = r := by
  rw [ofDigits_digits, ofDigits_lastDigits, Nat.div_add_mod]

/-- The product rounded to the nearest, with halves down. -/
def rounded (val : ℚ) (p : ℕ) : ℕ := ⌈val * 10 ^ p - 1 / 2⌉.toNat

/-- The text in the output is the notation of the rounded value. -/
def DoubleRight (val : ℚ) (p size : ℕ) : Prop :=
  Post (doubleToStr val p (List.replicate size 0)) fun output =>
    cstr output = .ok (pointNotation (rounded val p) p)

/-! ### The parts -/

variable {w : List UInt8} {size n p fuel : ℕ} {x : ℚ}

theorem powTen_eq (h : 10 ^ n < 2 ^ 63) : powTen n = .ok (10 ^ n : ℕ) := by
  induction n with
  | zero => rfl
  | succ n ih =>
    have hlt : 10 ^ n < 10 ^ (n + 1) := Nat.pow_lt_pow_right (by decide) (Nat.lt_succ_self n)
    rw [powTen, ih (hlt.trans h), ok_bind, check_true (by rw [pow_succ] at h; exact_mod_cast h),
      ok_bind, pow_succ]
    rfl

theorem truncLong_eq (h0 : 0 ≤ x) (h : x < 2 ^ 63) : truncLong x = .ok ⌊x⌋ := by
  have htrunc : x.num.tdiv x.den = ⌊x⌋ := by
    rw [Int.tdiv_eq_ediv_of_nonneg (Rat.num_nonneg.mpr h0)]
    exact Rat.floor_def'.symm
  have hlow : 0 ≤ ⌊x⌋ := Int.floor_nonneg.mpr h0
  have hhigh : ⌊x⌋ < 2 ^ 63 := Int.floor_lt.mpr (by exact_mod_cast h)
  rw [truncLong]
  simp only [htrunc]
  rw [check_true ⟨by omega, hhigh⟩]
  rfl

/-- **The rounding** is to the nearest, with halves down. -/
theorem roundLong_eq (h0 : 0 ≤ x) (h : x < 2 ^ 63 - 1) : roundLong x = .ok ⌈x - 1 / 2⌉ := by
  have hle := Int.floor_le x
  have hlt := Int.lt_floor_add_one x
  have hhigh : ⌊x⌋ < 2 ^ 63 - 1 := Int.floor_lt.mpr (by exact_mod_cast h)
  rw [roundLong, truncLong_eq h0 (by linarith), ok_bind]
  by_cases hup : 1 / 2 < x - ⌊x⌋
  · have hceil : ⌈x - 1 / 2⌉ = ⌊x⌋ + 1 := by
      rw [Int.ceil_eq_iff]
      push_cast
      constructor <;> linarith
    rw [if_pos hup, check_true (by omega), hceil]
    rfl
  · have hceil : ⌈x - 1 / 2⌉ = ⌊x⌋ := by
      rw [Int.ceil_eq_iff]
      constructor <;> linarith
    rw [if_neg hup, hceil]
    rfl

/-- The output when `w` has been written to it. -/
def filled (size : ℕ) (w : List UInt8) : List UInt8 := w ++ List.replicate (size - w.length) 0

theorem putChar_filled (h : w.length < size) (c : UInt8) :
    putChar (filled size w, w.length) c = .ok (filled size (w ++ [c]), (w ++ [c]).length) := by
  obtain ⟨m, hm⟩ := Nat.exists_eq_add_of_lt h
  have hroom : size - w.length = m + 1 := by omega
  have hrest : size - (w ++ [c]).length = m := by
    rw [List.length_append, List.length_singleton]
    omega
  have hstore : store (filled size w) w.length [c] = .ok (filled size (w ++ [c])) := by
    rw [filled, filled, hroom, hrest, List.replicate_succ, List.append_assoc]
    have hlen : [c].length = [(0 : UInt8)].length := rfl
    exact store_append rfl hlen
  rw [putChar, hstore, ok_bind, List.length_append]
  rfl

/-- The characters that the loop writes from place `i` on. -/
def pointed (p : ℕ) : ℕ → List UInt8 → List UInt8
  | _, [] => []
  | i, c :: cs => if i = p then 46 :: c :: pointed p (i + 2) cs else c :: pointed p (i + 1) cs

/-- **The loop** writes the digits from the last one on, and the point at its place. -/
theorem digitLoop_eq (hfuel : n < fuel)
    (hroom : w.length + (pointed p w.length (backwards n)).length ≤ size) :
    digitLoop p fuel n (filled size w, w.length) =
      .ok (filled size (w ++ pointed p w.length (backwards n)),
        (w ++ pointed p w.length (backwards n)).length) := by
  induction fuel generalizing n w with
  | zero => cases hfuel
  | succ fuel ih =>
    rw [digitLoop]
    rcases Nat.eq_zero_or_pos n with rfl | hn
    · simp [pointed]
    · have hpos : (0 : ℤ) < n := by exact_mod_cast hn
      have hdigit : (48 + (n : ℤ).tmod 10).toNat = 48 + n % 10 := by
        rw [Int.tmod_eq_emod_of_nonneg hpos.le]
        omega
      have hdiv : (n : ℤ).tdiv 10 = (n / 10 : ℕ) := rfl
      have hless : n / 10 < fuel := by omega
      rw [backwards_of_pos hn, pointed] at hroom ⊢
      rw [if_pos hpos, hdigit, hdiv]
      by_cases hp : w.length = p
      · have hplace : (w.length : ℤ) = p := by exact_mod_cast hp
        have hlen : (w ++ [46] ++ [UInt8.ofNat (48 + n % 10)]).length = w.length + 2 := by simp
        rw [if_pos hp] at hroom ⊢
        simp only [List.length_cons] at hroom
        have hrest := ih (w := w ++ [46] ++ [UInt8.ofNat (48 + n % 10)]) hless (by rw [hlen]; omega)
        have hroom1 : (w ++ [46]).length < size := by
          rw [List.length_append, List.length_singleton]
          omega
        rw [if_pos hplace, putChar_filled (by omega), ok_bind]
        beta_reduce
        rw [putChar_filled hroom1, ok_bind, hrest, hlen]
        simp
      · have hplace : ¬ (w.length : ℤ) = p := by exact_mod_cast hp
        have hlen : (w ++ [UInt8.ofNat (48 + n % 10)]).length = w.length + 1 := by simp
        rw [if_neg hp] at hroom ⊢
        simp only [List.length_cons] at hroom
        have hrest := ih (w := w ++ [UInt8.ofNat (48 + n % 10)]) hless (by rw [hlen]; omega)
        rw [if_neg hplace, ok_bind]
        beta_reduce
        rw [putChar_filled (by omega), ok_bind, hrest, hlen]
        simp

/-- The digits with the point among them, when there are more of them than places after it. -/
theorem pointed_eq (p i : ℕ) (cs : List UInt8) :
    pointed p i cs = if p < i ∨ cs.length ≤ p - i then cs
      else cs.take (p - i) ++ 46 :: cs.drop (p - i) := by
  induction cs generalizing i with
  | nil => simp [pointed]
  | cons c cs ih =>
    rw [pointed, ih, ih, List.length_cons]
    rcases Nat.lt_trichotomy i p with hi | rfl | hi
    · obtain ⟨k, hk⟩ : ∃ k, p - i = k + 1 := ⟨p - i - 1, by omega⟩
      have hk1 : p - (i + 1) = k := by omega
      have hnext : ¬ p < i + 1 := by omega
      rw [if_neg hi.ne, hk, hk1]
      by_cases hshort : cs.length ≤ k
      · rw [if_pos (.inr hshort), if_pos (.inr (Nat.succ_le_succ hshort))]
      · have hlong : ¬ (p < i ∨ cs.length + 1 ≤ k + 1) := by omega
        have hlong' : ¬ (p < i + 1 ∨ cs.length ≤ k) := by omega
        rw [if_neg hlong, if_neg hlong', List.take_succ_cons, List.drop_succ_cons]
        rfl
    · simp
    · have hne : i ≠ p := by omega
      rw [if_neg hne, if_pos (.inl (by omega)), if_pos (.inl hi)]

/-! ### The text -/

/-- What has been written before it is turned round. -/
def written (r p : ℕ) : List UInt8 :=
  pointed p 0 (backwards r) ++ if r < 10 ^ p then [46, 48] else []

theorem mem_pointed {c : UInt8} {i : ℕ} {cs : List UInt8} (h : c ∈ pointed p i cs) :
    c = 46 ∨ c ∈ cs := by
  rw [pointed_eq] at h
  split at h
  · exact .inr h
  · rcases List.mem_append.mp h with h | h
    · exact .inr (List.mem_of_mem_take h)
    · exact (List.mem_cons.mp h).imp_right List.mem_of_mem_drop

theorem zero_notMem_written (n p : ℕ) : (0 : UInt8) ∉ written n p := by
  intro h
  rcases List.mem_append.mp h with h | h
  · rcases mem_pointed h with h | h
    · cases h
    · exact absurd (isDigit_of_mem_backwards h) (by decide)
  · split at h
    · revert h
      decide
    · cases h

theorem written_small (h : n < 10 ^ p) : written n p = backwards n ++ [46, 48] := by
  rw [written, if_pos h, pointed_eq, if_pos (.inr (length_backwards_le.mpr h))]

theorem written_large (h : 10 ^ p ≤ n) : (written n p).reverse = pointNotation n p := by
  have hlong : p ≤ (backwards n).length := by
    have hle := (length_backwards_le (n := n) (k := p)).not.mpr (not_lt.mpr h)
    omega
  have hmany : ¬ (p < 0 ∨ (backwards n).length ≤ p - 0) := by
    have hle := (length_backwards_le (n := n) (k := p)).not.mpr (not_lt.mpr h)
    omega
  have hpos : 0 < n / 10 ^ p := Nat.div_pos h (by positivity)
  rw [written, if_neg (not_lt.mpr h), List.append_nil, pointed_eq, if_neg hmany, Nat.sub_zero,
    List.reverse_append, List.reverse_cons, take_backwards hlong, List.reverse_reverse,
    drop_backwards, reverse_backwards hpos, pointNotation, List.append_assoc]
  rfl

theorem pointNotation_small (h : n < 10 ^ p) : pointNotation n p = 48 :: 46 :: lastDigits p n := by
  have hzero : digits 0 = [48] := by decide
  rw [pointNotation, Nat.div_eq_of_lt h, hzero]
  rfl

/-- **Turned round**, it is the notation exactly when there are digits for all places after the point. -/
theorem written_reverse (hp : 1 ≤ p) :
    (written n p).reverse = pointNotation n p ↔ 10 ^ (p - 1) ≤ n := by
  by_cases hsmall : n < 10 ^ p
  · have hlen : (backwards n).length ≤ p := length_backwards_le.mpr hsmall
    have hfull : 10 ^ (p - 1) ≤ n ↔ (backwards n).length = p := by
      have hle := length_backwards_le (n := n) (k := p - 1)
      rw [← not_lt, ← hle]
      omega
    rw [written_small hsmall, pointNotation_small hsmall, hfull]
    simp only [List.reverse_append, List.reverse_cons, List.reverse_nil, List.nil_append,
      List.cons_append, List.cons.injEq, true_and]
    constructor
    · intro he
      rw [← List.length_reverse, he, length_lastDigits]
    · intro he
      rw [← List.reverse_reverse (lastDigits p n), ← take_backwards he.ge, ← he, List.take_length]
  · have hlarge := not_lt.mp hsmall
    refine iff_of_true (written_large hlarge) ?_
    exact (Nat.pow_le_pow_right (by decide) (Nat.sub_le p 1)).trans hlarge

theorem length_written_le (n p : ℕ) : (written n p).length ≤ (pointNotation n p).length := by
  by_cases hsmall : n < 10 ^ p
  · have hlen : (backwards n).length ≤ p := length_backwards_le.mpr hsmall
    rw [written_small hsmall, pointNotation_small hsmall]
    simp only [List.length_append, List.length_cons, List.length_nil, length_lastDigits]
    omega
  · rw [← written_large (not_lt.mp hsmall), List.length_reverse]

theorem putZero_eq {r : ℕ} (hsize : (written r p).length < size) :
    putZero r (10 ^ p : ℕ) (filled size (pointed p 0 (backwards r)),
        (pointed p 0 (backwards r)).length) =
      .ok (filled size (written r p), (written r p).length) := by
  rw [putZero]
  by_cases hsmall : r < 10 ^ p
  · have hcast : (r : ℤ) < (10 ^ p : ℕ) := by exact_mod_cast hsmall
    rw [written, if_pos hsmall] at hsize ⊢
    simp only [List.length_append, List.length_cons, List.length_nil] at hsize
    have hroom : (pointed p 0 (backwards r) ++ [46]).length < size := by
      rw [List.length_append, List.length_singleton]
      omega
    rw [if_pos hcast, putChar_filled (by omega), ok_bind, putChar_filled hroom, List.append_assoc]
    rfl
  · have hcast : ¬ (r : ℤ) < (10 ^ p : ℕ) := by exact_mod_cast hsmall
    rw [written, if_neg hsmall, List.append_nil, if_neg hcast]

/-- A text in a filled output ends where the zeros begin. -/
theorem cstr_filled (hw : (0 : UInt8) ∉ w) (h : w.length < size) : cstr (filled size w) = .ok w := by
  obtain ⟨m, hm⟩ := Nat.exists_eq_add_of_lt h
  have hroom : size - w.length = m + 1 := by omega
  have hbytes : filled size w = CString.bytes ⟨w, hw⟩ ++ List.replicate m 0 := by
    rw [filled, hroom, List.replicate_succ, CString.bytes, List.append_assoc]
    rfl
  rw [hbytes, cstr_append]

/-- The value that is rounded is not negative. -/
theorem rounded_eq {val : ℚ} (h0 : 0 ≤ val) (p : ℕ) :
    ⌈val * 10 ^ p - 1 / 2⌉ = (rounded val p : ℤ) := by
  have hpos : 0 ≤ val * 10 ^ p := by positivity
  have hlow : -1 < ⌈val * 10 ^ p - 1 / 2⌉ := Int.lt_ceil.mpr (by push_cast; linarith)
  rw [rounded]
  omega

/-- **What `double_to_str` leaves** in the output. -/
theorem doubleToStr_eq {val : ℚ} (hp : 10 ^ p < 2 ^ 63) (h0 : 0 ≤ val)
    (hval : val * 10 ^ p < 2 ^ 63 - 1) (hsize : (written (rounded val p) p).length < size) :
    doubleToStr val p (List.replicate size 0) =
      .ok (filled size (written (rounded val p) p).reverse) := by
  have hround : roundLong (val * (((10 ^ p : ℕ) : ℤ) : ℚ)) = .ok (rounded val p : ℤ) := by
    have hcast : (((10 ^ p : ℕ) : ℤ) : ℚ) = 10 ^ p := by push_cast; rfl
    rw [hcast, roundLong_eq (by positivity) hval, rounded_eq h0]
  have hstart : ((List.replicate size 0, 0) : List UInt8 × ℕ) =
      (filled size [], ([] : List UInt8).length) := rfl
  rw [doubleToStr, Int.toNat_natCast, powTen_eq hp, ok_bind, hround, ok_bind, Int.toNat_natCast, hstart]
  generalize rounded val p = r at hsize
  have hroom : ([] : List UInt8).length + (pointed p ([] : List UInt8).length (backwards r)).length ≤
      size := by
    rw [written, List.length_append] at hsize
    rw [List.length_nil, Nat.zero_add]
    omega
  have hlen : strlen (filled size (written r p)) = .ok (written r p).length := by
    rw [strlen, cstr_filled (zero_notMem_written r p) hsize]
    rfl
  rw [digitLoop_eq (Nat.lt_succ_self r) hroom, ok_bind, List.nil_append, List.length_nil,
    putZero_eq hsize, ok_bind, hlen, ok_bind, filled, reverseBytes_append, filled,
    List.length_reverse]

/-- **`double_to_str` is right** for a value that is not negative exactly when the rounded value has digits
for all places after the point. -/
theorem doubleToStr_iff {val : ℚ} (hp1 : 1 ≤ p) (hp7 : p ≤ 7) (h0 : 0 ≤ val)
    (hval : val * 10 ^ p < 2 ^ 63 - 1) (hsize : (pointNotation (rounded val p) p).length < size) :
    DoubleRight val p size ↔ 10 ^ (p - 1) ≤ rounded val p := by
  have hp : 10 ^ p < 2 ^ 63 := (Nat.pow_le_pow_right (by decide) hp7).trans_lt (by decide)
  have hwritten := (length_written_le (rounded val p) p).trans_lt hsize
  have hreverse : (0 : UInt8) ∉ (written (rounded val p) p).reverse := by
    rw [List.mem_reverse]
    exact zero_notMem_written _ p
  rw [← written_reverse hp1, DoubleRight, doubleToStr_eq hp h0 hval hwritten]
  have hcstr : cstr (filled size _) = _ := cstr_filled hreverse (by rwa [List.length_reverse])
  constructor
  · intro hpost
    have he := hpost.of_ok rfl
    rw [hcstr] at he
    exact Except.ok.inj he
  · intro he
    exact Post.ok (by rw [hcstr, he])

theorem rounded_two : rounded 2 1 = 20 := by
  have hceil : ⌈(2 : ℚ) * 10 ^ 1 - 1 / 2⌉ = 20 := by
    rw [Int.ceil_eq_iff]
    norm_num
  rw [rounded, hceil]
  rfl

theorem doubleToStr_iff_two : DoubleRight 2 1 8 ↔ 10 ^ (1 - 1) ≤ rounded 2 1 :=
  doubleToStr_iff (by decide) (by decide) (by norm_num) (by norm_num) (by rw [rounded_two]; decide)

theorem rounded_twentieth : rounded (1 / 20) 2 = 5 := by
  have hceil : ⌈(1 / 20 : ℚ) * 10 ^ 2 - 1 / 2⌉ = 5 := by
    rw [Int.ceil_eq_iff]
    norm_num
  rw [rounded, hceil]
  rfl

/-- For 0.05 with two places it writes `0.5`. -/
theorem doubleToStr_twentieth : ¬ DoubleRight (1 / 20) 2 8 := by
  rintro ⟨output, hrun, hcstr⟩
  have hsize : (written (rounded (1 / 20) 2) 2).length < 8 := by
    rw [rounded_twentieth]
    decide
  have hcode := doubleToStr_eq (by norm_num) (by norm_num) (by norm_num) hsize
  rw [rounded_twentieth] at hcode hcstr
  obtain rfl := Except.ok.inj (hcode.symm.trans hrun)
  revert hcstr
  decide

end CcUtils.Tools
