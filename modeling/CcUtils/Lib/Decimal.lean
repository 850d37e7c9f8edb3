import Mathlib.Data.List.TakeWhile
import Mathlib.Data.Nat.Notation
import Mathlib.Tactic.IntervalCases
import Mathlib.Tactic.Ring

/-!
# Numbers in decimal

A library about texts of bytes that stand for numbers: the digits a number is printed with, and `strtol`
with base ten, which skips white space, takes a sign and reads digits for as long as there are any.

## What is proved

* `ofDigits_digits` — the digits of a number are read as the number.
* `take_backwards`, `drop_backwards` — the digits from the last one on, up to a place and from there on.
* `strtol_clamp` — and so does `strtol`, to the end of the text, as far as a `long` goes.
* `strtol_stops` — a byte that belongs to no number stops it.
-/

namespace CcUtils.Lib

/-! ### Digits -/

/-- The digits `0` to `9`. -/
def isDigit (c : UInt8) : Bool := 48 ≤ c && c ≤ 57

/-- The number that the digits stand for. -/
def ofDigits (s : List UInt8) : ℕ := s.foldl (fun n c => 10 * n + (c.toNat - 48)) 0

/-- The digits a number is printed with. -/
def digits (n : ℕ) : List UInt8 := (Nat.toDigits 10 n).map fun c => UInt8.ofNat c.toNat

theorem ofDigits_append (s t : List UInt8) :
    ofDigits (s ++ t) = 10 ^ t.length * ofDigits s + ofDigits t := by
  have h : ∀ n, t.foldl (fun n c => 10 * n + (c.toNat - 48)) n =
      10 ^ t.length * n + ofDigits t := by
    induction t with
    | nil => simp [ofDigits]
    | cons c t ih =>
      intro n
      rw [ofDigits, List.foldl_cons, List.foldl_cons, ih, ih (10 * 0 + _), List.length_cons]
      ring
  rw [ofDigits, List.foldl_append, h]
  rfl

/-- The last digits stand for a smaller number. -/
theorem ofDigits_drop_le (s : List UInt8) (k : ℕ) : ofDigits (s.drop k) ≤ ofDigits s := by
  have h := ofDigits_append (s.take k) (s.drop k)
  rw [List.take_append_drop] at h
  omega

/-- One digit. -/
theorem digitChar_byte {n : ℕ} (h : n < 10) :
    UInt8.ofNat (Nat.digitChar n).toNat = UInt8.ofNat (48 + n) := by
  interval_cases n <;> rfl

/-- The last digit comes off the end. -/
theorem digits_eq (n : ℕ) :
    digits n = (if n < 10 then [] else digits (n / 10)) ++ [UInt8.ofNat (48 + n % 10)] := by
  rw [digits, Nat.toDigits_eq_if (by decide)]
  by_cases h : n < 10
  · rw [if_pos h, if_pos h, List.map_singleton, digitChar_byte h, Nat.mod_eq_of_lt h]
    rfl
  · rw [if_neg h, if_neg h, List.map_append, List.map_singleton,
      digitChar_byte (Nat.mod_lt n (by decide))]
    rfl

theorem isDigit_of_mem_digits {n : ℕ} {c : UInt8} (h : c ∈ digits n) : isDigit c = true := by
  induction n using Nat.strong_induction_on with
  | _ n ih =>
    rw [digits_eq, List.mem_append, List.mem_singleton] at h
    rcases h with h | rfl
    · by_cases hn : n < 10
      · rw [if_pos hn] at h
        cases h
      · rw [if_neg hn] at h
        exact ih (n / 10) (by omega) h
    · have hlt : n % 10 < 10 := Nat.mod_lt n (by decide)
      generalize n % 10 = d at hlt
      interval_cases d <;> rfl

theorem ofDigits_last (n : ℕ) : ofDigits [UInt8.ofNat (48 + n % 10)] = n % 10 := by
  have hlt : n % 10 < 10 := Nat.mod_lt n (by decide)
  simp only [ofDigits, List.foldl_cons, List.foldl_nil, UInt8.toNat_ofNat']
  omega

/-- **The digits of a number are read as the number.** -/
theorem ofDigits_digits (n : ℕ) : ofDigits (digits n) = n := by
  induction n using Nat.strong_induction_on with
  | _ n ih =>
    rw [digits_eq, ofDigits_append, ofDigits_last]
    by_cases hn : n < 10
    · rw [if_pos hn]
      simp [ofDigits, Nat.mod_eq_of_lt hn]
    · rw [if_neg hn, ih (n / 10) (by omega)]
      simp only [List.length_cons, List.length_nil]
      omega

theorem digits_ne_nil (n : ℕ) : digits n ≠ [] := by
  rw [digits_eq]
  exact List.append_ne_nil_of_right_ne_nil _ (List.cons_ne_nil _ _)

/-- More than one digit. -/
theorem two_le_length_digits {n : ℕ} : 2 ≤ (digits n).length ↔ 10 ≤ n := by
  rw [digits, List.length_map, ← not_lt, ← not_lt, Nat.lt_succ_iff,
    Nat.length_toDigits_le_iff (by decide) (by decide), pow_one]

theorem length_digits_le {n k : ℕ} (hk : 0 < k) (h : n < 10 ^ k) : (digits n).length ≤ k := by
  rw [digits, List.length_map]
  exact (Nat.length_toDigits_le_iff (by decide) hk).mpr h

/-- What `%d` prints. -/
def intText (z : ℤ) : List UInt8 := if z < 0 then 45 :: digits (-z).toNat else digits z.toNat

/-! ### Digits from the last one on -/

/-- The digits of a number from the last one on; 0 has none. -/
def backwards (n : ℕ) : List UInt8 := if n = 0 then [] else (digits n).reverse

/-- The last `k` digits of a number, with zeros in front where it has not that many. -/
def lastDigits : ℕ → ℕ → List UInt8
  | 0, _ => []
  | k + 1, n => lastDigits k (n / 10) ++ [UInt8.ofNat (48 + n % 10)]

@[simp] theorem backwards_zero : backwards 0 = [] := rfl

theorem backwards_of_pos {n : ℕ} (h : 0 < n) :
    backwards n = UInt8.ofNat (48 + n % 10) :: backwards (n / 10) := by
  rw [backwards, if_neg h.ne', digits_eq, List.reverse_concat, backwards]
  by_cases hn : n < 10
  · rw [if_pos hn, if_pos (Nat.div_eq_of_lt hn)]
    rfl
  · rw [if_neg hn, if_neg (by omega)]

theorem reverse_backwards {n : ℕ} (h : 0 < n) : (backwards n).reverse = digits n := by
  rw [backwards, if_neg h.ne', List.reverse_reverse]

theorem isDigit_of_mem_backwards {n : ℕ} {c : UInt8} (h : c ∈ backwards n) : isDigit c = true := by
  rw [backwards] at h
  split at h
  · cases h
  · exact isDigit_of_mem_digits (List.mem_reverse.mp h)

@[simp] theorem length_lastDigits (k n : ℕ) : (lastDigits k n).length = k := by
  induction k generalizing n with
  | zero => rfl
  | succ k ih => rw [lastDigits, List.length_append, ih, List.length_singleton]

/-- The last digits stand for the remainder. -/
theorem ofDigits_lastDigits (k n : ℕ) : ofDigits (lastDigits k n) = n % 10 ^ k := by
  induction k generalizing n with
  | zero => rw [pow_zero, Nat.mod_one]; rfl
  | succ k ih =>
    rw [lastDigits, ofDigits_append, ofDigits_last, ih, List.length_singleton, pow_one, pow_succ',
      Nat.mod_mul, add_comm]

/-- A number has at most `k` digits if it is below `10 ^ k`. -/
theorem length_backwards_le {n k : ℕ} : (backwards n).length ≤ k ↔ n < 10 ^ k := by
  induction k generalizing n with
  | zero =>
    rcases Nat.eq_zero_or_pos n with rfl | hn
    · simp
    · simp [backwards_of_pos hn, hn.ne']
  | succ k ih =>
    rcases Nat.eq_zero_or_pos n with rfl | hn
    · simp
    · rw [backwards_of_pos hn, List.length_cons, Nat.succ_le_succ_iff, ih, pow_succ,
        Nat.div_lt_iff_lt_mul (by decide)]

theorem take_backwards {n k : ℕ} (h : k ≤ (backwards n).length) :
    (backwards n).take k = (lastDigits k n).reverse := by
  induction k generalizing n with
  | zero => rfl
  | succ k ih =>
    rcases Nat.eq_zero_or_pos n with rfl | hn
    · cases h
    · rw [backwards_of_pos hn, List.length_cons] at h
      rw [backwards_of_pos hn, List.take_succ_cons, ih (Nat.le_of_succ_le_succ h), lastDigits,
        List.reverse_concat]

theorem drop_backwards (n k : ℕ) : (backwards n).drop k = backwards (n / 10 ^ k) := by
  induction k generalizing n with
  | zero => rw [List.drop_zero, pow_zero, Nat.div_one]
  | succ k ih =>
    rcases Nat.eq_zero_or_pos n with rfl | hn
    · simp
    · rw [backwards_of_pos hn, List.drop_succ_cons, ih, Nat.div_div_eq_div_mul, pow_succ']

/-! ### `strtol` -/

/-- The bytes `isspace` is true of. -/
def isSpace (c : UInt8) : Bool := c == 32 || (9 ≤ c && c ≤ 13)

/-- A number that is cut to the range of `long`. -/
def clampLong (v : ℤ) : ℤ := max (-2 ^ 63) (min v (2 ^ 63 - 1))

/-- `strtol` with base ten: the number, and the text after it. Without a digit nothing is read. -/
def strtol (s : List UInt8) : ℤ × List UInt8 :=
  let t := s.dropWhile isSpace
  let u := if t.head? = some 43 ∨ t.head? = some 45 then t.tail else t
  let v : ℤ := ofDigits (u.takeWhile isDigit)
  if u.takeWhile isDigit = [] then (0, s)
  else (clampLong (if t.head? = some 45 then -v else v), u.dropWhile isDigit)

theorem mem_dropWhile {p : UInt8 → Bool} {s : List UInt8} {c : UInt8} (hc : c ∈ s)
    (hp : p c = false) : c ∈ s.dropWhile p := by
  rw [← @List.takeWhile_append_dropWhile _ p s, List.mem_append] at hc
  rcases hc with hc | hc
  · have := List.mem_takeWhile_imp hc
    rw [hp] at this
    cases this
  · exact hc

/-- **`strtol` reads digits to the end of the text**, as the number they stand for or the largest `long`. -/
theorem strtol_clamp {s : List UInt8} (hne : s ≠ []) (hs : ∀ c ∈ s, isDigit c = true) :
    strtol s = (clampLong (ofDigits s : ℕ), []) := by
  have htake : s.takeWhile isDigit = s := List.takeWhile_eq_self_iff.mpr hs
  have hdrop : s.dropWhile isDigit = [] := List.dropWhile_eq_nil_iff.mpr hs
  obtain ⟨c, s', rfl⟩ := List.exists_cons_of_ne_nil hne
  have hc : isDigit c = true := hs c (List.mem_cons_self ..)
  -- a digit is neither white space nor a sign
  have hspace : isSpace c = false := by
    simp only [isDigit, Bool.and_eq_true, decide_eq_true_eq] at hc
    rw [Bool.eq_false_iff]
    intro h
    simp only [isSpace, Bool.or_eq_true, beq_iff_eq, Bool.and_eq_true, decide_eq_true_eq] at h
    rcases h with rfl | ⟨-, h⟩
    · exact absurd hc.1 (by decide)
    · exact absurd (UInt8.le_trans hc.1 h) (by decide)
  have hsign : ¬ (c = 43 ∨ c = 45) := by
    rintro (rfl | rfl) <;> exact absurd hc (by decide)
  have hminus : c ≠ 45 := fun h => hsign (Or.inr h)
  simp only [strtol, List.dropWhile_cons_of_neg (by simp [hspace] : ¬ isSpace c = true), List.head?_cons,
    Option.some.injEq, if_neg hsign, if_neg hminus, htake, hdrop, if_neg hne]

theorem strtol_digits {s : List UInt8} (hne : s ≠ []) (hs : ∀ c ∈ s, isDigit c = true)
    (hlt : ofDigits s < 2 ^ 63) : strtol s = (((ofDigits s : ℕ) : ℤ), []) := by
  have hclamp : clampLong (ofDigits s : ℕ) = (ofDigits s : ℕ) := by
    rw [clampLong]
    omega
  rw [strtol_clamp hne hs, hclamp]

/-- **A byte that belongs to no number** is not read. -/
theorem strtol_stops {s : List UInt8} {c : UInt8} (hc : c ∈ s) (hspace : isSpace c = false)
    (hdigit : isDigit c = false) (hplus : c ≠ 43) (hminus : c ≠ 45) : (strtol s).2 ≠ [] := by
  have hrest : c ∈ (strtol s).2 := by
    have ht : c ∈ s.dropWhile isSpace := mem_dropWhile hc hspace
    simp only [strtol]
    generalize s.dropWhile isSpace = t at ht ⊢
    have hu : c ∈ if t.head? = some 43 ∨ t.head? = some 45 then t.tail else t := by
      split
      case isTrue hsign =>
        cases t with
        | nil => cases ht
        | cons d t =>
          rcases List.mem_cons.mp ht with rfl | ht
          · rcases hsign with h | h
            · exact absurd (Option.some.inj h) hplus
            · exact absurd (Option.some.inj h) hminus
          · exact ht
      case isFalse => exact ht
    generalize (if t.head? = some 43 ∨ t.head? = some 45 then t.tail else t) = u at hu ⊢
    split
    · exact hc
    · exact mem_dropWhile hu hdigit
  exact List.ne_nil_of_mem hrest

end CcUtils.Lib
