import Mathlib.Data.List.GetD

/-!
# Bits packed in bytes

A library for a vector of bits kept in a list of bytes, the lowest bit of each byte first.

## What is proved

* `bitAt_insert`, `bitAt_erase` — a bit put up or down, and every other bit as it was.
* `mask_and_pos` — the test of one bit.
-/

namespace CcUtils.Lib

/-- Bit `i`. -/
def bitAt (data : List UInt8) (i : ℕ) : Bool := (data.getD (i / 8) 0).toBitVec.getLsbD (i % 8)

/-- The byte with the one bit `k`. -/
def bitMask (k : ℕ) : UInt8 := UInt8.ofNat (1 <<< k)

theorem bitMask_getLsbD {k : ℕ} (hk : k < 8) (j : ℕ) :
    (bitMask k).toBitVec.getLsbD j = decide (k = j) := by
  have htwo : (bitMask k).toBitVec = BitVec.twoPow 8 k := by
    rw [← BitVec.toNat_inj, BitVec.toNat_twoPow, ← Nat.one_shiftLeft]
    rfl
  rw [htwo, BitVec.getLsbD_twoPow]
  simp [hk]

/-- The test of bit `k`. -/
theorem mask_and_pos {b : UInt8} {k : ℕ} (hk : k < 8) :
    0 < b &&& bitMask k ↔ b.toBitVec.getLsbD k = true := by
  have hbit : ∀ j, (b &&& bitMask k).toBitVec.getLsbD j =
      (b.toBitVec.getLsbD j && decide (k = j)) := by
    intro j
    rw [UInt8.toBitVec_and, BitVec.getLsbD_and, bitMask_getLsbD hk]
  rw [UInt8.pos_iff_ne_zero]
  constructor
  · intro hne
    cases hb : b.toBitVec.getLsbD k with
    | true => rfl
    | false =>
      refine absurd (UInt8.toBitVec_inj.mp (BitVec.eq_of_getLsbD_eq fun j _ => ?_)) hne
      rw [hbit, UInt8.toBitVec_zero, BitVec.getLsbD_zero]
      by_cases hkj : k = j
      · subst hkj
        rw [hb, Bool.false_and]
      · simp [hkj]
  · intro hb hzero
    have hk := hbit k
    rw [hzero, hb] at hk
    simp at hk

variable {data : List UInt8} {i j : ℕ}

/-- A byte replaced by one that differs from it at most at the one bit. -/
theorem bitAt_set (hi : i / 8 < data.length) (b : UInt8) (v : Bool)
    (hb : ∀ k < 8, b.toBitVec.getLsbD k =
      if k = i % 8 then v else (data.getD (i / 8) 0).toBitVec.getLsbD k) :
    bitAt (data.set (i / 8) b) j = if j = i then v else bitAt data j := by
  by_cases hbyte : j / 8 = i / 8
  · have hget : (data.set (i / 8) b).getD (i / 8) 0 = b := by
      rw [List.getD_eq_getElem?_getD, List.getElem?_set_self hi, Option.getD_some]
    rw [bitAt, bitAt, hbyte, hget, hb _ (Nat.mod_lt j (by decide))]
    have hbit : j % 8 = i % 8 ↔ j = i := by omega
    simp only [hbit]
  · have hget : (data.set (i / 8) b).getD (j / 8) 0 = data.getD (j / 8) 0 := by
      rw [List.getD_eq_getElem?_getD, List.getElem?_set_ne (Ne.symm hbyte),
        List.getD_eq_getElem?_getD]
    have hne : j ≠ i := fun h => hbyte (congrArg (· / 8) h)
    rw [bitAt, bitAt, hget, if_neg hne]

/-- Bit `i` put up. -/
theorem bitAt_insert (hi : i / 8 < data.length) :
    bitAt (data.set (i / 8) (data.getD (i / 8) 0 ||| bitMask (i % 8))) j =
      if j = i then true else bitAt data j := by
  refine bitAt_set hi _ true fun k hk => ?_
  rw [UInt8.toBitVec_or, BitVec.getLsbD_or, bitMask_getLsbD (Nat.mod_lt i (by decide)) k]
  by_cases hki : k = i % 8
  · simp [hki]
  · simp [hki, Ne.symm hki]

/-- Bit `i` put down. -/
theorem bitAt_erase (hi : i / 8 < data.length) :
    bitAt (data.set (i / 8) (data.getD (i / 8) 0 &&& ~~~bitMask (i % 8))) j =
      if j = i then false else bitAt data j := by
  refine bitAt_set hi _ false fun k hk => ?_
  rw [UInt8.toBitVec_and, UInt8.toBitVec_not, BitVec.getLsbD_and, BitVec.getLsbD_not,
    bitMask_getLsbD (Nat.mod_lt i (by decide)) k]
  by_cases hki : k = i % 8
  · simp [hki]
  · simp [hki, hk, Ne.symm hki]

end CcUtils.Lib
