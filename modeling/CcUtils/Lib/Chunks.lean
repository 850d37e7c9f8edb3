import Mathlib.Data.List.Basic

/-!
# Chunks of a list

A library for lists that are cut into chunks of `n`, the last of which may be shorter.

## What is proved

* `getElem?_chunk`, `length_chunk` — item `j` is item `j % n` of chunk `j / n`.
* `chunk_set`, `chunk_set_ne` — setting an item sets it in its chunk, and in no other.
* `chunk_append`, `chunk_append_ne` — a chunk that is appended.
-/

namespace CcUtils.Lib

variable {α : Type} {n i j : ℕ} {a b : List α} {v : α}

/-- Chunk `i`. -/
def chunk (n i : ℕ) (a : List α) : List α := (a.drop (n * i)).take n

theorem length_chunk : (chunk n i a).length = min n (a.length - n * i) := by
  rw [chunk, List.length_take, List.length_drop]

theorem getElem?_chunk (hj : j < n) : (chunk n i a)[j]? = a[n * i + j]? := by
  rw [chunk, List.getElem?_take_of_lt hj, List.getElem?_drop]

theorem getElem?_chunk_of_le (hj : n ≤ j) : (chunk n i a)[j]? = none := by
  rw [List.getElem?_eq_none_iff, length_chunk]
  omega

/-- Item `j` in its chunk. -/
theorem getElem?_chunk_div (hn : 0 < n) : (chunk n (j / n) a)[j % n]? = a[j]? := by
  rw [getElem?_chunk (Nat.mod_lt j hn), Nat.div_add_mod]

theorem chunk_set (hn : 0 < n) : chunk n (j / n) (a.set j v) = (chunk n (j / n) a).set (j % n) v := by
  have hsplit := Nat.div_add_mod j n
  apply List.ext_getElem?
  intro k
  rcases Nat.lt_or_ge k n with hk | hk
  · rw [getElem?_chunk hk, List.getElem?_set, List.getElem?_set, getElem?_chunk hk, length_chunk]
    have hj := Nat.mod_lt j hn
    have hat : j = n * (j / n) + k ↔ j % n = k := by omega
    have hin : j < a.length ↔ j % n < min n (a.length - n * (j / n)) := by omega
    simp only [hat, hin]
  · rw [getElem?_chunk_of_le hk, List.getElem?_set, getElem?_chunk_of_le hk]
    have hj := Nat.mod_lt j hn
    rw [if_neg (by omega)]

theorem chunk_set_ne (hn : 0 < n) (hi : i ≠ j / n) : chunk n i (a.set j v) = chunk n i a := by
  apply List.ext_getElem?
  intro k
  rcases Nat.lt_or_ge k n with hk | hk
  · have hne : j ≠ n * i + k := by
      rintro rfl
      apply hi
      rw [Nat.mul_add_div hn, Nat.div_eq_of_lt hk, Nat.add_zero]
    rw [getElem?_chunk hk, getElem?_chunk hk, List.getElem?_set_ne hne]
  · rw [getElem?_chunk_of_le hk, getElem?_chunk_of_le hk]

/-- The chunk that is appended to full ones. -/
theorem chunk_append (ha : a.length = n * i) (hb : b.length ≤ n) : chunk n i (a ++ b) = b := by
  rw [chunk, ← ha, List.drop_left, List.take_of_length_le hb]

theorem chunk_append_ne (hi : n * (i + 1) ≤ a.length) : chunk n i (a ++ b) = chunk n i a := by
  rw [Nat.mul_succ] at hi
  rw [chunk, List.drop_append_of_le_length (by omega), List.take_append_of_le_length]
  · rfl
  · rw [List.length_drop]
    omega

end CcUtils.Lib
