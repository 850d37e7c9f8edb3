import CcUtils.Lib.Rules

/-!
# `snprintf` at a place in a buffer

A library for code that puts a text together piece by piece: each piece is printed behind the ones before,
into the room that is said to be left, and the length that is returned is that of the whole piece, cut or
not.

## What is proved

* `textLength_ge`, `textLength_lt` — the length of a piece is an `int`.
* `snprintf_ok` — a call whose room lies in the buffer.
* `snprintf_outside` — a call that begins outside it.
-/

namespace CcUtils.Lib

/-- What of a text goes to room for `size` bytes, with a NUL. -/
def fitted (size : ℕ) (text : List UInt8) : List UInt8 :=
  if size = 0 then [] else text.take (size - 1) ++ [0]

/-- The length of a text, or `-1` where it is more than an `int` can say. -/
def textLength (text : List UInt8) : ℤ := if text.length < 2 ^ 31 then text.length else -1

/-- `snprintf(buf + pos, size, ...)` for a text. -/
def snprintf (buf : List UInt8) (pos : ℤ) (size : ℕ) (text : List UInt8) : Exec (List UInt8 × ℤ) := do
  check (0 ≤ pos) .outOfBounds
  let buf ← store buf pos.toNat (fitted size text)
  return (buf, textLength text)

variable {buf text : List UInt8} {pos size : ℕ}

theorem textLength_ge (text : List UInt8) : -1 ≤ textLength text := by
  unfold textLength
  split <;> omega

theorem textLength_lt (text : List UInt8) : textLength text < 2 ^ 31 := by
  unfold textLength
  split <;> omega

theorem length_fitted_le (size : ℕ) (text : List UInt8) : (fitted size text).length ≤ size := by
  unfold fitted
  split
  · simp
  · simp
    omega

/-- **In the room that is left** nothing goes wrong. -/
theorem snprintf_ok (h : pos + size ≤ buf.length) :
    Post (snprintf buf pos size text) fun u => u.1.length = buf.length ∧ u.2 = textLength text := by
  have hfit := length_fitted_le size text
  have hstore : ∃ buf', store buf pos (fitted size text) = .ok buf' := by
    unfold store
    rw [if_pos (by omega)]
    exact ⟨_, rfl⟩
  obtain ⟨buf', hstore⟩ := hstore
  unfold snprintf
  rw [check_true (Int.natCast_nonneg pos), ok_bind, Int.toNat_natCast, hstore]
  exact Post.pure ⟨length_store hstore, rfl⟩

/-- **Outside the buffer** at least the NUL is written. -/
theorem snprintf_outside {pos : ℤ} (h : pos < 0 ∨ buf.length < pos) (hsize : 0 < size) :
    snprintf buf pos size text = .error .outOfBounds := by
  have hlen : 0 < (fitted size text).length := by
    unfold fitted
    simp [hsize.ne']
  unfold snprintf
  by_cases h0 : 0 ≤ pos
  · have hstore : store buf pos.toNat (fitted size text) = .error .outOfBounds := by
      unfold store
      rw [if_neg (by omega)]
    rw [check_true h0, ok_bind, hstore]
    rfl
  · rw [check_false h0]
    rfl

end CcUtils.Lib
