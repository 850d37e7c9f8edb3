import CcUtils.Tools.Bitmap
import Mathlib.Data.List.TakeWhile

/-!
# `bitmap_print`

The bits are put one by one in a row of `STR_MAX`, which is 64, and the row is printed when the next one begins, or
at the last bit. But then it is printed before the last bit is put in it, and when 64 divides the length
it is cut at its first character. What is shown for the last bit is then what the row before this one had
in its place, if there was one.

## What is proved

* `printTurn_mid` — a turn before the last prints the full row, if it begins a new one.
* `printTurn_last` — what the last turn prints.
* `bitmapPrint_iff` — so which bitmaps are printed right.
-/

namespace CcUtils.Tools

open CcUtils.Lib

/-! ### The function -/

/-- A newline. -/
def newline : UInt8 := 10

/-- `'1'` or `'0'`. -/
def bitChar (b : Bool) : UInt8 := if b then 49 else 48

/-- `printf("%s\n", str)`. -/
def printRow (str : List UInt8) : List UInt8 := str.takeWhile (· ≠ 0) ++ [newline]

/-- The prints of turn `i`: the output and the row before them, and after them. -/
def printDue (bits : Bitmap) (s : List UInt8 × List UInt8) (i : ℕ) : List UInt8 × List UInt8 :=
  if 0 < i ∧ i % 64 = 0 then (s.1 ++ printRow s.2, s.2)
  else if (i + 1 : ℤ) = bits.len.toInt then
    (s.1 ++ printRow (s.2.set ((i + 1) % 64) 0), s.2.set ((i + 1) % 64) 0)
  else s

/-- Turn `i` of the loop. -/
def printTurn (bits : Bitmap) (s : List UInt8 × List UInt8) (i : ℕ) :
    Exec (List UInt8 × List UInt8) := do
  let bit ← bitmapGet bits (Int32.ofNat i)
  return ((printDue bits s i).1, (printDue bits s i).2.set (i % 64) (bitChar (bit ≠ 0)))

/-- `bitmap_print`: what it prints. -/
def bitmapPrint (bits : Bitmap) : Exec (List UInt8) := do
  let (out, _) ← (List.range bits.len.toInt.toNat).foldlM (printTurn bits)
    ([], List.replicate 65 0)
  return out ++ [newline]

/-- The characters of bits `i` to `i + n - 1`. -/
def bitChars (v : ℕ → Bool) (i n : ℕ) : List UInt8 := (List.range n).map fun j => bitChar (v (i + j))

/-- The bitmap is shown: all its bits in order, in lines of 64. -/
structure PrintRight (bits : Bitmap) (v : ℕ → Bool) (out : List UInt8) : Prop where
  bits : out.filter (· ≠ newline) = bitChars v 0 bits.len.toInt.toNat
  lines : (out.splitOn newline).Pairwise fun a b => b ≠ [] → a.length = 64

/-! ### The row -/

variable {bits : Bitmap} {v : ℕ → Bool} {i j k n p : ℕ} {f : ℕ → UInt8}

theorem bitChar_ne_zero (b : Bool) : bitChar b ≠ 0 := by cases b <;> decide

theorem bitChar_inj {b c : Bool} : bitChar b = bitChar c ↔ b = c := by
  cases b <;> cases c <;> decide

theorem bitChar_ne_newline (b : Bool) : bitChar b ≠ newline := by cases b <;> decide

@[simp] theorem length_bitChars (v : ℕ → Bool) (i n : ℕ) : (bitChars v i n).length = n := by
  rw [bitChars, List.length_map, List.length_range]

theorem newline_notMem_bitChars (v : ℕ → Bool) (i n : ℕ) : newline ∉ bitChars v i n := by
  intro h
  obtain ⟨j, -, hj⟩ := List.mem_map.mp h
  exact bitChar_ne_newline _ hj

theorem bitChars_add (v : ℕ → Bool) (i n k : ℕ) :
    bitChars v i (n + k) = bitChars v i n ++ bitChars v (i + n) k := by
  simp only [bitChars, List.range_add, List.map_append, List.map_map, Function.comp_def, add_assoc]

theorem bitChars_succ (v : ℕ → Bool) (i n : ℕ) :
    bitChars v i (n + 1) = bitChars v i n ++ [bitChar (v (i + n))] := by
  rw [bitChars_add]
  rfl

/-- A row by its characters. -/
def row (f : ℕ → UInt8) : List UInt8 := (List.range 65).map f

theorem row_set (f : ℕ → UInt8) (p : ℕ) (b : UInt8) :
    (row f).set p b = row (Function.update f p b) := by
  refine List.ext_getElem (by simp [row]) fun j _ _ => ?_
  simp only [row, List.getElem_set, List.getElem_map, List.getElem_range, Function.update_apply]
  simp only [eq_comm]

/-- The text of a row goes to its first NUL. -/
theorem row_text (hk : k ≤ 64) (h0 : f k = 0) (hne : ∀ j < k, f j ≠ 0) :
    (row f).takeWhile (· ≠ 0) = (List.range k).map f := by
  obtain ⟨m, hm⟩ : ∃ m, 65 = k + (m + 1) := ⟨64 - k, by omega⟩
  have hall : ∀ b ∈ (List.range k).map f, decide (b ≠ 0) = true := by
    intro b hb
    obtain ⟨j, hj, rfl⟩ := List.mem_map.mp hb
    exact decide_eq_true (hne j (List.mem_range.mp hj))
  have hsplit : row f = (List.range k).map f ++ f k :: (List.range m).map fun j => f (k + (j + 1)) := by
    rw [row, hm, List.range_add, List.map_append, List.range_succ_eq_map]
    simp [Function.comp_def]
  rw [hsplit, List.takeWhile_append_of_pos hall, h0]
  simp

/-- The characters of the row before turn `i`: in each place the last bit that was put there. -/
def cell (v : ℕ → Bool) (i j : ℕ) : UInt8 :=
  if 64 ≤ j then 0
  else if j < i then bitChar (v (i - 1 - (i - 1 - j) % 64))
  else 0

theorem cell_end (v : ℕ → Bool) (i : ℕ) : cell v i 64 = 0 := if_pos le_rfl

theorem cell_of_lt (hj : j < 64) (hji : j < i) :
    cell v i j = bitChar (v (i - 1 - (i - 1 - j) % 64)) := by
  rw [cell, if_neg (not_le.mpr hj), if_pos hji]

theorem cell_succ (v : ℕ → Bool) (i : ℕ) :
    Function.update (cell v i) (i % 64) (bitChar (v i)) = cell v (i + 1) := by
  funext j
  rw [Function.update_apply]
  by_cases hj : 64 ≤ j
  · have hne : j ≠ i % 64 := by omega
    rw [if_neg hne, cell, cell, if_pos hj, if_pos hj]
  · rw [not_le] at hj
    by_cases hjp : j = i % 64
    · have hlast : i + 1 - 1 - (i + 1 - 1 - j) % 64 = i := by omega
      rw [if_pos hjp, cell_of_lt hj (by omega), hlast]
    · rw [if_neg hjp]
      by_cases hji : j < i
      · have hlast : i + 1 - 1 - (i + 1 - 1 - j) % 64 = i - 1 - (i - 1 - j) % 64 := by omega
        rw [cell_of_lt hj hji, cell_of_lt hj (by omega), hlast]
      · have hji1 : ¬ j < i + 1 := by omega
        rw [cell, cell, if_neg (not_le.mpr hj), if_neg hji, if_neg (not_le.mpr hj), if_neg hji1]

/-- At the start of a row, the one before it is full. -/
theorem row_full (hi : 0 < i) (hrow : i % 64 = 0) :
    printRow (row (cell v i)) = bitChars v (i - 64) 64 ++ [newline] := by
  have hcell : ∀ j < 64, cell v i j = bitChar (v (i - 64 + j)) := by
    intro j hj
    have hlast : i - 1 - (i - 1 - j) % 64 = i - 64 + j := by omega
    rw [cell_of_lt hj (by omega), hlast]
  have htext : (row (cell v i)).takeWhile (· ≠ 0) = (List.range 64).map (cell v i) := by
    refine row_text le_rfl (cell_end v i) fun j hj => ?_
    rw [hcell j hj]
    exact bitChar_ne_zero _
  rw [printRow, htext, bitChars]
  refine congrArg (· ++ _) (List.map_congr_left fun j hj => ?_)
  exact hcell j (List.mem_range.mp hj)

/-- The text of the last row, cut behind the place of its last bit, which is not in it yet. -/
def lastText (v : ℕ → Bool) (i : ℕ) : List UInt8 :=
  if (i + 1) % 64 = 0 then []
  else bitChars v (i - i % 64) (i % 64) ++
    if 64 ≤ i then [bitChar (v (i - 64))] else []

/-- Up to its last bit, the cut row holds the bits of this one. -/
theorem cell_cut (hcut : (i + 1) % 64 ≠ 0) (hj : j < i % 64) :
    Function.update (cell v i) ((i + 1) % 64) 0 j = bitChar (v (i - i % 64 + j)) := by
  have hlast : i - 1 - (i - 1 - j) % 64 = i - i % 64 + j := by omega
  rw [Function.update_of_ne (by omega), cell_of_lt (by omega) (by omega), hlast]

/-- In the place of its last bit, the one of the row before, or nothing. -/
theorem cell_cut_last (v : ℕ → Bool) (i : ℕ) :
    Function.update (cell v i) ((i + 1) % 64) 0 (i % 64) =
      if 64 ≤ i then bitChar (v (i - 64)) else 0 := by
  rw [Function.update_of_ne (by omega)]
  split
  · have hlast : i - 1 - (i - 1 - i % 64) % 64 = i - 64 := by omega
    rw [cell_of_lt (by omega) (by omega), hlast]
  · rw [cell, if_neg (by omega), if_neg (by omega)]

theorem row_last (v : ℕ → Bool) (i : ℕ) :
    printRow (row (Function.update (cell v i) ((i + 1) % 64) 0)) = lastText v i ++ [newline] := by
  refine congrArg (· ++ [newline]) ?_
  rw [lastText]
  by_cases hcut : (i + 1) % 64 = 0
  · rw [if_pos hcut, hcut]
    exact row_text (by omega) (Function.update_self ..) fun j hj => absurd hj (Nat.not_lt_zero j)
  · have hchars : (List.range (i % 64)).map (Function.update (cell v i) ((i + 1) % 64) 0) =
        bitChars v (i - i % 64) (i % 64) :=
      List.map_congr_left fun j hj => cell_cut hcut (List.mem_range.mp hj)
    have hfirst : ∀ j < i % 64, Function.update (cell v i) ((i + 1) % 64) 0 j ≠ 0 := by
      intro j hj
      rw [cell_cut hcut hj]
      exact bitChar_ne_zero _
    have hold := cell_cut_last v i
    rw [if_neg hcut]
    by_cases hrow : 64 ≤ i
    · have hnext : (i + 1) % 64 = i % 64 + 1 := by omega
      rw [if_pos hrow] at hold
      rw [if_pos hrow, row_text (k := (i + 1) % 64) (by omega) (Function.update_self ..)]
      · conv_lhs => rw [hnext, List.range_succ, List.map_append, ← hnext]
        rw [hchars, List.map_singleton, hold]
      · intro j hj
        rcases Nat.lt_succ_iff_lt_or_eq.mp (hnext ▸ hj) with hj | rfl
        · exact hfirst j hj
        · rw [hold]
          exact bitChar_ne_zero _
    · rw [if_neg hrow] at hold
      rw [if_neg hrow, List.append_nil, row_text (by omega) hold hfirst, hchars]

/-! ### The turns -/

theorem bitmapGet_nat (h : bits.Holds v) (hi : i < bits.len.toInt.toNat) :
    bitmapGet bits (Int32.ofNat i) = .ok (if v i then 1 else 0) := by
  have hsmall := bits.len.toInt_lt
  have hoffset : (Int32.ofNat i).toInt = i := Int32.toInt_ofNat_of_lt (by omega)
  have hin : InLen bits.len (Int32.ofNat i) := ⟨by omega, by omega⟩
  rw [bitmapGet_spec h (by omega), BitmapOp.ret, if_pos hin, hoffset, Int.toNat_natCast]

/-- What a turn prints when it begins a new row. -/
def fullRow (v : ℕ → Bool) (i : ℕ) : List UInt8 :=
  if 0 < i ∧ i % 64 = 0 then bitChars v (i - 64) 64 ++ [newline] else []

/-- **A turn before the last** prints the row before this one, if it begins a new one. -/
theorem printTurn_mid (h : bits.Holds v) (hi : i + 1 < bits.len.toInt.toNat) (out : List UInt8) :
    printTurn bits (out, row (cell v i)) i = .ok (out ++ fullRow v i, row (cell v (i + 1))) := by
  have hdue : printDue bits (out, row (cell v i)) i = (out ++ fullRow v i, row (cell v i)) := by
    have hnot : ¬ (i + 1 : ℤ) = bits.len.toInt := by omega
    rw [printDue, fullRow]
    by_cases hrow : 0 < i ∧ i % 64 = 0
    · rw [if_pos hrow, if_pos hrow, row_full hrow.1 hrow.2]
    · rw [if_neg hrow, if_neg hrow, if_neg hnot, List.append_nil]
  have hbit : decide ((if v i = true then 1 else 0 : ℤ) ≠ 0) = v i := by cases v i <;> rfl
  rw [printTurn, bitmapGet_nat h (by omega), ok_bind, hdue, hbit, row_set, cell_succ]
  rfl

/-- **The last turn** prints the row before this one, or this one without its last bit. -/
theorem printTurn_last (h : bits.Holds v) (hi : i + 1 = bits.len.toInt.toNat) (out : List UInt8) :
    Post (printTurn bits (out, row (cell v i)) i) fun s =>
      s.1 = out ++ if 0 < i ∧ i % 64 = 0 then fullRow v i else lastText v i ++ [newline] := by
  have hend : (i + 1 : ℤ) = bits.len.toInt := by omega
  rw [printTurn, bitmapGet_nat h (by omega), ok_bind]
  refine Post.pure ?_
  rw [printDue]
  by_cases hrow : 0 < i ∧ i % 64 = 0
  · rw [if_pos hrow, if_pos hrow, row_full hrow.1 hrow.2, fullRow, if_pos hrow]
  · rw [if_neg hrow, if_neg hrow, if_pos hend, row_set, row_last]

/-! ### What is printed -/

/-- The full rows in front of row `k`. -/
def fullRows (v : ℕ → Bool) (k : ℕ) : List UInt8 :=
  (List.range k).flatMap fun j => bitChars v (64 * j) 64 ++ [newline]

theorem fullRows_succ (v : ℕ → Bool) (k : ℕ) :
    fullRows v (k + 1) = fullRows v k ++ (bitChars v (64 * k) 64 ++ [newline]) := by
  rw [fullRows, List.range_succ, List.flatMap_append, List.flatMap_singleton]
  rfl

/-- The rows printed before turn `i`, and in it. -/
theorem fullRows_turn (v : ℕ → Bool) (i : ℕ) :
    fullRows v ((i - 1) / 64) ++ fullRow v i = fullRows v (i / 64) := by
  rw [fullRow]
  by_cases hrow : 0 < i ∧ i % 64 = 0
  · have hk : i / 64 = (i - 1) / 64 + 1 := by omega
    have hi : i - 64 = 64 * ((i - 1) / 64) := by omega
    rw [if_pos hrow, hk, fullRows_succ, hi]
  · have hk : i / 64 = (i - 1) / 64 := by omega
    rw [if_neg hrow, hk, List.append_nil]

/-- **What `bitmap_print` prints** of a bitmap that is not empty: full rows, then one without its last
bit, unless that is all it has. -/
theorem bitmapPrint_eq (h : bits.Holds v) (hn : bits.len.toInt.toNat = n + 1) :
    bitmapPrint bits = .ok (fullRows v (n / 64) ++
      (if 0 < n ∧ n % 64 = 0 then [] else lastText v n ++ [newline]) ++ [newline]) := by
  have hstart : (([], List.replicate 65 0) : List UInt8 × List UInt8) =
      (fullRows v ((0 - 1) / 64), row (cell v 0)) := rfl
  have hmid : Post ((List.range n).foldlM (printTurn bits) ([], List.replicate 65 0))
      (· = (fullRows v ((n - 1) / 64), row (cell v n))) := by
    rw [hstart]
    refine Post.forRange (R := fun i s => s = (fullRows v ((i - 1) / 64), row (cell v i)))
      (fun i hi s hs => ?_) rfl
    rw [hs, printTurn_mid h (by omega), fullRows_turn]
    exact Post.ok rfl
  obtain ⟨_, hfold, rfl⟩ := hmid
  obtain ⟨⟨out, str⟩, hlast, hs⟩ := printTurn_last h hn.symm (fullRows v ((n - 1) / 64))
  rw [bitmapPrint, hn, List.range_succ, List.foldlM_append, hfold, ok_bind, List.foldlM_cons, hlast]
  change out = _ at hs
  change Except.ok (out ++ [newline]) = _
  have hturn := fullRows_turn v n
  rw [fullRow] at hturn
  rw [hs]
  by_cases hrow : 0 < n ∧ n % 64 = 0
  · rw [if_pos hrow] at hturn
    rw [if_pos hrow, if_pos hrow, fullRow, if_pos hrow, hturn, List.append_nil]
  · rw [if_neg hrow, List.append_nil] at hturn
    rw [if_neg hrow, if_neg hrow, hturn]

theorem filter_newline {w : List UInt8} (h : newline ∉ w) : w.filter (· ≠ newline) = w := by
  refine List.filter_eq_self.mpr fun b hb => decide_eq_true ?_
  rintro rfl
  exact h hb

theorem fullRows_shown (v : ℕ → Bool) (k : ℕ) :
    (fullRows v k).filter (· ≠ newline) = bitChars v 0 (64 * k) := by
  induction k with
  | zero => rfl
  | succ k ih =>
    have hrow := filter_newline (newline_notMem_bitChars v (64 * k) 64)
    rw [fullRows_succ, List.filter_append, List.filter_append, ih, hrow, Nat.mul_succ, bitChars_add,
      Nat.zero_add]
    simp

theorem newline_notMem_lastText (v : ℕ → Bool) (i : ℕ) : newline ∉ lastText v i := by
  rw [lastText]
  split
  · exact List.not_mem_nil
  · rw [List.mem_append, not_or]
    refine ⟨newline_notMem_bitChars v _ _, ?_⟩
    split
    · rw [List.mem_singleton]
      exact (bitChar_ne_newline _).symm
    · exact List.not_mem_nil

theorem fullRows_lines (v : ℕ → Bool) (k : ℕ) (rest : List UInt8) :
    (fullRows v k ++ rest).splitOn newline =
      (List.range k).map (fun j => bitChars v (64 * j) 64) ++ rest.splitOn newline := by
  induction k generalizing rest with
  | zero => rfl
  | succ k ih =>
    rw [fullRows_succ, List.append_assoc, List.append_assoc, ih, List.singleton_append,
      List.splitOn_append_cons_self_of_not_mem (newline_notMem_bitChars v _ _), List.range_succ,
      List.map_append, List.append_assoc]
    rfl

/-- Without its newlines, what is printed. -/
def shown (v : ℕ → Bool) (n : ℕ) : List UInt8 :=
  bitChars v 0 (64 * (n / 64)) ++ if 0 < n ∧ n % 64 = 0 then [] else lastText v n

theorem filter_printed (v : ℕ → Bool) (n : ℕ) :
    (fullRows v (n / 64) ++ (if 0 < n ∧ n % 64 = 0 then [] else lastText v n ++ [newline]) ++
      [newline]).filter (· ≠ newline) = shown v n := by
  rw [List.filter_append, List.filter_append, fullRows_shown, shown]
  split
  · simp
  · rw [List.filter_append, filter_newline (newline_notMem_lastText v n)]
    simp

theorem shown_iff (v : ℕ → Bool) (n : ℕ) :
    shown v n = bitChars v 0 (n + 1) ↔ 64 ≤ n ∧ 2 ≤ (n + 1) % 64 ∧ v n = v (n - 64) := by
  have hrows : 64 * (n / 64) = n - n % 64 := by omega
  have hn : n = n - n % 64 + n % 64 := by omega
  rw [shown, hrows]
  by_cases hrow : 0 < n ∧ n % 64 = 0
  · rw [if_pos hrow, List.append_nil]
    refine iff_of_false (fun he => ?_) (by omega)
    have hlen := congrArg List.length he
    rw [length_bitChars, length_bitChars] at hlen
    omega
  · rw [if_neg hrow, lastText]
    by_cases hcut : (n + 1) % 64 = 0
    · rw [if_pos hcut, List.append_nil]
      refine iff_of_false (fun he => ?_) (by omega)
      have hlen := congrArg List.length he
      rw [length_bitChars, length_bitChars] at hlen
      omega
    · have hchars : bitChars v 0 (n - n % 64) ++ bitChars v (n - n % 64) (n % 64) = bitChars v 0 n := by
        conv_rhs => rw [hn, bitChars_add, Nat.zero_add]
      rw [if_neg hcut, ← List.append_assoc, hchars, bitChars_succ, Nat.zero_add,
        List.append_cancel_left_eq]
      by_cases hlong : 64 ≤ n
      · rw [if_pos hlong, List.singleton_inj, bitChar_inj]
        have htwo : 2 ≤ (n + 1) % 64 := by omega
        rw [and_iff_right hlong, and_iff_right htwo, eq_comm]
      · rw [if_neg hlong]
        exact iff_of_false (by simp) fun hall => hlong hall.1

theorem lines_right (v : ℕ → Bool) (n : ℕ) :
    ((fullRows v (n / 64) ++ (lastText v n ++ [newline]) ++ [newline]).splitOn newline).Pairwise
      fun a b => b ≠ [] → a.length = 64 := by
  have hend : [newline].splitOn newline = [[], []] := by decide
  rw [List.append_assoc, List.append_assoc, fullRows_lines, List.singleton_append,
    List.splitOn_append_cons_self_of_not_mem (newline_notMem_lastText v n), hend]
  refine List.pairwise_append.mpr ⟨?_, by simp, ?_⟩
  · rw [List.pairwise_map]
    exact List.pairwise_of_forall fun _ _ _ => length_bitChars ..
  · rintro _ ha b - -
    obtain ⟨j, -, rfl⟩ := List.mem_map.mp ha
    exact length_bitChars ..

/-- **`bitmap_print` shows the bitmap** exactly when it is empty, or has a full row and more than one bit
in a row that is not full, and its last bit is the one 64 places before. -/
theorem bitmapPrint_iff (h : bits.Holds v) :
    Post (bitmapPrint bits) (PrintRight bits v) ↔
      bits.len.toInt.toNat = 0 ∨ 64 < bits.len.toInt.toNat ∧ 2 ≤ bits.len.toInt.toNat % 64 ∧
        v (bits.len.toInt.toNat - 1) = v (bits.len.toInt.toNat - 65) := by
  cases hn : bits.len.toInt.toNat with
  | zero =>
    refine iff_of_true ⟨[newline], by rw [bitmapPrint, hn]; rfl, ?_, ?_⟩ (.inl rfl)
    · rw [hn]
      rfl
    · have hend : [newline].splitOn newline = [[], []] := by decide
      rw [hend]
      simp
  | succ n =>
    have hshown := filter_printed v n
    have hiff := shown_iff v n
    rw [or_iff_right (Nat.succ_ne_zero n), bitmapPrint_eq h hn, Nat.add_sub_cancel,
      Nat.lt_succ_iff, Nat.add_sub_add_right n 1 64, ← hiff, ← hshown]
    constructor
    · rintro ⟨_, hout, hright⟩
      obtain rfl := Except.ok.inj hout
      rw [← hn]
      exact hright.bits
    · intro hbits
      refine Post.ok ⟨by rw [hn]; exact hbits, ?_⟩
      have hrow : ¬ (0 < n ∧ n % 64 = 0) := by
        obtain ⟨-, htwo, -⟩ := hiff.mp (hshown ▸ hbits)
        omega
      rw [if_neg hrow]
      exact lines_right v n

/-- A bitmap of 200 bits, none of them up. -/
theorem holds_zeros : Bitmap.Holds ⟨List.replicate 25 0, 200⟩ (bitAt (List.replicate 25 0)) :=
  ⟨by decide, fun _ _ => rfl⟩

theorem bitmapPrint_iff_zeros :
    Post (bitmapPrint ⟨List.replicate 25 0, 200⟩)
        (PrintRight ⟨List.replicate 25 0, 200⟩ (bitAt (List.replicate 25 0))) ↔
      (200 : Int32).toInt.toNat = 0 ∨ 64 < (200 : Int32).toInt.toNat ∧
        2 ≤ (200 : Int32).toInt.toNat % 64 ∧
        bitAt (List.replicate 25 0) ((200 : Int32).toInt.toNat - 1) =
          bitAt (List.replicate 25 0) ((200 : Int32).toInt.toNat - 65) :=
  bitmapPrint_iff holds_zeros

/-- Of a bitmap of one bit no bit is printed. -/
theorem bitmapPrint_one :
    Bitmap.Holds ⟨[1], 1⟩ (bitAt [1]) ∧
      ¬ Post (bitmapPrint ⟨[1], 1⟩) (PrintRight ⟨[1], 1⟩ (bitAt [1])) := by
  refine ⟨⟨by decide, fun _ _ => rfl⟩, ?_⟩
  rintro ⟨out, hout, hright⟩
  have hprint : bitmapPrint ⟨[1], 1⟩ = .ok [newline, newline] := rfl
  obtain rfl := Except.ok.inj (hprint.symm.trans hout)
  have hbits := hright.bits
  revert hbits
  decide

end CcUtils.Tools
