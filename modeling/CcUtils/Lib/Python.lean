import CcUtils.Lib.Utf8
import Mathlib.Algebra.Order.Ring.Int

/-!
# What of Python a script rests on

A library for scripts that read files and texts: the exceptions that end a run, a binary file open for
reading with its position, `bytes.decode`, lines of a text and `int` of a text in base 16.

## What is proved

* `BinaryFile.seek_ok`, `BinaryFile.seek_error` — which offsets are taken.
* `BinaryFile.read_one`, `BinaryFile.read_end` — what one byte read is, and what is left to read.
* `decode_ascii`, `decode_high` — one byte decoded.
* `intHex_ok` — what `int` makes of digits with `0x` before them.
-/

namespace CcUtils.Lib

/-- Why a run of a script stops without a result. -/
inductive PyError where
  /-- `UnicodeDecodeError`. -/
  | unicodeDecodeError
  /-- `ValueError`. -/
  | valueError
  /-- `OSError`. -/
  | osError
  /-- The fuel of the model is used up. -/
  | outOfFuel
  deriving DecidableEq, Repr

/-- The result of a run of a script. -/
abbrev Py (α : Type) := Except PyError α

@[simp] theorem Py.ok_bind {α β : Type} (a : α) (f : α → Py β) : ((Except.ok a : Py α) >>= f) = f a := rfl

/-- A binary file, open for reading; `refuses` says which offsets are too large for its file system. -/
structure BinaryFile where
  content : List UInt8
  pos : ℕ
  refuses : ℕ → Bool

/-- What is left to read. -/
def BinaryFile.rest (f : BinaryFile) : List UInt8 := f.content.drop f.pos

/-- `f.seek(o)`. -/
def BinaryFile.seek (f : BinaryFile) (o : ℤ) : Py BinaryFile :=
  -- an offset is an `off_t` before the system sees it
  if o < -2 ^ 63 ∨ 2 ^ 63 ≤ o then .error .valueError
  else if o < 0 ∨ f.refuses o.toNat then .error .osError
  else .ok { f with pos := o.toNat }

/-- `f.read(n)`. -/
def BinaryFile.read (f : BinaryFile) (n : ℕ) : List UInt8 × BinaryFile :=
  (f.rest.take n, { f with pos := f.pos + (f.rest.take n).length })

/-- `b.decode()`. -/
def decode (b : List UInt8) : Py (List Char) :=
  match decodeUtf8 b with
  | some s => .ok s
  | none => .error .unicodeDecodeError

variable {f : BinaryFile} {b : UInt8} {bs : List UInt8} {o : ℤ}

theorem BinaryFile.seek_ok (h0 : 0 ≤ o) (h : o < 2 ^ 63) (haccept : f.refuses o.toNat = false) :
    f.seek o = .ok { f with pos := o.toNat } := by
  have hfits : ¬ (o < -2 ^ 63 ∨ 2 ^ 63 ≤ o) := by omega
  have htaken : ¬ (o < 0 ∨ f.refuses o.toNat = true) := by simp [haccept, h0]
  rw [seek, if_neg hfits, if_neg htaken]

/-- Every other offset ends the call with an exception. -/
theorem BinaryFile.seek_error (h : o < 0 ∨ 2 ^ 63 ≤ o ∨ f.refuses o.toNat) :
    ∃ e, f.seek o = .error e ∧ e ≠ .outOfFuel := by
  unfold seek
  by_cases hfits : o < -2 ^ 63 ∨ 2 ^ 63 ≤ o
  · exact ⟨.valueError, if_pos hfits, nofun⟩
  · obtain ⟨-, hbig⟩ := not_or.mp hfits
    have hrefused : o < 0 ∨ f.refuses o.toNat = true := h.imp_right fun h => h.resolve_left hbig
    exact ⟨.osError, by rw [if_neg hfits, if_pos hrefused], nofun⟩

/-- One byte is read, where there is one. -/
theorem BinaryFile.read_one (h : f.rest = b :: bs) :
    (f.read 1).1 = [b] ∧ (f.read 1).2.rest = bs := by
  have hdrop : f.content.drop (f.pos + 1) = bs := by
    rw [← List.drop_drop, ← rest, h, List.drop_one, List.tail_cons]
  have htake : f.rest.take 1 = [b] := by rw [h, List.take_one, List.head?_cons, Option.toList_some]
  unfold read
  rw [htake]
  exact ⟨rfl, hdrop⟩

/-- At the end, none. -/
theorem BinaryFile.read_end (h : f.rest = []) : f.read 1 = ([], f) := by
  unfold read
  simp [h]

theorem decode_nil : decode [] = .ok [] := by
  have hnil : decodeUtf8 [] = some [] := decodeUtf8_eq_some.mpr rfl
  rw [decode, hnil]

theorem decode_ascii (h : b < 128) : decode [b] = .ok (asciiText [b]) := by
  have hone : ∀ c ∈ [b], c < 128 := by simpa using h
  rw [decode, decodeUtf8_eq_some.mpr (utf8_asciiText hone)]

theorem decode_high (h : 128 ≤ b) : decode [b] = .error .unicodeDecodeError := by
  rw [decode, decodeUtf8_singleton h]

/-! ### Numbers -/

/-- The value of a digit in base 16. -/
def hexDigit (c : Char) : Option ℕ :=
  if '0' ≤ c ∧ c ≤ '9' then some (c.toNat - 48)
  else if 'a' ≤ c ∧ c ≤ 'f' then some (c.toNat - 87)
  else if 'A' ≤ c ∧ c ≤ 'F' then some (c.toNat - 55)
  else none

/-- The spaces of ASCII. -/
def isAsciiSpace (c : Char) : Bool := c = ' ' ∨ '\t' ≤ c ∧ c ≤ '\r'

/-- Digits in base 16, where one `_` may stand between two of them; `digit` says that one was before. -/
def hexNumber : ℕ → Bool → List Char → Option ℕ
  | n, digit, [] => if digit then some n else none
  | n, digit, c :: cs =>
    if c = '_' then
      if digit then hexNumber n false cs else none
    else
      match hexDigit c with
      | some d => hexNumber (16 * n + d) true cs
      | none => none

/-- The sign before a number: whether it is `-`, and what is behind it. -/
def takeSign : List Char → Bool × List Char
  | '-' :: cs => (true, cs)
  | '+' :: cs => (false, cs)
  | cs => (false, cs)

/-- What is behind `0x`, and one `_` after it, if there is one. -/
def dropBase : List Char → List Char
  | '0' :: 'x' :: '_' :: cs => cs
  | '0' :: 'X' :: '_' :: cs => cs
  | '0' :: 'x' :: cs => cs
  | '0' :: 'X' :: cs => cs
  | cs => cs

/-- `s.strip()`. -/
def strip (s : List Char) : List Char := ((s.dropWhile isAsciiSpace).reverse.dropWhile isAsciiSpace).reverse

/-- `int(x, 16)`, where `other` says what digit or space a character is that is not of ASCII. -/
def intHex (other : Char → Char) (x : List Char) : Py ℤ :=
  let ascii := x.map fun c => if c.toNat < 128 then c else other c
  let (neg, digits) := takeSign (strip ascii)
  match hexNumber 0 false (dropBase digits) with
  | some n => .ok (if neg then -(n : ℤ) else n)
  | none => .error .valueError

/-- The value of digits in base 16. -/
def ofHex (n : ℕ) (digits : List Char) : ℕ := digits.foldl (fun n c => 16 * n + (hexDigit c).getD 0) n

theorem hexDigit_ne {c : Char} (h : (hexDigit c).isSome) : c ≠ '_' := by
  have hnone : (hexDigit '_').isSome = false := by decide
  rintro rfl
  rw [hnone] at h
  cases h

theorem hexDigit_range {c : Char} (h : (hexDigit c).isSome) : 48 ≤ c.toNat ∧ c.toNat < 128 := by
  have hle : ∀ a b : Char, a ≤ b ↔ a.toNat ≤ b.toNat := fun a b => Iff.rfl
  unfold hexDigit at h
  simp only [hle] at h
  split at h
  · rename_i hc
    exact ⟨hc.1, lt_of_le_of_lt hc.2 (by decide)⟩
  split at h
  · rename_i hc
    exact ⟨le_trans (by decide) hc.1, lt_of_le_of_lt hc.2 (by decide)⟩
  split at h
  · rename_i hc
    exact ⟨le_trans (by decide) hc.1, lt_of_le_of_lt hc.2 (by decide)⟩
  · cases h

theorem isAsciiSpace_eq_false {c : Char} (h : (hexDigit c).isSome) : isAsciiSpace c = false := by
  have hrange := (hexDigit_range h).1
  have hle : ∀ a b : Char, a ≤ b ↔ a.toNat ≤ b.toNat := fun a b => Iff.rfl
  have hspace : c ≠ ' ' := by
    rintro rfl
    exact absurd hrange (by decide)
  have htab : ¬ c ≤ '\r' := by
    rw [hle]
    intro hc
    exact absurd (le_trans hrange hc) (by decide)
  simp [isAsciiSpace, hspace, htab]

theorem hexNumber_ofHex {digits : List Char} (h : ∀ c ∈ digits, (hexDigit c).isSome) (n : ℕ) :
    hexNumber n true digits = some (ofHex n digits) := by
  induction digits generalizing n with
  | nil => rfl
  | cons c cs ih =>
    obtain ⟨hc, hcs⟩ := List.forall_mem_cons.mp h
    obtain ⟨d, hd⟩ := Option.isSome_iff_exists.mp hc
    unfold hexNumber
    rw [if_neg (hexDigit_ne hc), hd, ofHex, List.foldl_cons, hd]
    exact ih hcs _

/-- A text without spaces at its ends. -/
theorem strip_eq {a b : Char} {s : List Char} (ha : isAsciiSpace a = false) (hb : isAsciiSpace b = false) :
    strip (a :: s ++ [b]) = a :: s ++ [b] := by
  have hleft : (a :: s ++ [b]).dropWhile isAsciiSpace = a :: s ++ [b] := by
    rw [List.cons_append]
    exact List.dropWhile_cons_of_neg (by simp [ha])
  unfold strip
  rw [hleft, List.reverse_append, List.reverse_singleton, List.singleton_append,
    List.dropWhile_cons_of_neg (by simp [hb]), List.reverse_cons, List.reverse_reverse]

theorem dropBase_eq {digits : List Char} (h : ∀ c ∈ digits, (hexDigit c).isSome) :
    dropBase ('0' :: 'x' :: digits) = digits := by
  unfold dropBase
  split
  · rename_i cs heq
    obtain ⟨-, heq⟩ := List.cons.inj heq
    obtain ⟨-, rfl⟩ := List.cons.inj heq
    exact absurd rfl (hexDigit_ne (h '_' List.mem_cons_self))
  all_goals simp_all

/-- Digits with `0x` before them are read. -/
theorem intHex_ok (other : Char → Char) {digits : List Char} (h : ∀ c ∈ digits, (hexDigit c).isSome)
    (hne : digits ≠ []) : intHex other ('0' :: 'x' :: digits) = .ok (ofHex 0 digits : ℤ) := by
  have hascii : ('0' :: 'x' :: digits).map (fun c => if c.toNat < 128 then c else other c) =
      '0' :: 'x' :: digits := by
    rw [List.map_cons, List.map_cons, List.map_congr_left fun c hc => if_pos (hexDigit_range (h c hc)).2,
      List.map_id']
    rfl
  have hstrip : strip ('0' :: 'x' :: digits) = '0' :: 'x' :: digits := by
    have hlast := isAsciiSpace_eq_false (h _ (List.getLast_mem hne))
    have hzero : isAsciiSpace '0' = false := by decide
    rw [← List.dropLast_concat_getLast hne]
    exact strip_eq (s := 'x' :: digits.dropLast) hzero hlast
  have hnumber : hexNumber 0 false digits = some (ofHex 0 digits) := by
    rw [← hexNumber_ofHex h]
    cases digits with
    | nil => exact absurd rfl hne
    | cons c cs =>
      have hc := hexDigit_ne (h c List.mem_cons_self)
      rw [hexNumber, hexNumber, if_neg hc, if_neg hc]
  unfold intHex
  simp only [hascii, hstrip]
  show (match hexNumber 0 false (dropBase ('0' :: 'x' :: digits)) with
    | some n => _
    | none => _) = _
  rw [dropBase_eq h, hnumber]
  rfl

end CcUtils.Lib
