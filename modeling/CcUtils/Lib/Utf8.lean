import Mathlib.Data.List.Basic
import Mathlib.Data.Nat.Notation

/-!
# UTF-8

A library about texts in bytes: the bytes of a text, and the text of bytes where they are those of one.

## What is proved

* `decodeUtf8_eq_some` — decoding takes encoding back, and nothing else is decoded.
* `utf8_asciiText` — bytes below 128 are a text, one character each.
* `decodeUtf8_singleton` — no other byte is one by itself.
-/

namespace CcUtils.Lib

/-- The bytes of a text. -/
def utf8 (cs : List Char) : List UInt8 := cs.flatMap String.utf8EncodeChar

/-- The text that the bytes are those of. -/
def decodeUtf8 (bs : List UInt8) : Option (List Char) :=
  (ByteArray.mk bs.toArray).utf8Decode?.map Array.toList

/-- The text of bytes below 128. -/
def asciiText (bs : List UInt8) : List Char := bs.map fun b => Char.ofNat b.toNat

variable {bs : List UInt8} {cs ds : List Char} {b : UInt8}

theorem utf8Encode_eq_iff : cs.utf8Encode = ByteArray.mk bs.toArray ↔ utf8 cs = bs := by
  unfold List.utf8Encode utf8
  constructor
  · intro h
    have hlist := congrArg (·.data.toList) h
    simpa using hlist
  · intro h
    apply ByteArray.ext
    apply Array.toList_inj.mp
    simp [h]

/-- **Decoding** takes encoding back, and decodes nothing else. -/
theorem decodeUtf8_eq_some : decodeUtf8 bs = some cs ↔ utf8 cs = bs := by
  unfold decodeUtf8
  rw [← utf8Encode_eq_iff, Option.map_eq_some_iff]
  constructor
  · rintro ⟨a, ha, rfl⟩
    have hsome : (ByteArray.mk bs.toArray).utf8Decode?.isSome := by simp [ha]
    have hget := ByteArray.utf8Encode_get_utf8Decode? (h := hsome)
    simpa [ha] using hget
  · intro h
    refine ⟨cs.toArray, ?_, by simp⟩
    rw [← h, List.utf8Decode?_utf8Encode]

/-- A text has one encoding. -/
theorem utf8_inj (h : utf8 cs = utf8 ds) : cs = ds :=
  Option.some.inj ((decodeUtf8_eq_some.mpr h).symm.trans (decodeUtf8_eq_some.mpr rfl))

theorem utf8EncodeChar_ascii (h : b < 128) : String.utf8EncodeChar (Char.ofNat b.toNat) = [b] := by
  have hlt : b.toNat < 128 := h
  have hvalid : (b.toNat).isValidChar := .inl (by omega)
  have hval : (Char.ofNat b.toNat).val.toNat = b.toNat := by
    rw [Char.ofNat, dif_pos hvalid]
    rfl
  have hsize : (Char.ofNat b.toNat).utf8Size = 1 := by
    rw [Char.utf8Size_eq_one_iff, UInt32.le_iff_toNat_le, hval]
    exact Nat.le_of_lt_succ hlt
  rw [String.utf8EncodeChar_eq_singleton hsize, List.cons.injEq, ← UInt8.toNat_inj,
    UInt32.toNat_toUInt8, hval]
  exact ⟨by omega, rfl⟩

/-- **Bytes below 128** are a text. -/
theorem utf8_asciiText (h : ∀ b ∈ bs, b < 128) : utf8 (asciiText bs) = bs := by
  induction bs with
  | nil => rfl
  | cons b bs ih =>
    obtain ⟨hb, hbs⟩ := List.forall_mem_cons.mp h
    change String.utf8EncodeChar (Char.ofNat b.toNat) ++ utf8 (asciiText bs) = b :: bs
    rw [utf8EncodeChar_ascii hb, ih hbs]
    rfl

/-- A byte by itself is a text only below 128. -/
theorem decodeUtf8_singleton (h : 128 ≤ b) : decodeUtf8 [b] = none := by
  rw [Option.eq_none_iff_forall_ne_some]
  intro cs hcs
  have hlen := congrArg List.length (decodeUtf8_eq_some.mp hcs)
  cases cs with
  | nil => simp [utf8] at hlen
  | cons c cs =>
    have hpos := c.utf8Size_pos
    simp only [utf8, List.flatMap_cons, List.length_append, String.length_utf8EncodeChar,
      List.length_singleton] at hlen
    have hsize : c.utf8Size = 1 := by omega
    have hnil : cs.flatMap String.utf8EncodeChar = [] := List.length_eq_zero_iff.mp (by omega)
    have hb := decodeUtf8_eq_some.mp hcs
    rw [utf8, List.flatMap_cons, hnil, List.append_nil, String.utf8EncodeChar_eq_singleton hsize,
      List.cons.injEq] at hb
    have hle := UInt32.le_iff_toNat_le.mp (Char.utf8Size_eq_one_iff.mp hsize)
    have hle' := UInt8.le_iff_toNat_le.mp h
    rw [← hb.1, UInt32.toNat_toUInt8] at hle'
    simp only [UInt32.reduceToNat, UInt8.reduceToNat] at hle hle'
    omega

end CcUtils.Lib
