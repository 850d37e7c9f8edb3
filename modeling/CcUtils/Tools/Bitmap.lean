import CcUtils.Lib.Bits
import CcUtils.Lib.Rules

/-!
# The bitmap of `bitmap.c`

A vector of bits in bytes, each bit found by `offset / 8` and `offset % 8`, which in C keep the sign of the
offset. `bitmap_set` and `bitmap_get` check that the offset is below the length, and nothing else: with a
negative one they read and write in front of the bytes, or shift by a negative number.

## What is proved

* `BitmapOp.exec_spec` — a call whose offset is not negative does what it is for.
* `BitmapOp.exec_negative` — a call that goes on with a negative one fails.
* `bitmap_iff` — so the runs in which the bitmap is a vector of bits.
-/

namespace CcUtils.Tools

open CcUtils.Lib

/-! ### The functions -/

/-- `bitmap`. -/
structure Bitmap where
  data : List UInt8
  len : Int32

/-- `BIT_SUCCESS`. -/
def bitSuccess : ℤ := 1

/-- `BIT_FAIL`. -/
def bitFail : ℤ := -1

/-- `ROUND_UP`. -/
def roundUp (val x : ℤ) : Exec ℤ := do
  check (val + x < 2 ^ 31) .overflow
  return (val + x - 1).tdiv x * x

/-- `bitmap_alloc`, where both calls of `malloc` succeed; its argument is a `size_t`. -/
def bitmapAlloc (len : Int32) : Exec Bitmap := do
  let size ← roundUp len.toInt 8
  return ⟨List.replicate (size.tdiv 8 % 2 ^ 64).toNat 0, len⟩

/-- `data[i]`. -/
def dataAt (data : List UInt8) (i : ℤ) : Exec UInt8 := do
  check (0 ≤ i ∧ i < data.length) .outOfBounds
  return data.getD i.toNat 0

/-- A store to `data[i]`. -/
def dataSet (data : List UInt8) (i : ℤ) (b : UInt8) : Exec (List UInt8) := do
  check (0 ≤ i ∧ i < data.length) .outOfBounds
  return data.set i.toNat b

/-- `0x01 << k`, for a `k` from -7 to 7. -/
def shiftOne (k : ℤ) : Exec UInt8 := do
  check (0 ≤ k) .overflow
  return bitMask k.toNat

/-- `bitmap_set`. -/
def bitmapSet (bits : Bitmap) (offset : Int32) (value : UInt8) : Exec (Bitmap × ℤ) :=
  if value ≠ 0 ∧ value ≠ 1 then .ok (bits, bitFail)
  else if bits.len.toInt ≤ offset.toInt then .ok (bits, bitFail)
  else do
    let mask ← shiftOne (offset.toInt.tmod 8)
    let byte ← dataAt bits.data (offset.toInt.tdiv 8)
    let data ← dataSet bits.data (offset.toInt.tdiv 8)
      (if value = 0 then byte &&& ~~~mask else byte ||| mask)
    return ({ bits with data }, bitSuccess)

/-- `bitmap_get`. -/
def bitmapGet (bits : Bitmap) (offset : Int32) : Exec ℤ :=
  if bits.len.toInt ≤ offset.toInt then .ok bitFail
  else do
    let byte ← dataAt bits.data (offset.toInt.tdiv 8)
    let mask ← shiftOne (offset.toInt.tmod 8)
    return if 0 < byte &&& mask then 1 else 0

/-! ### Runs -/

/-- A call. -/
inductive BitmapOp where
  | set (offset : Int32) (value : UInt8)
  | get (offset : Int32)

/-- What the call does, and returns. -/
def BitmapOp.exec (bits : Bitmap) : BitmapOp → Exec (Bitmap × ℤ)
  | .set offset value => bitmapSet bits offset value
  | .get offset => do
    let value ← bitmapGet bits offset
    return (bits, value)

/-- A run of calls, and what they return. -/
def bitmapRun : Bitmap → List BitmapOp → Exec (Bitmap × List ℤ)
  | bits, [] => .ok (bits, [])
  | bits, op :: ops => do
    let (bits, ret) ← op.exec bits
    let (bits, rets) ← bitmapRun bits ops
    return (bits, ret :: rets)

/-! ### The vector of bits -/

/-- The offset of a bit. -/
def InLen (len offset : Int32) : Prop := 0 ≤ offset.toInt ∧ offset.toInt < len.toInt

instance (len offset : Int32) : Decidable (InLen len offset) := by
  unfold InLen
  infer_instance

/-- The bits after the call. -/
def BitmapOp.bits (len : Int32) (v : ℕ → Bool) : BitmapOp → ℕ → Bool
  | .set offset value =>
    if InLen len offset ∧ (value = 0 ∨ value = 1) then
      Function.update v offset.toInt.toNat (value = 1)
    else v
  | .get _ => v

/-- What the call is to return. -/
def BitmapOp.ret (len : Int32) (v : ℕ → Bool) : BitmapOp → ℤ
  | .set offset value =>
    if InLen len offset ∧ (value = 0 ∨ value = 1) then bitSuccess else bitFail
  | .get offset =>
    if InLen len offset then (if v offset.toInt.toNat then 1 else 0) else bitFail

/-- The bits after the calls. -/
def bitmapBits (len : Int32) : (ℕ → Bool) → List BitmapOp → ℕ → Bool
  | v, [] => v
  | v, op :: ops => bitmapBits len (op.bits len v) ops

/-- What the calls are to return. -/
def bitmapRets (len : Int32) : (ℕ → Bool) → List BitmapOp → List ℤ
  | _, [] => []
  | v, op :: ops => op.ret len v :: bitmapRets len (op.bits len v) ops

/-- The bitmap holds the bits. -/
structure Bitmap.Holds (bits : Bitmap) (v : ℕ → Bool) : Prop where
  room : bits.len.toInt ≤ 8 * bits.data.length
  bit : ∀ i : ℕ, i < bits.len.toInt → bitAt bits.data i = v i

/-- From `bitmap_alloc` on, the calls do to the bitmap, and return, what they are to. -/
def BitmapRight (len : Int32) (ops : List BitmapOp) : Prop :=
  Post (bitmapAlloc len >>= (bitmapRun · ops)) fun u =>
    u.2 = bitmapRets len (fun _ => false) ops ∧ u.1.len = len ∧
      u.1.Holds (bitmapBits len (fun _ => false) ops)

/-- The call goes on with a negative offset. -/
def BitmapOp.Negative : BitmapOp → Prop
  | .set offset value => offset.toInt < 0 ∧ (value = 0 ∨ value = 1)
  | .get offset => offset.toInt < 0

/-! ### One call -/

variable {bits : Bitmap} {v : ℕ → Bool} {len : Int32} {ops : List BitmapOp}

theorem dataAt_ok {data : List UInt8} {i : ℕ} (hi : i < data.length) :
    dataAt data i = .ok (data.getD i 0) := by
  rw [dataAt, check_true ⟨Int.natCast_nonneg i, by exact_mod_cast hi⟩]
  rfl

theorem dataSet_ok {data : List UInt8} {i : ℕ} (hi : i < data.length) (b : UInt8) :
    dataSet data i b = .ok (data.set i b) := by
  rw [dataSet, check_true ⟨Int.natCast_nonneg i, by exact_mod_cast hi⟩]
  rfl

theorem shiftOne_ok (k : ℕ) : shiftOne k = .ok (bitMask k) := by
  rw [shiftOne, check_true (Int.natCast_nonneg k)]
  rfl

/-- An offset of a bit, as the code finds it. -/
theorem Bitmap.Holds.place (h : bits.Holds v) {offset : Int32} (ho : InLen bits.len offset) :
    ∃ i : ℕ, offset.toInt = i ∧ i < bits.len.toInt ∧ i / 8 < bits.data.length := by
  obtain ⟨i, hi⟩ := Int.eq_ofNat_of_zero_le ho.1
  have hlen := ho.2
  have hroom := h.room
  exact ⟨i, hi, by omega, by omega⟩

/-- Bytes with bit `i` changed. -/
theorem Bitmap.Holds.update (h : bits.Holds v) {i : ℕ} {data : List UInt8} {b : Bool}
    (hlen : data.length = bits.data.length)
    (hdata : ∀ j, bitAt data j = if j = i then b else bitAt bits.data j) :
    Bitmap.Holds { bits with data } (Function.update v i b) where
  room := by
    rw [hlen]
    exact h.room
  bit j hj := by
    rw [hdata, Function.update_apply, h.bit j hj]

/-- **A call of `bitmap_set`** whose offset is not negative. -/
theorem bitmapSet_spec (h : bits.Holds v) {offset : Int32} {value : UInt8}
    (hop : ¬ (BitmapOp.set offset value).Negative) :
    Post (bitmapSet bits offset value) fun u => u.2 = (BitmapOp.set offset value).ret bits.len v ∧
      u.1.len = bits.len ∧ u.1.Holds ((BitmapOp.set offset value).bits bits.len v) := by
  rw [BitmapOp.ret, BitmapOp.bits, bitmapSet]
  by_cases hvalue : value = 0 ∨ value = 1
  · have hcheck : ¬ (value ≠ 0 ∧ value ≠ 1) := by tauto
    have h0 : 0 ≤ offset.toInt := not_lt.mp fun hneg => hop ⟨hneg, hvalue⟩
    rw [if_neg hcheck]
    by_cases hlen : bits.len.toInt ≤ offset.toInt
    · have hout : ¬ (InLen bits.len offset ∧ (value = 0 ∨ value = 1)) := fun hin =>
        absurd hin.1.2 (not_lt.mpr hlen)
      rw [if_pos hlen, if_neg hout, if_neg hout]
      exact Post.ok ⟨rfl, rfl, h⟩
    · have hin : InLen bits.len offset := ⟨h0, not_le.mp hlen⟩
      obtain ⟨i, hi, -, hbyte⟩ := h.place hin
      have hdiv : offset.toInt.tdiv 8 = (i / 8 : ℕ) := by rw [hi]; rfl
      have hmod : offset.toInt.tmod 8 = (i % 8 : ℕ) := by rw [hi]; rfl
      rw [if_neg hlen, if_pos ⟨hin, hvalue⟩, if_pos ⟨hin, hvalue⟩, hdiv, hmod, shiftOne_ok, ok_bind,
        dataAt_ok hbyte, ok_bind, dataSet_ok hbyte, ok_bind, hi, Int.toNat_natCast]
      refine Post.pure ⟨rfl, rfl, h.update (List.length_set ..) fun j => ?_⟩
      rcases hvalue with rfl | rfl
      · exact bitAt_erase hbyte
      · exact bitAt_insert hbyte
  · have hcheck : value ≠ 0 ∧ value ≠ 1 := by tauto
    have hout : ¬ (InLen bits.len offset ∧ (value = 0 ∨ value = 1)) := fun hin => hvalue hin.2
    rw [if_pos hcheck, if_neg hout, if_neg hout]
    exact Post.ok ⟨rfl, rfl, h⟩

/-- **A call of `bitmap_get`** whose offset is not negative. -/
theorem bitmapGet_spec (h : bits.Holds v) {offset : Int32} (h0 : 0 ≤ offset.toInt) :
    bitmapGet bits offset = .ok ((BitmapOp.get offset).ret bits.len v) := by
  rw [bitmapGet, BitmapOp.ret]
  by_cases hlen : bits.len.toInt ≤ offset.toInt
  · rw [if_pos hlen, if_neg fun hin => absurd hin.2 (not_lt.mpr hlen)]
  · have hin : InLen bits.len offset := ⟨h0, not_le.mp hlen⟩
    obtain ⟨i, hi, hilen, hbyte⟩ := h.place hin
    have hdiv : offset.toInt.tdiv 8 = (i / 8 : ℕ) := by rw [hi]; rfl
    have hmod : offset.toInt.tmod 8 = (i % 8 : ℕ) := by rw [hi]; rfl
    rw [if_neg hlen, if_pos hin, hdiv, hmod, dataAt_ok hbyte, ok_bind, shiftOne_ok, ok_bind, hi,
      Int.toNat_natCast, ← h.bit i hilen]
    simp only [mask_and_pos (Nat.mod_lt i (by decide : 0 < 8)), bitAt]
    rfl

/-- **A call** whose offset is not negative does what it is for. -/
theorem BitmapOp.exec_spec {op : BitmapOp} (h : bits.Holds v) (hop : ¬ op.Negative) :
    Post (op.exec bits) fun u => u.2 = op.ret bits.len v ∧ u.1.len = bits.len ∧
      u.1.Holds (op.bits bits.len v) := by
  cases op with
  | set offset value => exact bitmapSet_spec h hop
  | get offset =>
    rw [BitmapOp.exec, bitmapGet_spec h (not_lt.mp hop)]
    exact Post.ok ⟨rfl, rfl, h⟩

/-- With a negative offset the index is negative, or the shift is. -/
theorem nonneg_of_ok {o : ℤ} {data : List UInt8} {byte mask : UInt8}
    (hbyte : dataAt data (o.tdiv 8) = .ok byte) (hmask : shiftOne (o.tmod 8) = .ok mask) : 0 ≤ o := by
  obtain ⟨_, hindex, _⟩ := bind_eq_ok.mp hbyte
  obtain ⟨_, hshift, _⟩ := bind_eq_ok.mp hmask
  obtain ⟨hindex, -⟩ := check_eq_ok.mp hindex
  have hshift := check_eq_ok.mp hshift
  by_contra hneg
  obtain ⟨k, hk⟩ := Int.eq_ofNat_of_zero_le (neg_nonneg.mpr (not_le.mp hneg).le)
  obtain rfl : o = -(k : ℤ) := by omega
  have hdiv : (k : ℤ).tdiv 8 = (k / 8 : ℕ) := rfl
  have hmod : (k : ℤ).tmod 8 = (k % 8 : ℕ) := rfl
  rw [Int.neg_tmod, hmod] at hshift
  rw [Int.neg_tdiv, hdiv] at hindex
  omega

/-- **A call** that goes on with a negative offset fails. -/
theorem BitmapOp.exec_negative {op : BitmapOp} (h0 : 0 ≤ bits.len.toInt) (hop : op.Negative)
    (u : Bitmap × ℤ) : op.exec bits ≠ .ok u := by
  intro hexec
  cases op with
  | set offset value =>
    obtain ⟨hneg, hvalue⟩ := hop
    have hcheck : ¬ (value ≠ 0 ∧ value ≠ 1) := by tauto
    rw [BitmapOp.exec, bitmapSet, if_neg hcheck, if_neg (by omega)] at hexec
    obtain ⟨mask, hmask, hexec⟩ := bind_eq_ok.mp hexec
    obtain ⟨byte, hbyte, -⟩ := bind_eq_ok.mp hexec
    exact absurd (nonneg_of_ok hbyte hmask) (not_le.mpr hneg)
  | get offset =>
    have hneg : offset.toInt < 0 := hop
    obtain ⟨value, hget, -⟩ := bind_eq_ok.mp hexec
    rw [bitmapGet, if_neg (by omega)] at hget
    obtain ⟨byte, hbyte, hget⟩ := bind_eq_ok.mp hget
    obtain ⟨mask, hmask, -⟩ := bind_eq_ok.mp hget
    exact absurd (nonneg_of_ok hbyte hmask) (not_le.mpr hneg)

/-! ### Runs -/

/-- **From any point of a run on**, by induction on its calls. -/
theorem bitmapRun_iff (h : bits.Holds v) (h0 : 0 ≤ bits.len.toInt) :
    (Post (bitmapRun bits ops) fun u => u.2 = bitmapRets bits.len v ops ∧ u.1.len = bits.len ∧
      u.1.Holds (bitmapBits bits.len v ops)) ↔ ∀ op ∈ ops, ¬ op.Negative := by
  induction ops generalizing bits v with
  | nil => exact iff_of_true (Post.ok ⟨rfl, rfl, h⟩) fun op hop => absurd hop List.not_mem_nil
  | cons op ops ih =>
    rw [List.forall_mem_cons]
    by_cases hop : op.Negative
    · refine iff_of_false ?_ fun hall => hall.1 hop
      rintro ⟨w, hw, -⟩
      obtain ⟨u, hexec, -⟩ := bind_eq_ok.mp hw
      exact BitmapOp.exec_negative h0 hop u hexec
    · obtain ⟨⟨bits', ret⟩, hexec, rfl, hlen, h'⟩ := BitmapOp.exec_spec h hop
      rw [and_iff_right hop, ← ih h' (hlen ▸ h0), hlen, bitmapRun, hexec, ok_bind]
      constructor
      · rintro ⟨w, hw, hrets, hw'⟩
        obtain ⟨u, hrun, hw⟩ := bind_eq_ok.mp hw
        obtain rfl := Except.ok.inj hw
        exact ⟨u, hrun, (List.cons.inj hrets).2, hw'⟩
      · rintro ⟨u, hrun, hrets, hu⟩
        refine Post.bind (P := (· = u)) ⟨u, hrun, rfl⟩ ?_
        rintro _ rfl
        exact Post.pure ⟨congrArg _ hrets, hu⟩

/-- A bitmap as `bitmap_alloc` leaves it. -/
theorem bitmapAlloc_spec {len : Int32} (h0 : 0 ≤ len.toInt) (h : len.toInt ≤ 2 ^ 31 - 9) :
    Post (bitmapAlloc len) fun bits => bits.len = len ∧ bits.Holds fun _ => false := by
  obtain ⟨n, hn⟩ := Int.eq_ofNat_of_zero_le h0
  have hround : roundUp len.toInt 8 = .ok ((n + 7) / 8 * 8 : ℕ) := by
    rw [roundUp, check_true (by omega), hn]
    have hadd : (n : ℤ) + 8 - 1 = (n + 7 : ℕ) := by omega
    rw [hadd]
    rfl
  have hdiv : (((n + 7) / 8 * 8 : ℕ) : ℤ).tdiv 8 = ((n + 7) / 8 : ℕ) := by
    rw [Int.tdiv_eq_ediv_of_nonneg (Int.natCast_nonneg _)]
    omega
  rw [bitmapAlloc, hround, ok_bind, hdiv]
  refine Post.pure ⟨rfl, ?_, fun i _ => ?_⟩
  · change len.toInt ≤ _
    rw [List.length_replicate, hn]
    omega
  · have hzero : ∀ k, (List.replicate k (0 : UInt8)).getD (i / 8) 0 = 0 := by
      intro k
      rw [List.getD_eq_getElem?_getD, List.getElem?_replicate]
      split <;> rfl
    rw [bitAt, hzero, UInt8.toBitVec_zero, BitVec.getLsbD_zero]

/-- **The bitmap is a vector of bits** in a run, with no access outside its bytes, exactly when no call of
the run goes on with a negative offset. -/
theorem bitmap_iff (len : Int32) (h0 : 0 ≤ len.toInt) (h : len.toInt ≤ 2 ^ 31 - 9)
    (ops : List BitmapOp) : BitmapRight len ops ↔ ∀ op ∈ ops, ¬ op.Negative := by
  obtain ⟨bits, halloc, rfl, hbits⟩ := bitmapAlloc_spec h0 h
  rw [BitmapRight, halloc, ok_bind]
  exact bitmapRun_iff hbits h0

theorem bitmap_iff_some :
    BitmapRight 200 [.set 14 1, .get 14, .get (-1)] ↔
      ∀ op ∈ [BitmapOp.set 14 1, .get 14, .get (-1)], ¬ op.Negative :=
  bitmap_iff 200 (by decide) (by decide) _

/-- One byte in front of the bitmap. -/
theorem bitmap_before : ¬ BitmapRight 200 [.set (-8) 1] := by
  rintro ⟨u, hu, -⟩
  obtain ⟨bits, halloc, hrun⟩ := bind_eq_ok.mp hu
  obtain rfl := Except.ok.inj halloc
  cases hrun

end CcUtils.Tools
