import CcUtils.Lib.Decimal
import CcUtils.Lib.Snprintf

/-!
# `check_addr_valid`

The message is put together in a buffer of 256 bytes, and `offset` adds up what `snprintf` returns, which
is the length of each piece before it is cut. Once they have more than 256 bytes together, the room that
is left is less than none, and a large number as a `size_t`.

## What is proved

* `Message.Sound.put`, `Message.put_outside` — a piece is put in its place, or outside the buffer.
* `Message.Sound.putAll` — all pieces are, when those before the last one end in the buffer.
* `checkAddr_iff` — so for which calls the message stays in bounds.
-/

namespace CcUtils.Tools

open CcUtils.Lib

/-! ### The function -/

/-- `MAX_BUF_SIZE`. -/
def maxBufSize : ℕ := 256

/-- The message so far: `buf`, `offset`, and the `offset` and the size of each call of `snprintf`. -/
structure Message where
  buf : List UInt8
  offset : ℤ
  calls : List (ℤ × ℕ)

/-- `offset += snprintf(buf + offset, MAX_BUF_SIZE - offset, ...)`. -/
def Message.put (m : Message) (text : List UInt8) : Exec Message := do
  let size := (((maxBufSize : ℤ) - m.offset) % 2 ^ 64).toNat
  let (buf, n) ← snprintf m.buf m.offset size text
  check (m.offset + n < 2 ^ 31) .overflow
  return ⟨buf, m.offset + n, m.calls ++ [(m.offset, size)]⟩

/-- The next argument. -/
def vaArg (valist : List UInt64) : Exec (UInt64 × List UInt64) :=
  match valist with
  | [] => .error .badVarArg
  | addr :: valist => .ok (addr, valist)

/-- `Check Param[func:line_num] `. -/
def headText (func : CString) (lineNum : UInt32) : List UInt8 :=
  [67, 104, 101, 99, 107, 32, 80, 97, 114, 97, 109, 91] ++ -- "Check Param["
    (func.val ++ ([58] ++ (intText lineNum.toInt32.toInt ++ [93, 32]))) -- ":" and "] "

/-- `param i is invalid`, with a comma before it unless it is the first. -/
def invalidText (i : ℕ) : List UInt8 :=
  (if i = 0 then [] else [44, 32]) ++ -- ", "
    ([112, 97, 114, 97, 109] ++ -- "param"
      (intText i ++ [32, 105, 115, 32, 105, 110, 118, 97, 108, 105, 100])) -- " is invalid"

/-- The loop over the addresses, with `n` of them left from number `i` on. -/
def checkLoop : ℕ → ℕ → List UInt64 → Message → Exec Message
  | 0, _, _, m => .ok m
  | n + 1, i, valist, m => do
    let (addr, valist) ← vaArg valist
    let m ← if addr = 0 then m.put (invalidText i) else .ok m
    checkLoop n (i + 1) valist m

/-- `check_addr_valid`: what it returns, what it prints, and the message. -/
def checkAddrValid (func : CString) (lineNum : UInt32) (num : Int32) (valist : List UInt64) :
    Exec (Bool × List UInt8 × Message) := do
  let m ← (⟨List.replicate maxBufSize 0, 0, []⟩ : Message).put (headText func lineNum)
  let m ← checkLoop num.toInt.toNat 0 valist m
  let buf ← store m.buf (maxBufSize - 1) [0]
  let text ← cstr buf
  return (true, text ++ [10], { m with buf })

/-! ### What it is for -/

/-- At every call the place is in the buffer or at its end, and the size is what is left. -/
def Message.Right (m : Message) : Prop :=
  ∀ c ∈ m.calls, 0 ≤ c.1 ∧ c.1 ≤ maxBufSize ∧ (c.2 : ℤ) = maxBufSize - c.1

/-- The texts of the addresses that are 0, from number `i` on. -/
def invalidTexts : ℕ → List UInt64 → List (List UInt8)
  | _, [] => []
  | i, addr :: valist => (if addr = 0 then [invalidText i] else []) ++ invalidTexts (i + 1) valist

/-- How many bytes texts have together. -/
def total (texts : List (List UInt8)) : ℕ := (texts.map List.length).sum

theorem total_cons (t : List UInt8) (ts : List (List UInt8)) :
    total (t :: ts) = t.length + total ts := by
  rw [total, total, List.map_cons, List.sum_cons]

/-! ### One piece -/

variable {m : Message} {text : List UInt8} {texts : List (List UInt8)} {valist : List UInt64}
  {z : ℤ} {i n : ℕ}

/-- The buffer is whole, and the calls were right. -/
structure Message.Sound (m : Message) : Prop where
  length : m.buf.length = maxBufSize
  right : m.Right

/-- **In its place** a piece is put behind the ones before. -/
theorem Message.Sound.put (h : m.Sound) (h0 : 0 ≤ m.offset) (hle : m.offset ≤ maxBufSize)
    (hint : m.offset + textLength text < 2 ^ 31) :
    Post (m.put text) fun m' => m'.Sound ∧ m'.offset = m.offset + textLength text := by
  obtain ⟨k, hk⟩ := Int.eq_ofNat_of_zero_le h0
  have hmax : (maxBufSize : ℤ) = 256 := rfl
  have hsize : ((((maxBufSize : ℤ) - m.offset) % 2 ^ 64).toNat : ℤ) = maxBufSize - m.offset := by
    omega
  have hroom : k + (((maxBufSize : ℤ) - m.offset) % 2 ^ 64).toNat ≤ m.buf.length := by
    rw [h.length]
    omega
  obtain ⟨⟨buf, r⟩, hprint, hlen, hr⟩ : Post (snprintf _ _ _ text) _ := snprintf_ok hroom
  have hr : r = textLength text := hr
  unfold Message.put
  rw [← hk] at hprint
  simp only [hprint, ok_bind]
  rw [hr, check_true hint]
  refine Post.pure ⟨⟨hlen.trans h.length, ?_⟩, rfl⟩
  intro c hc
  rcases List.mem_append.mp hc with hc | hc
  · exact h.right c hc
  · rw [List.mem_singleton.mp hc]
    exact ⟨h0, hle, hsize⟩

/-- **Outside the buffer** it is written all the same. -/
theorem Message.put_outside (h : m.buf.length = maxBufSize) (hlow : -1 ≤ m.offset)
    (hhigh : m.offset < 2 ^ 31) (hout : ¬ (0 ≤ m.offset ∧ m.offset ≤ maxBufSize)) :
    m.put text = .error .outOfBounds := by
  have hmax : (maxBufSize : ℤ) = 256 := rfl
  have hsize : 0 < (((maxBufSize : ℤ) - m.offset) % 2 ^ 64).toNat := by omega
  have hplace : m.offset < 0 ∨ (m.buf.length : ℤ) < m.offset := by
    rw [h]
    omega
  unfold Message.put
  simp only [snprintf_outside hplace hsize, error_bind]

/-! ### All pieces -/

/-- From place `z` on, all texts before the last one end in the buffer. -/
def Placed (z : ℤ) (texts : List (List UInt8)) : Prop :=
  texts = [] ∨ 0 ≤ z ∧ z + total texts.dropLast ≤ maxBufSize

theorem placed_cons {t : List UInt8} :
    Placed z (t :: texts) ↔ (0 ≤ z ∧ z ≤ maxBufSize) ∧ Placed (z + t.length) texts := by
  unfold Placed
  rw [or_iff_right (List.cons_ne_nil t texts)]
  cases texts with
  | nil => simp [total]
  | cons t' ts =>
    rw [List.dropLast_cons_cons, or_iff_right (List.cons_ne_nil t' ts), total_cons]
    omega

/-- **All pieces** are put, if they have their places. -/
theorem Message.Sound.putAll (h : m.Sound) (hplaced : Placed m.offset texts)
    (hshort : ∀ t ∈ texts, t.length ≤ 64) : Post (texts.foldlM Message.put m) Message.Sound := by
  induction texts generalizing m with
  | nil => exact Post.pure h
  | cons t ts ih =>
    obtain ⟨ht, hts⟩ := List.forall_mem_cons.mp hshort
    obtain ⟨⟨h0, hle⟩, hrest⟩ := placed_cons.mp hplaced
    have hmax : (maxBufSize : ℤ) = 256 := rfl
    have hlen : textLength t = t.length := if_pos (by omega)
    rw [List.foldlM_cons]
    refine (h.put h0 hle (by omega)).bind fun m' ⟨hsound, hoff⟩ => ?_
    rw [hlen] at hoff
    exact ih hsound (hoff ▸ hrest) hts

/-- If not, one of them is written outside the buffer. -/
theorem Message.Sound.putAll_outside (h : m.Sound) (hlow : -1 ≤ m.offset) (hhigh : m.offset < 2 ^ 31)
    (hplaced : ¬ Placed m.offset texts) (hshort : ∀ t ∈ texts, t.length ≤ 64) :
    texts.foldlM Message.put m = .error .outOfBounds := by
  induction texts generalizing m with
  | nil => exact absurd (.inl rfl) hplaced
  | cons t ts ih =>
    obtain ⟨ht, hts⟩ := List.forall_mem_cons.mp hshort
    have hmax : (maxBufSize : ℤ) = 256 := rfl
    have hlen : textLength t = t.length := if_pos (by omega)
    rw [List.foldlM_cons]
    by_cases hin : 0 ≤ m.offset ∧ m.offset ≤ maxBufSize
    · obtain ⟨m', hput, hsound, hoff⟩ : Post (m.put t) _ := h.put hin.1 hin.2 (by omega)
      rw [hlen] at hoff
      have hrest : ¬ Placed m'.offset ts := by
        rw [hoff]
        exact fun hrest => hplaced (placed_cons.mpr ⟨hin, hrest⟩)
      rw [hput, ok_bind]
      exact ih hsound (by omega) (by omega) hrest hts
    · rw [Message.put_outside h.length hlow hhigh hin]
      rfl

/-- The loop puts the texts of the addresses that are 0. -/
theorem checkLoop_eq (h : valist.length = n) :
    checkLoop n i valist m = (invalidTexts i valist).foldlM Message.put m := by
  induction n generalizing i valist m with
  | zero =>
    rw [List.length_eq_zero_iff.mp h]
    rfl
  | succ n ih =>
    obtain ⟨addr, valist, rfl⟩ := List.exists_cons_of_length_eq_add_one h
    have hrest : valist.length = n := Nat.succ.inj h
    unfold checkLoop invalidTexts vaArg
    rw [ok_bind, List.foldlM_append]
    dsimp only
    split
    · rw [List.foldlM_cons, bind_assoc]
      refine bind_congr fun m => ?_
      rw [ih hrest]
      rfl
    · exact ih hrest

theorem invalidText_short (h : i < 2 ^ 31) : (invalidText i).length ≤ 64 := by
  have hdigits : (intText i).length ≤ 10 := by
    have hnat : ¬ (i : ℤ) < 0 := by omega
    rw [intText, if_neg hnat, Int.toNat_natCast]
    exact length_digits_le (by decide) (by omega)
  unfold invalidText
  split <;> simp <;> omega

theorem invalidTexts_short (h : i + valist.length ≤ 2 ^ 31) :
    ∀ t ∈ invalidTexts i valist, t.length ≤ 64 := by
  induction valist generalizing i with
  | nil => simp [invalidTexts]
  | cons addr valist ih =>
    rw [List.length_cons] at h
    intro t ht
    rcases List.mem_append.mp ht with ht | ht
    · split at ht
      · rw [List.mem_singleton.mp ht]
        exact invalidText_short (by omega)
      · cases ht
    · exact ih (by omega) t ht

/-! ### The call -/

/-- The end of the function: the last NUL, and the message printed. -/
theorem Message.Sound.finish (h : m.Sound) :
    Post (do
      let buf ← store m.buf (maxBufSize - 1) [0]
      let text ← cstr buf
      return (true, text ++ [10], { m with buf }) : Exec (Bool × List UInt8 × Message))
      fun u => u.2.2.Right := by
  have hlen := h.length
  have hstore : store m.buf (maxBufSize - 1) [0] =
      .ok (m.buf.take (maxBufSize - 1) ++ ([0] ++ m.buf.drop (maxBufSize - 1 + 1))) := by
    apply if_pos
    rw [hlen]
    decide
  have hmem : (0 : UInt8) ∈ m.buf.take (maxBufSize - 1) ++ ([0] ++ m.buf.drop (maxBufSize - 1 + 1)) := by
    simp
  obtain ⟨text, htext⟩ := exists_cstr.mpr hmem
  rw [hstore, ok_bind, htext]
  exact Post.pure h.right

/-- The texts of a call, by where the first one ends as `snprintf` says. -/
theorem total_placed {head : List UInt8} :
    total (head :: texts).dropLast ≤ maxBufSize ↔ Placed (textLength head) texts := by
  have hmax : (maxBufSize : ℤ) = 256 := rfl
  have hzero : total (head :: texts).dropLast ≤ maxBufSize ↔ Placed 0 (head :: texts) := by
    unfold Placed
    rw [or_iff_right (List.cons_ne_nil head texts)]
    omega
  have hhead : Placed head.length texts ↔ Placed (textLength head) texts := by
    unfold Placed textLength
    split
    · rfl
    · apply or_congr_right
      omega
  rw [hzero, placed_cons, zero_add, hhead]
  exact and_iff_right ⟨le_rfl, Int.natCast_nonneg _⟩

/-- The call, once its first piece has been put. -/
theorem checkAddrValid_eq (func : CString) (lineNum : UInt32) {num : Int32}
    (hlist : valist.length = num.toInt.toNat) :
    ∃ m : Message, m.Sound ∧ m.offset = textLength (headText func lineNum) ∧
      checkAddrValid func lineNum num valist = (do
        let m ← (invalidTexts 0 valist).foldlM Message.put m
        let buf ← store m.buf (maxBufSize - 1) [0]
        let text ← cstr buf
        return (true, text ++ [10], { m with buf })) := by
  have hstart : (⟨List.replicate maxBufSize 0, 0, []⟩ : Message).Sound := ⟨List.length_replicate, nofun⟩
  have hlt := textLength_lt (headText func lineNum)
  obtain ⟨m, hput, hsound, hoff⟩ := hstart.put le_rfl (Int.natCast_nonneg _) (by simpa using hlt)
  refine ⟨m, hsound, by simpa using hoff, ?_⟩
  unfold checkAddrValid
  rw [hput, ok_bind, checkLoop_eq hlist]

theorem checkAddrValid_outside (func : CString) (lineNum : UInt32) {num : Int32}
    (hlist : valist.length = num.toInt.toNat)
    (h : ¬ total (headText func lineNum :: invalidTexts 0 valist).dropLast ≤ maxBufSize) :
    checkAddrValid func lineNum num valist = .error .outOfBounds := by
  obtain ⟨m, hsound, hoff, hcall⟩ := checkAddrValid_eq func lineNum hlist
  have hnum := num.toInt_lt
  have hge := textLength_ge (headText func lineNum)
  have hlt := textLength_lt (headText func lineNum)
  rw [total_placed, ← hoff] at h
  rw [hcall, hsound.putAll_outside (by omega) (by omega) h (invalidTexts_short (by omega))]
  rfl

/-- **The message stays in bounds** exactly when its pieces before the last one have at most 256 bytes
together. -/
theorem checkAddr_iff (func : CString) (lineNum : UInt32) (num : Int32)
    (hlist : valist.length = num.toInt.toNat) :
    Post (checkAddrValid func lineNum num valist) (fun u => u.2.2.Right) ↔
      total (headText func lineNum :: invalidTexts 0 valist).dropLast ≤ maxBufSize := by
  by_cases h : total (headText func lineNum :: invalidTexts 0 valist).dropLast ≤ maxBufSize
  · obtain ⟨m, hsound, hoff, hcall⟩ := checkAddrValid_eq func lineNum hlist
    have hnum := num.toInt_lt
    refine iff_of_true ?_ h
    rw [total_placed, ← hoff] at h
    rw [hcall]
    exact (hsound.putAll h (invalidTexts_short (by omega))).bind fun m' hm' => hm'.finish
  · rw [checkAddrValid_outside func lineNum hlist h]
    exact iff_of_false nofun h

/-- A call for an address that is not 0 and one that is. -/
theorem checkAddr_iff_two :
    Post (checkAddrValid ⟨[102], by decide⟩ 7 2 [1, 0]) (fun u => u.2.2.Right) ↔
      total (headText ⟨[102], by decide⟩ 7 :: invalidTexts 0 [1, 0]).dropLast ≤ maxBufSize :=
  checkAddr_iff ⟨[102], by decide⟩ 7 2 (by decide)

/-- A call for twenty addresses that are 0. -/
theorem checkAddr_twenty :
    ¬ Post (checkAddrValid ⟨[102], by decide⟩ 7 20 (List.replicate 20 0)) fun u => u.2.2.Right := by
  have hlong : ¬ total (headText ⟨[102], by decide⟩ 7 ::
      invalidTexts 0 (List.replicate 20 0)).dropLast ≤ maxBufSize := by decide
  rw [checkAddrValid_outside _ _ (by decide) hlong]
  exact nofun

end CcUtils.Tools
