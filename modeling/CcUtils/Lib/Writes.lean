import CcUtils.Lib.Rules

/-!
# Many writes to one buffer

A library for code that fills the fields of a record one after the other. A write is an offset with the
bytes that go there; which byte a place holds in the end is that of the last write that covers it, or the
old one.

## What is proved

* `getElem?_store` — one write, byte by byte.
* `storeAll_iff` — the writes succeed exactly when each fits, and what the buffer holds then.
* `storeAll_same` — so when they change nothing.
* `lastByte_of_disjoint` — of writes that do not overlap each is the last one where it goes.
-/

namespace CcUtils.Lib

/-- An offset, and the bytes that go there. -/
abbrev Write := ℕ × List UInt8

/-- The byte that the write puts at `j`. -/
def byteOf (w : Write) (j : ℕ) : Option UInt8 := if w.1 ≤ j then w.2[j - w.1]? else none

/-- The byte that the last of the writes that cover `j` puts there. -/
def lastByte : List Write → ℕ → Option UInt8
  | [], _ => none
  | w :: ws, j => (lastByte ws j).or (byteOf w j)

/-- The writes, one after the other. -/
def storeAll : List UInt8 → List Write → Exec (List UInt8)
  | buf, [] => .ok buf
  | buf, w :: ws => do
    let buf ← store buf w.1 w.2
    storeAll buf ws

/-- The write goes to the buffer. -/
def Fits (n : ℕ) (w : Write) : Prop := w.1 + w.2.length ≤ n

/-- The writes do not overlap. -/
def Apart (v w : Write) : Prop := v.1 + v.2.length ≤ w.1 ∨ w.1 + w.2.length ≤ v.1

variable {buf buf' : List UInt8} {w v : Write} {ws : List Write} {j : ℕ} {b : UInt8}

theorem byteOf_eq_some : byteOf w j = some b ↔ w.1 ≤ j ∧ w.2[j - w.1]? = some b := by
  rw [byteOf]
  split <;> simp_all

theorem store_eq_ok_iff {off : ℕ} {bs : List UInt8} :
    store buf off bs = .ok buf' ↔
      off + bs.length ≤ buf.length ∧ buf' = buf.take off ++ (bs ++ buf.drop (off + bs.length)) := by
  rw [store]
  split
  · rename_i h
    rw [Except.ok.injEq, eq_comm, and_iff_right h]
  · rename_i h
    exact iff_of_false (fun h => by cases h) fun h' => h h'.1

/-- One write, byte by byte. -/
theorem getElem?_store (h : store buf w.1 w.2 = .ok buf') (j : ℕ) :
    buf'[j]? = (byteOf w j).or buf[j]? := by
  obtain ⟨hfit, rfl⟩ := store_eq_ok_iff.mp h
  have htake : (buf.take w.1).length = w.1 := by
    rw [List.length_take]
    omega
  rw [byteOf]
  by_cases hlow : w.1 ≤ j
  · rw [if_pos hlow, List.getElem?_append_right (by omega), htake]
    by_cases hhigh : j - w.1 < w.2.length
    · rw [List.getElem?_append_left hhigh, List.getElem?_eq_getElem hhigh]
      rfl
    · rw [List.getElem?_append_right (by omega), List.getElem?_drop,
        List.getElem?_eq_none (not_lt.mp hhigh)]
      congr 1
      omega
  · rw [if_neg hlow, List.getElem?_append_left (by omega), List.getElem?_take_of_lt (by omega)]
    rfl

/-- **The writes succeed** exactly when each of them fits; a place then holds what the last one put there,
or what it held. -/
theorem storeAll_iff :
    storeAll buf ws = .ok buf' ↔ (∀ w ∈ ws, Fits buf.length w) ∧ buf'.length = buf.length ∧
      ∀ j, buf'[j]? = (lastByte ws j).or buf[j]? := by
  induction ws generalizing buf with
  | nil =>
    simp only [storeAll, Except.ok.injEq, lastByte, Option.none_or]
    constructor
    · rintro rfl
      simp
    · rintro ⟨-, -, h⟩
      exact (List.ext_getElem? h).symm
  | cons w ws ih =>
    rw [storeAll, bind_eq_ok, List.forall_mem_cons]
    constructor
    · rintro ⟨buf₁, hstore, hrest⟩
      obtain ⟨hfits, hlen, hbytes⟩ := ih.mp hrest
      have hlen₁ := length_store hstore
      rw [hlen₁] at hfits hlen
      refine ⟨⟨(store_eq_ok_iff.mp hstore).1, hfits⟩, hlen, fun j => ?_⟩
      rw [hbytes, getElem?_store hstore, lastByte, Option.or_assoc]
    · rintro ⟨⟨hfit, hfits⟩, hlen, hbytes⟩
      obtain ⟨buf₁, hstore⟩ : ∃ buf₁, store buf w.1 w.2 = .ok buf₁ :=
        ⟨_, store_eq_ok_iff.mpr ⟨hfit, rfl⟩⟩
      have hlen₁ := length_store hstore
      refine ⟨buf₁, hstore, ih.mpr ⟨?_, ?_, fun j => ?_⟩⟩
      · rwa [hlen₁]
      · rw [hlen, hlen₁]
      · rw [hbytes, getElem?_store hstore, lastByte, Option.or_assoc]

theorem exists_storeAll (h : ∀ w ∈ ws, Fits buf.length w) : ∃ buf', storeAll buf ws = .ok buf' := by
  induction ws generalizing buf with
  | nil => exact ⟨buf, rfl⟩
  | cons w ws ih =>
    obtain ⟨hfit, hfits⟩ := List.forall_mem_cons.mp h
    have hstore : store buf w.1 w.2 = .ok _ := store_eq_ok_iff.mpr ⟨hfit, rfl⟩
    rw [storeAll, hstore, ok_bind]
    refine ih ?_
    rwa [length_store hstore]

theorem storeAll_append (buf : List UInt8) (vs ws : List Write) :
    storeAll buf (vs ++ ws) = storeAll buf vs >>= (storeAll · ws) := by
  induction vs generalizing buf with
  | nil => rfl
  | cons v vs ih =>
    rw [List.cons_append, storeAll, storeAll, bind_assoc]
    exact bind_congr ih

/-- **The writes change nothing** exactly when each of them fits and every last one puts back what is
there. -/
theorem storeAll_same :
    storeAll buf ws = .ok buf ↔
      (∀ w ∈ ws, Fits buf.length w) ∧ ∀ j b, lastByte ws j = some b → buf[j]? = some b := by
  rw [storeAll_iff]
  refine and_congr_right fun _ => ?_
  constructor
  · rintro ⟨-, h⟩ j b hb
    rw [h, hb]
    rfl
  · refine fun h => ⟨rfl, fun j => ?_⟩
    cases hb : lastByte ws j with
    | none => rfl
    | some b => rw [h j b hb]; rfl

theorem exists_of_lastByte (h : lastByte ws j = some b) : ∃ w ∈ ws, byteOf w j = some b := by
  induction ws with
  | nil => cases h
  | cons w ws ih =>
    rcases Option.or_eq_some_iff.mp h with h | ⟨-, h⟩
    · obtain ⟨v, hv, hb⟩ := ih h
      exact ⟨v, List.mem_cons_of_mem w hv, hb⟩
    · exact ⟨w, List.mem_cons_self .., h⟩

/-- Writes that do not overlap never put a byte at the same place. -/
theorem Apart.byteOf (h : Apart v w) (hb : byteOf v j = some b) : Lib.byteOf w j = none := by
  obtain ⟨hlow, hget⟩ := byteOf_eq_some.mp hb
  obtain ⟨hhigh, -⟩ := List.getElem?_eq_some_iff.mp hget
  rw [Lib.byteOf]
  split
  · refine List.getElem?_eq_none ?_
    rcases h with h | h <;> omega
  · rfl

/-- **Of writes that do not overlap** each is the last one where it goes. -/
theorem lastByte_of_disjoint (hws : ws.Pairwise Apart) (hw : w ∈ ws) (hb : byteOf w j = some b) :
    lastByte ws j = some b := by
  induction ws with
  | nil => cases hw
  | cons v ws ih =>
    obtain ⟨hv, hws⟩ := List.pairwise_cons.mp hws
    rw [lastByte]
    rcases List.mem_cons.mp hw with rfl | hw
    · cases hlast : lastByte ws j with
      | none => exact hb
      | some c =>
        obtain ⟨u, hu, hc⟩ := exists_of_lastByte hlast
        rw [(hv u hu).byteOf hb] at hc
        cases hc
    · rw [ih hws hw]
      rfl

/-- A load that is known byte by byte. -/
theorem load_of_getElem? {off : ℕ} {bs : List UInt8} (hfit : off + bs.length ≤ buf.length)
    (h : ∀ k b, bs[k]? = some b → buf[off + k]? = some b) : load buf off bs.length = .ok bs := by
  refine load_eq_ok.mpr ⟨hfit, List.ext_getElem? fun k => ?_⟩
  by_cases hk : k < bs.length
  · have hget := List.getElem?_eq_getElem hk
    rw [List.getElem?_take_of_lt hk, List.getElem?_drop, h k _ hget, hget]
  · rw [List.getElem?_eq_none (not_lt.mp hk), List.getElem?_eq_none]
    rw [List.length_take]
    omega

/-- **After writes that do not overlap** each is read back. -/
theorem load_storeAll (h : storeAll buf ws = .ok buf') (hws : ws.Pairwise Apart) (hw : w ∈ ws) :
    load buf' w.1 w.2.length = .ok w.2 := by
  obtain ⟨hfits, hlen, hbytes⟩ := storeAll_iff.mp h
  refine load_of_getElem? (hlen ▸ hfits w hw) fun k b hb => ?_
  have hbyte : byteOf w (w.1 + k) = some b := byteOf_eq_some.mpr ⟨by omega, by
    rwa [Nat.add_sub_cancel_left]⟩
  rw [hbytes, lastByte_of_disjoint hws hw hbyte]
  rfl

end CcUtils.Lib
