import CcUtils.Lib.Pages

/-!
# Functions that are patched

`mock_set` puts a jump to another function over the first five bytes of a function, whose page it makes
writable for that, and `mock_reset` puts the five bytes back. The jump has 32 bits for the distance, and
the five bytes may end in the next page.

## What is proved

* `signExtend_disp` — the distance survives being cut if it is near.
* `jumpTarget_put` — where the jump goes, once its bytes are there.
* `mockSet_eq`, `mockSet_error` — what `mock_set` does, by the answers of the system.
* `mockSet_iff` — when patching is sound.
-/

namespace CcUtils.Tools

open CcUtils.Lib

/-! ### The functions -/

/-- `MOCK_JMPQ`. -/
def mockJmpq : UInt8 := 0xE9

/-- `MOCK_JMPQ_LEN`. -/
def mockJmpqLen : ℕ := 1

/-- `MOCK_JMPQ_OPLEN`. -/
def mockJmpqOplen : ℕ := 4

/-- `MOCK_LEN`. -/
def mockLen : ℕ := mockJmpqLen + mockJmpqOplen

/-- `MPROTECT_RWX`. -/
def mprotectRwx : Prot := ⟨true, true, true⟩

/-- `MPROTECT_RX`. -/
def mprotectRx : Prot := ⟨true, false, true⟩

/-- `PAGE_SIZE`. -/
def pageSize : BitVec 64 := 1 <<< 12

/-- `mock_s`, with `len` bytes in `mock`. -/
structure Mock (len : ℕ) where
  fn : BitVec 64
  mock : Vector UInt8 len

/-- `alignpage`. -/
def alignpage (v : BitVec 64) : BitVec 64 := v &&& ~~~(pageSize - 1)

/-- `mprotect_write`. -/
def mprotectWrite (c : Paged) (fn : BitVec 64) : Paged × Int32 :=
  c.mprotect (pageOf (alignpage fn)) mprotectRwx

/-- `mprotect_recovery`. -/
def mprotectRecovery (c : Paged) (fn : BitVec 64) : Paged × Int32 :=
  c.mprotect (pageOf (alignpage fn)) mprotectRx

/-- `mock_init`. -/
def mockInit (mockLen : ℕ) : Mock mockLen := ⟨0, Vector.replicate mockLen 0⟩

/-- `mock_fn - fn - MOCK_LEN`. -/
def distance (fn mockFn : BitVec 64) : BitVec 64 := mockFn - fn - BitVec.ofNat 64 mockLen

/-- `mock_set`. -/
def mockSet {len : ℕ} (m : Mock len) (c : Paged) (fn mockFn : BitVec 64) :
    Exec (Int32 × Mock len × Paged) := do
  let (c, ret) := mprotectWrite c fn
  if ret ≠ 0 then return (ret, m, c)
  let mock ← c.readAll fn len
  let m := { m with fn := fn, mock := mock }
  let c ← c.write fn mockJmpq
  let opaddr := fn + BitVec.ofNat 64 mockJmpqLen
  let c ← c.writeAll opaddr (le 4 ((distance fn mockFn).setWidth 32).toNat)
  let (c, ret) := mprotectRecovery c fn
  return (ret, m, c)

/-- `mock_reset`. -/
def mockReset {len : ℕ} (m : Mock len) (c : Paged) : Exec (Int32 × Paged) := do
  let (c, ret) := mprotectWrite c m.fn
  if ret ≠ 0 then return (ret, c)
  let c ← c.writeAll m.fn m.mock.toList
  let (c, ret) := mprotectRecovery c m.fn
  return (ret, c)

/-- Where the processor goes from `fn` if it finds a jump with a distance of 32 bits there. -/
def jumpTarget (c : Paged) (fn : BitVec 64) : Option (BitVec 64) :=
  let byte := fun i => fn + BitVec.ofNat 64 i
  if c.Allows Prot.exec fn 5 ∧ c.mem (byte 0) = 0xE9 then
    let disp := ofLe [c.mem (byte 1), c.mem (byte 2), c.mem (byte 3), c.mem (byte 4)]
    some (byte 5 + (BitVec.ofNat 32 disp).signExtend 64)
  else none

/-! ### The conditions -/

/-- The distance of the two functions fits in 32 bits. -/
def Near (fn mockFn : BitVec 64) : Prop :=
  -2 ^ 31 ≤ (distance fn mockFn).toInt ∧ (distance fn mockFn).toInt < 2 ^ 31

instance (fn mockFn : BitVec 64) : Decidable (Near fn mockFn) := inferInstanceAs (Decidable (_ ∧ _))

/-- The five bytes end in the next page. -/
def Crosses (fn : BitVec 64) : Prop := 4096 < fn.toNat % 4096 + mockLen

instance (fn : BitVec 64) : Decidable (Crosses fn) := inferInstanceAs (Decidable (_ < _))

/-- The bytes of the jump. -/
def jmpBytes (fn mockFn : BitVec 64) : List UInt8 :=
  mockJmpq :: le 4 ((distance fn mockFn).setWidth 32).toNat

/-! ### Pages and distances -/

section jump

variable {c : Paged} {fn mockFn : BitVec 64} {i : ℕ}

theorem pageOf_alignpage (v : BitVec 64) : pageOf (alignpage v) = pageOf v := by
  unfold pageOf alignpage
  rw [BitVec.ushiftRight_and_distrib]
  have hmask : (~~~(pageSize - 1)) >>> 12 = BitVec.allOnes 64 >>> 12 := by decide
  rw [hmask, ← BitVec.ushiftRight_and_distrib, BitVec.and_allOnes]

@[simp] theorem length_jmpBytes (fn mockFn : BitVec 64) : (jmpBytes fn mockFn).length = 5 := rfl

/-- Bytes that do not cross are all in one page. -/
theorem pageOf_byte (h : ¬ Crosses fn) (hi : i < 5) : pageOf (fn + BitVec.ofNat 64 i) = pageOf fn := by
  unfold Crosses mockLen mockJmpqLen mockJmpqOplen at h
  rw [pageOf_add (by omega)]
  omega

/-- If they cross, the last is in the next. -/
theorem pageOf_last (h : Crosses fn) : pageOf (fn + BitVec.ofNat 64 4) ≠ pageOf fn := by
  unfold Crosses mockLen mockJmpqLen mockJmpqOplen at h
  rw [Ne, pageOf_add (by omega)]
  omega

/-- A distance that is cut to 32 bits. -/
theorem signExtend_disp (d : BitVec 64) :
    (d.setWidth 32).signExtend 64 = d ↔ -2 ^ 31 ≤ d.toInt ∧ d.toInt < 2 ^ 31 := by
  have hd := d.isLt
  rw [← BitVec.toInt_inj, BitVec.toInt_signExtend_of_le (by omega), BitVec.toInt_setWidth,
    BitVec.toInt_eq_toNat_cond, Int.bmod_def]
  omega

/-- The jump goes where it should if the function is near. -/
theorem jumpTarget_put (hexec : c.Allows Prot.exec fn 5)
    (h : c.Holds fn (jmpBytes fn mockFn)) : jumpTarget c fn = some mockFn ↔ Near fn mockFn := by
  have hdisp : ofLe [c.mem (fn + BitVec.ofNat 64 1), c.mem (fn + BitVec.ofNat 64 2),
      c.mem (fn + BitVec.ofNat 64 3), c.mem (fn + BitVec.ofNat 64 4)] =
        ((distance fn mockFn).setWidth 32).toNat := by
    rw [h 1 _ rfl, h 2 _ rfl, h 3 _ rfl, h 4 _ rfl]
    have hlt : ((distance fn mockFn).setWidth 32).toNat < 256 ^ 4 :=
      ((distance fn mockFn).setWidth 32).isLt
    exact ofLe_le hlt
  have hgoal : fn + BitVec.ofNat 64 5 + distance fn mockFn = mockFn := by
    show fn + 5#64 + (mockFn - fn - 5#64) = mockFn
    bv_omega
  have hcut : fn + BitVec.ofNat 64 5 + ((distance fn mockFn).setWidth 32).signExtend 64 = mockFn ↔
      ((distance fn mockFn).setWidth 32).signExtend 64 = distance fn mockFn := by
    rw [← BitVec.add_right_inj (fn + BitVec.ofNat 64 5) (y := distance fn mockFn), hgoal]
  unfold jumpTarget
  rw [if_pos ⟨hexec, h 0 _ rfl⟩]
  simp only [hdisp, BitVec.ofNat_toNat, BitVec.setWidth_eq, Option.some.injEq]
  rw [hcut, signExtend_disp]
  rfl

/-- The bytes can be used if the page is granted, and the next page allows it where they cross. -/
theorem allows_grant {use : Prot → Bool} {prot : Prot} (huse : use prot = true) :
    (c.grant (pageOf fn) prot).Allows use fn 5 ↔
      (Crosses fn → use (c.prot (pageOf (fn + BitVec.ofNat 64 4))) = true) := by
  unfold Paged.Allows
  constructor
  · intro h hcross
    have hlast := h 4 (by omega)
    rwa [Paged.prot_grant, Function.update_of_ne (pageOf_last hcross)] at hlast
  · intro h i hi
    rw [Paged.prot_grant]
    by_cases hown : pageOf (fn + BitVec.ofNat 64 i) = pageOf fn
    · rw [hown, Function.update_self, huse]
    · have hfn := fn.isLt
      have hcross : Crosses fn := by
        by_contra hcross
        exact hown (pageOf_byte hcross hi)
      have hnext : pageOf (fn + BitVec.ofNat 64 i) = pageOf (fn + BitVec.ofNat 64 4) := by
        obtain ⟨k, hk⟩ : ∃ k, 4 = i + k := ⟨4 - i, by omega⟩
        rw [hk, BitVec.ofNat_add, ← BitVec.add_assoc, eq_comm, pageOf_add (by omega), BitVec.toNat_add,
          BitVec.toNat_ofNat]
        rw [pageOf_add (by omega)] at hown
        unfold Crosses mockLen mockJmpqLen mockJmpqOplen at hcross
        omega
      rw [Function.update_of_ne hown, hnext, h hcross]

end jump

/-! ### What the functions do -/

section runs

variable {len : ℕ} {m : Mock len} {c : Paged} {fn mockFn : BitVec 64}

/-- The page of the function is open. -/
def openedFor (c : Paged) (fn : BitVec 64) : Paged := c.shift.grant (pageOf fn) mprotectRwx

/-- The jump is there, and the page is not open any more if the system does as it is told. -/
def patched (c : Paged) (fn mockFn : BitVec 64) : Paged × Int32 :=
  ((openedFor c fn).put fn (jmpBytes fn mockFn)).mprotect (pageOf fn) mprotectRx

theorem mprotectWrite_zero (h : c.answers 0 = 0) : mprotectWrite c fn = (openedFor c fn, 0) := by
  unfold mprotectWrite Paged.mprotect
  rw [if_pos h, h, pageOf_alignpage]
  rfl

theorem mprotectWrite_ne (h : c.answers 0 ≠ 0) : mprotectWrite c fn = (c.shift, c.answers 0) := by
  unfold mprotectWrite Paged.mprotect
  rw [if_neg h]

/-- A refusal ends `mock_set`. -/
theorem mockSet_refused (h : c.answers 0 ≠ 0) :
    mockSet m c fn mockFn = .ok (c.answers 0, m, c.shift) := by
  unfold mockSet
  rw [mprotectWrite_ne h]
  exact if_pos h

/-- Otherwise it goes on. -/
theorem mockSet_granted (h : c.answers 0 = 0) : mockSet m c fn mockFn = (do
    let mock ← (openedFor c fn).readAll fn len
    let c ← (openedFor c fn).writeAll fn (jmpBytes fn mockFn)
    let r := c.mprotect (pageOf fn) mprotectRx
    return (r.2, ⟨fn, mock⟩, r.1)) := by
  unfold mockSet mprotectRecovery jmpBytes
  rw [mprotectWrite_zero h, pageOf_alignpage]
  simp only [Paged.writeAll, bind_assoc]
  rfl

/-- The jump is written if all its bytes can be. -/
theorem mockSet_eq (h : c.answers 0 = 0) (hread : (openedFor c fn).Allows Prot.read fn len)
    (hwrite : (openedFor c fn).Allows Prot.write fn 5) :
    mockSet m c fn mockFn = .ok ((patched c fn mockFn).2,
      ⟨fn, .ofFn fun i => c.mem (fn + BitVec.ofNat 64 i)⟩, (patched c fn mockFn).1) := by
  rw [mockSet_granted h, Paged.readAll, if_pos hread, ok_bind, Paged.writeAll_eq hwrite, ok_bind]
  rfl

/-- If not, there is no result. -/
theorem mockSet_error (h : c.answers 0 = 0) (hno : ¬ ((openedFor c fn).Allows Prot.read fn len ∧
    (openedFor c fn).Allows Prot.write fn 5)) : mockSet m c fn mockFn = .error .outOfBounds := by
  rw [mockSet_granted h, Paged.readAll]
  split
  · rename_i hread
    have hwrite : ¬ (openedFor c fn).Allows Prot.write fn 5 := fun hwrite => hno ⟨hread, hwrite⟩
    rw [ok_bind, Paged.writeAll_error hwrite]
    rfl
  · rfl

/-- The function with the jump over it, and its page closed. -/
def closed (c : Paged) (fn mockFn : BitVec 64) : Paged :=
  ((openedFor c fn).put fn (jmpBytes fn mockFn)).shift.grant (pageOf fn) mprotectRx

theorem patched_ret (c : Paged) (fn mockFn : BitVec 64) : (patched c fn mockFn).2 = c.answers 1 := by
  unfold patched Paged.mprotect
  rw [Paged.answers_put]
  rfl

theorem patched_eq (h : c.answers 1 = 0) : (patched c fn mockFn).1 = closed c fn mockFn := by
  have hret := patched_ret c fn mockFn
  rw [h] at hret
  unfold patched Paged.mprotect at hret ⊢
  exact if_pos hret

/-- Every byte is in the page that was opened if none is in the next. -/
theorem owned_closed : Owned (closed c.start fn mockFn).log ↔ ¬ Crosses fn := by
  have hlog : Owned (closed c.start fn mockFn).log ↔
      Owned ((openedFor c.start fn).put fn (jmpBytes fn mockFn)).log := Iff.rfl
  rw [hlog, Paged.owned_put, length_jmpBytes]
  constructor
  · rintro ⟨-, h⟩ hcross
    have hlast := h 4 (by omega)
    have hne := pageOf_last hcross
    simp [openedFor, Paged.shift, Paged.grant, Paged.start, opened, hne.symm] at hlast
  · intro h
    refine ⟨trivial, fun i hi => ?_⟩
    rw [pageOf_byte h hi]
    exact if_pos rfl

theorem holds_closed : (closed c fn mockFn).Holds fn (jmpBytes fn mockFn) :=
  Paged.put_get (by rw [length_jmpBytes]; omega)

theorem jumpTarget_closed (h : ¬ Crosses fn) :
    jumpTarget (closed c fn mockFn) fn = some mockFn ↔ Near fn mockFn :=
  jumpTarget_put ((allows_grant rfl).mpr fun hcross => absurd hcross h) holds_closed

/-- The bytes that were saved come back, unless the system refuses. -/
theorem mockReset_closed (h : ¬ Crosses fn) {m : Mock mockLen} (hfn : m.fn = fn)
    (hmock : m.mock = .ofFn fun i => c.mem (fn + BitVec.ofNat 64 i)) :
    Post (mockReset m (closed c fn mockFn)) (fun v => v.2.mem = c.mem) ↔
      c.answers 2 = 0 ∨ c.Holds fn (jmpBytes fn mockFn) := by
  have hans : (closed c fn mockFn).answers 0 = c.answers 2 := by
    show ((openedFor c fn).put fn (jmpBytes fn mockFn)).answers 1 = c.answers 2
    rw [Paged.answers_put]
    rfl
  have hlen : m.mock.toList.length = 5 := m.mock.length_toList
  subst hfn
  unfold mockReset
  by_cases h2 : c.answers 2 = 0
  · rw [mprotectWrite_zero (hans.trans h2)]
    simp only [ne_eq, not_true_eq_false, if_false]
    have hwrite : (openedFor (closed c m.fn mockFn) m.fn).Allows Prot.write m.fn m.mock.toList.length := by
      rw [hlen]
      exact (allows_grant rfl).mpr fun hcross => absurd hcross h
    rw [Paged.writeAll_eq hwrite, ok_bind]
    refine iff_of_true (Post.ok ?_) (Or.inl h2)
    show (mprotectRecovery _ m.fn).1.mem = c.mem
    rw [mprotectRecovery, Paged.mem_mprotect]
    apply Paged.put_eq
    · intro i b hb
      rw [hmock, Vector.toList_ofFn, List.getElem?_ofFn] at hb
      split at hb
      · exact (Option.some.inj hb).symm
      · cases hb
    · intro x hx
      rw [hlen, ← length_jmpBytes m.fn mockFn] at hx
      exact Paged.put_off hx
  · rw [mprotectWrite_ne (by rw [hans]; exact h2), hans]
    simp only [ne_eq, h2, not_false_eq_true, if_true, false_or]
    rw [← Paged.mem_put_iff (by rw [length_jmpBytes]; omega)]
    exact ⟨fun hpost => hpost.of_ok rfl, fun hmem => Post.ok hmem⟩

end runs

/-! ### When patching is sound -/

section sound

variable {m : Mock mockLen} {c : Paged} {fn mockFn : BitVec 64}

/-- If `mock_set` returns 0, it wrote in pages that it had opened, the jump goes to the other function, and
a `mock_reset` after it brings memory back. -/
def PatchSound (m : Mock mockLen) (c : Paged) (fn mockFn : BitVec 64) : Prop :=
  Ensures (mockSet m c.start fn mockFn) fun u => u.1 = 0 →
    Owned u.2.2.log ∧ jumpTarget u.2.2 fn = some mockFn ∧
      Post (mockReset u.2.1 u.2.2) fun v => v.2.mem = c.mem

/-- The system grants both changes, and the next page can be read and written if bytes are in it. -/
def Patchable (c : Paged) (fn : BitVec 64) : Prop :=
  c.answers 0 = 0 ∧ c.answers 1 = 0 ∧
    (Crosses fn → (c.prot (pageOf (fn + BitVec.ofNat 64 4))).read = true ∧
      (c.prot (pageOf (fn + BitVec.ofNat 64 4))).write = true)

/-- Then `mock_set` returns 0. -/
theorem mockSet_patchable (m : Mock mockLen) (mockFn : BitVec 64) (h : Patchable c fn) :
    mockSet m c.start fn mockFn =
      .ok (0, ⟨fn, .ofFn fun i => c.mem (fn + BitVec.ofNat 64 i)⟩, closed c.start fn mockFn) := by
  obtain ⟨h0, h1, hnext⟩ := h
  have hread : (openedFor c.start fn).Allows Prot.read fn mockLen :=
    (allows_grant rfl).mpr fun hcross => (hnext hcross).1
  have hwrite : (openedFor c.start fn).Allows Prot.write fn 5 :=
    (allows_grant rfl).mpr fun hcross => (hnext hcross).2
  rw [mockSet_eq (c := c.start) h0 hread hwrite, patched_ret,
    patched_eq (c := c.start) h1]
  exact congrArg (fun ret => Except.ok (ret, _, _)) h1

/-- Otherwise it does not. -/
theorem mockSet_not_patchable (h : ¬ Patchable c fn) :
    Ensures (mockSet m c.start fn mockFn) fun u => u.1 ≠ 0 := by
  by_cases h0 : c.answers 0 = 0
  · by_cases hrw : (openedFor c.start fn).Allows Prot.read fn mockLen ∧
        (openedFor c.start fn).Allows Prot.write fn 5
    · have h1 : c.answers 1 ≠ 0 := by
        intro h1
        apply h
        refine ⟨h0, h1, fun hcross => ⟨?_, ?_⟩⟩
        · exact (allows_grant rfl).mp hrw.1 hcross
        · exact (allows_grant rfl).mp hrw.2 hcross
      rw [mockSet_eq (c := c.start) h0 hrw.1 hrw.2, patched_ret]
      exact Ensures.ok h1
    · rw [mockSet_error (c := c.start) h0 hrw]
      exact Ensures.error _ _
  · rw [mockSet_refused (c := c.start) h0]
    exact Ensures.ok h0

/-- Patching is sound if the five bytes are in one page, the distance of the functions fits in 32 bits,
and the system lets `mock_reset` write, which else has to find the jump in the function already. -/
theorem mockSet_iff (m : Mock mockLen) (c : Paged) (fn mockFn : BitVec 64) :
    PatchSound m c fn mockFn ↔ (Patchable c fn →
      ¬ Crosses fn ∧ Near fn mockFn ∧ (c.answers 2 = 0 ∨ c.Holds fn (jmpBytes fn mockFn))) := by
  unfold PatchSound
  by_cases h : Patchable c fn
  · rw [mockSet_patchable m mockFn h]
    have hset : ∀ Q : Int32 × Mock mockLen × Paged → Prop, ∀ u, Ensures (.ok u) Q ↔ Q u :=
      fun Q u => ⟨fun hQ => hQ u rfl, Ensures.ok⟩
    rw [hset, owned_closed]
    simp only [forall_const, h]
    refine and_congr_right fun hcross => ?_
    exact and_congr (jumpTarget_closed hcross) (mockReset_closed (c := c.start) hcross rfl rfl)
  · refine iff_of_true ?_ fun hp => absurd hp h
    intro u hu h0
    exact absurd h0 (mockSet_not_patchable h u hu)

/-- Two functions that are too far from each other. -/
theorem mockSet_far :
    ¬ PatchSound (mockInit mockLen) ⟨fun _ => 0x90, fun _ => mprotectRx, fun _ => 0, []⟩
      0x401000 0x7F0000001000 := by
  intro h
  have hcross : ¬ Crosses 0x401000 := by decide
  have hset := mockSet_patchable (c := ⟨fun _ => 0x90, fun _ => mprotectRx, fun _ => 0, []⟩)
    (mockInit mockLen) 0x7F0000001000 ⟨rfl, rfl, fun hcross' => absurd hcross' hcross⟩
  obtain ⟨-, hjump, -⟩ := h _ hset rfl
  have hfar : ¬ Near 0x401000 0x7F0000001000 := by decide
  exact hfar ((jumpTarget_closed hcross).mp hjump)

end sound

end CcUtils.Tools
