import Mathlib.Data.List.TakeDrop
import Mathlib.Tactic.Ring

/-!
# Memory as a C program sees it

A library about byte buffers. A buffer is the list of the
bytes of one object; a C string is a list of bytes without a NUL, its terminator left out; an
integer in memory is its little-endian bytes. What C leaves undefined is not given a value: an
access outside the object, an overlapping `memcpy`, a signed overflow end the run with a
`Fault`, so a theorem that a run succeeds says that none of them happens.

## What is proved

* `ofLe_le` — little-endian integers read back as they were written.
* `load_append`, `store_append` — an access that falls on one part of a buffer sees and changes
  that part.
* `Wrote.store` — the rule for code that fills a buffer from left to right.
* `cstr_append` — a stored C string reads back, whatever follows its terminator.
-/

namespace CcUtils.Lib

/-! ### Faults -/

/-- Why a run of C code stops without a result. -/
inductive Fault where
  /-- An access through a null pointer. -/
  | nullDeref
  /-- An access outside the object pointed to. -/
  | outOfBounds
  /-- A signed integer leaves its type. -/
  | overflow
  /-- The areas given to `memcpy` overlap. -/
  | overlap
  /-- An `assert` fails. -/
  | assertFail
  /-- The program calls `abort`. -/
  | abort
  /-- The type given to `va_arg` is not the type of the next argument, or there is none. -/
  | badVarArg
  /-- The fuel of the model is used up. -/
  | outOfFuel
  deriving DecidableEq, Repr

/-- The result of a run of C code. -/
abbrev Exec (α : Type) := Except Fault α

@[simp] theorem ok_bind {α β : Type} (a : α) (f : α → Exec β) : (Except.ok a >>= f) = f a := rfl

@[simp] theorem error_bind {α β : Type} (e : Fault) (f : α → Exec β) :
    ((Except.error e : Exec α) >>= f) = Except.error e := rfl

/-- A bind that succeeds has two steps that do. -/
theorem bind_eq_ok {α β : Type} {x : Exec α} {f : α → Exec β} {b : β} :
    (x >>= f) = .ok b ↔ ∃ a, x = .ok a ∧ f a = .ok b := by
  cases x with
  | error e => simp
  | ok a => simp

/-- A step that succeeds under a condition, with one result. -/
theorem bind_eq_ok_iff {α β : Type} {x : Exec α} {p : Prop} {a : α}
    (hx : ∀ a', x = .ok a' ↔ p ∧ a' = a) {f : α → Exec β} {b : β} :
    (x >>= f) = .ok b ↔ p ∧ f a = .ok b := by
  rw [bind_eq_ok]
  constructor
  · rintro ⟨a', ha, h⟩
    obtain ⟨hp, rfl⟩ := (hx a').mp ha
    exact ⟨hp, h⟩
  · rintro ⟨hp, h⟩
    exact ⟨a, (hx a).mpr ⟨hp, rfl⟩, h⟩

/-- Go on only if `p` holds. -/
def check (p : Prop) [Decidable p] (e : Fault) : Exec Unit := if p then .ok () else .error e

@[simp] theorem check_true {p : Prop} [Decidable p] (h : p) (e : Fault) : check p e = .ok () :=
  if_pos h

@[simp] theorem check_false {p : Prop} [Decidable p] (h : ¬ p) (e : Fault) :
    check p e = .error e := if_neg h

theorem check_eq_ok {p : Prop} [Decidable p] {e : Fault} {u : Unit} : check p e = .ok u ↔ p := by
  by_cases h : p <;> simp [h]

/-! ### Little-endian integers -/

/-- The low `n` bytes of `v`, the lowest first. -/
def le : ℕ → ℕ → List UInt8
  | 0, _ => []
  | n + 1, v => UInt8.ofNat v :: le n (v / 256)

/-- The number with the given bytes, the lowest first. -/
def ofLe : List UInt8 → ℕ
  | [] => 0
  | b :: bs => b.toNat + 256 * ofLe bs

@[simp] theorem length_le (n v : ℕ) : (le n v).length = n := by
  induction n generalizing v with
  | zero => rfl
  | succ n ih => simp [le, ih]

theorem ofLe_le {n v : ℕ} (h : v < 256 ^ n) : ofLe (le n v) = v := by
  induction n generalizing v with
  | zero => simp only [pow_zero, Nat.lt_one_iff] at h; simp [le, ofLe, h]
  | succ n ih =>
    have hd : v / 256 < 256 ^ n := by rw [pow_succ] at h; omega
    simp only [le, ofLe, ih hd, UInt8.toNat_ofNat']
    omega

/-- Bytes are those of the number they are. -/
theorem le_ofLe (bs : List UInt8) : le bs.length (ofLe bs) = bs := by
  induction bs with
  | nil => rfl
  | cons b bs ih =>
    have hlow : UInt8.ofNat (b.toNat + 256 * ofLe bs) = b := by
      rw [← UInt8.toNat_inj, UInt8.toNat_ofNat']
      have := b.toNat_lt
      omega
    have hhigh : (b.toNat + 256 * ofLe bs) / 256 = ofLe bs := by
      have := b.toNat_lt
      omega
    rw [List.length_cons, ofLe, le, hlow, hhigh, ih]

theorem ofLe_lt (bs : List UInt8) : ofLe bs < 256 ^ bs.length := by
  induction bs with
  | nil => exact Nat.one_pos
  | cons b bs ih =>
    have := b.toNat_lt
    rw [List.length_cons, pow_succ, ofLe]
    omega

/-- The bytes of a fixed-width word. -/
def leBv {w : ℕ} (n : ℕ) (v : BitVec w) : List UInt8 := le n v.toNat

@[simp] theorem length_leBv {w : ℕ} (n : ℕ) (v : BitVec w) : (leBv n v).length = n := length_le n _

theorem ofNat_ofLe_leBv {w n : ℕ} (h : 2 ^ w ≤ 256 ^ n) (v : BitVec w) :
    BitVec.ofNat w (ofLe (leBv n v)) = v := by
  rw [leBv, ofLe_le (lt_of_lt_of_le v.isLt h), BitVec.ofNat_toNat, BitVec.setWidth_eq]

/-! ### Buffers -/

/-- Read `n` bytes at `off`. -/
def load (buf : List UInt8) (off n : ℕ) : Exec (List UInt8) :=
  if off + n ≤ buf.length then .ok ((buf.drop off).take n) else .error .outOfBounds

/-- Write the bytes `bs` at `off`. -/
def store (buf : List UInt8) (off : ℕ) (bs : List UInt8) : Exec (List UInt8) :=
  if off + bs.length ≤ buf.length then .ok (buf.take off ++ (bs ++ buf.drop (off + bs.length)))
  else .error .outOfBounds

/-- A load that falls on the middle part reads it. -/
theorem load_append (pre bs post : List UInt8) {off n : ℕ} (ho : off = pre.length)
    (hn : n = bs.length) : load (pre ++ (bs ++ post)) off n = .ok bs := by
  subst ho hn
  have h : pre.length + bs.length ≤ (pre ++ (bs ++ post)).length := by simp
  simp [load]

theorem load_eq_ok {buf bs : List UInt8} {off n : ℕ} :
    load buf off n = .ok bs ↔ off + n ≤ buf.length ∧ (buf.drop off).take n = bs := by
  unfold load
  split <;> simp_all

/-- A load does not see bytes put after the buffer. -/
theorem load_append_right {buf bs : List UInt8} {off n : ℕ} (h : load buf off n = .ok bs)
    (post : List UInt8) : load (buf ++ post) off n = .ok bs := by
  obtain ⟨hle, rfl⟩ := load_eq_ok.mp h
  rw [load_eq_ok, List.length_append, List.drop_append_of_le_length (by omega),
    List.take_append_of_le_length (by simp; omega)]
  exact ⟨by omega, rfl⟩

theorem store_append {pre old post bs : List UInt8} {off : ℕ} (ho : off = pre.length)
    (hl : bs.length = old.length) :
    store (pre ++ (old ++ post)) off bs = .ok (pre ++ (bs ++ post)) := by
  subst ho
  have h : pre.length + bs.length ≤ (pre ++ (old ++ post)).length := by simp [hl]
  rw [store, if_pos h, List.take_left, hl, ← List.length_append, ← List.append_assoc pre old,
    List.drop_left]

theorem length_store {buf buf' bs : List UInt8} {off : ℕ} (h : store buf off bs = .ok buf') :
    buf'.length = buf.length := by
  unfold store at h
  split at h
  case isTrue hle =>
    cases h
    simp only [List.length_append, List.length_take, List.length_drop]
    omega
  case isFalse => cases h

/-- The first `off` bytes of the buffer are `w`: what has been written so far. -/
def Wrote (buf : List UInt8) (w : List UInt8) : Prop := w <+: buf

theorem Wrote.length_le {buf w : List UInt8} (h : Wrote buf w) : w.length ≤ buf.length :=
  List.IsPrefix.length_le h

theorem Wrote.take {buf w : List UInt8} (h : Wrote buf w) : buf.take w.length = w :=
  (List.prefix_iff_eq_take.mp h).symm

/-- Writing on at the end of what was written. -/
theorem Wrote.store {buf w : List UInt8} (h : Wrote buf w) (off : ℕ) (bs : List UInt8)
    (ho : off = w.length) (hroom : off + bs.length ≤ buf.length) :
    ∃ buf', store buf off bs = .ok buf' ∧ buf'.length = buf.length ∧ Wrote buf' (w ++ bs) := by
  obtain ⟨post, rfl⟩ := h
  subst ho
  have hle : bs.length ≤ post.length := by simpa using hroom
  have hs : Lib.store (w ++ (post.take bs.length ++ post.drop bs.length)) w.length bs =
      .ok (w ++ (bs ++ post.drop bs.length)) :=
    store_append rfl (by simp [hle])
  rw [List.take_append_drop] at hs
  exact ⟨_, hs, length_store hs, ⟨post.drop bs.length, by simp⟩⟩

/-- A write that succeeds at the end of what was written. -/
theorem Wrote.of_store {buf buf' w bs : List UInt8} {off : ℕ} (h : Wrote buf w)
    (ho : off = w.length) (hs : Lib.store buf off bs = .ok buf') :
    buf'.length = buf.length ∧ Wrote buf' (w ++ bs) ∧ off + bs.length ≤ buf.length := by
  have hroom : off + bs.length ≤ buf.length := by
    unfold Lib.store at hs
    split at hs
    case isTrue hle => exact hle
    case isFalse => cases hs
  obtain ⟨b, hb, hl, hw⟩ := h.store off bs ho hroom
  rw [hs] at hb
  cases hb
  exact ⟨hl, hw, hroom⟩

/-- What was written is read back. -/
theorem Wrote.load {buf pre bs post : List UInt8} (h : Wrote buf (pre ++ (bs ++ post)))
    {off n : ℕ} (ho : off = pre.length) (hn : n = bs.length) : load buf off n = .ok bs := by
  obtain ⟨rest, rfl⟩ := h
  exact load_append_right (load_append pre bs post ho hn) rest

/-- All that was written is read back. -/
theorem Wrote.load_all {buf w : List UInt8} (h : Wrote buf w) {n : ℕ} (hn : n = w.length) :
    Lib.load buf 0 n = .ok w := by
  subst hn
  rw [load_eq_ok, Nat.zero_add, List.drop_zero]
  exact ⟨h.length_le, h.take⟩

/-! ### The allocator -/

/-- A fresh block of `n` bytes, whose contents are whatever `junk` says. -/
def malloc (junk : ℕ → UInt8) (n : ℕ) : List UInt8 := (List.range n).map junk

/-- The block after `realloc` to `n` bytes: what fits of the old contents, then junk. -/
def realloc (junk : ℕ → UInt8) (buf : List UInt8) (n : ℕ) : List UInt8 :=
  buf.take n ++ malloc junk (n - buf.length)

@[simp] theorem length_malloc (junk : ℕ → UInt8) (n : ℕ) : (malloc junk n).length = n := by
  simp [malloc]

@[simp] theorem length_realloc (junk : ℕ → UInt8) (buf : List UInt8) (n : ℕ) :
    (realloc junk buf n).length = n := by
  simp only [realloc, List.length_append, List.length_take, length_malloc]
  omega

/-- Growing a block keeps what was written to it. -/
theorem Wrote.realloc {buf w : List UInt8} (h : Wrote buf w) (junk : ℕ → UInt8) {n : ℕ}
    (hn : buf.length ≤ n) : Wrote (realloc junk buf n) w := by
  rw [Lib.realloc, List.take_of_length_le hn]
  exact List.IsPrefix.trans h (List.prefix_append _ _)

/-! ### C strings -/

/-- A C string without its terminator. -/
abbrev CString := { s : List UInt8 // (0 : UInt8) ∉ s }

theorem nul_notMem_nil : (0 : UInt8) ∉ [] := List.not_mem_nil

theorem nul_notMem_a : (0 : UInt8) ∉ [97] := by decide

/-- The bytes of a C string in memory. -/
def CString.bytes (s : CString) : List UInt8 := s.val ++ [0]

/-- The value of `strlen` on the string. -/
def CString.len (s : CString) : ℕ := s.val.length

@[simp] theorem CString.length_bytes (s : CString) : s.bytes.length = s.len + 1 := by
  simp [bytes, len]

/-- The bytes of memory up to the first NUL, with `strlen`'s fault where there is none. -/
def cstr : List UInt8 → Exec (List UInt8)
  | [] => .error .outOfBounds
  | b :: bs => if b = 0 then .ok [] else (cstr bs).map (b :: ·)

/-- `strlen` on the memory from a pointer on. -/
def strlen (mem : List UInt8) : Exec ℕ := (cstr mem).map List.length

theorem cstr_append (s : CString) (post : List UInt8) : cstr (s.bytes ++ post) = .ok s.val := by
  obtain ⟨s, hs⟩ := s
  induction s with
  | nil => simp [CString.bytes, cstr]
  | cons b s ih =>
    simp only [List.mem_cons, not_or] at hs
    have hb : b ≠ 0 := Ne.symm hs.1
    have := ih hs.2
    simp only [CString.bytes, List.cons_append] at this ⊢
    rw [cstr, if_neg hb, this]
    rfl

/-- A string in memory ends at the first NUL. -/
theorem cstr_takeWhile (w post : List UInt8) :
    cstr (w ++ 0 :: post) = .ok (w.takeWhile (· ≠ 0)) := by
  induction w with
  | nil => rfl
  | cons b w ih =>
    by_cases hb : b = 0
    · simp [cstr, hb]
    · rw [List.cons_append, cstr, if_neg hb, ih, List.takeWhile_cons_of_pos (by simpa using hb)]
      rfl

/-- A string found in memory is followed there by its terminator. -/
theorem prefix_of_cstr {mem s : List UInt8} (h : cstr mem = .ok s) :
    (0 : UInt8) ∉ s ∧ s ++ [0] <+: mem := by
  induction mem generalizing s with
  | nil => cases h
  | cons b bs ih =>
    simp only [cstr] at h
    split at h
    case isTrue hb => cases h; subst hb; exact ⟨by simp, by simp⟩
    case isFalse hb =>
      cases hc : cstr bs with
      | error e => rw [hc] at h; cases h
      | ok s' =>
        rw [hc] at h
        cases h
        obtain ⟨h0, hp⟩ := ih hc
        exact ⟨by simp [Ne.symm hb, h0], by simpa using hp⟩

/-- There is a string in memory if there is a NUL. -/
theorem exists_cstr {mem : List UInt8} : (∃ s, cstr mem = .ok s) ↔ (0 : UInt8) ∈ mem := by
  constructor
  · rintro ⟨s, h⟩
    exact (prefix_of_cstr h).2.subset (by simp)
  · intro h
    obtain ⟨w, post, rfl⟩ := List.append_of_mem h
    exact ⟨_, cstr_takeWhile w post⟩

/-- The string a pointer into memory points to. -/
def cstring (mem : List UInt8) : Exec CString :=
  match h : cstr mem with
  | .ok s => .ok ⟨s, (prefix_of_cstr h).1⟩
  | .error e => .error e

theorem cstring_eq_ok {mem : List UInt8} {s : CString} :
    cstring mem = .ok s ↔ cstr mem = .ok s.val := by
  unfold cstring
  split
  case h_1 t ht =>
    constructor
    · rintro ⟨⟩
      exact ht
    · intro h
      obtain rfl : t = s.val := Except.ok.inj (ht.symm.trans h)
      rfl
  case h_2 e he => simp [he]

/-- Where there is no string, its memory is left. -/
theorem cstring_error {mem : List UInt8} {e : Fault} (h : cstring mem = .error e) : e = .outOfBounds := by
  have hcstr : ∀ mem : List UInt8, ∀ e, cstr mem = .error e → e = .outOfBounds := by
    intro mem
    induction mem with
    | nil => exact fun e h => (Except.error.inj h).symm
    | cons b bs ih =>
      intro e h
      rw [cstr] at h
      split at h
      · cases h
      · cases hc : cstr bs with
        | error e' =>
          rw [hc] at h
          cases h
          exact ih _ hc
        | ok s =>
          rw [hc] at h
          cases h
  unfold cstring at h
  split at h
  · cases h
  · rename_i e' he
    cases h
    exact hcstr mem _ he

theorem cstring_append (s : CString) (post : List UInt8) : cstring (s.bytes ++ post) = .ok s :=
  cstring_eq_ok.mpr (cstr_append s post)

/-- Bytes after the terminator do not matter. -/
theorem cstr_append_right {mem s : List UInt8} (h : cstr mem = .ok s) (post : List UInt8) :
    cstr (mem ++ post) = .ok s := by
  obtain ⟨h0, rest, rfl⟩ := prefix_of_cstr h
  rw [List.append_assoc]
  exact cstr_append ⟨s, h0⟩ _

/-- `strncmp`: the difference of the first two bytes that differ, none past a NUL or past `n`
bytes. Past the end of a string given without its terminator there is a NUL. -/
def strncmp : ℕ → List UInt8 → List UInt8 → ℤ
  | 0, _, _ => 0
  | n + 1, a, b =>
    if a.headD 0 = b.headD 0 then
      if a.headD 0 = 0 then 0 else strncmp n a.tail b.tail
    else (a.headD 0).toNat - (b.headD 0).toNat

/-- Swapping the strings swaps the sign. -/
theorem strncmp_swap (n : ℕ) (a b : List UInt8) : strncmp n a b < 0 ↔ 0 < strncmp n b a := by
  induction n generalizing a b with
  | zero => simp [strncmp]
  | succ n ih =>
    simp only [strncmp]
    by_cases h : a.headD 0 = b.headD 0
    · rw [if_pos h, if_pos h.symm, h]
      by_cases h0 : b.headD 0 = 0
      · simp only [if_pos h0, lt_self_iff_false]
      · rw [if_neg h0, if_neg h0]
        exact ih _ _
    · rw [if_neg h, if_neg (Ne.symm h)]
      omega

/-- The order of strings is transitive. -/
theorem strncmp_trans (n : ℕ) (a b c : List UInt8) (hab : strncmp n a b ≤ 0)
    (hbc : strncmp n b c ≤ 0) : strncmp n a c ≤ 0 := by
  induction n generalizing a b c with
  | zero => exact le_refl _
  | succ n ih =>
    simp only [strncmp] at hab hbc ⊢
    by_cases h1 : a.headD 0 = b.headD 0
    · rw [if_pos h1] at hab
      rw [← h1] at hbc
      by_cases h2 : a.headD 0 = c.headD 0
      · rw [if_pos h2] at hbc ⊢
        by_cases h0 : a.headD 0 = 0
        · rw [if_pos h0]
        · rw [if_neg h0] at hab hbc ⊢
          exact ih _ _ _ hab hbc
      · rw [if_neg h2] at hbc ⊢
        exact hbc
    · rw [if_neg h1] at hab
      have hne : (a.headD 0).toNat ≠ (b.headD 0).toNat := fun h => h1 (UInt8.toNat_inj.mp h)
      by_cases h2 : b.headD 0 = c.headD 0
      · rw [← h2, if_neg h1]
        exact hab
      · rw [if_neg h2] at hbc
        rw [if_neg (fun h => ?_)]
        · omega
        · rw [h] at hab hne
          omega

theorem strncmp_cons (n : ℕ) (a b : UInt8) (s t : List UInt8) :
    strncmp (n + 1) (a :: s) (b :: t) =
      if a = b then if a = 0 then 0 else strncmp n s t else (a.toNat : ℤ) - b.toNat := rfl

/-- The end of a string counts as a NUL. -/
theorem strncmp_nil_right (n : ℕ) (s : List UInt8) : strncmp n s [] = strncmp n s [0] := by
  cases n with
  | zero => rfl
  | succ n => rfl

theorem strncmp_nil_left (n : ℕ) (s : List UInt8) : strncmp n [] s = strncmp n [0] s := by
  cases n with
  | zero => rfl
  | succ n => rfl

/-- Short strings compare equal only when they are equal. -/
theorem strncmp_eq_zero {n : ℕ} {s t : List UInt8} (hs : (0 : UInt8) ∉ s) (ht : (0 : UInt8) ∉ t)
    (hn : s.length < n) : strncmp n s t = 0 ↔ s = t := by
  induction n generalizing s t with
  | zero => exact absurd hn (Nat.not_lt_zero _)
  | succ n ih =>
    have hsub : ∀ a b : UInt8, a ≠ b → (a.toNat : ℤ) - b.toNat ≠ 0 := by
      intro a b hab h
      exact hab (UInt8.toNat_inj.mp (by omega))
    cases s with
    | nil =>
      cases t with
      | nil => simp [strncmp]
      | cons b t =>
        have hb : 0 ≠ b := fun h => ht (h ▸ List.mem_cons_self ..)
        rw [strncmp_nil_left, strncmp_cons, if_neg hb]
        exact iff_of_false (hsub _ _ hb) (List.cons_ne_nil b t).symm
    | cons a s =>
      have ha : a ≠ 0 := fun h => hs (h ▸ List.mem_cons_self ..)
      have hs' : (0 : UInt8) ∉ s := fun h => hs (List.mem_cons_of_mem _ h)
      cases t with
      | nil =>
        rw [strncmp_nil_right, strncmp_cons, if_neg ha]
        exact iff_of_false (hsub _ _ ha) (List.cons_ne_nil a s)
      | cons b t =>
        have ht' : (0 : UInt8) ∉ t := fun h => ht (List.mem_cons_of_mem _ h)
        rw [strncmp_cons, List.cons.injEq]
        by_cases hab : a = b
        · rw [if_pos hab, if_neg ha, ih hs' ht' (by simpa using hn)]
          exact (and_iff_right hab).symm
        · rw [if_neg hab]
          exact iff_of_false (hsub _ _ hab) fun h => hab h.1

/-- A string compares equal on the length of another when it begins with it. -/
theorem strncmp_length_eq_zero {m : List UInt8} (hm : (0 : UInt8) ∉ m) (s : List UInt8) :
    strncmp m.length s m = 0 ↔ m <+: s := by
  induction m generalizing s with
  | nil => exact iff_of_true rfl List.nil_prefix
  | cons b m ih =>
    have hb : b ≠ 0 := fun h => hm (h ▸ List.mem_cons_self ..)
    have hm' : (0 : UInt8) ∉ m := fun h => hm (List.mem_cons_of_mem _ h)
    have hsub : ∀ a : UInt8, a ≠ b → (a.toNat : ℤ) - b.toNat ≠ 0 := by
      intro a hab h
      exact hab (UInt8.toNat_inj.mp (by omega))
    cases s with
    | nil =>
      rw [strncmp_nil_left, List.length_cons, strncmp_cons, if_neg (Ne.symm hb)]
      exact iff_of_false (hsub _ (Ne.symm hb)) (by simp)
    | cons a s =>
      rw [List.length_cons, strncmp_cons, List.cons_prefix_cons]
      by_cases hab : a = b
      · rw [if_pos hab, hab, if_neg hb, ih hm']
        exact (and_iff_right rfl).symm
      · rw [if_neg hab]
        exact iff_of_false (hsub _ hab) fun h => hab h.1.symm

/-- `strncpy`: the first `n` bytes of the string, filled up with NULs. -/
def strncpy (dst : List UInt8) (src : CString) (n : ℕ) : List UInt8 :=
  (src.val ++ List.replicate n 0).take n ++ dst.drop n

theorem length_strncpy {dst : List UInt8} (src : CString) {n : ℕ} (h : n ≤ dst.length) :
    (strncpy dst src n).length = dst.length := by
  simp only [strncpy, List.length_append, List.length_take, List.length_replicate, List.length_drop]
  omega

/-- A string with room for its terminator is copied whole. -/
theorem cstr_strncpy (dst : List UInt8) {src : CString} {n : ℕ} (h : src.len < n) :
    cstr (strncpy dst src n) = .ok src.val := by
  have hlen : src.val.length < n := h
  obtain ⟨k, hk⟩ : ∃ k, n - src.val.length = k + 1 := ⟨n - src.val.length - 1, by omega⟩
  have e : (src.val ++ List.replicate n (0 : UInt8)).take n =
      src.bytes ++ List.replicate k 0 := by
    rw [List.take_append, List.take_of_length_le (by omega), hk, List.take_replicate,
      show min (k + 1) n = k + 1 by omega, List.replicate_succ, CString.bytes, List.append_assoc]
    rfl
  rw [strncpy, e, List.append_assoc]
  exact cstr_append src _

/-- `strncmp` sees of a string in memory only the string. -/
theorem strncmp_of_cstr {mem s : List UInt8} (h : cstr mem = .ok s) (n : ℕ) (a : List UInt8) :
    strncmp n a mem = strncmp n a s := by
  induction n generalizing a mem s with
  | zero => rfl
  | succ n ih =>
    cases mem with
    | nil => cases h
    | cons b bs =>
      simp only [cstr] at h
      by_cases hb : b = 0
      · rw [if_pos hb] at h
        cases h
        subst hb
        -- both stop here, at a difference or at the NUL
        by_cases h0 : a.headD 0 = 0
        · rw [strncmp, if_pos (by exact h0), if_pos h0, strncmp, if_pos (by exact h0), if_pos h0]
        · rw [strncmp, if_neg (by exact h0), strncmp, if_neg (by exact h0)]
          rfl
      · rw [if_neg hb] at h
        cases hc : cstr bs with
        | error e => rw [hc] at h; cases h
        | ok s' =>
          rw [hc] at h
          cases h
          simp only [strncmp, List.headD_cons, List.tail_cons, ih hc]
          rfl

theorem strncmp_self (n : ℕ) (s : List UInt8) : strncmp n s s = 0 := by
  induction n generalizing s with
  | zero => rfl
  | succ n ih =>
    rw [strncmp, if_pos rfl]
    by_cases h0 : s.headD 0 = 0
    · rw [if_pos h0]
    · rw [if_neg h0]
      exact ih _

/-- The comparison passes over a common beginning. -/
theorem strncmp_append {p : List UInt8} (hp : (0 : UInt8) ∉ p) (n : ℕ) (s t : List UInt8) :
    strncmp (p.length + n) (p ++ s) (p ++ t) = strncmp n s t := by
  induction p with
  | nil => rw [List.length_nil, Nat.zero_add, List.nil_append, List.nil_append]
  | cons b p ih =>
    have hb : b ≠ 0 := fun h => hp (h ▸ List.mem_cons_self ..)
    have hp' : (0 : UInt8) ∉ p := fun h => hp (List.mem_cons_of_mem _ h)
    rw [List.length_cons, Nat.add_right_comm, List.cons_append, List.cons_append, strncmp_cons,
      if_pos rfl, if_neg hb, ih hp']

theorem headD_drop (s : List UInt8) (n : ℕ) : (s.drop n).headD 0 = s.getD n 0 := by
  rw [List.headD_eq_head?_getD, List.head?_drop, List.getD_eq_getElem?_getD]

/-- **A string compares equal to its bounded copy** when there was room for its NUL, or when the byte
after the copy happens to be its next one. -/
theorem strncmp_strncpy (dst : List UInt8) (src : CString) (n : ℕ) :
    strncmp (n + 1) src.val (strncpy dst src n) = 0 ↔
      src.len < n ∨ dst.getD n 0 = src.val.getD n 0 := by
  by_cases hlt : src.len < n
  · rw [strncmp_of_cstr (cstr_strncpy dst hlt), strncmp_self]
    exact iff_of_true rfl (Or.inl hlt)
  · have hlen : n ≤ src.val.length := Nat.le_of_not_lt hlt
    have hcopy : strncpy dst src n = src.val.take n ++ dst.drop n := by
      rw [strncpy, List.take_append_of_le_length hlen]
    have htake : (0 : UInt8) ∉ src.val.take n := fun h => src.property (List.mem_of_mem_take h)
    have hsplit := strncmp_append htake 1 (src.val.drop n) (dst.drop n)
    rw [List.take_append_drop, List.length_take, Nat.min_eq_left hlen, ← hcopy] at hsplit
    rw [hsplit, or_iff_right hlt, strncmp, headD_drop, headD_drop]
    by_cases heq : src.val.getD n 0 = dst.getD n 0
    · rw [if_pos heq]
      refine iff_of_true ?_ heq.symm
      split
      · rfl
      · rfl
    · rw [if_neg heq]
      refine iff_of_false (fun h => heq ?_) (Ne.symm heq)
      exact UInt8.toNat_inj.mp (by omega)

end CcUtils.Lib
