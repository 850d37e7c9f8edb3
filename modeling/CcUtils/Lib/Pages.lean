import CcUtils.Lib.Rules
import Mathlib.Logic.Function.Basic

/-!
# Memory in pages

A library for code that changes what pages of its memory can be used for. Addresses are words of 64 bits
and pages have 4096 bytes; what the system answers to a change of protection comes from outside.

## What is proved

* `pageOf_add` — which bytes after an address are in its page.
* `writeAll_eq` — a copy writes its bytes, or meets a page that is not writable.
* `put_get`, `put_off`, `put_eq` — what memory has after a copy, and when it has what it had.
* `owned_put` — a copy stays in the pages that were opened.
-/

namespace CcUtils.Lib

/-- The number of the page of an address. -/
def pageOf (a : BitVec 64) : BitVec 64 := a >>> 12

/-- The bytes after `a` that are still in its page. -/
theorem pageOf_add {a : BitVec 64} {i : ℕ} (hi : i < 4096) :
    pageOf (a + BitVec.ofNat 64 i) = pageOf a ↔ a.toNat % 4096 + i < 4096 := by
  have ha := a.isLt
  rw [← BitVec.toNat_inj, pageOf, pageOf, BitVec.toNat_ushiftRight, BitVec.toNat_ushiftRight,
    BitVec.toNat_add, BitVec.toNat_ofNat, Nat.shiftRight_eq_div_pow, Nat.shiftRight_eq_div_pow]
  omega

/-- What a page can be used for. -/
structure Prot where
  read : Bool
  write : Bool
  exec : Bool
  deriving DecidableEq

/-- What is done to the pages. -/
inductive PageEvent where
  | protect (page : BitVec 64) (prot : Prot)
  | write (a : BitVec 64)

/-- Memory, the protection of its pages, the answers to come, and what was done, the last first. -/
structure Paged where
  mem : BitVec 64 → UInt8
  prot : BitVec 64 → Prot
  answers : ℕ → Int32
  log : List PageEvent

/-- A page is open if its last protection lets one write. -/
def opened (page : BitVec 64) : List PageEvent → Bool
  | [] => false
  | .protect page' prot :: log => if page' = page then prot.write else opened page log
  | .write _ :: log => opened page log

/-- Every byte was written to a page that was open. -/
def Owned : List PageEvent → Prop
  | [] => True
  | .protect _ _ :: log => Owned log
  | .write a :: log => opened (pageOf a) log = true ∧ Owned log

namespace Paged

/-- Nothing was done yet. -/
def start (c : Paged) : Paged := { c with log := [] }

/-- The answers that come after the first. -/
def shift (c : Paged) : Paged := { c with answers := fun i => c.answers (i + 1) }

/-- A page has another protection. -/
def grant (c : Paged) (page : BitVec 64) (prot : Prot) : Paged :=
  { c with prot := Function.update c.prot page prot, log := .protect page prot :: c.log }

/-- `mprotect` of one page: if the answer is 0, it has the protection, else nothing changes. -/
def mprotect (c : Paged) (page : BitVec 64) (prot : Prot) : Paged × Int32 :=
  (if c.answers 0 = 0 then c.shift.grant page prot else c.shift, c.answers 0)

/-- The pages of `n` bytes from `a` on allow a use. -/
def Allows (c : Paged) (use : Prot → Bool) (a : BitVec 64) (n : ℕ) : Prop :=
  ∀ i < n, use (c.prot (pageOf (a + BitVec.ofNat 64 i))) = true

instance (c : Paged) (use : Prot → Bool) (a : BitVec 64) (n : ℕ) : Decidable (c.Allows use a n) :=
  inferInstanceAs (Decidable (∀ i < n, _ = true))

/-- Read `n` bytes from `a` on. -/
def readAll (c : Paged) (a : BitVec 64) (n : ℕ) : Exec (Vector UInt8 n) :=
  if c.Allows Prot.read a n then .ok (.ofFn fun i => c.mem (a + BitVec.ofNat 64 i))
  else .error .outOfBounds

/-- Memory with `b` at `a`. -/
def put1 (c : Paged) (a : BitVec 64) (b : UInt8) : Paged :=
  { c with mem := Function.update c.mem a b, log := .write a :: c.log }

/-- Write a byte. -/
def write (c : Paged) (a : BitVec 64) (b : UInt8) : Exec Paged :=
  if (c.prot (pageOf a)).write = true then .ok (c.put1 a b) else .error .outOfBounds

/-- Write bytes from `a` on. -/
def writeAll (c : Paged) (a : BitVec 64) : List UInt8 → Exec Paged
  | [] => .ok c
  | b :: bs => do
    let c ← c.write a b
    c.writeAll (a + 1) bs

/-- Memory with bytes from `a` on. -/
def put (c : Paged) (a : BitVec 64) : List UInt8 → Paged
  | [] => c
  | b :: bs => (c.put1 a b).put (a + 1) bs

/-- The bytes are at `a`. -/
def Holds (c : Paged) (a : BitVec 64) (bs : List UInt8) : Prop :=
  ∀ i b, bs[i]? = some b → c.mem (a + BitVec.ofNat 64 i) = b

section put

variable {c : Paged} {a x : BitVec 64} {b : UInt8} {bs : List UInt8} {i n : ℕ}

/-- The next address, and one after it. -/
theorem next_add (a : BitVec 64) (i : ℕ) :
    a + 1 + BitVec.ofNat 64 i = a + BitVec.ofNat 64 (i + 1) := by
  rw [BitVec.ofNat_add, BitVec.add_assoc, BitVec.add_comm (1 : BitVec 64)]
  rfl

theorem allows_succ {use : Prot → Bool} :
    c.Allows use a (n + 1) ↔ use (c.prot (pageOf a)) = true ∧ c.Allows use (a + 1) n := by
  simp only [Allows, next_add]
  rw [Nat.forall_lt_succ_left]
  simp

@[simp] theorem mem_mprotect {page : BitVec 64} {prot : Prot} : (c.mprotect page prot).1.mem = c.mem := by
  unfold mprotect
  split <;> rfl

@[simp] theorem prot_grant {page : BitVec 64} {prot : Prot} :
    (c.grant page prot).prot = Function.update c.prot page prot := rfl

@[simp] theorem mem_put1 : (c.put1 a b).mem = Function.update c.mem a b := rfl

@[simp] theorem log_put1 : (c.put1 a b).log = .write a :: c.log := rfl

@[simp] theorem answers_put : (c.put a bs).answers = c.answers := by
  induction bs generalizing c a with
  | nil => rfl
  | cons b bs ih => exact ih

theorem writeAll_eq (h : c.Allows Prot.write a bs.length) : c.writeAll a bs = .ok (c.put a bs) := by
  induction bs generalizing c a with
  | nil => rfl
  | cons b bs ih =>
    obtain ⟨hb, hbs⟩ := allows_succ.mp h
    rw [writeAll, write, if_pos hb, ok_bind]
    exact ih hbs

theorem writeAll_error (h : ¬ c.Allows Prot.write a bs.length) : c.writeAll a bs = .error .outOfBounds := by
  induction bs generalizing c a with
  | nil => exact absurd (fun i hi => absurd hi (Nat.not_lt_zero i)) h
  | cons b bs ih =>
    rw [List.length_cons, allows_succ, not_and] at h
    rw [writeAll, write]
    split
    · rename_i hb
      rw [ok_bind]
      exact ih (h hb)
    · rfl

/-- Elsewhere nothing changes. -/
theorem put_off (hx : ∀ i < bs.length, x ≠ a + BitVec.ofNat 64 i) : (c.put a bs).mem x = c.mem x := by
  induction bs generalizing c a with
  | nil => rfl
  | cons b bs ih =>
    rw [List.length_cons, Nat.forall_lt_succ_left] at hx
    obtain ⟨hx0, hx⟩ := hx
    rw [put, ih fun i hi => by rw [next_add]; exact hx i hi, mem_put1]
    apply Function.update_of_ne
    simpa using hx0

theorem put_get (hlen : bs.length < 2 ^ 64) : (c.put a bs).Holds a bs := by
  induction bs generalizing c a with
  | nil => exact nofun
  | cons b bs ih =>
    rw [List.length_cons] at hlen
    rintro (_ | i) b' hb
    · obtain rfl := Option.some.inj hb
      rw [put, put_off]
      · simp
      · intro i hi heq
        rw [next_add] at heq
        have hnat := congrArg BitVec.toNat heq
        have ha := a.isLt
        rw [BitVec.toNat_add, BitVec.toNat_add, BitVec.toNat_ofNat, BitVec.toNat_ofNat] at hnat
        omega
    · rw [← next_add]
      exact ih (by omega) i b' hb

/-- Bytes that are written where memory differed from `m` bring `m` back. -/
theorem put_eq {m : BitVec 64 → UInt8} (hbs : ∀ i b, bs[i]? = some b → b = m (a + BitVec.ofNat 64 i))
    (hoff : ∀ x, (∀ i < bs.length, x ≠ a + BitVec.ofNat 64 i) → c.mem x = m x) :
    (c.put a bs).mem = m := by
  induction bs generalizing c a with
  | nil => exact funext fun x => hoff x (fun i hi => absurd hi (Nat.not_lt_zero i))
  | cons b bs ih =>
    apply ih
    · intro i b' hb
      rw [next_add]
      exact hbs (i + 1) b' hb
    · intro x hx
      rw [mem_put1]
      by_cases heq : x = a
      · subst heq
        rw [Function.update_self, hbs 0 b rfl]
        simp
      · rw [Function.update_of_ne heq]
        apply hoff
        rw [List.length_cons, Nat.forall_lt_succ_left]
        refine ⟨by simpa using heq, fun i hi => ?_⟩
        rw [← next_add]
        exact hx i hi

/-- Memory is what it was if the bytes were there already. -/
theorem mem_put_iff (hlen : bs.length < 2 ^ 64) : (c.put a bs).mem = c.mem ↔ c.Holds a bs := by
  constructor
  · intro h i b hb
    have hget := put_get (c := c) (a := a) hlen i b hb
    rw [h] at hget
    exact hget
  · exact fun h => put_eq (fun i b hb => (h i b hb).symm) fun x _ => rfl

theorem owned_put : Owned (c.put a bs).log ↔
    Owned c.log ∧ ∀ i < bs.length, opened (pageOf (a + BitVec.ofNat 64 i)) c.log = true := by
  induction bs generalizing c a with
  | nil => simp [put]
  | cons b bs ih =>
    rw [put, ih, List.length_cons, Nat.forall_lt_succ_left]
    simp only [log_put1, Owned, opened, next_add]
    rw [and_assoc, and_left_comm]
    simp

end put

end Paged

end CcUtils.Lib
