import CcUtils.Lib.Rules
import Mathlib.Data.PNat.Defs

/-!
# Reading and writing on a descriptor

`safe_read` and `safe_write` of `cli_server.c`. The server writes its answer with `safe_write` and the
client its request; both read with `safe_read`, one byte at a time.

What `write` does is given call by call. A call that fails returns -1; one that was interrupted is not
an end of the loop, and its -1 goes on into `len -= res` and `b += res`. The calls are recorded with
their pointer, as an offset from `buf`, and their length.

## What is proved

* `good_safeWrite_iff` — what a run does, from any point of the transfer on.
* `delivers_iff_good` — and what that says of the descriptor.
* `safeWrite_delivers_iff` — `safe_write` delivers the buffer exactly when no call is interrupted
  before its end.
* `safeRead_received` — `safe_read` brings the bytes of the connection, up to the first error.
* `Serves.safeRead_nil`, `Serves.safeRead_cons` — it takes interruptions in its stride.
-/

namespace CcUtils.Cli

open CcUtils.Lib

/-! ### The calls of `write` -/

/-- `EINTR`. -/
def eIntr : ℕ+ := 4

/-- What a call of `write` does. -/
inductive WriteResult
  /-- The descriptor takes as many bytes, or all if they are fewer. -/
  | takes (n : ℕ)
  /-- It fails with this `errno`. -/
  | fails (errno : ℕ+)
  deriving DecidableEq

/-- What it returns, given the length. -/
def WriteResult.res (len : ℤ) : WriteResult → ℤ
  | .takes n => min n len.toNat
  | .fails _ => -1

/-- The error that `safe_write` returns. -/
def WriteResult.fatal : WriteResult → Option ℕ+
  | .takes _ => none
  | .fails errno => if errno ≠ eIntr then some errno else none

/-- A call of `write` as it was made. -/
structure WriteCall where
  /-- The pointer, from `buf` on. -/
  b : ℤ
  /-- The length. -/
  len : ℤ
  /-- How many bytes were taken. -/
  taken : ℕ
  deriving DecidableEq

/-- A run of `safe_write`. -/
structure WriteRun where
  /-- The calls of `write`, in order. -/
  calls : List WriteCall
  /-- How it ends, if it does. -/
  exit : Option (Exec ℤ)

/-- What it returns; when it waits in a call of `write`, the results of the calls are used up. -/
def WriteRun.ret (run : WriteRun) : Exec ℤ := run.exit.getD (.error .outOfFuel)

/-- A run that goes on after a call. -/
def WriteRun.after (call : WriteCall) (run : WriteRun) : WriteRun :=
  ⟨call :: run.calls, run.exit⟩

/-- The largest `int`. -/
def intMax : ℤ := 2 ^ 31 - 1

/-- The loop of `safe_write`, `b` being counted from `buf` on. When no result is left, `write` has been
called and has not returned. -/
def safeWrite (b len : ℤ) : List WriteResult → WriteRun
  | [] => ⟨[⟨b, len, 0⟩], none⟩
  | r :: results =>
    let res := r.res len
    let call : WriteCall := ⟨b, len, res.toNat⟩
    match r.fatal with
    | some err => ⟨[call], some (.ok (err : ℕ))⟩
    | none =>
      -- a call that was interrupted comes here too, with -1
      if intMax < len - res then ⟨[call], some (.error .overflow)⟩
      else if len - res ≤ 0 then ⟨[call], some (.ok 0)⟩
      else (safeWrite (b + res) (len - res) results).after call

/-! ### Delivery -/

/-- The bytes of memory from `buf + b` on. -/
def span (mem : ℤ → UInt8) (b : ℤ) (n : ℕ) : List UInt8 := (List.range n).map fun i : ℕ => mem (b + i)

@[simp] theorem length_span (mem : ℤ → UInt8) (b : ℤ) (n : ℕ) : (span mem b n).length = n := by
  simp [span]

theorem span_add (mem : ℤ → UInt8) (b : ℤ) (m n : ℕ) :
    span mem b (m + n) = span mem b m ++ span mem (b + m) n := by
  simp only [span, List.range_add, List.map_append, List.map_map]
  congr 1
  refine List.map_congr_left fun i _ => ?_
  simp only [Function.comp, Nat.cast_add, add_assoc]

/-- Memory with some bytes from a pointer on; `outside` is the rest. -/
def bytesAt (bs : List UInt8) (outside : ℤ → UInt8) (i : ℤ) : UInt8 :=
  if 0 ≤ i then bs.getD i.toNat (outside i) else outside i

theorem span_bytesAt {bs : List UInt8} (outside : ℤ → UInt8) {n : ℕ} (h : n ≤ bs.length) :
    span (bytesAt bs outside) 0 n = bs.take n := by
  apply List.ext_getElem
  · rw [length_span, List.length_take, Nat.min_eq_left h]
  · intro i hi hi'
    rw [length_span] at hi
    have hget : bs[i]? = some (bs.get ⟨i, by omega⟩) := List.getElem?_eq_getElem (by omega)
    simp [span, bytesAt, hget]

/-- The bytes the descriptor has taken. -/
def accepted (mem : ℤ → UInt8) (calls : List WriteCall) : List UInt8 :=
  calls.flatMap fun c => span mem c.b c.taken

/-- The run delivers the `len` bytes of the buffer: when it returns 0, they were taken in order, each
once, and every call was for bytes of the buffer, from the first on that was not taken. -/
structure Delivers (mem : ℤ → UInt8) (len : ℕ) (run : WriteRun) : Prop where
  all : run.exit = some (.ok 0) → accepted mem run.calls = span mem 0 len
  part : ∀ (pre : List WriteCall) (c : WriteCall) post, run.calls = pre ++ c :: post →
    c.b = (accepted mem pre).length ∧ 0 ≤ c.len ∧ c.b + c.len ≤ len
  noFault : ∀ e, run.exit ≠ some (.error e)

/-- How many bytes the calls take. -/
def total (calls : List WriteCall) : ℕ := (calls.map WriteCall.taken).sum

theorem length_accepted (mem : ℤ → UInt8) (calls : List WriteCall) :
    (accepted mem calls).length = total calls := by
  induction calls with
  | nil => rfl
  | cons c calls ih =>
    rw [accepted, List.flatMap_cons, List.length_append, length_span, ← accepted, ih, total, total,
      List.map_cons, List.sum_cons]

/-- Every call is for bytes before `stop`, from the first on that was not taken. -/
def InStep (stop : ℕ) : ℕ → List WriteCall → Prop
  | _, [] => True
  | b, c :: calls =>
    (c.b = b ∧ 0 ≤ c.len ∧ c.b + c.len ≤ stop) ∧ InStep stop (b + c.taken) calls

/-- The rest of a run, from the byte `b` of the buffer on, does what it should. -/
structure Good (stop b : ℕ) (run : WriteRun) : Prop where
  inStep : InStep stop b run.calls
  all : run.exit = some (.ok 0) → b + total run.calls = stop
  noFault : ∀ e, run.exit ≠ some (.error e)

theorem inStep_iff {stop b : ℕ} {calls : List WriteCall} :
    InStep stop b calls ↔ ∀ (pre : List WriteCall) (c : WriteCall) post, calls = pre ++ c :: post →
      c.b = (b + total pre : ℕ) ∧ 0 ≤ c.len ∧ c.b + c.len ≤ stop := by
  induction calls generalizing b with
  | nil => simp [InStep]
  | cons d calls ih =>
    have hnil : b + total [] = b := rfl
    have hcons : ∀ pre, b + total (d :: pre) = b + d.taken + total pre := by
      intro pre
      rw [total, List.map_cons, List.sum_cons, ← total, Nat.add_assoc]
    rw [InStep, ih, forall_split_cons, hnil]
    simp only [hcons]

/-- Calls in step take the bytes in order. -/
theorem accepted_of_inStep (mem : ℤ → UInt8) {stop b : ℕ} {calls : List WriteCall}
    (h : InStep stop b calls) : accepted mem calls = span mem b (total calls) := by
  induction calls generalizing b with
  | nil => rfl
  | cons c calls ih =>
    obtain ⟨⟨hb, -⟩, h⟩ := h
    have ht : total (c :: calls) = c.taken + total calls := rfl
    rw [accepted, List.flatMap_cons, ← accepted, ih h, ht, span_add, hb, Nat.cast_add]

theorem delivers_iff_good (mem : ℤ → UInt8) (len : ℕ) (run : WriteRun) :
    Delivers mem len run ↔ Good len 0 run := by
  have hstep : InStep len 0 run.calls ↔ ∀ (pre : List WriteCall) (c : WriteCall) post, run.calls = pre ++ c :: post →
      c.b = (accepted mem pre).length ∧ 0 ≤ c.len ∧ c.b + c.len ≤ len := by
    rw [inStep_iff]
    simp only [length_accepted, Nat.zero_add]
  constructor
  · rintro ⟨hall, hpart, hf⟩
    refine ⟨hstep.mpr hpart, fun h => ?_, hf⟩
    rw [Nat.zero_add, ← length_accepted mem, hall h, length_span]
  · rintro ⟨hin, hall, hf⟩
    refine ⟨fun h => ?_, hstep.mp hin, hf⟩
    have htot : total run.calls = len := by simpa using hall h
    rw [accepted_of_inStep mem hin, htot, Nat.cast_zero]

/-! ### Interruptions -/

/-- How many bytes the descriptor would take. -/
def offered (results : List WriteResult) : ℕ :=
  (results.map fun | .takes n => n | .fails _ => 0).sum

/-- With these results of `write`, the transfer of `len` bytes is over: the descriptor took them, or
there was an error. -/
def Over (len : ℕ) (results : List WriteResult) : Prop :=
  results ≠ [] ∧ len ≤ offered results ∨ ∃ e, e ≠ eIntr ∧ .fails e ∈ results

/-- No call is interrupted before the transfer of `len` bytes is over. -/
def Undisturbed (len : ℕ) (results : List WriteResult) : Prop :=
  ∀ pre post, results = pre ++ .fails eIntr :: post → Over len pre

theorem undisturbed_nil (len : ℕ) : Undisturbed len [] := by
  intro pre post h
  simp at h

theorem undisturbed_iff {len : ℕ} {results : List WriteResult} :
    Undisturbed len results ↔
      ∀ pre r post, results = pre ++ r :: post → r = .fails eIntr → Over len pre := by
  constructor
  · rintro h pre _ post hsplit rfl
    exact h pre post hsplit
  · intro h pre post hsplit
    exact h pre _ post hsplit rfl

theorem undisturbed_cons {len : ℕ} {r : WriteResult} {results : List WriteResult} :
    Undisturbed len (r :: results) ↔ r ≠ .fails eIntr ∧
      ∀ pre r' post, results = pre ++ r' :: post → r' = .fails eIntr → Over len (r :: pre) := by
  have hnil : ¬ Over len [] := by simp [Over]
  rw [undisturbed_iff, forall_split_cons]
  exact and_congr_left fun _ => imp_congr_right fun _ => iff_false_intro hnil

theorem undisturbed_fails {len : ℕ} {e : ℕ+} {results : List WriteResult} :
    Undisturbed len (.fails e :: results) ↔ e ≠ eIntr := by
  rw [undisturbed_cons]
  constructor
  · rintro ⟨he, -⟩ rfl
    exact he rfl
  · intro he
    refine ⟨fun h => he (WriteResult.fails.inj h), fun pre r' post _ _ => ?_⟩
    exact Or.inr ⟨e, he, List.mem_cons_self ..⟩

theorem undisturbed_takes {len n : ℕ} {results : List WriteResult} :
    Undisturbed len (.takes n :: results) ↔ len ≤ n ∨ Undisturbed (len - n) results := by
  have hoffered : ∀ pre, offered (.takes n :: pre) = n + offered pre := fun _ => rfl
  rw [undisturbed_cons, undisturbed_iff, and_iff_right nofun]
  rcases Nat.lt_or_ge n len with hn | hn
  · rw [or_iff_right (by omega)]
    refine forall₃_congr fun pre r' post => imp_congr_right fun _ => imp_congr_right fun _ => ?_
    have hne : len - n ≤ offered pre → pre ≠ [] := by
      rintro h rfl
      have : offered [] = 0 := rfl
      omega
    simp only [Over, hoffered, List.mem_cons, reduceCtorEq, false_or, ne_eq, not_false_eq_true,
      true_and]
    exact or_congr ⟨fun h => ⟨hne (by omega), by omega⟩, fun h => by omega⟩ Iff.rfl
  · refine iff_of_true (fun pre r' post _ _ => Or.inl ⟨List.cons_ne_nil _ _, ?_⟩) (Or.inl hn)
    rw [hoffered]
    exact le_trans hn (Nat.le_add_right ..)

/-! ### The loop -/

/-- A call for all that is left is in step. -/
theorem call_inStep {stop b len : ℕ} (hb : b + len = stop) (taken : ℕ) :
    let c : WriteCall := ⟨b, len, taken⟩
    c.b = b ∧ 0 ≤ c.len ∧ c.b + c.len ≤ stop := by
  refine ⟨rfl, Int.natCast_nonneg len, ?_⟩
  rw [← hb, Nat.cast_add]

theorem Good.singleton {stop b len taken : ℕ} {exit : Option (Exec ℤ)} (hb : b + len = stop)
    (h0 : exit = some (.ok 0) → taken = len) (hf : ∀ e, exit ≠ some (.error e)) :
    Good stop b ⟨[⟨b, len, taken⟩], exit⟩ :=
  ⟨⟨call_inStep hb taken, trivial⟩, fun h => by simp [total, h0 h, hb], hf⟩

theorem good_after {stop b len taken : ℕ} {run : WriteRun} (hb : b + len = stop) :
    Good stop b (run.after ⟨b, len, taken⟩) ↔ Good stop (b + taken) run := by
  have ht : total (run.after ⟨b, len, taken⟩).calls = taken + total run.calls := rfl
  constructor
  · rintro ⟨⟨-, hin⟩, hall, hf⟩
    exact ⟨hin, fun h => by have := hall h; omega, hf⟩
  · rintro ⟨hin, hall, hf⟩
    exact ⟨⟨call_inStep hb taken, hin⟩, fun h => by have := hall h; omega, hf⟩

/-- The first call is for what is left. -/
theorem safeWrite_calls (b len : ℤ) (results : List WriteResult) :
    ∃ taken calls, (safeWrite b len results).calls = ⟨b, len, taken⟩ :: calls := by
  cases results with
  | nil => exact ⟨_, _, rfl⟩
  | cons r results =>
    simp only [safeWrite]
    split
    · exact ⟨_, _, rfl⟩
    · split_ifs <;> exact ⟨_, _, rfl⟩

/-- After an interruption the next call is for a byte that is not the next one. -/
theorem not_good_interrupted {stop b len : ℕ} (results : List WriteResult) :
    ¬ Good stop b (safeWrite b len (.fails eIntr :: results)) := by
  rintro ⟨hin, -, hf⟩
  have hnone : (WriteResult.fails eIntr).fatal = none := rfl
  have hres : (WriteResult.fails eIntr).res len = -1 := rfl
  simp only [safeWrite, hnone, hres] at hin hf
  by_cases hbig : intMax < (len : ℤ) - -1
  · rw [if_pos hbig] at hf
    exact hf _ rfl
  · rw [if_neg hbig, if_neg (by omega)] at hin
    obtain ⟨taken, calls, hcalls⟩ := safeWrite_calls (b + -1) (len - -1) results
    obtain ⟨-, hin⟩ := hin
    rw [hcalls] at hin
    obtain ⟨⟨hb, -⟩, -⟩ := hin
    simp at hb

/-- **From any point of the transfer on**, the loop does what it should exactly when no call is
interrupted before the end. -/
theorem good_safeWrite_iff {stop b len : ℕ} (hb : b + len = stop) (hlen : (len : ℤ) ≤ intMax)
    (results : List WriteResult) :
    Good stop b (safeWrite b len results) ↔ Undisturbed len results := by
  induction results generalizing b len with
  | nil => exact iff_of_true (.singleton hb nofun nofun) (undisturbed_nil len)
  | cons r results ih =>
    cases r with
    | fails e =>
      rw [undisturbed_fails]
      constructor
      · rintro h rfl
        exact not_good_interrupted results h
      · intro he
        have hfatal : (WriteResult.fails e).fatal = some e := if_pos he
        simp only [safeWrite, hfatal]
        refine .singleton hb (fun h => ?_) nofun
        simp at h
    | takes n =>
      have hres : (WriteResult.takes n).res len = (min n len : ℕ) := by
        rw [WriteResult.res, Int.toNat_natCast]
        omega
      have hfatal : (WriteResult.takes n).fatal = none := rfl
      have hfits : ¬ intMax < (len : ℤ) - (min n len : ℕ) := by omega
      simp only [safeWrite, hfatal, hres, if_neg hfits, Int.toNat_natCast]
      rw [undisturbed_takes]
      rcases Nat.lt_or_ge n len with hn | hn
      · have hmin : min n len = n := Nat.min_eq_left hn.le
        have hsub : (len : ℤ) - n = (len - n : ℕ) := by omega
        rw [hmin, if_neg (by omega), good_after hb, or_iff_right (by omega), hsub,
          ← ih (b := b + n) (by omega) (by omega), Nat.cast_add]
      · have hmin : min n len = len := Nat.min_eq_right hn
        rw [hmin, if_pos (by omega)]
        exact iff_of_true (.singleton hb (fun _ => rfl) nofun) (Or.inl hn)

/-- **`safe_write` delivers the buffer** exactly when no call of `write` is interrupted before the
transfer is over. -/
theorem safeWrite_delivers_iff (mem : ℤ → UInt8) {len : ℕ} (hlen : (len : ℤ) ≤ intMax)
    (results : List WriteResult) :
    Delivers mem len (safeWrite 0 len results) ↔ Undisturbed len results := by
  rw [delivers_iff_good]
  exact good_safeWrite_iff (b := 0) (Nat.zero_add len) hlen results

/-- A short write, and then the rest. -/
theorem safeWrite_delivers_iff_short :
    Delivers (fun _ => 7) 3 (safeWrite 0 (3 : ℕ) [.takes 1, .takes 2]) ↔
      Undisturbed 3 [.takes 1, .takes 2] :=
  safeWrite_delivers_iff (fun _ => 7) (by decide) [.takes 1, .takes 2]

/-- The byte `7`, with a byte `9` before the buffer: interrupted once, `safe_write` returns 0 when the
descriptor has taken both. -/
theorem not_delivers_interrupted :
    (safeWrite 0 (1 : ℕ) [.fails eIntr, .takes 2]).exit = some (.ok 0) ∧
      accepted (fun i => if i = -1 then 9 else 7)
        (safeWrite 0 (1 : ℕ) [.fails eIntr, .takes 2]).calls = [9, 7] ∧
      ¬ Delivers (fun i => if i = -1 then 9 else 7) 1
        (safeWrite 0 (1 : ℕ) [.fails eIntr, .takes 2]) := by
  refine ⟨by rfl, by decide, fun h => ?_⟩
  have hall := h.all (by rfl)
  revert hall
  decide

/-! ### Reading a byte -/

/-- What a call of `read` for one byte does, before the end of the file. -/
inductive ReadResult
  /-- It reads the byte. -/
  | byte (b : UInt8)
  /-- It fails with this `errno`. -/
  | fails (errno : ℕ+)

/-- `safe_read` of one byte: what it returns, the byte if there is one, and the calls to come. When no
result is left, the file is at its end. -/
def safeRead : List ReadResult → ℤ × Option UInt8 × List ReadResult
  | [] => (0, none, [])
  | .byte b :: conn => (1, some b, conn)
  | .fails errno :: conn =>
    if errno = eIntr then safeRead conn else (-(errno : ℕ), none, conn)

/-- The bytes that reads bring, up to the first error. -/
def received : List ReadResult → List UInt8
  | [] => []
  | .byte b :: conn => b :: received conn
  | .fails errno :: conn => if errno = eIntr then received conn else []

theorem received_map_byte (bs : List UInt8) : received (bs.map .byte) = bs := by
  induction bs with
  | nil => rfl
  | cons b bs ih => exact congrArg (b :: ·) ih

theorem safeRead_received (conn : List ReadResult) :
    (received conn = [] ∧ ∃ ret conn', safeRead conn = (ret, none, conn')) ∨
      ∃ b conn', received conn = b :: received conn' ∧ safeRead conn = (1, some b, conn') := by
  induction conn with
  | nil => exact .inl ⟨rfl, 0, [], rfl⟩
  | cons r conn ih =>
    cases r with
    | byte b => exact .inr ⟨b, conn, rfl, rfl⟩
    | fails errno =>
      by_cases he : errno = eIntr
      · rw [received, if_pos he, safeRead, if_pos he]
        exact ih
      · rw [received, if_neg he, safeRead, if_neg he]
        exact .inl ⟨rfl, _, _, rfl⟩

/-- The calls of `read` bring the bytes `r` and then the end of the file, with interruptions. -/
inductive Serves : List ReadResult → List UInt8 → Prop
  /-- The end of the file. -/
  | nil : Serves [] []
  /-- An interruption. -/
  | interrupted {conn : List ReadResult} {r : List UInt8} :
    Serves conn r → Serves (.fails eIntr :: conn) r
  /-- A byte. -/
  | byte {conn : List ReadResult} {r : List UInt8} (b : UInt8) :
    Serves conn r → Serves (.byte b :: conn) (b :: r)

theorem Serves.safeRead_nil {conn : List ReadResult} {r : List UInt8} (h : Serves conn r)
    (hr : r = []) : safeRead conn = (0, none, []) := by
  induction h with
  | nil => rfl
  | interrupted _ ih => exact ih hr
  | byte b _ _ => cases hr

theorem Serves.safeRead_cons {conn : List ReadResult} {r s : List UInt8} {b : UInt8}
    (h : Serves conn r) (hr : r = b :: s) :
    ∃ conn', safeRead conn = (1, some b, conn') ∧ Serves conn' s := by
  induction h with
  | nil => cases hr
  | interrupted _ ih => exact ih hr
  | byte c h _ =>
    obtain ⟨rfl, rfl⟩ := List.cons.inj hr
    exact ⟨_, rfl, h⟩

end CcUtils.Cli
