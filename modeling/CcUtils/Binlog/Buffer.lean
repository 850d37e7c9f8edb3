import CcUtils.Binlog.Agree
import CcUtils.Binlog.Cut

/-!
# The buffer of the writer

`binlog_print` fills `tbinlog`, at first an array of 1024 bytes on the stack. The `print_*` functions of
the values and `print_end` make room before they store; `print_begin` does not, and the header holds the
function's name.

To tell the stores into the buffer from what else may end a run (`do_valog` may leave its format), each
call that stores is run with assertions around it: that no store goes out of bounds, and that the bytes
stored before are where they were. No function here has an assertion of its own that can fail.

## What is proved

* `binlogPrintAsserted_agrees` — where the header fits, the assertions change nothing.
* `storesInBounds_iff` — all stores are in bounds exactly when the header fits the stack buffer, whatever
  the format and its arguments.
-/

namespace CcUtils.Binlog

open CcUtils.Lib

/-! ### Calls with assertions -/

/-- A call that appends `n` bytes to `tb`, with assertions: it does not store out of bounds, no size
overflows while the record is below 2^30 bytes, and its result is `good`. -/
def asserting {α : Type} (tb : TsdBinlog) (n : ℕ) (good : α → Prop) [DecidablePred good] :
    Exec α → Exec α
  | .ok a => if good a then .ok a else .error .assertFail
  | .error e =>
    .error (if e = .outOfBounds ∨ e = .overflow ∧ tb.offset + n < 2 ^ 30 then .assertFail else e)

/-- The buffer after a call: its size is `tbinlog.size`, all that was stored lies in it, and what was
stored before the call is where it was. -/
def TsdBinlog.Keeps (tb tb' : TsdBinlog) : Prop :=
  tb'.size = tb'.buf.length ∧ tb.offset ≤ tb'.offset ∧ tb'.offset ≤ tb'.size ∧
    tb'.buf.take tb.offset = tb.buf.take tb.offset

instance (tb tb' : TsdBinlog) : Decidable (tb.Keeps tb') :=
  inferInstanceAs (Decidable (_ ∧ _ ∧ _ ∧ _))

/-- The record handed to `write`: what was stored, with the length in its place, and the end mark. -/
def TsdBinlog.Closes (tb : TsdBinlog) (valogLen : ℕ) (bs : List UInt8) : Prop :=
  bs = tb.buf.take 1 ++ le 4 valogLen ++ (tb.buf.take tb.offset).drop 5 ++ [blogEnd]

instance (tb : TsdBinlog) (valogLen : ℕ) : DecidablePred (tb.Closes valogLen) :=
  fun _ => inferInstanceAs (Decidable (_ = _))

/-- `tbinlog` as `binlog_print` sets it up. -/
def stackBuffer (stack : ℕ → UInt8) : TsdBinlog :=
  ⟨malloc stack binlogStackSize, binlogStackSize, 0⟩

/-- A `print_*` function of a value with assertions. -/
def printValueAsserted (heap : Heap) (tb : TsdBinlog) (v : Value) : Exec (TsdBinlog × ℕ) :=
  asserting tb v.bytes.length (fun r => tb.Keeps r.1) (printValue heap tb v)

/-- The end of `binlog_print`, from the return of `do_valog` on. -/
def finish (heap : Heap) (c : Call) (tb : TsdBinlog) (vaLength : ℕ) : Exec (List UInt8) := do
  check (vaLength + c.size + 1 + 1 < 2 ^ 31) .overflow
  printEnd heap tb (vaLength + c.size + 1 + 1)

/-- `binlog_print` with assertions around each call that stores. -/
def binlogPrintAsserted (heap : Heap) (stack : ℕ → UInt8) (c : Call) (format : CString)
    (args : List Value) : Exec (List UInt8) := do
  check (c.size = c.lead.length) .assertFail
  let tb ← asserting (stackBuffer stack) (1 + c.size) (stackBuffer stack).Keeps
    (printBegin (stackBuffer stack) c.lead)
  let s ← doValog (printValueAsserted heap) format args tb
  asserting s.sink 1 (s.sink.Closes (s.totalPrinted + c.size + 1 + 1))
    (finish heap c s.sink s.totalPrinted)

/-- Whatever the stack and the heap hold, each store of the call lies in the buffer, and each move of
the buffer keeps what was stored. -/
def StoresInBounds (c : Call) (format : CString) (args : List Value) : Prop :=
  ∀ heap stack, binlogPrintAsserted heap stack c format args ≠ .error .assertFail

/-! ### The assertions hold -/

/-- A call whose assertions hold is the call itself. -/
theorem asserting_agrees {α : Type} {tb : TsdBinlog} {n : ℕ} {good Q : α → Prop} [DecidablePred good]
    {x : Exec α} (hok : ∀ a, x = .ok a → good a ∧ Q a)
    (herr : ∀ e, x = .error e → e = .overflow ∧ 2 ^ 30 ≤ tb.offset + n) :
    Agrees .assertFail (asserting tb n good x) x Q := by
  cases x with
  | ok a =>
    obtain ⟨hgood, hQ⟩ := hok a rfl
    rw [asserting, if_pos hgood]
    exact .refl (.ok hQ)
  | error e =>
    obtain ⟨rfl, hlarge⟩ := herr e rfl
    have hnone : ¬ ((Fault.overflow : Fault) = .outOfBounds ∨
        (Fault.overflow : Fault) = .overflow ∧ tb.offset + n < 2 ^ 30) := by
      rintro (h | ⟨-, h⟩)
      · cases h
      · omega
    rw [asserting, if_neg hnone]
    exact .refl (.error _ nofun)

/-- What the buffer holds, it keeps while more is appended. -/
theorem TsdBinlog.Holds.keeps {tb tb' : TsdBinlog} {w v : List UInt8} (h : tb.Holds w)
    (h' : tb'.Holds (w ++ v)) : tb.Keeps tb' := by
  have hlen := @List.length_append _ w v
  have hw : Wrote tb'.buf w := (List.prefix_append w v).trans h'.wrote
  refine ⟨h'.size, ?_, ?_, ?_⟩
  · rw [h.offset, h'.offset]
    omega
  · rw [h'.offset, h'.size]
    exact h'.wrote.length_le
  · rw [h.offset, hw.take, h.wrote.take]

/-- The same when the record is too long for the sizes. -/
theorem TsdBinlog.Holds.printValue_error {tb : TsdBinlog} {w : List UInt8} (h : tb.Holds w)
    {heap : Heap} {v : Value} {e : Fault} (herr : Binlog.printValue heap tb v = .error e) :
    e = .overflow ∧ 2 ^ 30 ≤ tb.offset + v.bytes.length := by
  constructor
  · rw [printValue_eq] at herr
    cases hroom : binlogMaybeRealloc heap tb (1 + v.body.length) with
    | ok tb₁ =>
      obtain ⟨tb', hok⟩ := @printTagged_room tb tb₁ w h heap v.kind.tag v.body hroom
      rw [hok] at herr
      cases herr
    | error f =>
      rw [Binlog.printTagged, hroom] at herr
      rw [← Except.error.inj herr]
      exact h.maybeRealloc_error hroom
  · rw [h.offset]
    by_contra hsmall
    obtain ⟨tb', hok, -⟩ := h.printValue heap v (by omega)
    rw [hok] at herr
    cases herr

theorem printValueAsserted_agrees (heap : Heap) (tb : TsdBinlog) (v : Value) (h : ∃ w, tb.Holds w) :
    Agrees .assertFail (printValueAsserted heap tb v) (printValue heap tb v) fun r =>
      ∃ w, r.1.Holds w := by
  obtain ⟨w, h⟩ := h
  refine asserting_agrees (fun r hok => ?_) fun e herr => h.printValue_error herr
  have h' := (h.of_printValue hok).1
  exact ⟨h.keeps h', _, h'⟩

/-! ### `do_valog` with two sinks -/

section sinks

variable {σ : Type} {put put' : Sink σ} {I : σ → Prop}

/-- The two sinks do the same in each state that keeps the invariant, without a failed assertion. -/
def SinksAgree (put put' : Sink σ) (I : σ → Prop) : Prop :=
  ∀ x v, I x → Agrees .assertFail (put x v) (put' x v) fun r => I r.1

theorem SinksAgree.printBintype (h : SinksAgree put put' I) (k : Kind) {s : Valog σ} (hs : I s.sink) :
    Agrees .assertFail (s.printBintype put k) (s.printBintype put' k) fun s' => I s'.sink := by
  unfold Valog.printBintype
  cases s.ap with
  | nil => exact .refl (.error _ nofun)
  | cons v ap =>
    refine Agrees.bind (.refl (Within.check_other nofun)) fun _ _ => ?_
    exact (h s.sink v hs).bind fun r hr => .refl (.ok hr)

theorem SinksAgree.width (h : SinksAgree put put' I) {s : Valog σ} (hs : I s.sink) :
    Agrees .assertFail (s.width put) (s.width put') fun s' => I s'.sink := by
  refine .step (peek_within (by decide) _) fun c => ?_
  split
  · exact h.printBintype .int hs
  · exact .step (scan_within (by decide) _ _) fun _ => .refl (.ok hs)

theorem SinksAgree.precision (h : SinksAgree put put' I) {s : Valog σ} (hs : I s.sink) :
    Agrees .assertFail (s.precision put) (s.precision put') fun s' => I s'.sink := by
  refine .step (peek_within (by decide) _) fun c => ?_
  split
  · refine .step (peek_within (by decide) _) fun c => ?_
    split
    · refine (h.printBintype .int (s := { s with ptr := s.ptr.tail }) hs).bind fun s' hs' => ?_
      exact .refl (.ok hs')
    · exact .step (scan_within (by decide) _ _) fun _ => .refl (.ok hs)
  · exact .refl (.ok hs)

theorem SinksAgree.conversion (h : SinksAgree put put' I) {s : Valog σ} (hs : I s.sink) :
    Agrees .assertFail (s.conversion put) (s.conversion put') fun s' => I s'.sink := by
  refine .step (scanLengths_within (by decide) (by decide) _) fun r => ?_
  refine .step (peek_within (by decide) _) fun c => ?_
  refine Agrees.bind (.refl (convKind_within (by decide) _ _)) fun k _ => ?_
  cases k with
  | none => exact .refl (.ok hs)
  | some k => exact h.printBintype k (s := { s with ptr := r.2 }) hs

theorem SinksAgree.specification (h : SinksAgree put put' I) {s : Valog σ} (hs : I s.sink) :
    Agrees .assertFail (s.specification put) (s.specification put') fun s' => I s'.sink := by
  refine .step (scan_within (by decide) _ _) fun r => ?_
  refine (h.width (s := { s with ptr := r.2 }) hs).bind fun s₁ hs₁ => ?_
  exact (h.precision hs₁).bind fun s₂ hs₂ => h.conversion hs₂

/-- `do_valog` does the same with both. -/
theorem SinksAgree.doValog (h : SinksAgree put put' I) (format : CString) (args : List Value) {x : σ}
    (hx : I x) :
    Agrees .assertFail (doValog put format args x) (doValog put' format args x) fun s => I s.sink := by
  have hloop : ∀ fuel (s : Valog σ), I s.sink →
      Agrees .assertFail (Valog.loop put fuel s) (Valog.loop put' fuel s) fun s => I s.sink := by
    intro fuel
    induction fuel with
    | zero => exact fun _ _ => .refl (.error _ nofun)
    | succ fuel ih =>
      intro s hs
      refine .step (peek_within (by decide) _) fun c => ?_
      split
      · exact .refl (.ok hs)
      · split
        · exact ih { s with ptr := s.ptr.tail } hs
        · exact (h.specification (s := { s with ptr := s.ptr.tail }) hs).bind ih
  exact hloop _ ⟨format.bytes, args, x, 0, []⟩ hx

end sinks

/-! ### The whole call -/

/-- The header that fits is stored in bounds. -/
theorem printBegin_agrees (stack : ℕ → UInt8) {c : Call} (hfit : 1 + c.size ≤ binlogStackSize) :
    Agrees .assertFail
      (asserting (stackBuffer stack) (1 + c.size) (stackBuffer stack).Keeps
        (printBegin (stackBuffer stack) c.lead))
      (printBegin (stackBuffer stack) c.lead) fun tb => tb.Holds ([blogBegin] ++ c.lead) := by
  obtain ⟨tb, hbegin, h⟩ := printBegin_holds stack c hfit
  have hsize : (stackBuffer stack).size = (stackBuffer stack).buf.length := by
    rw [stackBuffer, length_malloc]
  have hstart : (stackBuffer stack).Holds [] := ⟨List.nil_prefix, rfl, hsize, le_rfl⟩
  refine asserting_agrees (fun tb' hok => ?_) fun e herr => ?_
  · obtain rfl := Except.ok.inj (hbegin.symm.trans hok)
    exact ⟨hstart.keeps h, h⟩
  · cases (show Except.ok tb = Except.error e from hbegin.symm.trans herr)

/-- `print_end` has no fault but an overflow, and that only for long records. -/
theorem TsdBinlog.Holds.printEnd_error {tb : TsdBinlog} {b : UInt8} {old rest : List UInt8}
    (h : tb.Holds ([b] ++ (old ++ rest))) (hold : old.length = 4) {heap : Heap} {n : ℕ} {e : Fault}
    (herr : printEnd heap tb n = .error e) : e = .overflow ∧ 2 ^ 30 ≤ tb.offset + 1 := by
  cases hroom : binlogMaybeRealloc heap tb 1 with
  | ok tb₁ =>
    have hend := printEnd_eq hroom h hold n
    rw [hend] at herr
    cases herr
  | error f =>
    rw [printEnd, hroom] at herr
    obtain rfl := Except.error.inj herr
    refine ⟨h.maybeRealloc_error hroom, ?_⟩
    by_contra hsmall
    obtain ⟨tb₁, hok⟩ := h.maybeRealloc heap (n := 1) (by rw [← h.offset]; omega)
    rw [hok] at hroom
    cases hroom

/-- What `print_end` hands to `write` is what was stored, closed. -/
theorem TsdBinlog.Holds.closes {tb : TsdBinlog} {b : UInt8} {old rest : List UInt8}
    (h : tb.Holds ([b] ++ (old ++ rest))) (hold : old.length = 4) {heap : Heap} {n : ℕ} {bs : List UInt8}
    (hok : printEnd heap tb n = .ok bs) : tb.Closes n bs := by
  obtain ⟨tb₁, hroom, -⟩ := bind_eq_ok.mp hok
  have hend := printEnd_eq hroom h hold n
  have htake := h.wrote.take
  rw [← h.offset] at htake
  have hfirst : tb.buf.take 1 = [b] := by
    have hone : (tb.buf.take tb.offset).take 1 = [b] := by
      rw [htake]
      rfl
    have hoffset : 1 ≤ tb.offset := by
      rw [h.offset, List.length_append, List.length_singleton]
      omega
    rwa [List.take_take, Nat.min_eq_left hoffset] at hone
  have hrest : (tb.buf.take tb.offset).drop 5 = rest := by
    have hlen : 5 = ([b] ++ old).length := by
      rw [List.length_append, hold]
      rfl
    rw [htake, ← List.append_assoc, hlen, List.drop_left]
  rw [Closes, ← Except.ok.inj (hend.symm.trans hok), hfirst, hrest]
  simp only [List.append_assoc, List.cons_append, List.nil_append]

/-- The end of the record is stored in bounds, whatever values are before it. -/
theorem finish_agrees (heap : Heap) {c : Call} {tb : TsdBinlog} {vs : List Value}
    (h : tb.Holds ([blogBegin] ++ c.lead ++ bytesOf vs)) :
    Agrees .assertFail
      (asserting tb 1 (tb.Closes ((bytesOf vs).length + c.size + 1 + 1))
        (finish heap c tb (bytesOf vs).length))
      (finish heap c tb (bytesOf vs).length) fun _ => True := by
  have hoffset : tb.offset = 1 + c.size + (bytesOf vs).length := by
    rw [h.offset, List.length_append, List.length_append, c.length_lead, List.length_singleton]
  rw [c.begin_append] at h
  refine asserting_agrees (fun bs hok => ⟨?_, True.intro⟩) fun e herr => ?_
  · obtain ⟨_, -, hok⟩ := bind_eq_ok.mp hok
    exact h.closes (length_le 4 0) hok
  · rw [finish] at herr
    by_cases h31 : (bytesOf vs).length + c.size + 1 + 1 < 2 ^ 31
    · rw [check_true h31, ok_bind] at herr
      exact h.printEnd_error (length_le 4 0) herr
    · rw [check_false h31, error_bind] at herr
      refine ⟨(Except.error.inj herr).symm, ?_⟩
      omega

/-- Where the header fits, the assertions change nothing, and none fails. -/
theorem binlogPrintAsserted_agrees (heap : Heap) (stack : ℕ → UInt8) {c : Call}
    (hfit : 1 + c.size ≤ binlogStackSize) (format : CString) (args : List Value) :
    Agrees .assertFail (binlogPrintAsserted heap stack c format args)
      (binlogPrint heap stack c (doValogRecord heap format args)) fun _ => True := by
  have hsinks : SinksAgree (printValueAsserted heap) (printValue heap) fun tb => ∃ w, tb.Holds w :=
    printValueAsserted_agrees heap
  have hsize : c.size = c.lead.length := c.length_lead.symm
  rw [binlogPrintAsserted, binlogPrint, check_true hsize, ok_bind, ok_bind]
  refine (printBegin_agrees stack hfit).bind fun tb h => ?_
  have hvalog := hsinks.doValog format args ⟨_, h⟩
  rw [hvalog.eq, doValogRecord]
  cases hs : doValog (printValue heap) format args tb with
  | error e => 
    refine .refl (.error _ fun he => hvalog.within.fault ?_)
    rw [hvalog.eq, hs, he]
  | ok s =>
    obtain ⟨vs, h', htotal⟩ := h.of_doValog hs
    have hfinish := finish_agrees heap h'
    rw [← htotal] at hfinish
    exact hfinish

/-- A header that does not fit is stored out of bounds. -/
theorem printBegin_error {stack : ℕ → UInt8} {c : Call} (hfit : ¬ 1 + c.size ≤ binlogStackSize) :
    printBegin (stackBuffer stack) c.lead = .error .outOfBounds := by
  have hlen : (stackBuffer stack).buf.length = binlogStackSize := by
    rw [stackBuffer, length_malloc]
  have hone : (stackBuffer stack).offset + [blogBegin].length ≤ (stackBuffer stack).buf.length := by
    rw [hlen, List.length_singleton, stackBuffer, binlogStackSize]
    exact Nat.le_of_ble_eq_true rfl
  have hstart : Wrote (stackBuffer stack).buf [] := List.nil_prefix
  obtain ⟨buf, hs, hl, -⟩ := hstart.store (stackBuffer stack).offset [blogBegin] rfl hone
  have hmany : ¬ (stackBuffer stack).offset + 1 + c.lead.length ≤ buf.length := by
    rw [hl, hlen, c.length_lead]
    exact hfit
  rw [printBegin, hs, ok_bind, store, if_neg hmany]
  rfl

theorem binlogPrintAsserted_unfit (heap : Heap) (stack : ℕ → UInt8) {c : Call}
    (hfit : ¬ 1 + c.size ≤ binlogStackSize) (format : CString) (args : List Value) :
    binlogPrintAsserted heap stack c format args = .error .assertFail := by
  have hsize : c.size = c.lead.length := c.length_lead.symm
  rw [binlogPrintAsserted, check_true hsize, ok_bind, printBegin_error hfit]
  rfl

/-- All stores of a call are in bounds, and each move of the buffer keeps what was stored, exactly when
the header and the byte in front of it fit the buffer on the stack: a function name of at most 997
characters. The format and the arguments do not matter, nor what the stack and the heap hold. -/
theorem storesInBounds_iff (c : Call) (format : CString) (args : List Value) :
    StoresInBounds c format args ↔ 1 + c.size ≤ binlogStackSize := by
  constructor
  · intro h
    by_contra hfit
    exact h (fun _ _ => 0) (fun _ => 0) (binlogPrintAsserted_unfit _ _ hfit format args)
  · intro hfit heap stack h
    exact (binlogPrintAsserted_agrees heap stack hfit format args).within.fault h

/-- A call from a function whose name has 1000 characters. -/
def longCall : Call :=
  ⟨3, ⟨List.replicate 1000 97, fun h => by cases List.eq_of_mem_replicate h⟩, 0, 0, 0⟩

/-- Its header is stored beyond the stack buffer, whatever is logged: here the empty format. -/
theorem not_storesInBounds_long : ¬ StoresInBounds longCall ⟨[], nofun⟩ [] := by
  have hlen : longCall.func.len = 1000 := List.length_replicate
  have hfit : ¬ 1 + longCall.size ≤ binlogStackSize := by
    rw [longCall.size_eq, hlen, binlogStackSize]
    decide
  intro h
  exact h (fun _ _ => 0) (fun _ => 0) (binlogPrintAsserted_unfit _ _ hfit _ [])

end CcUtils.Binlog
