import CcUtils.Lib.Memory

/-!
# Binary log records

The records of `binlog.c` and how `binlog_parser.c` reads one: the growing thread-local buffer
`tbinlog` with the `print_*` functions that append to it, the frame that `binlog_print` puts around
the values, the header fields that `binlog_prase` reads, and the `get_*` functions that read the
values back.

A `double` is its eight bytes, a pointer its address. What the stack, `malloc` and `realloc` leave in
a buffer is arbitrary; within one record no two allocations have the same size, so it is given by
the size.

## What is proved

* `TsdBinlog.Holds.maybeRealloc` — however the buffer moves, it keeps what was written.
* `binlogPrint_bytes` — a call of `binlog_print` hands exactly its record to `write`.
* `binlogPrint_roundTrip` — the record reads back.
-/

namespace CcUtils.Binlog

open CcUtils.Lib

/-! ### Values -/

/-- The types of values, `BLOG_INT` to `BLOG_POINTER`. -/
inductive Kind where
  | int
  | long
  | double
  | string
  | pointer
  deriving DecidableEq

/-- A value of one of the types. -/
inductive Value where
  | int (v : BitVec 32)
  | long (v : BitVec 64)
  | double (v : BitVec 64)
  | string (s : CString)
  | pointer (v : BitVec 64)
  deriving DecidableEq

/-- The tag of a type. -/
def Kind.tag : Kind → UInt8
  | .int => 0
  | .long => 1
  | .double => 2
  | .string => 3
  | .pointer => 4

/-- `BLOG_BEGIN`. -/
def blogBegin : UInt8 := 0xfd

/-- `BLOG_END`. -/
def blogEnd : UInt8 := 0xff

/-- The type of a value. -/
def Value.kind : Value → Kind
  | .int _ => .int
  | .long _ => .long
  | .double _ => .double
  | .string _ => .string
  | .pointer _ => .pointer

/-- A value in memory, without its tag. -/
def Value.body : Value → List UInt8
  | .int v => leBv 4 v
  | .long v => leBv 8 v
  | .double v => leBv 8 v
  | .string s => s.bytes
  | .pointer v => leBv 8 v

/-- A value in a record. -/
def Value.bytes (v : Value) : List UInt8 := v.kind.tag :: v.body

/-- Values in a record, one after another. -/
def bytesOf (vs : List Value) : List UInt8 := vs.flatMap Value.bytes

@[simp] theorem bytesOf_nil : bytesOf [] = [] := rfl

@[simp] theorem bytesOf_cons (v : Value) (vs : List Value) :
    bytesOf (v :: vs) = v.bytes ++ bytesOf vs := rfl

@[simp] theorem bytesOf_append (vs ws : List Value) :
    bytesOf (vs ++ ws) = bytesOf vs ++ bytesOf ws := List.flatMap_append

/-! ### The buffer -/

/-- `BINLOG_STACK_SIZE`. -/
def binlogStackSize : ℕ := 1024

/-- `tsd_binlog_t`. -/
structure TsdBinlog where
  buf : List UInt8
  size : ℕ
  offset : ℕ

/-- What `malloc` and `realloc` leave in a block of a given size. -/
abbrev Heap := ℕ → ℕ → UInt8

/-- `binlog_maybe_realloc`; `1 / BINLOG_STACK_SIZE` is 0. -/
def binlogMaybeRealloc (heap : Heap) (tb : TsdBinlog) (size : ℕ) : Exec TsdBinlog := do
  check (tb.offset + size < 2 ^ 31) .overflow
  if tb.offset + size > tb.size then do
    check (tb.offset + size + binlogStackSize < 2 ^ 31) .overflow
    if tb.size = binlogStackSize then do
      let allocSize := max (2 * binlogStackSize) (tb.offset + size + binlogStackSize)
      let old ← load tb.buf 0 binlogStackSize
      let buf ← store (malloc (heap allocSize) allocSize) 0 old
      .ok ⟨buf, allocSize, tb.offset⟩
    else do
      check (2 * tb.size < 2 ^ 31) .overflow
      let allocSize := max (2 * tb.size) (tb.offset + size + binlogStackSize)
      .ok ⟨realloc (heap allocSize) tb.buf allocSize, allocSize, tb.offset⟩
  else .ok tb

/-- What the `print_*` functions of the five types do: make room, append the tag, append the
value. The result is the number of bytes. -/
def printTagged (heap : Heap) (tb : TsdBinlog) (tag : UInt8) (body : List UInt8) :
    Exec (TsdBinlog × ℕ) := do
  let result := 1 + body.length
  let tb ← binlogMaybeRealloc heap tb result
  let buf ← store tb.buf tb.offset [tag]
  let buf ← store buf (tb.offset + 1) body
  .ok (⟨buf, tb.size, tb.offset + 1 + body.length⟩, result)

/-- `print_int`. -/
def printInt (heap : Heap) (tb : TsdBinlog) (val : BitVec 32) : Exec (TsdBinlog × ℕ) :=
  printTagged heap tb Kind.int.tag (leBv 4 val)

/-- `print_long`. -/
def printLong (heap : Heap) (tb : TsdBinlog) (val : BitVec 64) : Exec (TsdBinlog × ℕ) :=
  printTagged heap tb Kind.long.tag (leBv 8 val)

/-- `print_double`. -/
def printDouble (heap : Heap) (tb : TsdBinlog) (val : BitVec 64) : Exec (TsdBinlog × ℕ) :=
  printTagged heap tb Kind.double.tag (leBv 8 val)

/-- `print_pointer`. -/
def printPointer (heap : Heap) (tb : TsdBinlog) (val : BitVec 64) : Exec (TsdBinlog × ℕ) :=
  printTagged heap tb Kind.pointer.tag (leBv 8 val)

/-- `print_string`; the terminator is copied with the string. -/
def printString (heap : Heap) (tb : TsdBinlog) (val : CString) : Exec (TsdBinlog × ℕ) :=
  printTagged heap tb Kind.string.tag val.bytes

/-- The `print_*` function of the value's type, as `PRINT_BINTYPE` chooses it. -/
def printValue (heap : Heap) (tb : TsdBinlog) : Value → Exec (TsdBinlog × ℕ)
  | .int v => printInt heap tb v
  | .long v => printLong heap tb v
  | .double v => printDouble heap tb v
  | .string s => printString heap tb s
  | .pointer v => printPointer heap tb v

/-- `print_begin`; it does not make room. -/
def printBegin (tb : TsdBinlog) (val : List UInt8) : Exec TsdBinlog := do
  let buf ← store tb.buf tb.offset [blogBegin]
  let buf ← store buf (tb.offset + 1) val
  .ok ⟨buf, tb.size, tb.offset + 1 + val.length⟩

/-- `print_end`: the length goes in behind the first byte, the end mark at the end. The result is
what is handed to `write`. -/
def printEnd (heap : Heap) (tb : TsdBinlog) (valogLen : ℕ) : Exec (List UInt8) := do
  let tb ← binlogMaybeRealloc heap tb 1
  let buf ← store tb.buf 1 (le 4 valogLen)
  let buf ← store buf tb.offset [blogEnd]
  load buf 0 (tb.offset + 1)

/-! ### A call of `binlog_print` -/

/-- The arguments of `binlog_print` that go into the header, with the thread and the time. -/
structure Call where
  level : BitVec 32
  func : CString
  line : BitVec 32
  thread : BitVec 64
  now : BitVec 64

/-- The header after the length: `(uint8_t)level`, the function, the line, the thread, the time. -/
def Call.head (c : Call) : List UInt8 :=
  UInt8.ofNat c.level.toNat ::
    (c.func.bytes ++ (leBv 4 c.line ++ (leBv 8 c.thread ++ leBv 8 c.now)))

/-- The array `prefix` of `binlog_print`, with 0 for the length. -/
def Call.lead (c : Call) : List UInt8 := le 4 0 ++ c.head

/-- The variable `size` of `binlog_print`. -/
def Call.size (c : Call) : ℕ := 4 + 1 + c.func.len + 1 + 4 + 8 + 8

/-- `binlog_print` with a handle that is not NULL; `valog` stands for the call of `do_valog`. -/
def binlogPrint (heap : Heap) (stack : ℕ → UInt8) (c : Call)
    (valog : TsdBinlog → Exec (TsdBinlog × ℕ)) : Exec (List UInt8) := do
  check (c.size = c.lead.length) .assertFail
  let tb ← printBegin ⟨malloc stack binlogStackSize, binlogStackSize, 0⟩ c.lead
  let (tb, vaLength) ← valog tb
  check (vaLength + c.size + 1 + 1 < 2 ^ 31) .overflow
  printEnd heap tb (vaLength + c.size + 1 + 1)

/-- Append values in order; the result is the sum of the results, as `do_valog` has it. -/
def printAll (heap : Heap) : TsdBinlog → List Value → Exec (TsdBinlog × ℕ)
  | tb, [] => .ok (tb, 0)
  | tb, v :: vs => do
    let (tb, result) ← printValue heap tb v
    let (tb, total) ← printAll heap tb vs
    .ok (tb, result + total)

/-- The record that a call and its values make. -/
def recordBytes (c : Call) (vs : List Value) : List UInt8 :=
  blogBegin :: (le 4 (c.size + (bytesOf vs).length + 2) ++ (c.head ++ (bytesOf vs ++ [blogEnd])))

/-! ### Reading -/

/-- `binlog_va_list`; `buf` is the memory from the record on. -/
structure VaList where
  len : ℤ
  off : ℕ
  buf : List UInt8

/-- An `int32_t` as C compares it with a `size_t`. -/
def sizeT (v : ℤ) : ℕ := if 0 ≤ v then v.toNat else (v + 2 ^ 64).toNat

/-- What the `get_*` functions of the fixed-width types do: check the end, check the tag, read. -/
def getWord (w n : ℕ) (vl : VaList) (tag : UInt8) : Exec (BitVec w × VaList) := do
  check (vl.off + 1 + n ≤ sizeT vl.len) .assertFail
  let t ← load vl.buf vl.off 1
  check (t = [tag]) .assertFail
  let bs ← load vl.buf (vl.off + 1) n
  .ok (BitVec.ofNat w (ofLe bs), { vl with off := vl.off + 1 + n })

/-- `get_int`. -/
def getInt (vl : VaList) : Exec (BitVec 32 × VaList) := getWord 32 4 vl Kind.int.tag

/-- `get_long`. -/
def getLong (vl : VaList) : Exec (BitVec 64 × VaList) := getWord 64 8 vl Kind.long.tag

/-- `get_double`. -/
def getDouble (vl : VaList) : Exec (BitVec 64 × VaList) := getWord 64 8 vl Kind.double.tag

/-- `get_pointer`. -/
def getPointer (vl : VaList) : Exec (BitVec 64 × VaList) := getWord 64 8 vl Kind.pointer.tag

/-- `get_string`; it looks for the terminator before it checks anything. -/
def getString (vl : VaList) : Exec (CString × VaList) := do
  let s ← cstring (vl.buf.drop (vl.off + 1))
  check ((vl.off + 1 + s.len + 1 : ℤ) ≤ vl.len) .assertFail
  let t ← load vl.buf vl.off 1
  check (t = [Kind.string.tag]) .assertFail
  .ok (s, { vl with off := vl.off + 1 + s.len + 1 })

/-- The `get_*` function of a type, as `binlog_va_arg` chooses it. -/
def getValue (vl : VaList) : Kind → Exec (Value × VaList)
  | .int => do
    let (v, vl) ← getInt vl
    .ok (.int v, vl)
  | .long => do
    let (v, vl) ← getLong vl
    .ok (.long v, vl)
  | .double => do
    let (v, vl) ← getDouble vl
    .ok (.double v, vl)
  | .string => do
    let (s, vl) ← getString vl
    .ok (.string s, vl)
  | .pointer => do
    let (v, vl) ← getPointer vl
    .ok (.pointer v, vl)

/-- Read values of the given types in order. -/
def getAll : VaList → List Kind → Exec (List Value × VaList)
  | vl, [] => .ok ([], vl)
  | vl, k :: ks => do
    let (v, vl) ← getValue vl k
    let (vs, vl) ← getAll vl ks
    .ok (v :: vs, vl)

/-- The header fields that `binlog_prase` reads after the length, and the offset of the values. -/
structure Header where
  level : UInt8
  func : CString
  line : BitVec 32
  thread : BitVec 64
  ts : BitVec 64
  off : ℕ

/-- The length field of the record at `buffer`. -/
def readLen (buffer : List UInt8) : Exec ℤ := do
  let bs ← load buffer 1 4
  .ok (BitVec.ofNat 32 (ofLe bs)).toInt

/-- The other fields of the record at `buffer`. -/
def readHeader (buffer : List UInt8) : Exec Header := do
  let level ← load buffer 5 1
  let func ← cstring (buffer.drop 6)
  let offset := 6 + func.len + 1
  let line ← load buffer offset 4
  let thread ← load buffer (offset + 4) 8
  let ts ← load buffer (offset + 12) 8
  .ok ⟨UInt8.ofNat (ofLe level), func, BitVec.ofNat 32 (ofLe line), BitVec.ofNat 64 (ofLe thread),
    BitVec.ofNat 64 (ofLe ts), offset + 20⟩

/-! ### Writing -/

/-- What was written so far is `w`, and the fields of the buffer say so. -/
structure TsdBinlog.Holds (tb : TsdBinlog) (w : List UInt8) : Prop where
  wrote : Wrote tb.buf w
  offset : tb.offset = w.length
  size : tb.size = tb.buf.length
  stack : binlogStackSize ≤ tb.size

/-- The copy from the stack to the heap. -/
theorem copy_stack (heap : Heap) {buf w : List UInt8} (h : Wrote buf w)
    (hl : buf.length = binlogStackSize) {n : ℕ} (hn : binlogStackSize ≤ n) :
    ∃ buf', load buf 0 binlogStackSize = .ok buf ∧
      store (malloc (heap n) n) 0 buf = .ok buf' ∧ buf'.length = n ∧ Wrote buf' w := by
  have hload : load buf 0 binlogStackSize = .ok buf := by
    rw [load_eq_ok, ← hl]
    simp
  have hroom : 0 + buf.length ≤ (malloc (heap n) n).length := by
    rw [length_malloc, hl, Nat.zero_add]
    exact hn
  obtain ⟨buf', hs, hl', hw⟩ := Wrote.store (List.nil_prefix : Wrote (malloc (heap n) n) []) 0 buf
    rfl hroom
  exact ⟨buf', hload, hs, hl'.trans (length_malloc _ n), List.IsPrefix.trans h hw⟩

/-- Making room succeeds while the sizes fit an `int32_t`. -/
theorem TsdBinlog.Holds.maybeRealloc {tb : TsdBinlog} {w : List UInt8} (h : tb.Holds w)
    (heap : Heap) {n : ℕ} (hn : w.length + n ≤ 2 ^ 30) :
    ∃ tb', binlogMaybeRealloc heap tb n = .ok tb' := by
  obtain ⟨hw, ho, hs, hstack⟩ := h
  have hstack' : binlogStackSize = 1024 := rfl
  have h31 : tb.offset + n < 2 ^ 31 := by omega
  unfold binlogMaybeRealloc
  rw [check_true h31, ok_bind]
  by_cases hgrow : tb.offset + n > tb.size
  · have h31' : tb.offset + n + binlogStackSize < 2 ^ 31 := by omega
    rw [if_pos hgrow, check_true h31', ok_bind]
    by_cases hsize : tb.size = binlogStackSize
    · rw [if_pos hsize]
      have hle : binlogStackSize ≤
          max (2 * binlogStackSize) (tb.offset + n + binlogStackSize) := by omega
      obtain ⟨buf', hload, hstore, -, -⟩ := copy_stack heap hw (hs ▸ hsize) hle
      simp only [hload, hstore, ok_bind]
      exact ⟨_, rfl⟩
    · have h31'' : 2 * tb.size < 2 ^ 31 := by omega
      rw [if_neg hsize, check_true h31'', ok_bind]
      exact ⟨_, rfl⟩
  · rw [if_neg hgrow]
    exact ⟨tb, rfl⟩

/-- However the buffer moves, it keeps what was written, and there is room afterwards. -/
theorem TsdBinlog.Holds.of_maybeRealloc {tb tb' : TsdBinlog} {w : List UInt8} (h : tb.Holds w)
    {heap : Heap} {n : ℕ} (hok : binlogMaybeRealloc heap tb n = .ok tb') :
    tb'.Holds w ∧ w.length + n ≤ tb'.buf.length := by
  obtain ⟨hw, ho, hs, hstack⟩ := h
  obtain ⟨-, -, hok⟩ := bind_eq_ok.mp hok
  split at hok
  case isTrue hgrow =>
    obtain ⟨-, -, hok⟩ := bind_eq_ok.mp hok
    split at hok
    case isTrue hsize =>
      have hle : binlogStackSize ≤
          max (2 * binlogStackSize) (tb.offset + n + binlogStackSize) := by omega
      obtain ⟨buf', hload, hstore, hl, hw'⟩ := copy_stack heap hw (hs ▸ hsize) hle
      simp only [hload, hstore, ok_bind, Except.ok.injEq] at hok
      subst hok
      refine ⟨⟨hw', ho, hl.symm, hle⟩, ?_⟩
      rw [hl]
      exact le_max_of_le_right (by omega)
    case isFalse hsize =>
      obtain ⟨-, -, hok⟩ := bind_eq_ok.mp hok
      cases hok
      have hle : tb.buf.length ≤ max (2 * tb.size) (tb.offset + n + binlogStackSize) := by omega
      refine ⟨⟨hw.realloc _ hle, ho, (length_realloc _ _ _).symm, le_trans hstack (hs ▸ hle)⟩, ?_⟩
      rw [length_realloc]
      exact le_max_of_le_right (by omega)
  case isFalse hgrow =>
    cases hok
    exact ⟨⟨hw, ho, hs, hstack⟩, by omega⟩

/-- A value that was appended stands at the end, and the result counts its bytes. -/
theorem TsdBinlog.Holds.of_printTagged {tb tb' : TsdBinlog} {w : List UInt8} (h : tb.Holds w)
    {heap : Heap} {tag : UInt8} {body : List UInt8} {r : ℕ}
    (hok : printTagged heap tb tag body = .ok (tb', r)) :
    tb'.Holds (w ++ tag :: body) ∧ r = 1 + body.length := by
  obtain ⟨tb₁, hroom, hok⟩ := bind_eq_ok.mp hok
  obtain ⟨buf₁, hs₁, hok⟩ := bind_eq_ok.mp hok
  obtain ⟨buf₂, hs₂, hok⟩ := bind_eq_ok.mp hok
  cases hok
  obtain ⟨⟨hw, ho, hs, hstack⟩, -⟩ := h.of_maybeRealloc hroom
  obtain ⟨hl₁, hw₁, -⟩ := hw.of_store ho hs₁
  have ho₁ : tb₁.offset + 1 = (w ++ [tag]).length := by rw [ho, List.length_append]; rfl
  obtain ⟨hl₂, hw₂, -⟩ := hw₁.of_store ho₁ hs₂
  rw [List.append_assoc, List.singleton_append] at hw₂
  refine ⟨⟨hw₂, ?_, hs.trans (hl₂.trans hl₁).symm, hstack⟩, rfl⟩
  rw [List.length_append, List.length_cons]
  simp only
  omega

/-- Making room has no fault but an overflow. -/
theorem TsdBinlog.Holds.maybeRealloc_error {tb : TsdBinlog} {w : List UInt8} (h : tb.Holds w)
    {heap : Heap} {n : ℕ} {e : Fault} (herr : binlogMaybeRealloc heap tb n = .error e) :
    e = .overflow := by
  have hcheck : ∀ {p : Prop} [Decidable p] {f : Unit → Exec TsdBinlog},
      (check p .overflow >>= f) = .error e → (p → f () = .error e → e = .overflow) → e = .overflow := by
    intro p _ f herr hf
    by_cases hp : p
    · rw [check_true hp] at herr
      exact hf hp herr
    · rw [check_false hp] at herr
      exact (Except.error.inj herr).symm
  refine hcheck herr fun _ herr => ?_
  split at herr
  case isTrue hgrow =>
    refine hcheck herr fun _ herr => ?_
    split at herr
    case isTrue hsize =>
      have hle : binlogStackSize ≤
          max (2 * binlogStackSize) (tb.offset + n + binlogStackSize) := by omega
      obtain ⟨buf', hload, hstore, -, -⟩ := copy_stack heap h.wrote (h.size ▸ hsize) hle
      simp only [hload, hstore, ok_bind] at herr
      cases herr
    case isFalse =>
      refine hcheck herr fun _ herr => ?_
      cases herr
  case isFalse => cases herr

/-- Where there is room, appending a value succeeds. -/
theorem TsdBinlog.Holds.printTagged_room {tb tb₁ : TsdBinlog} {w : List UInt8} (h : tb.Holds w)
    {heap : Heap} {tag : UInt8} {body : List UInt8}
    (hroom : binlogMaybeRealloc heap tb (1 + body.length) = .ok tb₁) :
    ∃ tb', Binlog.printTagged heap tb tag body = .ok (tb', 1 + body.length) := by
  obtain ⟨⟨hw, ho, hs, -⟩, hsize⟩ := h.of_maybeRealloc hroom
  have hr₁ : tb₁.offset + [tag].length ≤ tb₁.buf.length := by
    rw [List.length_singleton]
    omega
  obtain ⟨buf₁, hs₁, hl₁, hw₁⟩ := hw.store tb₁.offset [tag] ho hr₁
  have ho₁ : tb₁.offset + 1 = (w ++ [tag]).length := by rw [ho, List.length_append]; rfl
  obtain ⟨buf₂, hs₂, -, -⟩ := hw₁.store (tb₁.offset + 1) body ho₁ (by omega)
  refine ⟨⟨buf₂, tb₁.size, tb₁.offset + 1 + body.length⟩, ?_⟩
  simp only [Binlog.printTagged, hroom, hs₁, hs₂, ok_bind]

/-- Appending a value succeeds while the record is below 2^30 bytes. -/
theorem TsdBinlog.Holds.printTagged {tb : TsdBinlog} {w : List UInt8} (h : tb.Holds w)
    (heap : Heap) (tag : UInt8) (body : List UInt8) (hn : w.length + (1 + body.length) ≤ 2 ^ 30) :
    ∃ tb', printTagged heap tb tag body = .ok (tb', 1 + body.length) := by
  obtain ⟨tb₁, hroom⟩ := h.maybeRealloc heap hn
  exact h.printTagged_room hroom

theorem printValue_eq (heap : Heap) (tb : TsdBinlog) (v : Value) :
    printValue heap tb v = printTagged heap tb v.kind.tag v.body := by
  cases v <;> rfl

theorem Value.length_bytes (v : Value) : v.bytes.length = 1 + v.body.length := by
  rw [bytes, List.length_cons, Nat.add_comm]

theorem TsdBinlog.Holds.of_printValue {tb tb' : TsdBinlog} {w : List UInt8} (h : tb.Holds w)
    {heap : Heap} {v : Value} {r : ℕ} (hok : printValue heap tb v = .ok (tb', r)) :
    tb'.Holds (w ++ v.bytes) ∧ r = v.bytes.length := by
  rw [printValue_eq] at hok
  rw [v.length_bytes]
  exact h.of_printTagged hok

theorem TsdBinlog.Holds.printValue {tb : TsdBinlog} {w : List UInt8} (h : tb.Holds w)
    (heap : Heap) (v : Value) (hn : w.length + v.bytes.length ≤ 2 ^ 30) :
    ∃ tb', printValue heap tb v = .ok (tb', v.bytes.length) ∧ tb'.Holds (w ++ v.bytes) := by
  rw [v.length_bytes] at hn
  obtain ⟨tb', hok⟩ := h.printTagged heap v.kind.tag v.body hn
  rw [← printValue_eq, ← v.length_bytes] at hok
  exact ⟨tb', hok, (h.of_printValue hok).1⟩

/-- Appending values one after another. -/
theorem TsdBinlog.Holds.printAll {tb : TsdBinlog} {w : List UInt8} (h : tb.Holds w) (heap : Heap)
    (vs : List Value) (hn : w.length + (bytesOf vs).length ≤ 2 ^ 30) :
    ∃ tb', printAll heap tb vs = .ok (tb', (bytesOf vs).length) ∧ tb'.Holds (w ++ bytesOf vs) := by
  induction vs generalizing tb w with
  | nil => exact ⟨tb, rfl, by rwa [bytesOf_nil, List.append_nil]⟩
  | cons v vs ih =>
    rw [bytesOf_cons, List.length_append] at hn
    obtain ⟨tb₁, hv, h₁⟩ := h.printValue heap v (by omega)
    have hn₁ : (w ++ v.bytes).length + (bytesOf vs).length ≤ 2 ^ 30 := by
      rw [List.length_append]
      omega
    obtain ⟨tb₂, hvs, h₂⟩ := ih h₁ hn₁
    refine ⟨tb₂, ?_, ?_⟩
    · simp only [Binlog.printAll, hv, hvs, ok_bind, bytesOf_cons, List.length_append]
    · rwa [bytesOf_cons, ← List.append_assoc]

/-- What was appended when it succeeded. -/
theorem TsdBinlog.Holds.of_printAll {tb tb' : TsdBinlog} {w : List UInt8} (h : tb.Holds w)
    {heap : Heap} {vs : List Value} {r : ℕ} (hok : Binlog.printAll heap tb vs = .ok (tb', r)) :
    tb'.Holds (w ++ bytesOf vs) ∧ r = (bytesOf vs).length := by
  induction vs generalizing tb w r with
  | nil =>
    cases hok
    rw [bytesOf_nil, List.append_nil]
    exact ⟨h, rfl⟩
  | cons v vs ih =>
    obtain ⟨⟨tb₁, r₁⟩, hv, hok⟩ := bind_eq_ok.mp hok
    obtain ⟨⟨tb₂, r₂⟩, hvs, hok⟩ := bind_eq_ok.mp hok
    cases hok
    obtain ⟨h₁, rfl⟩ := h.of_printValue hv
    obtain ⟨h₂, rfl⟩ := ih h₁ hvs
    rw [bytesOf_cons, ← List.append_assoc, List.length_append]
    exact ⟨h₂, rfl⟩

/-! ### The frame -/

@[simp] theorem Call.length_head (c : Call) : c.head.length = c.func.len + 22 := by
  simp only [head, List.length_cons, List.length_append, CString.length_bytes, length_leBv]

theorem Call.size_eq (c : Call) : c.size = c.func.len + 26 := by
  simp only [size]
  omega

/-- What is stored of a record before its end, with the place of the length split off. -/
theorem Call.begin_append (c : Call) (bs : List UInt8) :
    [blogBegin] ++ c.lead ++ bs = [blogBegin] ++ (le 4 0 ++ (c.head ++ bs)) := by
  simp only [lead, List.append_assoc]

/-- The header is the first thing in the buffer, on the stack. -/
theorem printBegin_holds (stack : ℕ → UInt8) (c : Call) (hfit : 1 + c.size ≤ binlogStackSize) :
    ∃ tb, printBegin ⟨malloc stack binlogStackSize, binlogStackSize, 0⟩ c.lead = .ok tb ∧
      tb.Holds ([blogBegin] ++ c.lead) := by
  have hlead : c.lead.length = c.size := by
    rw [Call.lead, List.length_append, length_le, c.length_head, c.size_eq]
    omega
  have hlen : (malloc stack binlogStackSize).length = binlogStackSize := length_malloc _ _
  have h0 : Wrote (malloc stack binlogStackSize) [] := List.nil_prefix
  obtain ⟨buf₁, hs₁, hl₁, hw₁⟩ := h0.store 0 [blogBegin] rfl (by rw [hlen, List.length_singleton]; omega)
  obtain ⟨buf₂, hs₂, hl₂, hw₂⟩ := hw₁.store 1 c.lead rfl (by omega)
  refine ⟨⟨buf₂, binlogStackSize, 0 + 1 + c.lead.length⟩, ?_, hw₂, ?_, ?_, le_rfl⟩
  · simp only [printBegin, hs₁, ok_bind, Nat.zero_add, hs₂]
  · rw [List.length_append, List.length_singleton, Nat.zero_add]
  · exact (hl₂.trans (hl₁.trans hlen)).symm

/-- A header that was stored fits. -/
theorem length_of_printBegin {mem val : List UInt8} {n : ℕ} {tb : TsdBinlog}
    (hok : printBegin ⟨mem, n, 0⟩ val = .ok tb) : 1 + val.length ≤ mem.length := by
  obtain ⟨buf₁, hs₁, hok⟩ := bind_eq_ok.mp hok
  obtain ⟨buf₂, hs₂, -⟩ := bind_eq_ok.mp hok
  have h0 : Wrote mem [] := List.nil_prefix
  obtain ⟨hl₁, hw₁, -⟩ := h0.of_store rfl hs₁
  obtain ⟨-, -, hle⟩ := hw₁.of_store rfl hs₂
  rw [hl₁] at hle
  exact hle

/-- The end of a record: the length in its place, the end mark behind the values. -/
theorem printEnd_eq {heap : Heap} {tb tb₁ : TsdBinlog} {b : UInt8} {old rest : List UInt8}
    (hroom : binlogMaybeRealloc heap tb 1 = .ok tb₁) (h : tb.Holds ([b] ++ (old ++ rest)))
    (hold : old.length = 4) (n : ℕ) :
    printEnd heap tb n = .ok (b :: (le 4 n ++ (rest ++ [blogEnd]))) := by
  obtain ⟨⟨⟨post, hpost⟩, ho, -, -⟩, hlen⟩ := h.of_maybeRealloc hroom
  have hbuf : tb₁.buf = [b] ++ (old ++ (rest ++ post)) := by
    rw [← hpost]
    simp only [List.append_assoc]
  have hs₁ : store tb₁.buf 1 (le 4 n) = .ok ([b] ++ (le 4 n ++ (rest ++ post))) := by
    rw [hbuf]
    exact store_append rfl (by rw [length_le, hold])
  have hw : Wrote ([b] ++ (le 4 n ++ (rest ++ post))) ([b] ++ (le 4 n ++ rest)) :=
    ⟨post, by simp only [List.append_assoc]⟩
  have ho' : tb₁.offset = ([b] ++ (le 4 n ++ rest)).length := by
    simp only [ho, List.length_append, hold, length_le]
  have hr : tb₁.offset + [blogEnd].length ≤ ([b] ++ (le 4 n ++ (rest ++ post))).length := by
    rw [hbuf] at hlen
    simp only [List.length_append, hold, length_le, List.length_singleton] at hlen ho' ⊢
    omega
  obtain ⟨buf₂, hs₂, -, hw₂⟩ := hw.store tb₁.offset [blogEnd] ho' hr
  have hload : load buf₂ 0 (tb₁.offset + 1) = .ok ([b] ++ (le 4 n ++ rest) ++ [blogEnd]) :=
    hw₂.load_all (by rw [List.length_append, ho', List.length_singleton])
  simp only [printEnd, hroom, hs₁, hs₂, hload, ok_bind]
  simp

theorem length_recordBytes (c : Call) (vs : List Value) :
    (recordBytes c vs).length = c.size + (bytesOf vs).length + 2 := by
  simp only [recordBytes, List.length_cons, List.length_append, length_le, c.length_head, c.size_eq,
    List.length_nil]
  omega

theorem Call.length_lead (c : Call) : c.lead.length = c.size := by
  rw [lead, List.length_append, length_le, c.length_head, c.size_eq]
  omega

/-- What `binlog_print` hands to `write`, when `valog` appends the values. -/
theorem binlogPrint_bytes (heap : Heap) (stack : ℕ → UInt8) (c : Call)
    (hfit : 1 + c.size ≤ binlogStackSize) {vs : List Value}
    (hlen : (recordBytes c vs).length < 2 ^ 30) {valog : TsdBinlog → Exec (TsdBinlog × ℕ)}
    (hvalog : ∀ tb w, tb.Holds w → w.length + (bytesOf vs).length ≤ 2 ^ 30 →
      ∃ tb', valog tb = .ok (tb', (bytesOf vs).length) ∧ tb'.Holds (w ++ bytesOf vs)) :
    binlogPrint heap stack c valog = .ok (recordBytes c vs) := by
  rw [length_recordBytes] at hlen
  obtain ⟨tb, hbegin, h⟩ := printBegin_holds stack c hfit
  have hw : ([blogBegin] ++ c.lead).length = 1 + c.size := by
    rw [List.length_append, c.length_lead, List.length_singleton]
  obtain ⟨tb', hvs, h'⟩ := hvalog tb _ h (by omega)
  have hn : ([blogBegin] ++ c.lead ++ bytesOf vs).length + 1 ≤ 2 ^ 30 := by
    rw [List.length_append, hw]
    omega
  obtain ⟨tb₁, hroom⟩ := h'.maybeRealloc heap hn
  rw [c.begin_append] at h'
  have h31 : (bytesOf vs).length + c.size + 1 + 1 < 2 ^ 31 := by omega
  have hend := printEnd_eq hroom h' (length_le 4 0) ((bytesOf vs).length + c.size + 1 + 1)
  simp only [binlogPrint, check_true c.length_lead.symm, hbegin, hvs, check_true h31, hend, ok_bind]
  have htotal : (bytesOf vs).length + c.size + 1 + 1 = c.size + (bytesOf vs).length + 2 := by omega
  rw [recordBytes, List.append_assoc, htotal]

/-- What `binlog_print` handed to `write` is a record, whatever `valog` appended. -/
theorem record_of_binlogPrint {heap : Heap} {stack : ℕ → UInt8} {c : Call}
    {valog : TsdBinlog → Exec (TsdBinlog × ℕ)} {bs : List UInt8}
    (hvalog : ∀ tb tb' r w, tb.Holds w → valog tb = .ok (tb', r) →
      ∃ vs, tb'.Holds (w ++ bytesOf vs) ∧ r = (bytesOf vs).length)
    (hok : binlogPrint heap stack c valog = .ok bs) :
    ∃ vs, bs = recordBytes c vs ∧ bs.length < 2 ^ 31 := by
  obtain ⟨-, -, hok⟩ := bind_eq_ok.mp hok
  obtain ⟨tb, hbegin, hok⟩ := bind_eq_ok.mp hok
  obtain ⟨⟨tb', r⟩, hvs, hok⟩ := bind_eq_ok.mp hok
  obtain ⟨_, h31, hok⟩ := bind_eq_ok.mp hok
  have hfit : 1 + c.size ≤ binlogStackSize := by
    have hle := length_of_printBegin hbegin
    rwa [length_malloc, c.length_lead] at hle
  obtain ⟨tb₀, hbegin', h⟩ := printBegin_holds stack c hfit
  obtain rfl : tb = tb₀ := Except.ok.inj (hbegin.symm.trans hbegin')
  obtain ⟨vs, h', rfl⟩ := hvalog tb tb' r _ h hvs
  rw [c.begin_append] at h'
  obtain ⟨tb₁, hroom, -⟩ := bind_eq_ok.mp hok
  have hend := printEnd_eq hroom h' (length_le 4 0) ((bytesOf vs).length + c.size + 1 + 1)
  obtain rfl := Except.ok.inj (hend.symm.trans hok)
  have htotal : (bytesOf vs).length + c.size + 1 + 1 = c.size + (bytesOf vs).length + 2 := by omega
  have hbs : blogBegin :: (le 4 ((bytesOf vs).length + c.size + 1 + 1) ++
      (c.head ++ bytesOf vs ++ [blogEnd])) = recordBytes c vs := by
    rw [recordBytes, List.append_assoc, htotal]
  refine ⟨vs, hbs, ?_⟩
  rw [hbs, length_recordBytes]
  have hlt := check_eq_ok.mp h31
  omega

/-! ### Reading back -/

/-- The bytes lie ahead of the reader, within the record. -/
def VaList.Ahead (vl : VaList) (bs : List UInt8) : Prop :=
  ∃ pre post, vl.buf = pre ++ (bs ++ post) ∧ vl.off = pre.length ∧
    ((vl.off + bs.length : ℕ) : ℤ) ≤ vl.len

/-- The reader after the next `n` bytes. -/
def VaList.skip (vl : VaList) (n : ℕ) : VaList := { vl with off := vl.off + n }

theorem VaList.Ahead.skip {vl : VaList} {bs rest : List UInt8} (h : vl.Ahead (bs ++ rest)) :
    (vl.skip bs.length).Ahead rest := by
  obtain ⟨pre, post, hbuf, hoff, hlen⟩ := h
  refine ⟨pre ++ bs, post, ?_, ?_, ?_⟩
  · simp only [VaList.skip, hbuf, List.append_assoc]
  · simp only [VaList.skip, hoff, List.length_append]
  · rw [List.length_append, ← Nat.add_assoc] at hlen
    exact hlen

theorem sizeT_ofNat {v : ℤ} {n : ℕ} (h : (n : ℤ) ≤ v) : n ≤ sizeT v := by
  unfold sizeT
  split <;> omega

theorem VaList.Ahead.getWord {vl : VaList} {tag : UInt8} {w n : ℕ} {v : BitVec w}
    {rest : List UInt8} (h : vl.Ahead (tag :: leBv n v ++ rest)) (hw : 2 ^ w ≤ 256 ^ n) :
    getWord w n vl tag = .ok (v, vl.skip (1 + n)) := by
  obtain ⟨pre, post, hbuf, hoff, hlen⟩ := h
  have hend : vl.off + 1 + n ≤ sizeT vl.len := by
    refine sizeT_ofNat (le_trans ?_ hlen)
    simp only [List.length_append, List.length_cons, length_leBv]
    omega
  have htag : load vl.buf vl.off 1 = .ok [tag] := by
    rw [hbuf]
    exact load_append pre [tag] (leBv n v ++ rest ++ post) hoff rfl
  have hbody : load vl.buf (vl.off + 1) n = .ok (leBv n v) := by
    have hbuf' : vl.buf = (pre ++ [tag]) ++ (leBv n v ++ (rest ++ post)) := by
      rw [hbuf]
      simp only [List.append_assoc, List.cons_append, List.nil_append]
    rw [hbuf']
    refine load_append (pre ++ [tag]) (leBv n v) (rest ++ post) ?_ (length_leBv n v).symm
    rw [hoff, List.length_append, List.length_singleton]
  rw [Binlog.getWord, check_true hend, htag]
  simp only [hbody, ok_bind, check_true, ofNat_ofLe_leBv hw, VaList.skip, Nat.add_assoc]

theorem VaList.Ahead.getString {vl : VaList} {s : CString} {rest : List UInt8}
    (h : vl.Ahead (Kind.string.tag :: s.bytes ++ rest)) :
    getString vl = .ok (s, vl.skip (1 + s.bytes.length)) := by
  obtain ⟨pre, post, hbuf, hoff, hlen⟩ := h
  have hbuf' : vl.buf = (pre ++ [Kind.string.tag]) ++ (s.bytes ++ (rest ++ post)) := by
    rw [hbuf]
    simp only [List.append_assoc, List.cons_append, List.nil_append]
  have hs : cstring (vl.buf.drop (vl.off + 1)) = .ok s := by
    have hoff' : vl.off + 1 = (pre ++ [Kind.string.tag]).length := by
      rw [hoff, List.length_append, List.length_singleton]
    rw [hbuf', hoff', List.drop_left]
    exact cstring_append s (rest ++ post)
  have hend : (vl.off + 1 + s.len + 1 : ℤ) ≤ vl.len := by
    simp only [List.length_append, List.length_cons, CString.length_bytes] at hlen
    omega
  have htag : load vl.buf vl.off 1 = .ok [Kind.string.tag] := by
    rw [hbuf]
    exact load_append pre [Kind.string.tag] (s.bytes ++ rest ++ post) hoff rfl
  simp only [Binlog.getString, hs, check_true hend, htag, ok_bind, check_true, VaList.skip,
    CString.length_bytes, Nat.add_assoc, Nat.add_comm 1]

/-- A value reads back, and the reader stands behind it. -/
theorem VaList.Ahead.getValue {vl : VaList} {v : Value} {rest : List UInt8}
    (h : vl.Ahead (v.bytes ++ rest)) :
    getValue vl v.kind = .ok (v, vl.skip v.bytes.length) := by
  rw [v.length_bytes]
  cases v with
  | string s =>
    have hs := VaList.Ahead.getString h
    simp only [Value.kind, Binlog.getValue, hs, ok_bind, Value.body]
  | int v =>
    have hv : getInt vl = .ok (v, vl.skip (1 + 4)) := VaList.Ahead.getWord h (by decide)
    simp only [Value.kind, Binlog.getValue, hv, ok_bind, Value.body, length_leBv]
  | long v =>
    have hv : getLong vl = .ok (v, vl.skip (1 + 8)) := VaList.Ahead.getWord h (by decide)
    simp only [Value.kind, Binlog.getValue, hv, ok_bind, Value.body, length_leBv]
  | double v =>
    have hv : getDouble vl = .ok (v, vl.skip (1 + 8)) := VaList.Ahead.getWord h (by decide)
    simp only [Value.kind, Binlog.getValue, hv, ok_bind, Value.body, length_leBv]
  | pointer v =>
    have hv : getPointer vl = .ok (v, vl.skip (1 + 8)) := VaList.Ahead.getWord h (by decide)
    simp only [Value.kind, Binlog.getValue, hv, ok_bind, Value.body, length_leBv]

theorem VaList.skip_skip (vl : VaList) (m n : ℕ) : (vl.skip m).skip n = vl.skip (m + n) := by
  simp only [skip, Nat.add_assoc]

/-- Values read back in order. -/
theorem VaList.Ahead.getAll {vl : VaList} {vs : List Value} {rest : List UInt8}
    (h : vl.Ahead (bytesOf vs ++ rest)) :
    getAll vl (vs.map Value.kind) = .ok (vs, vl.skip (bytesOf vs).length) := by
  induction vs generalizing vl with
  | nil => rfl
  | cons v vs ih =>
    rw [bytesOf_cons, List.append_assoc] at h
    have hvs := ih h.skip
    rw [VaList.skip_skip] at hvs
    simp only [List.map_cons, Binlog.getAll, h.getValue, ok_bind, hvs, bytesOf_cons,
      List.length_append]

/-- The length field of a record, whatever follows the record in memory. -/
theorem readLen_record (c : Call) (vs : List Value) (post : List UInt8)
    (hlen : (recordBytes c vs).length < 2 ^ 31) :
    readLen (recordBytes c vs ++ post) = .ok (recordBytes c vs).length := by
  rw [length_recordBytes] at hlen ⊢
  have hload : load (recordBytes c vs ++ post) 1 4 =
      .ok (le 4 (c.size + (bytesOf vs).length + 2)) :=
    load_append_right (load_append [blogBegin] (le 4 _) _ rfl rfl) post
  have hnat : (BitVec.ofNat 32 (c.size + (bytesOf vs).length + 2)).toNat =
      c.size + (bytesOf vs).length + 2 := by
    rw [BitVec.toNat_ofNat, Nat.mod_eq_of_lt (by omega)]
  rw [readLen, hload, ok_bind, ofLe_le (by omega), BitVec.toInt_eq_toNat_of_lt (by omega), hnat]

/-- Where the values of a call's record begin. -/
def Call.valuesAt (c : Call) : ℕ := c.size + 1

/-- The other header fields, whatever follows the record in memory. -/
theorem readHeader_record (c : Call) (vs : List Value) (post : List UInt8) :
    readHeader (recordBytes c vs ++ post) =
      .ok ⟨UInt8.ofNat c.level.toNat, c.func, c.line, c.thread, c.now, c.valuesAt⟩ := by
  generalize hlead : blogBegin :: le 4 (c.size + (bytesOf vs).length + 2) = lead
  generalize hrest : bytesOf vs ++ [blogEnd] ++ post = rest
  have hl : lead.length = 5 := by rw [← hlead, List.length_cons, length_le]
  have hmem : recordBytes c vs ++ post = lead ++ ([UInt8.ofNat c.level.toNat] ++
      (c.func.bytes ++ (leBv 4 c.line ++ (leBv 8 c.thread ++ (leBv 8 c.now ++ rest))))) := by
    rw [← hlead, ← hrest]
    simp only [recordBytes, Call.head, List.cons_append, List.append_assoc, List.nil_append]
  have hlevel : load (recordBytes c vs ++ post) 5 1 = .ok [UInt8.ofNat c.level.toNat] := by
    rw [hmem]
    exact load_append lead _ _ hl.symm rfl
  have hfunc : cstring ((recordBytes c vs ++ post).drop 6) = .ok c.func := by
    have h6 : 6 = (lead ++ [UInt8.ofNat c.level.toNat]).length := by rw [List.length_append, hl]; rfl
    rw [hmem, ← List.append_assoc lead, h6, List.drop_left]
    exact cstring_append c.func _
  -- the fields behind the name, one after another
  generalize hname : lead ++ ([UInt8.ofNat c.level.toNat] ++ c.func.bytes) = name at *
  have hoff : 6 + c.func.len + 1 = name.length := by
    rw [← hname, List.length_append, hl, List.length_append, CString.length_bytes]
    simp only [List.length_singleton]
    omega
  have hmem' : recordBytes c vs ++ post =
      name ++ (leBv 4 c.line ++ (leBv 8 c.thread ++ (leBv 8 c.now ++ rest))) := by
    rw [hmem, ← hname]
    simp only [List.append_assoc]
  have hline : load (recordBytes c vs ++ post) (6 + c.func.len + 1) 4 = .ok (leBv 4 c.line) := by
    rw [hmem']
    exact load_append name _ _ hoff (length_leBv 4 _).symm
  have hthread : load (recordBytes c vs ++ post) (6 + c.func.len + 1 + 4) 8 =
      .ok (leBv 8 c.thread) := by
    rw [hmem', ← List.append_assoc]
    refine load_append (name ++ leBv 4 c.line) _ _ ?_ (length_leBv 8 _).symm
    rw [List.length_append, length_leBv, hoff]
  have hnow : load (recordBytes c vs ++ post) (6 + c.func.len + 1 + 12) 8 = .ok (leBv 8 c.now) := by
    rw [hmem', ← List.append_assoc, ← List.append_assoc]
    refine load_append (name ++ leBv 4 c.line ++ leBv 8 c.thread) _ _ ?_ (length_leBv 8 _).symm
    rw [List.length_append, List.length_append, length_leBv, length_leBv, hoff]
  have hlv : ofLe [UInt8.ofNat c.level.toNat] = (UInt8.ofNat c.level.toNat).toNat := rfl
  have hat : 6 + c.func.len + 1 + 20 = c.valuesAt := by
    rw [Call.valuesAt, c.size_eq]
    omega
  simp only [readHeader, hlevel, hfunc, hline, hthread, hnow, ok_bind, hlv, hat,
    UInt8.ofNat_toNat]
  rw [ofNat_ofLe_leBv (by decide), ofNat_ofLe_leBv (by decide), ofNat_ofLe_leBv (by decide)]

theorem ahead_record (c : Call) (vs : List Value) (post : List UInt8) :
    (⟨(recordBytes c vs).length, c.valuesAt, recordBytes c vs ++ post⟩ : VaList).Ahead
      (bytesOf vs ++ [blogEnd]) := by
  refine ⟨blogBegin :: (le 4 (c.size + (bytesOf vs).length + 2) ++ c.head), post, ?_, ?_, ?_⟩
  · simp only [recordBytes, List.cons_append, List.append_assoc]
  · change c.valuesAt = _
    rw [List.length_cons, List.length_append, length_le, c.length_head, Call.valuesAt, c.size_eq]
    omega
  · simp only [length_recordBytes, List.length_append, List.length_singleton, Call.valuesAt]
    omega

/-- The record that a call makes of its header fields and the values appended, wherever the buffer
was moved, is as long as its length field says, and reads back whatever follows it in memory: the
header fields first, then the values in order, up to the end mark. -/
theorem binlogPrint_roundTrip (heap : Heap) (stack : ℕ → UInt8) (c : Call) (vs : List Value)
    (post : List UInt8) (hlevel : c.level.toNat < 256) (hfit : 1 + c.size ≤ binlogStackSize)
    (hlen : 1 + c.size + (bytesOf vs).length + 1 < 2 ^ 30) :
    ∃ bs h, binlogPrint heap stack c (printAll heap · vs) = .ok bs ∧
      readLen (bs ++ post) = .ok bs.length ∧ readHeader (bs ++ post) = .ok h ∧
      h.level.toNat = c.level.toNat ∧ h.func = c.func ∧ h.line = c.line ∧ h.thread = c.thread ∧
      h.ts = c.now ∧
      getAll ⟨bs.length, h.off, bs ++ post⟩ (vs.map Value.kind) =
        .ok (vs, ⟨bs.length, bs.length - 1, bs ++ post⟩) := by
  have hlen' : (recordBytes c vs).length < 2 ^ 30 := by
    rw [length_recordBytes]
    omega
  have hprint := binlogPrint_bytes heap stack c hfit hlen' fun tb w h hn => h.printAll heap vs hn
  have hget := (ahead_record c vs post).getAll
  have hend : c.valuesAt + (bytesOf vs).length = (recordBytes c vs).length - 1 := by
    rw [length_recordBytes, Call.valuesAt]
    omega
  rw [VaList.skip, hend] at hget
  refine ⟨recordBytes c vs, _, hprint, readLen_record c vs post (by omega),
    readHeader_record c vs post, ?_, rfl, rfl, rfl, rfl, hget⟩
  rw [UInt8.toNat_ofNat', Nat.mod_eq_of_lt hlevel]

/-- A record with an integer and a string. -/
theorem binlogPrint_roundTrip_two : ∃ bs h,
    binlogPrint (fun _ _ => 0) (fun _ => 0) ⟨3, ⟨[109], by decide⟩, 7, 1, 2⟩
      (printAll (fun _ _ => 0) · [.int 5, .string ⟨[104, 105], by decide⟩]) = .ok bs ∧
    getAll ⟨bs.length, h, bs⟩ [.int, .string] =
      .ok ([.int 5, .string ⟨[104, 105], by decide⟩], ⟨bs.length, bs.length - 1, bs⟩) := by
  obtain ⟨bs, h, hp, -, -, -, -, -, -, -, hg⟩ := binlogPrint_roundTrip (fun _ _ => 0) (fun _ => 0)
    ⟨3, ⟨[109], by decide⟩, 7, 1, 2⟩ [.int 5, .string ⟨[104, 105], by decide⟩] [] (by decide)
    (by decide) (by decide)
  rw [List.append_nil] at hg
  exact ⟨bs, h.off, hp, hg⟩

end CcUtils.Binlog
