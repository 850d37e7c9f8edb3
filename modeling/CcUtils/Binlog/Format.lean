import CcUtils.Binlog.Record

/-!
# Formats

The two scanners of format strings: `do_valog` of `binlog.c`, which takes the arguments of a log call
off its argument list and appends them to the record, and `print_format` of `binlog_parser.c`, which
reads them back and prints. A pointer into the format is the memory from there on, up to and with the
terminating NUL.

Where a value goes to is a parameter of `doValog`, so that it can be run over the buffer of the record
or over a list. What `fprintf` prints for one specification is a parameter of `printFormat`. Both
record each value with its place in the format: how many characters there are from its star or
conversion to the end.
-/

namespace CcUtils.Binlog

open CcUtils.Lib

/-! ### Characters -/

/-- `'%'`. -/
def percent : UInt8 := 37

/-- `'*'`. -/
def star : UInt8 := 42

/-- `'.'`. -/
def dot : UInt8 := 46

/-- The string `"-+ #0"`. -/
def flagChars : List UInt8 := [45, 43, 32, 35, 48]

/-- The string `"hlL"`. -/
def lengthChars : List UInt8 := [104, 108, 76]

/-- The conversions `d`, `i`, `o`, `u`, `x`, `X`, `c`. -/
def integerConvs : List UInt8 := [100, 105, 111, 117, 120, 88, 99]

/-- The conversions `f`, `e`, `E`, `g`, `G`. -/
def doubleConvs : List UInt8 := [102, 101, 69, 103, 71]

/-- `ISDIGIT`. -/
def isDigit (c : UInt8) : Bool := decide (48 ≤ c ∧ c ≤ 57)

/-- Is `strchr(set, c)` not NULL? It finds the terminator of the set too. -/
def strchr (set : List UInt8) (c : UInt8) : Bool := decide (c ∈ set ∨ c = 0)

/-! ### Moving through the format -/

/-- `*ptr`. -/
def peek : List UInt8 → Exec UInt8
  | [] => .error .outOfBounds
  | c :: _ => .ok c

/-- A loop that moves `ptr` on while `p` holds of `*ptr`: the characters passed, and `ptr`. -/
def scan (p : UInt8 → Bool) : List UInt8 → Exec (List UInt8 × List UInt8)
  | [] => .error .outOfBounds
  | c :: ptr =>
    if p c then do
      let (passed, ptr) ← scan p ptr
      .ok (c :: passed, ptr)
    else .ok ([], c :: ptr)

/-- The loop over the length modifiers. Its `switch` has no case for the NUL that `strchr` finds. -/
def scanLengths : List UInt8 → Exec (List UInt8 × List UInt8)
  | [] => .error .outOfBounds
  | c :: ptr =>
    if strchr lengthChars c then do
      check (c ∈ lengthChars) .abort
      let (passed, ptr) ← scanLengths ptr
      .ok (c :: passed, ptr)
    else .ok ([], c :: ptr)

/-- `short_width` after the length modifiers. -/
def shortWidth (lens : List UInt8) : Bool := decide (104 ∈ lens)

/-- `wide_width` after the length modifiers. -/
def wideWidth (lens : List UInt8) : ℕ :=
  lens.foldl (fun wide c => if c = 108 then wide + 1 else if c = 76 then 2 else wide) 0

/-- The type of value that the `switch` on the conversion takes; none for a percent sign. -/
def convKind (lens : List UInt8) (c : UInt8) : Exec (Option Kind) :=
  if c ∈ integerConvs then
    .ok (some (if shortWidth lens then .int else if wideWidth lens = 0 then .int else .long))
  else if c ∈ doubleConvs then .ok (some .double)
  else if c = 115 then .ok (some .string)
  else if c = 112 then .ok (some .pointer)
  else if c = percent then .ok none
  else .error .abort

/-! ### `do_valog` -/

/-- Where values go: the next state, and the number of bytes appended. -/
abbrev Sink (σ : Type) := σ → Value → Exec (σ × ℕ)

variable {σ : Type}

/-- The variables of `do_valog`, and the values appended with their places. -/
structure Valog (σ : Type) where
  ptr : List UInt8
  ap : List Value
  sink : σ
  totalPrinted : ℕ
  log : List (ℕ × Value)

/-- `PRINT_BINTYPE`. -/
def Valog.printBintype (put : Sink σ) (k : Kind) (s : Valog σ) : Exec (Valog σ) :=
  match s.ap with
  | [] => .error .badVarArg
  | v :: ap => do
    check (v.kind = k) .badVarArg
    let (sink, result) ← put s.sink v
    .ok ⟨s.ptr.tail, ap, sink, s.totalPrinted + result, s.log ++ [(s.ptr.length, v)]⟩

/-- The width. -/
def Valog.width (put : Sink σ) (s : Valog σ) : Exec (Valog σ) := do
  let c ← peek s.ptr
  if c = star then s.printBintype put .int
  else do
    let (_, ptr) ← scan isDigit s.ptr
    .ok { s with ptr := ptr }

/-- The precision; after a star `ptr` moves on twice. -/
def Valog.precision (put : Sink σ) (s : Valog σ) : Exec (Valog σ) := do
  let c ← peek s.ptr
  if c = dot then do
    let c ← peek s.ptr.tail
    if c = star then do
      let s ← Valog.printBintype put .int { s with ptr := s.ptr.tail }
      .ok { s with ptr := s.ptr.tail }
    else do
      let (_, ptr) ← scan isDigit s.ptr.tail
      .ok { s with ptr := ptr }
  else .ok s

/-- The length modifiers and the conversion; at a percent sign `ptr` stays. -/
def Valog.conversion (put : Sink σ) (s : Valog σ) : Exec (Valog σ) := do
  let (lens, ptr) ← scanLengths s.ptr
  let c ← peek ptr
  match ← convKind lens c with
  | none => .ok { s with ptr := ptr }
  | some k => Valog.printBintype put k { s with ptr := ptr }

/-- What follows a percent sign. -/
def Valog.specification (put : Sink σ) (s : Valog σ) : Exec (Valog σ) := do
  let (_, ptr) ← scan (strchr flagChars) s.ptr
  let s ← Valog.width put { s with ptr := ptr }
  let s ← s.precision put
  s.conversion put

/-- The loop of `do_valog`. -/
def Valog.loop (put : Sink σ) : ℕ → Valog σ → Exec (Valog σ)
  | 0, _ => .error .outOfFuel
  | fuel + 1, s => do
    let c ← peek s.ptr
    if c = 0 then .ok s
    else if c ≠ percent then Valog.loop put fuel { s with ptr := s.ptr.tail }
    else do
      let s ← Valog.specification put { s with ptr := s.ptr.tail }
      Valog.loop put fuel s

/-- `do_valog`. -/
def doValog (put : Sink σ) (format : CString) (args : List Value) (sink : σ) : Exec (Valog σ) :=
  Valog.loop put (format.len + 1) ⟨format.bytes, args, sink, 0, []⟩

/-- `do_valog` as `binlog_print` calls it. -/
def doValogRecord (heap : Heap) (format : CString) (args : List Value) (tb : TsdBinlog) :
    Exec (TsdBinlog × ℕ) := do
  let s ← doValog (printValue heap) format args tb
  .ok (s.sink, s.totalPrinted)

/-! ### `print_format` -/

/-- The size of the array `specifier`. -/
def specifierSize : ℕ := 128

/-- The text of one specification with one value, or `fprintf`'s failure. -/
abbrev Fprintf := List UInt8 → Value → Option (List UInt8)

/-- The variables of `print_format`, the text printed, and the values read with their places.
`failed` is set by the `return -1`. -/
structure Printing where
  ptr : List UInt8
  vl : VaList
  out : List UInt8
  totalPrinted : ℕ
  failed : Bool
  got : List (ℕ × Value)

/-- Copy characters to the end of the specifier. -/
def copyTo (specifier chars : List UInt8) : Exec (List UInt8) := do
  check (specifier.length + chars.length ≤ specifierSize) .outOfBounds
  .ok (specifier ++ chars)

/-- The digits of a number. -/
def decimal (n : ℕ) : List UInt8 := (Nat.toDigits 10 n).map fun c => UInt8.ofNat c.toNat

/-- The text `sprintf` makes of an `int` with `%d`. -/
def decimalInt (v : BitVec 32) : List UInt8 :=
  if v.toInt < 0 then 45 :: decimal v.toInt.natAbs else decimal v.toInt.natAbs

/-- `abs`. It is not defined for the least `int`; what a machine gives there, if it goes on, is `absMin`. -/
def absInt (absMin : Option (BitVec 32)) (v : BitVec 32) : Exec (BitVec 32) :=
  if v = BitVec.intMin 32 then absMin.elim (.error .overflow) .ok else .ok v.abs

/-- `COPY_VA_INT`. The digits are copied with a NUL. -/
def Printing.copyVaInt (s : Printing) (specifier : List UInt8) (absMin : Option (BitVec 32) := none) :
    Exec (Printing × List UInt8) := do
  let (arg, vl) ← getInt s.vl
  let value ← absInt absMin arg
  let digits := decimalInt value
  check (specifier.length + digits.length + 1 ≤ specifierSize) .outOfBounds
  .ok (⟨s.ptr.tail, vl, s.out, s.totalPrinted, s.failed, s.got ++ [(s.ptr.length, .int arg)]⟩,
    specifier ++ digits)

theorem decimalInt_abs {v : BitVec 32} (h : v ≠ BitVec.intMin 32) : decimalInt v.abs = decimal v.toInt.natAbs := by
  rw [decimalInt, BitVec.toInt_abs_eq_natAbs_of_ne_intMin h, if_neg (by omega), Int.natAbs_natCast]

/-- Where `abs` is defined, the digits are those of the value without its sign. -/
theorem Printing.copyVaInt_eq (s : Printing) (specifier : List UInt8) :
    s.copyVaInt specifier = getInt s.vl >>= fun r => check (r.1 ≠ BitVec.intMin 32) .overflow >>= fun _ =>
      check (specifier.length + (decimal r.1.toInt.natAbs).length + 1 ≤ specifierSize) .outOfBounds >>= fun _ =>
        .ok (⟨s.ptr.tail, r.2, s.out, s.totalPrinted, s.failed, s.got ++ [(s.ptr.length, .int r.1)]⟩,
          specifier ++ decimal r.1.toInt.natAbs) := by
  rw [copyVaInt]
  refine bind_congr fun r => ?_
  dsimp only
  by_cases hmin : r.1 = BitVec.intMin 32
  · rw [absInt, if_pos hmin, check_false (not_not.mpr hmin)]
    rfl
  · rw [absInt, if_neg hmin, check_true hmin, ok_bind, ok_bind, decimalInt_abs hmin]

/-- `PRINT_CHAR`. -/
def Printing.printChar (c : UInt8) (s : Printing) : Printing :=
  { s with ptr := s.ptr.tail, out := s.out ++ [c], totalPrinted := s.totalPrinted + 1 }

/-- `PRINT_TYPE`, with the conversion at `ptr`; the specifier ends with a NUL. -/
def Printing.printType (fprintf : Fprintf) (c : UInt8) (k : Kind) (s : Printing)
    (specifier : List UInt8) : Exec Printing := do
  let (value, vl) ← getValue s.vl k
  check (specifier.length + 2 ≤ specifierSize) .outOfBounds
  let got := s.got ++ [(s.ptr.length, value)]
  match fprintf (specifier ++ [c]) value with
  | none => .ok ⟨s.ptr.tail, vl, s.out, s.totalPrinted, true, got⟩
  | some text => .ok ⟨s.ptr.tail, vl, s.out ++ text, s.totalPrinted + text.length, s.failed, got⟩

/-- The width. -/
def Printing.width (s : Printing) (specifier : List UInt8) (absMin : Option (BitVec 32) := none) :
    Exec (Printing × List UInt8) := do
  let c ← peek s.ptr
  if c = star then s.copyVaInt specifier absMin
  else do
    let (digits, ptr) ← scan isDigit s.ptr
    let specifier ← copyTo specifier digits
    .ok ({ s with ptr := ptr }, specifier)

/-- The precision. -/
def Printing.precision (s : Printing) (specifier : List UInt8) (absMin : Option (BitVec 32) := none) :
    Exec (Printing × List UInt8) := do
  let c ← peek s.ptr
  if c = dot then do
    let specifier ← copyTo specifier [c]
    Printing.width { s with ptr := s.ptr.tail } specifier absMin
  else .ok (s, specifier)

/-- The length modifiers and the conversion. -/
def Printing.conversion (fprintf : Fprintf) (s : Printing) (specifier : List UInt8) :
    Exec Printing := do
  -- the loop copies each modifier before it looks at the next character, so before it aborts
  let specifier ← copyTo specifier (s.ptr.takeWhile (· ∈ lengthChars))
  let (lens, ptr) ← scanLengths s.ptr
  let c ← peek ptr
  match ← convKind lens c with
  | none => .ok (Printing.printChar percent { s with ptr := ptr })
  | some k => Printing.printType fprintf c k { s with ptr := ptr } specifier

/-- What follows a percent sign. -/
def Printing.specification (fprintf : Fprintf) (s : Printing) (absMin : Option (BitVec 32) := none) :
    Exec Printing := do
  let (flags, ptr) ← scan (strchr flagChars) s.ptr
  let specifier ← copyTo [percent] flags
  let (s, specifier) ← Printing.width { s with ptr := ptr } specifier absMin
  let (s, specifier) ← s.precision specifier absMin
  s.conversion fprintf specifier

/-- The loop of `print_format`. -/
def Printing.loop (fprintf : Fprintf) (fuel : ℕ) (s : Printing) (absMin : Option (BitVec 32) := none) :
    Exec Printing :=
  match fuel with
  | 0 => .error .outOfFuel
  | fuel + 1 => do
    let c ← peek s.ptr
    if c = 0 then .ok s
    else if c ≠ percent then Printing.loop fprintf fuel (s.printChar c) absMin
    else do
      let s ← Printing.specification fprintf { s with ptr := s.ptr.tail } absMin
      if s.failed then .ok s else Printing.loop fprintf fuel s absMin

/-- `print_format`. -/
def printFormat (fprintf : Fprintf) (format : CString) (vl : VaList) (absMin : Option (BitVec 32) := none) :
    Exec Printing :=
  Printing.loop fprintf (format.len + 1) ⟨format.bytes, vl, [], 0, false, []⟩ absMin

end CcUtils.Binlog
