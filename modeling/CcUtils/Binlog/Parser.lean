import CcUtils.Lib.Rules
import CcUtils.Binlog.Agree

/-!
# The parser of binary logs

`binlog_parse_read` and `binlog_prase` of `binlog_parser.c`: the log file is read through one buffer,
whose tail is moved to the front before each further read, and the records in it are decoded one after
another. The offsets are integers, since a record's length field is added to them as it is read.

What the C library makes of a time stamp, a thread id and a specification is a parameter, as are the
formats that the JSON file gives.

The parser is run in two ways: over its whole buffer, and over no more of it than `read_size` bytes,
so that a use of a byte at or beyond `read_size` is a fault. Where C leaves open what happens and a machine
goes on all the same, what it makes of it is a parameter too; by default such a run has a fault.

## What is proved

* `printing_loop_grows` — what a format reads does not depend on what follows the record in memory.
* `decodeRecord_grows` — nor does what the parser makes of a record.
-/

namespace CcUtils.Binlog

open CcUtils.Lib

/-! ### One record -/

/-- An element of the JSON array. -/
structure FormatItem where
  function : CString
  line : BitVec 32
  format : CString

/-- What the parser takes from the C library and from the JSON file. -/
structure ParserEnv where
  jsonArr : List FormatItem
  /-- The text of a time stamp, with the difference of the two clocks added. -/
  timeFmt : BitVec 64 → List UInt8
  /-- The text that `%#p` makes of a thread id. -/
  threadFmt : BitVec 64 → List UInt8
  fprintf : Fprintf

/-- What a machine makes of what C leaves undefined, if it goes on: of `abs` of the least `int`, and of a
`memcpy` to the front of a buffer from an offset where the areas overlap, as the byte at each place. -/
structure Machine where
  absMin : Option (BitVec 32) := none
  overlapped : Option (List UInt8 → ℕ → ℕ → UInt8) := none

/-- The characters of a string constant. -/
def ascii (s : String) : List UInt8 := s.toList.map fun c => UInt8.ofNat c.toNat

/-- `binlog_level_name`. -/
def binlogLevelName (level : UInt8) : List UInt8 :=
  if level = 1 then ascii "ERROR"
  else if level = 2 then ascii "WARN"
  else if level = 3 then ascii "INFO"
  else if level = 4 then ascii "DEBUG"
  else ascii "TRACE"

/-- `format_fetch`. -/
def formatFetch (jsonArr : List FormatItem) (func : CString) (line : BitVec 32) : Option CString :=
  (jsonArr.find? fun item => decide (func = item.function ∧ line = item.line)).map FormatItem.format

/-- The text that `%d` makes of an `int`. -/
def signedDecimal (v : ℤ) : List UInt8 :=
  if v < 0 then ascii "-" ++ decimal v.natAbs else decimal v.natAbs

/-- What was read of a record, and the line printed. -/
structure Decoded where
  header : Header
  got : List (ℕ × Value)
  text : List UInt8

/-- The body of the loop of `binlog_prase`, from the level on. A format that is not found is used all
the same. -/
def decodeRecord (env : ParserEnv) (len : ℤ) (buffer : List UInt8) (m : Machine := {}) : Exec Decoded := do
  let h ← readHeader buffer
  match formatFetch env.jsonArr h.func h.line with
  | none => .error .nullDeref
  | some format => do
    let s ← printFormat env.fprintf format ⟨len, h.off, buffer⟩ m.absMin
    .ok ⟨h, s.got, env.timeFmt h.ts ++ ascii " " ++ binlogLevelName h.level ++ ascii " " ++
      env.threadFmt h.thread ++ ascii " " ++ s.out ++ ascii " [" ++ h.func.val ++ ascii ":" ++
      signedDecimal h.line.toInt ++ ascii "]\n"⟩

/-! ### The buffer -/

/-- `binlog_parser_t`, without the files. -/
structure BinlogParser where
  buf : List UInt8
  size : ℕ
  readSize : ℕ
  offset : ℤ
  fileOffset : ℕ
  fileSize : ℤ

/-- `binlog_file_size`: the size as an `int32_t`. -/
def binlogFileSize (file : List UInt8) : ℤ := (BitVec.ofNat 32 file.length).toInt

/-- `read` of `n` bytes: as many as there are. -/
def readFile (file : List UInt8) (fileOffset n : ℕ) : List UInt8 := (file.drop fileOffset).take n

/-- `parser->buf + parser->offset`, as an offset into the buffer. -/
def BinlogParser.bufOffset (p : BinlogParser) : Exec ℕ := do
  check (0 ≤ p.offset ∧ p.offset ≤ p.size) .outOfBounds
  .ok p.offset.toNat

/-- The bytes that `memcpy` brings to the front of a buffer. -/
def copied (overlapped : Option (List UInt8 → ℕ → ℕ → UInt8)) (buf : List UInt8) (off n : ℕ) :
    Exec (List UInt8) :=
  if n = 0 ∨ n ≤ off then load buf off n
  else overlapped.elim (.error .overlap) fun bytes => .ok ((List.range n).map (bytes buf off))

/-- `binlog_parse_read`. -/
def binlogParseRead (file : List UInt8) (p : BinlogParser) (m : Machine := {}) : Exec BinlogParser :=
  if p.fileOffset = 0 then do
    let bytes := readFile file p.fileOffset p.size
    check (0 < bytes.length) .assertFail
    check (p.fileOffset + bytes.length < 2 ^ 31) .overflow
    let buf ← store p.buf 0 bytes
    .ok { p with
      buf := buf, readSize := bytes.length, offset := 0, fileOffset := p.fileOffset + bytes.length }
  else do
    let off ← p.bufOffset
    check (off ≤ p.readSize) .outOfBounds
    let n := p.readSize - off
    let tail ← copied m.overlapped p.buf off n
    let buf ← store p.buf 0 tail
    let bytes := readFile file p.fileOffset (p.size - n)
    let buf ← store buf n bytes
    check (0 < bytes.length) .assertFail
    check (p.fileOffset + bytes.length < 2 ^ 31) .overflow
    .ok { p with
      buf := buf, readSize := bytes.length + n, offset := 0,
      fileOffset := p.fileOffset + bytes.length }

/-- Read on if a condition holds. -/
def parseReadIf (file : List UInt8) (c : Prop) [Decidable c] (p : BinlogParser) (m : Machine := {}) :
    Exec BinlogParser := if c then binlogParseRead file p m else .ok p

/-- How much of its buffer the parser may use. -/
inductive Extent where
  | buffer
  | readSize
  deriving DecidableEq

/-- The memory from `parser->buf + parser->offset` on. -/
def BinlogParser.memory (p : BinlogParser) (extent : Extent) : Exec (List UInt8) := do
  let off ← p.bufOffset
  match extent with
  | .buffer => .ok (p.buf.drop off)
  | .readSize => .ok ((p.buf.take p.readSize).drop off)

/-- One turn of the loop of `binlog_prase`. -/
def binlogPraseTurn (env : ParserEnv) (file : List UInt8) (extent : Extent) (p : BinlogParser) (m : Machine := {}) :
    Exec (BinlogParser × Decoded) := do
  let p ← parseReadIf file (p.offset = p.readSize) p m
  let buffer ← p.memory extent
  let len ← readLen buffer
  check (len + p.offset < 2 ^ 31) .overflow
  let p ← parseReadIf file (len + p.offset > p.readSize) p m
  let buffer ← p.memory extent
  let d ← decodeRecord env len buffer m
  .ok ({ p with offset := p.offset + len }, d)

/-- The loop of `binlog_prase`: the records decoded. -/
def binlogPrase (env : ParserEnv) (file : List UInt8) (extent : Extent) (fuel : ℕ) (p : BinlogParser)
    (m : Machine := {}) : Exec (List Decoded) :=
  match fuel with
  | 0 => .error .outOfFuel
  | fuel + 1 => do
    let (p, d) ← binlogPraseTurn env file extent p m
    if p.fileOffset = p.fileSize ∧ p.offset = p.readSize then .ok [d]
    else do
      let ds ← binlogPrase env file extent fuel p m
      .ok (d :: ds)

/-- The size of the buffer, `1 << 22`. -/
def parserBufSize : ℕ := 2 ^ 22

/-- `binlog_parser_create` with the files opened; `junk` is what `malloc` leaves in the buffer. -/
def binlogParserCreate (file : List UInt8) (junk : ℕ → UInt8) : Exec (Option BinlogParser) :=
  if binlogFileSize file < 0 then .ok none
  else do
    let p ← binlogParseRead file
      ⟨malloc junk parserBufSize, parserBufSize, 0, 0, 0, binlogFileSize file⟩
    .ok (some p)

/-- The program: create the parser, parse. -/
def parseFile (env : ParserEnv) (file : List UInt8) (junk : ℕ → UInt8) (extent : Extent)
    (fuel : ℕ) (m : Machine := {}) : Exec (List Decoded) := do
  match ← binlogParserCreate file junk with
  | none => .ok []
  | some p => binlogPrase env file extent fuel p m

/-! ### More memory -/

/-- The same reader, with more memory behind. -/
def VaList.more (post : List UInt8) (vl : VaList) : VaList := { vl with buf := vl.buf ++ post }

/-- The same state, with more memory behind. -/
def Printing.more (post : List UInt8) (s : Printing) : Printing := { s with vl := s.vl.more post }

variable {absMin : Option (BitVec 32)} {fprintf : Fprintf} (post : List UInt8)

theorem load_grows (buf : List UInt8) (off n : ℕ) :
    Grows id (load buf off n) (load (buf ++ post) off n) := by
  intro hne
  by_cases h : off + n ≤ buf.length
  · have hload : load buf off n = .ok ((buf.drop off).take n) := if_pos h
    rw [hload, load_append_right hload]
    rfl
  · exact absurd (if_neg h) hne

theorem cstring_grows (mem : List UInt8) : Grows id (cstring mem) (cstring (mem ++ post)) := by
  intro hne
  cases h : cstring mem with
  | error e => exact absurd (cstring_error h ▸ h) hne
  | ok s =>
    rw [cstring_eq_ok.mpr (cstr_append_right (cstring_eq_ok.mp h) post)]
    rfl

theorem getWord_grows (w n : ℕ) (vl : VaList) (tag : UInt8) :
    Grows (Prod.map id (VaList.more post)) (getWord w n vl tag) (getWord w n (vl.more post) tag) := by
  refine (Grows.refl _).bind fun _ _ => ?_
  refine (load_grows post _ _ _).bind fun _ _ => ?_
  refine (Grows.refl _).bind fun _ _ => ?_
  exact (load_grows post _ _ _).bind fun _ _ => .ok _

theorem getString_grows (vl : VaList) :
    Grows (Prod.map id (VaList.more post)) (getString vl) (getString (vl.more post)) := by
  have hstring : Grows id (cstring (vl.buf.drop (vl.off + 1))) (cstring ((vl.more post).buf.drop (vl.off + 1))) := by
    intro hne
    by_cases hoff : vl.off + 1 ≤ vl.buf.length
    · change cstring ((vl.buf ++ post).drop (vl.off + 1)) = _
      rw [List.drop_append_of_le_length hoff]
      exact cstring_grows post _ hne
    · rw [List.drop_of_length_le (not_le.mp hoff).le] at hne
      exact absurd rfl hne
  refine hstring.bind fun _ _ => ?_
  refine (Grows.refl _).bind fun _ _ => ?_
  refine (load_grows post _ _ _).bind fun _ _ => ?_
  exact (Grows.refl _).bind fun _ _ => .ok _

theorem getValue_grows (vl : VaList) (k : Kind) :
    Grows (Prod.map id (VaList.more post)) (getValue vl k) (getValue (vl.more post) k) := by
  cases k with
  | int => exact (getWord_grows post _ _ vl _).bind fun _ _ => .ok _
  | long => exact (getWord_grows post _ _ vl _).bind fun _ _ => .ok _
  | double => exact (getWord_grows post _ _ vl _).bind fun _ _ => .ok _
  | string => exact (getString_grows post vl).bind fun _ _ => .ok _
  | pointer => exact (getWord_grows post _ _ vl _).bind fun _ _ => .ok _

theorem copyVaInt_grows (s : Printing) (specifier : List UInt8) :
    Grows (Prod.map (Printing.more post) id) (s.copyVaInt specifier absMin)
      ((s.more post).copyVaInt specifier absMin) := by
  refine (getWord_grows post _ _ s.vl _).bind fun _ _ => ?_
  refine (Grows.refl _).bind fun _ _ => ?_
  exact (Grows.refl _).bind fun _ _ => .ok _

theorem width_grows (s : Printing) (specifier : List UInt8) :
    Grows (Prod.map (Printing.more post) id) (s.width specifier absMin) ((s.more post).width specifier absMin) := by
  refine (Grows.refl _).bind fun c _ => ?_
  dsimp only [id]
  split
  · exact copyVaInt_grows post s specifier
  · refine (Grows.refl _).bind fun _ _ => ?_
    exact (Grows.refl _).bind fun _ _ => .ok _

theorem precision_grows (s : Printing) (specifier : List UInt8) :
    Grows (Prod.map (Printing.more post) id) (s.precision specifier absMin)
      ((s.more post).precision specifier absMin) := by
  refine (Grows.refl _).bind fun c _ => ?_
  dsimp only [id]
  split
  · exact (Grows.refl _).bind fun _ _ => width_grows post _ _
  · exact .ok _

theorem conversion_grows (s : Printing) (specifier : List UInt8) :
    Grows (Printing.more post) (s.conversion fprintf specifier) ((s.more post).conversion fprintf specifier) := by
  refine (Grows.refl _).bind fun specifier _ => ?_
  refine (Grows.refl _).bind fun scanned _ => ?_
  refine (Grows.refl _).bind fun c _ => ?_
  refine (Grows.refl _).bind fun k _ => ?_
  cases k with
  | none => exact .ok _
  | some k =>
    refine (getValue_grows post _ k).bind fun r _ => ?_
    refine (Grows.refl _).bind fun _ _ => ?_
    dsimp only [id, Prod.map]
    split
    · exact .ok _
    · exact .ok _

theorem specification_grows (s : Printing) :
    Grows (Printing.more post) (s.specification fprintf absMin) ((s.more post).specification fprintf absMin) := by
  refine (Grows.refl _).bind fun scanned _ => ?_
  refine (Grows.refl _).bind fun specifier _ => ?_
  refine (width_grows post _ _).bind fun r _ => ?_
  refine (precision_grows post _ _).bind fun r _ => ?_
  exact conversion_grows post _ _

/-- What a format reads does not depend on what follows in memory. -/
theorem printing_loop_grows (fuel : ℕ) (s : Printing) :
    Grows (Printing.more post) (Printing.loop fprintf fuel s absMin)
      (Printing.loop fprintf fuel (s.more post) absMin) := by
  induction fuel generalizing s with
  | zero => exact .error _
  | succ fuel ih =>
    refine (Grows.refl _).bind fun c _ => ?_
    dsimp only [id]
    split
    · exact .ok _
    · split
      · exact ih _
      · refine (specification_grows post _).bind fun s' _ => ?_
        have hfailed : (s'.more post).failed = s'.failed := rfl
        rw [hfailed]
        split
        · exact .ok _
        · exact ih _

theorem readHeader_grows (buffer : List UInt8) : Grows id (readHeader buffer) (readHeader (buffer ++ post)) := by
  refine (load_grows post _ _ _).bind fun _ hlevel => ?_
  have h6 : 6 ≤ buffer.length := (load_eq_ok.mp hlevel).1
  rw [List.drop_append_of_le_length h6]
  refine (cstring_grows post _).bind fun _ _ => ?_
  refine (load_grows post _ _ _).bind fun _ _ => ?_
  refine (load_grows post _ _ _).bind fun _ _ => ?_
  exact (load_grows post _ _ _).bind fun _ _ => .ok _

/-- What the parser makes of a record does not depend on what follows in memory. -/
theorem decodeRecord_grows (env : ParserEnv) (len : ℤ) (buffer : List UInt8) (m : Machine) :
    Grows id (decodeRecord env len buffer m) (decodeRecord env len (buffer ++ post) m) := by
  refine (readHeader_grows post _).bind fun h _ => ?_
  dsimp only [id]
  split
  · exact .error _
  · exact (printing_loop_grows post _ _).bind fun _ _ => .ok _

theorem decodeRecord_more {env : ParserEnv} {buffer : List UInt8} {len : ℤ} {d : Decoded} {m : Machine}
    (h : decodeRecord env len buffer m = .ok d) : decodeRecord env len (buffer ++ post) m = .ok d :=
  (decodeRecord_grows post env len buffer m).eq_ok h

end CcUtils.Binlog
