import CcUtils.Binlog.Parser

/-!
# Log files larger than the buffer

`binlog_prase` on a file that is a concatenation of records. Where the end of the buffer cuts a record,
the parser needs the length field before it reads on, and `memcpy` moves the part that is there to the
front: so the part must have its five first bytes, or none, and must not be larger than what is before
it. The parser decodes all records, in order, exactly when each cut is so.

## What is proved

* `Reading.parseRead` — reading on keeps the place in the file.
* `Reading.turn_fits`, `Reading.turn_cut` — what a turn of the loop does, by where the record lies in the
  buffer.
* `turn_error` — at which cuts it fails.
* `parseFile_iff` — when a whole log is decoded.
* `Log.decoded_of_le` — a log no larger than the buffer is.
-/

namespace CcUtils.Binlog

open CcUtils.Lib

/-! ### Records -/

/-- A record that some call of `binlog_print` writes. -/
def Written (bs : List UInt8) : Prop :=
  ∃ heap stack c format args, binlogPrint heap stack c (doValogRecord heap format args) = .ok bs

/-- Whatever the format, what is written is a record. -/
theorem Written.record {bs : List UInt8} (h : Written bs) :
    ∃ c vs, bs = recordBytes c vs ∧ bs.length < 2 ^ 31 := by
  obtain ⟨heap, stack, c, format, args, hok⟩ := h
  have hvalog : ∀ tb tb' r w, TsdBinlog.Holds tb w → doValogRecord heap format args tb = .ok (tb', r) →
      ∃ vs, tb'.Holds (w ++ bytesOf vs) ∧ r = (bytesOf vs).length := by
    intro tb tb' r w h hok
    obtain ⟨s, hs, hok⟩ := bind_eq_ok.mp hok
    cases hok
    exact h.of_doValog hs
  obtain ⟨vs, hbs, hlen⟩ := record_of_binlogPrint hvalog hok
  exact ⟨c, vs, hbs, hlen⟩

theorem five_lt_length_recordBytes (c : Call) (vs : List Value) : 5 < (recordBytes c vs).length := by
  rw [length_recordBytes, c.size_eq]
  omega

/-- The first five bytes are enough for the length. -/
theorem readLen_take {rest : List UInt8} {len : ℤ} (hlen : readLen rest = .ok len) {k : ℕ} (hk : 5 ≤ k)
    (post : List UInt8) : readLen (rest.take k ++ post) = .ok len := by
  obtain ⟨bs, hload, hval⟩ := bind_eq_ok.mp hlen
  obtain ⟨hfive, hbs⟩ := load_eq_ok.mp hload
  have hload₅ : load (rest.take 5) 1 4 = .ok bs := by
    rw [load_eq_ok, List.length_take, List.drop_take, List.take_take]
    exact ⟨by omega, hbs⟩
  have hsplit : rest.take k = rest.take 5 ++ (rest.take k).drop 5 := by
    have htake : rest.take 5 = (rest.take k).take 5 := by rw [List.take_take, Nat.min_eq_left hk]
    rw [htake, List.take_append_drop]
  rw [hsplit, List.append_assoc, readLen, load_append_right hload₅, ok_bind]
  exact hval

theorem five_le_of_readLen {rest : List UInt8} {len : ℤ} (hlen : readLen rest = .ok len) : 5 ≤ rest.length := by
  obtain ⟨bs, hload, -⟩ := bind_eq_ok.mp hlen
  exact (load_eq_ok.mp hload).1

/-! ### The place in the file -/

/-- The parser stands `used` bytes behind the start of its buffer, with `rest` of the file ahead: as
much of it as there was room for is in the buffer, the other part was not read yet. -/
structure Reading (file rest : List UInt8) (used : ℕ) (p : BinlogParser) : Prop where
  length : p.buf.length = p.size
  offset : p.offset = used
  readSize : p.readSize = min p.size (used + rest.length)
  used_le : used ≤ p.readSize
  bytes : ∃ pre, pre.length = used ∧ Wrote p.buf (pre ++ rest.take (p.readSize - used))
  unread : file.drop p.fileOffset = rest.drop (p.readSize - used)
  started : p.fileOffset ≠ 0
  fileOffset_le : p.fileOffset ≤ file.length
  fileSize : p.fileSize = file.length
  small : file.length < 2 ^ 31

theorem Reading.readSize_le {file rest : List UInt8} {used : ℕ} {p : BinlogParser}
    (h : Reading file rest used p) : p.readSize ≤ p.size ∧ p.readSize ≤ used + rest.length := by
  rw [h.readSize]
  exact ⟨min_le_left _ _, min_le_right _ _⟩

theorem Reading.bufOffset {file rest : List UInt8} {used : ℕ} {p : BinlogParser}
    (h : Reading file rest used p) : p.bufOffset = .ok used := by
  have hle : 0 ≤ p.offset ∧ p.offset ≤ p.size := by
    have h1 := h.used_le
    have h2 := h.readSize_le.1
    rw [h.offset]
    omega
  rw [BinlogParser.bufOffset, check_true hle, ok_bind, h.offset, Int.toNat_natCast]

/-- What the parser sees: the part of `rest` that was read, and maybe something behind it. -/
theorem Reading.memory {file rest : List UInt8} {used : ℕ} {p : BinlogParser}
    (h : Reading file rest used p) (extent : Extent) :
    ∃ post, p.memory extent = .ok (rest.take (p.readSize - used) ++ post) ∧
      used + (rest.take (p.readSize - used) ++ post).length ≤ p.size := by
  obtain ⟨pre, hpre, post, hbuf⟩ := h.bytes
  have h1 := h.used_le
  obtain ⟨h2, h3⟩ := h.readSize_le
  have hlen : (rest.take (p.readSize - used)).length = p.readSize - used := by
    rw [List.length_take]
    omega
  have hbuf' : p.buf = pre ++ (rest.take (p.readSize - used) ++ post) := by
    rw [← hbuf, List.append_assoc]
  cases extent with
  | buffer =>
    refine ⟨post, ?_, ?_⟩
    · rw [BinlogParser.memory, h.bufOffset, ok_bind, hbuf', ← hpre, List.drop_left]
    · rw [← h.length, hbuf', ← hpre]
      exact (List.length_append).ge
  | readSize =>
    have htake : p.buf.take p.readSize = pre ++ rest.take (p.readSize - used) := by
      have hread : p.readSize = (pre ++ rest.take (p.readSize - used)).length := by
        rw [List.length_append, hpre, hlen]
        omega
      rw [← hbuf]
      exact (congrArg (List.take · _) hread).trans List.take_left
    refine ⟨[], ?_, ?_⟩
    · simp only [BinlogParser.memory, h.bufOffset, ok_bind]
      rw [htake, ← hpre, List.drop_left, List.append_nil]
    · rw [List.append_nil, hlen]
      omega

theorem Reading.readSize_eq {file rest : List UInt8} {used : ℕ} {p : BinlogParser}
    (h : Reading file rest used p) (hmore : p.size ≤ used + rest.length) : p.readSize = p.size := by
  rw [h.readSize, Nat.min_eq_left hmore]

theorem Reading.offset_eq_iff {file rest : List UInt8} {used : ℕ} {p : BinlogParser}
    (h : Reading file rest used p) : p.offset = p.readSize ↔ used = p.readSize := by
  rw [h.offset]
  omega

/-- Reading on: what is left in the buffer moves to the front, and the file fills the buffer. -/
theorem Reading.parseRead {file rest : List UInt8} {used : ℕ} {p : BinlogParser}
    (h : Reading file rest used p) (hsize : 0 < p.size) (hcut : used = p.size ∨ p.size ≤ 2 * used)
    (hmore : p.size < used + rest.length) (m : Machine) :
    ∃ p', binlogParseRead file p m = .ok p' ∧ Reading file rest 0 p' ∧ p'.size = p.size := by
  have hread := h.readSize_eq hmore.le
  have hused := h.used_le
  obtain ⟨pre, hpre, hw⟩ := h.bytes
  have hunread := h.unread
  rw [hread] at hused hw hunread
  generalize hn : p.size - used = n at hw hunread
  have hlen : (rest.take n).length = n := by
    rw [List.length_take]
    omega
  have hdisjoint : n = 0 ∨ n ≤ used := by omega
  have hcopied : copied m.overlapped p.buf used n = load p.buf used n := if_pos hdisjoint
  -- the part that is left
  have htail : load p.buf used n = .ok (rest.take n) := by
    rw [← List.append_nil (rest.take n)] at hw
    exact hw.load hpre.symm hlen.symm
  have hroom₁ : 0 + (rest.take n).length ≤ p.buf.length := by
    rw [hlen, h.length]
    omega
  have hw₀ : Wrote p.buf [] := List.nil_prefix
  obtain ⟨buf₁, hs₁, hl₁, hw₁⟩ := hw₀.store 0 (rest.take n) rfl hroom₁
  -- the part of the file that is read behind it
  have hbytes : readFile file p.fileOffset (p.size - n) = (rest.drop n).take (p.size - n) := by
    rw [readFile, hunread]
  have hblen : ((rest.drop n).take (p.size - n)).length = min p.size rest.length - n := by
    rw [List.length_take, List.length_drop]
    omega
  have hroom₂ : n + ((rest.drop n).take (p.size - n)).length ≤ buf₁.length := by
    rw [hblen, hl₁, h.length]
    omega
  obtain ⟨buf₂, hs₂, hl₂, hw₂⟩ := hw₁.store n _ hlen.symm hroom₂
  have hpos : 0 < ((rest.drop n).take (p.size - n)).length := by
    rw [hblen]
    omega
  have hall : rest.take n ++ (rest.drop n).take (p.size - n) = rest.take p.size := by
    rw [← List.take_add]
    congr 1
    omega
  have hnew : ((rest.drop n).take (p.size - n)).length + n = min p.size (0 + rest.length) := by
    rw [hblen]
    omega
  have hfile : file.length - p.fileOffset = rest.length - n := by
    rw [← List.length_drop, hunread, List.length_drop]
  have hle : p.fileOffset + ((rest.drop n).take (p.size - n)).length ≤ file.length := by
    rw [hblen]
    have hle := h.fileOffset_le
    omega
  have h31 := lt_of_le_of_lt hle h.small
  refine ⟨⟨buf₂, p.size, ((rest.drop n).take (p.size - n)).length + n, 0,
    p.fileOffset + ((rest.drop n).take (p.size - n)).length, p.fileSize⟩, ?_, ?_, rfl⟩
  · rw [binlogParseRead, if_neg h.started]
    simp only [h.bufOffset, ok_bind, hread, check_true hused, hn, hcopied, htail, hs₁, hbytes, hs₂,
      check_true hpos, check_true h31]
  · refine ⟨hl₂.trans (hl₁.trans h.length), rfl, hnew, Nat.zero_le _, ⟨[], rfl, ?_⟩, ?_, ?_, hle, h.fileSize,
      h.small⟩
    · dsimp only
      rw [hnew, Nat.zero_add, Nat.sub_zero, List.nil_append, ← List.take_take, List.take_length,
        ← hall]
      exact hw₂
    · dsimp only
      rw [← List.drop_drop, hunread, List.drop_drop, Nat.sub_zero, Nat.add_comm]
    · dsimp only
      have hstarted := h.started
      omega

/-- A part that is larger than what is before it would be copied over itself. -/
theorem Reading.parseRead_overlap {file rest : List UInt8} {used : ℕ} {p : BinlogParser}
    (h : Reading file rest used p) (hlarge : ¬ p.size ≤ 2 * used)
    (hmore : p.size < used + rest.length) : binlogParseRead file p = .error .overlap := by
  have hread := h.readSize_eq hmore.le
  have hused := h.used_le
  rw [hread] at hused
  have hoverlap : ¬ (p.size - used = 0 ∨ p.size - used ≤ used) := by omega
  have hcopied : copied none p.buf used (p.size - used) = .error .overlap := if_neg hoverlap
  rw [binlogParseRead, if_neg h.started]
  simp only [h.bufOffset, ok_bind, hread, check_true hused, hcopied, error_bind]

/-! ### A turn of the loop -/

/-- Five bytes in the buffer give the length of the record. -/
theorem Reading.readLen {file rest : List UInt8} {used : ℕ} {p : BinlogParser}
    (h : Reading file rest used p) {len : ℤ} (hlen : Binlog.readLen rest = .ok len)
    (hfive : used + 5 ≤ p.readSize) (extent : Extent) :
    ∃ m, p.memory extent = .ok m ∧ Binlog.readLen m = .ok len := by
  obtain ⟨post, hm, -⟩ := h.memory extent
  exact ⟨_, hm, readLen_take hlen (by omega) post⟩

/-- Fewer do not: the length would be read behind the buffer. -/
theorem Reading.readLen_short {file rest : List UInt8} {used : ℕ} {p : BinlogParser}
    (h : Reading file rest used p) (hfive : p.size < used + 5) (extent : Extent) :
    ∃ m, p.memory extent = .ok m ∧ Binlog.readLen m = .error .outOfBounds := by
  obtain ⟨post, hm, hlen⟩ := h.memory extent
  refine ⟨_, hm, ?_⟩
  have hload : load (rest.take (p.readSize - used) ++ post) 1 4 = .error .outOfBounds :=
    if_neg (by omega)
  rw [Binlog.readLen, hload, error_bind]

/-- Where the bytes read end does not matter for what the parser sees of the file. -/
theorem Reading.take_eq {file rest : List UInt8} {used : ℕ} {p : BinlogParser}
    (h : Reading file rest used p) : rest.take (p.readSize - used) = rest.take (p.size - used) := by
  have hread := h.readSize
  rcases le_total p.size (used + rest.length) with hle | hle
  · rw [hread, Nat.min_eq_left hle]
  · rw [List.take_of_length_le (by omega), List.take_of_length_le (by omega)]

/-- The parser further on, in the bytes read. -/
theorem Reading.advance {file rest : List UInt8} {used : ℕ} {p : BinlogParser}
    (h : Reading file rest used p) {len : ℕ} (hin : used + len ≤ p.readSize) :
    Reading file (rest.drop len) (used + len) { p with offset := p.offset + len } := by
  have hread := h.readSize
  obtain ⟨pre, hpre, hw⟩ := h.bytes
  have hlen : (rest.take len).length = len := by
    rw [List.length_take]
    omega
  have hall : rest.take len ++ (rest.drop len).take (p.readSize - (used + len)) = rest.take (p.readSize - used) := by
    rw [← List.take_add]
    congr 1
    omega
  refine ⟨h.length, ?_, ?_, hin, ⟨pre ++ rest.take len, ?_, ?_⟩, ?_, h.started, h.fileOffset_le,
    h.fileSize, h.small⟩
  · dsimp only
    rw [h.offset, Nat.cast_add]
  · dsimp only
    rw [hread, List.length_drop]
    congr 1
    omega
  · rw [List.length_append, hpre, hlen]
  · rw [List.append_assoc, hall]
    exact hw
  · dsimp only
    rw [h.unread, List.drop_drop]
    congr 1
    omega

/-- The turn decodes a record with the given length field from these bytes, with something behind them in
memory, and leaves the parser in the state `p'`. -/
def Decodes (env : ParserEnv) (file : List UInt8) (extent : Extent) (p : BinlogParser) (m : Machine)
    (len : ℕ) (bs : List UInt8) (p' : BinlogParser) : Prop :=
  ∃ post, binlogPraseTurn env file extent p m = (do
    let d ← decodeRecord env len (bs ++ post) m
    .ok (p', d))

/-- When the parser accepts the record, the turn gives what it makes of it. -/
theorem Decodes.turn {env : ParserEnv} {file : List UInt8} {extent : Extent} {p p' : BinlogParser} {m : Machine}
    {len : ℕ} {bs : List UInt8} (h : Decodes env file extent p m len bs p') {d : Decoded}
    (hd : decodeRecord env len bs m = .ok d) : binlogPraseTurn env file extent p m = .ok (p', d) := by
  obtain ⟨post, hturn⟩ := h
  rw [hturn, decodeRecord_more post hd]
  rfl

/-- Fewer bytes, and more behind them. -/
theorem Decodes.take {env : ParserEnv} {file : List UInt8} {extent : Extent} {p p' : BinlogParser} {m : Machine}
    {len k : ℕ} {bs rest : List UInt8} (h : Decodes env file extent p m len ((bs ++ rest).take k) p')
    (hk : bs.length ≤ k) : Decodes env file extent p m len bs p' := by
  obtain ⟨post, hturn⟩ := h
  rw [List.take_append, List.take_of_length_le hk, List.append_assoc] at hturn
  exact ⟨_, hturn⟩

/-- Where the length field does not lead behind the bytes read, the turn does not read on, and goes to where the
field says. -/
theorem Reading.turn_stays {file rest : List UInt8} {used : ℕ} {p : BinlogParser}
    (h : Reading file rest used p) (hsize : p.size ≤ 2 ^ 30) {len : ℤ} (hlen : Binlog.readLen rest = .ok len)
    (hhead : used + 5 ≤ p.size) (hin : used + len ≤ p.readSize) (env : ParserEnv) (extent : Extent) (m : Machine) :
    ∃ post, binlogPraseTurn env file extent p m = (do
      let d ← decodeRecord env len (rest.take (p.size - used) ++ post) m
      .ok ({ p with offset := p.offset + len }, d)) := by
  have hfive := five_le_of_readLen hlen
  have hread := h.readSize
  have hne : ¬ p.offset = p.readSize := by
    rw [h.offset_eq_iff]
    omega
  have hin' : ¬ len + p.offset > p.readSize := by
    rw [h.offset]
    omega
  have h31 : len + p.offset < 2 ^ 31 := by
    rw [h.offset]
    omega
  obtain ⟨buffer, hm, hl⟩ := h.readLen hlen (by omega) extent
  obtain ⟨post, hm', -⟩ := h.memory extent
  rw [h.take_eq] at hm'
  obtain rfl : buffer = rest.take (p.size - used) ++ post := Except.ok.inj (hm.symm.trans hm')
  refine ⟨post, ?_⟩
  simp only [binlogPraseTurn, parseReadIf, if_neg hne, ok_bind, hm, hl, check_true h31, if_neg hin']

/-- A record that lies in the buffer is decoded without reading on. -/
theorem Reading.turn_fits {file rest : List UInt8} {used : ℕ} {p : BinlogParser}
    (h : Reading file rest used p) (hsize : p.size ≤ 2 ^ 30) {len : ℕ} (hlen : Binlog.readLen rest = .ok (len : ℤ))
    (hwhole : len ≤ rest.length) (hhead : used + 5 ≤ p.size) (hfits : used + len ≤ p.size)
    (env : ParserEnv) (extent : Extent) (m : Machine) :
    ∃ p', Decodes env file extent p m len (rest.take (p.size - used)) p' ∧ p'.size = p.size ∧
      Reading file (rest.drop len) (used + len) p' := by
  have hread := h.readSize
  have hin : used + len ≤ p.readSize := by omega
  obtain ⟨post, hturn⟩ := h.turn_stays hsize hlen hhead (by exact_mod_cast hin) env extent m
  exact ⟨_, ⟨post, hturn⟩, rfl, h.advance hin⟩

/-- A record that the end of the buffer cuts is decoded after reading on, when the cut is allowed. -/
theorem Reading.turn_cut {file rest : List UInt8} {used : ℕ} {p : BinlogParser}
    (h : Reading file rest used p) (hsize : p.size ≤ 2 ^ 30) {len : ℕ} (hlen : Binlog.readLen rest = .ok (len : ℤ))
    (hwhole : len ≤ rest.length) (hhead : 5 ≤ p.size) (hle : len ≤ p.size) (hout : p.size < used + len)
    (hcut : used = p.size ∨ (used + 5 ≤ p.size ∧ p.size ≤ 2 * used)) (env : ParserEnv) (extent : Extent)
    (m : Machine) :
    ∃ p', Decodes env file extent p m len (rest.take p.size) p' ∧ p'.size = p.size ∧
      Reading file (rest.drop len) len p' := by
  have hmore : p.size < used + rest.length := by omega
  have hread := h.readSize_eq hmore.le
  obtain ⟨p₁, hp₁, h₁, hsize₁⟩ := h.parseRead (by omega) (hcut.imp_right And.right) hmore m
  have hread₁ := h₁.readSize
  have hfive := five_le_of_readLen hlen
  rcases hcut with hend | ⟨hlead, -⟩
  · -- the buffer ends with the record before, and the turn goes on as from the new buffer
    obtain ⟨p', ⟨post, hturn⟩, hsize', h'⟩ :=
      h₁.turn_fits (hsize₁ ▸ hsize) hlen hwhole (by omega) (by omega) env extent m
    rw [Nat.sub_zero, hsize₁] at hturn
    rw [Nat.zero_add] at h'
    refine ⟨p', ⟨post, ?_⟩, hsize'.trans hsize₁, h'⟩
    have hoff : p.offset = p.readSize := h.offset_eq_iff.mpr (hend.trans hread.symm)
    have hoff₁ : ¬ p₁.offset = p₁.readSize := by
      rw [h₁.offset_eq_iff]
      omega
    rw [← hturn]
    simp only [binlogPraseTurn, parseReadIf, if_pos hoff, if_neg hoff₁, hp₁, ok_bind]
  · -- the length is there, the record is not
    have hoff : ¬ p.offset = p.readSize := by
      rw [h.offset_eq_iff]
      omega
    have hpast : (len : ℤ) + p.offset > p.readSize := by
      rw [h.offset]
      omega
    have h31 : (len : ℤ) + p.offset < 2 ^ 31 := by
      rw [h.offset]
      omega
    obtain ⟨buffer, hm, hl⟩ := h.readLen hlen (by omega) extent
    obtain ⟨post, hm₁, -⟩ := h₁.memory extent
    have hin : 0 + len ≤ p₁.readSize := by omega
    have hnext := h₁.advance hin
    rw [Nat.zero_add] at hnext
    rw [h₁.take_eq, Nat.sub_zero, hsize₁] at hm₁
    refine ⟨{ p₁ with offset := p₁.offset + len }, ⟨post, ?_⟩, hsize₁, hnext⟩
    simp only [binlogPraseTurn, parseReadIf, if_neg hoff, ok_bind, hm, hl, check_true h31,
      if_pos hpast, hp₁, hm₁]

theorem turn_fits {env : ParserEnv} {file rest : List UInt8} {used : ℕ} {p : BinlogParser} {c : Call}
    {vs : List Value} (h : Reading file (recordBytes c vs ++ rest) used p) (hsize : p.size ≤ 2 ^ 30)
    (hfits : used + (recordBytes c vs).length ≤ p.size) (extent : Extent) :
    ∃ p', Decodes env file extent p {} (recordBytes c vs).length (recordBytes c vs) p' ∧ p'.size = p.size ∧
      Reading file rest (used + (recordBytes c vs).length) p' := by
  have hfive := five_lt_length_recordBytes c vs
  have hwhole : (recordBytes c vs).length ≤ (recordBytes c vs ++ rest).length := by simp
  obtain ⟨p', hdec, hsize', h'⟩ :=
    h.turn_fits hsize (readLen_record c vs rest (by omega)) hwhole (by omega) hfits env extent {}
  rw [List.drop_left] at h'
  exact ⟨p', hdec.take (by omega), hsize', h'⟩

theorem turn_cut {env : ParserEnv} {file rest : List UInt8} {used : ℕ} {p : BinlogParser} {c : Call}
    {vs : List Value} (h : Reading file (recordBytes c vs ++ rest) used p) (hsize : p.size ≤ 2 ^ 30)
    (hlen : (recordBytes c vs).length ≤ p.size) (hout : p.size < used + (recordBytes c vs).length)
    (hcut : used = p.size ∨ (used + 5 ≤ p.size ∧ p.size ≤ 2 * used)) (extent : Extent) :
    ∃ p', Decodes env file extent p {} (recordBytes c vs).length (recordBytes c vs) p' ∧ p'.size = p.size ∧
      Reading file rest (recordBytes c vs).length p' := by
  have hfive := five_lt_length_recordBytes c vs
  have hwhole : (recordBytes c vs).length ≤ (recordBytes c vs ++ rest).length := by simp
  obtain ⟨p', hdec, hsize', h'⟩ :=
    h.turn_cut hsize (readLen_record c vs rest (by omega)) hwhole (by omega) hlen hout hcut env extent {}
  rw [List.drop_left] at h'
  exact ⟨p', hdec.take hlen, hsize', h'⟩

/-- At any other cut the turn fails. -/
theorem turn_error {env : ParserEnv} {file rest : List UInt8} {used : ℕ} {p : BinlogParser} {c : Call}
    {vs : List Value} (h : Reading file (recordBytes c vs ++ rest) used p) (hsize : p.size ≤ 2 ^ 30)
    (hlen : (recordBytes c vs).length ≤ p.size) (hout : p.size < used + (recordBytes c vs).length)
    (hcut : ¬ (used = p.size ∨ (used + 5 ≤ p.size ∧ p.size ≤ 2 * used))) (extent : Extent) :
    ∃ e, binlogPraseTurn env file extent p = .error e := by
  have hmore : p.size < used + (recordBytes c vs ++ rest).length := by
    rw [List.length_append]
    omega
  have hread := h.readSize_eq hmore.le
  have hused := h.used_le
  have hoff : ¬ p.offset = p.readSize := by
    rw [h.offset_eq_iff]
    omega
  by_cases hlead : used + 5 ≤ p.size
  · -- the part that is there would be copied over itself
    have hpast : (recordBytes c vs).length + p.offset > p.readSize := by
      rw [h.offset]
      omega
    have h31 : ((recordBytes c vs).length + p.offset : ℤ) < 2 ^ 31 := by
      rw [h.offset]
      omega
    obtain ⟨m, hm, hl⟩ := h.readLen (readLen_record c vs rest (by omega)) (by omega) extent
    have hoverlap := h.parseRead_overlap (by omega) hmore
    refine ⟨.overlap, ?_⟩
    simp only [binlogPraseTurn, parseReadIf, if_neg hoff, ok_bind, hm, hl, check_true h31,
      if_pos hpast, hoverlap, error_bind]
  · -- the length lies behind the buffer
    obtain ⟨m, hm, hl⟩ := h.readLen_short (by omega) extent
    refine ⟨.outOfBounds, ?_⟩
    simp only [binlogPraseTurn, parseReadIf, if_neg hoff, ok_bind, hm, hl, error_bind]

/-! ### The whole log -/

/-- Each record lies in the buffer, or the end of the buffer cuts it where the parser can go on:
`used` bytes of the buffer lie before the first record. -/
def CutsOk (size : ℕ) : ℕ → List ℕ → Prop
  | _, [] => True
  | used, len :: lens =>
    if used + len ≤ size then CutsOk size (used + len) lens
    else (used = size ∨ (used + 5 ≤ size ∧ size ≤ 2 * used)) ∧ CutsOk size len lens

/-- At the end of the file, and only there, the loop ends. -/
theorem Reading.stop_iff {file rest : List UInt8} {used : ℕ} {p : BinlogParser}
    (h : Reading file rest used p) :
    ((p.fileOffset : ℤ) = p.fileSize ∧ p.offset = p.readSize) ↔ rest = [] := by
  have hused := h.used_le
  have hread := h.readSize_le
  have hunread := h.unread
  rw [h.fileSize, h.offset_eq_iff, Nat.cast_inj]
  constructor
  · rintro ⟨hfile, hend⟩
    rw [hfile, List.drop_length, ← hend, Nat.sub_self, List.drop_zero] at hunread
    exact hunread.symm
  · rintro rfl
    rw [List.length_nil] at hread
    rw [List.drop_nil, List.drop_eq_nil_iff] at hunread
    have hle := h.fileOffset_le
    exact ⟨by omega, by omega⟩

/-- With the records ahead cut where the parser can go on, they are decoded in order. -/
theorem binlogPrase_ok {env : ParserEnv} {file : List UInt8} {records : List (List UInt8)}
    {lines : List Decoded} (hw : ∀ bs ∈ records, Written bs)
    (hd : List.Forall₂ (fun bs d => decodeRecord env bs.length bs = .ok d) records lines)
    (hne : records ≠ []) {used : ℕ} {p : BinlogParser} (h : Reading file records.flatten used p)
    (hsize : p.size ≤ 2 ^ 30) (hfits : ∀ bs ∈ records, bs.length ≤ p.size)
    (hcuts : CutsOk p.size used (records.map List.length)) (extent : Extent) :
    binlogPrase env file extent records.length p = .ok lines := by
  induction hd generalizing used p with
  | nil => exact absurd rfl hne
  | @cons bs d records lines hd hds ih =>
    obtain ⟨c, vs, rfl, -⟩ := (hw bs List.mem_cons_self).record
    have hlen := hfits _ List.mem_cons_self
    obtain ⟨p', used', hturn, hsize', h', hcuts'⟩ : ∃ p' used',
        binlogPraseTurn env file extent p = .ok (p', d) ∧ p'.size = p.size ∧
          Reading file records.flatten used' p' ∧
          CutsOk p.size used' (records.map List.length) := by
      rw [List.map_cons, CutsOk] at hcuts
      split at hcuts
      case isTrue hin =>
        obtain ⟨p', hturn, hsize', h'⟩ := turn_fits h hsize hin extent
        exact ⟨p', _, hturn.turn hd, hsize', h', hcuts⟩
      case isFalse hout =>
        obtain ⟨p', hturn, hsize', h'⟩ := turn_cut h hsize hlen (by omega) hcuts.1 extent
        exact ⟨p', _, hturn.turn hd, hsize', h', hcuts.2⟩
    rw [List.length_cons, binlogPrase, hturn, ok_bind]
    dsimp only
    cases hds with
    | nil => rw [if_pos (h'.stop_iff.mpr rfl)]
    | @cons bs' d' records lines hd' hds =>
      have hne' : ¬ ((p'.fileOffset : ℤ) = p'.fileSize ∧ p'.offset = p'.readSize) := by
        obtain ⟨c', vs', rfl, -⟩ := (hw bs' (List.mem_cons_of_mem _ List.mem_cons_self)).record
        rw [h'.stop_iff]
        exact fun hnil => List.cons_ne_nil _ _ hnil
      rw [← hsize'] at hcuts'
      have hrest := ih (fun bs hbs => hw bs (List.mem_cons_of_mem _ hbs)) (List.cons_ne_nil _ _) h'
        (hsize' ▸ hsize) (fun bs hbs => hsize' ▸ hfits bs (List.mem_cons_of_mem _ hbs)) hcuts'
      rw [if_neg hne', hrest, ok_bind]

/-- A turn that succeeds has decoded the record, the cut was allowed, and the parser stands behind
the record. -/
theorem turn_ok {env : ParserEnv} {file rest : List UInt8} {used : ℕ} {p p' : BinlogParser} {c : Call}
    {vs : List Value} {d : Decoded} (h : Reading file (recordBytes c vs ++ rest) used p)
    (hsize : p.size ≤ 2 ^ 30) (hlen : (recordBytes c vs).length ≤ p.size) {extent : Extent}
    (hturn : binlogPraseTurn env file extent p = .ok (p', d)) (lens : List ℕ) :
    (∃ post, decodeRecord env (recordBytes c vs).length (recordBytes c vs ++ post) = .ok d) ∧
      ∃ used', p'.size = p.size ∧ Reading file rest used' p' ∧
        (CutsOk p.size used' lens → CutsOk p.size used ((recordBytes c vs).length :: lens)) := by
  -- the turn is one of those that decode the record
  have hinv : ∀ {p₁}, Decodes env file extent p {} (recordBytes c vs).length (recordBytes c vs) p₁ →
      (∃ post, decodeRecord env (recordBytes c vs).length (recordBytes c vs ++ post) = .ok d) ∧
        p₁ = p' := by
    rintro p₁ ⟨post, he⟩
    rw [hturn] at he
    obtain ⟨d', hd', he⟩ := bind_eq_ok.mp he.symm
    cases he
    exact ⟨⟨post, hd'⟩, rfl⟩
  by_cases hin : used + (recordBytes c vs).length ≤ p.size
  · obtain ⟨p₁, hdec, hsize₁, h₁⟩ := turn_fits h hsize hin extent
    obtain ⟨hd, rfl⟩ := hinv hdec
    refine ⟨hd, _, hsize₁, h₁, fun hcuts => ?_⟩
    rwa [CutsOk, if_pos hin]
  · by_cases hcut : used = p.size ∨ (used + 5 ≤ p.size ∧ p.size ≤ 2 * used)
    · obtain ⟨p₁, hdec, hsize₁, h₁⟩ :=
        turn_cut h hsize hlen (by omega) hcut extent
      obtain ⟨hd, rfl⟩ := hinv hdec
      refine ⟨hd, _, hsize₁, h₁, fun hcuts => ?_⟩
      rw [CutsOk, if_neg hin]
      exact ⟨hcut, hcuts⟩
    · obtain ⟨e, he⟩ := turn_error h hsize hlen (by omega) hcut extent
      rw [he] at hturn
      cases hturn

/-- When the parser gets through, the records are cut where it can go on, and it has decoded each. -/
theorem binlogPrase_inv {env : ParserEnv} {file : List UInt8} {records : List (List UInt8)}
    {lines : List Decoded} (hw : ∀ bs ∈ records, Written bs) {used : ℕ} {p : BinlogParser}
    (h : Reading file records.flatten used p) (hne : records ≠ []) (hsize : p.size ≤ 2 ^ 30)
    (hfits : ∀ bs ∈ records, bs.length ≤ p.size) {extent : Extent} {fuel : ℕ}
    (hok : binlogPrase env file extent fuel p = .ok lines) :
    CutsOk p.size used (records.map List.length) ∧
      List.Forall₂ (fun bs d => ∃ post, decodeRecord env bs.length (bs ++ post) = .ok d)
        records lines := by
  induction records generalizing used p fuel lines with
  | nil => exact absurd rfl hne
  | cons bs records ih =>
    obtain ⟨c, vs, rfl, -⟩ := (hw bs List.mem_cons_self).record
    have hlen := hfits _ List.mem_cons_self
    cases fuel with
    | zero => cases hok
    | succ fuel =>
      obtain ⟨⟨p', d⟩, hturn, hok⟩ := bind_eq_ok.mp hok
      have h₀ : Reading file (recordBytes c vs ++ records.flatten) used p := h
      obtain ⟨hd, used', hsize', h', hcuts⟩ :=
        turn_ok h₀ hsize hlen hturn (records.map List.length)
      dsimp only at hok
      split at hok
      case isTrue hstop =>
        cases hok
        have hnil := h'.stop_iff.mp hstop
        cases records with
        | nil => exact ⟨hcuts trivial, .cons hd .nil⟩
        | cons bs' records =>
          obtain ⟨c', vs', rfl, -⟩ := (hw bs' (List.mem_cons_of_mem _ List.mem_cons_self)).record
          exact absurd hnil (List.cons_ne_nil _ _)
      case isFalse hgo =>
        obtain ⟨ds, hrest, hok⟩ := bind_eq_ok.mp hok
        cases hok
        have hne' : records ≠ [] := by
          rintro rfl
          exact hgo (h'.stop_iff.mpr rfl)
        obtain ⟨hcuts', hds⟩ := ih (fun bs hbs => hw bs (List.mem_cons_of_mem _ hbs)) h' hne'
          (hsize' ▸ hsize) (fun bs hbs => hsize' ▸ hfits bs (List.mem_cons_of_mem _ hbs)) hrest
        exact ⟨hcuts (hsize' ▸ hcuts'), .cons hd hds⟩

theorem binlogFileSize_eq {file : List UInt8} (h : file.length < 2 ^ 31) :
    binlogFileSize file = file.length := by
  have hnat : (BitVec.ofNat 32 file.length).toNat = file.length := by
    rw [BitVec.toNat_ofNat, Nat.mod_eq_of_lt (by omega)]
  rw [binlogFileSize, BitVec.toInt_eq_toNat_of_lt (by omega), hnat]

/-- The first read. -/
theorem reading_create {file : List UInt8} (hne : file ≠ []) (hsmall : file.length < 2 ^ 31)
    (junk : ℕ → UInt8) :
    ∃ p, binlogParserCreate file junk = .ok (some p) ∧ Reading file file 0 p ∧
      p.size = parserBufSize := by
  have hsize : 0 < parserBufSize := by
    rw [parserBufSize]
    exact Nat.two_pow_pos 22
  have hlen : 0 < file.length := List.length_pos_iff.mpr hne
  have hnonneg : ¬ (file.length : ℤ) < 0 := by omega
  rw [binlogParserCreate, binlogFileSize_eq hsmall, if_neg hnonneg]
  generalize parserBufSize = size at hsize ⊢
  have hbytes : readFile file 0 size = file.take size := rfl
  have hblen : (file.take size).length = min size file.length := List.length_take
  have hpos : 0 < (file.take size).length := by
    rw [hblen]
    omega
  have hw₀ : Wrote (malloc junk size) [] := List.nil_prefix
  have hroom : 0 + (file.take size).length ≤ (malloc junk size).length := by
    rw [length_malloc, hblen]
    omega
  have hle : 0 + (file.take size).length ≤ file.length := by
    rw [hblen]
    omega
  obtain ⟨buf, hs, hl, hw⟩ := hw₀.store 0 (file.take size) rfl hroom
  refine ⟨⟨buf, size, (file.take size).length, 0, 0 + (file.take size).length, file.length⟩, ?_, ?_, rfl⟩
  · simp only [binlogParseRead, if_true, hbytes, check_true hpos, check_true (lt_of_le_of_lt hle hsmall),
      hs, ok_bind]
  · refine ⟨hl.trans (length_malloc junk size), rfl, ?_, Nat.zero_le _, ⟨[], rfl, ?_⟩, ?_, ?_, hle, rfl,
      hsmall⟩
    · dsimp only
      rw [hblen, Nat.zero_add]
    · dsimp only
      rw [List.nil_append, Nat.sub_zero, hblen, ← List.take_take, List.take_length]
      exact hw
    · dsimp only
      rw [Nat.zero_add, Nat.sub_zero]
    · dsimp only
      omega

/-- A log file: a concatenation of records, none larger than the buffer, with what the parser makes
of each of them by itself. -/
structure Log (env : ParserEnv) where
  records : List (List UInt8)
  ne_nil : records ≠ []
  written : ∀ bs ∈ records, Written bs
  fits : ∀ bs ∈ records, bs.length ≤ parserBufSize
  small : records.flatten.length < 2 ^ 31
  lines : List Decoded
  accepted : List.Forall₂ (fun bs d => decodeRecord env bs.length bs = .ok d) records lines

/-- The parser decodes the records of a log, each once and in order, and then stops, whatever was in
its buffer before, and so it does within `read_size`. -/
def Log.Decoded {env : ParserEnv} (log : Log env) : Prop :=
  ∀ junk extent, ∃ fuel, parseFile env log.records.flatten junk extent fuel = .ok log.lines

theorem Log.reading {env : ParserEnv} (log : Log env) (junk : ℕ → UInt8) :
    ∃ p, binlogParserCreate log.records.flatten junk = .ok (some p) ∧
      Reading log.records.flatten log.records.flatten 0 p ∧ p.size = parserBufSize := by
  refine reading_create ?_ log.small junk
  obtain ⟨bs, records, hrecords⟩ := List.exists_cons_of_ne_nil log.ne_nil
  obtain ⟨c, vs, rfl, -⟩ := (log.written bs (hrecords ▸ List.mem_cons_self)).record
  rw [hrecords]
  exact List.cons_ne_nil _ _

theorem parserBufSize_le : parserBufSize ≤ 2 ^ 30 := by
  rw [parserBufSize]
  exact Nat.pow_le_pow_right (by decide) (by decide)

/-- When the parser gets through a log, its records are cut where the parser can go on. -/
theorem Log.cutsOk {env : ParserEnv} (log : Log env) {junk : ℕ → UInt8} {extent : Extent} {fuel : ℕ}
    {lines : List Binlog.Decoded}
    (hok : parseFile env log.records.flatten junk extent fuel = .ok lines) :
    CutsOk parserBufSize 0 (log.records.map List.length) := by
  obtain ⟨p, hp, h, hsize⟩ := log.reading junk
  rw [parseFile, hp, ok_bind] at hok
  have hfits := log.fits
  rw [← hsize] at hfits ⊢
  exact (binlogPrase_inv log.written h log.ne_nil (hsize ▸ parserBufSize_le) hfits hok).1

/-- When its records are cut where the parser can go on, a log is decoded. -/
theorem Log.decoded_of_cutsOk {env : ParserEnv} (log : Log env)
    (hcuts : CutsOk parserBufSize 0 (log.records.map List.length)) : log.Decoded := by
  intro junk extent
  obtain ⟨p, hp, h, hsize⟩ := log.reading junk
  have hfits := log.fits
  rw [← hsize] at hfits hcuts
  refine ⟨log.records.length, ?_⟩
  rw [parseFile, hp, ok_bind]
  exact binlogPrase_ok log.written log.accepted log.ne_nil h (hsize ▸ parserBufSize_le) hfits hcuts
    extent

/-- A log is decoded exactly when its records are cut where the parser can go on. -/
theorem parseFile_iff {env : ParserEnv} (log : Log env) :
    log.Decoded ↔ CutsOk parserBufSize 0 (log.records.map List.length) := by
  constructor
  · intro hdec
    obtain ⟨fuel, hok⟩ := hdec (fun _ => 0) .buffer
    exact log.cutsOk hok
  · exact log.decoded_of_cutsOk

/-- Records that fit the buffer together are not cut. -/
theorem cutsOk_of_le {size used : ℕ} {lens : List ℕ} (h : used + lens.sum ≤ size) :
    CutsOk size used lens := by
  induction lens generalizing used with
  | nil => trivial
  | cons len lens ih =>
    rw [List.sum_cons, ← Nat.add_assoc] at h
    rw [CutsOk, if_pos (by omega)]
    exact ih h

/-- So a log no larger than the buffer is decoded. -/
theorem Log.decoded_of_le {env : ParserEnv} (log : Log env)
    (h : log.records.flatten.length ≤ parserBufSize) : log.Decoded := by
  rw [List.length_flatten] at h
  exact log.decoded_of_cutsOk (cutsOk_of_le (by rwa [Nat.zero_add]))

/-- Records of one length are cut only once before the parser fails or goes on. -/
theorem cutsOk_replicate {size used len k : ℕ} (h : CutsOk size used (List.replicate (k + 1) len))
    (hin : used + k * len ≤ size) (hout : size < used + k * len + len) :
    used + k * len = size ∨ (used + k * len + 5 ≤ size ∧ size ≤ 2 * (used + k * len)) := by
  induction k generalizing used with
  | zero =>
    rw [Nat.zero_mul, Nat.add_zero] at hout ⊢
    rw [List.replicate_succ, CutsOk, if_neg (by omega)] at h
    exact h.1
  | succ k ih =>
    have hk : used + (k + 1) * len = used + len + k * len := by
      rw [Nat.succ_mul]
      omega
    rw [hk] at hin hout ⊢
    rw [List.replicate_succ, CutsOk, if_pos (by omega)] at h
    exact ih h hin hout

/-- A call with a short function name and no values. -/
def tickCall : Call := ⟨3, ⟨[102, 110], by decide⟩, 7, 0, 0⟩

/-- Its format, `"hi"`. -/
def tickItems : List Item := [.literal ⟨104, by decide⟩, .literal ⟨105, by decide⟩]

def tickEnv : ParserEnv :=
  ⟨[⟨tickCall.func, tickCall.line, formatOf tickItems⟩], fun _ => [], fun _ => [], fun _ _ => some []⟩

theorem tick_written : Written (recordBytes tickCall []) := by
  refine ⟨fun _ _ => 0, fun _ => 0, tickCall, formatOf tickItems, [], ?_⟩
  have he : EncodesWell tickItems := trivial
  refine binlogPrint_bytes _ _ tickCall (by decide) (by decide) fun tb w h hn => ?_
  exact doValogRecord_values he rfl _ h hn

theorem tick_accepted :
    ∃ d, decodeRecord tickEnv (recordBytes tickCall []).length (recordBytes tickCall []) = .ok d := by
  have hheader := readHeader_record tickCall [] []
  have hahead := ahead_record tickCall [] []
  rw [List.append_nil] at hheader hahead
  have hformat : formatFetch tickEnv.jsonArr tickCall.func tickCall.line = some (formatOf tickItems) := rfl
  obtain ⟨s, hs, -⟩ := @printFormat_reads tickEnv.fprintf tickItems [] trivial rfl _ _ hahead
  rw [decodeRecord, hheader, ok_bind]
  simp only [hformat, hs, ok_bind]
  exact ⟨_, rfl⟩

/-- 139811 records of 30 bytes: the first four bytes of the last one are the end of the buffer. -/
theorem parseFile_lost_length :
    ∃ log : Log tickEnv, log.records = List.replicate 139811 (recordBytes tickCall []) ∧
      ¬ log.Decoded := by
  obtain ⟨d, hd⟩ := tick_accepted
  have hlen : (recordBytes tickCall []).length = 30 := by decide
  generalize hk : 139810 = k
  have hcuts : ¬ CutsOk parserBufSize 0 (List.replicate (k + 1) 30) := by
    intro h
    have hcut := cutsOk_replicate h (by rw [← hk, parserBufSize]; decide)
      (by rw [← hk, parserBufSize]; decide)
    rw [← hk, parserBufSize] at hcut
    revert hcut
    decide
  have hfits : (recordBytes tickCall []).length ≤ parserBufSize := by
    rw [hlen, parserBufSize]
    decide
  have hsmall : (List.replicate (k + 1) (recordBytes tickCall [])).flatten.length < 2 ^ 31 := by
    rw [List.length_flatten, List.map_replicate, List.sum_replicate_nat, hlen]
    omega
  have haccepted : List.Forall₂ (fun bs d => decodeRecord tickEnv bs.length bs = .ok d)
      (List.replicate (k + 1) (recordBytes tickCall [])) (List.replicate (k + 1) d) := by
    generalize k + 1 = n
    induction n with
    | zero => exact .nil
    | succ n ih => exact .cons hd ih
  refine ⟨⟨List.replicate (k + 1) (recordBytes tickCall []), List.cons_ne_nil _ _, ?_, ?_, hsmall,
    List.replicate (k + 1) d, haccepted⟩, ?_, ?_⟩
  · intro bs hbs
    rw [List.eq_of_mem_replicate hbs]
    exact tick_written
  · intro bs hbs
    rw [List.eq_of_mem_replicate hbs]
    exact hfits
  · exact congrArg (List.replicate · _) (by omega)
  · intro hdec
    obtain ⟨fuel, hok⟩ := hdec (fun _ => 0) .buffer
    have h := Log.cutsOk _ hok
    rw [List.map_replicate, hlen] at h
    exact hcuts h

end CcUtils.Binlog
