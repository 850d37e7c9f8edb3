import CcUtils.Binlog.Stream

/-!
# Records without a format

A record whose function and line have no entry in the JSON table is reported on `stderr` as skipped,
and the parser then gives the missing format to `print_format` all the same. So it gets past no such
record, and what it is said to do with them holds of exactly the logs that have none.

## What is proved

* `binlogPrase_unique` — the fuel decides only whether a run ends.
* `parseFile_known` — a log that is parsed to its end has no such record.
* `skipsUnknown_iff` — unknown records are skipped exactly where there are none.
-/

namespace CcUtils.Binlog

open CcUtils.Lib

/-! ### Skipping -/

/-- The function and line of the record have an entry in the table. -/
def known (env : ParserEnv) (bs : List UInt8) : Bool :=
  match readHeader bs with
  | .ok h => (formatFetch env.jsonArr h.func h.line).isSome
  | .error _ => false

/-- The same of a record that was decoded. -/
def Decoded.known (env : ParserEnv) (d : Decoded) : Bool :=
  (formatFetch env.jsonArr d.header.func d.header.line).isSome

/-- The first turns of the loop of `binlog_prase`. -/
def binlogPraseTurns (env : ParserEnv) (file : List UInt8) (extent : Extent) :
    ℕ → BinlogParser → Exec (BinlogParser × List Decoded)
  | 0, p => .ok (p, [])
  | k + 1, p => do
    let (p, d) ← binlogPraseTurn env file extent p
    let (p, ds) ← binlogPraseTurns env file extent k p
    .ok (p, d :: ds)

/-- How far into the file the parser is. -/
def BinlogParser.place (p : BinlogParser) : ℤ := p.fileOffset - p.readSize + p.offset

/-- Unknown records are skipped: the turn that comes to one reads its header and ends behind it; and
the other records give the same text as in the log without the unknown ones. -/
def SkipsUnknown (env : ParserEnv) (records : List (List UInt8)) : Prop :=
  ∀ junk,
    (∀ pre bs post, records = pre ++ bs :: post → known env bs = false →
      ∃ p q ds d, binlogParserCreate records.flatten junk = .ok (some p) ∧
        binlogPraseTurns env records.flatten .buffer (pre.length + 1) p = .ok (q, ds ++ [d]) ∧
        readHeader bs = .ok d.header ∧ q.place = (pre.flatten.length + bs.length : ℕ)) ∧
    ∀ fuel fuel' lines lines', parseFile env records.flatten junk .buffer fuel = .ok lines →
      parseFile env (records.filter (known env)).flatten junk .buffer fuel' = .ok lines' →
        (lines.filter (Decoded.known env)).map Decoded.text = lines'.map Decoded.text

/-! ### What is decoded is known -/

theorem decodeRecord_known {env : ParserEnv} {len : ℤ} {buffer : List UInt8} {d : Decoded}
    (h : decodeRecord env len buffer = .ok d) :
    readHeader buffer = .ok d.header ∧ d.known env = true := by
  obtain ⟨header, hheader, h⟩ := bind_eq_ok.mp h
  split at h
  · cases h
  · rename_i format hformat
    obtain ⟨s, -, h⟩ := bind_eq_ok.mp h
    cases h
    refine ⟨hheader, ?_⟩
    rw [Decoded.known, hformat]
    rfl

theorem binlogPraseTurn_known {env : ParserEnv} {file : List UInt8} {extent : Extent}
    {p p' : BinlogParser} {d : Decoded} (h : binlogPraseTurn env file extent p = .ok (p', d)) :
    d.known env = true := by
  obtain ⟨p₁, -, h⟩ := bind_eq_ok.mp h
  obtain ⟨b₁, -, h⟩ := bind_eq_ok.mp h
  obtain ⟨len, -, h⟩ := bind_eq_ok.mp h
  obtain ⟨_, -, h⟩ := bind_eq_ok.mp h
  obtain ⟨p₂, -, h⟩ := bind_eq_ok.mp h
  obtain ⟨b₂, -, h⟩ := bind_eq_ok.mp h
  obtain ⟨d', hd, h⟩ := bind_eq_ok.mp h
  cases h
  exact (decodeRecord_known hd).2

theorem binlogPrase_known {env : ParserEnv} {file : List UInt8} {extent : Extent} {fuel : ℕ}
    {p : BinlogParser} {lines : List Decoded} (h : binlogPrase env file extent fuel p = .ok lines) :
    ∀ d ∈ lines, d.known env = true := by
  induction fuel generalizing p lines with
  | zero => cases h
  | succ fuel ih =>
    obtain ⟨⟨p', d⟩, hturn, h⟩ := bind_eq_ok.mp h
    have hd := binlogPraseTurn_known hturn
    dsimp only at h
    split at h
    · cases h
      exact List.forall_mem_singleton.mpr hd
    · obtain ⟨ds, hds, h⟩ := bind_eq_ok.mp h
      cases h
      exact List.forall_mem_cons.mpr ⟨hd, ih hds⟩

theorem binlogPraseTurns_known {env : ParserEnv} {file : List UInt8} {extent : Extent} {k : ℕ}
    {p q : BinlogParser} {ds : List Decoded}
    (h : binlogPraseTurns env file extent k p = .ok (q, ds)) : ∀ d ∈ ds, d.known env = true := by
  induction k generalizing p ds with
  | zero =>
    cases h
    exact fun _ hd => absurd hd List.not_mem_nil
  | succ k ih =>
    obtain ⟨⟨p', d⟩, hturn, h⟩ := bind_eq_ok.mp h
    obtain ⟨⟨q', ds'⟩, hds, h⟩ := bind_eq_ok.mp h
    cases h
    exact List.forall_mem_cons.mpr ⟨binlogPraseTurn_known hturn, ih hds⟩

/-- Two runs that end give the same, whatever their fuel. -/
theorem binlogPrase_unique {env : ParserEnv} {file : List UInt8} {extent : Extent}
    {fuel fuel' : ℕ} {p : BinlogParser} {lines lines' : List Decoded}
    (h : binlogPrase env file extent fuel p = .ok lines)
    (h' : binlogPrase env file extent fuel' p = .ok lines') : lines = lines' := by
  induction fuel generalizing fuel' p lines lines' with
  | zero => cases h
  | succ fuel ih =>
    cases fuel' with
    | zero => cases h'
    | succ fuel' =>
      obtain ⟨⟨p', d⟩, hturn, h⟩ := bind_eq_ok.mp h
      rw [binlogPrase, hturn, ok_bind] at h'
      dsimp only at h h'
      split at h
      case isTrue hstop =>
        rw [if_pos hstop] at h'
        exact Except.ok.inj (h.symm.trans h')
      case isFalse hgo =>
        rw [if_neg hgo] at h'
        obtain ⟨ds, hds, h⟩ := bind_eq_ok.mp h
        obtain ⟨ds', hds', h'⟩ := bind_eq_ok.mp h'
        cases h
        cases h'
        rw [ih hds hds']

theorem parseFile_unique {env : ParserEnv} {file : List UInt8} {junk : ℕ → UInt8}
    {extent : Extent} {fuel fuel' : ℕ} {lines lines' : List Decoded}
    (h : parseFile env file junk extent fuel = .ok lines)
    (h' : parseFile env file junk extent fuel' = .ok lines') : lines = lines' := by
  obtain ⟨p, hp, h⟩ := bind_eq_ok.mp h
  rw [parseFile, hp, ok_bind] at h'
  cases p with
  | none => exact Except.ok.inj (h.symm.trans h')
  | some p => exact binlogPrase_unique h h'

theorem parseFile_lines_known {env : ParserEnv} {file : List UInt8} {junk : ℕ → UInt8}
    {extent : Extent} {fuel : ℕ} {lines : List Decoded}
    (h : parseFile env file junk extent fuel = .ok lines) : ∀ d ∈ lines, d.known env = true := by
  obtain ⟨p, -, h⟩ := bind_eq_ok.mp h
  cases p with
  | none =>
    cases h
    exact fun _ hd => absurd hd List.not_mem_nil
  | some p => exact binlogPrase_known h

/-! ### Logs -/

/-- A written log that is parsed to its end has no unknown record. -/
theorem parseFile_known {env : ParserEnv} {records : List (List UInt8)} (hne : records ≠ [])
    (hw : ∀ bs ∈ records, Written bs) (hfits : ∀ bs ∈ records, bs.length ≤ parserBufSize)
    (hsmall : records.flatten.length < 2 ^ 31) {junk : ℕ → UInt8} {extent : Extent} {fuel : ℕ}
    {lines : List Decoded} (h : parseFile env records.flatten junk extent fuel = .ok lines) :
    ∀ bs ∈ records, known env bs = true := by
  have hflat : records.flatten ≠ [] := by
    obtain ⟨bs, records, rfl⟩ := List.exists_cons_of_ne_nil hne
    obtain ⟨c, vs, rfl, -⟩ := (hw bs List.mem_cons_self).record
    exact List.cons_ne_nil _ _
  obtain ⟨p, hp, hreading, hsize⟩ := reading_create hflat hsmall junk
  rw [parseFile, hp, ok_bind] at h
  rw [← hsize] at hfits
  obtain ⟨-, hds⟩ := binlogPrase_inv hw hreading hne (hsize ▸ parserBufSize_le) hfits h
  -- each record has its line, and the line its entry
  have hheaders : ∀ bs ∈ records, ∃ d post, decodeRecord env bs.length (bs ++ post) = .ok d := by
    clear hw hne hfits hsmall hflat hreading hp h
    induction hds with
    | nil => exact fun _ hbs => absurd hbs List.not_mem_nil
    | cons hd _ ih =>
      obtain ⟨post, hd⟩ := hd
      exact List.forall_mem_cons.mpr ⟨⟨_, post, hd⟩, ih⟩
  intro bs hbs
  obtain ⟨d, post, hd⟩ := hheaders bs hbs
  obtain ⟨c, vs, rfl, -⟩ := (hw bs hbs).record
  obtain ⟨hheader, hknown⟩ := decodeRecord_known hd
  have hrecord := readHeader_record c vs []
  rw [readHeader_record c vs post] at hheader
  rw [List.append_nil] at hrecord
  rw [known, hrecord]
  rw [Decoded.known, ← Except.ok.inj hheader] at hknown
  exact hknown

/-- A log with an unknown record is not handled as it should be: no turn gets past the record. -/
theorem not_skipsUnknown {env : ParserEnv} {records : List (List UInt8)} {bs : List UInt8}
    (hbs : bs ∈ records) (hunknown : known env bs = false) : ¬ SkipsUnknown env records := by
  intro hskips
  obtain ⟨pre, post, hsplit⟩ := List.append_of_mem hbs
  obtain ⟨p, q, ds, d, -, hturns, hheader, -⟩ := (hskips fun _ => 0).1 pre bs post hsplit hunknown
  have hd : d.known env = true :=
    binlogPraseTurns_known hturns d (List.mem_append_right _ List.mem_cons_self)
  rw [known, hheader] at hunknown
  exact absurd (hd.symm.trans hunknown) (by decide)

/-- A log without unknown records is: there is nothing to skip. -/
theorem SkipsUnknown.of_known {env : ParserEnv} {records : List (List UInt8)}
    (hknown : ∀ bs ∈ records, known env bs = true) : SkipsUnknown env records := by
  refine fun junk => ⟨fun pre bs post hsplit hunknown => ?_, fun fuel fuel' lines lines' h h' => ?_⟩
  · have hbs : bs ∈ records := hsplit ▸ List.mem_append_right _ List.mem_cons_self
    exact absurd ((hknown bs hbs).symm.trans hunknown) (by decide)
  · rw [List.filter_eq_self.mpr hknown] at h'
    rw [parseFile_unique h' h, List.filter_eq_self.mpr (parseFile_lines_known h)]

/-- Unknown records are skipped exactly where there are none. -/
theorem skipsUnknown_iff (env : ParserEnv) (records : List (List UInt8)) :
    SkipsUnknown env records ↔ ∀ bs ∈ records, known env bs = true := by
  constructor
  · intro hskips bs hbs
    by_contra hunknown
    exact not_skipsUnknown hbs (Bool.eq_false_of_not_eq_true hunknown) hskips
  · exact SkipsUnknown.of_known

/-- A record that a call wrote, and no table. -/
theorem tick_not_skipped :
    Written (recordBytes tickCall []) ∧
      ¬ SkipsUnknown { tickEnv with jsonArr := [] } [recordBytes tickCall []] := by
  refine ⟨tick_written, not_skipsUnknown List.mem_cons_self ?_⟩
  have hheader := readHeader_record tickCall [] []
  rw [List.append_nil] at hheader
  rw [known, hheader]
  rfl

end CcUtils.Binlog
