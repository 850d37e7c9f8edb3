import Mathlib.Algebra.Order.Group.Unbundled.Abs
import CcUtils.Binlog.Parser

/-!
# The time of a record

`binlog_print` stamps a record with the microseconds of the monotonic clock. The parser reads both clocks,
adds the difference to each stamp, and prints whole seconds and a fraction of three digits. Two signs and
units go wrong on the way: the microseconds of the parser's monotonic clock are added to the difference
and not taken off, and the fraction is that of the millisecond, `ts % 1000`, and not that of the second.

What `localtime_r` and `strftime` make of the seconds is a parameter.

## What is proved

* `decodeRecord_shows` — the line of a record starts with the instant that the model computes.
* `rendered_iff` — the instants of a run are right up to a millisecond, and in order, exactly when the two
  slips cancel.
-/

namespace CcUtils.Binlog

open CcUtils.Lib

/-! ### The code -/

/-- `struct timespec`, as `clock_gettime` fills it. -/
structure Timespec where
  sec : ℤ
  nsec : ℕ
  nsec_lt : nsec < 10 ^ 9

/-- A value of `time_t`. -/
def timeT (v : ℤ) : Exec ℤ := do
  check (-2 ^ 63 ≤ v ∧ v < 2 ^ 63) .overflow
  .ok v

/-- `tv_sec * (time_t)(1e6) + tv_nsec / (time_t)(1e3)`. -/
def Timespec.micros (ts : Timespec) : Exec ℤ := do
  let s ← timeT (ts.sec * 1000000)
  timeT (s + (ts.nsec / 1000 : ℕ))

/-- The variable `now` of `binlog_print`. -/
def binlogNow (ts : Timespec) : Exec ℤ := ts.micros

/-- The variable `diff` of `binlog_prase`; the sum goes from left to right. -/
def clockDiff (realtime monotonic : Timespec) : Exec ℤ := do
  let r ← realtime.micros
  let s ← timeT (monotonic.sec * 1000000)
  let d ← timeT (r - s)
  timeT (d + (monotonic.nsec / 1000 : ℕ))

/-- What is printed of an instant: the variables `sec` and `usec` of `timestamp_fmt`. -/
structure Shown where
  sec : ℤ
  usec : ℤ

/-- The two variables. -/
def timestampParts (ts : ℤ) : Shown := ⟨ts.tdiv 1000000, ts.tmod 1000⟩

/-- The text that `%03ld` makes of a number. -/
def threeDigits (v : ℤ) : List UInt8 :=
  let digits := decimal v.natAbs
  if v < 0 then ascii "-" ++ List.replicate (2 - digits.length) 48 ++ digits
  else List.replicate (3 - digits.length) 48 ++ digits

/-- The text of an instant. -/
def Shown.text (localTime : ℤ → List UInt8) (shown : Shown) : List UInt8 :=
  localTime shown.sec ++ ascii "." ++ threeDigits shown.usec

/-- `timestamp_fmt`. -/
def timestampFmt (localTime : ℤ → List UInt8) (ts : ℤ) : List UInt8 :=
  (timestampParts ts).text localTime

/-- The text that `binlog_prase` makes of a stamp. -/
def timeFmt (localTime : ℤ → List UInt8) (diff : ℤ) (ts : BitVec 64) : List UInt8 :=
  timestampFmt localTime (ts.toInt + diff)

/-- What is printed of a record written at one instant, by a parser that reads the clocks at another:
the stamp, `diff`, `real_us`. -/
def shownAt (realtime monotonic written : Timespec) : Exec Shown := do
  let ts ← binlogNow written
  let diff ← clockDiff realtime monotonic
  let realUs ← timeT (ts + diff)
  .ok (timestampParts realUs)

/-! ### The line of a record -/

theorem timeT_eq_ok {v w : ℤ} : timeT v = .ok w ↔ (-2 ^ 63 ≤ v ∧ v < 2 ^ 63) ∧ v = w := by
  constructor
  · intro h
    obtain ⟨_, hrange, h⟩ := bind_eq_ok.mp h
    exact ⟨check_eq_ok.mp hrange, Except.ok.inj h⟩
  · rintro ⟨hrange, rfl⟩
    rw [timeT, check_true hrange, ok_bind]

/-- The line of a record starts with what `shownAt` says. -/
theorem decodeRecord_shows {env : ParserEnv} {localTime : ℤ → List UInt8}
    {realtime monotonic written : Timespec} {ts diff len : ℤ} {shown : Shown} {c : Call}
    {vs : List Value} {post : List UInt8} {d : Decoded} (hts : binlogNow written = .ok ts)
    (hc : c.now = BitVec.ofInt 64 ts) (hdiff : clockDiff realtime monotonic = .ok diff)
    (henv : env.timeFmt = timeFmt localTime diff)
    (hshown : shownAt realtime monotonic written = .ok shown)
    (hd : decodeRecord env len (recordBytes c vs ++ post) = .ok d) :
    ∃ rest, d.text = shown.text localTime ++ ascii " " ++ rest := by
  obtain ⟨ts', hts', hshown⟩ := bind_eq_ok.mp hshown
  obtain rfl := Except.ok.inj (hts.symm.trans hts')
  obtain ⟨diff', hdiff', hshown⟩ := bind_eq_ok.mp hshown
  obtain rfl := Except.ok.inj (hdiff.symm.trans hdiff')
  obtain ⟨realUs, hreal, hshown⟩ := bind_eq_ok.mp hshown
  cases hshown
  obtain ⟨-, rfl⟩ := timeT_eq_ok.mp hreal
  -- the stamp survives its eight bytes
  have hstamp : c.now.toInt = ts := by
    obtain ⟨_, _, hts⟩ := bind_eq_ok.mp hts
    obtain ⟨⟨hlow, hhigh⟩, rfl⟩ := timeT_eq_ok.mp hts
    rw [hc, BitVec.toInt_ofInt]
    exact Int.bmod_eq_of_le (by omega) (by omega)
  rw [decodeRecord, readHeader_record, ok_bind] at hd
  split at hd
  · cases hd
  · obtain ⟨s, -, hd⟩ := bind_eq_ok.mp hd
    cases hd
    rw [henv, timeFmt, hstamp, timestampFmt]
    simp only [List.append_assoc]
    exact ⟨_, rfl⟩

/-! ### Right up to a millisecond -/

/-- The instant, in nanoseconds. -/
def Timespec.ns (ts : Timespec) : ℤ := ts.sec * 10 ^ 9 + ts.nsec

/-- The instant, in whole microseconds. -/
def Timespec.us (ts : Timespec) : ℤ := ts.sec * 10 ^ 6 + (ts.nsec / 1000 : ℕ)

/-- The instant printed, in milliseconds. -/
def Shown.ms (shown : Shown) : ℤ := 1000 * shown.sec + shown.usec

/-- A run of the parser over records written no later than it reads the clocks, with all arithmetic in the
range of `time_t` and no instant negative. -/
structure TimedRun where
  realtime : Timespec
  monotonic : Timespec
  written : List Timespec
  past : ∀ m ∈ written, m.ns ≤ monotonic.ns
  diff : ℤ
  diff_eq : clockDiff realtime monotonic = .ok diff
  inRange : ∀ m ∈ written, ∃ ts, binlogNow m = .ok ts ∧ 0 ≤ ts + diff ∧ ts + diff < 2 ^ 63

/-- The instant of a record on the realtime clock, in nanoseconds: `R - (M - m)`. -/
def TimedRun.instant (run : TimedRun) (m : Timespec) : ℤ :=
  run.realtime.ns - (run.monotonic.ns - m.ns)

/-- Each instant printed is that of the record, truncated to milliseconds, up to one millisecond, with a
fraction of three digits; and a later record is not printed with an earlier instant. -/
def TimedRun.Rendered (run : TimedRun) : Prop :=
  (∀ m ∈ run.written, ∃ shown, shownAt run.realtime run.monotonic m = .ok shown ∧
    0 ≤ shown.usec ∧ shown.usec < 1000 ∧ |shown.ms - run.instant m / 10 ^ 6| ≤ 1) ∧
  ∀ m ∈ run.written, ∀ m' ∈ run.written, m.ns ≤ m'.ns → ∀ shown shown',
    shownAt run.realtime run.monotonic m = .ok shown →
    shownAt run.realtime run.monotonic m' = .ok shown' → shown.ms ≤ shown'.ms

/-- The instant of a record as the parser has it, in microseconds: too late by twice the microseconds of
its monotonic clock. -/
def TimedRun.shifted (run : TimedRun) (m : Timespec) : ℤ :=
  run.realtime.us - (run.monotonic.us - m.us) + 2 * (run.monotonic.nsec / 1000 : ℕ)

/-- The microseconds within the second, of the three clock readings together. -/
def TimedRun.subsecond (run : TimedRun) (m : Timespec) : ℤ :=
  ((run.realtime.nsec / 1000 + run.monotonic.nsec / 1000 + m.nsec / 1000 : ℕ) : ℤ) % 10 ^ 6

/-- By how many nanoseconds the record is later than what is printed: the fraction of three digits for all
of the second, less what the sign adds, and the rounding. Only sub-second values matter. -/
def TimedRun.lag (run : TimedRun) (m : Timespec) : ℤ :=
  1000 * (run.subsecond m - 1000 * (run.subsecond m % 1000) - 2 * (run.monotonic.nsec / 1000 : ℕ)) +
    ((run.realtime.nsec % 1000 : ℕ) - (run.monotonic.nsec % 1000 : ℕ) + (m.nsec % 1000 : ℕ))

/-- The sub-second values are such that the two slips cancel: each record is less than two milliseconds
later than what is printed and at most one earlier; and of two records in one second the later is not
before the earlier within its millisecond. -/
def TimedRun.Cancels (run : TimedRun) : Prop :=
  (∀ m ∈ run.written, -10 ^ 6 ≤ run.lag m ∧ run.lag m < 2 * 10 ^ 6) ∧
  ∀ m ∈ run.written, ∀ m' ∈ run.written, m.ns ≤ m'.ns →
    run.shifted m / 10 ^ 6 = run.shifted m' / 10 ^ 6 →
      run.subsecond m % 1000 ≤ run.subsecond m' % 1000

theorem binlogNow_eq {m : Timespec} {ts : ℤ} (h : binlogNow m = .ok ts) : ts = m.us := by
  obtain ⟨s, hs, h⟩ := bind_eq_ok.mp h
  obtain ⟨-, rfl⟩ := timeT_eq_ok.mp hs
  obtain ⟨-, rfl⟩ := timeT_eq_ok.mp h
  rw [Timespec.us]
  norm_num

theorem clockDiff_eq {r m : Timespec} {diff : ℤ} (h : clockDiff r m = .ok diff) :
    diff = r.us - m.us + 2 * (m.nsec / 1000 : ℕ) := by
  obtain ⟨a, ha, h⟩ := bind_eq_ok.mp h
  obtain rfl := binlogNow_eq ha
  obtain ⟨s, hs, h⟩ := bind_eq_ok.mp h
  obtain ⟨-, rfl⟩ := timeT_eq_ok.mp hs
  obtain ⟨d, hd, h⟩ := bind_eq_ok.mp h
  obtain ⟨-, rfl⟩ := timeT_eq_ok.mp hd
  obtain ⟨-, rfl⟩ := timeT_eq_ok.mp h
  have hm : m.us = m.sec * 1000000 + (m.nsec / 1000 : ℕ) := by
    rw [Timespec.us]
    norm_num
  omega

theorem Timespec.us_mono {m m' : Timespec} (h : m.ns ≤ m'.ns) : m.us ≤ m'.us := by
  have hm := m.nsec_lt
  have hm' := m'.nsec_lt
  simp only [ns, us] at *
  omega

/-- The instant that is printed of a record. -/
theorem TimedRun.shownAt_eq (run : TimedRun) {m : Timespec} (hm : m ∈ run.written) :
    0 ≤ run.shifted m ∧
      shownAt run.realtime run.monotonic m = .ok ⟨run.shifted m / 10 ^ 6, run.shifted m % 1000⟩ := by
  obtain ⟨ts, hts, hnonneg, hlt⟩ := run.inRange m hm
  have hshifted : ts + run.diff = run.shifted m := by
    rw [binlogNow_eq hts, clockDiff_eq run.diff_eq, TimedRun.shifted]
    ring
  have hrange : timeT (ts + run.diff) = .ok (run.shifted m) := by
    refine timeT_eq_ok.mpr ⟨⟨by omega, hlt⟩, hshifted⟩
  rw [hshifted] at hnonneg
  refine ⟨hnonneg, ?_⟩
  simp only [shownAt, hts, run.diff_eq, hrange, ok_bind, timestampParts]
  rw [Int.tdiv_eq_ediv_of_nonneg hnonneg, Int.tmod_eq_emod_of_nonneg hnonneg]
  norm_num

/-- The seconds do not matter within the second. -/
theorem TimedRun.shifted_emod (run : TimedRun) (m : Timespec) :
    run.shifted m % 10 ^ 6 = run.subsecond m := by
  rw [shifted, subsecond, Timespec.us, Timespec.us, Timespec.us]
  push_cast
  omega

theorem TimedRun.shifted_emod_thousand (run : TimedRun) (m : Timespec) :
    run.shifted m % 1000 = run.subsecond m % 1000 := by
  have h := run.shifted_emod m
  omega

/-- The lag is the distance of the two instants. -/
theorem TimedRun.lag_eq (run : TimedRun) (m : Timespec) :
    run.lag m = run.instant m -
      10 ^ 6 * (1000 * (run.shifted m / 10 ^ 6) + run.shifted m % 1000) := by
  have hns : ∀ ts : Timespec, ts.ns = 1000 * ts.us + (ts.nsec % 1000 : ℕ) := by
    intro ts
    rw [Timespec.ns, Timespec.us]
    omega
  have hdiv := Int.emod_add_mul_ediv (run.shifted m) (10 ^ 6)
  rw [run.shifted_emod] at hdiv
  have hinstant : run.instant m = 1000 * (run.shifted m - 2 * (run.monotonic.nsec / 1000 : ℕ)) +
      ((run.realtime.nsec % 1000 : ℕ) - (run.monotonic.nsec % 1000 : ℕ) + (m.nsec % 1000 : ℕ)) := by
    rw [instant, hns, hns, hns, shifted]
    ring
  rw [lag, hinstant, run.shifted_emod_thousand]
  omega

/-- A record is printed right exactly when it is not too late or too early. -/
theorem TimedRun.abs_le_iff (run : TimedRun) (m : Timespec) :
    |1000 * (run.shifted m / 10 ^ 6) + run.shifted m % 1000 - run.instant m / 10 ^ 6| ≤ 1 ↔
      -10 ^ 6 ≤ run.lag m ∧ run.lag m < 2 * 10 ^ 6 := by
  rw [run.lag_eq, abs_le']
  generalize 1000 * (run.shifted m / 10 ^ 6) + run.shifted m % 1000 = p
  omega

/-- Of two instants, the first not later, the first is printed as the later exactly when they are in one
second and it is later within its millisecond. -/
theorem printed_le_iff {x y : ℤ} (h : x ≤ y) :
    1000 * (x / 10 ^ 6) + x % 1000 ≤ 1000 * (y / 10 ^ 6) + y % 1000 ↔
      (x / 10 ^ 6 = y / 10 ^ 6 → x % 1000 ≤ y % 1000) := by
  omega

/-- The instants of a run are right up to a millisecond, and in order, exactly when the sub-second values
are such that the two slips cancel. -/
theorem rendered_iff (run : TimedRun) : run.Rendered ↔ run.Cancels := by
  have hpair : ∀ m ∈ run.written, ∀ m' ∈ run.written, m.ns ≤ m'.ns →
      ((∀ shown shown', shownAt run.realtime run.monotonic m = .ok shown →
        shownAt run.realtime run.monotonic m' = .ok shown' → shown.ms ≤ shown'.ms) ↔
      (run.shifted m / 10 ^ 6 = run.shifted m' / 10 ^ 6 →
        run.subsecond m % 1000 ≤ run.subsecond m' % 1000)) := by
    intro m hm m' hm' hle
    have hshifted : run.shifted m ≤ run.shifted m' := by
      have hus := Timespec.us_mono hle
      rw [TimedRun.shifted, TimedRun.shifted]
      omega
    rw [(run.shownAt_eq hm).2, (run.shownAt_eq hm').2, ← run.shifted_emod_thousand,
      ← run.shifted_emod_thousand, ← printed_le_iff hshifted]
    constructor
    · intro h
      exact h _ _ rfl rfl
    · rintro h _ _ ⟨⟩ ⟨⟩
      exact h
  have hone : ∀ m ∈ run.written, ((∃ shown, shownAt run.realtime run.monotonic m = .ok shown ∧
      0 ≤ shown.usec ∧ shown.usec < 1000 ∧ |shown.ms - run.instant m / 10 ^ 6| ≤ 1) ↔
      -10 ^ 6 ≤ run.lag m ∧ run.lag m < 2 * 10 ^ 6) := by
    intro m hm
    rw [(run.shownAt_eq hm).2, ← run.abs_le_iff]
    constructor
    · rintro ⟨_, ⟨⟩, -, -, h⟩
      exact h
    · intro h
      exact ⟨_, rfl, by dsimp only; omega, by dsimp only; omega, h⟩
  constructor
  · rintro ⟨hinstants, horder⟩
    exact ⟨fun m hm => (hone m hm).mp (hinstants m hm),
      fun m hm m' hm' hle => (hpair m hm m' hm' hle).mp (horder m hm m' hm' hle)⟩
  · rintro ⟨hinstants, horder⟩
    exact ⟨fun m hm => (hone m hm).mpr (hinstants m hm),
      fun m hm m' hm' hle => (hpair m hm m' hm' hle).mpr (horder m hm m' hm' hle)⟩

/-- The parser's clocks show 1700000000 s and 100.25 s; two records were written at 99.0009 s and at
99.001 s. -/
def quarterRun : TimedRun where
  realtime := ⟨1700000000, 0, by decide⟩
  monotonic := ⟨100, 250000000, by decide⟩
  written := [⟨99, 900000, by decide⟩, ⟨99, 1000000, by decide⟩]
  past := by decide
  diff := 1699999900250000
  diff_eq := by simp [clockDiff, Timespec.micros, timeT]
  inRange := by
    intro m hm
    simp only [List.mem_cons, List.not_mem_nil, or_false] at hm
    rcases hm with rfl | rfl
    · exact ⟨99000900, by simp [binlogNow, Timespec.micros, timeT], by decide, by decide⟩
    · exact ⟨99001000, by simp [binlogNow, Timespec.micros, timeT], by decide, by decide⟩

/-- The second is printed as 1699999999.000, before the first, 1699999999.900; it was written at
1699999998.751. -/
theorem quarterRun_wrong : ¬ quarterRun.Rendered := by
  rintro ⟨-, horder⟩
  have hfirst : (⟨99, 900000, by decide⟩ : Timespec) ∈ quarterRun.written := List.mem_cons_self
  have hsecond : (⟨99, 1000000, by decide⟩ : Timespec) ∈ quarterRun.written :=
    List.mem_cons_of_mem _ List.mem_cons_self
  have hle := horder _ hfirst _ hsecond (by decide) _ _ (quarterRun.shownAt_eq hfirst).2
    (quarterRun.shownAt_eq hsecond).2
  revert hle
  decide

end CcUtils.Binlog
