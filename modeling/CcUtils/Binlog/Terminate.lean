import CcUtils.Lib.Orbit
import CcUtils.Binlog.Bounds
import CcUtils.Binlog.Stream

/-!
# When the parser comes to an end

The loop of `binlog_prase` moves on by the length field of the record, which it takes as it is. Where the
fields are positive it comes nearer to the end of the file with each turn. Within the bytes in the buffer
nothing makes them positive, and a record may lead back to where the parser was. Then it goes round for
ever, since its next turn depends on nothing else.

What C leaves open at `abs` and `memcpy` is no end of the loop on a machine that goes on.

## What is proved

* `printFormat_halts` — a format that is printed in bounds is printed to its end, or to an assertion or an
  abort.
* `Reading.turn_whole`, `Reading.turn_truncated` — what a turn does at a record that is in the file, and at
  one that the end of the file cuts.
* `parseFile_halts` — the parser comes to an end if each record that the length fields lead to is sound, and
  does not if one leads back.
-/

namespace CcUtils.Binlog

open CcUtils.Lib

/-- The run is over: it is finished, or was stopped by an assertion or an abort. -/
def Halts {α : Type} (x : Exec α) : Prop := ∀ e, x = .error e → e = .assertFail ∨ e = .abort

/-- A machine that goes on where C leaves `abs` and `memcpy` undefined. -/
structure Machine.GoesOn (m : Machine) : Prop where
  abs : m.absMin.isSome
  memcpy : m.overlapped.isSome

/-! ### The faults of a record -/

/-- A fault that no record leads to. -/
structure Foreign (e : Fault) : Prop where
  bounds : Fault.outOfBounds ≠ e
  assert : Fault.assertFail ≠ e
  abort : Fault.abort ≠ e

section foreign

variable {e : Fault} (he : Foreign e)

include he

theorem load_foreign (buf : List UInt8) (off n : ℕ) : Within e False (load buf off n) fun _ => True := by
  rw [load]
  split
  · exact .ok True.intro
  · exact .other _ he.bounds

theorem cstring_foreign (mem : List UInt8) : Within e False (cstring mem) fun _ => True :=
  ⟨fun h => he.bounds (cstring_error h).symm, fun _ _ => True.intro⟩

theorem getWord_foreign (w n : ℕ) (vl : VaList) (tag : UInt8) :
    Within e False (getWord w n vl tag) fun _ => True := by
  refine Within.check_bind he.assert fun _ => ?_
  refine (load_foreign he _ _ _).bind fun _ _ => ?_
  refine Within.check_bind he.assert fun _ => ?_
  exact (load_foreign he _ _ _).bind fun _ _ => .ok True.intro

theorem getValue_foreign (vl : VaList) (k : Kind) : Within e False (getValue vl k) fun _ => True := by
  cases k with
  | int => exact (getWord_foreign he _ _ _ _).bind fun _ _ => .ok True.intro
  | long => exact (getWord_foreign he _ _ _ _).bind fun _ _ => .ok True.intro
  | double => exact (getWord_foreign he _ _ _ _).bind fun _ _ => .ok True.intro
  | string =>
    have hstring : Within e False (getString vl) fun _ => True := by
      refine (cstring_foreign he _).bind fun _ _ => ?_
      refine Within.check_bind he.assert fun _ => ?_
      refine (load_foreign he _ _ _).bind fun _ _ => ?_
      exact Within.check_bind he.assert fun _ => .ok True.intro
    exact hstring.bind fun _ _ => .ok True.intro
  | pointer => exact (getWord_foreign he _ _ _ _).bind fun _ _ => .ok True.intro

theorem copyTo_foreign (specifier chars : List UInt8) :
    Within e False (copyTo specifier chars) fun _ => True :=
  Within.check_bind he.bounds fun _ => .ok True.intro

variable {absMin : Option (BitVec 32)} (habs : absMin.isSome)

include habs

omit he in
theorem absInt_foreign (v : BitVec 32) : Within e False (absInt absMin v) fun _ => True := by
  obtain ⟨r, rfl⟩ := Option.isSome_iff_exists.mp habs
  unfold absInt
  split
  · exact .ok True.intro
  · exact .ok True.intro

theorem printing_width_foreign {s : Printing} {r : List UInt8} (hs : s.ptr = r ++ [0])
    (specifier : List UInt8) :
    Within e False (s.width specifier absMin) fun p => p.1.ptr = r.drop (fieldText r).length ++ [0] := by
  rw [printing_width_eq hs]
  rcases fieldText_cases r with ⟨t, rfl, htext, hdrop⟩ | ⟨-, hne, -, -⟩
  · rw [if_pos htext, hdrop]
    refine (getWord_foreign he _ _ _ _).bind fun _ _ => ?_
    refine (absInt_foreign habs _).bind fun _ _ => ?_
    refine Within.check_bind he.bounds fun _ => .ok ?_
    rw [hs]
    rfl
  · rw [if_neg hne]
    exact (copyTo_foreign he _ _).bind fun _ _ => .ok rfl

theorem printing_precision_foreign {s : Printing} {r : List UInt8} (hs : s.ptr = r ++ [0])
    (specifier : List UInt8) :
    Within e False (s.precision specifier absMin) fun p =>
      p.1.ptr = r.drop (precisionText r).length ++ [0] := by
  rw [printing_precision_eq hs]
  by_cases hp : precisionText r = []
  · rw [if_pos hp, hp]
    exact .ok hs
  · obtain ⟨t, rfl⟩ := precisionText_ne_nil hp
    have htext : precisionText (dot :: t) = dot :: fieldText t := by
      rw [precisionText, if_pos rfl]
    rw [if_neg hp, htext]
    exact (copyTo_foreign he _ _).bind fun sp _ =>
      printing_width_foreign he habs (s := { s with ptr := t ++ [0] }) rfl sp

omit habs in
theorem printing_conversion_foreign {fprintf : Fprintf} {s : Printing} {b : List UInt8}
    (hs : s.ptr = b ++ [0]) (h0 : (0 : UInt8) ∉ b) (specifier : List UInt8) :
    Within e False (s.conversion fprintf specifier) fun s' => ∃ t, t <:+ b ∧ s'.ptr = t ++ [0] := by
  rw [printing_conversion_eq hs h0]
  refine (copyTo_foreign he _ _).bind fun sp _ => ?_
  have hsuffix := List.dropWhile_suffix (l := b) (· ∈ lengthChars)
  cases hconv : b.dropWhile (· ∈ lengthChars) with
  | nil => exact .other _ he.abort
  | cons c t =>
    have ht : t <:+ b := (List.suffix_cons c t).trans (hconv ▸ hsuffix)
    refine (convKind_within he.abort.symm _ c).bind fun k _ => ?_
    cases k with
    | none => exact .ok ⟨t, ht, rfl⟩
    | some k =>
      refine (getValue_foreign he _ _).bind fun r _ => ?_
      refine Within.check_bind he.bounds fun _ => ?_
      dsimp only
      split
      · exact .ok ⟨t, ht, rfl⟩
      · exact .ok ⟨t, ht, rfl⟩

theorem printing_specification_foreign {fprintf : Fprintf} {s : Printing} {u : List UInt8}
    (hs : s.ptr = u ++ [0]) (h0 : (0 : UInt8) ∉ u) :
    Within e False (s.specification fprintf absMin) fun s' => ∃ t, t <:+ u ∧ s'.ptr = t ++ [0] := by
  obtain ⟨hcut, hflags⟩ := scan_flags h0
  rw [Printing.specification, hs]
  by_cases hu : CutInFlags u
  · rw [hcut hu]
    exact .other _ he.bounds
  rw [hflags hu, ok_bind]
  dsimp only
  refine (copyTo_foreign he _ _).bind fun sp _ => ?_
  refine (printing_width_foreign he habs (s := { s with ptr := u.dropWhile (· ∈ flagChars) ++ [0] }) rfl
    sp).bind fun p hp => ?_
  refine (printing_precision_foreign he habs hp p.2).bind fun q hq => ?_
  have hsuffix := behind_suffix u
  refine (printing_conversion_foreign he hq (fun h => h0 (hsuffix.subset h)) q.2).mono id fun s' h => ?_
  obtain ⟨t, ht, hs'⟩ := h
  exact ⟨t, ht.trans hsuffix, hs'⟩

/-- Each turn of the loop of `print_format` leaves less of the format. -/
theorem printing_loop_foreign {fprintf : Fprintf} {fuel : ℕ} {s : Printing} {t : List UInt8}
    (hs : s.ptr = t ++ [0]) (h0 : (0 : UInt8) ∉ t) (hf : t.length < fuel) :
    Within e False (Printing.loop fprintf fuel s absMin) fun _ => True := by
  induction fuel generalizing s t with
  | zero => exact absurd hf (Nat.not_lt_zero _)
  | succ fuel ih =>
    rw [Printing.loop, hs]
    cases t with
    | nil => exact .ok True.intro
    | cons c t =>
      have hc : c ≠ 0 := fun h => h0 (h ▸ List.mem_cons_self)
      have h0t : (0 : UInt8) ∉ t := fun h => h0 (List.mem_cons_of_mem c h)
      have hf' : t.length < fuel := by
        rw [List.length_cons] at hf
        omega
      rw [List.cons_append, peek_cons, ok_bind, if_neg hc]
      by_cases hp : c = percent
      · rw [if_neg fun h => h hp]
        refine Within.bind (printing_specification_foreign he habs (s := { s with ptr := t ++ [0] }) rfl h0t)
          fun s' hs' => ?_
        obtain ⟨t', ht', hs'⟩ := hs'
        split
        · exact .ok True.intro
        · exact ih hs' (fun h => h0t (ht'.subset h)) (lt_of_le_of_lt ht'.length_le hf')
      · rw [if_pos hp]
        refine ih (s := s.printChar c) ?_ h0t hf'
        rw [Printing.printChar, hs]
        rfl

end foreign

/-- Within its bounds, a format is printed to its end, or to an assertion or an abort. -/
theorem printFormat_halts {fprintf : Fprintf} {format : CString} {vl : VaList} {absMin : Option (BitVec 32)}
    (habs : absMin.isSome) (hbounds : printFormat fprintf format vl absMin ≠ .error .outOfBounds) :
    Halts (printFormat fprintf format vl absMin) := by
  intro e h
  by_contra hother
  obtain ⟨hassert, habort⟩ := not_or.mp hother
  have he : Foreign e := ⟨fun hb => hbounds (hb ▸ h), Ne.symm hassert, Ne.symm habort⟩
  exact (printing_loop_foreign he habs rfl format.property (Nat.lt_succ_self _)).fault h

/-! ### Sound records -/

/-- These bytes of a record, which are in the buffer, are enough: its header is in them, its format is in the
table, and `print_format` leaves neither them nor its specifier. -/
def RecordOk (env : ParserEnv) (m : Machine) (len : ℤ) (bs : List UInt8) : Prop :=
  ∃ h format, readHeader bs = .ok h ∧ formatFetch env.jsonArr h.func h.line = some format ∧
    printFormat env.fprintf format ⟨len, h.off, bs⟩ m.absMin ≠ .error .outOfBounds

variable {env : ParserEnv} {m : Machine} {file : List UInt8}

/-- It is decoded, or stops the parser by an assertion or an abort, whatever is behind it in memory. -/
theorem RecordOk.decode {len : ℤ} {bs : List UInt8} (h : RecordOk env m len bs) (habs : m.absMin.isSome) :
    Halts (decodeRecord env len bs m) ∧ ∀ post, decodeRecord env len (bs ++ post) m = decodeRecord env len bs m := by
  obtain ⟨header, format, hheader, hformat, hbounds⟩ := h
  have hprint := printFormat_halts habs hbounds
  have hhalts : Halts (decodeRecord env len bs m) := by
    intro e he
    rw [decodeRecord, hheader, ok_bind] at he
    simp only [hformat] at he
    cases hs : printFormat env.fprintf format ⟨len, header.off, bs⟩ m.absMin with
    | error e' =>
      rw [hs] at he
      exact hprint e (hs.trans (congrArg _ (Except.error.inj he)))
    | ok s =>
      rw [hs] at he
      cases he
  refine ⟨hhalts, fun post => ?_⟩
  have hne : decodeRecord env len bs m ≠ .error .outOfBounds := by
    intro h
    rcases hhalts _ h with hb | hb
    · cases hb
    · cases hb
  rw [decodeRecord_grows post env len bs m hne]
  cases decodeRecord env len bs m with
  | error e => rfl
  | ok d => rfl

/-- A place that the length fields lead to: how much of the buffer is before it, and the bytes of the file from
there on. -/
structure FilePlace where
  used : ℕ
  rest : List UInt8

/-- How much of the buffer is before the record when it is decoded: a record that does not fit comes to the
front. -/
def FilePlace.start (a : FilePlace) (len : ℕ) : ℕ := if a.used + len ≤ parserBufSize then a.used else 0

/-- What the buffer then holds of the file from there on. -/
def FilePlace.window (a : FilePlace) (len : ℕ) : List UInt8 := a.rest.take (parserBufSize - a.start len)

/-- The place behind the record. -/
def FilePlace.next (a : FilePlace) (len : ℕ) : FilePlace := ⟨a.start len + len, a.rest.drop len⟩

/-- A record of positive length that is in the file, that the end of the buffer cuts only where the parser can
go on, and that is itself sound. -/
structure FilePlace.Whole (env : ParserEnv) (m : Machine) (a : FilePlace) (len : ℕ) : Prop where
  length : readLen a.rest = .ok (len : ℤ)
  pos : 0 < len
  whole : len ≤ a.rest.length
  cut : a.used + len ≤ parserBufSize ∨ len ≤ parserBufSize ∧
    (a.used = parserBufSize ∨ (a.used + 5 ≤ parserBufSize ∧ parserBufSize ≤ 2 * a.used))
  record : RecordOk env m len (a.window len)

/-- A record that the end of the file cuts behind its length field, and what there is of it is read. -/
structure FilePlace.Truncated (a : FilePlace) (len : ℕ) : Prop where
  length : readLen a.rest = .ok (len : ℤ)
  short : a.rest.length < len
  fits : len + a.used < 2 ^ 31
  last : a.used + a.rest.length ≤ parserBufSize ∨ a.used = parserBufSize ∧ a.rest.length ≤ parserBufSize

/-- The length field leads from the one place to the other, when the record is sound and is printed. -/
def FilePlace.To (env : ParserEnv) (m : Machine) (a b : FilePlace) : Prop :=
  ∃ len d, a.Whole env m len ∧ decodeRecord env len (a.window len) m = .ok d ∧ b = a.next len

/-- The length fields lead from the beginning of the file to the place. -/
def LedTo (env : ParserEnv) (m : Machine) (file : List UInt8) (a : FilePlace) : Prop :=
  Relation.ReflTransGen (FilePlace.To env m) ⟨0, file⟩ a

/-- Each record that the length fields lead to is sound, or is the last one and cut by the end of the file. -/
def SoundFile (env : ParserEnv) (m : Machine) (file : List UInt8) : Prop :=
  ∀ a, LedTo env m file a → a.rest = [] ∨ ∃ len, a.Whole env m len ∨ a.Truncated len

/-- The record at `b` is decoded, and its length field leads back to `a`, in the same filling of the buffer. -/
structure FilePlace.LeadsBack (env : ParserEnv) (m : Machine) (b a : FilePlace) : Prop where
  length : readLen b.rest = .ok ((a.used : ℤ) - b.used)
  back : a.used ≤ b.used
  filling : a.used + a.rest.length = b.used + b.rest.length
  decoded : ∃ d, decodeRecord env ((a.used : ℤ) - b.used) (b.rest.take (parserBufSize - b.used)) m = .ok d

theorem six_le_of_readHeader {bs : List UInt8} {h : Header} (hh : readHeader bs = .ok h) : 6 ≤ bs.length := by
  obtain ⟨level, hlevel, -⟩ := bind_eq_ok.mp hh
  exact (load_eq_ok.mp hlevel).1

/-! ### A turn of the loop -/

variable {a b : FilePlace} {p : BinlogParser} {len : ℕ}

/-- A whole record is decoded, and the parser stands behind it. -/
theorem Reading.turn_whole (h : Reading file a.rest a.used p) (hsize : p.size = parserBufSize)
    (hwhole : a.Whole env m len) :
    ∃ p', Decodes env file .buffer p m len (a.window len) p' ∧ p'.size = parserBufSize ∧
      Reading file (a.next len).rest (a.next len).used p' := by
  obtain ⟨hlen, hpos, hin, hcut, header, format, hheader, -⟩ := hwhole
  have hsix := six_le_of_readHeader hheader
  have hle := hsize.trans_le parserBufSize_le
  unfold FilePlace.window FilePlace.next FilePlace.start at *
  rw [List.length_take] at hsix
  rw [← hsize] at hcut hsix ⊢
  by_cases hfits : a.used + len ≤ p.size
  · rw [if_pos hfits] at hsix ⊢
    exact h.turn_fits hle hlen hin (by omega) hfits env .buffer m
  · rw [if_neg hfits] at hsix ⊢
    obtain ⟨hroom, hcut⟩ := hcut.resolve_left hfits
    rw [Nat.zero_add, Nat.sub_zero]
    exact h.turn_cut hle hlen hin (by omega) hroom (not_le.mp hfits) hcut env .buffer m

/-- Where the file is at its end, reading on is an assertion. -/
theorem Reading.parseRead_end {rest : List UInt8} {used : ℕ} (h : Reading file rest used p)
    (hm : m.overlapped.isSome) (hlast : used + rest.length ≤ p.size) :
    binlogParseRead file p m = .error .assertFail := by
  obtain ⟨bytes, hbytes⟩ := Option.isSome_iff_exists.mp hm
  have hread : p.readSize = used + rest.length := by rw [h.readSize, Nat.min_eq_right hlast]
  have hused : used ≤ p.readSize := by omega
  have hn : p.readSize - used = rest.length := by omega
  have hcopied : ∃ tail, copied m.overlapped p.buf used rest.length = .ok tail ∧ tail.length = rest.length := by
    unfold copied
    split
    · have hload : used + rest.length ≤ p.buf.length := by
        rw [h.length]
        exact hlast
      refine ⟨_, if_pos hload, ?_⟩
      rw [List.length_take, List.length_drop]
      omega
    · refine ⟨(List.range rest.length).map (bytes p.buf used), ?_, ?_⟩
      · rw [hbytes]
        rfl
      · rw [List.length_map, List.length_range]
  obtain ⟨tail, htail, hlen⟩ := hcopied
  have hnothing : readFile file p.fileOffset (p.size - rest.length) = [] := by
    rw [readFile, h.unread, hn, List.drop_length, List.take_nil]
  have hstore₁ : ∃ buf, store p.buf 0 tail = .ok buf ∧ buf.length = p.buf.length := by
    have hroom : 0 + tail.length ≤ p.buf.length := by
      rw [hlen, h.length]
      omega
    have hw : Wrote p.buf [] := List.nil_prefix
    obtain ⟨buf, hs, hl, -⟩ := hw.store 0 tail rfl hroom
    exact ⟨buf, hs, hl⟩
  obtain ⟨buf, hs, hl⟩ := hstore₁
  have hstore₂ : ∃ buf', store buf rest.length [] = .ok buf' := by
    refine ⟨_, if_pos ?_⟩
    rw [hl, h.length, List.length_nil]
    omega
  obtain ⟨buf', hs'⟩ := hstore₂
  rw [binlogParseRead, if_neg h.started]
  simp only [h.bufOffset, ok_bind, check_true hused, hn, htail, hs, hnothing, hs', List.length_nil]
  rfl

/-- A record that the end of the file cuts makes the parser read on, once its length field is read. -/
theorem Reading.turn_short {q : BinlogParser} {rest : List UInt8} {used : ℕ}
    (hq : parseReadIf file (p.offset = p.readSize) p m = .ok q) (h : Reading file rest used q)
    (hm : m.overlapped.isSome) (hlen : Binlog.readLen rest = .ok (len : ℤ)) (hshort : rest.length < len)
    (h31 : len + used < 2 ^ 31) (hlast : used + rest.length ≤ q.size) :
    binlogPraseTurn env file .buffer p m = .error .assertFail := by
  have hfive := five_le_of_readLen hlen
  have hread := h.readSize
  obtain ⟨buffer, hbuffer, hbuflen⟩ := h.readLen hlen (by omega) .buffer
  have hpast : (len : ℤ) + q.offset > q.readSize := by
    rw [h.offset]
    omega
  have hsmall : (len : ℤ) + q.offset < 2 ^ 31 := by
    rw [h.offset]
    exact_mod_cast h31
  rw [binlogPraseTurn, hq, ok_bind, hbuffer, ok_bind, hbuflen, ok_bind, check_true hsmall, ok_bind, parseReadIf,
    if_pos hpast, h.parseRead_end hm hlast]
  rfl

/-- At a record that the end of the file cuts, the parser stops by an assertion. -/
theorem Reading.turn_truncated (h : Reading file a.rest a.used p) (hsize : p.size = parserBufSize)
    (hm : m.overlapped.isSome) (hcut : a.Truncated len) :
    binlogPraseTurn env file .buffer p m = .error .assertFail := by
  obtain ⟨hlen, hshort, h31, hlast⟩ := hcut
  have hfive := five_le_of_readLen hlen
  rw [← hsize] at hlast
  rcases hlast with hfits | ⟨hfull, hroom⟩
  · have hgo : ¬ p.offset = p.readSize := by
      have hread := h.readSize
      rw [h.offset_eq_iff]
      omega
    exact h.turn_short (if_neg hgo) hm hlen hshort h31 hfits
  · -- the record before is the last one in the buffer
    have hmore : p.size < a.used + a.rest.length := by omega
    have hend : p.offset = p.readSize := by rw [h.offset_eq_iff, h.readSize_eq hmore.le, hfull]
    obtain ⟨q, hq, hq₀, hqsize⟩ := h.parseRead (by omega) (.inl hfull) hmore m
    exact hq₀.turn_short ((if_pos hend).trans hq) hm hlen hshort (by omega) (by omega)

/-! ### The loop as a run -/

/-- One turn of the loop, when the loop goes on behind it. -/
def praseStep (env : ParserEnv) (m : Machine) (file : List UInt8) (p : BinlogParser) : Option BinlogParser :=
  match binlogPraseTurn env file .buffer p m with
  | .ok (p, _) => if p.fileOffset = p.fileSize ∧ p.offset = p.readSize then none else some p
  | .error _ => none

theorem praseStep_eq_some {p p' : BinlogParser} :
    praseStep env m file p = some p' ↔ (∃ d, binlogPraseTurn env file .buffer p m = .ok (p', d)) ∧
      ¬ (p'.fileOffset = p'.fileSize ∧ p'.offset = p'.readSize) := by
  unfold praseStep
  cases hturn : binlogPraseTurn env file .buffer p m with
  | error e => simp
  | ok r =>
    obtain ⟨q, d⟩ := r
    dsimp only
    split
    · rename_i hstop
      refine ⟨nofun, ?_⟩
      rintro ⟨⟨d', h⟩, hgo⟩
      cases h
      exact absurd hstop hgo
    · rename_i hgo
      constructor
      · rintro ⟨⟩
        exact ⟨⟨d, rfl⟩, hgo⟩
      · rintro ⟨⟨d', h⟩, -⟩
        cases h
        rfl

/-- With fuel enough for it, the loop has come to an end. -/
theorem ends_of_binlogPrase {fuel : ℕ} (h : binlogPrase env file .buffer fuel p m ≠ .error .outOfFuel) :
    Ends (praseStep env m file) p := by
  induction fuel generalizing p with
  | zero => exact absurd rfl h
  | succ fuel ih =>
    refine Acc.intro p fun q hq => ih fun hfuel => h ?_
    obtain ⟨⟨d, hturn⟩, hgo⟩ := praseStep_eq_some.mp hq
    rw [binlogPrase, hturn, ok_bind]
    dsimp only
    rw [if_neg hgo, hfuel]
    rfl

/-! ### Records that lead on -/

/-- The end of the buffer comes nearer to the end of the file, or the buffer stays as it is. -/
theorem FilePlace.Whole.filling (h : a.Whole env m len) :
    (a.next len).used + (a.next len).rest.length ≤ a.used + a.rest.length ∧
      ((a.next len).used + (a.next len).rest.length = a.used + a.rest.length → a.used + len ≤ parserBufSize) := by
  have hin := h.whole
  have hcut := h.cut
  unfold FilePlace.next FilePlace.start
  dsimp only
  rw [List.length_drop]
  split
  · omega
  · omega

theorem filling_le (h : Relation.ReflTransGen (FilePlace.To env m) a b) :
    b.used + b.rest.length ≤ a.used + a.rest.length := by
  induction h with
  | refl => exact le_rfl
  | tail _ hstep ih =>
    obtain ⟨len, d, hwhole, -, rfl⟩ := hstep
    exact hwhole.filling.1.trans ih

/-- In the same filling of the buffer, only the offset changes. -/
theorem Reading.turn_same (h : Reading file a.rest a.used p) (hsize : p.size = parserBufSize)
    (hwhole : a.Whole env m len) (hfits : a.used + len ≤ parserBufSize) {p' : BinlogParser} {d : Decoded}
    (hturn : binlogPraseTurn env file .buffer p m = .ok (p', d)) : p' = { p with offset := p.offset + len } := by
  obtain ⟨hlen, hpos, hin, -, header, format, hheader, -⟩ := hwhole
  have hsix := six_le_of_readHeader hheader
  have hread := h.readSize
  unfold FilePlace.window FilePlace.start at hsix
  rw [if_pos hfits, List.length_take] at hsix
  obtain ⟨post, hstays⟩ := h.turn_stays (hsize.trans_le parserBufSize_le) hlen (by omega) (by omega) env .buffer m
  rw [hstays] at hturn
  obtain ⟨d', -, hturn⟩ := bind_eq_ok.mp hturn
  cases hturn
  rfl

/-- The parser comes to where the length fields lead, and has the same buffer as long as it does not read
on. -/
theorem Reading.leads (h : Reading file a.rest a.used p) (hsize : p.size = parserBufSize)
    (hab : Relation.ReflTransGen (FilePlace.To env m) a b) (hne : b.rest ≠ []) :
    ∃ q, Leads (praseStep env m file) p q ∧ q.size = parserBufSize ∧ Reading file b.rest b.used q ∧
      (b.used + b.rest.length = a.used + a.rest.length → ∃ o, q = { p with offset := o }) := by
  induction hab with
  | refl => exact ⟨p, .refl, hsize, h, fun _ => ⟨p.offset, rfl⟩⟩
  | @tail c b hac hcb ih =>
    obtain ⟨len, d, hwhole, hd, rfl⟩ := hcb
    have hc : c.rest ≠ [] := by
      intro hnil
      have hin := hwhole.whole
      have hpos := hwhole.pos
      rw [hnil, List.length_nil] at hin
      omega
    obtain ⟨q, hlead, hqsize, hq, hsame⟩ := ih hc
    obtain ⟨q', hdec, hsize', hq'⟩ := hq.turn_whole hqsize hwhole
    have hturn := hdec.turn hd
    have hgo := mt hq'.stop_iff.mp hne
    refine ⟨q', hlead.tail (praseStep_eq_some.mpr ⟨⟨d, hturn⟩, hgo⟩), hsize', hq', fun heq => ?_⟩
    obtain ⟨hle, hfits⟩ := hwhole.filling
    have hle' := filling_le hac
    obtain ⟨o, rfl⟩ := hsame (le_antisymm hle' (heq ▸ hle))
    exact ⟨_, hq.turn_same hqsize hwhole (hfits (by omega)) hturn⟩

/-- **If each record is sound**, the parser comes to an end: each turn leaves less of the file, since no length
field is zero or negative. -/
theorem binlogPrase_halts (hm : m.GoesOn) (hsound : SoundFile env m file) (ha : LedTo env m file a)
    (h : Reading file a.rest a.used p) (hsize : p.size = parserBufSize) (hne : a.rest ≠ []) :
    ∃ fuel, Halts (binlogPrase env file .buffer fuel p m) := by
  induction hn : a.rest.length using Nat.strong_induction_on generalizing a p with
  | _ n ih =>
    subst hn
    obtain ⟨len, hwhole | hcut⟩ := (hsound a ha).resolve_left hne
    · obtain ⟨p', ⟨post, hturn⟩, hsize', h'⟩ := h.turn_whole hsize hwhole
      obtain ⟨hhalts, hmore⟩ := hwhole.record.decode hm.abs
      rw [hmore] at hturn
      cases hd : decodeRecord env len (a.window len) m with
      | error e =>
        refine ⟨1, fun e' he => hhalts e' ?_⟩
        rw [binlogPrase, hturn, hd] at he
        exact hd.trans (congrArg _ (Except.error.inj he))
      | ok d =>
        rw [hd, ok_bind] at hturn
        by_cases hstop : (a.next len).rest = []
        · refine ⟨1, fun e he => ?_⟩
          rw [binlogPrase, hturn, ok_bind] at he
          dsimp only at he
          rw [if_pos (h'.stop_iff.mpr hstop)] at he
          cases he
        · have hless : (a.next len).rest.length < a.rest.length := by
            have hpos := hwhole.pos
            have hin := hwhole.whole
            unfold FilePlace.next
            rw [List.length_drop]
            omega
          have hnext : LedTo env m file (a.next len) := ha.tail ⟨len, d, hwhole, hd, rfl⟩
          obtain ⟨fuel, hfuel⟩ := ih _ hless hnext h' hsize' hstop rfl
          refine ⟨fuel + 1, fun e he => ?_⟩
          rw [binlogPrase, hturn, ok_bind] at he
          dsimp only at he
          rw [if_neg (mt h'.stop_iff.mp hstop)] at he
          cases hrest : binlogPrase env file .buffer fuel p' m with
          | error e' =>
            rw [hrest] at he
            exact hfuel e (hrest.trans (congrArg _ (Except.error.inj he)))
          | ok ds =>
            rw [hrest] at he
            cases he
    · refine ⟨1, fun e he => ?_⟩
      rw [binlogPrase, h.turn_truncated hsize hm.memcpy hcut] at he
      exact .inl (Except.error.inj he).symm

/-! ### Records that lead back -/

theorem FilePlace.to_rightUnique : Relator.RightUnique (FilePlace.To env m) := by
  rintro a b c ⟨len, -, hwhole, -, rfl⟩ ⟨len', -, hwhole', -, rfl⟩
  have hlen : (len : ℤ) = len' := Except.ok.inj (hwhole.length.symm.trans hwhole'.length)
  rw [Nat.cast_inj.mp hlen]

/-- From a record that leads back, the length fields lead no further. -/
theorem FilePlace.LeadsBack.not_to (h : b.LeadsBack env m a) {c : FilePlace} : ¬ b.To env m c := by
  rintro ⟨len, -, hwhole, -, -⟩
  have hlen : (len : ℤ) = a.used - b.used := Except.ok.inj (hwhole.length.symm.trans h.length)
  have hpos := hwhole.pos
  have hback := h.back
  omega

/-- A record that leads back is decoded, and the parser is where it was. -/
theorem Reading.turn_back (h : Reading file b.rest b.used p) (hsize : p.size = parserBufSize)
    (hback : b.LeadsBack env m a) :
    ∃ d, binlogPraseTurn env file .buffer p m = .ok ({ p with offset := a.used }, d) := by
  obtain ⟨d, hd⟩ := hback.decoded
  rw [← hsize] at hd
  obtain ⟨header, hheader, -⟩ := bind_eq_ok.mp hd
  have hsix := six_le_of_readHeader hheader
  rw [List.length_take] at hsix
  have hused := h.used_le
  have hle := hback.back
  obtain ⟨post, hturn⟩ := h.turn_stays (hsize.trans_le parserBufSize_le) hback.length (by omega) (by omega)
    env .buffer m
  have hoffset : p.offset + ((a.used : ℤ) - b.used) = a.used := by
    rw [h.offset]
    omega
  rw [decodeRecord_more post hd, ok_bind, hoffset] at hturn
  exact ⟨d, hturn⟩

/-- **If a record leads back** to one before it, or to itself, the parser goes round for ever. -/
theorem binlogPrase_of_leadsBack (h : Reading file file 0 p) (hsize : p.size = parserBufSize)
    (ha : LedTo env m file a) (hb : LedTo env m file b) (hback : b.LeadsBack env m a) (fuel : ℕ) :
    binlogPrase env file .buffer fuel p m = .error .outOfFuel := by
  have hb₀ : b.rest ≠ [] := by
    intro hnil
    have hfive := five_le_of_readLen hback.length
    rw [hnil] at hfive
    exact absurd hfive (by decide)
  have ha₀ : a.rest ≠ [] := by
    intro hnil
    have hfilling := hback.filling
    have hle := hback.back
    have hpos := List.length_pos_iff.mpr hb₀
    rw [hnil, List.length_nil] at hfilling
    omega
  have hab : Relation.ReflTransGen (FilePlace.To env m) a b := by
    rcases Relation.ReflTransGen.total_of_right_unique FilePlace.to_rightUnique ha hb with hab | hba
    · exact hab
    · rcases hba.cases_head with rfl | ⟨c, hbc, -⟩
      · exact .refl
      · exact absurd hbc hback.not_to
  obtain ⟨q, hq, hqsize, hread, -⟩ := Reading.leads (a := ⟨0, file⟩) h hsize ha ha₀
  obtain ⟨r, hr, hrsize, hread', hsame⟩ := hread.leads hqsize hab hb₀
  obtain ⟨o, rfl⟩ := hsame hback.filling.symm
  obtain ⟨d, hturn⟩ := hread'.turn_back hrsize hback
  have hturn' : binlogPraseTurn env file .buffer { q with offset := o } m = .ok (q, d) := by
    rw [hturn, ← hread.offset]
  have hreturns : Returns (praseStep env m file) q :=
    Relation.TransGen.tail' hr (praseStep_eq_some.mpr ⟨⟨d, hturn'⟩, mt hread.stop_iff.mp ha₀⟩)
  by_contra hfuel
  exact (ends_of_binlogPrase hfuel).not_returns hq hreturns

/-! ### Any file -/

/-- A machine on which the least `int` is its own `abs`, and `memcpy` copies byte after byte. -/
def forwardMachine : Machine := ⟨some (BitVec.intMin 32), some fun buf off i => buf.getD (off + i) 0⟩

theorem forwardMachine_goesOn : forwardMachine.GoesOn := ⟨rfl, rfl⟩

/-- A record, and the first ten bytes of another. -/
def cutFile : List UInt8 := recordBytes tickCall [] ++ (recordBytes tickCall []).take 10

theorem tick_readLen : readLen (recordBytes tickCall []) = .ok 30 ∧
    readLen ((recordBytes tickCall []).take 10) = .ok 30 := by
  decide

theorem tick_whole {rest : List UInt8} (hrest : rest.length ≤ 100) :
    FilePlace.Whole tickEnv forwardMachine ⟨0, recordBytes tickCall [] ++ rest⟩ 30 := by
  have hlength : (recordBytes tickCall []).length = 30 := by decide
  have hroom : 30 + rest.length ≤ parserBufSize := by
    rw [parserBufSize]
    omega
  have hfits : 0 + 30 ≤ parserBufSize := by omega
  have hread := readLen_record tickCall [] rest (by decide)
  have hwindow : FilePlace.window ⟨0, recordBytes tickCall [] ++ rest⟩ 30 = recordBytes tickCall [] ++ rest := by
    apply List.take_of_length_le
    rw [List.length_append, hlength, FilePlace.start, if_pos hfits]
    exact hroom
  rw [hlength] at hread
  refine ⟨hread, by decide, ?_, .inl hfits, ?_⟩
  · rw [List.length_append, hlength]
    exact Nat.le_add_right _ _
  · rw [hwindow]
    refine ⟨_, formatOf tickItems, readHeader_record tickCall [] rest, rfl, ?_⟩
    -- literal characters only
    intro h
    cases h

theorem cutFile_sound : SoundFile tickEnv forwardMachine cutFile := by
  have hlength : (recordBytes tickCall []).length = 30 := by decide
  have hten : ((recordBytes tickCall []).take 10).length ≤ 100 := by decide
  have hwhole := tick_whole hten
  have hnext : FilePlace.next ⟨0, cutFile⟩ 30 = ⟨30, (recordBytes tickCall []).take 10⟩ := by
    have hfits : 0 + 30 ≤ parserBufSize := by
      rw [parserBufSize]
      decide
    rw [FilePlace.next, FilePlace.start, if_pos hfits, cutFile, List.drop_left' hlength]
  have hroom : 30 + 10 ≤ parserBufSize := by
    rw [parserBufSize]
    decide
  have hcut : FilePlace.Truncated ⟨30, (recordBytes tickCall []).take 10⟩ 30 :=
    ⟨tick_readLen.2, by decide, by decide, .inl hroom⟩
  have hplaces : ∀ a, LedTo tickEnv forwardMachine cutFile a →
      a = ⟨0, cutFile⟩ ∨ a = ⟨30, (recordBytes tickCall []).take 10⟩ := by
    intro a ha
    induction ha with
    | refl => exact .inl rfl
    | tail _ hstep ih =>
      obtain ⟨len, d, hlen, -, rfl⟩ := hstep
      rcases ih with rfl | rfl
      · have hthirty : (len : ℤ) = 30 := Except.ok.inj (hlen.length.symm.trans hwhole.length)
        obtain rfl : len = 30 := by exact_mod_cast hthirty
        exact .inr hnext
      · have hthirty : (len : ℤ) = 30 := Except.ok.inj (hlen.length.symm.trans hcut.length)
        have hshort : len ≤ 10 := hlen.whole
        omega
  intro a ha
  rcases hplaces a ha with rfl | rfl
  · exact .inr ⟨30, .inl hwhole⟩
  · exact .inr ⟨30, .inr hcut⟩

/-- A record of the function `"f"` whose length field is zero. -/
def stuckRecord : List UInt8 := [0xfd, 0, 0, 0, 0, 1, 102, 0] ++ List.replicate 20 0

/-- Its format is in the JSON file: the empty string. -/
def stuckEnv : ParserEnv :=
  ⟨[⟨⟨[102], by decide⟩, 0, ⟨[], nul_notMem_nil⟩⟩], fun _ => [], fun _ => [], fun _ _ => some []⟩

theorem stuck_decoded : ∃ d, decodeRecord stuckEnv 0 stuckRecord forwardMachine = .ok d := by
  have hfunc : cstring (stuckRecord.drop 6) = .ok ⟨[102], by decide⟩ := cstring_eq_ok.mpr rfl
  have hheader : readHeader stuckRecord = .ok ⟨1, ⟨[102], by decide⟩, 0, 0, 0, 28⟩ := by
    rw [readHeader, hfunc]
    rfl
  rw [decodeRecord, hheader]
  exact ⟨_, rfl⟩

end CcUtils.Binlog
