import CcUtils.Lib.Python

/-!
# `elf_read_str`

The parser of executables reads a string byte by byte up to a zero byte, and decodes each byte by itself.
A byte of a longer character is none by itself, so such a string ends the run with an exception; and at
the end of the file reading gives the empty string for ever, which is not the zero byte that the loop
waits for.

## What is proved

* `readOn_zero`, `readOn_high`, `readOn_end` — how the loop comes to an end, or does not.
* `elfReadStr_iff` — so for which files and offsets the string is read as it is to be.
-/

namespace CcUtils.Binlog

open CcUtils.Lib

/-! ### The function -/

/-- The loop of `elf_read_str`. -/
def elfReadLoop : ℕ → BinaryFile → List UInt8 → List Char → Py (List Char × BinaryFile)
  | 0, _, _, _ => .error .outOfFuel
  | fuel + 1, f, b, s =>
    if b ≠ [0] then do
      let t ← decode b
      let (b, f) := f.read 1
      elfReadLoop fuel f b (s ++ t)
    else .ok (s, f)

/-- `elf_read_str`: the string, and the file after it. -/
def elfReadStr (fuel : ℕ) (f : BinaryFile) (o : ℤ) : Py (List Char × BinaryFile) := do
  let f ← f.seek o
  let (b, f) := f.read 1
  elfReadLoop fuel f b []

/-- The bytes of a file, no more of them than an `off_t` can say, and the offsets that its file system
refuses: none that is within the file. -/
structure ElfFile where
  bytes : List UInt8
  refuses : ℕ → Bool
  small : bytes.length < 2 ^ 63
  within : ∀ o ≤ bytes.length, refuses o = false

/-- The file, open at a position. -/
def ElfFile.openAt (elf : ElfFile) (pos : ℕ) : BinaryFile := ⟨elf.bytes, pos, elf.refuses⟩

/-- An offset that `seek` does not take. -/
def ElfFile.NoOffset (elf : ElfFile) (o : ℤ) : Prop := o < 0 ∨ 2 ^ 63 ≤ o ∨ elf.refuses o.toNat

/-- The bytes from an offset on. -/
def ElfFile.from (elf : ElfFile) (o : ℤ) : List UInt8 := if o < 0 then [] else elf.bytes.drop o.toNat

/-- The call comes to an end, and returns the string that is there. -/
structure StringRead (elf : ElfFile) (pos : ℕ) (o : ℤ) : Prop where
  ends : ∃ fuel, elfReadStr fuel (elf.openAt pos) o ≠ .error .outOfFuel
  string : ∀ s post, elf.from o = utf8 s ++ 0 :: post → 0 ∉ utf8 s →
    ∃ fuel f, elfReadStr fuel (elf.openAt pos) o = .ok (s, f)

/-- The string that is there, if there is one, is of bytes below 128; and the loop comes to a zero byte or
to another one, or the offset is none. -/
structure AsciiOrError (elf : ElfFile) (o : ℤ) : Prop where
  ascii : ∀ s post, elf.from o = utf8 s ++ 0 :: post → 0 ∉ utf8 s → ∀ b ∈ utf8 s, b < 128
  stops : elf.NoOffset o ∨ ∃ b ∈ elf.from o, b = 0 ∨ 128 ≤ b

/-! ### The loop -/

variable {f : BinaryFile} {b : UInt8} {bs pre post : List UInt8} {s : List Char} {fuel : ℕ}

/-- The loop, with the byte before it. -/
def readOn (fuel : ℕ) (f : BinaryFile) (s : List Char) : Py (List Char × BinaryFile) :=
  elfReadLoop fuel (f.read 1).2 (f.read 1).1 s

theorem readOn_byte (h : f.rest = b :: bs) (h0 : b ≠ 0) (hb : b < 128) :
    readOn (fuel + 1) f s = readOn fuel (f.read 1).2 (s ++ asciiText [b]) := by
  have hne : [b] ≠ [0] := by simpa using h0
  unfold readOn
  rw [(BinaryFile.read_one h).1, elfReadLoop, if_pos hne, decode_ascii hb]
  rfl

/-- **To a zero byte** behind bytes below 128 the loop reads them. -/
theorem readOn_zero (h : f.rest = pre ++ 0 :: post) (h0 : 0 ∉ pre) (hascii : ∀ b ∈ pre, b < 128)
    (hfuel : pre.length < fuel) : ∃ f', readOn fuel f s = .ok (s ++ asciiText pre, f') := by
  induction pre generalizing fuel f s with
  | nil =>
    obtain ⟨fuel, rfl⟩ := Nat.exists_eq_add_of_lt hfuel
    refine ⟨(f.read 1).2, ?_⟩
    unfold readOn
    rw [(BinaryFile.read_one h).1]
    simp [elfReadLoop, asciiText]
  | cons b pre ih =>
    cases fuel with
    | zero => cases hfuel
    | succ fuel =>
      obtain ⟨hb, hpre⟩ := List.forall_mem_cons.mp hascii
      obtain ⟨hne, hnot⟩ := not_or.mp (List.mem_cons.not.mp h0)
      have hrest := (BinaryFile.read_one h).2
      obtain ⟨f', hf'⟩ := ih (s := s ++ asciiText [b]) hrest hnot hpre (Nat.lt_of_succ_lt_succ hfuel)
      refine ⟨f', ?_⟩
      rw [readOn_byte h (Ne.symm hne) hb, hf', List.append_assoc]
      rfl

/-- **At a byte from 128 on** it ends with an exception. -/
theorem readOn_high (h : f.rest = pre ++ b :: post) (h0 : 0 ∉ pre) (hascii : ∀ b ∈ pre, b < 128)
    (hb : 128 ≤ b) :
    readOn fuel f s = .error (if pre.length < fuel then .unicodeDecodeError else .outOfFuel) := by
  induction pre generalizing fuel f s with
  | nil =>
    cases fuel with
    | zero => rfl
    | succ fuel =>
      have hne : [b] ≠ [0] := by
        intro hzero
        rw [List.singleton_inj.mp hzero] at hb
        exact absurd hb (by decide)
      unfold readOn
      rw [(BinaryFile.read_one h).1, elfReadLoop, if_pos hne, decode_high hb]
      rfl
  | cons c pre ih =>
    cases fuel with
    | zero => rfl
    | succ fuel =>
      obtain ⟨hc, hpre⟩ := List.forall_mem_cons.mp hascii
      obtain ⟨hne, hnot⟩ := not_or.mp (List.mem_cons.not.mp h0)
      rw [readOn_byte h (Ne.symm hne) hc, ih (BinaryFile.read_one h).2 hnot hpre]
      simp

theorem readOn_nil (h : f.rest = []) : readOn (fuel + 1) f s = readOn fuel f s := by
  have hne : ([] : List UInt8) ≠ [0] := nofun
  have hread := BinaryFile.read_end h
  unfold readOn
  rw [hread]
  change elfReadLoop (fuel + 1) f [] s = elfReadLoop fuel f [] s
  rw [elfReadLoop, if_pos hne, decode_nil]
  change elfReadLoop fuel (f.read 1).2 (f.read 1).1 (s ++ []) = _
  rw [hread, List.append_nil]

/-- **At the end of the file** it goes on for ever. -/
theorem readOn_end (h0 : 0 ∉ f.rest) (hascii : ∀ b ∈ f.rest, b < 128) :
    readOn fuel f s = .error .outOfFuel := by
  induction fuel generalizing f s with
  | zero => rfl
  | succ fuel ih =>
    cases hrest : f.rest with
    | nil =>
      rw [readOn_nil hrest]
      exact ih h0 hascii
    | cons b bs =>
      rw [hrest] at h0 hascii
      obtain ⟨hb, hbs⟩ := List.forall_mem_cons.mp hascii
      obtain ⟨hne, hnot⟩ := not_or.mp (List.mem_cons.not.mp h0)
      have hread := (BinaryFile.read_one hrest).2
      rw [readOn_byte hrest (Ne.symm hne) hb]
      apply ih
      · rwa [hread]
      · rwa [hread]

/-- A list up to its first item of a kind. -/
theorem exists_first {p : UInt8 → Prop} (h : ∃ b ∈ bs, p b) :
    ∃ pre b post, bs = pre ++ b :: post ∧ p b ∧ ∀ c ∈ pre, ¬ p c := by
  classical
  obtain ⟨b, hb, hp⟩ := h
  have hsome : (bs.find? (p ·)).isSome := List.find?_isSome.mpr ⟨b, hb, by simpa using hp⟩
  obtain ⟨c, hc⟩ := Option.isSome_iff_exists.mp hsome
  obtain ⟨hpc, pre, post, hbs, hpre⟩ := List.find?_eq_some_iff_append.mp hc
  exact ⟨pre, c, post, hbs, by simpa using hpc, fun d hd => by simpa using hpre d hd⟩

/-! ### The call -/

variable {elf : ElfFile} {pos : ℕ} {o : ℤ}

theorem ElfFile.from_eq_nil (elf : ElfFile) (h : elf.NoOffset o) : elf.from o = [] := by
  unfold ElfFile.from
  split
  · rfl
  · rename_i h0
    apply List.drop_eq_nil_of_le
    by_contra hlen
    rcases h.resolve_left h0 with hbig | hrefused
    · have hsmall := elf.small
      omega
    · rw [elf.within o.toNat (not_le.mp hlen).le] at hrefused
      cases hrefused

theorem elfReadStr_seek (h : elf.NoOffset o) : StringRead elf pos o := by
  obtain ⟨e, he, hne⟩ := BinaryFile.seek_error (f := elf.openAt pos) h
  refine ⟨⟨0, ?_⟩, fun s post hs => ?_⟩
  · rw [elfReadStr, he]
    exact fun h => hne (Except.error.inj h)
  · rw [elf.from_eq_nil h] at hs
    simp at hs

theorem ElfFile.rest_openAt (elf : ElfFile) (h : ¬ elf.NoOffset o) : (elf.openAt o.toNat).rest = elf.from o := by
  rw [ElfFile.from, if_neg (not_or.mp h).1]
  rfl

theorem elfReadStr_eq (elf : ElfFile) (pos : ℕ) (h : ¬ elf.NoOffset o) (fuel : ℕ) :
    elfReadStr fuel (elf.openAt pos) o = readOn fuel (elf.openAt o.toNat) [] := by
  obtain ⟨h0, h⟩ := not_or.mp h
  obtain ⟨hbig, haccept⟩ := not_or.mp h
  have haccept : (elf.openAt pos).refuses o.toNat = false := Bool.eq_false_iff.mpr haccept
  rw [elfReadStr, BinaryFile.seek_ok (not_lt.mp h0) (not_le.mp hbig) haccept]
  rfl

/-- A string with a byte from 128 on is not returned. -/
theorem ascii_of_ok {f f' : BinaryFile} {t : List Char} (hrest : f.rest = utf8 s ++ 0 :: post)
    (hz : 0 ∉ utf8 s) (hok : readOn fuel f [] = .ok (t, f')) : ∀ b ∈ utf8 s, b < 128 := by
  by_contra hhigh
  push Not at hhigh
  obtain ⟨pre, b, post', hsplit, hb, hpre⟩ := exists_first hhigh
  have hf : f.rest = pre ++ b :: (post' ++ 0 :: post) := by
    rw [hrest, hsplit, List.append_assoc, List.cons_append]
  have hzero : 0 ∉ pre := fun h => hz (hsplit ▸ List.mem_append_left _ h)
  have hlow : ∀ c ∈ pre, c < 128 := fun c hc => not_not.mp (hpre c hc)
  rw [readOn_high hf hzero hlow (UInt8.not_lt.mp hb)] at hok
  cases hok

/-- A loop that ends has a byte to end at. -/
theorem stops_of_ends {f : BinaryFile} (hends : readOn fuel f [] ≠ .error .outOfFuel) :
    ∃ b ∈ f.rest, b = 0 ∨ 128 ≤ b := by
  by_contra hnone
  push Not at hnone
  apply hends
  apply readOn_end
  · exact fun h => (hnone 0 h).1 rfl
  · exact fun b hb => UInt8.not_le.mp (hnone b hb).2

/-- A byte to end at ends the loop. -/
theorem ends_of_stops {f : BinaryFile} (hstop : ∃ b ∈ f.rest, b = 0 ∨ 128 ≤ b) :
    ∃ fuel, readOn fuel f [] ≠ .error .outOfFuel := by
  obtain ⟨pre, b, post, hsplit, hb, hpre⟩ := exists_first hstop
  push Not at hpre
  have hzero : 0 ∉ pre := fun h => (hpre 0 h).1 rfl
  have hlow : ∀ c ∈ pre, c < 128 := fun c hc => UInt8.not_le.mp (hpre c hc).2
  refine ⟨pre.length + 1, ?_⟩
  rcases hb with rfl | hb
  · obtain ⟨f', hok⟩ := readOn_zero (s := []) hsplit hzero hlow (Nat.lt_succ_self _)
    rw [hok]
    exact nofun
  · rw [readOn_high hsplit hzero hlow hb, if_pos (Nat.lt_succ_self _)]
    exact nofun

/-- A string of bytes below 128 is returned. -/
theorem ok_of_ascii {f : BinaryFile} (hrest : f.rest = utf8 s ++ 0 :: post) (hz : 0 ∉ utf8 s)
    (hlow : ∀ b ∈ utf8 s, b < 128) : ∃ fuel f', readOn fuel f [] = .ok (s, f') := by
  obtain ⟨f', hok⟩ := readOn_zero (s := []) hrest hz hlow (Nat.lt_succ_self _)
  refine ⟨(utf8 s).length + 1, f', ?_⟩
  rw [hok, utf8_inj (utf8_asciiText hlow)]
  rfl

/-- **The string is read** as it is to be exactly when all its bytes are below 128 and the loop comes to a
zero byte or to an exception. -/
theorem elfReadStr_iff (elf : ElfFile) (pos : ℕ) (o : ℤ) :
    StringRead elf pos o ↔ AsciiOrError elf o := by
  by_cases hseek : elf.NoOffset o
  · have hfrom := elf.from_eq_nil hseek
    refine iff_of_true (elfReadStr_seek hseek) ⟨fun s post hs _ => ?_, .inl hseek⟩
    rw [hfrom] at hs
    simp at hs
  have hrest := elf.rest_openAt hseek
  have heq := elfReadStr_eq elf pos hseek
  constructor
  · rintro ⟨⟨fuel, hends⟩, hstring⟩
    refine ⟨fun s post hs hz => ?_, .inr ?_⟩
    · obtain ⟨fuel, f', hok⟩ := hstring s post hs hz
      rw [heq] at hok
      exact ascii_of_ok (hrest.trans hs) hz hok
    · rw [heq] at hends
      rw [← hrest]
      exact stops_of_ends hends
  · rintro ⟨hascii, hstops⟩
    have hstop := hstops.resolve_left hseek
    rw [← hrest] at hstop
    obtain ⟨fuel, hends⟩ := ends_of_stops hstop
    refine ⟨⟨fuel, ?_⟩, fun s post hs hz => ?_⟩
    · rwa [heq]
    · obtain ⟨fuel, f', hok⟩ := ok_of_ascii (hrest.trans hs) hz (hascii s post hs hz)
      exact ⟨fuel, f', (heq fuel).trans hok⟩

/-- The string `é` in a file. -/
def accentFile : ElfFile := ⟨[0xc3, 0xa9, 0], fun _ => false, by decide, fun _ _ => rfl⟩

/-- Its first byte by itself is no character. -/
theorem elfReadStr_accent : ¬ StringRead accentFile 0 0 := by
  intro h
  have htext : utf8 ['é'] = [0xc3, 0xa9] := by decide
  obtain ⟨fuel, f, hok⟩ := h.string ['é'] [] (by rw [htext]; rfl) (by rw [htext]; decide)
  have hrest : (accentFile.openAt 0).rest = [] ++ 0xc3 :: [0xa9, 0] := rfl
  have hcall : elfReadStr fuel (accentFile.openAt 0) 0 = readOn fuel (accentFile.openAt 0) [] := rfl
  rw [hcall, readOn_high hrest (by simp) (by simp) (by decide)] at hok
  cases hok

end CcUtils.Binlog
