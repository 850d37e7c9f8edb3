import CcUtils.Binlog.ElfParse
import CcUtils.Binlog.ElfReadStr
import CcUtils.Binlog.Logging

/-!
# The table of formats

A call of `binlog_print` does not write its format. A script takes the formats from the executables, where
they are among the constants, and the parser looks them up by function and line. The script writes the table
as JSON and the parser reads it with a library for JSON; of these two the strings and the numbers of the
table are all that matters here.

## What is proved

* `parseBinlog_entries` — from executables in which the script finds only loads of call sites, it makes the
  entries of the call sites.
* `formatFetch_own_iff` — each call site has its own format looked up exactly when no two that have function
  and line in common have different formats.
* `toolchain_prints` — so the parser prints what was logged, with the table from the executables.
-/

namespace CcUtils.Binlog

open CcUtils.Lib

/-! ### The script -/

/-- A file to scan, and the lines of its disassembly. -/
structure Executable where
  elf : ElfFile
  listing : List Line

/-- An element of `argset`. -/
structure Entry where
  function : List Char
  line : ℤ
  format : List Char

/-- `execute_virt_start`. -/
def executeVirtStart : ℤ := 0x400000

/-- `elf_foff`. -/
def elfFoff (virt : ℤ) : ℤ := if virt > executeVirtStart then virt - executeVirtStart else virt

/-- The body of the inner loop of `parse_binlog`. -/
def parseSite (fuel : ℕ) (s : BinaryFile × List Entry) (t : ℤ × ℤ × ℤ) : Py (BinaryFile × List Entry) := do
  let funcFoff := elfFoff t.1
  let fmtFoff := elfFoff t.2.2
  let (function, fp) ← elfReadStr fuel s.1 funcFoff
  let (format, fp) ← elfReadStr fuel fp fmtFoff
  return (fp, s.2 ++ [⟨function, t.2.1, format⟩])

/-- The body of the outer loop. -/
def parseElf (other : Char → Char) (fuel : ℕ) (argset : List Entry) (f : Executable) : Py (List Entry) := do
  let elfList ← elfParse other f.listing
  let (_, argset) ← elfList.foldlM (parseSite fuel) (f.elf.openAt 0, argset)
  return argset

/-- `parse_binlog`. -/
def parseBinlog (other : Char → Char) (fuel : ℕ) (files : List Executable) : Py (List Entry) :=
  files.foldlM (parseElf other fuel) []

/-- What the parser has of an entry that was written as JSON: the bytes of its texts, and its number cut to
an `int`. -/
structure ReadBack (e : Entry) (item : FormatItem) : Prop where
  function : item.function.val = utf8 e.function
  line : item.line.toInt = max (-2 ^ 31) (min e.line (2 ^ 31 - 1))
  format : item.format.val = utf8 e.format

/-! ### Call sites -/

/-- At an offset there is a string of bytes below 128. -/
def ElfFile.HasString (elf : ElfFile) (o : ℤ) (s : CString) : Prop :=
  (∃ post, elf.from o = s.bytes ++ post) ∧ ∀ b ∈ s.val, b < 128

/-- The call at line `j` of the disassembly has the function, the line and the format of `item`. -/
structure Executable.HasSite (spoils : Reg → List Char → Bool) (f : Executable) (j : ℕ) (item : FormatItem) :
    Prop where
  function : f.elf.HasString (elfFoff (loaded spoils f.listing .edx j)) item.function
  line : loaded spoils f.listing .ecx j = item.line.toInt
  format : f.elf.HasString (elfFoff (loaded spoils f.listing .r8d j)) item.format

/-- The script can read the call sites of an executable: only their loads are let through by its filters,
and `sites` are what they are. -/
structure Executable.Scans (spoils : Reg → List Char → Bool) (f : Executable) (sites : List FormatItem) :
    Prop where
  noStray : ∀ r i, ¬ Stray spoils f.listing r i
  sites : List.Forall₂ (f.HasSite spoils) (completeSites spoils f.listing) sites

/-- The entry of a call site. -/
def entryOf (item : FormatItem) : Entry := ⟨asciiText item.function.val, item.line.toInt, asciiText item.format.val⟩

variable {other : Char → Char} {spoils : Reg → List Char → Bool} {fuel : ℕ} {f : Executable}

/-! ### Reading strings -/

/-- Reading changes the position only. -/
theorem elfReadLoop_frame {g g' : BinaryFile} {b : List UInt8} {s t : List Char}
    (h : elfReadLoop fuel g b s = .ok (t, g')) : g' = { g with pos := g'.pos } := by
  induction fuel generalizing g b s with
  | zero => cases h
  | succ fuel ih =>
    rw [elfReadLoop] at h
    split at h
    · cases hd : decode b with
      | error e =>
        rw [hd] at h
        cases h
      | ok c =>
        rw [hd] at h
        exact ih (g := (g.read 1).2) h
    · obtain ⟨-, rfl⟩ := Prod.mk.inj (Except.ok.inj h)
      rfl

/-- A string of the file is read, wherever the file was before. -/
theorem elfReadStr_string {elf : ElfFile} {o : ℤ} {s : CString} (h : elf.HasString o s)
    (hfuel : elf.bytes.length < fuel) (pos : ℕ) :
    ∃ pos', elfReadStr fuel (elf.openAt pos) o = .ok (asciiText s.val, elf.openAt pos') := by
  obtain ⟨⟨post, hfrom⟩, hascii⟩ := h
  have hrange : ¬ elf.NoOffset o := by
    intro hout
    rw [elf.from_eq_nil hout] at hfrom
    simp [CString.bytes] at hfrom
  have hlen := congrArg List.length hfrom
  rw [ElfFile.from, if_neg (not_or.mp hrange).1, List.length_drop, List.length_append, CString.length_bytes,
    CString.len] at hlen
  have hrest : (elf.openAt o.toNat).rest = s.val ++ 0 :: post := by
    rw [CString.bytes, List.append_assoc, List.singleton_append] at hfrom
    rw [elf.rest_openAt hrange, hfrom]
  obtain ⟨g, hg⟩ := readOn_zero (s := []) hrest s.property hascii (by omega : s.val.length < fuel)
  refine ⟨g.pos, ?_⟩
  rw [elfReadStr_eq elf pos hrange, hg, elfReadLoop_frame hg]
  rfl

/-! ### The entries -/

/-- What is let through is what is loaded for the call sites. -/
theorem elfParse_loaded (h : ∀ r i, ¬ Stray spoils f.listing r i) :
    elfParse other f.listing = .ok ((completeSites spoils f.listing).map fun j =>
      (loaded spoils f.listing .edx j, loaded spoils f.listing .ecx j, loaded spoils f.listing .r8d j)) := by
  have hpassing : ∀ r, passing f.listing r = loadLines spoils f.listing r := by
    intro r
    have hsub : passing f.listing r ⊆ loadLines spoils f.listing r := by
      intro i hi
      by_contra hnot
      exact h r i (stray_iff.mpr ⟨hi, hnot⟩)
    have hperm : (passing f.listing r).Perm (loadLines spoils f.listing r) :=
      (List.subperm_of_subset ((passing_pairwise _ r).imp fun h => ne_of_lt h) hsub).antisymm
        (List.subperm_of_subset ((loadLines_pairwise spoils _ r).imp fun h => ne_of_lt h)
          (loadLines_subset spoils _ r))
    exact hperm.eq_of_pairwise (fun a b _ _ hab hba => absurd hab (Nat.lt_asymm hba)) (passing_pairwise _ r)
      (loadLines_pairwise spoils _ r)
  apply values_of_sites
  refine sites_iff.mpr ⟨fun r => ?_, .edx, ?_⟩
  · rw [hpassing, List.take_length]
  · rw [hpassing]

/-- The inner loop adds the entries of the call sites, one after the other. -/
theorem parseSite_run {js : List ℕ} {sites : List FormatItem} (h : List.Forall₂ (f.HasSite spoils) js sites)
    (hfuel : f.elf.bytes.length < fuel) (pos : ℕ) (argset : List Entry) :
    ∃ pos', (js.map fun j => (loaded spoils f.listing .edx j, loaded spoils f.listing .ecx j,
        loaded spoils f.listing .r8d j)).foldlM (parseSite fuel) (f.elf.openAt pos, argset) =
      .ok (f.elf.openAt pos', argset ++ sites.map entryOf) := by
  induction h generalizing pos argset with
  | nil =>
    refine ⟨pos, ?_⟩
    rw [List.map_nil, List.map_nil, List.append_nil]
    rfl
  | @cons j item js sites hsite _ ih =>
    obtain ⟨pos₁, h₁⟩ := elfReadStr_string hsite.function hfuel pos
    obtain ⟨pos₂, h₂⟩ := elfReadStr_string hsite.format hfuel pos₁
    obtain ⟨pos', h'⟩ := ih pos₂ (argset ++ [entryOf item])
    refine ⟨pos', ?_⟩
    rw [List.map_cons, List.foldlM_cons, parseSite]
    simp only [h₁, h₂, hsite.line, Py.ok_bind]
    rw [List.map_cons, List.append_cons argset (entryOf item)]
    exact h'

/-- **The script** makes the entries of all call sites, in order. -/
theorem parseBinlog_entries {files : List Executable} {sites : List (List FormatItem)}
    (h : List.Forall₂ (Executable.Scans spoils) files sites)
    (hfuel : ∀ f ∈ files, f.elf.bytes.length < fuel) :
    parseBinlog other fuel files = .ok (sites.flatten.map entryOf) := by
  suffices hrun : ∀ argset, files.foldlM (parseElf other fuel) argset =
      .ok (argset ++ sites.flatten.map entryOf) from hrun []
  induction h with
  | nil =>
    intro argset
    rw [List.flatten_nil, List.map_nil, List.append_nil]
    rfl
  | @cons f items files sites hscan _ ih =>
    intro argset
    obtain ⟨hf, hfiles⟩ := List.forall_mem_cons.mp hfuel
    obtain ⟨pos, hrun⟩ := parseSite_run hscan.sites hf 0 argset
    rw [List.foldlM_cons, parseElf, elfParse_loaded hscan.noStray, Py.ok_bind, hrun]
    rw [List.flatten_cons, List.map_append, ← List.append_assoc]
    exact ih hfiles _

/-- Written as JSON and read back, the entries are the call sites again. -/
theorem eq_of_readBack {sites items : List FormatItem}
    (hascii : ∀ item ∈ sites, (∀ b ∈ item.function.val, b < 128) ∧ ∀ b ∈ item.format.val, b < 128)
    (h : List.Forall₂ ReadBack (sites.map entryOf) items) : items = sites := by
  induction sites generalizing items with
  | nil => exact List.forall₂_nil_left_iff.mp h
  | cons site sites ih =>
    obtain ⟨item, items, hitem, hitems, rfl⟩ := List.forall₂_cons_left_iff.mp h
    obtain ⟨⟨hfunction, hformat⟩, hrest⟩ := List.forall_mem_cons.mp hascii
    rw [ih hrest hitems]
    congr 1
    have hline : item.line = site.line := by
      have hback := hitem.line
      have hlow := site.line.le_toInt
      have hhigh := site.line.toInt_lt
      simp only [entryOf] at hback
      exact BitVec.eq_of_toInt_eq (by omega)
    have hf : item.function = site.function := Subtype.ext (hitem.function.trans (utf8_asciiText hfunction))
    have hg : item.format = site.format := Subtype.ext (hitem.format.trans (utf8_asciiText hformat))
    cases item
    cases site
    simp only at hline hf hg
    rw [hline, hf, hg]

theorem exists_of_forall₂ {α β : Type} {p : α → β → Prop} {l : List α} {l' : List β} (h : List.Forall₂ p l l')
    {b : β} (hb : b ∈ l') : ∃ a ∈ l, p a b := by
  induction h with
  | nil => cases hb
  | @cons a b' l l' hab _ ih =>
    rcases List.mem_cons.mp hb with rfl | hb
    · exact ⟨a, List.mem_cons_self, hab⟩
    · obtain ⟨a', ha', hp⟩ := ih hb
      exact ⟨a', List.mem_cons_of_mem _ ha', hp⟩

theorem Executable.Scans.ascii {sites : List FormatItem} (h : f.Scans spoils sites) {item : FormatItem}
    (hitem : item ∈ sites) : (∀ b ∈ item.function.val, b < 128) ∧ ∀ b ∈ item.format.val, b < 128 := by
  obtain ⟨j, -, hsite⟩ := exists_of_forall₂ h.sites hitem
  exact ⟨hsite.function.2, hsite.format.2⟩

/-! ### Looking up -/

/-- Call sites that have function and line in common have the format in common. -/
def Consistent (items : List FormatItem) : Prop :=
  ∀ a ∈ items, ∀ b ∈ items, a.function = b.function → a.line = b.line → a.format = b.format

/-- **Each call site** has its own format looked up exactly when the table is consistent. -/
theorem formatFetch_own_iff {items : List FormatItem} :
    (∀ a ∈ items, formatFetch items a.function a.line = some a.format) ↔ Consistent items := by
  constructor
  · intro h a ha b hb hfunction hline
    have hfetch := h a ha
    rw [hfunction, hline, h b hb] at hfetch
    exact (Option.some.inj hfetch).symm
  · intro h a ha
    have hsome : (items.find? fun item => decide (a.function = item.function ∧ a.line = item.line)).isSome := by
      rw [List.find?_isSome]
      exact ⟨a, ha, by simp⟩
    obtain ⟨b, hb⟩ := Option.isSome_iff_exists.mp hsome
    have hmem := List.mem_of_find?_eq_some hb
    have hfound := List.find?_some hb
    obtain ⟨hfunction, hline⟩ := of_decide_eq_true hfound
    rw [formatFetch, hb, h a ha b hmem hfunction hline]
    rfl

/-! ### From the executables to the text -/

variable {ι : Type} [DecidableEq ι] {env : ParserEnv} {render : Renderer}

/-- Which call site a call is from. -/
def LogCall.site (c : LogCall) : FormatItem := ⟨c.call.func, c.call.line, formatOf c.items⟩

/-- **The tools fit together.** The script makes the entries of the call sites of the executables. With them,
written as JSON and read back, and if no two sites with the same function and line have different formats, the
parser prints what threads of the executables have logged: in the order of the writes, the lines that a logger
would have printed at once. -/
theorem toolchain_prints {files : List Executable} {sites : List (List FormatItem)}
    (hscan : List.Forall₂ (Executable.Scans spoils) files sites)
    (hfuel : ∀ f ∈ files, f.elf.bytes.length < fuel) (hconsistent : Consistent sites.flatten)
    (hread : ∀ table, parseBinlog other fuel files = .ok table → List.Forall₂ ReadBack table env.jsonArr)
    (henv : env.fprintf = fprintfOf render) {calls : ι → List LogCall}
    (hcalls : ∀ i, ∀ c ∈ calls i, c.Fits env.fprintf ∧ c.site ∈ sites.flatten)
    (sched : List (ι × Heap × (ℕ → UInt8))) :
    parseBinlog other fuel files = .ok (sites.flatten.map entryOf) ∧
      Post ((Logging.start calls).run sched) fun s =>
        (∀ i, calls i = s.writtenBy i ++ (((s.about i).map Prod.fst).toList ++ s.todo i)) ∧
          (s.written ≠ [] → s.file.length < 2 ^ 31 →
            CutsOk parserBufSize 0 (s.written.map fun w => w.2.record.length) →
            ∀ junk extent, ∃ fuel ds, parseFile env s.file junk extent fuel = .ok ds ∧
              ds.map Decoded.text = s.written.map fun w => w.2.line env render) := by
  have hparse : parseBinlog other fuel files = .ok (sites.flatten.map entryOf) :=
    parseBinlog_entries hscan hfuel
  refine ⟨hparse, ?_⟩
  have hascii : ∀ item ∈ sites.flatten, (∀ b ∈ item.function.val, b < 128) ∧ ∀ b ∈ item.format.val, b < 128 := by
    intro item hitem
    obtain ⟨items, hitems, hitem⟩ := List.mem_flatten.mp hitem
    obtain ⟨f, -, hf⟩ := exists_of_forall₂ hscan hitems
    exact hf.ascii hitem
  have htable : env.jsonArr = sites.flatten := eq_of_readBack hascii (hread _ hparse)
  have hgood : ∀ i, ∀ c ∈ calls i, c.Good env := by
    intro i c hc
    obtain ⟨hfits, hsite⟩ := hcalls i c hc
    refine ⟨hfits, ?_⟩
    rw [htable]
    exact formatFetch_own_iff.mpr hconsistent _ hsite
  exact ((Logging.Inv.start calls).run (fun i c hc => (hcalls i c hc).1) sched).mono fun _ h =>
    ⟨h.order, h.prints henv hgood⟩

/-- Two calls, whose strings are the first of the constants and are loaded with the addresses of these. -/
def twoSites : Executable where
  elf := ⟨[0x7f, 102, 110, 0, 104, 105, 0, 37, 100, 0], fun _ => false, by decide, fun _ _ => rfl⟩
  listing :=
    ["  401000:\tba 01 00 40 00       \tmov    $0x400001,%edx",
      "  401005:\t41 b8 04 00 40 00    \tmov    $0x400004,%r8d",
      "  40100b:\tb9 07 00 00 00       \tmov    $0x7,%ecx",
      "  401010:\te8 ae 00 00 00       \tcall   4010c3 <binlog_print>",
      "  401015:\tba 01 00 40 00       \tmov    $0x400001,%edx",
      "  40101a:\t41 b8 07 00 40 00    \tmov    $0x400007,%r8d",
      "  401020:\tb9 08 00 00 00       \tmov    $0x8,%ecx",
      "  401025:\te8 99 00 00 00       \tcall   4010c3 <binlog_print>"].map Line.ofString

theorem twoSites_scans : twoSites.Scans isTarget [hiCall.site, numberCall.site] := by
  have hpassing : ∀ r, passing twoSites.listing r ⊆ loadLines isTarget twoSites.listing r := by
    rw [Reg.forall_iff]
    decide +kernel
  have hsites : completeSites isTarget twoSites.listing = [3, 7] := by decide +kernel
  have hlow : ∀ s ∈ [hiCall.call.func, formatOf hiCall.items, formatOf numberCall.items],
      ∀ b ∈ s.val, b.toNat < 128 := by decide +kernel
  have hfunction : twoSites.elf.HasString 1 hiCall.call.func :=
    ⟨⟨[104, 105, 0, 37, 100, 0], rfl⟩, hlow _ (by simp)⟩
  have hhi : twoSites.elf.HasString 4 (formatOf hiCall.items) := ⟨⟨[37, 100, 0], rfl⟩, hlow _ (by simp)⟩
  have hnumber : twoSites.elf.HasString 7 (formatOf numberCall.items) := ⟨⟨[], rfl⟩, hlow _ (by simp)⟩
  refine ⟨fun r i hstray => ?_, ?_⟩
  · obtain ⟨hpass, hnot⟩ := stray_iff.mp hstray
    exact hnot (hpassing r hpass)
  · rw [hsites]
    have h3 : elfFoff (loaded isTarget twoSites.listing .edx 3) = 1 ∧
        loaded isTarget twoSites.listing .ecx 3 = 7 ∧
        elfFoff (loaded isTarget twoSites.listing .r8d 3) = 4 := by decide +kernel
    have h7 : elfFoff (loaded isTarget twoSites.listing .edx 7) = 1 ∧
        loaded isTarget twoSites.listing .ecx 7 = 8 ∧
        elfFoff (loaded isTarget twoSites.listing .r8d 7) = 7 := by decide +kernel
    refine .cons ⟨?_, h3.2.1, ?_⟩ (.cons ⟨?_, h7.2.1, ?_⟩ .nil)
    · rw [h3.1]
      exact hfunction
    · rw [h3.2.2]
      exact hhi
    · rw [h7.1]
      exact hfunction
    · rw [h7.2.2]
      exact hnumber

theorem twoSites_consistent : Consistent [[hiCall.site, numberCall.site]].flatten := by
  have hlines : hiCall.site.line ≠ numberCall.site.line := by decide
  intro a ha b hb _ hline
  simp only [List.flatten_cons, List.flatten_nil, List.append_nil, List.mem_cons, List.not_mem_nil, or_false]
    at ha hb
  rcases ha with rfl | rfl
  · rcases hb with rfl | rfl
    · rfl
    · exact absurd hline hlines
  · rcases hb with rfl | rfl
    · exact absurd hline.symm hlines
    · rfl

theorem twoSites_readBack (table : List Entry) (h : parseBinlog id 11 [twoSites] = .ok table) :
    List.Forall₂ ReadBack table twoEnv.jsonArr := by
  have hparse : parseBinlog id 11 [twoSites] = .ok ([[hiCall.site, numberCall.site]].flatten.map entryOf) :=
    parseBinlog_entries (.cons twoSites_scans .nil) (by simp [twoSites])
  rw [hparse] at h
  rw [← Except.ok.inj h]
  exact .cons ⟨by decide, by decide, by decide⟩ (.cons ⟨by decide, by decide, by decide⟩ .nil)

/-- The two calls, each by a thread of its own. -/
theorem toolchain_prints_two :
    parseBinlog id 11 [twoSites] = .ok ([[hiCall.site, numberCall.site]].flatten.map entryOf) ∧
      Post ((Logging.start fun i : Bool => if i then [numberCall] else [hiCall]).run
        [(false, fun _ _ => 0, fun _ => 0), (true, fun _ _ => 1, fun _ => 1),
          (true, fun _ _ => 0, fun _ => 0), (false, fun _ _ => 0, fun _ => 0)]) fun s =>
        (∀ i, (if i then [numberCall] else [hiCall]) =
          s.writtenBy i ++ (((s.about i).map Prod.fst).toList ++ s.todo i)) ∧
          (s.written ≠ [] → s.file.length < 2 ^ 31 →
            CutsOk parserBufSize 0 (s.written.map fun w => w.2.record.length) →
            ∀ junk extent, ∃ fuel ds, parseFile twoEnv s.file junk extent fuel = .ok ds ∧
              ds.map Decoded.text = s.written.map fun w => w.2.line twoEnv mark) := by
  have hcalls : ∀ i : Bool, ∀ c ∈ (if i then [numberCall] else [hiCall]),
      c.Fits twoEnv.fprintf ∧ c.site ∈ [[hiCall.site, numberCall.site]].flatten := by
    intro i c hc
    cases i with
    | true =>
      rw [List.mem_singleton.mp hc]
      exact ⟨numberCall_good.toFits, by simp⟩
    | false =>
      rw [List.mem_singleton.mp hc]
      exact ⟨hiCall_good.toFits, by simp⟩
  exact toolchain_prints (.cons twoSites_scans .nil) (by simp [twoSites]) twoSites_consistent twoSites_readBack rfl
    hcalls _

end CcUtils.Binlog
