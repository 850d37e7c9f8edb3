import CcUtils.Lib.Filters
import CcUtils.Lib.Python
import Mathlib.Data.List.TakeWhile

/-!
# `elf_parse`

The parser of executables goes three times through the lines of a disassembly, for what is loaded into
three registers before the calls of `binlog_print`, and puts the first of each, the second of each and so
on together. A line that one of the filters lets through without its fellows shifts all that come after.

## What is proved

* `elfParse_eq` — `elf_parse` by the numbers of the lines that the filters let through.
* `immediate_match` — a load of an immediate is let through, and read.
* `Load.lt` — the lines of one call site are before those of the next.
* `elfParse_iff` — for which listings every call site keeps its own lines.
-/

namespace CcUtils.Binlog

open CcUtils.Lib

/-! ### The function -/

/-- A line of a listing. -/
structure Line where
  text : List Char
  clean : ∀ c ∈ text, c ≠ '\n' ∧ c ≠ '\r' ∧ c ≠ '\x00'

instance : Inhabited Line := ⟨⟨[], nofun⟩⟩

/-- The registers of the three arguments. -/
inductive Reg where
  | edx
  | ecx
  | r8d
  deriving DecidableEq

/-- The name in the listing. -/
def Reg.name : Reg → List Char
  | .edx => ['%', 'e', 'd', 'x']
  | .ecx => ['%', 'e', 'c', 'x']
  | .r8d => ['%', 'r', '8', 'd']

theorem Reg.forall_iff {p : Reg → Prop} : (∀ r, p r) ↔ p .edx ∧ p .ecx ∧ p .r8d :=
  ⟨fun h => ⟨h .edx, h .ecx, h .r8d⟩, fun ⟨hd, hc, h8⟩ r => by cases r <;> assumption⟩

theorem Reg.exists_iff {p : Reg → Prop} : (∃ r, p r) ↔ p .edx ∨ p .ecx ∨ p .r8d := by
  constructor
  · rintro ⟨r, hr⟩
    cases r with
    | edx => exact .inl hr
    | ecx => exact .inr (.inl hr)
    | r8d => exact .inr (.inr hr)
  · rintro (h | h | h) <;> exact ⟨_, h⟩

/-- `mov.*$.*,%reg`, where `$` is itself. -/
def movPattern (r : Reg) : List (List Char) := [['m', 'o', 'v'], ['$'], ',' :: r.name]

/-- `call.*binlog_print`. -/
def callPattern : List (List Char) :=
  [['c', 'a', 'l', 'l'], ['b', 'i', 'n', 'l', 'o', 'g', '_', 'p', 'r', 'i', 'n', 't']]

/-- The text of a line that `grep -B` prints. -/
def lineText {α : Type} (text : α → List Char) (o : Option α) : List Char := o.elim ['-', '-'] text

/-- `grep -B 7 'call.*binlog_print' | grep 'mov.*$.*,%reg'`. -/
def grepLines {α : Type} (text : α → List Char) (r : Reg) (lines : List α) : List (Option α) :=
  (grepBefore 7 (fun a => grepMatch callPattern (text a)) false false lines).filter
    fun o => grepMatch (movPattern r) (lineText text o)

/-- `awk -F'$' '{print $2}' | awk -F, '{print $1}'`. -/
def awkText (line : List Char) : List Char := awkField ',' 1 (awkField '$' 2 line)

/-- `func_fmt`, `line_fmt` and `cc_fmt`. -/
def pipeline (r : Reg) (lines : List Line) : List Char :=
  unlines ((grepLines Line.text r lines).map fun o => awkText (lineText Line.text o))

/-- `read().split('\n')[:-1]`. -/
def readLines (text : List Char) : List (List Char) := (text.splitOn '\n').dropLast

/-- `elf_parse`. -/
def elfParse (other : Char → Char) (lines : List Line) : Py (List (ℤ × ℤ × ℤ)) :=
  let funcs := readLines (pipeline .edx lines)
  let lineNums := readLines (pipeline .ecx lines)
  let cfmts := readLines (pipeline .r8d lines)
  (funcs.zip (lineNums.zip cfmts)).mapM fun t => do
    let x ← intHex other t.1
    let y ← intHex other t.2.1
    let z ← intHex other t.2.2
    return (x, y, z)

/-! ### Call sites -/

/-- Line `i`. -/
def lineAt (lines : List Line) (i : ℕ) : Line := lines[i]?.getD default

/-- Its text. -/
def textAt (lines : List Line) (i : ℕ) : List Char := (lineAt lines i).text

/-- Line `i` is a call. -/
def isCall (lines : List Line) (i : ℕ) : Bool := grepMatch callPattern (textAt lines i)

/-- A character of the address or of the bytes of an instruction. -/
def isCode (c : Char) : Bool := (hexDigit c).isSome || c = ':' || c = ' ' || c = '\t'

/-- What is behind `w`. -/
def behind (w line : List Char) : Option (List Char) :=
  if w <+: line then some (line.drop w.length) else none

/-- The immediate that an instruction `mov $0x...,%reg` loads. -/
def immediate (r : Reg) (line : List Char) : Option ℤ := do
  let operands ← behind ['m', 'o', 'v'] (line.dropWhile isCode)
  let source ← behind ['$', '0', 'x'] (operands.dropWhile (· = ' '))
  let digits := source.takeWhile fun c => (hexDigit c).isSome
  if digits ≠ [] ∧ source.dropWhile (fun c => (hexDigit c).isSome) = ',' :: r.name then
    some (ofHex 0 digits)
  else none

/-- The load of an immediate into a register for the call at line `j`: the last within `n` lines and
behind the call before, unless a line between spoils the register. -/
def loadBack (spoils : Reg → List Char → Bool) (lines : List Line) (r : Reg) : ℕ → ℕ → Option ℕ
  | 0, _ => none
  | _, 0 => none
  | n + 1, i + 1 =>
    if isCall lines i then none
    else if (immediate r (textAt lines i)).isSome then some i
    else if spoils r (textAt lines i) then none
    else loadBack spoils lines r n i

/-- The load of a call site, which the script looks for in seven lines. -/
def load (spoils : Reg → List Char → Bool) (lines : List Line) (r : Reg) (j : ℕ) : Option ℕ :=
  loadBack spoils lines r 7 j

/-- The value that is loaded for a call site. -/
def loaded (spoils : Reg → List Char → Bool) (lines : List Line) (r : Reg) (j : ℕ) : ℤ :=
  ((load spoils lines r j).bind fun i => immediate r (textAt lines i)).getD 0

/-- The call sites with all three loads. -/
def completeSites (spoils : Reg → List Char → Bool) (lines : List Line) : List ℕ :=
  (List.range lines.length).filter fun j => isCall lines j && (load spoils lines .edx j).isSome &&
    (load spoils lines .ecx j).isSome && (load spoils lines .r8d j).isSome

/-- The numbers of the lines that a filter lets through. -/
def grepNumbers (lines : List Line) (r : Reg) : List (Option ℕ) :=
  grepLines (textAt lines) r (List.range lines.length)

/-- The lines that are put together are those of the call sites that have all three, and so the values
are theirs. -/
structure Together (other : Char → Char) (spoils : Reg → List Char → Bool) (lines : List Line) :
    Prop where
  sites : (grepNumbers lines .edx).zip ((grepNumbers lines .ecx).zip (grepNumbers lines .r8d)) =
    (completeSites spoils lines).map fun j =>
      (load spoils lines .edx j, load spoils lines .ecx j, load spoils lines .r8d j)
  values : elfParse other lines = .ok ((completeSites spoils lines).map fun j =>
    (loaded spoils lines .edx j, loaded spoils lines .ecx j, loaded spoils lines .r8d j))

/-- A line that a filter lets through without being the load of a site with all three. -/
structure Stray (spoils : Reg → List Char → Bool) (lines : List Line) (r : Reg) (i : ℕ) : Prop where
  matched : grepMatch (movPattern r) (textAt lines i) = true
  near : ∃ j, i ≤ j ∧ j ≤ i + 7 ∧ isCall lines j = true
  apart : ∀ j ∈ completeSites spoils lines, load spoils lines r j ≠ some i

/-! ### The lines that are let through -/

section lines

variable {α β : Type} {lines : List Line} {r : Reg} {i : ℕ}

theorem grepLines_map (text : α → List Char) (f : β → α) (r : Reg) (bs : List β) :
    grepLines text r (bs.map f) = (grepLines (text ∘ f) r bs).map (Option.map f) := by
  have htext : ∀ o, lineText text (Option.map f o) = lineText (text ∘ f) o := by
    rintro (_ | b) <;> rfl
  unfold grepLines
  rw [grepBefore_map, List.filter_map]
  simp only [Function.comp_def, htext]

/-- The lines by their numbers. -/
theorem map_range (lines : List Line) :
    (List.range lines.length).map (lineAt lines) = lines := by
  apply List.ext_getElem?
  intro i
  unfold lineAt
  rw [List.getElem?_map]
  rcases Nat.lt_or_ge i lines.length with hi | hi
  · simp [hi]
  · simp [hi]

/-- The text that a filter prints for the line of a number. -/
def printed (lines : List Line) (o : Option ℕ) : List Char := awkText (lineText (textAt lines) o)

theorem newline_notMem_printed (lines : List Line) (o : Option ℕ) : '\n' ∉ printed lines o := by
  intro h
  have hmem := mem_of_mem_awkField (mem_of_mem_awkField h)
  cases o with
  | none =>
    have hdash : '\n' ∉ ['-', '-'] := by decide
    exact hdash hmem
  | some i => exact ((lineAt lines i).clean _ hmem).1 rfl

theorem pipeline_eq (lines : List Line) (r : Reg) :
    pipeline r lines = unlines ((grepNumbers lines r).map (printed lines)) := by
  have hnumbers := grepLines_map Line.text (lineAt lines) r (List.range lines.length)
  rw [map_range] at hnumbers
  unfold pipeline
  rw [hnumbers, List.map_map]
  apply congrArg unlines
  apply List.map_congr_left
  rintro (_ | i) _ <;> rfl

theorem readLines_pipeline (lines : List Line) (r : Reg) :
    readLines (pipeline r lines) = (grepNumbers lines r).map (printed lines) := by
  have hnewline : ∀ line ∈ (grepNumbers lines r).map (printed lines), '\n' ∉ line := by
    intro line hline
    obtain ⟨o, -, rfl⟩ := List.mem_map.mp hline
    exact newline_notMem_printed lines o
  unfold readLines
  rw [pipeline_eq, splitOn_unlines hnewline, List.dropLast_concat]

/-- What `elf_parse` makes of three lines. -/
def tripleAt (other : Char → Char) (lines : List Line) (t : Option ℕ × Option ℕ × Option ℕ) :
    Py (ℤ × ℤ × ℤ) := do
  let x ← intHex other (printed lines t.1)
  let y ← intHex other (printed lines t.2.1)
  let z ← intHex other (printed lines t.2.2)
  return (x, y, z)

/-- It goes through the numbers of the lines, three at a time. -/
theorem elfParse_eq (other : Char → Char) (lines : List Line) :
    elfParse other lines = ((grepNumbers lines .edx).zip ((grepNumbers lines .ecx).zip
      (grepNumbers lines .r8d))).mapM (tripleAt other lines) := by
  unfold elfParse
  rw [readLines_pipeline, readLines_pipeline, readLines_pipeline]
  simp only [List.zip_map, List.mapM_map]
  rfl

/-- Line `i` is let through. -/
def passes (lines : List Line) (r : Reg) (i : ℕ) : Bool :=
  grepMatch (movPattern r) (textAt lines i) && (List.range' i 8).any (isCall lines)

theorem isCall_eq_false (hi : lines.length ≤ i) : isCall lines i = false := by
  unfold isCall textAt lineAt
  rw [List.getElem?_eq_none hi]
  rfl

theorem grepNumbers_eq (lines : List Line) (r : Reg) :
    grepNumbers lines r = ((List.range lines.length).filter (passes lines r)).map some := by
  have hsep : grepMatch (movPattern r) ['-', '-'] = false := by cases r <;> decide
  have hend : ∀ i, 0 + lines.length ≤ i → isCall lines i = false :=
    fun i hi => isCall_eq_false (by omega)
  unfold grepNumbers grepLines
  rw [filter_grepBefore hsep, List.range_eq_range']
  apply congrArg (List.map some)
  show ((kept 7 (isCall lines) _).filter _) = _
  rw [kept_range' hend, List.filter_filter]
  rfl

theorem passes_iff : passes lines r i = true ↔ grepMatch (movPattern r) (textAt lines i) = true ∧
    ∃ j, i ≤ j ∧ j ≤ i + 7 ∧ isCall lines j = true := by
  rw [passes, Bool.and_eq_true, List.any_eq_true]
  refine and_congr_right fun _ => exists_congr fun j => ?_
  rw [List.mem_range'_1, and_assoc]
  have hle : j < i + 8 ↔ j ≤ i + 7 := by omega
  rw [hle]

end lines

/-! ### Immediates -/

section immediate

variable {r : Reg} {line w rest : List Char} {v : ℤ}

theorem behind_eq_some (h : behind w line = some rest) : line = w ++ rest := by
  unfold behind at h
  split at h
  · rename_i hw
    obtain ⟨rest', rfl⟩ := hw
    rw [List.drop_left] at h
    rw [Option.some.inj h]
  · cases h

/-- The parts of an instruction that loads an immediate. -/
structure MovParts (r : Reg) (line : List Char) (v : ℤ) (code spaces digits : List Char) : Prop where
  eq : line = (code ++ (['m', 'o', 'v'] ++ spaces)) ++ '$' :: ('0' :: 'x' :: digits ++ ',' :: r.name)
  isCode : ∀ c ∈ code, isCode c
  isSpace : ∀ c ∈ spaces, c = ' '
  isDigit : ∀ c ∈ digits, (hexDigit c).isSome
  ne : digits ≠ []
  value : v = ofHex 0 digits

theorem exists_movParts (h : immediate r line = some v) :
    ∃ code spaces digits, MovParts r line v code spaces digits := by
  unfold immediate at h
  obtain ⟨operands, hmov, h⟩ := Option.bind_eq_some_iff.mp h
  obtain ⟨source, hsource, h⟩ := Option.bind_eq_some_iff.mp h
  have hline := List.takeWhile_append_dropWhile (p := isCode) (l := line)
  have hspaces := List.takeWhile_append_dropWhile (p := (· = ' ')) (l := operands)
  have hdigits := List.takeWhile_append_dropWhile (p := fun c => (hexDigit c).isSome) (l := source)
  rw [behind_eq_some hmov] at hline
  rw [behind_eq_some hsource] at hspaces
  simp only [ne_eq] at h
  split at h
  · rename_i hreg
    obtain ⟨hne, hname⟩ := hreg
    rw [hname] at hdigits
    refine ⟨line.takeWhile isCode, operands.takeWhile (· = ' '),
      source.takeWhile fun c => (hexDigit c).isSome, ?_, ?_, ?_, ?_, hne, (Option.some.inj h).symm⟩
    · nth_rewrite 1 [← hline, ← hspaces, ← hdigits]
      simp
    · exact fun c hc => List.mem_takeWhile_imp hc
    · exact fun c hc => by simpa using List.mem_takeWhile_imp hc
    · exact fun c hc => List.mem_takeWhile_imp (p := fun c => (hexDigit c).isSome) hc
  · cases h

theorem MovParts.grepMatch {code spaces digits : List Char} (h : MovParts r line v code spaces digits) :
    grepMatch (movPattern r) line = true := by
  rw [h.eq]
  refine grepMatch_cons.mpr ⟨code, spaces ++ '$' :: ('0' :: 'x' :: digits ++ ',' :: r.name), by simp, ?_⟩
  refine grepMatch_cons.mpr ⟨spaces, '0' :: 'x' :: digits ++ ',' :: r.name, by simp, ?_⟩
  exact grepMatch_cons.mpr ⟨'0' :: 'x' :: digits, [], by simp, rfl⟩

theorem MovParts.awkText {code spaces digits : List Char} (h : MovParts r line v code spaces digits) :
    awkText line = '0' :: 'x' :: digits := by
  have hdollar : (hexDigit '$').isSome = false := by decide
  have hcomma : (hexDigit ',').isSome = false := by decide
  have hcode : '$' ∉ code := by
    intro hmem
    exact absurd (h.isCode _ hmem) (by decide)
  have hspaces : '$' ∉ spaces := by
    intro hmem
    exact absurd (h.isSpace _ hmem) (by decide)
  have hdigits : ∀ c, (hexDigit c).isSome = false → c ∉ digits := by
    intro c hc hmem
    rw [h.isDigit c hmem] at hc
    cases hc
  have hname : '$' ∉ r.name := by cases r <;> decide
  unfold CcUtils.Binlog.awkText
  rw [h.eq, awkField_two, awkField_one]
  · simp [hdigits ',' hcomma]
  · simp [hcode, hspaces]
  · simp [hdigits '$' hdollar, hname]

/-- **A load of an immediate** is let through by `grep`, and read by `awk` and `int`. -/
theorem immediate_match (h : immediate r line = some v) :
    grepMatch (movPattern r) line = true ∧ ∀ other, intHex other (awkText line) = .ok v := by
  obtain ⟨code, spaces, digits, hparts⟩ := exists_movParts h
  refine ⟨hparts.grepMatch, fun other => ?_⟩
  rw [hparts.awkText, intHex_ok other hparts.isDigit hparts.ne, hparts.value]

end immediate

/-! ### The loads of a call site -/

section loads

variable {spoils : Reg → List Char → Bool} {lines : List Line} {r : Reg} {n i j : ℕ}

/-- Line `i` loads an immediate for the call at line `j`. -/
structure Load (lines : List Line) (r : Reg) (n i j : ℕ) : Prop where
  before : i < j
  near : j ≤ i + n
  noCall : ∀ k, i ≤ k → k < j → isCall lines k = false
  immediate : (immediate r (textAt lines i)).isSome

theorem load_of_loadBack (h : loadBack spoils lines r n j = some i) : Load lines r n i j := by
  induction n generalizing j with
  | zero => cases j <;> cases h
  | succ n ih =>
    cases j with
    | zero => cases h
    | succ j =>
      unfold loadBack at h
      split at h
      · cases h
      rename_i hcall
      split at h
      · rename_i himm
        obtain rfl := Option.some.inj h
        refine ⟨by omega, by omega, fun k hk hkj => ?_, himm⟩
        obtain rfl : k = j := by omega
        simpa using hcall
      split at h
      · cases h
      have hload := ih h
      have hbefore := hload.before
      have hnear := hload.near
      refine ⟨by omega, by omega, fun k hk hkj => ?_, hload.immediate⟩
      rcases Nat.lt_succ_iff_lt_or_eq.mp hkj with hkj | rfl
      · exact hload.noCall k hk hkj
      · simpa using hcall

/-- The loads of one call site are before those of the next. -/
theorem Load.lt {i' j' : ℕ} (h : Load lines r n i j) (h' : Load lines r n i' j') (hj : j < j')
    (hcall : isCall lines j = true) : i < i' := by
  have hbefore := h.before
  by_contra hle
  have hno := h'.noCall j (by omega) hj
  rw [hcall] at hno
  cases hno

theorem Load.passes (h : Load lines r 7 i j) (hcall : isCall lines j = true) :
    passes lines r i = true := by
  have hbefore := h.before
  obtain ⟨v, hv⟩ := Option.isSome_iff_exists.mp h.immediate
  exact passes_iff.mpr ⟨(immediate_match hv).1, j, by omega, h.near, hcall⟩

theorem mem_completeSites : j ∈ completeSites spoils lines ↔
    j < lines.length ∧ isCall lines j = true ∧ ∀ r, (load spoils lines r j).isSome := by
  unfold completeSites
  rw [List.mem_filter, List.mem_range, Reg.forall_iff]
  simp only [Bool.and_eq_true, and_assoc]

/-- The line of a load. -/
def loadLine (spoils : Reg → List Char → Bool) (lines : List Line) (r : Reg) (j : ℕ) : ℕ :=
  (load spoils lines r j).getD 0

theorem load_eq (hj : j ∈ completeSites spoils lines) (r : Reg) :
    load spoils lines r j = some (loadLine spoils lines r j) := by
  obtain ⟨i, hi⟩ := Option.isSome_iff_exists.mp ((mem_completeSites.mp hj).2.2 r)
  rw [loadLine, hi]
  rfl

theorem load_loadLine (hj : j ∈ completeSites spoils lines) (r : Reg) :
    Load lines r 7 (loadLine spoils lines r j) j :=
  load_of_loadBack (load_eq hj r)

/-- What is loaded is what is read from the line. -/
theorem intHex_loadLine (other : Char → Char) (hj : j ∈ completeSites spoils lines) (r : Reg) :
    intHex other (printed lines (load spoils lines r j)) = .ok (loaded spoils lines r j) := by
  obtain ⟨v, hv⟩ := Option.isSome_iff_exists.mp (load_loadLine hj r).immediate
  have hloaded : loaded spoils lines r j = v := by
    unfold loaded
    rw [load_eq hj r, Option.bind_some, hv]
    rfl
  rw [load_eq hj r, hloaded]
  exact (immediate_match hv).2 other

/-- The lines of all loads of a register. -/
def loadLines (spoils : Reg → List Char → Bool) (lines : List Line) (r : Reg) : List ℕ :=
  (completeSites spoils lines).map (loadLine spoils lines r)

theorem loadLines_pairwise (spoils : Reg → List Char → Bool) (lines : List Line) (r : Reg) :
    (loadLines spoils lines r).Pairwise (· < ·) := by
  have hsites : (completeSites spoils lines).Pairwise (· < ·) := List.pairwise_lt_range.filter _
  refine List.pairwise_map.mpr (hsites.imp_of_mem fun hj hj' hlt => ?_)
  exact (load_loadLine hj r).lt (load_loadLine hj' r) hlt (mem_completeSites.mp hj).2.1

/-- The numbers of the lines that pass. -/
def passing (lines : List Line) (r : Reg) : List ℕ := (List.range lines.length).filter (passes lines r)

theorem passing_pairwise (lines : List Line) (r : Reg) : (passing lines r).Pairwise (· < ·) :=
  List.pairwise_lt_range.filter _

theorem loadLines_subset (spoils : Reg → List Char → Bool) (lines : List Line) (r : Reg) :
    loadLines spoils lines r ⊆ passing lines r := by
  intro i hi
  obtain ⟨j, hj, rfl⟩ := List.mem_map.mp hi
  obtain ⟨hlt, hcall, -⟩ := mem_completeSites.mp hj
  have hload := load_loadLine hj r
  have hrange := List.mem_range.mpr (hload.before.trans hlt)
  exact List.mem_filter.mpr ⟨hrange, hload.passes hcall⟩

/-- The strays are the other lines that pass. -/
theorem stray_iff : Stray spoils lines r i ↔ i ∈ passing lines r ∧ i ∉ loadLines spoils lines r := by
  have hapart : (∀ j ∈ completeSites spoils lines, load spoils lines r j ≠ some i) ↔
      i ∉ loadLines spoils lines r := by
    unfold loadLines
    rw [List.mem_map, not_exists]
    refine forall_congr' fun j => ?_
    rw [not_and]
    refine forall_congr' fun hj => ?_
    rw [load_eq hj r, Ne, Option.some.injEq]
  rw [← hapart, passing, List.mem_filter, List.mem_range, passes_iff]
  constructor
  · rintro ⟨hmatch, ⟨j, hij, hj, hcall⟩, hnot⟩
    refine ⟨⟨?_, hmatch, j, hij, hj, hcall⟩, hnot⟩
    by_contra hge
    rw [isCall_eq_false (by omega)] at hcall
    cases hcall
  · rintro ⟨⟨-, hmatch, hnear⟩, hnot⟩
    exact ⟨hmatch, hnear, hnot⟩

end loads

/-! ### When call sites keep their lines -/

section together

variable {spoils : Reg → List Char → Bool} {lines : List Line} {r : Reg}

theorem length_loadLines : (loadLines spoils lines r).length = (completeSites spoils lines).length := by
  rw [loadLines, List.length_map]

/-- The numbers of the lines that are put together. -/
theorem sites_iff : (grepNumbers lines .edx).zip ((grepNumbers lines .ecx).zip (grepNumbers lines .r8d)) =
      ((completeSites spoils lines).map fun j =>
        (load spoils lines .edx j, load spoils lines .ecx j, load spoils lines .r8d j)) ↔
    (∀ r, (passing lines r).take (loadLines spoils lines r).length = loadLines spoils lines r) ∧
      ∃ r, (passing lines r).length = (loadLines spoils lines r).length := by
  have hnumbers : ∀ r, grepNumbers lines r = (passing lines r).map some := grepNumbers_eq lines
  have hsites : ((completeSites spoils lines).map fun j =>
      (load spoils lines .edx j, load spoils lines .ecx j, load spoils lines .r8d j)) =
        ((loadLines spoils lines .edx).map some).zip
          (((loadLines spoils lines .ecx).map some).zip ((loadLines spoils lines .r8d).map some)) := by
    simp only [loadLines, List.map_map, List.zip_map']
    apply List.map_congr_left
    intro j hj
    rw [load_eq hj, load_eq hj, load_eq hj]
    rfl
  have hle : ∀ r, (completeSites spoils lines).length ≤ ((passing lines r).map some).length := by
    intro r
    have hnodup := (loadLines_pairwise spoils lines r).imp fun h => ne_of_lt h
    have hsub := (List.subperm_of_subset hnodup (loadLines_subset spoils lines r)).length_le
    rwa [List.length_map, ← length_loadLines (r := r)]
  have hlen : ∀ r, ((loadLines spoils lines r).map some).length = (completeSites spoils lines).length := by
    intro r
    rw [List.length_map, length_loadLines]
  have htake : ∀ r, ((passing lines r).map some).take (completeSites spoils lines).length =
      (loadLines spoils lines r).map some ↔
        (passing lines r).take (loadLines spoils lines r).length = loadLines spoils lines r := by
    intro r
    rw [← List.map_take, length_loadLines]
    exact (List.map_injective_iff.mpr (Option.some_injective ℕ)).eq_iff
  rw [hnumbers, hnumbers, hnumbers, hsites, zip3_eq_iff (hle _) (hle _) (hle _) (hlen _) (hlen _) (hlen _),
    Reg.forall_iff, Reg.exists_iff, htake, htake, htake]
  simp only [List.length_map, length_loadLines]

theorem mapM_ok {α β : Type} {f : α → Py β} {g : α → β} {l : List α}
    (h : ∀ a ∈ l, f a = .ok (g a)) : l.mapM f = .ok (l.map g) := by
  induction l with
  | nil => rfl
  | cons a l ih =>
    obtain ⟨ha, hl⟩ := List.forall_mem_cons.mp h
    rw [List.mapM_cons, ha, ih hl]
    rfl

/-- Lines that are put together rightly are read as what they load. -/
theorem values_of_sites (other : Char → Char)
    (hsites : (grepNumbers lines .edx).zip ((grepNumbers lines .ecx).zip (grepNumbers lines .r8d)) =
      (completeSites spoils lines).map fun j =>
        (load spoils lines .edx j, load spoils lines .ecx j, load spoils lines .r8d j)) :
    elfParse other lines = .ok ((completeSites spoils lines).map fun j =>
      (loaded spoils lines .edx j, loaded spoils lines .ecx j, loaded spoils lines .r8d j)) := by
  rw [elfParse_eq, hsites, List.mapM_map]
  apply mapM_ok
  intro j hj
  simp only [Function.comp_apply, tripleAt, intHex_loadLine other hj]
  rfl

/-- **Call sites keep their lines** exactly when no line that a filter lets through besides their loads
comes before one of these, and for one register there is no such line. -/
theorem elfParse_iff (other : Char → Char) (spoils : Reg → List Char → Bool) (lines : List Line) :
    Together other spoils lines ↔
      (∀ r s, Stray spoils lines r s →
        ∀ j ∈ completeSites spoils lines, ∀ i, load spoils lines r j = some i → i < s) ∧
      ∃ r, ∀ s, ¬ Stray spoils lines r s := by
  have htogether : Together other spoils lines ↔
      (∀ r, (passing lines r).take (loadLines spoils lines r).length = loadLines spoils lines r) ∧
        ∃ r, (passing lines r).length = (loadLines spoils lines r).length := by
    rw [← sites_iff]
    exact ⟨fun h => h.sites, fun h => ⟨h, values_of_sites other h⟩⟩
  rw [htogether]
  refine and_congr (forall_congr' fun r => ?_) (exists_congr fun r => ?_)
  · rw [take_eq_iff (passing_pairwise lines r) (loadLines_pairwise spoils lines r)
      (loadLines_subset spoils lines r)]
    refine forall_congr' fun s => ?_
    rw [stray_iff, and_imp]
    refine forall_congr' fun _ => forall_congr' fun _ => ?_
    unfold loadLines
    rw [List.forall_mem_map]
    refine forall_congr' fun j => forall_congr' fun hj => ?_
    rw [load_eq hj r]
    simp
  · rw [length_eq_iff ((passing_pairwise lines r).imp fun h => ne_of_lt h)
      ((loadLines_pairwise spoils lines r).imp fun h => ne_of_lt h) (loadLines_subset spoils lines r)]
    refine forall_congr' fun s => ?_
    rw [stray_iff, not_and, not_not]

end together

/-- A line, without what a line does not have. -/
def Line.ofString (s : String) : Line where
  text := s.toList.filter fun c => c ≠ '\n' ∧ c ≠ '\r' ∧ c ≠ '\x00'
  clean := fun c hc => by simpa using (List.mem_filter.mp hc).2

/-- Two calls, the first of which has its line number from another register. -/
def twoCalls : List Line :=
  ["  40:\tba 10 00 00 00       \tmov    $0x10,%edx",
    "  45:\t41 b8 20 00 00 00    \tmov    $0x20,%r8d",
    "  4b:\t89 d9                \tmov    %ebx,%ecx",
    "  4d:\te8 ae 00 00 00       \tcall   100 <binlog_print>",
    "  52:\tba 11 00 00 00       \tmov    $0x11,%edx",
    "  57:\t41 b8 21 00 00 00    \tmov    $0x21,%r8d",
    "  5d:\tb9 07 00 00 00       \tmov    $0x7,%ecx",
    "  62:\te8 99 00 00 00       \tcall   100 <binlog_print>"].map Line.ofString

/-- The instruction ends with the register as its destination. -/
def isTarget (r : Reg) (line : List Char) : Bool := (',' :: r.name).isSuffixOf line

/-- The function and the format of the first go with the line number of the second. -/
theorem elfParse_twoCalls : ¬ Together id isTarget twoCalls := by
  have hsites : (completeSites isTarget twoCalls).map (fun j =>
      (loaded isTarget twoCalls .edx j, loaded isTarget twoCalls .ecx j, loaded isTarget twoCalls .r8d j)) =
        [(0x11, 7, 0x21)] := by decide +kernel
  have hparse : elfParse id twoCalls = .ok [(0x10, 7, 0x20)] := by decide +kernel
  intro h
  have hvalues := hparse.symm.trans h.values
  rw [hsites] at hvalues
  exact absurd (Except.ok.inj hvalues) (by decide)

end CcUtils.Binlog
