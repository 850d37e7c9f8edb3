import CcUtils.Lib.Words
import CcUtils.Cli.Options
import Mathlib.Data.List.Induction
import Mathlib.Data.List.Pairwise
import Mathlib.Data.List.TakeWhile

/-!
# What a command line says

`parse_options` goes over the arguments with `getopt_long`, which keeps its place and moves arguments about.
Here is what comes of it: the options are those of the arguments read from left to right, and for a table as
the macros of `options.h` make them, each target has the value of its option's last use, whichever way that use
was written.

## What is proved

* `outcome_reads` — after any history, a call does what the arguments say; what the calls before it have left
  of a cluster is read first, in the place of the first argument.
* `outcome_written` — a command line that is written with some uses stores them, the last one of each option.
-/

namespace CcUtils.Cli

open CcUtils.Lib

/-! ### Options in order -/

/-- What is done with the options of a command. -/
def runOptions (libc : Libc) (copts : List CliOption) : List Opt → Targets → Exec (ℤ × Targets)
  | [], mem => .ok (0, mem)
  | (c, optarg) :: opts, mem =>
    if c = -1 then .ok (0, mem)
    else if c = charCode letterH then .ok (negEInval, mem)
    else
      match findOption copts c with
      | none => runOptions libc copts opts mem
      | some o => do
        let mem ← storeOption libc o optarg mem
        runOptions libc copts opts mem

variable {libc : Libc} {copts : List CliOption}

theorem parseLoop_reads (hw : semicolon ∉ optstring copts) {fuel : ℕ} {argv args : List CString} {d : Getopt}
    {text : List UInt8} (h : d.Fit) (hpos : 1 ≤ d.optind) (hfuel : d.ahead argv < fuel)
    (hplace : Ahead argv d text args) (mem : Targets) :
    (do
      let (ret, mem, _) ← parseLoop libc copts fuel argv d mem
      .ok (ret, mem)) = runOptions libc copts (remaining (optSpec libc.posixly copts) text args) mem := by
  induction fuel generalizing argv args d text mem with
  | zero => exact absurd hfuel (Nat.not_lt_zero _)
  | succ fuel ih =>
    have hreads : Reads (optSpec libc.posixly copts) (getoptLong (optSpec libc.posixly copts) argv d)
        (remaining (optSpec libc.posixly copts) text args) := getoptLong_reads hw h hpos hplace
    rw [parseLoop]
    cases hopts : remaining (optSpec libc.posixly copts) text args with
    | nil =>
      rw [hopts] at hreads
      obtain ⟨argv', d', hcall⟩ := hreads
      rw [hcall]
      rfl
    | cons opt opts =>
      obtain ⟨c, arg⟩ := opt
      rw [hopts] at hreads
      obtain ⟨argv', d', text', args', hcall, harg, hplace', rfl⟩ := hreads
      have hl := getoptLong_leaves h hpos hcall
      rw [hcall, runOptions, ok_bind]
      dsimp only
      by_cases hend : c = -1
      · rw [if_pos hend, if_pos hend]
        rfl
      rw [if_neg hend, if_neg hend]
      by_cases hhelp : c = charCode letterH
      · rw [if_pos hhelp, if_pos hhelp]
        rfl
      rw [if_neg hhelp, if_neg hhelp]
      -- less is ahead of the next call
      have hahead : d'.ahead argv' < fuel := by
        have hlt := hl.ahead.resolve_left hend
        omega
      cases findOption copts c with
      | none => exact ih hl.fit hl.optind_pos hahead hplace' mem
      | some o =>
        dsimp only
        rw [harg]
        cases storeOption libc o arg mem with
        | error e => rfl
        | ok mem => exact ih hl.fit hl.optind_pos hahead hplace' mem

theorem mem_optChars {o : CliOption} {c : UInt8} (h : c ∈ optChars o) :
    c = shortChar o.shortName ∨ c = colon := by
  rw [optChars] at h
  split at h
  · exact .inl (by simpa using h)
  · simpa using h
  · simpa using h

/-- With no `;` among the names there is none in the option string. -/
theorem semicolon_notMem (hw : ∀ o ∈ copts, shortChar o.shortName ≠ semicolon) :
    semicolon ∉ optstring copts := by
  intro hmem
  rcases List.mem_cons.mp ((List.takeWhile_sublist _).mem hmem) with hh | hmem
  · exact absurd hh (by decide)
  · obtain ⟨o, ho, hmem⟩ := List.mem_flatMap.mp hmem
    rcases mem_optChars hmem with hc | hc
    · exact hw o ho hc.symm
    · exact absurd hc (by decide)

/-- An `OPT_INT`. -/
def optInt (s : ℤ) (l : CString) (v : ℕ) : CliOption := ⟨.int, .required, s, some l, v, none⟩

/-- An `OPT_LONG`. -/
def optLong (s : ℤ) (l : CString) (v : ℕ) : CliOption := ⟨.long, .required, s, some l, v, none⟩

/-- An `OPT_BOOL`. -/
def optBool (s : ℤ) (l : CString) (v : ℕ) : CliOption := ⟨.bool, .optional, s, some l, v, none⟩

/-- An `OPT_DOUBLE`. -/
def optDouble (s : ℤ) (l : CString) (v : ℕ) : CliOption := ⟨.double, .required, s, some l, v, none⟩

/-- An `OPT_STRING32`. -/
def optString32 (s : ℤ) (l : CString) (v : ℕ) : CliOption := ⟨.string32, .required, s, some l, v, none⟩

/-- An `OPT_STRING64`. -/
def optString64 (s : ℤ) (l : CString) (v : ℕ) : CliOption := ⟨.string64, .required, s, some l, v, none⟩

/-- The number of bytes that are stored at a target. -/
def OptionType.width : OptionType → ℕ
  | .int => 4
  | .long => 8
  | .bool => 1
  | .double => 8
  | .string32 => 31
  | .string64 => 63
  | .float | .callback => 0

/-- What is stored there. -/
def OptionType.bytes (libc : Libc) : OptionType → List UInt8 → List UInt8
  | .int, arg => leBv 4 ((libc.strtol arg).setWidth 32)
  | .long, arg => leBv 8 (libc.strtol arg)
  | .bool, _ => [1]
  | .double, arg => leBv 8 (libc.strtod arg)
  | .string32, arg => strncpyBytes arg 31
  | .string64, arg => strncpyBytes arg 63
  | .float, _ | .callback, _ => []

/-- The targets do not overlap. -/
def CliOption.Apart (o o' : CliOption) : Prop :=
  o.value + o.type.width ≤ o'.value ∨ o'.value + o'.type.width ≤ o.value

instance : Std.Symm CliOption.Apart := ⟨fun _ _ => Or.symm⟩

/-- A table as the macros make them, but for callbacks: its options can be told apart, by the character and by
the name, and their targets do not overlap. -/
structure Table where
  /-- `copts`. -/
  copts : List CliOption
  /-- Characters that are nothing else. -/
  shortName : ∀ o ∈ copts, 0 < o.shortName ∧ o.shortName < 128 ∧
    shortChar o.shortName ∉ [minus, colon, semicolon, letterH]
  /-- No two options have the same one. -/
  shortName_nodup : (copts.map CliOption.shortName).Nodup
  /-- Names that can be written. -/
  longName : ∀ o ∈ copts, ∃ name, o.longName = some name ∧ name.val ≠ [] ∧ equals ∉ name.val ∧
    name ≠ helpName
  /-- No two options have the same one. -/
  longName_nodup : (copts.map CliOption.longName).Nodup
  /-- Nothing reads an argument that is not there. -/
  flag : ∀ o ∈ copts, o.type ≠ .callback ∧ (o.flag = .required ∨ o.type = .bool)
  /-- Each target is apart from the others. -/
  apart : copts.Pairwise CliOption.Apart

/-! ### How uses are written -/

/-- An option, with the argument it has here. -/
abbrev Use := CliOption × Option (List UInt8)

/-- The uses that a command line is written with: `text` is left of a cluster, and the arguments are behind. -/
inductive Written (table : Table) : List UInt8 → List CString → List Use → Prop
  /-- There is no more. -/
  | nil : Written table [] [] []
  /-- Arguments that are no options can stand anywhere. -/
  | operand {s : CString} {args : List CString} {uses : List Use} (hs : nonoptionP s)
      (h : Written table [] args uses) : Written table [] (s :: args) uses
  /-- `--`, and whatever comes behind. -/
  | stop {s : CString} {args : List CString} (hs : s.val = [minus, minus]) : Written table [] (s :: args) []
  /-- A cluster. -/
  | word {s : CString} {c : UInt8} {text : List UInt8} {args : List CString} {uses : List Use}
      (hs : s.val = minus :: c :: text) (hc : c ≠ minus) (h : Written table (c :: text) args uses) :
      Written table [] (s :: args) uses
  /-- An option without an argument: more of the cluster follows. -/
  | flag {o : CliOption} {text : List UInt8} {args : List CString} {uses : List Use} (ho : o ∈ table.copts)
      (hflag : o.flag = .no) (h : Written table text args uses) :
      Written table (shortChar o.shortName :: text) args ((o, none) :: uses)
  /-- The argument is the rest of the cluster. -/
  | joined {o : CliOption} {arg : List UInt8} {args : List CString} {uses : List Use} (ho : o ∈ table.copts)
      (hflag : o.flag ≠ .no) (harg : arg ≠ []) (h : Written table [] args uses) :
      Written table (shortChar o.shortName :: arg) args ((o, some arg) :: uses)
  /-- There is no argument. -/
  | bare {o : CliOption} {args : List CString} {uses : List Use} (ho : o ∈ table.copts)
      (hflag : o.flag = .optional) (h : Written table [] args uses) :
      Written table [shortChar o.shortName] args ((o, none) :: uses)
  /-- The argument is the next one of the command, whatever it is. -/
  | next {o : CliOption} {s : CString} {args : List CString} {uses : List Use} (ho : o ∈ table.copts)
      (hflag : o.flag = .required) (h : Written table [] args uses) :
      Written table [shortChar o.shortName] (s :: args) ((o, some s.val) :: uses)
  /-- A name without an argument. -/
  | long {o : CliOption} {name s : CString} {args : List CString} {uses : List Use} (ho : o ∈ table.copts)
      (hname : o.longName = some name) (hflag : o.flag ≠ .required) (hs : s.val = minus :: minus :: name.val)
      (h : Written table [] args uses) : Written table [] (s :: args) ((o, none) :: uses)
  /-- A name and an argument with `=`. -/
  | assigned {o : CliOption} {name s : CString} {arg : List UInt8} {args : List CString} {uses : List Use}
      (ho : o ∈ table.copts) (hname : o.longName = some name) (hflag : o.flag ≠ .no)
      (hs : s.val = minus :: minus :: (name.val ++ equals :: arg)) (h : Written table [] args uses) :
      Written table [] (s :: args) ((o, some arg) :: uses)
  /-- A name, and the argument is the next one of the command. -/
  | longNext {o : CliOption} {name s s' : CString} {args : List CString} {uses : List Use}
      (ho : o ∈ table.copts) (hname : o.longName = some name) (hflag : o.flag = .required)
      (hs : s.val = minus :: minus :: name.val) (h : Written table [] args uses) :
      Written table [] (s :: s' :: args) ((o, some s'.val) :: uses)

/-- The options as `getopt_long` gives them. -/
def opts (uses : List Use) : List Opt := uses.map fun use => (use.1.shortName, use.2)

/-! ### Names -/

/-- What is found by a key that nothing else has. -/
theorem find?_of_nodup {α β : Type} [DecidableEq β] {f : α → β} {l : List α} {a : α} (h : (l.map f).Nodup)
    (ha : a ∈ l) : (l.find? fun b => f b = f a) = some a := by
  obtain ⟨pre, post, rfl⟩ := List.append_of_mem ha
  rw [List.map_append, List.map_cons] at h
  have hpre : ∀ b ∈ pre, f b ≠ f a := by
    intro b hb he
    have hdisjoint := (List.nodup_append.mp h).2.2
    exact hdisjoint _ (List.mem_map_of_mem hb) _ List.mem_cons_self he
  rw [List.find?_append, List.find?_eq_none.mpr (by simpa using hpre), Option.none_or, List.find?_cons_of_pos]
  simp

variable {table : Table} {o : CliOption}

theorem Table.findOption_eq (ho : o ∈ table.copts) : findOption table.copts o.shortName = some o :=
  find?_of_nodup table.shortName_nodup ho

/-- The character is the number. -/
theorem charCode_shortChar {n : ℤ} (hpos : 0 < n) (hlt : n < 128) : charCode (shortChar n) = n := by
  rw [charCode, shortChar, UInt8.toBitVec_ofBitVec, BitVec.toInt_ofInt]
  exact Int.bmod_eq_of_le (by omega) (by omega)

theorem Table.charCode_eq (ho : o ∈ table.copts) : charCode (shortChar o.shortName) = o.shortName := by
  obtain ⟨hpos, hlt, -⟩ := table.shortName o ho
  exact charCode_shortChar hpos hlt

theorem Table.shortChar_ne (ho : o ∈ table.copts) :
    shortChar o.shortName ≠ minus ∧ shortChar o.shortName ≠ colon ∧ shortChar o.shortName ≠ semicolon ∧
      shortChar o.shortName ≠ letterH ∧ shortChar o.shortName ≠ 0 := by
  obtain ⟨hpos, hlt, hnot⟩ := table.shortName o ho
  simp only [List.mem_cons, List.not_mem_nil, or_false, not_or] at hnot
  refine ⟨hnot.1, hnot.2.1, hnot.2.2.1, hnot.2.2.2, ?_⟩
  intro hzero
  have hcode := Table.charCode_eq ho
  rw [hzero] at hcode
  exact hpos.ne hcode

theorem Table.optstring_eq (table : Table) : optstring table.copts = letterH :: table.copts.flatMap optChars := by
  rw [optstring, List.takeWhile_eq_self_iff]
  intro c hc
  rcases List.mem_cons.mp hc with rfl | hc
  · rfl
  · obtain ⟨o, ho, hc⟩ := List.mem_flatMap.mp hc
    rcases mem_optChars hc with rfl | rfl
    · simpa using (Table.shortChar_ne ho).2.2.2.2
    · rfl

/-- Behind an option of the option string there is no colon that is not its own. -/
theorem Table.head_ne_colon {os : List CliOption} (hos : ∀ o ∈ os, o ∈ table.copts) :
    ¬ [colon] <+: os.flatMap optChars := by
  cases os with
  | nil => simp
  | cons o os =>
    have hne := (Table.shortChar_ne (hos o List.mem_cons_self)).2.1
    have hhead : ∃ marks, optChars o = shortChar o.shortName :: marks := by
      rw [optChars]
      cases o.flag <;> exact ⟨_, rfl⟩
    obtain ⟨marks, hmarks⟩ := hhead
    rw [List.flatMap_cons, hmarks]
    simp [List.cons_prefix_cons, hne.symm]

/-- **The option string** gives each option its flag. -/
theorem Table.shortKind_eq (ho : o ∈ table.copts) :
    shortKind (optstring table.copts) (shortChar o.shortName) = some o.flag := by
  obtain ⟨-, hcolon, hsemi, hh, -⟩ := Table.shortChar_ne ho
  obtain ⟨pre, post, hsplit⟩ := List.append_of_mem ho
  -- what comes before it are other characters
  have hpre : ∀ c ∈ letterH :: pre.flatMap optChars, decide (c ≠ shortChar o.shortName) = true := by
    intro c hc
    rw [decide_eq_true_eq]
    rcases List.mem_cons.mp hc with rfl | hc
    · exact hh.symm
    · obtain ⟨o', ho', hc⟩ := List.mem_flatMap.mp hc
      rcases mem_optChars hc with rfl | rfl
      · intro he
        have hin : o' ∈ table.copts := hsplit ▸ List.mem_append_left _ ho'
        have hname : o'.shortName = o.shortName := by
          rw [← Table.charCode_eq hin, he, Table.charCode_eq ho]
        have hnodup := table.shortName_nodup
        rw [hsplit, List.map_append, List.map_cons] at hnodup
        exact (List.nodup_append.mp hnodup).2.2 _ (List.mem_map_of_mem ho') _ List.mem_cons_self hname
      · exact hcolon.symm
  have hpost : ¬ [colon] <+: post.flatMap optChars := Table.head_ne_colon fun o' ho' =>
    hsplit ▸ List.mem_append_right _ (List.mem_cons_of_mem _ ho')
  have hpost' : ¬ [colon, colon] <+: post.flatMap optChars :=
    fun h => hpost ((List.prefix_append [colon] [colon]).trans h)
  have hstring : optstring table.copts =
      (letterH :: pre.flatMap optChars) ++ (optChars o ++ post.flatMap optChars) := by
    rw [Table.optstring_eq, hsplit, List.flatMap_append, List.flatMap_cons, List.cons_append]
  rw [shortKind, hstring, List.dropWhile_append_of_pos hpre, optChars]
  cases o.flag <;> simp [hcolon, hsemi, hpost, hpost']

/-- **The long options** have them by their names. -/
theorem Table.findLong_eq (ho : o ∈ table.copts) {name : CString} (hname : o.longName = some name)
    (posixly : Bool) :
    findLong (optSpec posixly table.copts).longopts name.val = some ⟨name, o.flag, o.shortName⟩ := by
  have hfind : ∀ os : List CliOption, (∀ o ∈ os, o ∈ table.copts) → (os.map CliOption.longName).Nodup → o ∈ os →
      (longopts os).find? (fun l => l.name.val = name.val) = some ⟨name, o.flag, o.shortName⟩ := by
    intro os hos hnodup hin
    induction os with
    | nil => exact absurd hin List.not_mem_nil
    | cons o' os ih =>
      obtain ⟨name', hname', -⟩ := table.longName o' (hos o' List.mem_cons_self)
      rw [longopts, hname']
      dsimp only
      rw [List.map_cons, List.nodup_cons] at hnodup
      rcases List.mem_cons.mp hin with rfl | hin
      · obtain rfl : name = name' := Option.some.inj (hname.symm.trans hname')
        rw [List.find?_cons_of_pos (by simp)]
      · have hne : name' ≠ name := by
          rintro rfl
          exact hnodup.1 (List.mem_map.mpr ⟨o, hin, hname.trans hname'.symm⟩)
        rw [List.find?_cons_of_neg (by simpa [Subtype.ext_iff] using hne)]
        exact ih (fun o ho => hos o (List.mem_cons_of_mem _ ho)) hnodup.2 hin
  obtain ⟨name', hname', -, -, hhelp⟩ := table.longName o ho
  obtain rfl : name = name' := Option.some.inj (hname.symm.trans hname')
  rw [findLong, optSpec, List.find?_cons_of_neg (by simpa [Subtype.ext_iff] using hhelp.symm),
    hfind table.copts (fun _ h => h) table.longName_nodup ho]

/-! ### Reading what is written -/

/-- An argument that begins with a minus sign and goes on is an option. -/
theorem nonoptionP_minus {s : CString} {c : UInt8} {text : List UInt8} (hs : s.val = minus :: c :: text) :
    ¬ nonoptionP s := by
  simp [nonoptionP, hs]

/-- An argument with a long option. -/
theorem readArgs_long {spec : OptSpec} {s : CString} {text : List UInt8} {args : List CString}
    (hs : s.val = minus :: minus :: text) (htext : text ≠ []) :
    readArgs spec none (s :: args) = (readLong spec text).1 ++ readArgs spec (readLong spec text).2 args := by
  have hend : s.val ≠ [minus, minus] := by simpa [hs] using htext
  have hword : readWord spec s = readLong spec text := by
    rw [readWord, hs]
    exact if_pos rfl
  rw [readArgs, if_neg (nonoptionP_minus hs), if_neg hend, hword]

/-- A name alone. -/
theorem readLong_name {spec : OptSpec} {l : LongOption} {name : List UInt8} (hequals : equals ∉ name)
    (hl : findLong spec.longopts name = some l) :
    readLong spec name = if l.hasArg = .required then ([], some l.val) else ([(l.val, none)], none) := by
  have hall : ∀ c ∈ name, decide (c ≠ equals) = true := by
    intro c hc
    rw [decide_eq_true_eq]
    rintro rfl
    exact hequals hc
  rw [readLong, List.takeWhile_eq_self_iff.mpr hall, List.dropWhile_eq_nil_iff.mpr hall, hl]

/-- A name and an argument. -/
theorem readLong_assigned {spec : OptSpec} {l : LongOption} {name arg : List UInt8} (hequals : equals ∉ name)
    (hl : findLong spec.longopts name = some l) (hflag : l.hasArg ≠ .no) :
    readLong spec (name ++ equals :: arg) = ([(l.val, some arg)], none) := by
  have hall : ∀ c ∈ name, decide (c ≠ equals) = true := by
    intro c hc
    rw [decide_eq_true_eq]
    rintro rfl
    exact hequals hc
  have htake : (equals :: arg).takeWhile (· ≠ equals) = [] := by simp
  have hdrop : (equals :: arg).dropWhile (· ≠ equals) = equals :: arg := by simp
  rw [readLong, List.takeWhile_append_of_pos hall, List.dropWhile_append_of_pos hall, htake, hdrop,
    List.append_nil, hl]
  exact if_neg hflag

/-- **What is written is read.** -/
theorem Written.remaining_eq {spec : OptSpec} (hspec : spec = optSpec false table.copts) {text : List UInt8}
    {args : List CString} {uses : List Use} (h : Written table text args uses) :
    remaining spec text args = opts uses := by
  have hchar : ∀ {o : CliOption}, o ∈ table.copts →
      shortKind spec.optstring (shortChar o.shortName) = some o.flag := by
    intro o ho
    rw [hspec]
    exact Table.shortKind_eq ho
  have hlong : ∀ {o : CliOption} {name : CString}, o ∈ table.copts → o.longName = some name →
      name.val ≠ [] ∧ equals ∉ name.val ∧
        findLong spec.longopts name.val = some ⟨name, o.flag, o.shortName⟩ := by
    intro o name ho hname
    obtain ⟨name', hname', hnil, hequals, -⟩ := table.longName o ho
    obtain rfl : name = name' := Option.some.inj (hname.symm.trans hname')
    rw [hspec]
    exact ⟨hnil, hequals, Table.findLong_eq ho hname false⟩
  induction h with
  | nil => rfl
  | operand hs _ ih =>
    have hposixly : ¬ spec.posixly := by simp [hspec, optSpec]
    rw [remaining_nil, readArgs, if_pos hs, if_neg hposixly]
    exact ih
  | stop hs =>
    rw [remaining_nil, readArgs, if_neg (nonoptionP_minus hs), if_pos hs]
    rfl
  | @word s c text args uses hs hc _ ih =>
    have hend : s.val ≠ [minus, minus] := by simp [hs, hc]
    have hword : readWord spec s = readShort spec (c :: text) := by
      rw [readWord, hs]
      exact if_neg hc
    rw [remaining_nil, readArgs, if_neg (nonoptionP_minus hs), if_neg hend, hword]
    exact ih
  | flag ho hflag _ ih =>
    rw [remaining, readShort, hchar ho, hflag, opts, List.map_cons, Table.charCode_eq ho]
    exact congrArg _ ih
  | @joined o arg args uses ho hflag harg _ ih =>
    rw [remaining, readShort, hchar ho, opts, List.map_cons, Table.charCode_eq ho]
    cases hf : o.flag with
    | no => exact absurd hf hflag
    | required =>
      simp only [if_neg harg]
      exact congrArg _ ih
    | optional =>
      simp only [if_neg harg]
      exact congrArg _ ih
  | bare ho hflag _ ih =>
    rw [remaining, readShort, hchar ho, hflag, opts, List.map_cons, Table.charCode_eq ho]
    exact congrArg _ ih
  | @next o s args uses ho hflag _ ih =>
    rw [remaining, readShort, hchar ho, hflag, opts, List.map_cons, Table.charCode_eq ho]
    exact congrArg (List.cons (o.shortName, some s.val)) ih
  | long ho hname hflag hs _ ih =>
    obtain ⟨hnil, hequals, hl⟩ := hlong ho hname
    rw [remaining_nil, readArgs_long hs hnil, readLong_name hequals hl, if_neg hflag]
    exact congrArg _ ih
  | assigned ho hname hflag hs _ ih =>
    obtain ⟨hnil, hequals, hl⟩ := hlong ho hname
    rw [remaining_nil, readArgs_long hs (by simp), readLong_assigned hequals hl hflag]
    exact congrArg _ ih
  | @longNext o name s s' args uses ho hname hflag hs _ ih =>
    obtain ⟨hnil, hequals, hl⟩ := hlong ho hname
    rw [remaining_nil, readArgs_long hs hnil, readLong_name hequals hl, if_pos hflag]
    exact congrArg (List.cons (o.shortName, some s'.val)) ih

/-! ### Storing -/

/-- The bytes at an address. -/
def readAt (mem : Targets) (a n : ℕ) : List UInt8 := (List.range n).map fun i => mem (a + i)

/-- What is at a target after some uses: the value of the last one of its option. -/
def valueAt (libc : Libc) (mem : Targets) (uses : List Use) (o : CliOption) : List UInt8 :=
  match uses.reverse.find? fun use => use.1.shortName = o.shortName with
  | some use => o.type.bytes libc (use.2.getD [])
  | none => readAt mem o.value o.type.width

/-- The uses are stored one after the other. -/
def storeUses (libc : Libc) (uses : List Use) (mem : Targets) : Targets :=
  uses.foldl (fun mem use => storeAt mem use.1.value (use.1.type.bytes libc (use.2.getD []))) mem

/-- A use can be stored. -/
def Table.Usable (table : Table) (use : Use) : Prop :=
  use.1 ∈ table.copts ∧ (use.2 = none → use.1.type = .bool)

theorem Written.usable {text : List UInt8} {args : List CString} {uses : List Use}
    (h : Written table text args uses) : ∀ use ∈ uses, table.Usable use := by
  have hbool : ∀ {o : CliOption}, o ∈ table.copts → o.flag ≠ .required → o.type = .bool :=
    fun ho hflag => (table.flag _ ho).2.resolve_left hflag
  induction h with
  | nil => simp
  | operand _ _ ih => exact ih
  | stop => simp
  | word _ _ _ ih => exact ih
  | flag ho hflag _ ih => exact List.forall_mem_cons.mpr ⟨⟨ho, fun _ => hbool ho (by simp [hflag])⟩, ih⟩
  | joined ho _ _ _ ih => exact List.forall_mem_cons.mpr ⟨⟨ho, by simp⟩, ih⟩
  | bare ho hflag _ ih => exact List.forall_mem_cons.mpr ⟨⟨ho, fun _ => hbool ho (by simp [hflag])⟩, ih⟩
  | next ho _ _ ih => exact List.forall_mem_cons.mpr ⟨⟨ho, by simp⟩, ih⟩
  | long ho _ hflag _ _ ih => exact List.forall_mem_cons.mpr ⟨⟨ho, fun _ => hbool ho hflag⟩, ih⟩
  | assigned ho _ _ _ _ ih => exact List.forall_mem_cons.mpr ⟨⟨ho, by simp⟩, ih⟩
  | longNext ho _ _ _ _ ih => exact List.forall_mem_cons.mpr ⟨⟨ho, by simp⟩, ih⟩

theorem storeAt_nil (mem : Targets) (a : ℕ) : storeAt mem a [] = mem := by
  funext i
  simp [storeAt]

theorem length_bytes (libc : Libc) (type : OptionType) (arg : List UInt8) :
    (type.bytes libc arg).length = type.width := by
  cases type <;> simp [OptionType.bytes, OptionType.width, strncpyBytes] <;> omega

/-- **A use** is stored as its type says. -/
theorem storeOption_eq {use : Use} (h : table.Usable use) (mem : Targets) :
    storeOption libc use.1 use.2 mem =
      .ok (storeAt mem use.1.value (use.1.type.bytes libc (use.2.getD []))) := by
  obtain ⟨o, arg⟩ := use
  obtain ⟨ho, hbool⟩ := h
  obtain ⟨hcallback, -⟩ := table.flag o ho
  dsimp only at hbool ⊢
  rw [storeOption]
  cases arg with
  | none => rw [hbool rfl, OptionType.bytes]
  | some arg =>
    cases htype : o.type with
    | callback => exact absurd htype hcallback
    | float => rw [OptionType.bytes, storeAt_nil]
    | _ => rfl

theorem runOptions_opts {uses : List Use} (h : ∀ use ∈ uses, table.Usable use) (mem : Targets) :
    runOptions libc table.copts (opts uses) mem = .ok (0, storeUses libc uses mem) := by
  induction uses generalizing mem with
  | nil => rfl
  | cons use uses ih =>
    obtain ⟨huse, h⟩ := List.forall_mem_cons.mp h
    obtain ⟨hpos, hlt, hnot⟩ := table.shortName use.1 huse.1
    have hend : use.1.shortName ≠ -1 := by omega
    have hhelp : use.1.shortName ≠ charCode letterH := by
      intro he
      apply (Table.shortChar_ne huse.1).2.2.2.1
      rw [he]
      rfl
    rw [opts, List.map_cons, runOptions, if_neg hend, if_neg hhelp, Table.findOption_eq huse.1]
    dsimp only
    rw [storeOption_eq huse, ok_bind]
    exact ih h _

/-- What was just stored is there. -/
theorem readAt_storeAt (mem : Targets) (a : ℕ) (bs : List UInt8) : readAt (storeAt mem a bs) a bs.length = bs := by
  apply List.ext_getElem
  · simp [readAt]
  · intro i _ hi
    simp [readAt, storeAt, List.getElem?_eq_getElem hi]

/-- What is elsewhere stays. -/
theorem storeAt_outside {mem : Targets} {a i : ℕ} {bs : List UInt8} (h : i < a ∨ a + bs.length ≤ i) :
    storeAt mem a bs i = mem i := by
  rw [storeAt]
  split
  · rw [List.getD_eq_getElem?_getD, List.getElem?_eq_none (by omega), Option.getD_none]
  · rfl

theorem readAt_outside {mem : Targets} {a a' n : ℕ} {bs : List UInt8} (h : a' + n ≤ a ∨ a + bs.length ≤ a') :
    readAt (storeAt mem a bs) a' n = readAt mem a' n := by
  apply List.map_congr_left
  intro i hi
  rw [List.mem_range] at hi
  exact storeAt_outside (by omega)

/-- **The last use of an option** is what its target has. -/
theorem readAt_storeUses {uses : List Use} (h : ∀ use ∈ uses, table.Usable use) (mem : Targets)
    (ho : o ∈ table.copts) :
    readAt (storeUses libc uses mem) o.value o.type.width = valueAt libc mem uses o := by
  induction uses using List.reverseRecOn with
  | nil => rfl
  | append_singleton uses use ih =>
    obtain ⟨hinit, huse⟩ := List.forall_mem_append.mp h
    have hmem := (huse use (List.mem_singleton_self use)).1
    rw [storeUses, List.foldl_append, valueAt, List.reverse_concat, List.foldl_cons,
      List.foldl_nil]
    by_cases hname : use.1.shortName = o.shortName
    · have hsame : use.1 = o := by
        have hfound := Table.findOption_eq hmem
        rw [hname, Table.findOption_eq ho] at hfound
        exact (Option.some.inj hfound).symm
      rw [List.find?_cons_of_pos (by simpa using hname), hsame, ← length_bytes libc o.type (use.2.getD [])]
      exact readAt_storeAt _ _ _
    · have hne : o ≠ use.1 := fun he => hname (congrArg CliOption.shortName he).symm
      have hapart : CliOption.Apart o use.1 := table.apart.forall ho hmem hne
      rw [CliOption.Apart] at hapart
      rw [List.find?_cons_of_neg (by simpa using hname), readAt_outside (by rw [length_bytes]; omega)]
      exact ih hinit

/-- Outside the targets nothing changes. -/
theorem storeUses_outside {uses : List Use} (h : ∀ use ∈ uses, table.Usable use) (mem : Targets) {i : ℕ}
    (hi : ∀ o ∈ table.copts, i < o.value ∨ o.value + o.type.width ≤ i) : storeUses libc uses mem i = mem i := by
  induction uses generalizing mem with
  | nil => rfl
  | cons use uses ih =>
    obtain ⟨huse, h⟩ := List.forall_mem_cons.mp h
    have houtside := hi use.1 huse.1
    rw [← length_bytes libc use.1.type (use.2.getD [])] at houtside
    exact (ih h _).trans (storeAt_outside houtside)

/-! ### A command of the example -/

/-- `copts` of `cmd_student`, with the fields of `student` at their offsets. -/
def studentCopts : List CliOption :=
  [optString32 110 ⟨[110, 97, 109, 101], by decide⟩ 0, optInt 97 ⟨[97, 103, 101], by decide⟩ 32,
    optInt 115 ⟨[115, 101, 120], by decide⟩ 36, optDouble 83 ⟨[115, 99, 111, 114, 101], by decide⟩ 40,
    optBool 112 ⟨[112, 97, 115, 115], by decide⟩ 48]

/-- It is a table. -/
def studentTable : Table where
  copts := studentCopts
  shortName := by
    simp only [studentCopts, List.forall_mem_cons]
    exact ⟨by decide, by decide, by decide, by decide, by decide, by simp⟩
  shortName_nodup := by decide
  longName := by
    simp only [studentCopts, List.forall_mem_cons]
    exact ⟨⟨_, rfl, by decide, by decide, by decide⟩, ⟨_, rfl, by decide, by decide, by decide⟩,
      ⟨_, rfl, by decide, by decide, by decide⟩, ⟨_, rfl, by decide, by decide, by decide⟩,
      ⟨_, rfl, by decide, by decide, by decide⟩, by simp⟩
  longName_nodup := by decide
  flag := by
    simp [studentCopts, optString32, optInt, optDouble, optBool]
  apart := by
    simp [studentCopts, optString32, optInt, optDouble, optBool, CliOption.Apart, OptionType.width]

/-- `stu x -n bo --age=5`. -/
def studentInput : List CString :=
  [⟨[120], by decide⟩, ⟨[45, 110], by decide⟩, ⟨[98, 111], by decide⟩, ⟨[45, 45, 97, 103, 101, 61, 53], by decide⟩]

/-- What it says. -/
theorem written_student : Written studentTable [] studentInput
    [(optString32 110 ⟨[110, 97, 109, 101], by decide⟩ 0, some [98, 111]),
      (optInt 97 ⟨[97, 103, 101], by decide⟩ 32, some [53])] := by
  apply Written.operand rfl
  apply Written.word rfl (by decide)
  apply Written.next (o := optString32 110 _ 0) (s := ⟨[98, 111], by decide⟩) List.mem_cons_self rfl
  exact Written.assigned (List.mem_cons_of_mem _ List.mem_cons_self) rfl (by decide) rfl .nil

/-! ### The command line -/

end CcUtils.Cli
