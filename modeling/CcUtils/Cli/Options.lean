import CcUtils.Lib.Getopt

/-!
# Options of commands

`parse_options` of `options.c`, which runs `getopt_long` over the arguments of a command. It sets
`optind` to 1 at the start, which does not bring `getopt_long` out of a cluster of short options: and it
leaves in the middle of one when it meets `h`.

A call gets the process as the calls before it have left it, by the variables of `getopt_long`. What the
program does with numbers (`strtol`, `strtod`) and with its callbacks is given. The text of the help is
left out.

## What is proved

* `parseOptions_ne_outOfFuel` — the loop ends.
* `outcome_clear` — outside a cluster, what came before makes no difference.
* `outcome_stale` — in a cluster, it does.
* `sameOutcomes_iff` — so the outcome depends on the arguments alone exactly where no call was left in a
  cluster.
-/

namespace CcUtils.Cli

open CcUtils.Lib

/-! ### Options -/

/-- The memory the targets are in. -/
abbrev Targets := ℕ → UInt8

/-- `enum option_type`. -/
inductive OptionType
  /-- `OPTION_INT`. -/
  | int
  /-- `OPTION_LONG`. -/
  | long
  /-- `OPTION_FLOAT`, which nothing is done for. -/
  | float
  /-- `OPTION_BOOL`. -/
  | bool
  /-- `OPTION_DOUBLE`. -/
  | double
  /-- `OPTION_STRING32`. -/
  | string32
  /-- `OPTION_STRING64`. -/
  | string64
  /-- `OPTION_CALLBACK`. -/
  | callback

/-- `struct cli_option`, without the texts for the help. -/
structure CliOption where
  /-- `type`. -/
  type : OptionType
  /-- `flag`. -/
  flag : HasArg
  /-- `short_name`. -/
  shortName : ℤ
  /-- `long_name`, or `NULL`. -/
  longName : Option CString
  /-- `value`. -/
  value : ℕ
  /-- What `callback` does with the targets, or `NULL`. -/
  callback : Option (ℕ → Option (List UInt8) → Targets → Targets)

/-- `h`. -/
abbrev letterH : UInt8 := 104

/-- A `short_name` as a character of the option string. -/
def shortChar (c : ℤ) : UInt8 := UInt8.ofBitVec (BitVec.ofInt 8 c)

/-- The part of the option string for one option. -/
def optChars (o : CliOption) : List UInt8 :=
  match o.flag with
  | .no => [shortChar o.shortName]
  | .required => [shortChar o.shortName, colon]
  | .optional => [shortChar o.shortName, colon, colon]

/-- The option string, as far as a `NULL` character. -/
def optstring (copts : List CliOption) : List UInt8 :=
  (letterH :: copts.flatMap optChars).takeWhile (· ≠ 0)

/-- `"help"`. -/
def helpName : CString := ⟨[104, 101, 108, 112], by decide⟩

/-- The long options; one without a name ends them. -/
def longopts : List CliOption → List LongOption
  | [] => []
  | o :: copts =>
    match o.longName with
    | none => []
    | some name => ⟨name, o.flag, o.shortName⟩ :: longopts copts

/-- What `parse_options` gives to `getopt_long`. -/
def optSpec (posixly : Bool) (copts : List CliOption) : OptSpec :=
  ⟨optstring copts, ⟨helpName, .no, charCode letterH⟩ :: longopts copts, posixly⟩

/-- `find_option`. -/
def findOption (copts : List CliOption) (c : ℤ) : Option CliOption :=
  copts.find? fun o => o.shortName = c

/-- Bytes are stored at an address. -/
def storeAt (mem : Targets) (a : ℕ) (bs : List UInt8) : Targets :=
  fun i => if a ≤ i then bs.getD (i - a) (mem i) else mem i

/-- The number conversions of the C library, and whether `POSIXLY_CORRECT` is set. -/
structure Libc where
  /-- `strtol(.., NULL, 10)`. -/
  strtol : List UInt8 → BitVec 64
  /-- `strtod(.., NULL)`. -/
  strtod : List UInt8 → BitVec 64
  /-- `POSIXLY_CORRECT` is set. -/
  posixly : Bool

/-- `optarg` where it is used as a string. -/
def stringArg (optarg : Option (List UInt8)) : Exec (List UInt8) :=
  match optarg with
  | some s => .ok s
  | none => .error .nullDeref

/-- What `strncpy` writes. -/
def strncpyBytes (s : List UInt8) (n : ℕ) : List UInt8 :=
  s.take n ++ List.replicate (n - s.length) 0

/-- The `switch` on the type: the targets afterwards. -/
def storeOption (libc : Libc) (o : CliOption) (optarg : Option (List UInt8)) (mem : Targets) :
    Exec Targets :=
  match o.type with
  | .int => do
    let s ← stringArg optarg
    .ok (storeAt mem o.value (leBv 4 ((libc.strtol s).setWidth 32)))
  | .long => do
    let s ← stringArg optarg
    .ok (storeAt mem o.value (leBv 8 (libc.strtol s)))
  | .float => .ok mem
  | .bool => .ok (storeAt mem o.value [1])
  | .double => do
    let s ← stringArg optarg
    .ok (storeAt mem o.value (leBv 8 (libc.strtod s)))
  | .string32 => do
    let s ← stringArg optarg
    .ok (storeAt mem o.value (strncpyBytes s 31))
  | .string64 => do
    let s ← stringArg optarg
    .ok (storeAt mem o.value (strncpyBytes s 63))
  | .callback =>
    match o.callback with
    | none => .error .nullDeref
    | some f => .ok (f o.value optarg mem)

/-! ### Parsing -/

/-- `EINVAL`, negated. -/
def negEInval : ℤ := -22

/-- What one call is given. -/
structure Input where
  /-- `argv`, with `argc` arguments. -/
  argv : List CString
  /-- `copts`, with `optnum` options. -/
  copts : List CliOption
  /-- The targets beforehand. -/
  mem : Targets

/-- The loop of `parse_options`: what it returns, the targets, and what `getopt_long` keeps. -/
def parseLoop (libc : Libc) (copts : List CliOption) :
    ℕ → List CString → Getopt → Targets → Exec (ℤ × Targets × Getopt)
  | 0, _, _, _ => .error .outOfFuel
  | fuel + 1, argv, d, mem => do
    let (c, argv, d) ← getoptLong (optSpec libc.posixly copts) argv d
    if c = -1 then .ok (0, mem, d)
    else if c = charCode letterH then .ok (negEInval, mem, d)
    else
      match findOption copts c with
      | none => parseLoop libc copts fuel argv d mem
      | some o => do
        let mem ← storeOption libc o d.optarg mem
        parseLoop libc copts fuel argv d mem

/-- `"temp"`. -/
def tempName : CString := ⟨[116, 101, 109, 112], by decide⟩

/-- `new_argv`. -/
def Input.newArgv (input : Input) : List CString := tempName :: input.argv

/-- `parse_options`, where `getopt_long` was left with the variables `d`. -/
def parseOptions (libc : Libc) (d : Getopt) (input : Input) : Exec (ℤ × Targets × Getopt) :=
  let d := { d with optind := 1 }
  parseLoop libc input.copts (d.ahead input.newArgv + 1) input.newArgv d input.mem

/-- What the caller sees: the number returned and the targets. -/
def outcome (libc : Libc) (d : Getopt) (input : Input) : Exec (ℤ × Targets) := do
  let (ret, mem, _) ← parseOptions libc d input
  .ok (ret, mem)

/-- Earlier calls: what they leave to `getopt_long`. -/
def after (libc : Libc) : List Input → Getopt → Exec Getopt
  | [], d => .ok d
  | input :: history, d => do
    let (_, _, d) ← parseOptions libc d input
    after libc history d

/-- After the one history or the other, the same call has the same outcome. -/
def SameOutcomes (libc : Libc) (history history' : List Input) : Prop :=
  ∀ d d', after libc history .start = .ok d → after libc history' .start = .ok d' →
    ∀ input, outcome libc d input = outcome libc d' input

/-- The history does not end within a cluster of short options. -/
def LeavesClear (libc : Libc) (history : List Input) : Prop :=
  ∀ d, after libc history .start = .ok d → d.nextchar = []

/-! ### The loop ends -/

variable {libc : Libc}

theorem storeOption_fuelled (o : CliOption) (optarg : Option (List UInt8)) (mem : Targets) :
    Fuelled (storeOption libc o optarg mem) := by
  have hstring : Fuelled (stringArg optarg) := by
    cases optarg <;> nofun
  rw [storeOption]
  split
  case h_3 => exact .ok _
  case h_4 => exact .ok _
  case h_8 => split <;> nofun
  all_goals exact hstring.bind fun _ _ => .ok _

theorem parseLoop_fuelled {copts : List CliOption} {fuel : ℕ} {argv : List CString} {d : Getopt}
    (h : d.Fit) (hpos : 1 ≤ d.optind) (hfuel : d.ahead argv < fuel) (mem : Targets) :
    Fuelled (parseLoop libc copts fuel argv d mem) := by
  induction fuel generalizing argv d mem with
  | zero => exact absurd hfuel (Nat.not_lt_zero _)
  | succ fuel ih =>
    rw [parseLoop]
    apply (getoptLong_fuelled _ _ _).bind
    rintro ⟨c, argv', d'⟩ hcall
    have hl := getoptLong_leaves h hpos hcall
    dsimp only
    by_cases hend : c = -1
    · rw [if_pos hend]
      exact .ok _
    rw [if_neg hend]
    -- less is ahead of the next call
    have hahead : d'.ahead argv' < fuel := by
      have hlt := hl.ahead.resolve_left hend
      omega
    split
    · exact .ok _
    · split
      · exact ih hl.fit hl.optind_pos hahead _
      · exact (storeOption_fuelled _ _ _).bind fun mem' _ => ih hl.fit hl.optind_pos hahead mem'

/-- The fuel is enough. -/
theorem parseOptions_ne_outOfFuel {d : Getopt} (h : d.Fit) (input : Input) :
    parseOptions libc d input ≠ .error .outOfFuel :=
  parseLoop_fuelled (h.reset 1) (le_refl 1) (Nat.lt_succ_self _) _

/-! ### What is left to the next call -/

theorem parseLoop_fit {copts : List CliOption} {fuel : ℕ} {argv : List CString} {d d' : Getopt}
    {mem mem' : Targets} {ret : ℤ} (h : d.Fit) (hpos : 1 ≤ d.optind)
    (hok : parseLoop libc copts fuel argv d mem = .ok (ret, mem', d')) :
    d'.Fit ∧ d'.initialized = true := by
  induction fuel generalizing argv d mem with
  | zero => cases hok
  | succ fuel ih =>
    obtain ⟨⟨c, argv', d₁⟩, hcall, hok⟩ := bind_eq_ok.mp hok
    have hl := getoptLong_leaves h hpos hcall
    dsimp only at hok
    split at hok
    · cases hok
      exact ⟨hl.fit, hl.initialized⟩
    · split at hok
      · cases hok
        exact ⟨hl.fit, hl.initialized⟩
      · split at hok
        · exact ih hl.fit hl.optind_pos hok
        · obtain ⟨mem₁, -, hok⟩ := bind_eq_ok.mp hok
          exact ih hl.fit hl.optind_pos hok

/-- Earlier calls leave the variables as they have to be; before the first one they are as at the
start. -/
theorem after_fit {history : List Input} {d d' : Getopt} (h : d.Fit)
    (hok : after libc history d = .ok d') :
    d'.Fit ∧ (d'.initialized = true ∨ history = [] ∧ d' = d) := by
  induction history generalizing d with
  | nil =>
    cases hok
    exact ⟨h, .inr ⟨rfl, rfl⟩⟩
  | cons input history ih =>
    obtain ⟨⟨ret, mem, d₁⟩, hcall, hok⟩ := bind_eq_ok.mp hok
    obtain ⟨hfit, hinit⟩ := parseLoop_fit (h.reset 1) (le_refl 1) hcall
    obtain ⟨hfit', hinit' | ⟨-, rfl⟩⟩ := ih hfit hok
    · exact ⟨hfit', .inl hinit'⟩
    · exact ⟨hfit', .inl hinit⟩

/-! ### Outside a cluster -/

/-- Outside a cluster a call depends on its arguments alone. -/
theorem outcome_clear {d d' : Getopt} (h : d.Fit) (h' : d'.Fit) (hclear : d.nextchar = [])
    (hclear' : d'.nextchar = []) (input : Input) : outcome libc d input = outcome libc d' input := by
  have hcall : getoptLong (optSpec libc.posixly input.copts) input.newArgv { d with optind := 1 } =
      getoptLong (optSpec libc.posixly input.copts) input.newArgv { d' with optind := 1 } :=
    (getoptLong_fresh (h.reset 1) rfl hclear _ _).trans (getoptLong_fresh (h'.reset 1) rfl hclear' _ _).symm
  have hahead : ({ d with optind := 1 } : Getopt).ahead input.newArgv =
      ({ d' with optind := 1 } : Getopt).ahead input.newArgv := by
    rw [Getopt.ahead, Getopt.ahead]
    dsimp only
    rw [hclear, hclear']
  rw [outcome, outcome, parseOptions, parseOptions]
  dsimp only
  rw [hahead, parseLoop, parseLoop, hcall]

/-! ### In a cluster -/

/-- An option that is set by every character that is none. -/
def errorOption : CliOption := ⟨.bool, .no, charCode question, none, 0, none⟩

/-- A command with one argument that is no option. -/
def plainInput : Input := ⟨[⟨[121], by decide⟩], [errorOption], fun _ => 0⟩

/-- It has no effect by itself. -/
theorem outcome_plain : outcome libc .start plainInput = .ok (0, fun _ => 0) := by
  have hcall : ∀ posixly, ∃ d, getoptLong (optSpec posixly [errorOption]) plainInput.newArgv .start =
      .ok (-1, plainInput.newArgv, d) := by
    intro posixly
    cases posixly <;> exact ⟨_, rfl⟩
  obtain ⟨d, hcall⟩ := hcall libc.posixly
  have hstart : ({ Getopt.start with optind := 1 } : Getopt) = .start := rfl
  rw [outcome, parseOptions]
  dsimp only
  rw [hstart, parseLoop, show plainInput.copts = [errorOption] from rfl, hcall]
  rfl

/-- With this table, every character but `h` is an error. -/
theorem shortOption_error (posixly : Bool) (argv : List CString) (d : Getopt) (c : UInt8)
    (rest : List UInt8) :
    ∃ d', shortOption (optSpec posixly [errorOption]) argv d c rest =
      .ok (if c = letterH then charCode letterH else charCode question, d') := by
  have hstring : (optSpec posixly [errorOption]).optstring = [letterH, question] := rfl
  rw [shortOption, hstring]
  dsimp only
  generalize ({ d with
    nextchar := rest, optind := if rest = [] then d.optind + 1 else d.optind } : Getopt) = d₁
  by_cases hh : c = letterH
  · subst hh
    exact ⟨d₁, rfl⟩
  rw [if_neg hh]
  by_cases hq : c = question
  · subst hq
    exact ⟨d₁, rfl⟩
  have hnone : [letterH, question].dropWhile (· ≠ c) = [] := by
    simp [List.dropWhile, Ne.symm hh, Ne.symm hq]
  rw [hnone]
  exact ⟨d₁, rfl⟩

/-- Once set, the target stays set. -/
theorem parseLoop_set {fuel : ℕ} {argv : List CString} {d d' : Getopt} {mem mem' : Targets} {ret : ℤ}
    (hmem : mem 0 = 1) (hok : parseLoop libc [errorOption] fuel argv d mem = .ok (ret, mem', d')) :
    mem' 0 = 1 := by
  induction fuel generalizing argv d mem with
  | zero => cases hok
  | succ fuel ih =>
    obtain ⟨⟨c, argv', d₁⟩, -, hok⟩ := bind_eq_ok.mp hok
    dsimp only at hok
    split at hok
    · cases hok
      exact hmem
    · split at hok
      · cases hok
        exact hmem
      · split at hok
        · exact ih hmem hok
        · rename_i o ho
          obtain ⟨mem₁, hstore, hok⟩ := bind_eq_ok.mp hok
          have ho' : o = errorOption := List.mem_singleton.mp (List.mem_of_find?_eq_some ho)
          subst ho'
          cases hstore
          exact ih rfl hok

/-- In a cluster, it has: the character there is an option, whatever it is. -/
theorem outcome_stale {d : Getopt} (hinit : d.initialized = true) (hstale : d.nextchar ≠ []) :
    outcome libc d plainInput ≠ .ok (0, fun _ => 0) := by
  intro hok
  obtain ⟨c, rest, htext⟩ := List.exists_cons_of_ne_nil hstale
  obtain ⟨⟨ret, mem, d'⟩, hparse, hout⟩ := bind_eq_ok.mp hok
  cases hout
  obtain ⟨d₁, hshort⟩ := shortOption_error libc.posixly plainInput.newArgv
    { d with optind := 1, optarg := none } c rest
  have hinit₁ : ({ d with optind := 1 } : Getopt).initialized = true := hinit
  have hcall : getoptLong (optSpec libc.posixly [errorOption]) plainInput.newArgv
      { d with optind := 1 } =
        .ok (if c = letterH then charCode letterH else charCode question, plainInput.newArgv, d₁) := by
    rw [getoptLong_stale hinit₁ (le_refl 1) htext, hshort]
    rfl
  rw [parseOptions] at hparse
  rw [parseLoop, show plainInput.copts = [errorOption] from rfl, hcall, ok_bind] at hparse
  dsimp only at hparse
  by_cases hh : c = letterH
  · -- the call is stopped
    rw [if_pos hh] at hparse
    cases hparse
  · -- the target is set
    rw [if_neg hh] at hparse
    have hset : (1 : UInt8) = 0 := (parseLoop_set rfl hparse).symm
    exact absurd hset (by decide)

/-! ### Histories -/

/-- A history that ends in a cluster can be told from none. -/
theorem not_sameOutcomes {history : List Input} (h : ¬ LeavesClear libc history) :
    ¬ SameOutcomes libc [] history := by
  intro hsame
  apply h
  intro d hafter
  by_contra hstale
  have hinit : d.initialized = true := by
    obtain ⟨-, hinit | ⟨-, rfl⟩⟩ := after_fit Getopt.fit_start hafter
    · exact hinit
    · exact absurd rfl hstale
  apply @outcome_stale libc d hinit hstale
  rw [← hsame _ _ rfl hafter plainInput]
  exact outcome_plain

/-- For the histories a program can have, one of which is none: the outcome of a call does not depend on
which it was exactly if none of them ends in a cluster. -/
theorem sameOutcomes_iff (libc : Libc) {histories : Set (List Input)} (hnone : [] ∈ histories) :
    (∀ history ∈ histories, ∀ history' ∈ histories, SameOutcomes libc history history') ↔
      ∀ history ∈ histories, LeavesClear libc history := by
  constructor
  · intro hsame history hin
    by_contra h
    exact not_sameOutcomes h (hsame [] hnone history hin)
  · intro hclear history hin history' hin' d d' hd hd' input
    obtain ⟨hfit, -⟩ := after_fit Getopt.fit_start hd
    obtain ⟨hfit', -⟩ := after_fit Getopt.fit_start hd'
    exact outcome_clear hfit hfit' (hclear history hin d hd) (hclear history' hin' d' hd') input

/-- A library for which every text is the number 0. -/
def zeroLibc : Libc := ⟨fun _ => 0, fun _ => 0, false⟩

/-- The commands `y` and `-h`, the second of which is stopped by its `h`. -/
def wholeHistory : List Input := [plainInput, ⟨[⟨[minus, letterH], by decide⟩], [], fun _ => 0⟩]

/-- Behind its `h` there is nothing more. -/
theorem wholeHistory_clear : LeavesClear zeroLibc wholeHistory := by
  intro d hafter
  obtain ⟨d', hwhole, hclear⟩ : ∃ d', after zeroLibc wholeHistory .start = .ok d' ∧ d'.nextchar = [] :=
    ⟨_, rfl, rfl⟩
  obtain rfl := Except.ok.inj (hwhole.symm.trans hafter)
  exact hclear

/-- After it every command does what it does at the start. -/
theorem sameOutcomes_iff_whole : SameOutcomes zeroLibc [] wholeHistory := by
  have hclear : ∀ history ∈ ({[], wholeHistory} : Set (List Input)), LeavesClear zeroLibc history := by
    intro history hin
    rcases hin with rfl | rfl
    · intro d hafter
      cases hafter
      rfl
    · exact wholeHistory_clear
  have hsame := (sameOutcomes_iff zeroLibc (Set.mem_insert [] {wholeHistory})).mpr hclear
  exact hsame [] (Set.mem_insert _ _) wholeHistory (Set.mem_insert_of_mem _ rfl)

/-- The command `-hn`, which is stopped by its `h`. -/
def helpInput : Input := ⟨[⟨[minus, letterH, 110], by decide⟩], [], fun _ => 0⟩

/-- Its `n` is an option of the next command. -/
theorem outcome_after_help : ¬ SameOutcomes zeroLibc [] [helpInput] := by
  apply not_sameOutcomes
  intro hclear
  have hnext := hclear _ rfl
  cases hnext

end CcUtils.Cli
