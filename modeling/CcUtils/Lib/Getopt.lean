import CcUtils.Lib.Memory

/-!
# `getopt_long`

A library: the option parser of the GNU C library, for option strings that begin with an ordinary
character. It keeps its place between calls in variables of its own: the index `optind` of the next
argument, a pointer to the next character of the cluster of short options it is in, and the part of
the arguments that are no options and were moved behind the options so far. What the pointer points to is
here the text from there on, which later calls find as it was.

## What is proved

* `Getopt.Fit` — what the variables always are.
* `getoptLong_leaves` — a call keeps them so, and it comes nearer to the end of the arguments.
* `getoptLong_fresh` — outside a cluster, a call with `optind` 1 is as the first one ever.
* `getoptLong_stale` — in a cluster, a call goes on with it.
* `getoptLong_fuelled` — a call ends.
-/

namespace CcUtils.Lib

/-! ### The variables -/

/-- `has_arg`. -/
inductive HasArg
  /-- `no_argument`. -/
  | no
  /-- `required_argument`. -/
  | required
  /-- `optional_argument`. -/
  | optional
  deriving DecidableEq

/-- `struct option`, with the field `flag` `NULL`. -/
structure LongOption where
  /-- `name`. -/
  name : CString
  /-- `has_arg`. -/
  hasArg : HasArg
  /-- `val`. -/
  val : ℤ

/-- What is given to every call: the option string, the long options, and whether `POSIXLY_CORRECT` is
set. -/
structure OptSpec where
  /-- `optstring`. -/
  optstring : List UInt8
  /-- `longopts`. -/
  longopts : List LongOption
  /-- The first argument that is no option ends the options. -/
  posixly : Bool

/-- The variables that live from one call to the next. -/
structure Getopt where
  /-- `optind`. -/
  optind : ℕ
  /-- `optarg`. -/
  optarg : Option (List UInt8)
  /-- `__initialized`. -/
  initialized : Bool
  /-- The text `__nextchar` points to; there is none also where it is `NULL`. -/
  nextchar : List UInt8
  /-- `__first_nonopt`. -/
  firstNonopt : ℕ
  /-- `__last_nonopt`. -/
  lastNonopt : ℕ

/-- Before the first call. -/
def Getopt.start : Getopt := ⟨1, none, false, [], 0, 0⟩

/-! ### Arguments -/

/-- `-`. -/
abbrev minus : UInt8 := 45

/-- `:`. -/
abbrev colon : UInt8 := 58

/-- `;`. -/
abbrev semicolon : UInt8 := 59

/-- `=`. -/
abbrev equals : UInt8 := 61

/-- `?`. -/
abbrev question : UInt8 := 63

/-- `W`. -/
abbrev letterW : UInt8 := 87

/-- The argument at an index. -/
def argAt (argv : List CString) (i : ℕ) : Exec CString :=
  match argv[i]? with
  | some s => .ok s
  | none => .error .outOfBounds

/-- `NONOPTION_P`. -/
def nonoptionP (s : CString) : Bool :=
  match s.val with
  | c :: _ :: _ => c ≠ minus
  | _ => true

/-- A character as the `int` that is returned. -/
def charCode (c : UInt8) : ℤ := c.toBitVec.toInt

/-- `exchange`: the options found since come before the arguments that are none. -/
def exchange (argv : List CString) (d : Getopt) : List CString × Getopt :=
  (argv.take d.firstNonopt ++ (argv.drop d.lastNonopt).take (d.optind - d.lastNonopt) ++
      (argv.drop d.firstNonopt).take (d.lastNonopt - d.firstNonopt) ++ argv.drop d.optind,
    { d with
      firstNonopt := d.firstNonopt + (d.optind - d.lastNonopt), lastNonopt := d.optind })

/-- The arguments that are no options stay one part of the arguments, before `optind`. -/
def gather (argv : List CString) (d : Getopt) : List CString × Getopt :=
  if d.firstNonopt = d.lastNonopt then (argv, { d with firstNonopt := d.optind })
  else if d.lastNonopt = d.optind then (argv, d)
  else exchange argv d

/-- The arguments that are no options are passed over. -/
def permute (argv : List CString) (d : Getopt) : List CString × Getopt :=
  let (argv, d) := gather argv d
  let optind := d.optind + ((argv.drop d.optind).takeWhile nonoptionP).length
  (argv, { d with optind := optind, lastNonopt := optind })

/-- The argument `--` ends the options. -/
def skipMinusMinus (argv : List CString) (d : Getopt) : Exec (List CString × Getopt) :=
  if d.optind = argv.length then .ok (argv, d)
  else do
    let s ← argAt argv d.optind
    if s.val = [minus, minus] then
      let (argv, d) := gather argv { d with optind := d.optind + 1 }
      .ok (argv, { d with lastNonopt := argv.length, optind := argv.length })
    else .ok (argv, d)

/-! ### Options -/

/-- The long option meant by a name: the one of this name, or else the only one the name abbreviates, as
far as the candidates can be told apart. -/
def findLong (longopts : List LongOption) (name : List UInt8) : Option LongOption :=
  match longopts.find? fun o => o.name.val = name with
  | some o => some o
  | none =>
    match longopts.filter fun o => name.isPrefixOf o.name.val with
    | [] => none
    | o :: os =>
      if os.any fun o' => o'.hasArg ≠ o.hasArg ∨ o'.val ≠ o.val then none else some o

/-- `process_long_option`, on the text behind the two minus signs. -/
def processLongOption (spec : OptSpec) (argv : List CString) (d : Getopt) (text : List UInt8) :
    Exec (ℤ × Getopt) :=
  let d := { d with optind := d.optind + 1 }
  match findLong spec.longopts (text.takeWhile (· ≠ equals)) with
  | none => .ok (charCode question, { d with nextchar := [] })
  | some o =>
    let d := { d with nextchar := [] }
    match text.dropWhile (· ≠ equals) with
    | _ :: arg =>
      if o.hasArg = .no then .ok (charCode question, d)
      else .ok (o.val, { d with optarg := some arg })
    | [] =>
      if o.hasArg = .required then
        if d.optind < argv.length then do
          let arg ← argAt argv d.optind
          .ok (o.val, { d with optarg := some arg.val, optind := d.optind + 1 })
        else .ok (charCode question, d)
      else .ok (o.val, d)

/-- The argument of a short option: the rest of its argument of the command, or else the next one. -/
def requiredArg (argv : List CString) (d : Getopt) (c : UInt8) (rest : List UInt8) :
    Exec (ℤ × Getopt) :=
  if rest ≠ [] then
    .ok (charCode c, { d with optarg := some rest, optind := d.optind + 1, nextchar := [] })
  else if d.optind = argv.length then .ok (charCode question, { d with nextchar := [] })
  else do
    let arg ← argAt argv d.optind
    .ok (charCode c, { d with optarg := some arg.val, optind := d.optind + 1, nextchar := [] })

/-- The option `-W foo`, which stands for `--foo`. -/
def longByW (spec : OptSpec) (argv : List CString) (d : Getopt) (rest : List UInt8) :
    Exec (ℤ × Getopt) :=
  if rest ≠ [] then processLongOption spec argv d rest
  else if d.optind = argv.length then .ok (charCode question, d)
  else do
    let arg ← argAt argv d.optind
    processLongOption spec argv d arg.val

/-- The next character of a cluster, with the characters behind it. -/
def shortOption (spec : OptSpec) (argv : List CString) (d : Getopt) (c : UInt8) (rest : List UInt8) :
    Exec (ℤ × Getopt) :=
  let d := { d with
    nextchar := rest, optind := if rest = [] then d.optind + 1 else d.optind }
  match spec.optstring.dropWhile (· ≠ c) with
  | [] => .ok (charCode question, d)
  | _ :: marks =>
    if c = colon ∨ c = semicolon then .ok (charCode question, d)
    else if c = letterW ∧ marks.head? = some semicolon then longByW spec argv d rest
    else if [colon, colon].isPrefixOf marks then
      .ok (charCode c, { d with
        optarg := if rest = [] then none else some rest,
        optind := if rest = [] then d.optind else d.optind + 1, nextchar := [] })
    else if [colon].isPrefixOf marks then requiredArg argv d c rest
    else .ok (charCode c, d)

/-- The next argument: its first option, or the end. -/
def nextElement (spec : OptSpec) (argv : List CString) (d : Getopt) :
    Exec (ℤ × List CString × Getopt) := do
  let (argv, d) := if spec.posixly then (argv, d) else permute argv d
  let (argv, d) ← skipMinusMinus argv d
  if d.optind = argv.length then
    .ok (-1, argv, if d.firstNonopt ≠ d.lastNonopt then { d with optind := d.firstNonopt } else d)
  else do
    let s ← argAt argv d.optind
    match s.val with
    | c :: c' :: text =>
      if c ≠ minus then .ok (-1, argv, d)
      else if c' = minus then do
        let (r, d) ← processLongOption spec argv d text
        .ok (r, argv, d)
      else do
        let (r, d) ← shortOption spec argv d c' text
        .ok (r, argv, d)
    | _ => .ok (-1, argv, d)

/-- `_getopt_initialize`, where it is called. -/
def getoptInitialize (d : Getopt) : Getopt :=
  if d.optind = 0 ∨ d.initialized = false then
    let optind := if d.optind = 0 then 1 else d.optind
    { d with
      optind := optind, initialized := true, nextchar := [], firstNonopt := optind,
      lastNonopt := optind }
  else d

/-- The arguments moved so far lie before `optind`. -/
def clamp (d : Getopt) : Getopt :=
  { d with
    firstNonopt := min d.firstNonopt d.optind, lastNonopt := min d.lastNonopt d.optind }

/-- `getopt_long`, with at least one argument: what it returns, the arguments as it has reordered them,
and its variables. -/
def getoptLong (spec : OptSpec) (argv : List CString) (d : Getopt) :
    Exec (ℤ × List CString × Getopt) :=
  let d := getoptInitialize { d with optarg := none }
  match d.nextchar with
  | [] => nextElement spec argv (clamp d)
  | c :: rest => do
    let (r, d) ← shortOption spec argv d c rest
    .ok (r, argv, d)

/-! ### What the variables always are -/

/-- The part of the arguments that was moved is one, and the first call makes the variables what they
have to be. -/
structure Getopt.Fit (d : Getopt) : Prop where
  first_le : d.firstNonopt ≤ d.lastNonopt
  first_pos : d.initialized = true → 1 ≤ d.firstNonopt
  nextchar : d.initialized = false → d.nextchar = []

/-- Also when the program sets `optind`. -/
theorem Getopt.Fit.reset {d : Getopt} (h : d.Fit) (optind : ℕ) :
    ({ d with optind := optind } : Getopt).Fit :=
  ⟨h.first_le, h.first_pos, h.nextchar⟩

theorem Getopt.fit_start : Getopt.start.Fit := ⟨le_refl 0, nofun, fun _ => rfl⟩

/-- What is left of the arguments, with one more for each NUL. -/
def sizes (argv : List CString) : ℕ := (argv.map fun s => s.len + 1).sum

/-- How much is ahead: in a cluster, its argument is not counted again. -/
def Getopt.ahead (argv : List CString) (d : Getopt) : ℕ :=
  match d.nextchar with
  | [] => sizes (argv.drop d.optind)
  | text => text.length + sizes (argv.drop (d.optind + 1))

theorem sizes_drop_le (argv : List CString) {i j : ℕ} (h : i ≤ j) :
    sizes (argv.drop j) ≤ sizes (argv.drop i) := by
  obtain ⟨k, rfl⟩ := Nat.exists_eq_add_of_le h
  rw [← List.drop_drop]
  clear h
  generalize argv.drop i = l
  induction k generalizing l with
  | zero => exact le_refl _
  | succ k ih =>
    cases l with
    | nil => exact le_refl _
    | cons s l =>
      rw [List.drop_succ_cons]
      refine (ih l).trans ?_
      simp only [sizes, List.map_cons, List.sum_cons]
      omega

/-- The option was consumed, and with it the argument it is in, or the rest of the cluster is ahead. -/
structure Consumed (d d' : Getopt) (rest : List UInt8) : Prop where
  firstNonopt : d'.firstNonopt = d.firstNonopt
  lastNonopt : d'.lastNonopt = d.lastNonopt
  initialized : d'.initialized = d.initialized
  goes : (d'.nextchar = [] ∧ d.optind + 1 ≤ d'.optind) ∨
    (d'.nextchar = rest ∧ rest ≠ [] ∧ d'.optind = d.optind)

theorem argAt_eq_ok {argv : List CString} {i : ℕ} {s : CString} :
    argAt argv i = .ok s ↔ argv[i]? = some s := by
  rw [argAt]
  split
  case h_1 s' hs' => rw [hs', Except.ok.injEq, Option.some.injEq]
  case h_2 hnone => simp [hnone]

theorem processLongOption_consumed {spec : OptSpec} {argv : List CString} {d d' : Getopt}
    {text : List UInt8} {r : ℤ} (h : processLongOption spec argv d text = .ok (r, d'))
    (rest : List UInt8) : Consumed d d' rest := by
  rw [processLongOption] at h
  dsimp only at h
  split at h
  case h_1 =>
    cases h
    exact ⟨rfl, rfl, rfl, .inl ⟨rfl, le_refl _⟩⟩
  case h_2 o _ =>
    split at h
    case h_1 =>
      split at h <;> cases h <;> exact ⟨rfl, rfl, rfl, .inl ⟨rfl, le_refl _⟩⟩
    case h_2 =>
      split at h
      case isTrue =>
        split at h
        case isTrue =>
          obtain ⟨arg, -, h⟩ := bind_eq_ok.mp h
          cases h
          exact ⟨rfl, rfl, rfl, .inl ⟨rfl, Nat.le_succ _⟩⟩
        case isFalse =>
          cases h
          exact ⟨rfl, rfl, rfl, .inl ⟨rfl, le_refl _⟩⟩
      case isFalse =>
        cases h
        exact ⟨rfl, rfl, rfl, .inl ⟨rfl, le_refl _⟩⟩

theorem Consumed.optind_le {d d' : Getopt} {rest : List UInt8} (h : Consumed d d' rest) :
    d.optind ≤ d'.optind := by
  rcases h.goes with ⟨-, hle⟩ | ⟨-, -, he⟩
  · omega
  · omega

theorem Consumed.of_nil {d d' : Getopt} (h : Consumed d d' []) : d.optind + 1 ≤ d'.optind := by
  rcases h.goes with ⟨-, hle⟩ | ⟨-, hne, -⟩
  · exact hle
  · exact absurd rfl hne

/-- More is consumed. -/
theorem Consumed.trans {d₁ d₂ d₃ : Getopt} {rest : List UInt8} (h : Consumed d₁ d₂ rest)
    (h' : Consumed d₂ d₃ []) : Consumed d₁ d₃ rest := by
  refine ⟨h'.firstNonopt.trans h.firstNonopt, h'.lastNonopt.trans h.lastNonopt,
    h'.initialized.trans h.initialized, .inl ⟨?_, ?_⟩⟩
  · rcases h'.goes with ⟨hnext, -⟩ | ⟨-, hne, -⟩
    · exact hnext
    · exact absurd rfl hne
  · have hle := h.optind_le
    have hlt := h'.of_nil
    omega

/-- The rest of the cluster, if anything, is ahead now, and the arguments behind. -/
theorem Consumed.ahead_le {d d' : Getopt} {rest : List UInt8} (h : Consumed d d' rest)
    (argv : List CString) : d'.ahead argv ≤ rest.length + sizes (argv.drop (d.optind + 1)) := by
  rw [Getopt.ahead]
  rcases h.goes with ⟨hnext, hle⟩ | ⟨hnext, hne, hind⟩
  · rw [hnext]
    have hle' := sizes_drop_le argv hle
    dsimp only
    omega
  · rw [hnext, hind]
    obtain ⟨c, rest, rfl⟩ := List.exists_cons_of_ne_nil hne
    exact le_refl _

theorem longByW_consumed {spec : OptSpec} {argv : List CString} {d d₁ d' : Getopt}
    {rest : List UInt8} {r : ℤ} (hchar : Consumed d d₁ rest)
    (h : longByW spec argv d₁ rest = .ok (r, d')) : Consumed d d' rest := by
  rw [longByW] at h
  split at h
  case isTrue => exact hchar.trans (processLongOption_consumed h [])
  case isFalse =>
    split at h
    case isTrue =>
      cases h
      exact hchar
    case isFalse =>
      obtain ⟨arg, -, h⟩ := bind_eq_ok.mp h
      exact hchar.trans (processLongOption_consumed h [])

theorem requiredArg_consumed {argv : List CString} {d d₁ d' : Getopt} {c : UInt8}
    {rest : List UInt8} {r : ℤ} (hchar : Consumed d d₁ rest)
    (h : requiredArg argv d₁ c rest = .ok (r, d')) : Consumed d d' rest := by
  have hle := hchar.optind_le
  rw [requiredArg] at h
  split at h
  case isTrue =>
    cases h
    exact ⟨hchar.firstNonopt, hchar.lastNonopt, hchar.initialized, .inl ⟨rfl, Nat.succ_le_succ hle⟩⟩
  case isFalse hrest =>
    obtain rfl : rest = [] := not_not.mp hrest
    have hlt := hchar.of_nil
    split at h
    case isTrue =>
      cases h
      exact ⟨hchar.firstNonopt, hchar.lastNonopt, hchar.initialized, .inl ⟨rfl, hlt⟩⟩
    case isFalse =>
      obtain ⟨arg, -, h⟩ := bind_eq_ok.mp h
      cases h
      exact ⟨hchar.firstNonopt, hchar.lastNonopt, hchar.initialized, .inl ⟨rfl, Nat.le_succ_of_le hlt⟩⟩

theorem shortOption_consumed {spec : OptSpec} {argv : List CString} {d d' : Getopt} {c : UInt8}
    {rest : List UInt8} {r : ℤ} (h : shortOption spec argv d c rest = .ok (r, d')) :
    Consumed d d' rest := by
  rw [shortOption] at h
  -- the character itself
  have hchar : Consumed d { d with
      nextchar := rest, optind := if rest = [] then d.optind + 1 else d.optind } rest := by
    refine ⟨rfl, rfl, rfl, ?_⟩
    by_cases hrest : rest = []
    · exact .inl ⟨hrest, (if_pos hrest).ge⟩
    · exact .inr ⟨rfl, hrest, if_neg hrest⟩
  dsimp only at h
  generalize ({ d with
    nextchar := rest, optind := if rest = [] then d.optind + 1 else d.optind } : Getopt) = d₁
    at h hchar
  split at h
  case h_1 =>
    cases h
    exact hchar
  case h_2 marks _ =>
    split at h
    case isTrue =>
      cases h
      exact hchar
    case isFalse =>
      split at h
      case isTrue => exact longByW_consumed hchar h
      case isFalse =>
        split at h
        case isTrue =>
          cases h
          refine ⟨rfl, rfl, rfl, .inl ⟨rfl, ?_⟩⟩
          by_cases hrest : rest = []
          · simp only [if_pos hrest, le_refl]
          · simp only [if_neg hrest, le_refl]
        case isFalse =>
          split at h
          case isTrue => exact requiredArg_consumed hchar h
          case isFalse =>
            cases h
            exact hchar

/-- What the variables are between one option and the next. -/
structure Getopt.Between (d : Getopt) : Prop where
  first_pos : 1 ≤ d.firstNonopt
  first_le : d.firstNonopt ≤ d.lastNonopt
  last_le : d.lastNonopt ≤ d.optind

theorem exchange_spec (argv : List CString) {d : Getopt} (h : d.Between) :
    (exchange argv d).1.length = argv.length ∧
      (exchange argv d).1.drop d.optind = argv.drop d.optind := by
  obtain ⟨-, hle, hle'⟩ := h
  have hlen : (argv.take d.firstNonopt ++ (argv.drop d.lastNonopt).take (d.optind - d.lastNonopt) ++
      (argv.drop d.firstNonopt).take (d.lastNonopt - d.firstNonopt)).length =
        min d.optind argv.length := by
    simp only [List.length_append, List.length_take, List.length_drop]
    omega
  constructor
  · rw [exchange, List.length_append, hlen, List.length_drop]
    omega
  · rw [exchange, List.drop_append, hlen, List.drop_of_length_le (by rw [hlen]; omega),
      List.nil_append, List.drop_drop]
    by_cases h : d.optind ≤ argv.length
    · rw [Nat.min_eq_left h, Nat.sub_self, Nat.add_zero]
    · rw [List.drop_of_length_le (by omega), List.drop_of_length_le (by omega)]

/-- The arguments may have moved, but none that is ahead. -/
structure Gathered (argv argv' : List CString) (d d' : Getopt) : Prop where
  length : argv'.length = argv.length
  drop : argv'.drop d'.optind = argv.drop d'.optind
  initialized : d'.initialized = d.initialized
  nextchar : d'.nextchar = d.nextchar
  optind_le : d.optind ≤ d'.optind
  first_pos : 1 ≤ d'.firstNonopt
  first_le : d'.firstNonopt ≤ d'.lastNonopt

theorem gather_spec (argv : List CString) {d : Getopt} (h : d.Between) :
    (gather argv d).2.optind = d.optind ∧ (gather argv d).2.firstNonopt ≤ d.optind ∧
      1 ≤ (gather argv d).2.firstNonopt ∧ (gather argv d).1.length = argv.length ∧
      (gather argv d).1.drop d.optind = argv.drop d.optind ∧
      (gather argv d).2.initialized = d.initialized ∧
      (gather argv d).2.nextchar = d.nextchar := by
  obtain ⟨hpos, hle, hle'⟩ := h
  rw [gather]
  split
  case isTrue => exact ⟨rfl, le_refl _, by dsimp only; omega, rfl, rfl, rfl, rfl⟩
  case isFalse =>
    split
    case isTrue => exact ⟨rfl, hle.trans hle', hpos, rfl, rfl, rfl, rfl⟩
    case isFalse =>
      obtain ⟨hlen, hdrop⟩ := exchange_spec argv ⟨hpos, hle, hle'⟩
      exact ⟨rfl, by dsimp only [exchange]; omega, by dsimp only [exchange]; omega, hlen, hdrop, rfl,
        rfl⟩

theorem Gathered.trans {argv₁ argv₂ argv₃ : List CString} {d₁ d₂ d₃ : Getopt}
    (h : Gathered argv₁ argv₂ d₁ d₂) (h' : Gathered argv₂ argv₃ d₂ d₃) :
    Gathered argv₁ argv₃ d₁ d₃ := by
  refine ⟨h'.length.trans h.length, ?_, h'.initialized.trans h.initialized,
    h'.nextchar.trans h.nextchar, h.optind_le.trans h'.optind_le, h'.first_pos, h'.first_le⟩
  obtain ⟨k, hk⟩ := Nat.exists_eq_add_of_le h'.optind_le
  rw [h'.drop, hk, ← List.drop_drop, h.drop, List.drop_drop]

theorem permute_gathered (argv : List CString) {d : Getopt} (h : d.Between) :
    Gathered argv (permute argv d).1 d (permute argv d).2 ∧ (permute argv d).2.Between := by
  obtain ⟨hind, hfirst, hpos, hlen, hdrop, hinit, hnext⟩ := gather_spec argv h
  have hle : (permute argv d).2.firstNonopt ≤ (permute argv d).2.lastNonopt := by
    dsimp only [permute]
    omega
  refine ⟨⟨hlen, ?_, hinit, hnext, ?_, hpos, hle⟩, hpos, hle, le_refl _⟩
  · dsimp only [permute]
    rw [hind, ← List.drop_drop, hdrop, List.drop_drop]
  · dsimp only [permute]
    omega

theorem skipMinusMinus_gathered {argv argv' : List CString} {d d' : Getopt} (h : d.Between)
    (hok : skipMinusMinus argv d = .ok (argv', d')) : Gathered argv argv' d d' := by
  have hsame : Gathered argv argv d d :=
    ⟨rfl, rfl, rfl, rfl, le_refl _, h.first_pos, h.first_le⟩
  rw [skipMinusMinus] at hok
  split at hok
  case isTrue =>
    cases hok
    exact hsame
  case isFalse hne =>
    obtain ⟨s, hs, hok⟩ := bind_eq_ok.mp hok
    obtain ⟨hlt, -⟩ := List.getElem?_eq_some_iff.mp (argAt_eq_ok.mp hs)
    split at hok
    case isTrue =>
      have hnext : ({ d with optind := d.optind + 1 } : Getopt).Between :=
        ⟨h.first_pos, h.first_le, Nat.le_succ_of_le h.last_le⟩
      obtain ⟨-, hfirst, hpos, hlen, -, hinit, hnext⟩ := gather_spec argv hnext
      generalize gather argv { d with optind := d.optind + 1 } = g at hok hfirst hpos hlen hinit hnext
      cases hok
      refine ⟨hlen, ?_, hinit, hnext, hlen ▸ hlt.le, hpos, hfirst.trans (hlen ▸ hlt)⟩
      dsimp only
      rw [List.drop_length, hlen, List.drop_length]
    case isFalse =>
      cases hok
      exact hsame

/-- What a call leaves: nothing is ahead any more, or less than before. -/
structure Leaves (argv argv' : List CString) (d d' : Getopt) (r : ℤ) : Prop where
  length : argv'.length = argv.length
  initialized : d'.initialized = true
  first_pos : 1 ≤ d'.firstNonopt
  first_le : d'.firstNonopt ≤ d'.lastNonopt
  optind_pos : 1 ≤ d'.optind
  ahead : r = -1 ∨ d'.ahead argv' < d.ahead argv

/-- An option is taken off what is ahead. -/
theorem Gathered.leaves {argv argv' : List CString} {d d₁ d' : Getopt} {s : CString}
    {rest : List UInt8} (h : Gathered argv argv' d d₁) (hinit : d.initialized = true)
    (hclear : d.nextchar = []) (hpos : 1 ≤ d₁.optind) (hs : argv'[d₁.optind]? = some s)
    (hrest : rest.length < s.len) (hc : Consumed d₁ d' rest) (r : ℤ) : Leaves argv argv' d d' r := by
  refine ⟨h.length, hc.initialized.trans (h.initialized.trans hinit), ?_, ?_,
    hpos.trans hc.optind_le, .inr ?_⟩
  · rw [hc.firstNonopt]
    exact h.first_pos
  · rw [hc.firstNonopt, hc.lastNonopt]
    exact h.first_le
  · have hbefore : sizes (argv'.drop d₁.optind) ≤ d.ahead argv := by
      rw [Getopt.ahead, hclear, h.drop]
      exact sizes_drop_le argv h.optind_le
    have hhead : argv'.drop d₁.optind = s :: argv'.drop (d₁.optind + 1) := by
      obtain ⟨hlt, hget⟩ := List.getElem?_eq_some_iff.mp hs
      rw [List.drop_eq_getElem_cons hlt, hget]
    have hsum : sizes (argv'.drop d₁.optind) =
        s.len + 1 + sizes (argv'.drop (d₁.optind + 1)) := by
      rw [hhead, sizes, List.map_cons, List.sum_cons, sizes]
    have hafter := hc.ahead_le argv'
    omega

theorem gathered_permute {spec : OptSpec} {argv argv₁ : List CString} {d d₁ : Getopt}
    (h : d.Between) (hpair : (if spec.posixly then (argv, d) else permute argv d) = (argv₁, d₁)) :
    Gathered argv argv₁ d d₁ ∧ d₁.Between := by
  split at hpair
  case isTrue =>
    cases hpair
    exact ⟨⟨rfl, rfl, rfl, rfl, le_refl _, h.first_pos, h.first_le⟩, h⟩
  case isFalse =>
    have hpermute := permute_gathered argv h
    rw [hpair] at hpermute
    exact hpermute

theorem nextElement_leaves {spec : OptSpec} {argv argv' : List CString} {d d' : Getopt} {r : ℤ}
    (h : d.Between) (hinit : d.initialized = true) (hclear : d.nextchar = [])
    (hok : nextElement spec argv d = .ok (r, argv', d')) : Leaves argv argv' d d' r := by
  obtain ⟨⟨argv₁, d₁⟩, hpair⟩ :
      ∃ p, (if spec.posixly then (argv, d) else permute argv d) = p := ⟨_, rfl⟩
  obtain ⟨hgather₁, hbetween₁⟩ := gathered_permute h hpair
  rw [nextElement, hpair] at hok
  obtain ⟨⟨argv₂, d₂⟩, hskip, hok⟩ := bind_eq_ok.mp hok
  have hgather := hgather₁.trans (skipMinusMinus_gathered hbetween₁ hskip)
  have hpos : 1 ≤ d.optind := h.first_pos.trans (h.first_le.trans h.last_le)
  have hpos₂ : 1 ≤ d₂.optind := hpos.trans hgather.optind_le
  -- no option any more
  have hend : ∀ optind, 1 ≤ optind → Leaves argv argv₂ d { d₂ with optind := optind } (-1) :=
    fun optind hoptind => ⟨hgather.length, hgather.initialized.trans hinit, hgather.first_pos,
      hgather.first_le, hoptind, .inl rfl⟩
  dsimp only at hok
  split at hok
  case isTrue =>
    cases hok
    split
    · exact hend _ hgather.first_pos
    · exact hend _ hpos₂
  case isFalse =>
    obtain ⟨s, hs, hok⟩ := bind_eq_ok.mp hok
    have hs' := argAt_eq_ok.mp hs
    split at hok
    case h_1 c c' text htext =>
      have hlen : text.length < s.len := by
        rw [CString.len, htext, List.length_cons, List.length_cons]
        omega
      split at hok
      case isTrue =>
        cases hok
        exact hend _ hpos₂
      case isFalse =>
        split at hok
        case isTrue =>
          obtain ⟨⟨r', d₃⟩, hlong, hok⟩ := bind_eq_ok.mp hok
          cases hok
          exact hgather.leaves hinit hclear hpos₂ hs' hlen (processLongOption_consumed hlong text) _
        case isFalse =>
          obtain ⟨⟨r', d₃⟩, hshort, hok⟩ := bind_eq_ok.mp hok
          cases hok
          exact hgather.leaves hinit hclear hpos₂ hs' hlen (shortOption_consumed hshort) _
    case h_2 =>
      cases hok
      exact hend _ hpos₂

/-! ### A call -/

theorem Leaves.fit {argv argv' : List CString} {d d' : Getopt} {r : ℤ}
    (h : Leaves argv argv' d d' r) : d'.Fit :=
  ⟨h.first_le, fun _ => h.first_pos, fun hinit => absurd (hinit.symm.trans h.initialized) (by decide)⟩

/-- What the first call makes of the variables. -/
theorem getoptInitialize_spec {d : Getopt} (h : d.Fit) (hpos : 1 ≤ d.optind) :
    (getoptInitialize d).optind = d.optind ∧ (getoptInitialize d).optarg = d.optarg ∧
      (getoptInitialize d).initialized = true ∧ (getoptInitialize d).nextchar = d.nextchar ∧
      1 ≤ (getoptInitialize d).firstNonopt ∧
      (getoptInitialize d).firstNonopt ≤ (getoptInitialize d).lastNonopt := by
  have hne : d.optind ≠ 0 := by omega
  rw [getoptInitialize]
  split
  case isTrue hinit =>
    have hclear := h.nextchar (hinit.resolve_left hne)
    simp only [hclear, hpos, le_refl, and_self]
  case isFalse hinit =>
    have htrue : d.initialized = true := by
      rw [not_or] at hinit
      exact Bool.eq_true_of_not_eq_false hinit.2
    exact ⟨rfl, rfl, htrue, rfl, h.first_pos htrue, h.first_le⟩

theorem clamp_between {d : Getopt} (hpos : 1 ≤ d.firstNonopt) (hle : d.firstNonopt ≤ d.lastNonopt)
    (hind : 1 ≤ d.optind) : (clamp d).Between :=
  ⟨le_min hpos hind, min_le_min_right _ hle, min_le_right _ _⟩

/-- A call keeps the variables as they have to be, and comes nearer to the end. -/
theorem getoptLong_leaves {spec : OptSpec} {argv argv' : List CString} {d d' : Getopt} {r : ℤ}
    (h : d.Fit) (hpos : 1 ≤ d.optind) (hok : getoptLong spec argv d = .ok (r, argv', d')) :
    Leaves argv argv' d d' r := by
  have hfit : ({ d with optarg := none } : Getopt).Fit := ⟨h.first_le, h.first_pos, h.nextchar⟩
  obtain ⟨hind, -, hinit, hnext, hfirst, hle⟩ := getoptInitialize_spec hfit hpos
  rw [getoptLong] at hok
  dsimp only at hok hind hnext
  generalize getoptInitialize { d with optarg := none } = d₁ at hok hind hinit hnext hfirst hle
  have hahead : d₁.ahead argv = d.ahead argv := by
    rw [Getopt.ahead, Getopt.ahead, hnext, hind]
  split at hok
  case h_1 hclear =>
    have hl := nextElement_leaves (clamp_between hfirst hle (hind.symm ▸ hpos)) hinit hclear hok
    exact ⟨hl.length, hl.initialized, hl.first_pos, hl.first_le, hl.optind_pos, hahead ▸ hl.ahead⟩
  case h_2 c rest htext =>
    obtain ⟨⟨r', d₂⟩, hshort, hok⟩ := bind_eq_ok.mp hok
    cases hok
    have hc := shortOption_consumed hshort
    refine ⟨rfl, hc.initialized.trans hinit, hc.firstNonopt ▸ hfirst, ?_, ?_, .inr ?_⟩
    · rw [hc.firstNonopt, hc.lastNonopt]
      exact hle
    · exact (hind.symm ▸ hpos).trans hc.optind_le
    · have hafter := hc.ahead_le argv
      have hbefore : d₁.ahead argv = rest.length + 1 + sizes (argv.drop (d₁.optind + 1)) := by
        rw [Getopt.ahead, htext]
        rfl
      dsimp only
      omega

/-- Outside a cluster, a call with `optind` 1 is as the first one ever. -/
theorem getoptLong_fresh {d : Getopt} (h : d.Fit) (hind : d.optind = 1) (hclear : d.nextchar = [])
    (spec : OptSpec) (argv : List CString) :
    getoptLong spec argv d = nextElement spec argv ⟨1, none, true, [], 1, 1⟩ := by
  have hfit : ({ d with optarg := none } : Getopt).Fit := ⟨h.first_le, h.first_pos, h.nextchar⟩
  obtain ⟨hind₁, harg, hinit, hnext, hfirst, hle⟩ := getoptInitialize_spec hfit hind.ge
  rw [getoptLong]
  dsimp only at hind₁ harg hnext ⊢
  generalize getoptInitialize { d with optarg := none } = d₁ at hind₁ harg hinit hnext hfirst hle ⊢
  have hclamp : clamp d₁ = ⟨1, none, true, [], 1, 1⟩ := by
    obtain ⟨optind, optarg, initialized, nextchar, first, last⟩ := d₁
    dsimp only at hind₁ harg hinit hnext hfirst hle
    rw [hind] at hind₁
    subst hind₁ harg hinit
    simp only [clamp, hnext, hclear, Nat.min_eq_right hfirst, Nat.min_eq_right (hfirst.trans hle)]
  rw [hnext, hclear]
  dsimp only
  rw [hclamp]

/-- In a cluster, a call goes on with it, whatever its arguments. -/
theorem getoptLong_stale {d : Getopt} (hinit : d.initialized = true) (hpos : 1 ≤ d.optind)
    {c : UInt8} {rest : List UInt8} (htext : d.nextchar = c :: rest) (spec : OptSpec)
    (argv : List CString) :
    getoptLong spec argv d = (do
      let (r, d) ← shortOption spec argv { d with optarg := none } c rest
      .ok (r, argv, d)) := by
  obtain ⟨optind, optarg, initialized, nextchar, first, last⟩ := d
  dsimp only at hinit hpos htext
  subst hinit htext
  have hne : optind ≠ 0 := by omega
  have hsame : getoptInitialize ⟨optind, none, true, c :: rest, first, last⟩ =
      ⟨optind, none, true, c :: rest, first, last⟩ := by
    rw [getoptInitialize, if_neg (not_or.mpr ⟨hne, Bool.true_eq_false.mp⟩)]
  rw [getoptLong]
  dsimp only
  rw [hsame]

/-! ### Faults -/

/-- The run does not end for want of fuel. -/
def Fuelled {α : Type} (x : Exec α) : Prop := x ≠ .error .outOfFuel

theorem Fuelled.ok {α : Type} (a : α) : Fuelled (.ok a) := nofun

theorem Fuelled.bind {α β : Type} {x : Exec α} {f : α → Exec β} (hx : Fuelled x)
    (hf : ∀ a, x = .ok a → Fuelled (f a)) : Fuelled (x >>= f) := by
  cases x with
  | error e =>
    rintro ⟨⟩
    exact hx rfl
  | ok a => exact hf a rfl

theorem argAt_fuelled (argv : List CString) (i : ℕ) : Fuelled (argAt argv i) := by
  rw [argAt]
  split <;> nofun

theorem processLongOption_fuelled (spec : OptSpec) (argv : List CString) (d : Getopt)
    (text : List UInt8) : Fuelled (processLongOption spec argv d text) := by
  rw [processLongOption]
  dsimp only
  split
  · exact .ok _
  · split
    · split <;> exact .ok _
    · split
      · split
        · exact (argAt_fuelled _ _).bind fun _ _ => .ok _
        · exact .ok _
      · exact .ok _

theorem longByW_fuelled (spec : OptSpec) (argv : List CString) (d : Getopt) (rest : List UInt8) :
    Fuelled (longByW spec argv d rest) := by
  rw [longByW]
  split
  · exact processLongOption_fuelled _ _ _ _
  · split
    · exact .ok _
    · exact (argAt_fuelled _ _).bind fun _ _ => processLongOption_fuelled _ _ _ _

theorem requiredArg_fuelled (argv : List CString) (d : Getopt) (c : UInt8) (rest : List UInt8) :
    Fuelled (requiredArg argv d c rest) := by
  rw [requiredArg]
  split
  · exact .ok _
  · split
    · exact .ok _
    · exact (argAt_fuelled _ _).bind fun _ _ => .ok _

theorem shortOption_fuelled (spec : OptSpec) (argv : List CString) (d : Getopt) (c : UInt8)
    (rest : List UInt8) : Fuelled (shortOption spec argv d c rest) := by
  rw [shortOption]
  dsimp only
  generalize ({ d with
    nextchar := rest, optind := if rest = [] then d.optind + 1 else d.optind } : Getopt) = d₁
  split
  · exact .ok _
  · by_cases hsign : c = colon ∨ c = semicolon
    · rw [if_pos hsign]
      exact .ok _
    rw [if_neg hsign]
    split
    · exact longByW_fuelled _ _ _ _
    · split
      · exact .ok _
      · split
        · exact requiredArg_fuelled _ _ _ _
        · exact .ok _

/-- A call has no loop of its own that could go on for ever. -/
theorem getoptLong_fuelled (spec : OptSpec) (argv : List CString) (d : Getopt) :
    Fuelled (getoptLong spec argv d) := by
  have hskip : ∀ argv d, Fuelled (skipMinusMinus argv d) := by
    intro argv d
    rw [skipMinusMinus]
    split
    · exact .ok _
    · refine (argAt_fuelled _ _).bind fun _ _ => ?_
      split <;> exact .ok _
  have hnext : ∀ d, Fuelled (nextElement spec argv d) := by
    intro d
    rw [nextElement]
    refine (hskip _ _).bind fun _ _ => ?_
    dsimp only
    split
    · exact .ok _
    · refine (argAt_fuelled _ _).bind fun _ _ => ?_
      split
      · split
        · exact .ok _
        · split
          · exact (processLongOption_fuelled _ _ _ _).bind fun _ _ => .ok _
          · exact (shortOption_fuelled _ _ _ _ _).bind fun _ _ => .ok _
      · exact .ok _
  rw [getoptLong]
  dsimp only
  split
  · exact hnext _
  · exact (shortOption_fuelled _ _ _ _ _).bind fun _ _ => .ok _

end CcUtils.Lib
