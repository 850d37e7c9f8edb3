import CcUtils.Lib.Getopt

/-!
# What `getopt_long` reads

A library: the options in the arguments of a command, read from left to right, with nothing remembered from
one to the next. `getopt_long` remembers where it is, and puts the arguments in another order while it goes
through them; what its calls return is what is read here.

## What is proved

* `shortOption_reads`, `processLongOption_reads` — one option.
* `nextElement_reads` — the next argument that has options, behind those that have none.
* `getoptLong_reads` — one call, from wherever the calls before it have come to.
-/

namespace CcUtils.Lib

/-! ### Reading -/

/-- An option: what `getopt_long` returns for it, and `optarg`. -/
abbrev Opt := ℤ × Option (List UInt8)

/-- An option that is none. -/
def unknown : Opt := (charCode question, none)

/-- Whether the option string has a character, and with what argument. -/
def shortKind (optstring : List UInt8) (c : UInt8) : Option HasArg :=
  match optstring.dropWhile (· ≠ c) with
  | [] => none
  | _ :: marks =>
    if c = colon ∨ c = semicolon then none
    else if [colon, colon].isPrefixOf marks then some .optional
    else if [colon].isPrefixOf marks then some .required
    else some .no

/-- A cluster of short options: what is read, and the option whose argument is the next one of the command, if
the last one is such. -/
def readShort (spec : OptSpec) : List UInt8 → List Opt × Option ℤ
  | [] => ([], none)
  | c :: rest =>
    match shortKind spec.optstring c with
    | none => (unknown :: (readShort spec rest).1, (readShort spec rest).2)
    | some .no => ((charCode c, none) :: (readShort spec rest).1, (readShort spec rest).2)
    | some .optional => ([(charCode c, if rest = [] then none else some rest)], none)
    | some .required => if rest = [] then ([], some (charCode c)) else ([(charCode c, some rest)], none)

/-- A long option, likewise, from the text behind the two minus signs. -/
def readLong (spec : OptSpec) (text : List UInt8) : List Opt × Option ℤ :=
  match findLong spec.longopts (text.takeWhile (· ≠ equals)) with
  | none => ([unknown], none)
  | some o =>
    match text.dropWhile (· ≠ equals) with
    | _ :: arg => if o.hasArg = .no then ([unknown], none) else ([(o.val, some arg)], none)
    | [] => if o.hasArg = .required then ([], some o.val) else ([(o.val, none)], none)

/-- An argument that has options. -/
def readWord (spec : OptSpec) (s : CString) : List Opt × Option ℤ :=
  match s.val with
  | _ :: c :: text => if c = minus then readLong spec text else readShort spec (c :: text)
  | _ => ([], none)

/-- The arguments; `wants` is the option whose argument comes first, if there is one. -/
def readArgs (spec : OptSpec) : Option ℤ → List CString → List Opt
  | none, [] => []
  | some _, [] => [unknown]
  | some c, s :: args => (c, some s.val) :: readArgs spec none args
  | none, s :: args =>
    if nonoptionP s then if spec.posixly then [] else readArgs spec none args
    else if s.val = [minus, minus] then []
    else (readWord spec s).1 ++ readArgs spec (readWord spec s).2 args

/-- What is still to be read in the middle of a cluster. -/
def remaining (spec : OptSpec) (text : List UInt8) (args : List CString) : List Opt :=
  (readShort spec text).1 ++ readArgs spec (readShort spec text).2 args

/-- The index of the next argument that was not looked at. -/
def Getopt.next (d : Getopt) : ℕ := if d.nextchar = [] then d.optind else d.optind + 1

/-- Where the calls have come to: `text` is left of a cluster, and `args` of the arguments. -/
structure Ahead (argv : List CString) (d : Getopt) (text : List UInt8) (args : List CString) : Prop where
  nextchar : d.nextchar = text
  le : d.next ≤ argv.length
  drop : argv.drop d.next = args

/-- A call returns the first of these options and goes on with the others. -/
def Reads (spec : OptSpec) (call : Exec (ℤ × List CString × Getopt)) : List Opt → Prop
  | [] => ∃ argv d, call = .ok (-1, argv, d)
  | (c, arg) :: opts => ∃ argv d text args, call = .ok (c, argv, d) ∧ d.optarg = arg ∧ Ahead argv d text args ∧
      remaining spec text args = opts

variable {spec : OptSpec} {argv : List CString} {d : Getopt} {text : List UInt8} {args : List CString}

/-! ### One option -/

theorem remaining_nil (spec : OptSpec) (args : List CString) : remaining spec [] args = readArgs spec none args :=
  rfl

theorem Ahead.of_nil (hclear : d.nextchar = []) (hle : d.optind ≤ argv.length) (hdrop : argv.drop d.optind = args) :
    Ahead argv d [] args := by
  have hnext : d.next = d.optind := if_pos hclear
  exact ⟨hclear, hnext ▸ hle, hnext ▸ hdrop⟩

/-- An option that takes its argument from those of the command. -/
theorem reads_next {x : Exec (ℤ × Getopt)} {c : ℤ} (hle : d.optind ≤ argv.length)
    (hdrop : argv.drop d.optind = args) (harg : d.optarg = none)
    (hnone : d.optind = argv.length → x = .ok (charCode question, { d with nextchar := [] }))
    (hsome : ∀ s, argv[d.optind]? = some s → x =
      .ok (c, { d with optarg := some s.val, optind := d.optind + 1, nextchar := [] })) :
    Reads spec (do
      let (r, d) ← x
      .ok (r, argv, d)) (readArgs spec (some c) args) := by
  cases args with
  | nil =>
    have hend : d.optind = argv.length := le_antisymm hle (List.drop_eq_nil_iff.mp hdrop)
    rw [hnone hend]
    exact ⟨_, _, [], [], rfl, harg, .of_nil rfl hle hdrop, rfl⟩
  | cons s args =>
    have hget : argv[d.optind]? = some s := by
      rw [← List.head?_drop, hdrop, List.head?_cons]
    obtain ⟨hlt, -⟩ := List.getElem?_eq_some_iff.mp hget
    have hrest : argv.drop (d.optind + 1) = args := by
      rw [← List.drop_drop, hdrop, List.drop_one, List.tail_cons]
    rw [hsome s hget]
    exact ⟨_, _, [], args, rfl, rfl, .of_nil rfl hlt hrest, rfl⟩

/-- With no `;` in the option string there is no option `-W foo`. -/
theorem head_ne_semicolon {optstring marks : List UInt8} {c c' : UInt8} (h : semicolon ∉ optstring)
    (hdrop : optstring.dropWhile (· ≠ c) = c' :: marks) : marks.head? ≠ some semicolon := by
  intro hhead
  have hmem : semicolon ∈ c' :: marks := List.mem_cons_of_mem _ (List.mem_of_mem_head? hhead)
  rw [← hdrop] at hmem
  exact h ((List.dropWhile_sublist _).mem hmem)

/-- A short option with an argument. -/
theorem requiredArg_reads {c : UInt8} {rest : List UInt8} (hlt : d.optind < argv.length)
    (hdrop : argv.drop (d.optind + 1) = args) (harg : d.optarg = none) :
    Reads spec (do
      let (r, d) ← requiredArg argv { d with
        nextchar := rest, optind := if rest = [] then d.optind + 1 else d.optind } c rest
      .ok (r, argv, d))
      (if rest = [] then readArgs spec (some (charCode c)) args
        else (charCode c, some rest) :: readArgs spec none args) := by
  by_cases hrest : rest = []
  · subst hrest
    rw [if_pos rfl]
    apply reads_next (d := { d with nextchar := [], optind := d.optind + 1 }) hlt hdrop harg
    · intro hend
      rw [requiredArg, if_neg (not_not.mpr rfl), if_pos hend]
    · intro s hs
      obtain ⟨hlt', -⟩ := List.getElem?_eq_some_iff.mp hs
      simp [requiredArg, ne_of_lt hlt', argAt_eq_ok.mpr hs]
  · simp only [if_neg hrest, requiredArg, if_pos (show rest ≠ [] from hrest)]
    exact ⟨_, _, [], args, rfl, rfl, .of_nil rfl hlt hdrop, rfl⟩

/-- **A short option**, in the argument at `optind`. -/
theorem shortOption_reads (hw : semicolon ∉ spec.optstring) {c : UInt8} {rest : List UInt8}
    (hlt : d.optind < argv.length) (hdrop : argv.drop (d.optind + 1) = args) (harg : d.optarg = none) :
    Reads spec (do
      let (r, d) ← shortOption spec argv d c rest
      .ok (r, argv, d)) (remaining spec (c :: rest) args) := by
  -- the option stands for itself, and what is behind it comes next
  have hgoes : ∀ r : ℤ, Reads spec (.ok (r, argv, { d with
      nextchar := rest, optind := if rest = [] then d.optind + 1 else d.optind }))
      ((r, none) :: remaining spec rest args) := by
    intro r
    have hnext : Getopt.next { d with
        nextchar := rest, optind := if rest = [] then d.optind + 1 else d.optind } = d.optind + 1 := by
      by_cases hrest : rest = []
      · simp [Getopt.next, hrest]
      · simp [Getopt.next, hrest]
    exact ⟨_, _, rest, args, rfl, harg, ⟨rfl, by rw [hnext]; exact hlt, by rw [hnext]; exact hdrop⟩, rfl⟩
  rw [remaining, readShort, shortOption, shortKind]
  cases hmarks : spec.optstring.dropWhile (· ≠ c) with
  | nil => exact hgoes _
  | cons c' marks =>
    have hsemi : ¬ (c = letterW ∧ marks.head? = some semicolon) := fun h => head_ne_semicolon hw hmarks h.2
    dsimp only
    by_cases hcolon : c = colon ∨ c = semicolon
    · rw [if_pos hcolon, if_pos hcolon]
      exact hgoes _
    rw [if_neg hcolon, if_neg hcolon, if_neg hsemi]
    by_cases hopt : [colon, colon].isPrefixOf marks = true
    · rw [if_pos hopt, if_pos hopt]
      refine ⟨_, _, [], args, rfl, rfl, .of_nil rfl ?_ ?_, rfl⟩
      · by_cases hrest : rest = []
        · simpa [hrest] using Nat.succ_le_of_lt hlt
        · simpa [hrest] using Nat.succ_le_of_lt hlt
      · by_cases hrest : rest = []
        · simpa [hrest] using hdrop
        · simpa [hrest] using hdrop
    rw [if_neg hopt, if_neg hopt]
    by_cases hreq : [colon].isPrefixOf marks = true
    · rw [if_pos hreq, if_pos hreq]
      have harg' := @requiredArg_reads spec argv d args c rest hlt hdrop harg
      by_cases hrest : rest = []
      · simpa [hrest] using harg'
      · simpa [hrest] using harg'
    · rw [if_neg hreq, if_neg hreq]
      exact hgoes _

/-- **A long option**, in the argument at `optind`. -/
theorem processLongOption_reads (hlt : d.optind < argv.length) (hdrop : argv.drop (d.optind + 1) = args)
    (harg : d.optarg = none) :
    Reads spec (do
      let (r, d) ← processLongOption spec argv d text
      .ok (r, argv, d)) ((readLong spec text).1 ++ readArgs spec (readLong spec text).2 args) := by
  have hplace : ∀ optarg, Ahead argv { d with optind := d.optind + 1, nextchar := [], optarg := optarg } [] args :=
    fun _ => .of_nil rfl hlt hdrop
  rw [readLong, processLongOption]
  dsimp only
  cases findLong spec.longopts (text.takeWhile (· ≠ equals)) with
  | none => exact ⟨_, _, [], args, rfl, harg, hplace _, rfl⟩
  | some o =>
    cases text.dropWhile (· ≠ equals) with
    | cons _ arg =>
      dsimp only
      by_cases hno : o.hasArg = .no
      · simp only [if_pos hno]
        exact ⟨_, _, [], args, rfl, harg, hplace _, rfl⟩
      · simp only [if_neg hno]
        exact ⟨_, _, [], args, rfl, rfl, hplace _, rfl⟩
    | nil =>
      dsimp only
      by_cases hreq : o.hasArg = .required
      · simp only [if_pos hreq]
        apply reads_next (d := { d with nextchar := [], optind := d.optind + 1 }) hlt hdrop harg
        · intro hend
          rw [if_neg hend.not_lt]
        · intro s hs
          obtain ⟨hlt', -⟩ := List.getElem?_eq_some_iff.mp hs
          rw [if_pos hlt', argAt_eq_ok.mpr hs]
          rfl
      · simp only [if_neg hreq]
        exact ⟨_, _, [], args, rfl, harg, hplace _, rfl⟩

/-! ### The next argument that has options -/

/-- Those that have none are passed over, but for `POSIXLY_CORRECT`. -/
theorem readArgs_dropWhile (hposixly : ¬ spec.posixly) (args : List CString) :
    readArgs spec none (args.dropWhile nonoptionP) = readArgs spec none args := by
  induction args with
  | nil => rfl
  | cons s args ih =>
    rw [List.dropWhile_cons]
    by_cases hs : nonoptionP s
    · rw [if_pos hs, ih, readArgs, if_pos hs, if_neg hposixly]
    · rw [if_neg hs]

theorem gather_optarg (argv : List CString) (d : Getopt) : (gather argv d).2.optarg = d.optarg := by
  rw [gather]
  split
  · rfl
  · split <;> rfl

theorem permute_reads (h : d.Between) (hle : d.optind ≤ argv.length) :
    (permute argv d).2.optind ≤ (permute argv d).1.length ∧
      (permute argv d).1.drop (permute argv d).2.optind = (argv.drop d.optind).dropWhile nonoptionP := by
  obtain ⟨hind, -, -, hlen, hdrop, -, -⟩ := gather_spec argv h
  have htake := (List.takeWhile_prefix nonoptionP (l := argv.drop d.optind)).length_le
  have hsplit : (_ ++ (argv.drop d.optind).dropWhile nonoptionP).drop
      ((argv.drop d.optind).takeWhile nonoptionP).length = _ := List.drop_left
  rw [List.length_drop] at htake
  rw [List.takeWhile_append_dropWhile] at hsplit
  dsimp only [permute]
  rw [hind, hdrop, hlen]
  constructor
  · omega
  · rw [← List.drop_drop, hdrop, hsplit]

/-- An argument that has options begins with a minus sign and goes on. -/
theorem of_not_nonoptionP {s : CString} (h : ¬ nonoptionP s) : ∃ c text, s.val = minus :: c :: text := by
  rw [nonoptionP] at h
  cases hs : s.val with
  | nil => simp [hs] at h
  | cons c text =>
    cases text with
    | nil => simp [hs] at h
    | cons c' text =>
      obtain rfl : c = minus := by simpa [hs] using h
      exact ⟨c', text, rfl⟩

/-- An argument that has options. -/
theorem element_reads (hw : semicolon ∉ spec.optstring) {s : CString} (hget : argv[d.optind]? = some s)
    (hdrop : argv.drop (d.optind + 1) = args) (harg : d.optarg = none) (hopt : ¬ nonoptionP s) :
    Reads spec (match s.val with
      | c :: c' :: text =>
        if c ≠ minus then .ok (-1, argv, d)
        else if c' = minus then do
          let (r, d) ← processLongOption spec argv d text
          .ok (r, argv, d)
        else do
          let (r, d) ← shortOption spec argv d c' text
          .ok (r, argv, d)
      | _ => .ok (-1, argv, d)) ((readWord spec s).1 ++ readArgs spec (readWord spec s).2 args) := by
  obtain ⟨hlt, -⟩ := List.getElem?_eq_some_iff.mp hget
  obtain ⟨c, text, hs⟩ := of_not_nonoptionP hopt
  rw [readWord, hs]
  dsimp only
  rw [if_neg (not_not.mpr rfl)]
  by_cases hlong : c = minus
  · rw [if_pos hlong, if_pos hlong]
    exact processLongOption_reads hlt hdrop harg
  · rw [if_neg hlong, if_neg hlong]
    exact shortOption_reads hw hlt hdrop harg

/-- One that has none. -/
theorem operand_reads {s : CString} (hopt : nonoptionP s) :
    Reads spec (match s.val with
      | c :: c' :: text =>
        if c ≠ minus then .ok (-1, argv, d)
        else if c' = minus then do
          let (r, d) ← processLongOption spec argv d text
          .ok (r, argv, d)
        else do
          let (r, d) ← shortOption spec argv d c' text
          .ok (r, argv, d)
      | _ => .ok (-1, argv, d)) [] := by
  rw [nonoptionP] at hopt
  cases hs : s.val with
  | nil => exact ⟨_, _, rfl⟩
  | cons c text =>
    cases text with
    | nil => exact ⟨_, _, rfl⟩
    | cons c' text =>
      rw [hs] at hopt
      exact ⟨_, _, if_pos (of_decide_eq_true hopt)⟩

/-- The options are ended by `--`, or by an argument that has none where that is so. -/
theorem nextElement_reads (hw : semicolon ∉ spec.optstring) (h : d.Between) (hle : d.optind ≤ argv.length)
    (harg : d.optarg = none) : Reads spec (nextElement spec argv d) (readArgs spec none (argv.drop d.optind)) := by
  -- behind the arguments that are passed over
  obtain ⟨⟨argv₁, d₁⟩, hpair⟩ :
      ∃ p, (if spec.posixly then (argv, d) else permute argv d) = p := ⟨_, rfl⟩
  obtain ⟨hle₁, harg₁, hread, hhead⟩ : d₁.optind ≤ argv₁.length ∧ d₁.optarg = none ∧
      readArgs spec none (argv₁.drop d₁.optind) = readArgs spec none (argv.drop d.optind) ∧
        (¬ spec.posixly → ∀ s, argv₁[d₁.optind]? = some s → ¬ nonoptionP s) := by
    by_cases hposixly : spec.posixly
    · rw [if_pos hposixly] at hpair
      cases hpair
      exact ⟨hle, harg, rfl, fun h => absurd hposixly h⟩
    · rw [if_neg hposixly] at hpair
      obtain ⟨hle₁, hdrop⟩ := permute_reads h hle
      have harg₁ := (gather_optarg argv d).trans harg
      rw [hpair] at hle₁ hdrop
      refine ⟨hle₁, ?_, ?_, ?_⟩
      · rw [permute] at hpair
        cases hpair
        exact harg₁
      · rw [hdrop, readArgs_dropWhile hposixly]
      · intro _ s hs
        rw [← List.head?_drop, hdrop] at hs
        have hnot := List.head?_dropWhile_not nonoptionP (argv.drop d.optind)
        rw [hs] at hnot
        simpa using hnot
  rw [← hread, nextElement, hpair]
  dsimp only
  rw [skipMinusMinus]
  cases hargs : argv₁.drop d₁.optind with
  | nil =>
    have hend : d₁.optind = argv₁.length := le_antisymm hle₁ (List.drop_eq_nil_iff.mp hargs)
    rw [if_pos hend, ok_bind]
    dsimp only
    rw [if_pos hend]
    exact ⟨_, _, rfl⟩
  | cons s args =>
    have hget : argv₁[d₁.optind]? = some s := by
      rw [← List.head?_drop, hargs, List.head?_cons]
    obtain ⟨hlt, -⟩ := List.getElem?_eq_some_iff.mp hget
    have hrest : argv₁.drop (d₁.optind + 1) = args := by
      rw [← List.drop_drop, hargs, List.drop_one, List.tail_cons]
    rw [if_neg (ne_of_lt hlt), argAt_eq_ok.mpr hget, ok_bind]
    by_cases hminus : s.val = [minus, minus]
    · have hnone : ¬ nonoptionP s := by simp [nonoptionP, hminus]
      rw [if_pos hminus, readArgs, if_neg hnone, if_pos hminus, ok_bind]
      exact ⟨_, _, if_pos rfl⟩
    rw [if_neg hminus, ok_bind]
    dsimp only
    rw [if_neg (ne_of_lt hlt), argAt_eq_ok.mpr hget, ok_bind]
    by_cases hopt : nonoptionP s
    · have hposixly : spec.posixly := by
        by_contra hposixly
        exact hhead hposixly s hget hopt
      rw [readArgs, if_pos hopt, if_pos hposixly]
      exact operand_reads hopt
    · rw [readArgs, if_neg hopt, if_neg hminus]
      exact element_reads hw hget hrest harg₁ hopt

/-! ### A call -/

/-- **A call** returns the first option that was not read yet. -/
theorem getoptLong_reads (hw : semicolon ∉ spec.optstring) (h : d.Fit) (hpos : 1 ≤ d.optind)
    (hplace : Ahead argv d text args) : Reads spec (getoptLong spec argv d) (remaining spec text args) := by
  have hfit : ({ d with optarg := none } : Getopt).Fit := ⟨h.first_le, h.first_pos, h.nextchar⟩
  obtain ⟨hind, harg, -, hnext, hfirst, hle⟩ := getoptInitialize_spec hfit hpos
  obtain ⟨htext, hlen, hdrop⟩ := hplace
  rw [Getopt.next] at hlen hdrop
  rw [getoptLong]
  dsimp only at hind harg hnext ⊢
  generalize getoptInitialize { d with optarg := none } = d₁ at hind harg hnext hfirst hle
  rw [htext] at hnext hlen hdrop
  rw [← hind] at hpos hlen hdrop
  rw [hnext]
  cases text with
  | nil =>
    rw [if_pos rfl] at hlen hdrop
    rw [remaining_nil, ← hdrop]
    exact nextElement_reads hw (clamp_between hfirst hle hpos) hlen harg
  | cons c rest =>
    rw [if_neg (List.cons_ne_nil c rest)] at hlen hdrop
    exact shortOption_reads hw hlen hdrop harg

end CcUtils.Lib
