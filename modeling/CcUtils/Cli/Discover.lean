import CcUtils.Cli.Server
import CcUtils.Lib.Decimal

/-!
# Finding the server

How the client's `main` finds the socket of a process by its name: the loop over the directory of the
sockets, with `pid_exist`. `cli_create` names the socket by the name of the process, a dot and the
process number.

The loop takes the first socket whose file name begins with the name asked for, has at least three more
bytes, and after the first of these a number, for which there is a process. The first is not looked at.

## What is proved

* `pidExist_digits`, `pidExist_dot` — what `pid_exist` says of the end of a file name.
* `takes_iff` — which sockets the loop takes: the right ones with two digits or more, and those of `Stray`.
* `scan_finds_iff` — when it finds what it should.
-/

namespace CcUtils.Cli

open CcUtils.Lib
open CcUtils.Binlog (ascii decimal)

/-! ### The loop -/

/-- The path of a process in `/proc`, its number printed as an `int`. -/
def procPath (pid : BitVec 32) : List UInt8 :=
  ascii "/proc/" ++ if pid.toInt < 0 then ascii "-" ++ decimal pid.toInt.natAbs
    else decimal pid.toInt.natAbs

/-- `pid_exist`; `isDirectory` is `is_directory`. The number is a `uint64_t`, of which `%d` prints the
low half. -/
def pidExist (isDirectory : List UInt8 → Bool) (pid : List UInt8) : Bool :=
  let (v, e) := strtol pid
  if e ≠ [] then false else isDirectory (procPath (BitVec.ofInt 32 v))

/-- What `stat` says of a directory entry. -/
inductive Stat
  /-- It fails. -/
  | failed
  /-- The entry is a socket. -/
  | socket
  /-- It is something else. -/
  | other
  deriving DecidableEq

/-- A directory entry. -/
structure Entry where
  /-- `d_name`. -/
  dName : CString
  /-- The answer of `stat`. -/
  stat : Stat

/-- `SOCKET_PATH_LEN`. -/
def socketPathLen : ℕ := 108

/-- The path of an entry, `SOCKET_PATH_DIR "/%s"`. -/
def entryPath (entry : Entry) : List UInt8 := ascii "/var/tmp//" ++ entry.dName.val

/-- The body of the loop: whether it breaks at the entry. -/
def takes (isDirectory : List UInt8 → Bool) (procName : CString) (entry : Entry) : Bool :=
  let offset := (entryPath entry).length
  if socketPathLen ≤ offset + 1 then false
  else
    match entry.stat with
    | .failed => false
    | .other => false
    | .socket =>
      strncmp procName.len entry.dName.val procName.val = 0 &&
        (procName.len + 2 < entry.dName.len &&
          pidExist isDirectory (entry.dName.val.drop (procName.len + 1)))

/-- The loop over the directory: the entry it breaks at. -/
def scan (isDirectory : List UInt8 → Bool) (procName : CString) (listing : List Entry) :
    Option Entry :=
  listing.find? (takes isDirectory procName)

/-! ### What it should find -/

/-- A name and a number that `cli_create` makes a socket for. -/
structure Endpoint where
  /-- The name of the process. -/
  name : CString
  /-- It is not empty. -/
  name_pos : 1 ≤ name.len
  /-- It has at most 31 bytes. -/
  name_le : name.len ≤ 31
  /-- It has no `/`. -/
  no_slash : (47 : UInt8) ∉ name.val
  /-- The number of the process. -/
  pid : ℕ
  /-- It is positive. -/
  pid_pos : 1 ≤ pid
  /-- It is an `int`. -/
  pid_lt : pid < 2 ^ 31

/-- A name, a dot and a number. -/
def fileName (name : CString) (pid : ℕ) : List UInt8 := name.val ++ ascii "." ++ decimal pid

/-- It is the name under which `cli_create` binds the socket. -/
theorem socketPath_eq (name : CString) (pid : ℕ) :
    socketPath name pid = ascii "/var/tmp/" ++ fileName name pid := by
  simp [socketPath, fileName]

/-- Every socket in the directory was made by `cli_create`. -/
def Created (listing : List Entry) : Prop :=
  ∀ entry ∈ listing, entry.stat = .socket → ∃ e : Endpoint, entry.dName.val = fileName e.name e.pid

/-- The entry is the socket of a process with this name, which exists and has a number from `least`
on. -/
def Live (isDirectory : List UInt8 → Bool) (procName : CString) (least : ℕ) (entry : Entry) : Prop :=
  entry.stat = .socket ∧ ∃ pid, least ≤ pid ∧ entry.dName.val = fileName procName pid ∧
    isDirectory (ascii "/proc/" ++ decimal pid) = true

/-- The loop finds a socket of a process with this name that exists, if there is one, and no other. -/
def Finds (isDirectory : List UInt8 → Bool) (procName : CString) (listing : List Entry) : Prop :=
  ((scan isDirectory procName listing).isSome ↔
    ∃ entry ∈ listing, Live isDirectory procName 1 entry) ∧
  ∀ entry, scan isDirectory procName listing = some entry → Live isDirectory procName 1 entry

/-! ### File names -/

theorem decimal_eq_digits (n : ℕ) : decimal n = digits n := rfl

theorem ofDigits_decimal (n : ℕ) : ofDigits (decimal n) = n := ofDigits_digits n

theorem isDigit_dot : isDigit 46 = false := by decide

theorem dot_notMem_decimal (n : ℕ) : (46 : UInt8) ∉ decimal n := by
  intro h
  have := isDigit_of_mem_digits h
  rw [isDigit_dot] at this
  cases this

theorem fileName_val (name : CString) (pid : ℕ) :
    fileName name pid = name.val ++ 46 :: decimal pid := by
  rw [fileName, List.append_assoc]
  rfl

/-- What comes before the last dot, and after it. -/
theorem split_at_dot {a b s t : List UInt8} (hs : (46 : UInt8) ∉ s) (ht : (46 : UInt8) ∉ t)
    (h : a ++ 46 :: s = b ++ 46 :: t) : a = b ∧ s = t := by
  have hnil : ∀ {c u v : List UInt8}, (46 : UInt8) ∉ u → 46 :: u = c ++ 46 :: v → c = [] := by
    intro c u v hu he
    cases c with
    | nil => rfl
    | cons x c =>
      obtain ⟨-, rfl⟩ := List.cons.inj he
      exact absurd (by simp) hu
  rcases List.append_eq_append_iff.mp h with ⟨c, rfl, hc⟩ | ⟨c, rfl, hc⟩
  · obtain rfl := hnil hs hc
    exact ⟨by simp, by simpa using hc⟩
  · obtain rfl := hnil ht hc
    exact ⟨by simp, by simpa using hc.symm⟩

theorem fileName_inj {name name' : CString} {pid pid' : ℕ}
    (h : fileName name pid = fileName name' pid') : name = name' ∧ pid = pid' := by
  rw [fileName_val, fileName_val] at h
  obtain ⟨hname, hpid⟩ := split_at_dot (dot_notMem_decimal pid) (dot_notMem_decimal pid') h
  refine ⟨Subtype.ext hname, ?_⟩
  rw [← ofDigits_digits pid, ← ofDigits_digits pid']
  exact congrArg ofDigits hpid

/-! ### `pid_exist` -/

theorem procPath_ofInt {n : ℕ} (h : n < 2 ^ 31) :
    procPath (BitVec.ofInt 32 (n : ℤ)) = ascii "/proc/" ++ decimal n := by
  have hval : (BitVec.ofInt 32 (n : ℤ)).toInt = n := by
    rw [BitVec.toInt_ofInt]
    exact Int.bmod_eq_of_le (by omega) (by omega)
  rw [procPath, hval, if_neg (by omega), Int.natAbs_natCast]

/-- A number is looked up. -/
theorem pidExist_digits (isDirectory : List UInt8 → Bool) {s : List UInt8} (hne : s ≠ [])
    (hs : ∀ c ∈ s, isDigit c = true) (hlt : ofDigits s < 2 ^ 31) :
    pidExist isDirectory s = isDirectory (ascii "/proc/" ++ decimal (ofDigits s)) := by
  have hv : strtol s = (((ofDigits s : ℕ) : ℤ), []) := strtol_digits hne hs (by omega)
  rw [pidExist, hv, ← procPath_ofInt hlt]
  rfl

/-- A text with a dot is no number. -/
theorem pidExist_dot (isDirectory : List UInt8 → Bool) {s : List UInt8} (h : (46 : UInt8) ∈ s) :
    pidExist isDirectory s = false := by
  have hrest := strtol_stops h (by decide) isDigit_dot (by decide) (by decide)
  rw [pidExist]
  exact if_pos hrest

/-! ### What the loop takes -/

/-- The number that the digits of `pid` after the first `k` and one more stand for. -/
def tailNumber (pid k : ℕ) : ℕ := ofDigits ((decimal pid).drop (k + 1))

/-- A socket that is taken for one of `procName`, and is not: `procName` is another name, a dot and the
first `k` digits of the number, at least three are left, and without the first of these they are the
number of a process. -/
def Stray (isDirectory : List UInt8 → Bool) (procName : CString) (entry : Entry) : Prop :=
  entry.stat = .socket ∧ ∃ (name : CString) (pid k : ℕ), entry.dName.val = fileName name pid ∧
    procName.val = name.val ++ 46 :: (decimal pid).take k ∧ k + 3 ≤ (decimal pid).length ∧
    isDirectory (ascii "/proc/" ++ decimal (tailNumber pid k)) = true

theorem takes_socket (isDirectory : List UInt8 → Bool) (procName : CString) {entry : Entry}
    (hstat : entry.stat = .socket) {e : Endpoint} (he : entry.dName.val = fileName e.name e.pid) :
    takes isDirectory procName entry = true ↔ procName.val <+: fileName e.name e.pid ∧
      procName.len + 2 < (fileName e.name e.pid).length ∧
      pidExist isDirectory ((fileName e.name e.pid).drop (procName.len + 1)) = true := by
  have hshort : ¬ socketPathLen ≤ (entryPath entry).length + 1 := by
    have hname : e.name.len + 1 ≤ 32 := Nat.succ_le_succ e.name_le
    have hlen := length_socketPath_lt hname e.pid_lt
    have hdir : (ascii "/var/tmp/").length = 9 := by decide
    have hdir' : (ascii "/var/tmp//").length = 10 := by decide
    rw [socketPath_eq, List.length_append, hdir] at hlen
    rw [entryPath, List.length_append, hdir', he, socketPathLen]
    omega
  have hlen : entry.dName.len = (fileName e.name e.pid).length := congrArg List.length he
  rw [takes, if_neg hshort, hstat]
  simp only [he, hlen, Bool.and_eq_true, decide_eq_true_eq]
  rw [CString.len, strncmp_length_eq_zero procName.property]

/-- The number after the dot is that of a process. -/
theorem pidExist_decimal (isDirectory : List UInt8 → Bool) {pid : ℕ} (h : pid < 2 ^ 31) {k : ℕ}
    (hk : k < (decimal pid).length) :
    pidExist isDirectory ((decimal pid).drop k) =
      isDirectory (ascii "/proc/" ++ decimal (ofDigits ((decimal pid).drop k))) := by
  refine pidExist_digits isDirectory ?_ (fun c hc => ?_) ?_
  · rw [Ne, List.drop_eq_nil_iff]
    omega
  · exact isDigit_of_mem_digits (List.mem_of_mem_drop hc)
  · have hle := ofDigits_drop_le (decimal pid) k
    rw [ofDigits_decimal] at hle
    omega

theorem length_fileName (name : CString) (pid : ℕ) :
    (fileName name pid).length = name.len + 1 + (decimal pid).length := by
  rw [fileName_val, List.length_append, List.length_cons, CString.len]
  omega

/-- What comes after the dot. -/
theorem drop_fileName (name : CString) (pid k : ℕ) :
    (fileName name pid).drop (name.len + 1 + k) = (decimal pid).drop k := by
  rw [fileName_val, CString.len, Nat.add_assoc, ← List.drop_drop, List.drop_left, Nat.add_comm 1 k]
  rfl

/-- What comes before it. -/
theorem take_fileName (name : CString) (pid k : ℕ) :
    (fileName name pid).take (name.len + 1 + k) = name.val ++ 46 :: (decimal pid).take k := by
  rw [fileName_val, CString.len, Nat.add_assoc, List.take_length_add_append, Nat.add_comm 1 k]
  rfl

/-- The number of a socket is looked up. -/
theorem pidExist_fileName (isDirectory : List UInt8 → Bool) (name : CString) {pid : ℕ}
    (h : pid < 2 ^ 31) :
    pidExist isDirectory ((fileName name pid).drop (name.len + 1)) =
      isDirectory (ascii "/proc/" ++ decimal pid) := by
  have hdrop := drop_fileName name pid 0
  have hexist := @pidExist_decimal isDirectory pid h 0 (List.length_pos_iff.mpr (digits_ne_nil pid))
  rw [Nat.add_zero, List.drop_zero] at hdrop
  rw [List.drop_zero, ofDigits_decimal] at hexist
  rw [hdrop, hexist]

/-- One of `procName` with two digits or more is taken. -/
theorem Live.takes_eq_true {isDirectory : List UInt8 → Bool} {procName : CString} {entry : Entry}
    (h : Live isDirectory procName 10 entry) {e : Endpoint}
    (he : entry.dName.val = fileName e.name e.pid) : takes isDirectory procName entry = true := by
  obtain ⟨hstat, pid, hpid, hname, hproc⟩ := h
  rw [takes_socket isDirectory procName hstat he, length_fileName]
  obtain ⟨rfl, rfl⟩ := fileName_inj (hname.symm.trans he)
  have hlen : 2 ≤ (decimal e.pid).length := two_le_length_digits.mpr hpid
  refine ⟨?_, by omega, ?_⟩
  · rw [fileName_val]
    exact List.prefix_append _ _
  · rw [pidExist_fileName isDirectory e.name e.pid_lt]
    exact hproc

/-- A stray one is taken. -/
theorem Stray.takes_eq_true {isDirectory : List UInt8 → Bool} {procName : CString} {entry : Entry}
    (h : Stray isDirectory procName entry) {e : Endpoint}
    (he : entry.dName.val = fileName e.name e.pid) : takes isDirectory procName entry = true := by
  obtain ⟨hstat, name, pid, k, hname, hval, hk, hproc⟩ := h
  rw [takes_socket isDirectory procName hstat he, length_fileName]
  obtain ⟨rfl, rfl⟩ := fileName_inj (hname.symm.trans he)
  have hlen : procName.len = e.name.len + 1 + k := by
    rw [CString.len, hval, List.length_append, List.length_cons, List.length_take,
      Nat.min_eq_left (by omega), CString.len]
    omega
  refine ⟨?_, by omega, ?_⟩
  · rw [hval, ← take_fileName]
    exact List.take_prefix _ _
  · rw [hlen, Nat.add_assoc, drop_fileName, pidExist_decimal isDirectory e.pid_lt (by omega)]
    exact hproc

/-- **A socket made by `cli_create` is taken** when it is one of `procName` with two digits or more,
or a stray one. -/
theorem takes_iff (isDirectory : List UInt8 → Bool) (procName : CString) {entry : Entry}
    (hstat : entry.stat = .socket) {e : Endpoint} (he : entry.dName.val = fileName e.name e.pid) :
    takes isDirectory procName entry = true ↔
      Live isDirectory procName 10 entry ∨ Stray isDirectory procName entry := by
  refine ⟨fun h => ?_, fun h => h.elim (·.takes_eq_true he) (·.takes_eq_true he)⟩
  rw [takes_socket isDirectory procName hstat he, length_fileName] at h
  obtain ⟨hbegin, hlen, hpid⟩ := h
  have hval : procName.val = (fileName e.name e.pid).take procName.len :=
    List.prefix_iff_eq_take.mp hbegin
  rcases lt_trichotomy procName.len e.name.len with hlt | heq | hgt
  · -- the name asked for is shorter: the dot is still to come
    have hdot : (46 : UInt8) ∈ (fileName e.name e.pid).drop (procName.len + 1) := by
      rw [fileName_val, List.drop_append_of_le_length hlt]
      simp
    rw [pidExist_dot isDirectory hdot] at hpid
    cases hpid
  · have hname : procName = e.name := by
      refine Subtype.ext ?_
      rw [hval, heq, fileName_val, CString.len, List.take_left]
    subst hname
    rw [pidExist_fileName isDirectory e.name e.pid_lt] at hpid
    refine Or.inl ⟨hstat, e.pid, two_le_length_digits.mp ?_, he, hpid⟩
    rw [decimal_eq_digits] at hlen
    omega
  · -- it is longer: a stray one
    obtain ⟨k, hk⟩ := Nat.exists_eq_add_of_le (Nat.succ_le_of_lt hgt)
    rw [hk] at hval hlen hpid
    rw [take_fileName] at hval
    rw [Nat.add_assoc, drop_fileName, pidExist_decimal isDirectory e.pid_lt (by omega)] at hpid
    exact Or.inr ⟨hstat, e.name, e.pid, k, he, hval, by omega, hpid⟩

/-! ### What the loop finds -/

/-- **What the loop takes** of a directory in which every socket was made by `cli_create`. -/
theorem takes_iff_of_created (isDirectory : List UInt8 → Bool) (procName : CString)
    {listing : List Entry} (hlisting : Created listing) {entry : Entry} (h : entry ∈ listing) :
    takes isDirectory procName entry = true ↔
      Live isDirectory procName 10 entry ∨ Stray isDirectory procName entry := by
  by_cases hstat : entry.stat = .socket
  · obtain ⟨e, he⟩ := hlisting entry h hstat
    exact takes_iff isDirectory procName hstat he
  · have htakes : takes isDirectory procName entry = false := by
      rw [takes]
      split_ifs
      · rfl
      · split
        · rfl
        · rfl
        · exact absurd ‹_› hstat
    rw [htakes]
    exact iff_of_false Bool.false_ne_true fun h => h.elim (hstat ·.1) (hstat ·.1)

theorem Live.mono {isDirectory : List UInt8 → Bool} {procName : CString} {m n : ℕ} {entry : Entry}
    (h : Live isDirectory procName n entry) (hmn : m ≤ n) : Live isDirectory procName m entry := by
  obtain ⟨hstat, pid, hpid, h⟩ := h
  exact ⟨hstat, pid, le_trans hmn hpid, h⟩

/-- A stray socket has another name. -/
theorem Stray.not_live {isDirectory : List UInt8 → Bool} {procName : CString} {n : ℕ} {entry : Entry}
    (h : Stray isDirectory procName entry) : ¬ Live isDirectory procName n entry := by
  rintro ⟨-, pid, -, hname, -⟩
  obtain ⟨-, name, pid', k, hname', hval, -, -⟩ := h
  obtain ⟨rfl, -⟩ := fileName_inj (hname.symm.trans hname')
  have hlen := congrArg List.length hval
  rw [List.length_append, List.length_cons] at hlen
  omega

/-- **The loop finds what it should** exactly when, if a process with the name exists, one with a number of
two digits or more does, and a stray socket comes only after one of these. -/
theorem scan_finds_iff (isDirectory : List UInt8 → Bool) (procName : CString)
    {listing : List Entry} (hlisting : Created listing) :
    Finds isDirectory procName listing ↔
      ((∃ entry ∈ listing, Live isDirectory procName 1 entry) →
        ∃ entry ∈ listing, Live isDirectory procName 10 entry) ∧
      ∀ pre entry post, listing = pre ++ entry :: post → Stray isDirectory procName entry →
        ∃ entry' ∈ pre, Live isDirectory procName 10 entry' := by
  have htakes {entry : Entry} (h : entry ∈ listing) :=
    takes_iff_of_created isDirectory procName hlisting h
  constructor
  · rintro ⟨hsome, hlive⟩
    have hfound : ∀ {entry}, scan isDirectory procName listing = some entry →
        Live isDirectory procName 10 entry := by
      intro entry h
      rcases (htakes (List.mem_of_find?_eq_some h)).mp (List.find?_some h) with h' | h'
      · exact h'
      · exact absurd (hlive entry h) h'.not_live
    refine ⟨fun h => ?_, ?_⟩
    · obtain ⟨entry, hentry⟩ := Option.isSome_iff_exists.mp (hsome.mpr h)
      exact ⟨entry, List.mem_of_find?_eq_some hentry, hfound hentry⟩
    · rintro pre entry post hsplit hstray
      have hmem : entry ∈ listing := by simp [hsplit]
      have hthis : takes isDirectory procName entry = true := (htakes hmem).mpr (Or.inr hstray)
      have hscan : scan isDirectory procName listing =
          (pre.find? (takes isDirectory procName)).or (some entry) := by
        rw [scan, hsplit, List.find?_append, List.find?_cons_of_pos hthis]
      cases hpre : pre.find? (takes isDirectory procName) with
      | none =>
        rw [hpre, Option.none_or] at hscan
        exact absurd (hlive entry hscan) hstray.not_live
      | some entry' =>
        rw [hpre, Option.some_or] at hscan
        exact ⟨entry', List.mem_of_find?_eq_some hpre, hfound hscan⟩
  · rintro ⟨hten, hfirst⟩
    have hlive : ∀ entry, scan isDirectory procName listing = some entry →
        Live isDirectory procName 1 entry := by
      intro entry h
      obtain ⟨hthis, pre, post, hsplit, hpre⟩ := List.find?_eq_some_iff_append.mp h
      rcases (htakes (List.mem_of_find?_eq_some h)).mp hthis with h' | h'
      · exact h'.mono (by decide)
      · obtain ⟨entry', hmem, h'⟩ := hfirst pre entry post hsplit h'
        have := hpre entry' hmem
        rw [(htakes (by simp [hsplit, hmem])).mpr (Or.inl h')] at this
        cases this
    refine ⟨⟨fun h => ?_, fun h => ?_⟩, hlive⟩
    · obtain ⟨entry, hentry⟩ := Option.isSome_iff_exists.mp h
      exact ⟨entry, List.mem_of_find?_eq_some hentry, hlive entry hentry⟩
    · obtain ⟨entry, hmem, h⟩ := hten h
      rw [scan, List.find?_isSome]
      exact ⟨entry, hmem, (htakes hmem).mpr (Or.inl h)⟩

/-- The process `a` with the number `pid`. -/
def endpointA (pid : ℕ) (hpos : 1 ≤ pid) (hlt : pid < 2 ^ 31) : Endpoint where
  name := ⟨[97], nul_notMem_a⟩
  name_pos := by decide
  name_le := by decide
  no_slash := by decide
  pid := pid
  pid_pos := hpos
  pid_lt := hlt

/-- A directory with the one socket `a.12`. -/
theorem scan_finds_iff_twelve :
    Finds (fun path => path == ascii "/proc/12") ⟨[97], by decide⟩
        [⟨⟨[97, 46, 49, 50], by decide⟩, .socket⟩] ↔
      ((∃ entry ∈ [(⟨⟨[97, 46, 49, 50], by decide⟩, .socket⟩ : Entry)],
          Live (fun path => path == ascii "/proc/12") ⟨[97], by decide⟩ 1 entry) →
        ∃ entry ∈ [(⟨⟨[97, 46, 49, 50], by decide⟩, .socket⟩ : Entry)],
          Live (fun path => path == ascii "/proc/12") ⟨[97], by decide⟩ 10 entry) ∧
      ∀ pre entry post, [(⟨⟨[97, 46, 49, 50], by decide⟩, .socket⟩ : Entry)] = pre ++ entry :: post →
        Stray (fun path => path == ascii "/proc/12") ⟨[97], by decide⟩ entry →
        ∃ entry' ∈ pre, Live (fun path => path == ascii "/proc/12") ⟨[97], by decide⟩ 10 entry' := by
  refine scan_finds_iff _ _ fun entry hentry _ => ?_
  rw [List.mem_singleton.mp hentry]
  exact ⟨endpointA 12 (by decide) (by decide), by decide⟩

/-- The process 5 with the name `a` is not found, and for the name `a.` the socket of the process 123 with
the name `a` is, when there is a process 23. -/
theorem not_finds :
    Created [⟨⟨[97, 46, 53], by decide⟩, .socket⟩] ∧
      ¬ Finds (fun path => path == ascii "/proc/5") ⟨[97], by decide⟩
        [⟨⟨[97, 46, 53], by decide⟩, .socket⟩] ∧
      Created [⟨⟨[97, 46, 49, 50, 51], by decide⟩, .socket⟩] ∧
      ¬ Finds (fun path => path == ascii "/proc/23") ⟨[97, 46], by decide⟩
        [⟨⟨[97, 46, 49, 50, 51], by decide⟩, .socket⟩] := by
  refine ⟨fun entry h _ => ?_, ?_, fun entry h _ => ?_, ?_⟩
  · rw [List.mem_singleton.mp h]
    exact ⟨endpointA 5 (by decide) (by decide), by decide⟩
  · rintro ⟨hsome, -⟩
    have := hsome.mpr ⟨_, List.mem_singleton_self _, rfl, 5, by decide, by decide, by decide⟩
    revert this
    decide
  · rw [List.mem_singleton.mp h]
    exact ⟨endpointA 123 (by decide) (by decide), by decide⟩
  · rintro ⟨-, hlive⟩
    refine Stray.not_live (n := 1) ?_ (hlive _ (by rfl))
    exact ⟨rfl, ⟨[97], by decide⟩, 123, 0, by decide, by decide, by decide, by decide⟩

end CcUtils.Cli
