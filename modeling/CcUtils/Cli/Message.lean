import CcUtils.Lib.Memory
import Mathlib.Data.List.Infix

/-!
# Command line requests

The request a client sends to the command server: `msg_encode` and `msg_decode` of
`cli_server.c`, the checks the client's `main` makes first, and the loop of `do_accept` that
takes the request off the connection a byte at a time.

A request is the sub-command, the argument count and the arguments, every string preceded by
its length in four bytes and followed by its NUL, and CR LF at the end. `msg_decode` finds its
way by the lengths; `do_accept` decides where the request ends by the first CR LF it sees.

## What is proved

* `msgEncode_spec`, `msgEncode_wrote` — `msg_encode` writes exactly `encoding`.
* `msgDecode_encoding` — `msg_decode` gives back what was encoded, and stops before the CR LF.
* `readRequest_body` — the loop of `do_accept` reads up to the first CR LF, so it takes the
  whole message exactly when no string of the request has CR LF in it (`hasCrlf_body`).
-/

namespace CcUtils.Cli

open CcUtils.Lib

/-- `COMMAND_MAX_ARGC`. -/
def commandMaxArgc : ℕ := 32

/-- `COMMAND_MAX_LEN`. -/
def commandMaxLen : ℕ := 32

/-- The size of the client's `buffer` and of the server's `cmd`. -/
def cmdSize : ℕ := 1024

/-- Carriage return. -/
abbrev cr : UInt8 := 13

/-- Line feed. -/
abbrev lf : UInt8 := 10

/-! ### The client -/

/-- The checks at the start of the client's `main`. -/
def mainAccepts (argv : List CString) : Bool :=
  3 ≤ argv.length && argv.length - 3 ≤ commandMaxArgc &&
    argv.all fun a => a.len + 1 ≤ commandMaxLen

/-- The loop of `msg_encode` over the arguments. -/
def msgEncodeArgs : List CString → List UInt8 → ℕ → Exec (List UInt8 × ℕ)
  | [], buf, offset => .ok (buf, offset)
  | a :: argv, buf, offset => do
    let buf ← store buf offset (le 4 (a.len + 1))
    let offset := offset + 4
    let buf ← store buf offset a.bytes
    msgEncodeArgs argv buf (offset + (a.len + 1))

/-- `msg_encode`: the buffer afterwards, and the offset returned. -/
def msgEncode (buf : List UInt8) (subCommand : CString) (argv : List CString) :
    Exec (List UInt8 × ℕ) := do
  let buf ← store buf 0 (le 4 (subCommand.len + 1))
  let offset := 4
  let buf ← store buf offset subCommand.bytes
  let offset := offset + (subCommand.len + 1)
  let buf ← store buf offset (le 4 argv.length)
  let offset := offset + 4
  let (buf, offset) ← msgEncodeArgs argv buf offset
  let buf ← store buf offset [cr]
  let buf ← store buf (offset + 1) [lf]
  .ok (buf, offset + 1 + 1)

/-- A string as it stands in the message. -/
def field (s : CString) : List UInt8 := le 4 (s.len + 1) ++ s.bytes

/-- The arguments as they stand in the message. -/
def fields (argv : List CString) : List UInt8 := argv.flatMap field

@[simp] theorem fields_nil : fields [] = [] := rfl

@[simp] theorem fields_cons (a : CString) (argv : List CString) :
    fields (a :: argv) = field a ++ fields argv := rfl

/-- The message without its CR LF. -/
def body (subCommand : CString) (argv : List CString) : List UInt8 :=
  field subCommand ++ (le 4 argv.length ++ fields argv)

/-- The message. -/
def encoding (subCommand : CString) (argv : List CString) : List UInt8 :=
  body subCommand argv ++ [cr, lf]

@[simp] theorem length_field (s : CString) : (field s).length = 4 + (s.len + 1) := by
  simp [field]

theorem msgEncodeArgs_wrote {argv : List CString} {buf buf' w : List UInt8} {offset n : ℕ}
    (hw : Wrote buf w) (ho : offset = w.length)
    (h : msgEncodeArgs argv buf offset = .ok (buf', n)) :
    Wrote buf' (w ++ fields argv) ∧ n = (w ++ fields argv).length ∧ buf'.length = buf.length := by
  induction argv generalizing buf w offset with
  | nil => cases h; simp [hw, ho]
  | cons a argv ih =>
    simp only [msgEncodeArgs, bind_eq_ok] at h
    obtain ⟨b₁, h₁, b₂, h₂, h⟩ := h
    obtain ⟨l₁, w₁, -⟩ := hw.of_store ho h₁
    obtain ⟨l₂, w₂, -⟩ := w₁.of_store (by simp [ho]) h₂
    have := ih w₂ (by simp [ho]; omega) h
    simpa [field, l₁, l₂] using this

theorem msgEncodeArgs_spec (argv : List CString) {buf w : List UInt8} (offset : ℕ)
    (hw : Wrote buf w) (ho : offset = w.length)
    (hroom : (w ++ fields argv).length ≤ buf.length) :
    ∃ buf' n, msgEncodeArgs argv buf offset = .ok (buf', n) ∧ buf'.length = buf.length := by
  induction argv generalizing buf w offset with
  | nil => exact ⟨buf, offset, rfl, rfl⟩
  | cons a argv ih =>
    simp only [fields_cons, List.length_append, length_field] at hroom
    obtain ⟨b₁, h₁, l₁, w₁⟩ := hw.store offset (le 4 (a.len + 1)) ho (by simp [ho]; omega)
    obtain ⟨b₂, h₂, l₂, w₂⟩ := w₁.store (offset + 4) a.bytes (by simp [ho])
      (by simp [ho, l₁]; omega)
    obtain ⟨buf', n, h, l⟩ := ih (offset + 4 + (a.len + 1)) w₂ (by simp [ho]; omega)
      (by simp [l₁, l₂]; omega)
    exact ⟨buf', n, by simp [msgEncodeArgs, h₁, h₂, h], by rw [l, l₂, l₁]⟩

/-- When `msg_encode` returns, it has written the message and returns its length. -/
theorem msgEncode_wrote {buf buf' : List UInt8} {subCommand : CString} {argv : List CString}
    {n : ℕ} (h : msgEncode buf subCommand argv = .ok (buf', n)) :
    Wrote buf' (encoding subCommand argv) ∧ n = (encoding subCommand argv).length ∧
      buf'.length = buf.length := by
  simp only [msgEncode, bind_eq_ok, Prod.exists] at h
  obtain ⟨b₁, h₁, b₂, h₂, b₃, h₃, b₄, m, h₄, b₅, h₅, b₆, h₆, h⟩ := h
  have w₀ : Wrote buf [] := List.nil_prefix
  obtain ⟨l₁, w₁, -⟩ := w₀.of_store rfl h₁
  obtain ⟨l₂, w₂, -⟩ := w₁.of_store (by simp) h₂
  obtain ⟨l₃, w₃, -⟩ := w₂.of_store (by simp) h₃
  obtain ⟨w₄, hm, l₄⟩ := msgEncodeArgs_wrote w₃ (by simp; omega) h₄
  obtain ⟨l₅, w₅, -⟩ := w₄.of_store hm h₅
  obtain ⟨l₆, w₆, -⟩ := w₅.of_store (by rw [List.length_append, ← hm]; rfl) h₆
  cases h
  have he : ([] ++ le 4 (subCommand.len + 1) ++ subCommand.bytes ++ le 4 argv.length ++
      fields argv ++ [cr] ++ [lf]) = encoding subCommand argv := by
    simp [encoding, body, field]
  rw [he] at w₆
  have hn : m + 1 + 1 = (encoding subCommand argv).length := by
    rw [← he, List.length_append, List.length_append, ← hm]; rfl
  exact ⟨w₆, hn, by rw [l₆, l₅, l₄, l₃, l₂, l₁]⟩

/-- With room for the message, `msg_encode` returns. -/
theorem msgEncode_spec (buf : List UInt8) (subCommand : CString) (argv : List CString)
    (hroom : (encoding subCommand argv).length ≤ buf.length) :
    ∃ buf' n, msgEncode buf subCommand argv = .ok (buf', n) := by
  have hlen : (encoding subCommand argv).length =
      4 + (subCommand.len + 1) + 4 + (fields argv).length + 1 + 1 := by
    simp [encoding, body]; omega
  rw [hlen] at hroom
  have w₀ : Wrote buf [] := List.nil_prefix
  obtain ⟨b₁, h₁, l₁, w₁⟩ := w₀.store 0 (le 4 (subCommand.len + 1)) rfl (by simp; omega)
  obtain ⟨b₂, h₂, l₂, w₂⟩ := w₁.store 4 subCommand.bytes (by simp)
    (by simp [l₁]; omega)
  obtain ⟨b₃, h₃, l₃, w₃⟩ := w₂.store (4 + (subCommand.len + 1)) (le 4 argv.length)
    (by simp) (by simp [l₂, l₁]; omega)
  obtain ⟨b₄, n, h₄, l₄⟩ := msgEncodeArgs_spec argv (4 + (subCommand.len + 1) + 4) w₃
    (by simp; omega) (by simp [l₃, l₂, l₁]; omega)
  obtain ⟨w₄, hn, -⟩ := msgEncodeArgs_wrote w₃ (by simp; omega) h₄
  have hn' : n = 4 + (subCommand.len + 1) + 4 + (fields argv).length := by simp [hn]; omega
  obtain ⟨b₅, h₅, l₅, w₅⟩ := w₄.store n [cr] hn (by simp [l₄, l₃, l₂, l₁]; omega)
  obtain ⟨b₆, h₆, -, -⟩ := w₅.store (n + 1) [lf]
    (by rw [List.length_append, ← hn]; rfl) (by simp [l₅, l₄, l₃, l₂, l₁]; omega)
  exact ⟨b₆, n + 1 + 1, by simp [msgEncode, h₁, h₂, h₃, h₄, h₅, h₆]⟩

/-! ### The server: decoding -/

/-- What `msg_decode` gives back: pointers into the buffer, the argument count, and the offset
it returns. -/
structure Decoded where
  /-- `*sub_command`. -/
  subCommand : ℕ
  /-- `*argc`. -/
  argc : ℕ
  /-- The entries of `argv` it has set. -/
  argv : List ℕ
  /-- The value returned. -/
  offset : ℕ

/-- A four byte length or count read by `msg_decode`. -/
def loadU32 (buf : List UInt8) (offset : ℕ) : Exec ℕ := (load buf offset 4).map ofLe

/-- The loop of `msg_decode` over the arguments still to come. -/
def msgDecodeArgs (buf : List UInt8) : ℕ → ℕ → Exec (List ℕ × ℕ)
  | 0, offset => .ok ([], offset)
  | n + 1, offset => do
    let argLen ← loadU32 buf offset
    check (argLen ≤ commandMaxLen) .assertFail
    let offset := offset + 4
    let (argv, stop) ← msgDecodeArgs buf n (offset + argLen)
    .ok (offset :: argv, stop)

/-- `msg_decode`. -/
def msgDecode (buf : List UInt8) : Exec Decoded := do
  let subcommandLen ← loadU32 buf 0
  let offset := 4
  check (subcommandLen ≤ commandMaxLen) .assertFail
  let subCommand := offset
  let offset := offset + subcommandLen
  let decodeArgc ← loadU32 buf offset
  let offset := offset + 4
  check (decodeArgc ≤ commandMaxLen) .assertFail
  let (argv, offset) ← msgDecodeArgs buf decodeArgc offset
  .ok ⟨subCommand, decodeArgc, argv, offset⟩

/-- The string a pointer into the buffer points to. -/
def stringAt (buf : List UInt8) (p : ℕ) : Exec (List UInt8) := cstr (buf.drop p)

theorem loadU32_append (pre post : List UInt8) {off v : ℕ} (ho : off = pre.length)
    (hv : v < 2 ^ 32) : loadU32 (pre ++ (le 4 v ++ post)) off = .ok v := by
  rw [loadU32, load_append pre _ post ho (by simp)]
  exact congrArg Except.ok (ofLe_le (by simpa using hv))

theorem stringAt_append (pre : List UInt8) (s : CString) (post : List UInt8) {p : ℕ}
    (hp : p = pre.length) : stringAt (pre ++ (s.bytes ++ post)) p = .ok s.val := by
  subst hp
  rw [stringAt, List.drop_left, cstr_append]

/-- The strings the client accepts have lengths that fit. -/
abbrev Short (s : CString) : Prop := s.len + 1 ≤ commandMaxLen

theorem Short.lt {s : CString} (h : Short s) : s.len + 1 < 2 ^ 32 :=
  lt_of_le_of_lt h (by decide)

/-- The loop of `msg_decode` on encoded arguments: the pointers are to the strings, and the
offset has moved past them. -/
theorem msgDecodeArgs_fields {argv : List CString} (hs : ∀ a ∈ argv, Short a)
    (pre post : List UInt8) (offset : ℕ) (ho : offset = pre.length) :
    ∃ ps, msgDecodeArgs (pre ++ (fields argv ++ post)) argv.length offset =
        .ok (ps, (pre ++ fields argv).length) ∧
      ps.map (stringAt (pre ++ (fields argv ++ post))) =
        argv.map (fun a => Except.ok a.val) := by
  induction argv generalizing pre offset with
  | nil => exact ⟨[], by simp [msgDecodeArgs, ho], rfl⟩
  | cons a argv ih =>
    have ha := hs a (by simp)
    have hbuf : pre ++ (fields (a :: argv) ++ post) =
        pre ++ field a ++ (fields argv ++ post) := by simp
    obtain ⟨ps, hd, hm⟩ := ih (fun b hb => hs b (by simp [hb])) (pre ++ field a)
      (offset + 4 + (a.len + 1)) (by simp [ho]; omega)
    have hload : loadU32 (pre ++ (fields (a :: argv) ++ post)) offset = .ok (a.len + 1) := by
      rw [hbuf, field, List.append_assoc, List.append_assoc]
      exact loadU32_append pre _ ho ha.lt
    have hstr : stringAt (pre ++ (fields (a :: argv) ++ post)) (offset + 4) = .ok a.val := by
      rw [hbuf, field, ← List.append_assoc pre, List.append_assoc (pre ++ _)]
      exact stringAt_append _ a _ (by simp [ho])
    refine ⟨(offset + 4) :: ps, ?_, ?_⟩
    · simp only [List.length_cons, msgDecodeArgs, hload, ok_bind, check_true ha]
      rw [hbuf, hd]
      simp
    · rw [List.map_cons, List.map_cons, hstr, hbuf, hm]

/-- **`msg_decode` undoes `msg_encode`**, whatever follows the message in the buffer. -/
theorem msgDecode_encoding {subCommand : CString} {argv : List CString} (hsub : Short subCommand)
    (hargc : argv.length ≤ commandMaxArgc) (hs : ∀ a ∈ argv, Short a) (post : List UInt8) :
    ∃ d, msgDecode (encoding subCommand argv ++ post) = .ok d ∧
      stringAt (encoding subCommand argv ++ post) d.subCommand = .ok subCommand.val ∧
      d.argc = argv.length ∧
      d.argv.map (stringAt (encoding subCommand argv ++ post)) =
        argv.map (fun a => Except.ok a.val) ∧
      d.offset = (body subCommand argv).length := by
  have hbuf : encoding subCommand argv ++ post = (field subCommand ++ le 4 argv.length) ++
      (fields argv ++ ([cr, lf] ++ post)) := by
    simp [encoding, body]
  obtain ⟨ps, hd, hm⟩ := msgDecodeArgs_fields hs (field subCommand ++ le 4 argv.length)
    ([cr, lf] ++ post) (4 + (subCommand.len + 1) + 4) (by simp)
  have hlen : loadU32 (encoding subCommand argv ++ post) 0 = .ok (subCommand.len + 1) := by
    rw [hbuf, field, List.append_assoc, List.append_assoc]
    exact loadU32_append [] _ rfl hsub.lt
  have hcnt : loadU32 (encoding subCommand argv ++ post) (4 + (subCommand.len + 1)) =
      .ok argv.length := by
    rw [hbuf, List.append_assoc]
    exact loadU32_append _ _ (by simp) (lt_of_le_of_lt hargc (by decide))
  have hstr : stringAt (encoding subCommand argv ++ post) 4 = .ok subCommand.val := by
    rw [hbuf, field, List.append_assoc, List.append_assoc]
    exact stringAt_append _ subCommand _ (by simp)
  refine ⟨⟨4, argv.length, ps, (field subCommand ++ le 4 argv.length ++ fields argv).length⟩,
    ?_, hstr, rfl, ?_, ?_⟩
  · simp only [msgDecode, hlen, ok_bind, check_true hsub, hcnt,
      check_true (show argv.length ≤ commandMaxLen from hargc)]
    rw [hbuf, hd]
    rfl
  · rw [hbuf]; exact hm
  · simp [body]

/-! ### The server: framing -/

/-- How the reading loop of `do_accept` ends. -/
inductive Framed where
  /-- At CR LF: what is in `cmd`, and what is left on the connection. -/
  | frame (cmd rest : List UInt8)
  /-- The client has closed the connection. -/
  | closed
  /-- "request too long". -/
  | tooLong
  deriving DecidableEq

/-- The reading loop of `do_accept`: `cmd` holds what has been read, so `pos` is its length, and
`safe_read` takes the next byte of the connection. -/
def readRequest (cmd : List UInt8) : List UInt8 → Framed
  | [] => .closed
  | b :: conn =>
    if 0 < cmd.length ∧ b = lf ∧ cmd.getLast? = some cr then .frame (cmd ++ [b]) conn
    else if cmdSize ≤ cmd.length + 1 then .tooLong
    else readRequest (cmd ++ [b]) conn

/-- CR LF occurs in `s`, the byte before `s` being `prev`. -/
def hasCrlf (prev : Option UInt8) : List UInt8 → Bool
  | [] => false
  | b :: s => (b = lf && prev = some cr) || hasCrlf (some b) s

theorem hasCrlf_append (prev : Option UInt8) (s t : List UInt8) :
    hasCrlf prev (s ++ t) = (hasCrlf prev s || hasCrlf (s.getLast?.or prev) t) := by
  induction s generalizing prev with
  | nil => simp [hasCrlf]
  | cons b s ih =>
    simp only [List.cons_append, hasCrlf, ih, Bool.or_assoc]
    cases s with
    | nil => simp
    | cons c s => simp [List.getLast?_eq_some_getLast]

/-- After a byte other than CR, nothing before matters. -/
theorem hasCrlf_of_ne {p : UInt8} (h : p ≠ cr) (s : List UInt8) :
    hasCrlf (some p) s = hasCrlf none s := by
  cases s with
  | nil => rfl
  | cons b s => simp [hasCrlf, h]

theorem hasCrlf_iff (s : List UInt8) : hasCrlf none s = true ↔ [cr, lf] <:+: s := by
  induction s with
  | nil => simp [hasCrlf]
  | cons b s ih =>
    rw [List.infix_cons_iff, ← ih]
    cases s with
    | nil => simp [hasCrlf]
    | cons c s =>
      by_cases hb : b = cr
      · by_cases hc : c = lf
        · simp [hasCrlf, hb, hc]
        · simp [hasCrlf, hb, hc, eq_comm (a := lf)]
      · rw [hasCrlf, hasCrlf_of_ne hb]
        simp [eq_comm (a := cr), hb]

/-- **The loop reads up to the first CR LF**: if there is none before the last two bytes, it
takes the whole message; if there is one, it stops with part of the message unread. -/
theorem readRequest_body (cmd s : List UInt8) (hroom : cmd.length + s.length + 2 ≤ cmdSize) :
    (hasCrlf cmd.getLast? s = false →
      readRequest cmd (s ++ [cr, lf]) = .frame (cmd ++ (s ++ [cr, lf])) []) ∧
    (hasCrlf cmd.getLast? s = true →
      ∃ pre b post, readRequest cmd (s ++ [cr, lf]) = .frame pre (b :: post)) := by
  induction s generalizing cmd with
  | nil =>
    refine ⟨fun _ => ?_, fun h => by simp [hasCrlf] at h⟩
    have hc : ¬ cmdSize ≤ cmd.length + 1 := by simp at hroom; omega
    simp [readRequest, hc, show ¬ cr = lf by decide]
  | cons b s ih =>
    have hc : ¬ cmdSize ≤ cmd.length + 1 := by simp at hroom; omega
    by_cases hb : 0 < cmd.length ∧ b = lf ∧ cmd.getLast? = some cr
    · refine ⟨fun h => ?_, fun _ => ?_⟩
      · simp [hasCrlf, hb.2.1, hb.2.2] at h
      · rw [List.cons_append, readRequest, if_pos hb]
        cases s with
        | nil => exact ⟨_, _, _, rfl⟩
        | cons c s => exact ⟨_, _, _, rfl⟩
    · have hstep : readRequest cmd (b :: s ++ [cr, lf]) =
          readRequest (cmd ++ [b]) (s ++ [cr, lf]) := by
        rw [List.cons_append, readRequest, if_neg hb, if_neg hc]
      have hscan : hasCrlf cmd.getLast? (b :: s) = hasCrlf (cmd ++ [b]).getLast? s := by
        have hb' : ¬ (b = lf ∧ cmd.getLast? = some cr) := fun ⟨h1, h2⟩ =>
          hb ⟨List.length_pos_iff.mpr (by rintro rfl; simp at h2), h1, h2⟩
        rw [hasCrlf, List.getLast?_concat]
        simp only [Bool.or_eq_right_iff_imp, Bool.and_eq_true, decide_eq_true_eq]
        exact fun h => absurd h hb'
      rw [hstep, hscan]
      simpa using ih (cmd ++ [b]) (by simp at hroom ⊢; omega)

/-! ### Where CR LF can come from -/

/-- A string and its NUL: CR LF in it is CR LF in the string. -/
theorem hasCrlf_bytes (s : CString) (t : List UInt8) :
    hasCrlf (some 0) (s.bytes ++ t) = (hasCrlf none s.val || hasCrlf (some 0) t) := by
  have h0 : hasCrlf (s.val.getLast?.or (some 0)) (0 :: t) = hasCrlf (some 0) t := by
    simp [hasCrlf, show ¬ (0 : UInt8) = lf by decide]
  rw [CString.bytes, List.append_assoc, hasCrlf_append, List.singleton_append, h0,
    hasCrlf_of_ne (by decide)]

/-- Four bytes of a small number have no LF with a CR before it. -/
theorem hasCrlf_le4 {n : ℕ} (hn : n ≤ commandMaxLen) {prev : Option UInt8} (hp : prev ≠ some cr)
    (t : List UInt8) : hasCrlf prev (le 4 n ++ t) = hasCrlf (some 0) t := by
  have h1 : n / 256 = 0 := Nat.div_eq_of_lt (lt_of_le_of_lt hn (by decide))
  simp [le, h1, hasCrlf, hp, show ¬ (0 : UInt8) = lf by decide]

theorem hasCrlf_field {s : CString} (hs : Short s) {prev : Option UInt8} (hp : prev ≠ some cr)
    (t : List UInt8) :
    hasCrlf prev (field s ++ t) = (hasCrlf none s.val || hasCrlf (some 0) t) := by
  rw [field, List.append_assoc, hasCrlf_le4 hs hp, hasCrlf_bytes]

theorem hasCrlf_fields {argv : List CString} (hs : ∀ a ∈ argv, Short a) :
    hasCrlf (some 0) (fields argv) = argv.any fun a => hasCrlf none a.val := by
  induction argv with
  | nil => rfl
  | cons a argv ih =>
    rw [fields_cons, hasCrlf_field (hs a (by simp)) (by decide),
      ih fun b hb => hs b (by simp [hb]), List.any_cons]

/-- **CR LF before the end of the message is CR LF inside one of its strings**: lengths, the
count and the borders between the fields contribute none. -/
theorem hasCrlf_body {subCommand : CString} {argv : List CString} (hsub : Short subCommand)
    (hargc : argv.length ≤ commandMaxArgc) (hs : ∀ a ∈ argv, Short a) :
    hasCrlf none (body subCommand argv) = true ↔
      ∃ s ∈ subCommand :: argv, [cr, lf] <:+: s.val := by
  rw [body, hasCrlf_field hsub (by decide), hasCrlf_le4 (show argv.length ≤ commandMaxLen from hargc)
    (by decide), hasCrlf_fields hs]
  simp [hasCrlf_iff]

/-! ### The round trip, and the whole message -/

/-- **`msg_decode` gives back what `msg_encode` encoded**: the same sub-command, argument count
and argument strings, without a failed assertion, having gone over all but the CR LF. -/
theorem msgDecode_msgEncode {buf : List UInt8} {subCommand : CString} {argv : List CString}
    (hsub : Short subCommand) (hargc : argv.length ≤ commandMaxArgc) (hs : ∀ a ∈ argv, Short a)
    (hroom : (encoding subCommand argv).length ≤ buf.length) :
    ∃ buf' n d, msgEncode buf subCommand argv = .ok (buf', n) ∧ msgDecode buf' = .ok d ∧
      stringAt buf' d.subCommand = .ok subCommand.val ∧ d.argc = argv.length ∧
      d.argv.map (stringAt buf') = argv.map (fun a => Except.ok a.val) ∧ n = d.offset + 2 := by
  obtain ⟨buf', n, henc⟩ := msgEncode_spec buf subCommand argv hroom
  obtain ⟨⟨post, rfl⟩, hn, -⟩ := msgEncode_wrote henc
  obtain ⟨d, hd, hstr, hc, hm, ho⟩ := msgDecode_encoding hsub hargc hs post
  refine ⟨_, n, d, henc, hd, hstr, hc, hm, ?_⟩
  rw [hn, encoding, List.length_append, ho]
  rfl

/-- The request `test` with the arguments `ab` and the empty string. -/
theorem msgDecode_msgEncode_test :
    ∃ buf' n d, msgEncode (List.replicate 64 0xaa) ⟨[116, 101, 115, 116], by decide⟩
        [⟨[97, 98], by decide⟩, ⟨[], by decide⟩] = .ok (buf', n) ∧ msgDecode buf' = .ok d ∧
      stringAt buf' d.subCommand = .ok [116, 101, 115, 116] ∧ d.argc = 2 ∧
      d.argv.map (stringAt buf') = [.ok [97, 98], .ok []] ∧ n = d.offset + 2 :=
  msgDecode_msgEncode (by decide) (by decide) (by decide) (by decide)

/-- What the client's checks say of the strings it encodes. -/
theorem short_of_mainAccepts {prog procName subCommand : CString} {argv : List CString}
    (h : mainAccepts (prog :: procName :: subCommand :: argv) = true) :
    Short subCommand ∧ argv.length ≤ commandMaxArgc ∧ ∀ a ∈ argv, Short a := by
  simp only [mainAccepts, List.length_cons, Bool.and_eq_true, decide_eq_true_eq, List.all_eq_true,
    List.mem_cons] at h
  obtain ⟨⟨-, hargc⟩, hall⟩ := h
  exact ⟨hall _ (by simp), by simpa using hargc, fun a ha => hall a (by simp [ha])⟩

/-- The loop takes the whole of an encoded message exactly when no string in it has CR LF. -/
theorem readRequest_encoding_iff {subCommand : CString} {argv : List CString}
    (hsub : Short subCommand) (hargc : argv.length ≤ commandMaxArgc) (hs : ∀ a ∈ argv, Short a)
    (hfit : (encoding subCommand argv).length ≤ cmdSize) :
    readRequest [] (encoding subCommand argv) = .frame (encoding subCommand argv) [] ↔
      ∀ s ∈ subCommand :: argv, ¬ [cr, lf] <:+: s.val := by
  have hroom : ([] : List UInt8).length + (body subCommand argv).length + 2 ≤ cmdSize := by
    simpa [encoding] using hfit
  obtain ⟨hwhole, hcut⟩ := readRequest_body [] (body subCommand argv) hroom
  have hbody := hasCrlf_body hsub hargc hs
  constructor
  · intro h s hs hin
    obtain ⟨pre, b, post, hp⟩ := hcut (hbody.mpr ⟨s, hs, hin⟩)
    rw [encoding, hp] at h
    simp at h
  · intro h
    refine hwhole (Bool.eq_false_iff.mpr fun hc => ?_)
    obtain ⟨s, hs, hin⟩ := hbody.mp hc
    exact h s hs hin

/-- **The server takes the whole message** the client encodes exactly when no string in it has
CR LF: for a request that passes the client's checks and fits the buffers. -/
theorem readRequest_msgEncode_iff {buffer buffer' : List UInt8} (prog procName : CString)
    {subCommand : CString} {argv : List CString} {n : ℕ}
    (hbuf : buffer.length = cmdSize)
    (hacc : mainAccepts (prog :: procName :: subCommand :: argv) = true)
    (henc : msgEncode buffer subCommand argv = .ok (buffer', n)) :
    readRequest [] (buffer'.take n) = .frame (buffer'.take n) [] ↔
      ∀ s ∈ subCommand :: argv, ¬ [cr, lf] <:+: s.val := by
  obtain ⟨hsub, hargc, hs⟩ := short_of_mainAccepts hacc
  obtain ⟨hw, rfl, hlen⟩ := msgEncode_wrote henc
  have hfit : (encoding subCommand argv).length ≤ cmdSize := by
    rw [← hbuf, ← hlen]
    exact hw.length_le
  rw [hw.take]
  exact readRequest_encoding_iff hsub hargc hs hfit

/-- The request `test` with the argument `a b` fits and is taken whole. -/
theorem readRequest_msgEncode_iff_test :
    ∃ buffer' n, msgEncode (List.replicate cmdSize 0) ⟨[116, 101, 115, 116], by decide⟩
        [⟨[97, 32, 98], by decide⟩] = .ok (buffer', n) ∧
      (readRequest [] (buffer'.take n) = .frame (buffer'.take n) [] ↔
        ∀ s ∈ [(⟨[116, 101, 115, 116], by decide⟩ : CString), ⟨[97, 32, 98], by decide⟩],
          ¬ [cr, lf] <:+: s.val) := by
  obtain ⟨buffer', n, henc⟩ := msgEncode_spec (List.replicate cmdSize 0)
    ⟨[116, 101, 115, 116], by decide⟩ [⟨[97, 32, 98], by decide⟩]
    (by rw [List.length_replicate]; decide)
  exact ⟨buffer', n, henc, readRequest_msgEncode_iff ⟨[119], by decide⟩
    ⟨[112], by decide⟩ (List.length_replicate ..) (by decide) henc⟩

/-- The argument `a CR LF b` passes the client's checks and cuts the request `test` in two: the
server decodes the first half, in which the argument has no end. -/
theorem readRequest_cut :
    mainAccepts [⟨[119], by decide⟩, ⟨[112], by decide⟩, ⟨[116, 101, 115, 116], by decide⟩,
        ⟨[97, 13, 10, 98], by decide⟩] = true ∧
      ∃ buffer' n, msgEncode (List.replicate cmdSize 0) ⟨[116, 101, 115, 116], by decide⟩
          [⟨[97, 13, 10, 98], by decide⟩] = .ok (buffer', n) ∧ n = 24 ∧
        readRequest [] (buffer'.take n) =
          .frame [5, 0, 0, 0, 116, 101, 115, 116, 0, 1, 0, 0, 0, 5, 0, 0, 0, 97, 13, 10]
            [98, 0, 13, 10] ∧
        readRequest [] (buffer'.take n) ≠ .frame (buffer'.take n) [] := by
  refine ⟨by decide, ?_⟩
  obtain ⟨buffer', n, henc⟩ := msgEncode_spec (List.replicate cmdSize 0)
    ⟨[116, 101, 115, 116], by decide⟩ [⟨[97, 13, 10, 98], by decide⟩]
    (by rw [List.length_replicate]; decide)
  obtain ⟨hw, rfl, -⟩ := msgEncode_wrote henc
  refine ⟨buffer', _, henc, by decide, ?_⟩
  rw [hw.take]
  decide

end CcUtils.Cli
