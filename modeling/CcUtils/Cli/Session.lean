import CcUtils.Cli.Commands
import CcUtils.Cli.Receive
import Mathlib.Data.List.TakeWhile

/-!
# Sessions

What the command line is for: a program registers commands, and whoever calls the client with the name of
the program, a command and its arguments sees what the command prints. A session is one run of the client
that has found its server: it encodes and sends the request, the thread of the server reads and decodes it,
executes the command and sends what was printed, and the client waits for that, receives and prints it.

A history is any sequence of registrations and sessions with a server that `cli_create` has made. The network
takes as much of a `write` as it likes, and interrupts a `read` as often as it likes; `select` may fail, or let
the client wait in vain.

## What is proved

* `safeWrite_takes` — what short writes deliver.
* `prints_request` — the calls of `cdp_print` for a request are those of the command named, on its arguments.
* `created_ready` — what `cli_create` makes of a process is a server.
* `Visit.run_answers` — one session.
* `sessions_answer` — every history.
-/

namespace CcUtils.Cli

open CcUtils.Lib
open CcUtils.Binlog (ascii decimal)

/-! ### Commands -/

/-- The string behind a pointer of `argv`; beyond the buffer, where anything may happen, none. -/
def argument (cmd : List UInt8) (p : ℕ) : List UInt8 :=
  match stringAt cmd p with
  | .ok s => s
  | .error _ => []

/-- A command to register. What it prints depends on its arguments and, for `help`, on the names and helps in
the table. -/
structure Subcommand where
  name : CString
  help : CString
  execute : List (Option (List UInt8) × List UInt8) → List (List UInt8) → List Print

/-- `CMD_PRINTLN`; `junk` is what `realloc` may add to the buffer. -/
def println (junk : ℕ → UInt8) (text : List UInt8) : Print := ⟨some (text ++ [lf]), junk⟩

/-- `cmd_test`. -/
def cmdTest (junk : ℕ → UInt8) (argv : List (List UInt8)) : List Print :=
  println junk (ascii "argc: " ++ decimal argv.length) ::
    argv.mapIdx fun i arg => println junk (ascii "argv[" ++ decimal i ++ ascii "] = " ++ arg)

/-- `cmd_help`, on the slots of the table that have a handler. -/
def cmdHelp (junk : ℕ → UInt8) (table : List (Option (List UInt8) × List UInt8)) : List Print :=
  println junk (ascii "register subcomand:") ::
    table.map fun c => println junk (ascii "  " ++ c.1.getD (ascii "(null)") ++ ascii "\t" ++ c.2)

/-- The command `help`. -/
def helpCommand (junk : ℕ → UInt8) : Subcommand :=
  ⟨⟨ascii "help", by decide +kernel⟩, ⟨ascii "help for subcommand details", by decide +kernel⟩,
    fun table _ => cmdHelp junk table⟩

/-- The command `test`. -/
def testCommand (junk : ℕ → UInt8) : Subcommand :=
  ⟨⟨ascii "test", by decide +kernel⟩, ⟨ascii "test command input arguments", by decide +kernel⟩,
    fun _ argv => cmdTest junk argv⟩

/-- The commands that `cli_create` registers. -/
def builtins (junk : ℕ → UInt8) : List Subcommand := [helpCommand junk, testCommand junk]

/-- The arguments for `cli_register`. -/
def Subcommand.registration (c : Subcommand) : Registration :=
  ⟨c.name, c.help.val, fun table cmd argv => c.execute table (argv.map (argument cmd))⟩

/-- The handlers of the commands that `cli_create` registers. -/
def handlers (junk : ℕ → UInt8) : Builtins :=
  ⟨(helpCommand junk).registration.execute, (testCommand junk).registration.execute⟩

/-! ### The network -/

/-- Reads that bring these bytes, each after some interruptions. -/
def interrupted : List ℕ → List UInt8 → List ReadResult
  | gaps, [] => List.replicate (gaps.headD 0) (.fails eIntr)
  | gaps, b :: bs => List.replicate (gaps.headD 0) (.fails eIntr) ++ .byte b :: interrupted gaps.tail bs

theorem serves_interruptions {conn : List ReadResult} {r : List UInt8} (h : Serves conn r) (n : ℕ) :
    Serves (List.replicate n (.fails eIntr) ++ conn) r := by
  induction n with
  | zero => exact h
  | succ n ih => exact .interrupted ih

theorem serves_interrupted (gaps : List ℕ) (bs : List UInt8) : Serves (interrupted gaps bs) bs := by
  induction bs generalizing gaps with
  | nil =>
    rw [interrupted, ← List.append_nil (List.replicate _ _)]
    exact serves_interruptions .nil _
  | cons b bs ih => exact serves_interruptions (.byte b (ih _)) _

theorem Serves.received {conn : List ReadResult} {r : List UInt8} (h : Serves conn r) :
    received conn = r := by
  induction h with
  | nil => rfl
  | interrupted _ ih => rw [CcUtils.Cli.received, if_pos rfl, ih]
  | byte b _ ih => rw [CcUtils.Cli.received, ih]

/-- The calls of `write` take some bytes each, until all `len` are taken. -/
def Takes (len : ℕ) (results : List WriteResult) : Prop :=
  ∃ ns post, results = ns.map WriteResult.takes ++ post ∧ ns ≠ [] ∧ len ≤ ns.sum

/-- **Short writes** deliver the buffer. -/
theorem safeWrite_takes (mem : ℤ → UInt8) {len : ℕ} {results : List WriteResult}
    (hlen : (len : ℤ) ≤ intMax) (h : Takes len results) (b : ℤ) :
    (safeWrite b len results).ret = .ok 0 ∧
      accepted mem (safeWrite b len results).calls = span mem b len := by
  obtain ⟨ns, post, rfl, hne, hsum⟩ := h
  induction ns generalizing b len with
  | nil => exact absurd rfl hne
  | cons n ns ih =>
    have hres : (WriteResult.takes n).res len = (min n len : ℕ) := by
      rw [WriteResult.res, Int.toNat_natCast]
      omega
    have hfatal : (WriteResult.takes n).fatal = none := rfl
    have hfits : ¬ intMax < (len : ℤ) - (min n len : ℕ) := by omega
    rw [List.map_cons, List.cons_append]
    simp only [safeWrite, hfatal, hres, if_neg hfits, Int.toNat_natCast]
    rcases Nat.lt_or_ge n len with hn | hn
    · have hmin : min n len = n := Nat.min_eq_left hn.le
      have hsub : (len : ℤ) - n = (len - n : ℕ) := by omega
      rw [List.sum_cons] at hsum
      have hrest : ns ≠ [] := by
        rintro rfl
        rw [List.sum_nil] at hsum
        omega
      rw [hmin, if_neg (by omega), hsub]
      have hleft : ((len - n : ℕ) : ℤ) ≤ intMax := by omega
      obtain ⟨hret, hnext⟩ := ih hleft (b + n) hrest (by omega)
      refine ⟨hret, ?_⟩
      rw [WriteRun.after, accepted, List.flatMap_cons, ← accepted, hnext, ← span_add, Nat.add_sub_cancel' hn.le]
    · have hmin : min n len = len := Nat.min_eq_right hn
      rw [hmin, if_pos (by omega)]
      exact ⟨rfl, List.append_nil _⟩

/-! ### What a command prints -/

/-- The calls of `cdp_print` that a request should come to. -/
def printsOf (subs : List Subcommand) (subCommand : CString) (argv : List CString) : List Print :=
  match subs.find? fun c => c.name = subCommand with
  | none => []
  | some c => c.execute (subs.map fun c => (some c.name.val, c.help.val)) (argv.map Subtype.val)

/-- The answer to it. -/
def answer (subs : List Subcommand) (subCommand : CString) (argv : List CString) : List UInt8 :=
  replyOf (printsOf subs subCommand argv)

/-- A short string compares equal to no other, whichever of the two is the shorter one. -/
theorem strncmp_short {s t : CString} (ht : Short t) :
    strncmp commandMaxLen s.val t.val = 0 ↔ s = t := by
  have hlt : t.val.length < commandMaxLen := ht
  have hback := strncmp_eq_zero t.property s.property hlt
  have h₁ := strncmp_swap commandMaxLen s.val t.val
  have h₂ := strncmp_swap commandMaxLen t.val s.val
  rw [Subtype.ext_iff, eq_comm (a := s.val), ← hback]
  omega

/-- The command found is the one with the name. -/
theorem commandFind_subs (subs : List Subcommand) {subCommand : CString} (h : Short subCommand) :
    commandFind (tableOf (subs.map Subcommand.registration)) subCommand.val =
      (subs.find? fun c => c.name = subCommand).map fun c => c.registration.command := by
  have hname : (fun c : Subcommand => decide
      (strncmp commandMaxLen c.registration.subCommand.val subCommand.val = 0)) =
      fun c => decide (c.name = subCommand) :=
    funext fun c => decide_eq_decide.mpr (strncmp_short h)
  rw [commandFind_table, List.find?_map, Option.map_map]
  exact congrArg (fun p => (subs.find? p).map _) hname

theorem argument_of_stringAt {cmd : List UInt8} {ps : List ℕ} {argv : List CString}
    (h : ps.map (stringAt cmd) = argv.map fun a => Except.ok a.val) :
    ps.map (argument cmd) = argv.map Subtype.val := by
  have hmap : ∀ p, argument cmd p = match stringAt cmd p with
      | .ok s => s
      | .error _ => [] := fun _ => rfl
  have hps : ps.map (argument cmd) = (ps.map (stringAt cmd)).map fun r => match r with
      | .ok s => s
      | .error _ => [] := by
    rw [List.map_map]
    exact List.map_congr_left fun p _ => hmap p
  rw [hps, h, List.map_map]
  rfl

/-- **A request** that comes whole makes the server print what the command prints for its arguments. -/
theorem prints_request {subs : List Subcommand} {subCommand : CString} {argv : List CString}
    (hsub : Short subCommand) (hargc : argv.length ≤ commandMaxArgc) (hs : ∀ a ∈ argv, Short a)
    (hfit : (encoding subCommand argv).length ≤ cmdSize)
    (hcrlf : ∀ s ∈ subCommand :: argv, ¬ [cr, lf] <:+: s.val) {r : Request}
    (hcommands : r.commands = tableOf (subs.map Subcommand.registration))
    (hconn : received r.conn = encoding subCommand argv) :
    r.prints = .ok (some (printsOf subs subCommand argv)) := by
  obtain ⟨cmd, ps, hargs, hprints⟩ := prints_of_encoding subCommand argv hsub hargc hs hfit hcrlf hconn
  rw [hprints, hcommands, commandFind_subs subs hsub, entries_tableOf, List.map_map, printsOf]
  cases subs.find? fun c => c.name = subCommand with
  | none => rfl
  | some c =>
    simp only [Option.map_some, Registration.command, Subcommand.registration, argument_of_stringAt hargs]
    rfl

/-! ### The server -/

/-- The process has a server with these commands, which serves nobody: its handler is installed, and the
buffer for the answers is empty. -/
structure Ready (subs : List Subcommand) (a : ℕ) (p : Process) : Prop where
  table : HasTable (subs.map Subcommand.registration) p
  installed : p.cmdHandler = some a
  buffer : ∃ buf, Holds (p.handlers a).cdp buf []

theorem cliRegister_frame (c : Command) (p : Process) :
    (cliRegister c p).cmdHandler = p.cmdHandler ∧ (cliRegister c p).handlers = p.handlers := by
  obtain ⟨commands, regcnt, h⟩ := cliRegister_cases c p
  rw [h]
  exact ⟨rfl, rfl⟩

/-- A command more. -/
theorem Ready.concat {subs : List Subcommand} {a : ℕ} {p : Process} (h : Ready subs a p)
    (hlt : subs.length < commandsRoom) (c : Subcommand) :
    Ready (subs ++ [c]) a (cliRegister c.registration.command p) := by
  obtain ⟨hinstalled, hhandlers⟩ := cliRegister_frame c.registration.command p
  refine ⟨?_, hinstalled.trans h.installed, ?_⟩
  · rw [List.map_append]
    exact h.table.concat (by rwa [List.length_map]) c.registration
  · rw [hhandlers]
    exact h.buffer

/-- The statements of `cli_create` make a process without commands a server. -/
theorem statements_ready (junk : ℕ → UInt8) (calls : Calls) (name : CString) (a : ℕ) {q : Process}
    (hcommands : q.commands = List.replicate commandsSize freeSlot) (hregcnt : q.regcnt = 0) :
    Ready (builtins junk) a (statements.foldl (Statement.run (handlers junk) calls name a) q) := by
  have hinstalled : Ready [] a
      { ((q.modify a fun h => { h with cdp := cdpInit calls.fresh }).modify a fun h =>
          { h with name := name }).modify a fun h => { h with state := cliInit } with
        cmdHandler := some a, exitHandlers := q.exitHandlers + 1 } := by
    refine ⟨⟨Nat.zero_le _, hcommands, hregcnt⟩, rfl, malloc calls.fresh 4096, ?_⟩
    simpa [Process.modify] using holds_cdpInit calls.fresh
  have hhelp := hinstalled.concat (by decide) (helpCommand junk)
  exact hhelp.concat (by simp [commandsRoom, commandsSize]) (testCommand junk)

/-- **`cli_create`** makes a server with the commands `help` and `test`. -/
theorem created_ready (junk : ℕ → UInt8) (block : CliHandler) (fresh : ℕ → UInt8) {name : CString}
    (hname : name.len + 1 ≤ 32) {p : Process} (hp : Fresh p) :
    ∃ a, Ready (builtins junk) a (cliCreate (handlers junk) (Calls.succeed block fresh) name p).2 := by
  obtain ⟨p₁, hstep, hcreate⟩ := createOn_cases (handlers junk) (Calls.succeed block fresh) hname
    (lowestFree p.blocks) (p.malloc (lowestFree p.blocks) block)
  have hcreate' : (cliCreate (handlers junk) (Calls.succeed block fresh) name p).2 =
      statements.foldl (Statement.run (handlers junk) (Calls.succeed block fresh) name (lowestFree p.blocks))
        ((p₁.pipeOn (lowestFree p.blocks)).spawn (lowestFree p.blocks)) := by
    rw [cliCreate, if_neg (not_lt.mpr hname)]
    exact congrArg Prod.snd hcreate
  refine ⟨lowestFree p.blocks, ?_⟩
  rw [hcreate']
  cases hstep with
  | listens => exact statements_ready junk _ name _ hp.commands hp.regcnt
  | fails => exact statements_ready junk _ name _ hp.commands hp.regcnt

/-! ### A session -/

/-- What `select` returns. -/
inductive Select
  /-- It fails. -/
  | failed
  /-- No byte came in 60 seconds. -/
  | timedOut
  /-- There is something to read. -/
  | ready
  deriving DecidableEq

/-- `ETIMEDOUT`. -/
def eTimedOut : ℤ := 110

/-- A run of the client, with what happens to it and to the server on the way. -/
structure Visit where
  /-- `argv[0]` and `argv[1]`. -/
  prog : CString
  procName : CString
  /-- `argv[2]` and the arguments behind it. -/
  subCommand : CString
  argv : List CString
  /-- What `buffer` holds beforehand. -/
  buffer : List UInt8
  /-- The memory around it. -/
  outside : ℤ → UInt8
  /-- What the calls of `write` for the request do. -/
  sends : List WriteResult
  /-- How often the server's reads of each of its bytes are interrupted. -/
  requestGaps : List ℕ
  /-- Memory of the server: what `cmd` holds beforehand, what is around the output, and what is in a new block. -/
  stack : ℕ → UInt8
  around : ℤ → UInt8
  fresh : ℕ → UInt8
  /-- What the server's calls of `write` for the answer do. -/
  replies : List WriteResult
  /-- What `select` does. -/
  select : Select
  /-- How often the reads of each byte of the answer are interrupted. -/
  answerGaps : List ℕ

/-- What comes of an event. -/
inductive Output
  /-- `cli_register` returns, with this number if with any. -/
  | returned (ret : Option ℤ)
  /-- The client refuses its arguments. -/
  | refused
  /-- The client prints these lines, and returns. -/
  | printed (lines : List Line) (ret : ℤ)

/-- The client's `main` from `select` on; the server sends the bytes `answered` and closes the connection. -/
def Visit.await (fuel : ℕ) (v : Visit) (buffer answered : List UInt8) : Exec Output :=
  match v.select with
  | .failed => .ok (.printed [.text (ascii "select faild.")] (-1))
  | .timedOut => .ok (.printed [.text (ascii "command wait timeout.")] (-eTimedOut))
  | .ready => do
    let c ← receive fuel ⟨buffer, 0, interrupted v.answerGaps answered, []⟩
    .ok (.printed c.printed 0)

/-- The client as `do_accept` meets it, when it has sent these bytes. -/
def Visit.request (v : Visit) (commands : List Command) (sent : List UInt8) : Request where
  commands := commands
  conn := interrupted v.requestGaps sent
  stack := v.stack
  writes := v.replies
  around := v.around
  fresh := v.fresh

/-- The bytes that the client can read. -/
def Reply.bytes (reply : Reply) : List UInt8 := accepted reply.mem reply.run.calls

/-- A session with the server of the handler `a`. A client that does not wait for its answer leaves the server
its request all the same. -/
def Visit.run (fuel a : ℕ) (v : Visit) (p : Process) : Exec (Process × Output) :=
  if mainAccepts (v.prog :: v.procName :: v.subCommand :: v.argv) then do
    let (buffer, n) ← msgEncode v.buffer v.subCommand v.argv
    let run := safeWrite 0 n v.sends
    -- `main` asks whether `safe_write` has returned -1, which it never does
    let _ ← run.ret
    let sent := accepted (bytesAt buffer v.outside) run.calls
    let (cdp, reply) ← doAccept (p.handlers a).cdp (v.request p.commands sent)
    let out ← v.await fuel buffer ((reply.map Reply.bytes).getD [])
    .ok (p.modify a fun h => { h with cdp := cdp }, out)
  else .ok (p, .refused)

/-- The answer is there when the client waits for it: it leaves room for its NUL, and the server can write it.
If the client does not wait, `safe_write` has still to come to its end. -/
def Visit.Answers (v : Visit) (text : List UInt8) : Prop :=
  match v.select with
  | .ready => text ≠ [] ∧ text.length < cmdSize ∧ Takes text.length v.replies
  | _ => ∃ ret, (safeWrite 0 text.length v.replies).ret = .ok ret

/-- A session that the client's checks let pass is one the buffers and the protocol have room for: no CR LF in
its strings, and less than 2^30 bytes printed. -/
structure Visit.Fits (subs : List Subcommand) (v : Visit) : Prop where
  buffer : v.buffer.length = cmdSize
  request : (encoding v.subCommand v.argv).length ≤ cmdSize
  noCrlf : ∀ s ∈ v.subCommand :: v.argv, ¬ [cr, lf] <:+: s.val
  sends : Takes (encoding v.subCommand v.argv).length v.sends
  printed : (printed (printsOf subs v.subCommand v.argv)).length < 2 ^ 30
  answers : v.Answers (answer subs v.subCommand v.argv)

/-- What the client should print: its answer, if it waits for that. -/
def Visit.output (v : Visit) (text : List UInt8) : Output :=
  match v.select with
  | .failed => .printed [.text (ascii "select faild.")] (-1)
  | .timedOut => .printed [.text (ascii "command wait timeout.")] (-eTimedOut)
  | .ready => .printed [.text text] 0

theorem receive_mono {fuel fuel' : ℕ} {c c' : Receiver} (h : receive fuel c = .ok c') (hle : fuel ≤ fuel') :
    receive fuel' c = .ok c' := by
  induction fuel generalizing fuel' c with
  | zero => cases h
  | succ fuel ih =>
    obtain ⟨fuel', rfl⟩ : ∃ n, fuel' = n + 1 := ⟨fuel' - 1, by omega⟩
    have hle' : fuel ≤ fuel' := by omega
    rw [receive] at h ⊢
    obtain ⟨⟨ret, c₁⟩, hread, h⟩ := bind_eq_ok.mp h
    rw [hread, ok_bind]
    simp only at h ⊢
    split at h
    · rename_i hend
      rwa [if_pos hend]
    · rename_i hend
      rw [if_neg hend]
      split at h
      · rename_i hfull
        rw [if_pos hfull]
        obtain ⟨c₂, hprint, h⟩ := bind_eq_ok.mp h
        rw [hprint, ok_bind]
        exact ih h hle'
      · rename_i hfull
        rw [if_neg hfull]
        exact ih h hle'

/-- The client prints the answer that was written. -/
theorem Visit.await_answer (v : Visit) {buffer output text : List UInt8} (hbuf : buffer.length = cmdSize)
    (htext : text <+: output) (h0 : (0 : UInt8) ∉ text) (h : v.Answers text) :
    (∃ ret, (safeWrite 0 text.length v.replies).ret = .ok ret) ∧
      ∃ fuel₀, ∀ fuel, fuel₀ ≤ fuel →
        v.await fuel buffer (Reply.bytes ⟨bytesAt output v.around, safeWrite 0 text.length v.replies⟩) =
          .ok (v.output text) := by
  rw [Visit.Answers] at h
  unfold Visit.await Visit.output
  cases hselect : v.select with
  | failed =>
    rw [hselect] at h
    exact ⟨h, 0, fun _ _ => rfl⟩
  | timedOut =>
    rw [hselect] at h
    exact ⟨h, 0, fun _ _ => rfl⟩
  | ready =>
    rw [hselect] at h
    obtain ⟨hne, hroom, htakes⟩ := h
    have hint : (text.length : ℤ) ≤ intMax := by
      have hlt : text.length < 1024 := hroom
      rw [intMax]
      omega
    obtain ⟨hret, hall⟩ := safeWrite_takes (bytesAt output v.around) hint htakes 0
    rw [span_bytesAt _ htext.length_le, ← List.prefix_iff_eq_take.mp htext] at hall
    have hheld : Held ⟨buffer, 0, interrupted v.answerGaps text, []⟩ [] text :=
      ⟨hbuf, rfl, List.nil_prefix, serves_interrupted _ _⟩
    obtain ⟨fuel₀, c, hrun, hprinted⟩ := receive_prints hheld (by simpa using hroom) hne h0
    refine ⟨⟨0, hret⟩, fuel₀, fun fuel hle => ?_⟩
    simp only [Reply.bytes, hall]
    rw [receive_mono hrun hle, ok_bind, hprinted]
    rfl

theorem zero_notMem_replyOf (ps : List Print) : (0 : UInt8) ∉ replyOf ps := by
  unfold replyOf
  split
  · decide
  · intro h
    simpa using List.mem_takeWhile_imp h

/-- **One session**: the client prints the answer of its own command, and the server is ready again. -/
theorem Visit.run_answers {subs : List Subcommand} {a : ℕ} {p : Process} (hp : Ready subs a p)
    {v : Visit} (hacc : mainAccepts (v.prog :: v.procName :: v.subCommand :: v.argv) = true)
    (h : v.Fits subs) :
    ∃ p' fuel₀, Ready subs a p' ∧ ∀ fuel, fuel₀ ≤ fuel →
      v.run fuel a p = .ok (p', v.output (answer subs v.subCommand v.argv)) := by
  obtain ⟨hsub, hargc, hs⟩ := short_of_mainAccepts hacc
  obtain ⟨buf, hbuf⟩ := hp.buffer
  obtain ⟨buffer, n, henc⟩ := msgEncode_spec v.buffer v.subCommand v.argv (by rw [h.buffer]; exact h.request)
  obtain ⟨hw, hn, hlen⟩ := msgEncode_wrote henc
  have hint : (n : ℤ) ≤ intMax := by
    have hle : (encoding v.subCommand v.argv).length ≤ 1024 := h.request
    rw [intMax, hn]
    omega
  obtain ⟨hret, hsent⟩ := safeWrite_takes (bytesAt buffer v.outside) hint (hn ▸ h.sends) 0
  rw [hn, span_bytesAt _ hw.length_le, hw.take] at hsent
  have hprints := prints_request hsub hargc hs h.request h.noCrlf
    (r := v.request p.commands (encoding v.subCommand v.argv)) hp.table.commands
    (serves_interrupted _ _).received
  obtain ⟨-, output, cdp', buf', htext, hbuf', haccept⟩ := doAccept_reply hbuf hprints h.printed
  have hanswer : answer subs v.subCommand v.argv <+: output := htext
  obtain ⟨⟨ret, hwritten⟩, fuel₀, hawait⟩ :=
    v.await_answer (hlen.trans h.buffer) hanswer (zero_notMem_replyOf _) h.answers
  refine ⟨p.modify a fun h => { h with cdp := cdp' }, fuel₀, ⟨?_, hp.installed, buf', ?_⟩, fun fuel hle => ?_⟩
  · exact ⟨hp.table.room, hp.table.commands, hp.table.regcnt⟩
  · simpa [Process.modify] using hbuf'
  · have hreply : doAccept (p.handlers a).cdp (v.request p.commands (encoding v.subCommand v.argv)) =
        .ok (cdp', some ⟨bytesAt output v.around,
          safeWrite 0 (answer subs v.subCommand v.argv).length v.replies⟩) := by
      rw [haccept]
      exact congrArg (Except.bind · _) hwritten
    rw [Visit.run, if_pos hacc, henc, ok_bind]
    dsimp only
    rw [hn] at hret ⊢
    rw [hret, ok_bind, hsent, hreply, ok_bind]
    dsimp only [Option.map_some, Option.getD_some]
    rw [hawait fuel hle]
    rfl

/-! ### Every history -/

/-- What happens to a server. -/
inductive Event
  | register (c : Subcommand)
  | visit (v : Visit)

/-- An event. -/
def Event.run (fuel a : ℕ) (p : Process) : Event → Exec (Process × Output)
  | .register c => do
    let (ret, p) ← Cli.register c.registration p
    .ok (p, .returned ret)
  | .visit v => v.run fuel a p

/-- A history. -/
def runEvents (fuel a : ℕ) : List Event → Process → Exec (Process × List Output)
  | [], p => .ok (p, [])
  | e :: events, p => do
    let (p, out) ← e.run fuel a p
    let (p, outs) ← runEvents fuel a events p
    .ok (p, out :: outs)

/-- The commands after an event. -/
def subsAfter (subs : List Subcommand) : Event → List Subcommand
  | .register c => if commandsRoom ≤ subs.length then subs else subs ++ [c]
  | .visit _ => subs

/-- What should come of an event. -/
def outputOf (subs : List Subcommand) : Event → Output
  | .register _ => .returned (if commandsRoom ≤ subs.length then some (-eNoSpc) else none)
  | .visit v =>
    if mainAccepts (v.prog :: v.procName :: v.subCommand :: v.argv) then
      v.output (answer subs v.subCommand v.argv)
    else .refused

/-- What should come of a history. -/
def outputsOf : List Subcommand → List Event → List Output
  | _, [] => []
  | subs, e :: events => outputOf subs e :: outputsOf (subsAfter subs e) events

/-- An event that the protocol has room for. -/
def Event.Fits (subs : List Subcommand) : Event → Prop
  | .register _ => True
  | .visit v => mainAccepts (v.prog :: v.procName :: v.subCommand :: v.argv) = true → v.Fits subs

/-- And so are all of a history. -/
def AllFit : List Subcommand → List Event → Prop
  | _, [] => True
  | subs, e :: events => e.Fits subs ∧ AllFit (subsAfter subs e) events

/-- **A registration** is accepted, or the table is full. -/
theorem register_subs {subs : List Subcommand} {a : ℕ} {p : Process} (hp : Ready subs a p) (c : Subcommand) :
    ∃ p', Ready (subsAfter subs (.register c)) a p' ∧
      register c.registration p = .ok (if commandsRoom ≤ subs.length then some (-eNoSpc) else none, p') := by
  have hlen : (subs.map Subcommand.registration).length = subs.length := List.length_map ..
  rcases register_step hp.table c.registration with ⟨hlt, hcall⟩ | ⟨heq, hret⟩
  · rw [hlen] at hlt
    have hroom : ¬ commandsRoom ≤ subs.length := not_le.mpr hlt
    rw [subsAfter, if_neg hroom, if_neg hroom]
    rcases hcall with ⟨hnone, -⟩ | ⟨-, hret⟩
    · cases hp.installed.symm.trans hnone
    · exact ⟨_, hp.concat hlt c, hret⟩
  · rw [hlen] at heq
    rw [subsAfter, if_pos heq.ge, if_pos heq.ge]
    exact ⟨p, hp, hret⟩

/-- **An event** comes to what it should, and leaves a server with the commands it should have. -/
theorem Event.run_output {subs : List Subcommand} {a : ℕ} {p : Process} (hp : Ready subs a p) {e : Event}
    (h : e.Fits subs) :
    ∃ p' fuel₀, Ready (subsAfter subs e) a p' ∧ ∀ fuel, fuel₀ ≤ fuel →
      e.run fuel a p = .ok (p', outputOf subs e) := by
  cases e with
  | register c =>
    obtain ⟨p', hp', hret⟩ := register_subs hp c
    refine ⟨p', 0, hp', fun fuel _ => ?_⟩
    rw [Event.run, hret, ok_bind, outputOf]
  | visit v =>
    by_cases hacc : mainAccepts (v.prog :: v.procName :: v.subCommand :: v.argv) = true
    · obtain ⟨p', fuel₀, hp', hrun⟩ := Visit.run_answers hp hacc (h hacc)
      refine ⟨p', fuel₀, hp', fun fuel hle => ?_⟩
      rw [Event.run, hrun fuel hle, outputOf, if_pos hacc]
    · refine ⟨p, 0, hp, fun fuel _ => ?_⟩
      rw [Event.run, Visit.run, if_neg hacc, outputOf, if_neg hacc]

theorem runEvents_outputs {subs : List Subcommand} {a : ℕ} {p : Process} (hp : Ready subs a p)
    {events : List Event} (h : AllFit subs events) :
    ∃ p' fuel₀, ∀ fuel, fuel₀ ≤ fuel → runEvents fuel a events p = .ok (p', outputsOf subs events) := by
  induction events generalizing subs p with
  | nil => exact ⟨p, 0, fun _ _ => rfl⟩
  | cons e events ih =>
    obtain ⟨he, hevents⟩ := h
    obtain ⟨p₁, fuel₁, hp₁, hstep⟩ := Event.run_output hp he
    obtain ⟨p₂, fuel₂, hrun⟩ := ih hp₁ hevents
    refine ⟨p₂, max fuel₁ fuel₂, fun fuel hle => ?_⟩
    rw [runEvents, hstep fuel (le_of_max_le_left hle), ok_bind]
    dsimp only
    rw [hrun fuel (le_of_max_le_right hle), ok_bind, outputsOf]

/-- The command `yo`, which prints `ok`. -/
def yoCommand : Subcommand :=
  ⟨⟨[121, 111], by decide⟩, ⟨[108, 111], by decide⟩, fun _ _ => [⟨some [111, 107], fun _ => 0⟩]⟩

/-- A session with the command `test` and the argument `ab`, whose request goes in two parts. -/
def testVisit : Visit where
  prog := ⟨[99], by decide⟩
  procName := ⟨[112], by decide⟩
  subCommand := ⟨[116, 101, 115, 116], by decide⟩
  argv := [⟨[97, 98], by decide⟩]
  buffer := List.replicate cmdSize 0
  outside _ := 0
  sends := [.takes 5, .takes 30]
  requestGaps := [0, 2]
  stack _ := 0
  around _ := 0
  fresh _ := 0
  replies := [.takes 24]
  select := .ready
  answerGaps := [1]

/-- A session with the command `yo`. -/
def yoVisit : Visit :=
  { testVisit with
    subCommand := yoCommand.name
    argv := []
    sends := [.takes 13]
    replies := [.takes 1, .takes 1] }

/-- Another one, whose client does not wait; the pipe is broken, `EPIPE`. -/
def lostVisit : Visit := { yoVisit with replies := [.fails 32], select := .timedOut }

theorem testVisit_fits : testVisit.Fits (builtins fun _ => 0) where
  buffer := List.length_replicate ..
  request := by decide
  noCrlf := by decide
  sends := ⟨[5, 30], [], rfl, by decide, by decide⟩
  printed := by decide +kernel
  answers := ⟨by decide +kernel, by decide +kernel, [24], [], rfl, by decide, by decide +kernel⟩

theorem yoVisit_fits : yoVisit.Fits (builtins (fun _ => 0) ++ [yoCommand]) where
  buffer := List.length_replicate ..
  request := by decide
  noCrlf := by decide
  sends := ⟨[13], [], rfl, by decide, by decide⟩
  printed := by decide +kernel
  answers := ⟨by decide +kernel, by decide +kernel, [1, 1], [], rfl, by decide, by decide +kernel⟩

theorem lostVisit_fits : lostVisit.Fits (builtins (fun _ => 0) ++ [yoCommand]) where
  buffer := List.length_replicate ..
  request := by decide
  noCrlf := by decide
  sends := ⟨[13], [], rfl, by decide, by decide⟩
  printed := by decide +kernel
  answers := ⟨32, rfl⟩

/-- What the first of them prints. -/
example : answer (builtins fun _ => 0) testVisit.subCommand testVisit.argv =
    ascii "argc: 1\nargv[0] = ab\n" := by decide +kernel

end CcUtils.Cli
