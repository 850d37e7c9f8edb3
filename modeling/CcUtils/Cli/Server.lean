import Mathlib.Data.PNat.Defs
import Mathlib.Data.Fintype.EquivFin
import CcUtils.Binlog.Parser
import CcUtils.Cli.Print

/-!
# The command server

`cli_create` and `cli_destroy` of `cli_server.c`, with `bind_and_listen`, `create_wakeup_pipe`,
`cli_register` and the exit handler `remove_all_cleanup_files`, on the part of the process they work on:
its descriptors, the socket files, the handlers, the threads and the commands.

What the system calls answer is given with each call of `cli_create`. `bind_and_listen` returns the
`errno` of a call that failed, a positive number, and so does `pthread_create`; `cli_create` takes
only negative numbers for failures.

## What is proved

* `length_socketPath_lt` — the path of the socket is never too long.
* `bindAndListen_step` — what `bind_and_listen` can do.
* `createOn_cases` — what `cli_create` can do.
* `createSafe_iff` — when its answer can be relied on.
-/

namespace CcUtils.Cli

open CcUtils.Lib
open CcUtils.Binlog (ascii decimal)

/-! ### The process -/

/-- What a descriptor stands for. -/
inductive Descriptor
  /-- A socket without an address. -/
  | socket
  /-- A socket bound to a path. -/
  | bound (path : List UInt8)
  /-- A socket at a path that clients can connect to. -/
  | listening (path : List UInt8)
  /-- The end of a pipe that is read, with the descriptor of the other. -/
  | pipeRd (wr : ℕ)
  /-- The end of a pipe that is written, with the descriptor of the other. -/
  | pipeWr (rd : ℕ)
  /-- Anything else. -/
  | other

/-- `cli_handler_t`. A thread is known by its handler, so `cli_thread` is left out, and so is the
lock. -/
structure CliHandler where
  /-- The string in `name`. -/
  name : CString
  /-- `socket_fd`. -/
  socketFd : ℤ
  /-- `cdp`. -/
  cdp : Cmdprint
  /-- `pipe_rd`. -/
  pipeRd : ℤ
  /-- `pipe_wr`. -/
  pipeWr : ℤ
  /-- `state`. -/
  state : ℤ

/-- `CLI_INIT`. -/
def cliInit : ℤ := 0

/-- `CLI_DOWN`. -/
def cliDown : ℤ := 1

/-- `CLI_FINI`. -/
def cliFini : ℤ := 2

/-- The process, as far as the server is concerned. -/
structure Process where
  /-- The process number. -/
  pid : ℕ
  /-- It is a positive `int`. -/
  pid_lt : pid < 2 ^ 31
  /-- The open descriptors. -/
  fds : Finset ℕ
  /-- What they stand for. -/
  kind : ℕ → Descriptor
  /-- The socket files on the disk. -/
  files : List (List UInt8)
  /-- The handlers that were allocated and not freed. -/
  blocks : Finset ℕ
  /-- What is in them. -/
  handlers : ℕ → CliHandler
  /-- The threads that run `msg_poll`, by their handlers. -/
  threads : List ℕ
  /-- `cmd_handler`. -/
  cmdHandler : Option ℕ
  /-- `commands`. -/
  commands : List Command
  /-- `regcnt`. -/
  regcnt : ℕ
  /-- How many times `remove_all_cleanup_files` will be called at the exit. -/
  exitHandlers : ℕ

theorem exists_notMem (used : Finset ℕ) : ∃ n, n ∉ used := Infinite.exists_notMem_finset used

/-- The lowest number that is not in use: the descriptor `socket` returns. -/
def lowestFree (used : Finset ℕ) : ℕ := Nat.find (exists_notMem used)

theorem lowestFree_notMem (used : Finset ℕ) : lowestFree used ∉ used :=
  Nat.find_spec (exists_notMem used)

namespace Process

/-- A new descriptor. -/
def openFd (p : Process) (fd : ℕ) (d : Descriptor) : Process :=
  { p with fds := insert fd p.fds, kind := Function.update p.kind fd d }

/-- `close`; on what is no descriptor it does nothing. -/
def close (p : Process) (fd : ℤ) : Process :=
  if fd < 0 then p else { p with fds := p.fds.erase fd.toNat }

/-- `bind`, where it succeeds: it makes the socket file. -/
def bind (p : Process) (fd : ℕ) (path : List UInt8) : Process :=
  { p with kind := Function.update p.kind fd (.bound path), files := path :: p.files }

/-- `listen`, where it succeeds. -/
def listen (p : Process) (fd : ℕ) (path : List UInt8) : Process :=
  { p with kind := Function.update p.kind fd (.listening path) }

/-- `malloc` of a handler. -/
def malloc (p : Process) (a : ℕ) (junk : CliHandler) : Process :=
  { p with blocks := insert a p.blocks, handlers := Function.update p.handlers a junk }

/-- `free` of a handler. -/
def free (p : Process) (a : ℕ) : Process := { p with blocks := p.blocks.erase a }

/-- A change to a handler. -/
def modify (p : Process) (a : ℕ) (f : CliHandler → CliHandler) : Process :=
  { p with handlers := Function.update p.handlers a (f (p.handlers a)) }

/-- `pthread_create`, where it succeeds. -/
def spawn (p : Process) (a : ℕ) : Process := { p with threads := a :: p.threads }

/-- `unlink`. -/
def unlink (p : Process) (path : List UInt8) : Process :=
  { p with files := p.files.filter (· ≠ path) }

end Process

/-! ### The system calls -/

/-- `EINVAL`. -/
def eInval : ℤ := 22

/-- `ENOSPC`. -/
def eNoSpc : ℤ := 28

/-- `EADDRINUSE`. -/
def eAddrInUse : ℕ+ := 98

/-- What the calls of one `cli_create` answer: none for success, else the error. -/
structure Calls where
  /-- `malloc` gives a handler. -/
  malloc : Bool
  /-- What is in it. -/
  junk : CliHandler
  /-- `socket`. -/
  socket : Option ℕ+
  /-- The first `bind`. -/
  bind : Option ℕ+
  /-- The second. -/
  rebind : Option ℕ+
  /-- `listen`. -/
  listen : Option ℕ+
  /-- `pthread_spin_init`. -/
  spinInit : Option ℕ+
  /-- `pipe`. -/
  pipe : Option ℕ+
  /-- `pthread_create`. -/
  pthreadCreate : Option ℕ+
  /-- What is in the block `cdp_init` allocates. -/
  fresh : ℕ → UInt8

/-- Calls that all succeed. -/
def Calls.succeed (junk : CliHandler) (fresh : ℕ → UInt8) : Calls where
  malloc := true
  junk := junk
  socket := none
  bind := none
  rebind := none
  listen := none
  spinInit := none
  pipe := none
  pthreadCreate := none
  fresh := fresh

/-- The number a function returns. -/
def errorCode : Option ℕ+ → ℤ
  | none => 0
  | some e => (e : ℕ)

/-- `DF_SOCKET_DIR`: the path of the socket. -/
def socketPath (name : CString) (pid : ℕ) : List UInt8 :=
  ascii "/var/tmp/" ++ name.val ++ ascii "." ++ decimal pid

/-- The size of `sun_path`. -/
def sunPathSize : ℕ := 108

/-- The two calls of `bind`. -/
def bindTwice (calls : Calls) : Option ℕ+ :=
  match calls.bind with
  | none => none
  | some e => if e = eAddrInUse then calls.rebind else some e

/-- `bind_and_listen`: what it returns, the descriptor if it stores one, and the process. -/
def bindAndListen (calls : Calls) (path : List UInt8) (p : Process) : ℤ × Option ℕ × Process :=
  if sunPathSize - 1 < path.length then (-eInval, none, p)
  else
    match calls.socket with
    | some e => (errorCode (some e), none, p)
    | none =>
      let fd := lowestFree p.fds
      let p := p.openFd fd .socket
      match bindTwice calls with
      | some e => (errorCode (some e), none, p.close fd)
      | none =>
        let p := p.bind fd path
        match calls.listen with
        | some e => (errorCode (some e), none, p.close fd)
        | none => (0, some fd, p.listen fd path)

/-- `create_wakeup_pipe`, which stores the two ends in the handler. -/
def createWakeupPipe (calls : Calls) (a : ℕ) (p : Process) : ℤ × Process :=
  match calls.pipe with
  | some _ => (-1, p)
  | none =>
    let rd := lowestFree p.fds
    let wr := lowestFree (insert rd p.fds)
    let p := (p.openFd rd (.pipeRd wr)).openFd wr (.pipeWr rd)
    (0, p.modify a fun h => { h with pipeRd := rd, pipeWr := wr })

/-! ### Commands -/

/-- The size of `commands`. -/
def commandsSize : ℕ := 1024

/-- The loop of `cli_register`: the first slot without a handler is taken. -/
def registerSlot (c : Command) : List Command → List Command
  | [] => []
  | d :: commands =>
    match d.execute with
    | none => c :: commands
    | some _ => d :: registerSlot c commands

/-- `cli_register`; it returns a number only when it fails, and nobody looks at it. -/
def cliRegister (c : Command) (p : Process) : Process :=
  if commandsSize - 1 ≤ p.regcnt then p
  else { p with commands := registerSlot c p.commands, regcnt := p.regcnt + 1 }

/-- The commands every server has. -/
structure Builtins where
  /-- `cmd_help`. -/
  help : Handler
  /-- `cmd_test`. -/
  test : Handler

/-- The command `help`. -/
def Builtins.helpCommand (b : Builtins) : Command :=
  ⟨some (ascii "help"), ascii "help for subcommand details", some b.help⟩

/-- The command `test`. -/
def Builtins.testCommand (b : Builtins) : Command :=
  ⟨some (ascii "test"), ascii "test command input arguments", some b.test⟩

/-! ### `cli_create` -/

/-- The statements of `cli_create` after `pthread_create`; that it sets a handler for `SIGINT` is left
out. -/
inductive Statement
  /-- `cdp_init(&h->cdp)`. -/
  | cdpInit
  /-- `memcpy(&h->name, name, ..)`. -/
  | copyName
  /-- `h->state = CLI_INIT`. -/
  | setState
  /-- `cmd_handler = h`. -/
  | install
  /-- `atexit(remove_all_cleanup_files)`. -/
  | atexit
  /-- `cli_register("help", ..)`. -/
  | registerHelp
  /-- `cli_register("test", ..)`. -/
  | registerTest
  deriving DecidableEq

/-- The statements in their order. -/
def statements : List Statement :=
  [.cdpInit, .copyName, .setState, .install, .atexit, .registerHelp, .registerTest]

/-- What a statement does; `a` is the handler. -/
def Statement.run (b : Builtins) (calls : Calls) (name : CString) (a : ℕ) (p : Process) :
    Statement → Process
  | .cdpInit => p.modify a fun h => { h with cdp := Cli.cdpInit calls.fresh }
  | .copyName => p.modify a fun h => { h with name := name }
  | .setState => p.modify a fun h => { h with state := cliInit }
  | .install => { p with cmdHandler := some a }
  | .atexit => { p with exitHandlers := p.exitHandlers + 1 }
  | .registerHelp => cliRegister b.helpCommand p
  | .registerTest => cliRegister b.testCommand p

/-- `cli_create` from the point where it has its handler `a`. -/
def createOn (b : Builtins) (calls : Calls) (name : CString) (a : ℕ) (p : Process) : ℤ × Process :=
  let (ret, fd, p) := bindAndListen calls (socketPath name p.pid) p
  let p := match fd with
    | some fd => p.modify a fun h => { h with socketFd := fd }
    | none => p
  if ret < 0 then (ret, p.free a)
  else
    let ret := errorCode calls.spinInit
    if ret < 0 then (ret, (p.close (p.handlers a).socketFd).free a)
    else
      let (ret, p) := createWakeupPipe calls a p
      if ret < 0 then (ret, (p.close (p.handlers a).socketFd).free a)
      else
        let ret := errorCode calls.pthreadCreate
        let p := if calls.pthreadCreate = none then p.spawn a else p
        if ret < 0 then (ret, (p.close (p.handlers a).socketFd).free a)
        else (0, statements.foldl (Statement.run b calls name a) p)

/-- `cli_create`. -/
def cliCreate (b : Builtins) (calls : Calls) (name : CString) (p : Process) : ℤ × Process :=
  if 32 < name.len + 1 then (-eInval, p)
  else if calls.malloc = false then (-eNoSpc, p)
  else
    let a := lowestFree p.blocks
    createOn b calls name a (p.malloc a calls.junk)

/-! ### What the functions can do -/

/-- The path is short enough for `sun_path`, and for the buffers it is printed to. -/
theorem length_socketPath_lt {name : CString} (hname : name.len + 1 ≤ 32) {pid : ℕ}
    (hpid : pid < 2 ^ 31) : (socketPath name pid).length < 64 := by
  have hdigits : (Nat.toDigits 10 pid).length ≤ 10 := by
    rw [Nat.length_toDigits_le_iff (by decide) (by decide)]
    omega
  have hdir : (ascii "/var/tmp/").length = 9 := by decide
  have hdot : (ascii ".").length = 1 := by decide
  rw [socketPath, List.length_append, List.length_append, List.length_append, hdir, hdot, decimal,
    List.length_map]
  rw [CString.len] at hname
  omega

/-- The socket can be bound and can listen. -/
def Calls.Listens (calls : Calls) : Prop :=
  calls.socket = none ∧ bindTwice calls = none ∧ calls.listen = none

/-- The process with a new socket that listens. -/
def Process.listenOn (p : Process) (path : List UInt8) : Process :=
  let fd := lowestFree p.fds
  ((p.openFd fd .socket).bind fd path).listen fd path

theorem bindAndListen_ok {calls : Calls} (h : calls.Listens) {path : List UInt8}
    (hpath : path.length ≤ sunPathSize - 1) (p : Process) :
    bindAndListen calls path p = (0, some (lowestFree p.fds), p.listenOn path) := by
  obtain ⟨hsocket, hbind, hlisten⟩ := h
  simp only [bindAndListen, if_neg (Nat.not_lt.mpr hpath), hsocket, hbind, hlisten]
  rfl

/-- Closing the descriptor opened last. -/
theorem Process.close_new {p : Process} {fds : Finset ℕ} (h : p.fds = insert (lowestFree fds) fds) :
    p.close (lowestFree fds) = { p with fds := fds } := by
  rw [close, if_neg (by omega), Int.toNat_natCast, h, Finset.erase_insert (lowestFree_notMem fds)]

/-- When it fails, `bind_and_listen` has closed its socket and returns a positive number. -/
theorem bindAndListen_error {calls : Calls} (h : ¬ calls.Listens) {path : List UInt8}
    (hpath : path.length ≤ sunPathSize - 1) (p : Process) :
    ∃ e kind files, bindAndListen calls path p =
      (errorCode (some e), none, { p with kind := kind, files := files }) := by
  simp only [bindAndListen, if_neg (Nat.not_lt.mpr hpath)]
  split
  case h_1 e hsocket => exact ⟨e, p.kind, p.files, rfl⟩
  case h_2 hsocket =>
    split
    case h_1 e hbind =>
      exact ⟨e, _, _, congrArg (_, none, ·) (Process.close_new rfl)⟩
    case h_2 hbind =>
      split
      case h_1 e hlisten =>
        exact ⟨e, _, _, congrArg (_, none, ·) (Process.close_new rfl)⟩
      case h_2 hlisten => exact absurd ⟨hsocket, hbind, hlisten⟩ h

/-- The process with the wake-up pipe of the handler `a`. -/
def Process.pipeOn (p : Process) (a : ℕ) : Process :=
  let rd := lowestFree p.fds
  let wr := lowestFree (insert rd p.fds)
  ((p.openFd rd (.pipeRd wr)).openFd wr (.pipeWr rd)).modify a fun h =>
    { h with pipeRd := rd, pipeWr := wr }

/-- The pipe has two new descriptors. -/
theorem pipeOn_cases (p : Process) (a : ℕ) :
    ∃ rd wr kind, rd ∉ p.fds ∧ wr ∉ p.fds ∧ kind rd = .pipeRd wr ∧ kind wr = .pipeWr rd ∧
      (∀ fd ∈ p.fds, kind fd = p.kind fd) ∧
      p.pipeOn a = { p with
        fds := insert wr (insert rd p.fds), kind := kind,
        handlers := Function.update p.handlers a
          { p.handlers a with pipeRd := (rd : ℕ), pipeWr := (wr : ℕ) } } := by
  have hrd : lowestFree p.fds ∉ p.fds := lowestFree_notMem p.fds
  have hwr := lowestFree_notMem (insert (lowestFree p.fds) p.fds)
  rw [Finset.mem_insert, not_or] at hwr
  refine ⟨lowestFree p.fds, _, _, hrd, hwr.2, ?_, Function.update_self .., fun fd hfd => ?_, rfl⟩
  · exact (Function.update_of_ne (Ne.symm hwr.1) _ _).trans (Function.update_self ..)
  · have hne₁ : fd ≠ lowestFree p.fds := fun he => hrd (he ▸ hfd)
    have hne₂ : fd ≠ lowestFree (insert (lowestFree p.fds) p.fds) := fun he => hwr.2 (he ▸ hfd)
    exact (Function.update_of_ne hne₂ _ _).trans (Function.update_of_ne hne₁ _ _)

theorem createWakeupPipe_ok {calls : Calls} (h : calls.pipe = none) (a : ℕ) (p : Process) :
    createWakeupPipe calls a p = (0, p.pipeOn a) := by
  rw [createWakeupPipe, h]
  rfl

theorem createWakeupPipe_error {calls : Calls} (h : calls.pipe ≠ none) (a : ℕ) (p : Process) :
    createWakeupPipe calls a p = (-1, p) := by
  obtain ⟨e, he⟩ := Option.ne_none_iff_exists'.mp h
  rw [createWakeupPipe, he]

theorem cliRegister_cases (c : Command) (p : Process) :
    ∃ commands regcnt, cliRegister c p = { p with commands := commands, regcnt := regcnt } := by
  rw [cliRegister]
  split
  · exact ⟨p.commands, p.regcnt, rfl⟩
  · exact ⟨_, _, rfl⟩

/-- What the statements after `pthread_create` do. -/
theorem statements_run (b : Builtins) (calls : Calls) (name : CString) (a : ℕ) (p : Process) :
    ∃ commands regcnt, statements.foldl (Statement.run b calls name a) p =
      { p.modify a fun h =>
          { h with name := name, cdp := Cli.cdpInit calls.fresh, state := cliInit } with
        cmdHandler := some a, exitHandlers := p.exitHandlers + 1, commands := commands,
        regcnt := regcnt } := by
  simp only [statements, List.foldl_cons, List.foldl_nil, Statement.run, Process.modify,
    Function.update_self, Function.update_idem]
  obtain ⟨commands₁, regcnt₁, hhelp⟩ := cliRegister_cases b.helpCommand
    { p with
      handlers := Function.update p.handlers a
        { p.handlers a with name := name, cdp := Cli.cdpInit calls.fresh, state := cliInit },
      cmdHandler := some a, exitHandlers := p.exitHandlers + 1 }
  rw [hhelp]
  obtain ⟨commands₂, regcnt₂, htest⟩ := cliRegister_cases b.testCommand
    { p with
      handlers := Function.update p.handlers a
        { p.handlers a with name := name, cdp := Cli.cdpInit calls.fresh, state := cliInit },
      cmdHandler := some a, exitHandlers := p.exitHandlers + 1, commands := commands₁,
      regcnt := regcnt₁ }
  exact ⟨_, _, htest⟩

/-- The process after `bind_and_listen`: with a socket for the handler, or with no descriptor more. -/
inductive SocketStep (calls : Calls) (name : CString) (a : ℕ) (p : Process) : Process → Prop
  | listens (h : calls.Listens) : SocketStep calls name a p
      ((p.listenOn (socketPath name p.pid)).modify a fun h =>
        { h with socketFd := lowestFree p.fds })
  | fails (h : ¬ calls.Listens) (kind : ℕ → Descriptor) (files : List (List UInt8)) :
      SocketStep calls name a p { p with kind := kind, files := files }

theorem errorCode_not_neg (r : Option ℕ+) : ¬ errorCode r < 0 := by
  cases r with
  | none => exact lt_irrefl 0
  | some e => exact not_lt.mpr (Int.natCast_nonneg _)

/-- `bind_and_listen` returns no negative number, whether there is a socket or not. -/
theorem bindAndListen_step (calls : Calls) {name : CString} (hname : name.len + 1 ≤ 32) (a : ℕ)
    (p : Process) :
    ∃ ret fd p₂, bindAndListen calls (socketPath name p.pid) p = (ret, fd, p₂) ∧ ¬ ret < 0 ∧
      SocketStep calls name a p (match fd with
        | some fd => p₂.modify a fun h => { h with socketFd := fd }
        | none => p₂) := by
  have hpath : (socketPath name p.pid).length ≤ sunPathSize - 1 := by
    have hlt := length_socketPath_lt hname p.pid_lt
    rw [sunPathSize]
    omega
  by_cases h : calls.Listens
  · exact ⟨_, _, _, bindAndListen_ok h hpath p, lt_irrefl 0, .listens h⟩
  · obtain ⟨e, kind, files, herr⟩ := bindAndListen_error h hpath p
    exact ⟨_, _, _, herr, errorCode_not_neg _, .fails h kind files⟩

/-- So `cli_create` goes on, whether there is a socket or not, and also whether there is a thread or
not; only a missing pipe stops it. -/
theorem createOn_cases (b : Builtins) (calls : Calls) {name : CString} (hname : name.len + 1 ≤ 32)
    (a : ℕ) (p : Process) :
    ∃ p₁, SocketStep calls name a p p₁ ∧
      createOn b calls name a p =
        if calls.pipe = none then
          (0, statements.foldl (Statement.run b calls name a)
            (if calls.pthreadCreate = none then (p₁.pipeOn a).spawn a else p₁.pipeOn a))
        else (-1, (p₁.close (p₁.handlers a).socketFd).free a) := by
  obtain ⟨ret, fd, p₂, hret, hnonneg, hstep⟩ := bindAndListen_step calls hname a p
  refine ⟨_, hstep, ?_⟩
  simp only [createOn, hret, if_neg hnonneg, if_neg (errorCode_not_neg _)]
  by_cases hpipe : calls.pipe = none
  · rw [createWakeupPipe_ok hpipe, if_pos hpipe]
    rfl
  · rw [createWakeupPipe_error hpipe, if_neg hpipe]
    rfl

/-! ### Reliable answers -/

/-- The handler `a` serves: what was opened for it since `p` is a socket that listens at the path and
the two ends of a pipe, and a thread was started on it. -/
structure Serving (name : CString) (p p' : Process) (a : ℕ) : Prop where
  allocated : a ∈ p'.blocks ∧ a ∉ p.blocks
  socket : ∃ fd : ℕ, (p'.handlers a).socketFd = fd ∧ fd ∈ p'.fds ∧ fd ∉ p.fds ∧
    p'.kind fd = .listening (socketPath name p.pid)
  pipe : ∃ rd wr : ℕ, (p'.handlers a).pipeRd = rd ∧ (p'.handlers a).pipeWr = wr ∧
    rd ∈ p'.fds ∧ rd ∉ p.fds ∧ wr ∈ p'.fds ∧ wr ∉ p.fds ∧
    p'.kind rd = .pipeRd wr ∧ p'.kind wr = .pipeWr rd
  thread : p'.threads = a :: p.threads

/-- The answer of `cli_create` can be relied on: it returns 0 and installs a handler that serves, or it
returns something else and has taken back all it did. -/
def CreateSafe (b : Builtins) (calls : Calls) (name : CString) (p : Process) : Prop :=
  let (ret, p') := cliCreate b calls name p
  (ret = 0 ∧ ∃ a, p'.cmdHandler = some a ∧ Serving name p p' a) ∨
    (ret ≠ 0 ∧ p'.cmdHandler = p.cmdHandler ∧ p'.commands = p.commands ∧ p'.fds ⊆ p.fds ∧
      p'.blocks ⊆ p.blocks)

theorem SocketStep.frame {calls : Calls} {name : CString} {a : ℕ} {p p₁ : Process}
    (h : SocketStep calls name a p p₁) :
    p₁.blocks = p.blocks ∧ p₁.threads = p.threads ∧ p₁.cmdHandler = p.cmdHandler ∧
      p₁.commands = p.commands := by
  cases h <;> exact ⟨rfl, rfl, rfl, rfl⟩

/-- What `cli_create` leaves when it returns 0. -/
theorem created_serving {b : Builtins} {calls : Calls} {name : CString} {a : ℕ} {p p₁ : Process}
    (ha : a ∉ p.blocks) (h : SocketStep calls name a (p.malloc a calls.junk) p₁) {p₂ : Process}
    (hp₂ : p₂ = if calls.pthreadCreate = none then (p₁.pipeOn a).spawn a else p₁.pipeOn a) :
    (statements.foldl (Statement.run b calls name a) p₂).cmdHandler = some a ∧
      (Serving name p (statements.foldl (Statement.run b calls name a) p₂) a ↔
        calls.Listens ∧ calls.pthreadCreate = none) := by
  obtain ⟨commands, regcnt, hrun⟩ := statements_run b calls name a p₂
  obtain ⟨rd, wr, kind, hrd, hwr, hkrd, hkwr, hkind, hpipe⟩ := pipeOn_cases p₁ a
  obtain ⟨hblocks, hthreads, -, -⟩ := h.frame
  rw [hrun]
  rw [hpipe] at hp₂
  refine ⟨rfl, ?_⟩
  constructor
  · intro hs
    have hthread : calls.pthreadCreate = none := by
      by_contra hnone
      rw [if_neg hnone] at hp₂
      subst hp₂
      have hsame : a :: p.threads = p.threads := hs.thread.symm.trans hthreads
      exact List.cons_ne_self a p.threads hsame
    refine ⟨?_, hthread⟩
    rw [if_pos hthread] at hp₂
    obtain ⟨fd, -, hin, hnew, hlistens⟩ := hs.socket
    cases h with
    | listens hl => exact hl
    | fails hl kind' files =>
      subst hp₂
      rcases Finset.mem_insert.mp hin with rfl | hin
      · cases hkwr.symm.trans hlistens
      · rcases Finset.mem_insert.mp hin with rfl | hin
        · cases hkrd.symm.trans hlistens
        · exact absurd hin hnew
  · rintro ⟨hlistens, hthread⟩
    rw [if_pos hthread] at hp₂
    cases h with
    | fails hl => exact absurd hlistens hl
    | listens hl =>
      subst hp₂
      -- the socket was opened before the pipe
      have hfd : lowestFree p.fds ∉ p.fds := lowestFree_notMem p.fds
      have hin : lowestFree p.fds ∈ insert wr (insert rd (insert (lowestFree p.fds) p.fds)) := by
        simp
      have hkfd : kind (lowestFree p.fds) = .listening (socketPath name p.pid) :=
        (hkind _ (Finset.mem_insert_self _ _)).trans (Function.update_self ..)
      have hrd' : rd ∉ p.fds := fun hmem => hrd (Finset.mem_insert_of_mem hmem)
      have hwr' : wr ∉ p.fds := fun hmem => hwr (Finset.mem_insert_of_mem hmem)
      have hrdin : rd ∈ insert wr (insert rd (insert (lowestFree p.fds) p.fds)) := by simp
      have hwrin : wr ∈ insert wr (insert rd (insert (lowestFree p.fds) p.fds)) := by simp
      refine ⟨⟨Finset.mem_insert_self a p.blocks, ha⟩, ⟨lowestFree p.fds, ?_, hin, hfd, hkfd⟩,
        ⟨rd, wr, ?_, ?_, hrdin, hrd', hwrin, hwr', hkrd, hkwr⟩, rfl⟩
      all_goals simp [Process.modify, Process.spawn, Process.malloc]

theorem Process.close_frame (p : Process) (fd : ℤ) :
    (p.close fd).fds ⊆ p.fds ∧ (p.close fd).blocks = p.blocks ∧
      (p.close fd).cmdHandler = p.cmdHandler ∧ (p.close fd).commands = p.commands := by
  rw [close]
  split
  · exact ⟨Finset.Subset.refl _, rfl, rfl, rfl⟩
  · exact ⟨Finset.erase_subset _ _, rfl, rfl, rfl⟩

/-- Closing the socket of the handler leaves no descriptor that was not there. -/
theorem SocketStep.close_subset {calls : Calls} {name : CString} {a : ℕ} {p p₁ : Process}
    (h : SocketStep calls name a p p₁) : (p₁.close (p₁.handlers a).socketFd).fds ⊆ p.fds := by
  cases h with
  | listens =>
    have hfd : (((p.listenOn (socketPath name p.pid)).modify a fun h =>
        { h with socketFd := lowestFree p.fds }).handlers a).socketFd = lowestFree p.fds := by
      simp [Process.modify]
    rw [hfd, Process.close_new rfl]
  | fails => exact (Process.close_frame _ _).1

/-- Without a pipe, `cli_create` takes back all it did. -/
theorem taken_back {calls : Calls} {name : CString} {a : ℕ} {p p₁ : Process} (ha : a ∉ p.blocks)
    (h : SocketStep calls name a (p.malloc a calls.junk) p₁) :
    let p' := (p₁.close (p₁.handlers a).socketFd).free a
    p'.cmdHandler = p.cmdHandler ∧ p'.commands = p.commands ∧ p'.fds ⊆ p.fds ∧
      p'.blocks ⊆ p.blocks := by
  obtain ⟨hblocks, -, hinstalled, hcommands⟩ := h.frame
  obtain ⟨-, hclose, hclose₁, hclose₂⟩ := p₁.close_frame (p₁.handlers a).socketFd
  refine ⟨hclose₁.trans hinstalled, hclose₂.trans hcommands, h.close_subset, ?_⟩
  change (p₁.close (p₁.handlers a).socketFd).blocks.erase a ⊆ p.blocks
  rw [hclose, hblocks]
  exact (Finset.erase_insert ha).subset

/-- `cli_create` can rely on its calls: it fails before it makes any, or at the pipe, or the socket
listens and the thread runs. -/
def Calls.Reliable (calls : Calls) (name : CString) : Prop :=
  32 < name.len + 1 ∨ calls.malloc = false ∨ calls.pipe ≠ none ∨
    (calls.Listens ∧ calls.pthreadCreate = none)

/-- With a pipe `cli_create` returns 0, so it has to have all the rest. -/
theorem createSafe_of_pipe {b : Builtins} {calls : Calls} {name : CString} {p : Process}
    (hname : name.len + 1 ≤ 32) (hmalloc : calls.malloc = true) (hpipe : calls.pipe = none) :
    CreateSafe b calls name p ↔ calls.Listens ∧ calls.pthreadCreate = none := by
  have ha : lowestFree p.blocks ∉ p.blocks := lowestFree_notMem p.blocks
  obtain ⟨p₁, hstep, hcreate⟩ :=
    createOn_cases b calls hname (lowestFree p.blocks) (p.malloc (lowestFree p.blocks) calls.junk)
  obtain ⟨hinstalled, hserving⟩ := created_serving (b := b) ha hstep rfl
  rw [if_pos hpipe] at hcreate
  simp only [CreateSafe, cliCreate, if_neg (not_lt.mpr hname), hmalloc, hcreate]
  constructor
  · rintro (⟨-, a, ha', hs⟩ | ⟨hne, -⟩)
    · obtain rfl := Option.some.inj (hinstalled.symm.trans ha')
      exact hserving.mp hs
    · exact absurd rfl hne
  · intro h
    exact .inl ⟨rfl, _, hinstalled, hserving.mpr h⟩

/-- The answer of `cli_create` can be relied on where the pipe fails, or nothing does. -/
theorem createSafe_iff (b : Builtins) (calls : Calls) (name : CString) (p : Process) :
    CreateSafe b calls name p ↔ calls.Reliable name := by
  rw [Calls.Reliable]
  by_cases hname : 32 < name.len + 1
  · simp [CreateSafe, cliCreate, hname, eInval]
  by_cases hmalloc : calls.malloc = false
  · simp [CreateSafe, cliCreate, hname, hmalloc, eNoSpc]
  by_cases hpipe : calls.pipe = none
  · rw [createSafe_of_pipe (not_lt.mp hname) (Bool.eq_true_of_not_eq_false hmalloc) hpipe]
    simp [hname, hmalloc, hpipe]
  · have ha : lowestFree p.blocks ∉ p.blocks := lowestFree_notMem p.blocks
    obtain ⟨p₁, hstep, hcreate⟩ :=
      createOn_cases b calls (not_lt.mp hname) (lowestFree p.blocks)
        (p.malloc (lowestFree p.blocks) calls.junk)
    rw [if_neg hpipe] at hcreate
    have hret : (-1 : ℤ) ≠ 0 := by decide
    have hsafe : CreateSafe b calls name p := by
      simp only [CreateSafe, cliCreate, if_neg hname, if_neg hmalloc, hcreate]
      exact .inr ⟨hret, taken_back ha hstep⟩
    exact ⟨fun _ => .inr (.inr (.inl hpipe)), fun _ => hsafe⟩

/-- A handler with nothing in it. -/
def blankHandler : CliHandler where
  name := ⟨[], nul_notMem_nil⟩
  socketFd := 0
  cdp := ⟨none, 0, 0⟩
  pipeRd := 0
  pipeWr := 0
  state := 0

/-- A process with nothing of a server in it. -/
def idleProcess : Process where
  pid := 7
  pid_lt := by decide
  fds := ∅
  kind := fun _ => .other
  files := []
  blocks := ∅
  handlers := fun _ => blankHandler
  threads := []
  cmdHandler := none
  commands := List.replicate commandsSize ⟨none, [], none⟩
  regcnt := 0
  exitHandlers := 0

/-- The handlers print nothing. -/
def silent : Builtins := ⟨fun _ _ _ => [], fun _ _ _ => []⟩

/-- There is no descriptor left for the socket, `EMFILE`: `cli_create` installs a handler without one. -/
theorem create_without_socket :
    ¬ CreateSafe silent { Calls.succeed blankHandler fun _ => 0 with socket := some 24 }
      ⟨[115], by decide⟩ idleProcess := by
  rw [createSafe_of_pipe (by decide) rfl rfl]
  rintro ⟨⟨hsocket, -⟩, -⟩
  cases hsocket

end CcUtils.Cli
