import CcUtils.Cli.Server

/-!
# The life of the command server

`cli_destroy`, and the exit handler `remove_all_cleanup_files` that each `cli_create` registers. The exit
handler takes the path of the socket file from `cmd_handler`, and `cli_destroy` clears `cmd_handler` and
leaves the file where it is: so a server that was destroyed is one too many at the exit.

## What is proved

* `cliCreate_succeed`, `cliDestroy_frame` — what a history is made of.
* `Kept.runs_idle`, `Lost.runs` — what a history keeps, until a server is destroyed and from then on.
* `exitsCleanly_iff` — the exit is clean exactly when no server was destroyed.
-/

namespace CcUtils.Cli

open CcUtils.Lib

/-! ### Destroying -/

/-- `cdp_destroy`: the block is freed, the pointer to it stays. -/
def cdpDestroy (cdp : Cmdprint) : Cmdprint := { cdp with bufSize := 0, pos := 0 }

/-- `pthread_join`. -/
def Process.join (p : Process) (a : ℕ) : Process := { p with threads := p.threads.erase a }

/-- `cli_destroy`. -/
def cliDestroy (p : Process) : Process :=
  match p.cmdHandler with
  | none => p
  | some a =>
    -- the thread wakes up and ends
    let p := (p.modify a fun h => { h with state := cliDown }).join a
    let p := p.modify a fun h => { h with cdp := cdpDestroy h.cdp }
    let p := p.close (p.handlers a).socketFd
    let p := p.close (p.handlers a).pipeRd
    let p := p.close (p.handlers a).pipeWr
    let p := (p.modify a fun h => { h with state := cliFini }).free a
    { p with cmdHandler := none }

/-- `remove_all_cleanup_files`. -/
def removeAllCleanupFiles (p : Process) : Exec Process :=
  match p.cmdHandler with
  | none => .error .nullDeref
  | some a => .ok (p.unlink (socketPath (p.handlers a).name p.pid))

/-- The exit handler is called a number of times. -/
def cleanUp : ℕ → Process → Exec Process
  | 0, p => .ok p
  | k + 1, p => do
    let p ← removeAllCleanupFiles p
    cleanUp k p

/-- The normal exit of the process. -/
def normalExit (p : Process) : Exec Process := cleanUp p.exitHandlers p

/-! ### Histories -/

/-- A call; `junk` and `fresh` are what `malloc` gives. -/
inductive Op
  | create (name : CString) (junk : CliHandler) (fresh : ℕ → UInt8)
  | destroy

/-- The call, when all system calls succeed. -/
def Op.run (b : Builtins) (p : Process) : Op → Process
  | .create name junk fresh => (cliCreate b (Calls.succeed junk fresh) name p).2
  | .destroy => cliDestroy p

/-- The call is made: `cli_create` only while no handler is installed, and where `bind` can succeed. -/
def Op.Allowed (p : Process) : Op → Prop
  | .create name _ _ => p.cmdHandler = none ∧ (name.len + 1 ≤ 32 → socketPath name p.pid ∉ p.files)
  | .destroy => True

/-- The call installs a handler. -/
def Op.Installs : Op → Prop
  | .create name _ _ => name.len + 1 ≤ 32
  | .destroy => False

/-- The process goes from one state to another by the calls. -/
inductive Runs (b : Builtins) : Process → List Op → Process → Prop
  | nil (p : Process) : Runs b p [] p
  | cons {p p' : Process} {op : Op} {ops : List Op} (h : op.Allowed p)
      (hs : Runs b (op.run b p) ops p') : Runs b p (op :: ops) p'

/-- The exit handlers run without a fault, and of the socket files only those are left that were there
before. -/
def ExitsCleanly (before p : Process) : Prop :=
  ∃ q, normalExit p = .ok q ∧ ∀ path ∈ q.files, path ∈ before.files

/-- No server is destroyed: `cli_destroy` is called before there is one. -/
def NoneDestroyed (ops : List Op) : Prop := ops.Pairwise fun op op' => op.Installs → op' ≠ .destroy

/-! ### What a call changes -/

theorem cliCreate_rejects (b : Builtins) (calls : Calls) {name : CString}
    (hname : ¬ name.len + 1 ≤ 32) (p : Process) : cliCreate b calls name p = (-eInval, p) :=
  if_pos (not_le.mp hname)

/-- A server that is created has its file, and one more exit handler. -/
theorem cliCreate_succeed (b : Builtins) (junk : CliHandler) (fresh : ℕ → UInt8) {name : CString}
    (hname : name.len + 1 ≤ 32) (p : Process) :
    ∃ a p', (cliCreate b (Calls.succeed junk fresh) name p).2 = p' ∧ p'.cmdHandler = some a ∧
      (p'.handlers a).name = name ∧ p'.pid = p.pid ∧
      p'.files = socketPath name p.pid :: p.files ∧ p'.exitHandlers = p.exitHandlers + 1 := by
  obtain ⟨p₁, hstep, hcreate⟩ :=
    createOn_cases b (Calls.succeed junk fresh) hname (lowestFree p.blocks)
      (p.malloc (lowestFree p.blocks) junk)
  have hcreate' : (cliCreate b (Calls.succeed junk fresh) name p).2 =
      statements.foldl (Statement.run b (Calls.succeed junk fresh) name (lowestFree p.blocks))
        ((p₁.pipeOn (lowestFree p.blocks)).spawn (lowestFree p.blocks)) := by
    rw [cliCreate, if_neg (not_lt.mpr hname)]
    exact congrArg Prod.snd hcreate
  obtain ⟨commands, regcnt, hrun⟩ := statements_run b (Calls.succeed junk fresh) name
    (lowestFree p.blocks) ((p₁.pipeOn (lowestFree p.blocks)).spawn (lowestFree p.blocks))
  refine ⟨lowestFree p.blocks, _, hcreate'.trans hrun, rfl, ?_⟩
  have hlistens : (Calls.succeed junk fresh).Listens := ⟨rfl, rfl, rfl⟩
  cases hstep with
  | listens => exact ⟨by simp [Process.modify], rfl, rfl, rfl⟩
  | fails hfails => exact absurd hlistens hfails

theorem cliDestroy_none {p : Process} (h : p.cmdHandler = none) : cliDestroy p = p := by
  rw [cliDestroy, h]

theorem Process.close_life (p : Process) (fd : ℤ) :
    (p.close fd).pid = p.pid ∧ (p.close fd).files = p.files ∧
      (p.close fd).exitHandlers = p.exitHandlers := by
  rw [close]
  split <;> exact ⟨rfl, rfl, rfl⟩

/-- A server that is destroyed leaves its file, and its exit handler. -/
theorem cliDestroy_frame (p : Process) :
    (cliDestroy p).cmdHandler = none ∧ (cliDestroy p).pid = p.pid ∧
      (cliDestroy p).files = p.files ∧ (cliDestroy p).exitHandlers = p.exitHandlers := by
  rw [cliDestroy]
  split
  case h_1 hnone => exact ⟨hnone, rfl, rfl, rfl⟩
  case h_2 a ha =>
    simp only [Process.free, Process.modify, Process.close_life, true_and]
    exact ⟨rfl, rfl, rfl⟩

/-! ### What a history keeps -/

/-- What holds until a server is destroyed: there is none yet, or there is one, with the one file that is
new and the one exit handler. -/
inductive Kept (before p : Process) : Prop
  | idle (hnone : p.cmdHandler = none) (hfiles : p.files = before.files) (hexit : p.exitHandlers = 0)
  | serves (a : ℕ) (hsome : p.cmdHandler = some a)
      (hfiles : p.files = socketPath (p.handlers a).name p.pid :: before.files)
      (hnew : socketPath (p.handlers a).name p.pid ∉ before.files) (hexit : p.exitHandlers = 1)

/-- What holds from then on: a file is lost, since no handler has its path. -/
structure Lost (before p : Process) : Prop where
  file : ∃ path ∈ p.files, path ∉ before.files ∧
    ∀ a, p.cmdHandler = some a → socketPath (p.handlers a).name p.pid ≠ path
  exit : 0 < p.exitHandlers

/-- The exit is clean after the one. -/
theorem Kept.exitsCleanly {before p : Process} (h : Kept before p) : ExitsCleanly before p := by
  cases h with
  | idle hnone hfiles hexit =>
    refine ⟨p, ?_, fun path hpath => hfiles ▸ hpath⟩
    rw [normalExit, hexit, cleanUp]
  | serves a hsome hfiles hnew hexit =>
    refine ⟨p.unlink (socketPath (p.handlers a).name p.pid), ?_, fun path hpath => ?_⟩
    · simp only [normalExit, hexit, cleanUp, removeAllCleanupFiles, hsome, ok_bind]
    · rw [Process.unlink, List.mem_filter, hfiles, List.mem_cons] at hpath
      obtain ⟨rfl | hpath, hne⟩ := hpath
      · simp at hne
      · exact hpath

/-- A lost file is not unlinked by the exit handlers. -/
theorem Lost.cleanUp {before p q : Process} {k : ℕ} (h : Lost before p) (hq : cleanUp k p = .ok q) :
    ∃ path ∈ q.files, path ∉ before.files := by
  induction k generalizing p with
  | zero =>
    cases hq
    obtain ⟨path, hpath, hnew, -⟩ := h.file
    exact ⟨path, hpath, hnew⟩
  | succ k ih =>
    obtain ⟨p₁, hp₁, hq⟩ := bind_eq_ok.mp hq
    refine ih ?_ hq
    obtain ⟨path, hpath, hnew, hne⟩ := h.file
    rw [removeAllCleanupFiles] at hp₁
    split at hp₁
    case h_1 => cases hp₁
    case h_2 a ha =>
      cases hp₁
      refine ⟨⟨path, List.mem_filter.mpr ⟨hpath, ?_⟩, hnew, hne⟩, h.exit⟩
      exact decide_eq_true (hne a ha).symm

/-- Nor is it after the other. -/
theorem Lost.not_exitsCleanly {before p : Process} (h : Lost before p) : ¬ ExitsCleanly before p := by
  rintro ⟨q, hq, hfiles⟩
  obtain ⟨path, hpath, hnew⟩ := h.cleanUp hq
  exact hnew (hfiles path hpath)

/-- A lost file stays lost. -/
theorem Lost.run {b : Builtins} {before p : Process} (h : Lost before p) {op : Op}
    (hop : op.Allowed p) : Lost before (op.run b p) := by
  obtain ⟨⟨path, hpath, hnew, hne⟩, hexit⟩ := h
  cases op with
  | create name junk fresh =>
    by_cases hname : name.len + 1 ≤ 32
    · obtain ⟨a, p', hp', hsome, hname', hpid, hfiles, hexit'⟩ :=
        cliCreate_succeed b junk fresh hname p
      rw [Op.run, hp']
      have hother : socketPath name p.pid ≠ path := fun he => hop.2 hname (he ▸ hpath)
      refine ⟨⟨path, hfiles ▸ List.mem_cons_of_mem _ hpath, hnew, fun a' ha' => ?_⟩, by omega⟩
      obtain rfl := Option.some.inj (hsome.symm.trans ha')
      rwa [hname', hpid]
    · rw [Op.run, cliCreate_rejects b _ hname]
      exact ⟨⟨path, hpath, hnew, hne⟩, hexit⟩
  | destroy =>
    obtain ⟨hnone, hpid, hfiles, hexit'⟩ := cliDestroy_frame p
    refine ⟨⟨path, hfiles ▸ hpath, hnew, fun a ha => ?_⟩, hexit' ▸ hexit⟩
    cases hnone.symm.trans ha

theorem Lost.runs {b : Builtins} {before p p' : Process} {ops : List Op} (h : Lost before p)
    (hruns : Runs b p ops p') : Lost before p' := by
  induction hruns with
  | nil p => exact h
  | cons hop _ ih => exact ih (h.run hop)

/-! ### Whole histories -/

/-- From a process with a server: a call of `cli_destroy` loses its file. -/
theorem Kept.runs_serves {b : Builtins} {before p p' : Process} {ops : List Op} (h : Kept before p)
    {a : ℕ} (hsome : p.cmdHandler = some a) (hruns : Runs b p ops p') :
    (Kept before p' ∧ Op.destroy ∉ ops) ∨ (Lost before p' ∧ Op.destroy ∈ ops) := by
  cases hruns with
  | nil => exact .inl ⟨h, List.not_mem_nil⟩
  | @cons _ _ op ops hop hruns =>
    cases op with
    | create => cases hop.1.symm.trans hsome
    | destroy =>
      refine .inr ⟨?_, List.mem_cons_self⟩
      apply Lost.runs _ hruns
      cases h with
      | idle hnone => cases hnone.symm.trans hsome
      | serves a' hsome' hfiles hnew hexit =>
        obtain ⟨hnone, hpid, hfiles', hexit'⟩ := cliDestroy_frame p
        have hmem : socketPath (p.handlers a').name p.pid ∈ (cliDestroy p).files := by
          rw [hfiles', hfiles]
          exact List.mem_cons_self
        refine ⟨⟨_, hmem, hnew, fun a ha => ?_⟩, ?_⟩
        · cases hnone.symm.trans ha
        · change 0 < (cliDestroy p).exitHandlers
          omega

/-- From a process without one. -/
theorem Kept.runs_idle {b : Builtins} {before p p' : Process} {ops : List Op} (h : Kept before p)
    (hnone : p.cmdHandler = none) (hruns : Runs b p ops p') :
    (Kept before p' ∧ NoneDestroyed ops) ∨ (Lost before p' ∧ ¬ NoneDestroyed ops) := by
  induction hruns with
  | nil => exact .inl ⟨h, List.Pairwise.nil⟩
  | @cons p p' op ops hop hruns ih =>
    rw [NoneDestroyed, List.pairwise_cons]
    by_cases hinstalls : op.Installs
    · cases op with
      | destroy => exact hinstalls.elim
      | create name junk fresh =>
        obtain ⟨a, p₁, hp₁, hsome, hname', hpid, hfiles, hexit⟩ :=
          cliCreate_succeed b junk fresh hinstalls p
        have hserves : Kept before p₁ := by
          cases h with
          | serves a' hsome' => cases hnone.symm.trans hsome'
          | idle _ hfiles₀ hexit₀ =>
            refine .serves a hsome ?_ ?_ ?_
            · rw [hfiles, hname', hpid, hfiles₀]
            · rw [hname', hpid, ← hfiles₀]
              exact hop.2 hinstalls
            · rw [hexit, hexit₀]
        rw [Op.run, hp₁] at hruns
        rcases hserves.runs_serves hsome hruns with ⟨hk, hn⟩ | ⟨hl, hd⟩
        · have hne : ∀ op' ∈ ops, op' ≠ .destroy := fun op' hop' he => hn (he ▸ hop')
          exact .inl ⟨hk, fun op' hop' _ => hne op' hop',
            List.pairwise_of_forall_mem_list fun _ _ op' hop' _ => hne op' hop'⟩
        · exact .inr ⟨hl, fun hall => hall.1 _ hd hinstalls rfl⟩
    · have hsame : op.run b p = p := by
        cases op with
        | create name junk fresh => rw [Op.run, cliCreate_rejects b _ hinstalls]
        | destroy => exact cliDestroy_none hnone
      rw [hsame] at ih
      have hhead : ∀ op' ∈ ops, op.Installs → op' ≠ .destroy := fun _ _ hins => absurd hins hinstalls
      rcases ih h hnone with ⟨hk, hn⟩ | ⟨hl, hn⟩
      · exact .inl ⟨hk, hhead, hn⟩
      · exact .inr ⟨hl, fun hall => hn hall.2⟩

/-- The exit is clean exactly when no server was destroyed. -/
theorem exitsCleanly_iff {b : Builtins} {p p' : Process} {ops : List Op} (hnone : p.cmdHandler = none)
    (hexit : p.exitHandlers = 0) (hruns : Runs b p ops p') :
    ExitsCleanly p p' ↔ NoneDestroyed ops := by
  have hkept : Kept p p := .idle hnone rfl hexit
  rcases hkept.runs_idle hnone hruns with ⟨hk, hn⟩ | ⟨hl, hn⟩
  · exact iff_of_true hk.exitsCleanly hn
  · exact iff_of_false hl.not_exitsCleanly hn

/-- A server is created, and is there at the exit. -/
theorem exitsCleanly_created :
    ExitsCleanly idleProcess (Op.run silent idleProcess (.create ⟨[115], by decide⟩ blankHandler
      fun _ => 0)) ↔ NoneDestroyed [.create ⟨[115], by decide⟩ blankHandler fun _ => 0] :=
  exitsCleanly_iff rfl rfl (.cons ⟨rfl, fun _ => List.not_mem_nil⟩ (.nil _))

/-- A server is created and destroyed. -/
theorem exit_after_destroy :
    ∃ p', Runs silent idleProcess
      [.create ⟨[115], by decide⟩ blankHandler fun _ => 0, .destroy] p' ∧
        ¬ ExitsCleanly idleProcess p' := by
  have hkept : Kept idleProcess idleProcess := .idle rfl rfl rfl
  have hruns : Runs silent idleProcess
      [.create ⟨[115], by decide⟩ blankHandler fun _ => 0, .destroy] _ :=
    .cons ⟨rfl, fun _ => List.not_mem_nil⟩ (.cons trivial (.nil _))
  refine ⟨_, hruns, ?_⟩
  rcases hkept.runs_idle rfl hruns with ⟨-, hn⟩ | ⟨hl, -⟩
  · exact absurd rfl ((List.pairwise_cons.mp hn).1 _ List.mem_cons_self
      (show 1 + 1 ≤ 32 by decide))
  · exact hl.not_exitsCleanly

end CcUtils.Cli
