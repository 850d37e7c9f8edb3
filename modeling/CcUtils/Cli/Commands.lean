import CcUtils.Cli.Server

/-!
# The table of commands

The table `commands` over any number of calls of `cli_register`, and what `command_find` finds in it.
`cli_register` takes the first slot without a handler, `command_find` stops at the first slot without
a name, and `regcnt` counts what was registered; that the three agree is an invariant of the runs.

When it registers a command, `cli_register` ends without a value. It takes a lock of the handler that
`cli_create` installs and `cli_destroy` takes back, and does not ask whether there is one.

## What is proved

* `register_step` — what one call does to the table.
* `registerAll_run`, `registerAll_null` — what any number of calls does, with a handler and without one.
* `commandFind_table` — what is found in the table.
* `commandsServe_iff` — so when the table is as it is to be.
-/

namespace CcUtils.Cli

open CcUtils.Lib
open CcUtils.Binlog (ascii)

/-! ### Calls of `cli_register` -/

/-- The arguments of `cli_register`, none of them `NULL`. -/
structure Registration where
  /-- `sub_command`. -/
  subCommand : CString
  /-- `help`. -/
  help : List UInt8
  /-- `execute`. -/
  execute : Handler

/-- What is stored in the slot. -/
def Registration.command (r : Registration) : Command := ⟨some r.subCommand.val, r.help, some r.execute⟩

/-- `cli_register`: the number it returns, if it does, and the process. -/
def register (r : Registration) (p : Process) : Exec (Option ℤ × Process) :=
  if commandsSize - 1 ≤ p.regcnt then .ok (some (-eNoSpc), p)
  else do
    -- the lock of `cmd_handler`
    check (p.cmdHandler ≠ none) .nullDeref
    .ok (none, cliRegister r.command p)

/-- A call of `cli_register`, and the handler that is installed when it is made: since the call before,
`cli_create` may have installed one, and `cli_destroy` taken it back. -/
structure RegisterCall where
  /-- `cmd_handler`. -/
  cmdHandler : Option ℕ
  /-- The arguments. -/
  registration : Registration

/-- Calls of `cli_register` one after the other, with the numbers they return. -/
def registerAll : List RegisterCall → Process → Exec (List (Option ℤ) × Process)
  | [], p => .ok ([], p)
  | c :: calls, p => do
    let (ret, p) ← register c.registration { p with cmdHandler := c.cmdHandler }
    let (rets, p) ← registerAll calls p
    .ok (ret :: rets, p)

theorem registerAll_cons {c : RegisterCall} {calls : List RegisterCall} {p p₁ p₂ : Process}
    {ret : Option ℤ} {rets : List (Option ℤ)}
    (h₁ : register c.registration { p with cmdHandler := c.cmdHandler } = .ok (ret, p₁))
    (h₂ : registerAll calls p₁ = .ok (rets, p₂)) :
    registerAll (c :: calls) p = .ok (ret :: rets, p₂) := by
  simp only [registerAll, h₁, ok_bind, h₂]

/-! ### The table -/

/-- A slot that was never taken. -/
def freeSlot : Command := ⟨none, [], none⟩

/-- How many commands there is room for. -/
def commandsRoom : ℕ := commandsSize - 1

/-- The table with these registrations in its first slots. -/
def tableOf (calls : List Registration) : List Command :=
  calls.map Registration.command ++ List.replicate (commandsSize - calls.length) freeSlot

/-- The invariant: the table and the counter are those of the registrations. -/
structure HasTable (calls : List Registration) (p : Process) : Prop where
  room : calls.length ≤ commandsRoom
  commands : p.commands = tableOf calls
  regcnt : p.regcnt = calls.length

/-- The first slot that is free is the one after the commands. -/
theorem registerSlot_tableOf (calls : List Registration) (r : Registration) {n : ℕ} :
    registerSlot r.command (calls.map Registration.command ++ freeSlot :: List.replicate n freeSlot) =
      calls.map Registration.command ++ r.command :: List.replicate n freeSlot := by
  induction calls with
  | nil => rfl
  | cons c calls ih => exact congrArg (c.command :: ·) ih

theorem tableOf_concat {calls : List Registration} (r : Registration)
    (h : calls.length < commandsRoom) :
    registerSlot r.command (tableOf calls) = tableOf (calls ++ [r]) := by
  obtain ⟨n, hn⟩ : ∃ n, commandsSize - calls.length = n + 1 := by
    refine ⟨commandsSize - calls.length - 1, ?_⟩
    rw [commandsRoom] at h
    omega
  have hn' : commandsSize - (calls ++ [r]).length = n := by
    rw [List.length_append, List.length_singleton]
    omega
  rw [tableOf, tableOf, hn, hn', List.replicate_succ, registerSlot_tableOf, List.map_append,
    List.append_assoc]
  rfl

/-- Where there is room, the command takes the next slot. -/
theorem HasTable.concat {calls : List Registration} {p : Process} (h : HasTable calls p)
    (hlt : calls.length < commandsRoom) (r : Registration) :
    HasTable (calls ++ [r]) (cliRegister r.command p) := by
  have hfree : ¬ commandsSize - 1 ≤ p.regcnt := by
    rw [h.regcnt]
    exact Nat.not_le_of_lt hlt
  rw [cliRegister, if_neg hfree]
  refine ⟨?_, ?_, ?_⟩
  · rw [List.length_append]
    exact hlt
  · rw [h.commands]
    exact tableOf_concat r hlt
  · rw [h.regcnt, List.length_append]
    rfl

/-- **One call** registers the command, if there is a handler, or finds the table full and changes nothing. -/
theorem register_step {calls : List Registration} {p : Process} (h : HasTable calls p)
    (r : Registration) :
    (calls.length < commandsRoom ∧
      ((p.cmdHandler = none ∧ register r p = .error .nullDeref) ∨
        (p.cmdHandler ≠ none ∧ register r p = .ok (none, cliRegister r.command p)))) ∨
      (calls.length = commandsRoom ∧ register r p = .ok (some (-eNoSpc), p)) := by
  rcases Nat.lt_or_eq_of_le h.room with hlt | heq
  · have hfree : ¬ commandsSize - 1 ≤ p.regcnt := by
      rw [h.regcnt]
      exact Nat.not_le_of_lt hlt
    refine .inl ⟨hlt, ?_⟩
    rw [register, if_neg hfree]
    by_cases hserver : p.cmdHandler = none
    · refine .inl ⟨hserver, ?_⟩
      rw [check_false (not_not.mpr hserver)]
      rfl
    · refine .inr ⟨hserver, ?_⟩
      rw [check_true hserver]
      rfl
  · refine .inr ⟨heq, if_pos ?_⟩
    rw [h.regcnt]
    exact heq.ge

/-- Installing a handler, or taking it back, leaves the table. -/
theorem HasTable.install {calls : List Registration} {p : Process} (h : HasTable calls p) (a : Option ℕ) :
    HasTable calls { p with cmdHandler := a } := ⟨h.room, h.commands, h.regcnt⟩

/-- The calls that there is room for when `n` commands were registered before. -/
def acceptedCalls (n : ℕ) (calls : List RegisterCall) : List RegisterCall := calls.take (commandsRoom - n)

/-- The numbers that the calls return then. -/
def returns (n : ℕ) (calls : List RegisterCall) : List (Option ℤ) :=
  (acceptedCalls n calls).map (fun _ => none) ++ (calls.drop (commandsRoom - n)).map fun _ => some (-eNoSpc)

/-- The first call, where there is room. -/
theorem acceptedCalls_cons {n : ℕ} (h : n < commandsRoom) (c : RegisterCall) (calls : List RegisterCall) :
    acceptedCalls n (c :: calls) = c :: acceptedCalls (n + 1) calls ∧
      returns n (c :: calls) = none :: returns (n + 1) calls := by
  obtain ⟨k, hk⟩ : ∃ k, commandsRoom - n = k + 1 := ⟨commandsRoom - n - 1, by omega⟩
  have hk' : commandsRoom - (n + 1) = k := by omega
  rw [returns, returns, acceptedCalls, acceptedCalls, hk, hk']
  exact ⟨rfl, rfl⟩

/-- And where there is none. -/
theorem acceptedCalls_full {n : ℕ} (h : n = commandsRoom) (c : RegisterCall) (calls : List RegisterCall) :
    acceptedCalls n (c :: calls) = [] ∧ acceptedCalls n calls = [] ∧
      returns n (c :: calls) = some (-eNoSpc) :: returns n calls := by
  have hk : n - n = 0 := Nat.sub_self _
  subst h
  rw [returns, returns, acceptedCalls, acceptedCalls, hk]
  exact ⟨rfl, rfl, rfl⟩

/-- **A run** registers the commands there is room for, and refuses the others, if a handler is there whenever
there is room. -/
theorem registerAll_run {done : List Registration} {p : Process} (h : HasTable done p)
    {calls : List RegisterCall} (hserver : ∀ c ∈ acceptedCalls done.length calls, c.cmdHandler ≠ none) :
    ∃ p', registerAll calls p = .ok (returns done.length calls, p') ∧
      HasTable (done ++ (acceptedCalls done.length calls).map RegisterCall.registration) p' := by
  induction calls generalizing done p with
  | nil => exact ⟨p, by simp [registerAll, returns, acceptedCalls], by simpa [acceptedCalls] using h⟩
  | cons c calls ih =>
    rcases register_step (h.install c.cmdHandler) c.registration with ⟨hlt, hcall⟩ | ⟨heq, hret⟩
    · obtain ⟨haccepted, hreturned⟩ := acceptedCalls_cons hlt c calls
      rw [haccepted] at hserver ⊢
      obtain ⟨hc, hcalls⟩ := List.forall_mem_cons.mp hserver
      rcases hcall with ⟨hnone, -⟩ | ⟨-, hret⟩
      · exact absurd hnone hc
      · have h₁ := (h.install c.cmdHandler).concat hlt c.registration
        rw [← List.length_singleton (a := c.registration), ← List.length_append] at hcalls hreturned ⊢
        obtain ⟨p₂, hrets, h₂⟩ := ih h₁ hcalls
        refine ⟨p₂, ?_, ?_⟩
        · rw [registerAll_cons hret hrets, hreturned]
        · rw [List.map_cons, List.append_cons]
          exact h₂
    · obtain ⟨hnone, hnone', hreturned⟩ := acceptedCalls_full heq c calls
      obtain ⟨p₂, hrets, h₂⟩ := ih (h.install c.cmdHandler) (by simp [hnone'])
      rw [hnone'] at h₂
      refine ⟨p₂, ?_, ?_⟩
      · rw [registerAll_cons hret hrets, hreturned]
      · rw [hnone]
        exact h₂

/-- **Without a handler** where there is room, the run ends at a null pointer. -/
theorem registerAll_null {done : List Registration} {p : Process} (h : HasTable done p)
    {calls : List RegisterCall} (hnone : ∃ c ∈ acceptedCalls done.length calls, c.cmdHandler = none) :
    registerAll calls p = .error .nullDeref := by
  induction calls generalizing done p with
  | nil =>
    obtain ⟨c, hc, -⟩ := hnone
    simp [acceptedCalls] at hc
  | cons c calls ih =>
    rw [registerAll]
    rcases register_step (h.install c.cmdHandler) c.registration with ⟨hlt, hcall⟩ | ⟨heq, -⟩
    · rcases hcall with ⟨-, hret⟩ | ⟨hserver, hret⟩
      · rw [hret]
        rfl
      · have h₁ := (h.install c.cmdHandler).concat hlt c.registration
        rw [(acceptedCalls_cons hlt c calls).1] at hnone
        obtain ⟨c', hc', hnull⟩ := hnone
        have hc : c' ∈ acceptedCalls (done ++ [c.registration]).length calls := by
          rcases List.mem_cons.mp hc' with rfl | hc'
          · exact absurd hnull hserver
          · rw [List.length_append]
            exact hc'
        rw [hret, ok_bind]
        dsimp only
        rw [ih h₁ ⟨c', hc, hnull⟩]
        rfl
    · rw [(acceptedCalls_full heq c calls).1] at hnone
      obtain ⟨c', hc', -⟩ := hnone
      cases hc'

/-- The names and the helps in the table. -/
theorem entries_tableOf (calls : List Registration) :
    entries (tableOf calls) = calls.map fun r => (some r.subCommand.val, r.help) := by
  have hfree : ∀ n, (List.replicate n freeSlot).filter (fun c => c.execute.isSome) = [] := by
    intro n
    rw [List.filter_replicate]
    rfl
  have htaken : (calls.map Registration.command).filter (fun c => c.execute.isSome) =
      calls.map Registration.command := by
    rw [List.filter_eq_self]
    intro c hc
    obtain ⟨r, -, rfl⟩ := List.mem_map.mp hc
    rfl
  rw [entries, tableOf, List.filter_append, htaken, hfree, List.append_nil, List.map_map]
  rfl

/-- **What is found** is the first command whose name agrees on 32 bytes. -/
theorem commandFind_table (calls : List Registration) (s : CString) :
    commandFind (tableOf calls) s.val =
      (calls.find? fun r => strncmp commandMaxLen r.subCommand.val s.val = 0).map
        Registration.command := by
  rw [tableOf]
  generalize commandsSize - calls.length = n
  induction calls with
  | nil => cases n <;> rfl
  | cons r calls ih =>
    by_cases hr : strncmp commandMaxLen r.subCommand.val s.val = 0
    · rw [List.find?_cons_of_pos (by simpa using hr)]
      exact if_pos hr
    · rw [List.find?_cons_of_neg (by simpa using hr), ← ih]
      exact if_neg hr

/-! ### Every history -/

/-- The table as the program starts with it. -/
structure Fresh (p : Process) : Prop where
  commands : p.commands = List.replicate commandsSize freeSlot
  regcnt : p.regcnt = 0

/-- **The table of commands** after any number of calls is as it is to be: the first 1023 are accepted, the
others return an error, the table has the accepted ones in its first slots, in order, and a command is found by
the first of them whose name agrees on 32 bytes. -/
def CommandsServe (p : Process) (calls : List RegisterCall) : Prop :=
  ∃ p', registerAll calls p =
      .ok ((calls.take 1023).map (fun _ => none) ++
        (calls.drop 1023).map (fun _ => some (-eNoSpc)), p') ∧
    p'.commands = tableOf ((calls.take 1023).map RegisterCall.registration) ∧
    ∀ s : CString, commandFind p'.commands s.val =
      (((calls.take 1023).map RegisterCall.registration).find? fun r =>
        strncmp commandMaxLen r.subCommand.val s.val = 0).map Registration.command

/-- So it is exactly when a handler is installed at each of the first 1023 calls. -/
theorem commandsServe_iff {p : Process} (h : Fresh p) (calls : List RegisterCall) :
    CommandsServe p calls ↔ ∀ c ∈ calls.take 1023, c.cmdHandler ≠ none := by
  have h₀ : HasTable [] p := ⟨Nat.zero_le _, h.commands, h.regcnt⟩
  constructor
  · rintro ⟨p', hrun, -⟩
    by_contra hnone
    push Not at hnone
    rw [registerAll_null h₀ hnone] at hrun
    cases hrun
  · intro hserver
    obtain ⟨p', hrun, h'⟩ := registerAll_run h₀ hserver
    have hcommands : p'.commands = tableOf ((calls.take 1023).map RegisterCall.registration) := h'.commands
    refine ⟨p', hrun, hcommands, fun s => ?_⟩
    rw [hcommands]
    exact commandFind_table _ s

/-- A command without a text, and with a handler that prints nothing. -/
def quietRegistration (subCommand : CString) : Registration := ⟨subCommand, [], fun _ _ _ => []⟩

/-- Two commands, `"get"` and `"put"`, of a server. -/
def serverCalls : List RegisterCall :=
  [⟨some 0, quietRegistration ⟨[103, 101, 116], by decide⟩⟩,
    ⟨some 0, quietRegistration ⟨[112, 117, 116], by decide⟩⟩]

/-- A command that is registered when there is no server. -/
def lateCall : RegisterCall := ⟨none, quietRegistration ⟨[112, 117, 116], by decide⟩⟩

/-- Behind the two of the server, the third call is made when it is gone. -/
theorem commandsServe_iff_gone :
    CommandsServe idleProcess serverCalls ∧ ¬ CommandsServe idleProcess (serverCalls ++ [lateCall]) := by
  have h : Fresh idleProcess := ⟨rfl, rfl⟩
  constructor
  · rw [commandsServe_iff h]
    simp [serverCalls]
  · rw [commandsServe_iff h]
    simp [serverCalls, lateCall]

/-- A command that is registered before there is a server. -/
theorem not_commandsServe_early : ¬ CommandsServe idleProcess [lateCall] := by
  rintro ⟨p', hrun, -⟩
  cases hrun

end CcUtils.Cli
