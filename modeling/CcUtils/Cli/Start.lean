import CcUtils.Cli.Server

/-!
# The start of the server's thread

`cli_create` starts the thread before it has initialised the handler, and goes on beside it. The thread
waits in `poll` until a client connects, then it tests `handler->state` and serves the client. So what
keeps it from a handler that is not ready is only that no client comes.

A run is a list of actions of three parties: `cli_create` executes its next statement, a client connects,
the thread takes its next step. A client that connects before the thread is started is one that
connects first.

## What is proved

* `exec_creates` — without the others, `cli_create` does what it does in `createOn`.
* `exec_doAccept` — without the others, the thread serves a client as `doAccept` does.
* `Waits.step` — the thread stays in `poll` while no client has come.
* `neverPremature_iff` — exactly the orders in which clients come late enough are safe.
-/

namespace CcUtils.Cli

open CcUtils.Lib

/-! ### The thread -/

/-- A client, as what the calls on its connection do, and the contents of memory while it is served. -/
structure Client where
  /-- What the calls of `read` do. -/
  conn : List ReadResult
  /-- What `cmd` holds beforehand. -/
  stack : ℕ → UInt8
  /-- What the calls of `write` do. -/
  writes : List WriteResult
  /-- The memory around the output. -/
  around : ℤ → UInt8
  /-- The contents of the block `cdp_reinit` may allocate. -/
  fresh : ℕ → UInt8

/-- The client as `do_accept` meets it. -/
def Client.request (c : Client) (commands : List Command) : Request :=
  ⟨commands, c.conn, c.stack, c.writes, c.around, c.fresh⟩

/-- Where the thread is in `msg_poll` and `do_accept`. -/
inductive Poll
  /-- It waits in `poll`. -/
  | poll
  /-- `poll` has returned; next it tests `handler->state`. -/
  | test
  /-- Next it accepts a connection and reads the request. -/
  | accept
  /-- Next it decodes the request and calls `command_execute`. -/
  | execute (c : Client)
  /-- Next it writes the output. -/
  | output (c : Client)
  /-- Next it makes the buffer ready for the next request. -/
  | reinit (c : Client)
  /-- It has returned from `msg_poll`. -/
  | ended

/-- `cli_create` after `pthread_create`, the thread, and the clients. -/
structure Start where
  /-- The process. -/
  process : Process
  /-- The statements `cli_create` has still to execute. -/
  rest : List Statement
  /-- Where the thread is. -/
  thread : Poll
  /-- The clients that have connected and were not accepted. -/
  waiting : List Client

/-- An action. -/
inductive Act
  /-- `cli_create` executes its next statement. -/
  | create
  /-- A client connects. -/
  | connect (c : Client)
  /-- The thread takes its next step. -/
  | thread
  /-- `poll` fails. -/
  | pollError
  /-- `accept` fails. -/
  | acceptError

/-- The next step of the thread; none where it has to wait, has ended, or dies. -/
def threadStep (a : ℕ) (s : Start) : Option Start :=
  match s.thread with
  | .poll => if s.waiting.isEmpty then none else some { s with thread := .test }
  | .test =>
    if (s.process.handlers a).state = cliDown then some { s with thread := .ended }
    else some { s with thread := .accept }
  | .accept =>
    match s.waiting with
    | [] => none
    | c :: waiting =>
      match acceptLoop cmdSize [] c.conn with
      | some _ => some { s with thread := .execute c, waiting := waiting }
      | none => some { s with thread := .poll, waiting := waiting }
  | .execute c =>
    match (c.request s.process.commands).prints with
    | .ok (some ps) =>
      match printAll (s.process.handlers a).cdp ps with
      | .ok cdp =>
        some { s with
          process := s.process.modify a fun h => { h with cdp := cdp }, thread := .output c }
      | .error _ => none
    | _ => none
  | .output c =>
    match cdpOutput (s.process.handlers a).cdp >>= cstr >>= fun text =>
        (safeWrite 0 text.length c.writes).ret with
    | .ok _ => some { s with thread := .reinit c }
    | .error _ => none
  | .reinit c =>
    some { s with
      process := s.process.modify a fun h => { h with cdp := cdpReinit c.fresh h.cdp },
      thread := .poll }
  | .ended => none

variable (b : Builtins) (calls : Calls) (name : CString) (a : ℕ)

/-- An action, where it is possible. -/
def step (s : Start) : Act → Option Start
  | .create =>
    match s.rest with
    | [] => none
    | st :: rest => some { s with process := st.run b calls name a s.process, rest := rest }
  | .connect c => some { s with waiting := s.waiting ++ [c] }
  | .thread => threadStep a s
  | .pollError =>
    match s.thread with
    | .poll => some { s with thread := .ended }
    | _ => none
  | .acceptError =>
    match s.thread with
    | .accept => some { s with thread := .poll }
    | _ => none

/-- A run. -/
def exec (s : Start) (acts : List Act) : Option Start := acts.foldlM (step b calls name a) s

/-- The thread has just been started. -/
def started (p : Process) : Start := ⟨p, statements, .poll, []⟩

/-! ### What must not happen -/

/-- The action tests `handler->state` before `cli_create` has assigned it, or calls `command_execute` or
writes the output before `cdp_init`. -/
def Premature (s : Start) : Act → Prop
  | .thread =>
    match s.thread with
    | .test => .setState ∈ s.rest
    | .execute _ => .cdpInit ∈ s.rest
    | .output _ => .cdpInit ∈ s.rest
    | _ => False
  | _ => False

/-- That happens nowhere in the run. -/
def NeverPremature (p : Process) (acts : List Act) : Prop :=
  ∀ pre act post s, acts = pre ++ act :: post → exec b calls name a (started p) pre = some s →
    ¬ Premature s act

/-- The action is not one of the thread. -/
def Act.outside : Act → Bool
  | .create => true
  | .connect _ => true
  | _ => false

/-- The action is one of `cli_create`. -/
def Act.creates : Act → Bool
  | .create => true
  | _ => false

/-- Clients connect only when `cli_create` has assigned `handler->state`. -/
def Late (acts : List Act) : Prop :=
  ∀ pre c post, acts = pre ++ .connect c :: post →
    .setState ∉ statements.drop (pre.countP Act.creates)

/-! ### Each party by itself -/

variable {b calls name a}

theorem exec_nil (s : Start) : exec b calls name a s [] = some s := rfl

theorem exec_cons {s s' : Start} {act : Act} (h : step b calls name a s act = some s')
    (acts : List Act) : exec b calls name a s (act :: acts) = exec b calls name a s' acts := by
  rw [exec, List.foldlM_cons, h]
  rfl

theorem exec_append (s : Start) (acts acts' : List Act) :
    exec b calls name a s (acts ++ acts') =
      (exec b calls name a s acts).bind fun s' => exec b calls name a s' acts' := by
  rw [exec, List.foldlM_append]
  rfl

/-- Without the others, `cli_create` does what it does in `createOn`. -/
theorem exec_creates (p : Process) :
    exec b calls name a (started p) (List.replicate statements.length .create) =
      some ⟨statements.foldl (Statement.run b calls name a) p, [], .poll, []⟩ := rfl

theorem exists_frame {r : Request} {ps : List Print} (h : r.prints = .ok (some ps)) :
    ∃ frame, acceptLoop cmdSize [] r.conn = some frame := by
  rw [Request.prints] at h
  split at h
  · cases h
  · rename_i frame hframe
    exact ⟨frame, hframe⟩

/-- Without the others, the thread serves a client as `do_accept` does. -/
theorem exec_doAccept {s : Start} {c : Client} {waiting : List Client} {cdp : Cmdprint}
    {reply : Reply} (hthread : s.thread = .accept) (hwaiting : s.waiting = c :: waiting)
    (h : doAccept (s.process.handlers a).cdp (c.request s.process.commands) = .ok (cdp, some reply)) :
    ∃ s', exec b calls name a s [.thread, .thread, .thread, .thread] = some s' ∧
      s'.thread = .poll ∧ s'.waiting = waiting ∧ (s'.process.handlers a).cdp = cdp := by
  obtain ⟨ps, hprints, h⟩ := bind_eq_ok.mp h
  cases ps with
  | none => cases h
  | some ps =>
    obtain ⟨cdp₁, hprint, h⟩ := bind_eq_ok.mp h
    obtain ⟨output, houtput, h⟩ := bind_eq_ok.mp h
    obtain ⟨text, htext, h⟩ := bind_eq_ok.mp h
    obtain ⟨ret, hret, h⟩ := bind_eq_ok.mp h
    cases h
    obtain ⟨frame, hframe⟩ := exists_frame hprints
    have hframe' : acceptLoop cmdSize [] c.conn = some frame := hframe
    have hret' : (safeWrite 0 text.length c.writes).ret = .ok ret := hret
    have haccept : step b calls name a s .thread =
        some { s with thread := .execute c, waiting := waiting } := by
      simp only [step, threadStep, hthread, hwaiting, hframe']
    have hexecute : step b calls name a { s with thread := .execute c, waiting := waiting } .thread =
        some { s with
          process := s.process.modify a fun h => { h with cdp := cdp₁ }, thread := .output c,
          waiting := waiting } := by
      simp only [step, threadStep, hprints, hprint]
    have hcdp : ((s.process.modify a fun h => { h with cdp := cdp₁ }).handlers a).cdp = cdp₁ := by
      simp [Process.modify]
    have hwrite : step b calls name a { s with
          process := s.process.modify a fun h => { h with cdp := cdp₁ }, thread := .output c,
          waiting := waiting } .thread =
        some { s with
          process := s.process.modify a fun h => { h with cdp := cdp₁ }, thread := .reinit c,
          waiting := waiting } := by
      simp only [step, threadStep, hcdp, houtput, ok_bind, htext, hret']
    have hrun := (exec_cons haccept [.thread, .thread, .thread]).trans
      ((exec_cons hexecute _).trans (exec_cons hwrite _))
    refine ⟨_, hrun.trans rfl, rfl, rfl, ?_⟩
    simp [Process.modify, Client.request]

/-! ### The thread waits -/

/-- The thread changes nothing of what `cli_create` has still to do. -/
theorem threadStep_rest {s s' : Start} (h : threadStep a s = some s') : s'.rest = s.rest := by
  rw [threadStep] at h
  split at h
  case h_1 =>
    split at h <;> cases h
    rfl
  case h_2 => split at h <;> cases h <;> rfl
  case h_3 =>
    split at h
    · cases h
    · split at h <;> cases h <;> rfl
  case h_4 =>
    split at h
    · split at h <;> cases h
      rfl
    · cases h
  case h_5 =>
    split at h <;> cases h
    rfl
  case h_6 =>
    cases h
    rfl
  case h_7 => cases h

/-- It does not leave `poll` without a client. -/
theorem threadStep_waits {s : Start} (h : s.thread = .poll ∨ s.thread = .ended)
    (hwaiting : s.waiting = []) : threadStep a s = none := by
  rcases h with h | h
  · rw [threadStep, h, hwaiting]
    rfl
  · rw [threadStep, h]

/-- What `cli_create` has still to do depends on how far it is. -/
theorem step_rest {s s' : Start} {act : Act} (h : step b calls name a s act = some s') :
    s'.rest = s.rest.drop ([act].countP Act.creates) := by
  cases act with
  | create =>
    rw [step] at h
    split at h
    · cases h
    · rename_i st rest hrest
      cases h
      rw [hrest]
      rfl
  | connect c =>
    cases h
    rfl
  | thread => exact threadStep_rest h
  | pollError =>
    rw [step] at h
    split at h <;> cases h
    rfl
  | acceptError =>
    rw [step] at h
    split at h <;> cases h
    rfl

/-- While `handler->state` is not assigned, no client is there, and the thread has not left `poll` for
one. -/
def Waits (s : Start) : Prop :=
  .setState ∈ s.rest → (s.thread = .poll ∨ s.thread = .ended) ∧ s.waiting = []

/-- So it stays, if no client connects too early. -/
theorem Waits.step {s s' : Start} {act : Act} (h : Waits s)
    (hlate : ∀ c, act = .connect c → .setState ∉ s.rest)
    (hstep : Cli.step b calls name a s act = some s') : Waits s' := by
  intro hrest
  have hbefore : .setState ∈ s.rest := by
    rw [step_rest hstep] at hrest
    exact List.mem_of_mem_drop hrest
  obtain ⟨hthread, hwaiting⟩ := h hbefore
  cases act with
  | create =>
    rw [Cli.step] at hstep
    split at hstep <;> cases hstep
    exact ⟨hthread, hwaiting⟩
  | connect c => exact absurd hbefore (hlate c rfl)
  | thread =>
    rw [Cli.step, threadStep_waits hthread hwaiting] at hstep
    cases hstep
  | pollError =>
    rw [Cli.step] at hstep
    split at hstep <;> cases hstep
    exact ⟨.inr rfl, hwaiting⟩
  | acceptError =>
    rw [Cli.step] at hstep
    split at hstep <;> cases hstep
    exact ⟨.inl rfl, hwaiting⟩

/-- A thread that waits does nothing premature. -/
theorem Waits.not_premature {s : Start} (h : Waits s)
    (hinit : .cdpInit ∈ s.rest → .setState ∈ s.rest) (act : Act) : ¬ Premature s act := by
  have hassigned : s.thread ≠ .poll → s.thread ≠ .ended → .setState ∉ s.rest := by
    intro hpoll hended hrest
    obtain ⟨hp | he, -⟩ := h hrest
    · exact hpoll hp
    · exact hended he
  cases act with
  | thread =>
    rw [Premature]
    split
    case h_1 hthread =>
      rw [hthread] at hassigned
      exact hassigned nofun nofun
    case h_2 hthread =>
      rw [hthread] at hassigned
      exact fun hrest => hassigned nofun nofun (hinit hrest)
    case h_3 hthread =>
      rw [hthread] at hassigned
      exact fun hrest => hassigned nofun nofun (hinit hrest)
    case h_4 => exact not_false
  | _ => exact not_false

/-! ### Runs -/

theorem exec_concat {s s' : Start} {acts : List Act} {act : Act} :
    exec b calls name a s (acts ++ [act]) = some s' ↔
      ∃ s₁, exec b calls name a s acts = some s₁ ∧ step b calls name a s₁ act = some s' := by
  have hone : ∀ s₁, exec b calls name a s₁ [act] = step b calls name a s₁ act := by
    intro s₁
    rw [exec, List.foldlM_cons]
    simp only [List.foldlM_nil]
    exact bind_pure _
  rw [exec_append, Option.bind_eq_some_iff]
  simp only [hone]

theorem Late.of_append {acts acts' : List Act} (h : Late (acts ++ acts')) : Late acts := by
  rintro pre c post rfl
  apply h pre c (post ++ acts')
  rw [List.append_assoc, List.cons_append]

/-- In a run without early clients the thread waits, and `cli_create` has done so many statements. -/
theorem Late.exec {p : Process} {acts : List Act} (h : Late acts) {s : Start}
    (hs : Cli.exec b calls name a (started p) acts = some s) :
    Waits s ∧ s.rest = statements.drop (acts.countP Act.creates) := by
  induction acts using List.reverseRecOn generalizing s with
  | nil =>
    cases hs
    exact ⟨fun _ => ⟨.inl rfl, rfl⟩, rfl⟩
  | append_singleton acts act ih =>
    obtain ⟨s₁, hs₁, hstep⟩ := exec_concat.mp hs
    obtain ⟨hwaits, hrest⟩ := ih h.of_append hs₁
    refine ⟨hwaits.step (fun c hc => ?_) hstep, ?_⟩
    · rw [hrest]
      subst hc
      exact h acts c [] rfl
    · rw [step_rest hstep, hrest, List.drop_drop, List.countP_append]

/-- The buffer is initialised before the state is assigned. -/
theorem setState_of_cdpInit {k : ℕ} (h : .cdpInit ∈ statements.drop k) :
    .setState ∈ statements.drop k := by
  cases k with
  | zero => decide
  | succ k =>
    have htail : Statement.cdpInit ∉ statements.tail := by decide
    exact absurd (List.mem_of_mem_drop (i := k) (by rwa [List.drop_tail])) htail

/-- So nothing premature happens in it. -/
theorem Late.neverPremature {acts : List Act} (h : Late acts) (p : Process) :
    NeverPremature b calls name a p acts := by
  rintro pre act post s rfl hs
  obtain ⟨hwaits, hrest⟩ := h.of_append.exec hs
  apply hwaits.not_premature
  rw [hrest]
  exact setState_of_cdpInit

/-- `cli_create` and the clients act in the same order. -/
def SameOutside (acts acts' : List Act) : Prop :=
  acts.filter Act.outside = acts'.filter Act.outside

theorem countP_creates_filter (acts : List Act) :
    (acts.filter Act.outside).countP Act.creates = acts.countP Act.creates := by
  rw [List.countP_filter]
  apply List.countP_congr
  intro act _
  cases act <;> simp [Act.creates, Act.outside]

/-- Whether clients come late does not depend on the steps of the thread. -/
theorem Late.of_filter {acts : List Act} (h : Late (acts.filter Act.outside)) : Late acts := by
  rintro pre c post rfl
  rw [← countP_creates_filter]
  apply h (pre.filter Act.outside) c (post.filter Act.outside)
  rw [List.filter_append, List.filter_cons_of_pos rfl]

/-- An early client, with the actions of `cli_create` before it: `cli_create` can execute them while the
thread does nothing. -/
theorem exec_outside {p : Process} {acts : List Act} (houtside : ∀ act ∈ acts, act.outside = true)
    (hearly : .setState ∈ statements.drop (acts.countP Act.creates)) :
    ∃ s, exec b calls name a (started p) acts = some s ∧ s.thread = .poll ∧
      s.rest = statements.drop (acts.countP Act.creates) := by
  induction acts using List.reverseRecOn with
  | nil => exact ⟨_, rfl, rfl, rfl⟩
  | append_singleton acts act ih =>
    rw [List.countP_append, ← List.drop_drop] at hearly
    have hbefore := List.mem_of_mem_drop hearly
    obtain ⟨s, hs, hthread, hrest⟩ :=
      ih (fun act' hact => houtside act' (List.mem_append_left _ hact)) hbefore
    have hact := houtside act (List.mem_append_right _ List.mem_cons_self)
    have hstep : ∃ s', step b calls name a s act = some s' ∧ s'.thread = .poll := by
      cases act with
      | create =>
        obtain ⟨st, rest, hrest'⟩ :=
          List.exists_cons_of_ne_nil (List.ne_nil_of_mem (hrest ▸ hbefore))
        refine ⟨{ s with process := st.run b calls name a s.process, rest := rest }, ?_, hthread⟩
        rw [step, hrest']
      | connect c => exact ⟨_, rfl, hthread⟩
      | _ => cases hact
    obtain ⟨s', hstep, hthread'⟩ := hstep
    refine ⟨s', exec_concat.mpr ⟨s, hs, hstep⟩, hthread', ?_⟩
    rw [step_rest hstep, hrest, List.drop_drop, List.countP_append]

/-- With an early client the thread can be faster than `cli_create`. -/
theorem exists_premature {acts : List Act} (h : ¬ Late acts) (p : Process) :
    ∃ acts', SameOutside acts' acts ∧ ¬ NeverPremature b calls name a p acts' := by
  rw [Late] at h
  push Not at h
  obtain ⟨pre, c, post, rfl, hearly⟩ := h
  rw [← countP_creates_filter] at hearly
  have houtside : ∀ act ∈ pre.filter Act.outside, act.outside = true :=
    fun act hact => (List.mem_filter.mp hact).2
  obtain ⟨s, hs, hthread, hrest⟩ :=
    @exec_outside b calls name a p _ houtside hearly
  refine ⟨pre.filter Act.outside ++ [.connect c, .thread] ++
    .thread :: post.filter Act.outside, ?_, fun hnever => ?_⟩
  · have hin : Act.outside (.connect c) = true := rfl
    have hout : Act.outside .thread = false := rfl
    simp [SameOutside, hin, hout]
  · have hconnect : step b calls name a s (.connect c) =
        some { s with waiting := s.waiting ++ [c] } := rfl
    have hpoll : step b calls name a { s with waiting := s.waiting ++ [c] } .thread =
        some { s with waiting := s.waiting ++ [c], thread := .test } := by
      rw [step, threadStep, hthread]
      simp
    refine hnever _ .thread _ { s with waiting := s.waiting ++ [c], thread := .test } rfl ?_ ?_
    · rw [exec_append, hs, Option.bind_some, exec_cons hconnect, exec_cons hpoll, exec_nil]
    · rw [Premature]
      exact hrest ▸ hearly

/-- However the thread runs beside them, the order of the statements of `cli_create` and of the clients is
safe exactly when no client connects before the state is assigned. -/
theorem neverPremature_iff (b : Builtins) (calls : Calls) (name : CString) (a : ℕ) (p : Process)
    (acts : List Act) :
    (∀ acts', SameOutside acts' acts → NeverPremature b calls name a p acts') ↔
      Late (acts.filter Act.outside) := by
  constructor
  · intro hnever
    by_contra hearly
    obtain ⟨acts', hsame, hpremature⟩ := exists_premature hearly p
    apply hpremature
    apply hnever
    rw [SameOutside, hsame, List.filter_filter]
    simp only [Bool.and_self]
  · intro hlate acts' hsame
    apply Late.neverPremature
    apply Late.of_filter
    rw [SameOutside] at hsame
    rwa [hsame]

/-- A client that asks for `hi` and is there at once. -/
def earlyClient : Client :=
  ⟨hiRequest.conn, hiRequest.stack, hiRequest.writes, hiRequest.around, hiRequest.fresh⟩

/-- Its command, registered by an earlier server, is executed while `cli_create` has not even
initialised the buffer. -/
theorem served_before_init :
    ¬ ∀ acts, NeverPremature silent (Calls.succeed blankHandler fun _ => 0) ⟨[115], by decide⟩ 0
      { idleProcess with commands := hiRequest.commands } acts := by
  intro hnever
  refine hnever (.connect earlyClient :: List.replicate 4 .thread)
    (.connect earlyClient :: List.replicate 3 .thread) .thread [] _ rfl rfl ?_
  exact List.mem_cons_self

end CcUtils.Cli
