import CcUtils.Cli.Life
import CcUtils.Cli.Start

/-!
# The end of the server's thread

`cli_destroy` sets the state to `CLI_DOWN`, writes a byte to the pipe that the thread polls, waits for the
thread, and takes back what the thread has used. The thread goes on beside it: it may be waiting in `poll`,
or be anywhere in `do_accept`, and clients still connect.

A run is a list of actions of the three parties. What `do_accept` does with the buffer of the handler, from
the request to `cdp_reinit`, is one action of the thread, at the end of `safe_write`. That the bytes of a
request come and that those of the reply are taken are actions of their own, for nothing makes a client send
the ones or read the others.

## What is proved

* `cliDestroy_eq` — without the others, `cli_destroy` does what it does in `cliDestroy`.
* `Stop.threadStep_cases` — what a step of the thread does.
* `Stopping.step` — what every action keeps.
* `Stopping.nearer` — from `CLI_DOWN` on the thread only comes nearer to its end.
* `Stopping.goesOn` — `cli_destroy` waits for nothing but the thread, and that for nothing but its client.
* `cliDestroy_stops` — in every run.
-/

namespace CcUtils.Cli

open CcUtils.Lib

/-! ### The parties -/

/-- The statements of `cli_destroy`. -/
inductive Teardown
  | setDown
  | pipeWakeup
  | join
  | cdpDestroy
  | closeSocket
  | closePipeRd
  | closePipeWr
  | setFini
  | free
  | clear

/-- All of them, in order. -/
def teardown : List Teardown :=
  [.setDown, .pipeWakeup, .join, .cdpDestroy, .closeSocket, .closePipeRd, .closePipeWr, .setFini, .free, .clear]

/-- What a statement does to the process. -/
def Teardown.run (a : ℕ) (p : Process) : Teardown → Process
  | .setDown => p.modify a fun h => { h with state := cliDown }
  | .pipeWakeup => p
  | .join => p.join a
  | .cdpDestroy => p.modify a fun h => { h with cdp := CcUtils.Cli.cdpDestroy h.cdp }
  | .closeSocket => p.close (p.handlers a).socketFd
  | .closePipeRd => p.close (p.handlers a).pipeRd
  | .closePipeWr => p.close (p.handlers a).pipeWr
  | .setFini => p.modify a fun h => { h with state := cliFini }
  | .free => p.free a
  | .clear => { p with cmdHandler := none }

/-- One after the other they are `cli_destroy`. -/
theorem cliDestroy_eq {p : Process} {a : ℕ} (h : p.cmdHandler = some a) :
    cliDestroy p = teardown.foldl (Teardown.run a) p := by
  rw [cliDestroy, h]
  rfl

/-- Where the thread is in `msg_poll` and `do_accept`. -/
inductive Place
  /-- It waits in `poll`. -/
  | poll
  /-- Next it tests `handler->state`; `poll` has said whether a client is there. -/
  | test (client : Bool)
  /-- Next it accepts a connection. -/
  | accept
  /-- It reads a request, of which all is there or not. -/
  | read (c : Client) (sent : Bool)
  /-- It executes the command, sends what was printed, which the client has taken or not, and makes the buffer
  ready. -/
  | serve (c : Client) (taken : Bool)
  /-- It has returned from `msg_poll`. -/
  | ended

/-- `cli_destroy`, the thread, and the clients. -/
structure Stop where
  /-- The process. -/
  process : Process
  /-- The statements that `cli_destroy` has still to execute. -/
  rest : List Teardown
  /-- Where the thread is. -/
  thread : Place
  /-- How many bytes are in the pipe, which nobody reads. -/
  woken : ℕ
  /-- The clients that have connected and were not accepted, and whether they have sent their request. -/
  waiting : List (Client × Bool)

/-- An action. -/
inductive StopAct
  /-- `cli_destroy` executes its next statement. -/
  | destroy
  /-- The thread takes its next step. -/
  | thread
  /-- A client connects. -/
  | connect (c : Client) (sent : Bool)
  /-- The client that is served has sent all of its request, or taken all of its reply, or closes the
  connection. -/
  | arrive
  /-- `poll` fails. -/
  | pollError
  /-- `accept` fails. -/
  | acceptError

/-- `pthread_join` has to wait. -/
def Teardown.waits : Teardown → Place → Bool
  | .join, .ended => false
  | .join, _ => true
  | _, _ => false

/-- The bytes that a statement writes to the pipe. -/
def Teardown.bytes : Teardown → ℕ
  | .pipeWakeup => 1
  | _ => 0

/-- The next step of the thread; none where it has to wait, has ended, or dies. -/
def Stop.threadStep (a : ℕ) (s : Stop) : Option Stop :=
  match s.thread with
  | .poll =>
    if s.waiting.isEmpty ∧ s.woken = 0 then none
    else some { s with thread := .test (!s.waiting.isEmpty) }
  | .test client =>
    if (s.process.handlers a).state = cliDown then some { s with thread := .ended }
    else if client then some { s with thread := .accept }
    else some { s with thread := .poll }
  | .accept =>
    match s.waiting with
    | [] => none
    | (c, sent) :: waiting => some { s with thread := .read c sent, waiting := waiting }
  | .read c sent =>
    if sent then
      match acceptLoop cmdSize [] c.conn with
      | some _ => some { s with thread := .serve c false }
      | none => some { s with thread := .poll }
    else none
  | .serve c taken =>
    if taken then
      match doAccept (s.process.handlers a).cdp (c.request s.process.commands) with
      | .ok (cdp, _) =>
        some { s with process := s.process.modify a fun h => { h with cdp := cdp }, thread := .poll }
      | .error _ => none
    else none
  | .ended => none

/-- An action, where it is possible. -/
def Stop.step (a : ℕ) (s : Stop) : StopAct → Option Stop
  | .destroy =>
    match s.rest with
    | [] => none
    | t :: rest =>
      if t.waits s.thread then none
      else some { s with process := t.run a s.process, rest := rest, woken := s.woken + t.bytes }
  | .thread => s.threadStep a
  | .connect c sent => some { s with waiting := s.waiting ++ [(c, sent)] }
  | .arrive =>
    match s.thread with
    | .read c false => some { s with thread := .read c true }
    | .serve c false => some { s with thread := .serve c true }
    | _ => none
  | .pollError =>
    match s.thread with
    | .poll => some { s with thread := .ended }
    | _ => none
  | .acceptError =>
    match s.thread with
    | .accept => some { s with thread := .poll }
    | _ => none

/-- A run. -/
def Stop.exec (a : ℕ) (s : Stop) (acts : List StopAct) : Option Stop := acts.foldlM (Stop.step a) s

/-- `cli_destroy` is called. -/
def called (p : Process) (thread : Place) (waiting : List (Client × Bool)) : Stop :=
  ⟨p, teardown, thread, 0, waiting⟩

/-! ### What a run is to keep -/

/-- The process with another buffer in the handler. -/
def Process.withCdp (p : Process) (a : ℕ) (cdp : Cmdprint) : Process :=
  p.modify a fun h => { h with cdp := cdp }

/-- The process after the first statements. -/
def tornDown (a : ℕ) (k : ℕ) (p : Process) : Process := (teardown.take k).foldl (Teardown.run a) p

/-- The server survives the client: its request does not stop it, and `safe_write` comes to its end. -/
def Client.Survived (commands : List Command) (c : Client) : Prop :=
  (c.request commands).Served ∧ (c.request commands).Sent

/-- The thread is where it can be with these clients, all of which the server survives. -/
def Place.Fits (commands : List Command) (waiting : List (Client × Bool)) : Place → Prop
  | .test client => client = true → waiting ≠ []
  | .accept => waiting ≠ []
  | .read c _ => c.Survived commands
  | .serve c _ => c.Survived commands
  | _ => True

/-- The invariant: `k` statements were executed, on a process in which the thread has used the buffer; the
third of them only when the thread had ended, and after the second there is a byte in the pipe. -/
structure Stopping (p : Process) (a : ℕ) (k : ℕ) (s : Stop) : Prop where
  rest : s.rest = teardown.drop k
  process : ∃ cdp buf, s.process = tornDown a k (p.withCdp a cdp) ∧ Holds cdp buf []
  joined : 3 ≤ k → s.thread = .ended
  woken : 2 ≤ k → 0 < s.woken
  clients : ∀ w ∈ s.waiting, w.1.Survived p.commands
  fits : s.thread.Fits p.commands s.waiting

/-- Nothing that the thread uses was taken back. -/
structure Intact (p : Process) (a : ℕ) (q : Process) : Prop where
  blocks : q.blocks = p.blocks
  fds : q.fds = p.fds
  threads : q.threads = p.threads
  descriptors : (q.handlers a).socketFd = (p.handlers a).socketFd ∧
    (q.handlers a).pipeRd = (p.handlers a).pipeRd ∧ (q.handlers a).pipeWr = (p.handlers a).pipeWr
  buffer : ∃ buf, Holds (q.handlers a).cdp buf []

/-- How many steps the thread is from its end, when the state is `CLI_DOWN`. -/
def Place.steps : Place → ℕ
  | .ended => 0
  | .test _ => 1
  | .poll => 2
  | .serve _ _ => 3
  | .read _ _ => 4
  | .accept => 5

/-- And how many times it will wait for its client. -/
def Place.arrivals : Place → ℕ
  | .serve _ false => 1
  | .read _ true => 1
  | .read _ false => 2
  | .accept => 2
  | _ => 0

/-- It is about to accept a client. -/
def Place.accepts : Place → ℕ
  | .accept => 1
  | _ => 0

/-- The action is one of the thread. -/
def StopAct.ofThread : StopAct → Bool
  | .thread => true
  | _ => false

/-- The action is one of the client that is served. -/
def StopAct.arrives : StopAct → Bool
  | .arrive => true
  | _ => false

/-- A client connects. -/
def StopAct.connects : StopAct → Bool
  | .connect _ _ => true
  | _ => false

/-- The server survives the client that connects. -/
def StopAct.Survived (commands : List Command) : StopAct → Prop
  | .connect c _ => c.Survived commands
  | _ => True

variable {p : Process} {a k : ℕ} {s s' : Stop}

/-! ### The process -/

/-- Using the buffer and the first statements do not disturb each other. -/
theorem withCdp_tornDown (hk : k < 3) (cdp cdp' : Cmdprint) :
    (tornDown a k (p.withCdp a cdp)).withCdp a cdp' = tornDown a k (p.withCdp a cdp') := by
  obtain rfl | rfl | rfl : k = 0 ∨ k = 1 ∨ k = 2 := by omega
  all_goals
    simp only [tornDown, teardown, List.take_zero, List.take_succ_cons, List.foldl_nil, List.foldl_cons,
      Teardown.run, Process.withCdp, Process.modify, Function.update_self, Function.update_idem]

theorem cdp_tornDown (hk : k < 3) (cdp : Cmdprint) :
    ((tornDown a k (p.withCdp a cdp)).handlers a).cdp = cdp := by
  obtain rfl | rfl | rfl : k = 0 ∨ k = 1 ∨ k = 2 := by omega
  all_goals
    simp only [tornDown, teardown, List.take_zero, List.take_succ_cons, List.foldl_nil, List.foldl_cons,
      Teardown.run, Process.withCdp, Process.modify, Function.update_self]

theorem state_tornDown (h1 : 1 ≤ k) (hk : k < 3) (p : Process) :
    ((tornDown a k p).handlers a).state = cliDown := by
  obtain rfl | rfl : k = 1 ∨ k = 2 := by omega
  all_goals
    simp only [tornDown, teardown, List.take_zero, List.take_succ_cons, List.foldl_nil, List.foldl_cons,
      Teardown.run, Process.modify, Function.update_self]

theorem commands_tornDown (hk : k < 3) (cdp : Cmdprint) :
    (tornDown a k (p.withCdp a cdp)).commands = p.commands := by
  obtain rfl | rfl | rfl : k = 0 ∨ k = 1 ∨ k = 2 := by omega
  all_goals rfl

/-- Until the thread is joined, `cli_destroy` takes nothing back. -/
theorem intact_tornDown (hk : k < 3) {cdp : Cmdprint} {buf : List UInt8} (h : Holds cdp buf []) :
    Intact p a (tornDown a k (p.withCdp a cdp)) := by
  refine ⟨?_, ?_, ?_, ?_, buf, ?_⟩
  rotate_right
  · rwa [cdp_tornDown hk]
  all_goals
    obtain rfl | rfl | rfl : k = 0 ∨ k = 1 ∨ k = 2 := by omega
    all_goals
      simp only [tornDown, teardown, List.take_zero, List.take_succ_cons, List.foldl_nil, List.foldl_cons,
        Teardown.run, Process.withCdp, Process.modify, Function.update_self, and_self]

/-! ### What every action keeps -/

/-- A thread that has not ended was not joined. -/
theorem Stopping.lt (h : Stopping p a k s) (hthread : s.thread ≠ .ended) : k < 3 := by
  by_contra hk
  exact hthread (h.joined (not_lt.mp hk))

theorem Stopping.survived (h : Stopping p a k s) {c : Client} {taken : Bool}
    (hthread : s.thread = .serve c taken) : c.Survived p.commands := by
  have hfits := h.fits
  rwa [hthread] at hfits

/-- A step of the thread that changes where it is and takes clients. -/
theorem Stopping.moves (h : Stopping p a k s) (hthread : s.thread ≠ .ended) {thread : Place}
    {waiting : List (Client × Bool)} (hsub : ∀ w ∈ waiting, w ∈ s.waiting)
    (hfits : thread.Fits p.commands waiting) :
    Stopping p a k { s with thread := thread, waiting := waiting } :=
  ⟨h.rest, h.process, fun hk => absurd (h.joined hk) hthread, h.woken, fun w hw => h.clients w (hsub w hw), hfits⟩

/-- What a step of the thread does. -/
inductive ThreadStep (a : ℕ) (s : Stop) : Stop → Prop
  /-- `poll` returns. -/
  | polls (hthread : s.thread = .poll) : ThreadStep a s { s with thread := .test (!s.waiting.isEmpty) }
  /-- The state is `CLI_DOWN`. -/
  | ends {client : Bool} (hthread : s.thread = .test client) (hdown : (s.process.handlers a).state = cliDown) :
      ThreadStep a s { s with thread := .ended }
  | turns (hthread : s.thread = .test true) (hup : (s.process.handlers a).state ≠ cliDown) :
      ThreadStep a s { s with thread := .accept }
  | turnsBack {client : Bool} (hthread : s.thread = .test client)
      (hup : (s.process.handlers a).state ≠ cliDown) : ThreadStep a s { s with thread := .poll }
  | accepts {c : Client} {sent : Bool} {waiting : List (Client × Bool)} (hthread : s.thread = .accept)
      (hwaiting : s.waiting = (c, sent) :: waiting) :
      ThreadStep a s { s with thread := .read c sent, waiting := waiting }
  | reads {c : Client} (hthread : s.thread = .read c true) : ThreadStep a s { s with thread := .serve c false }
  /-- There is no whole request. -/
  | leaves {c : Client} (hthread : s.thread = .read c true) : ThreadStep a s { s with thread := .poll }
  | serves {c : Client} {cdp : Cmdprint} {reply : Option Reply} (hthread : s.thread = .serve c true)
      (haccept : doAccept (s.process.handlers a).cdp (c.request s.process.commands) = .ok (cdp, reply)) :
      ThreadStep a s { s with process := s.process.withCdp a cdp, thread := .poll }

theorem Stop.threadStep_cases (hstep : s.threadStep a = some s') : ThreadStep a s s' := by
  rw [Stop.threadStep] at hstep
  split at hstep
  case h_1 hthread =>
    split at hstep <;> cases hstep
    exact .polls hthread
  case h_2 client hthread =>
    split at hstep
    · rename_i hdown
      cases hstep
      exact .ends hthread hdown
    · rename_i hup
      split at hstep
      · rename_i hclient
        cases hstep
        exact .turns (hclient ▸ hthread) hup
      · cases hstep
        exact .turnsBack hthread hup
  case h_3 hthread =>
    split at hstep
    · cases hstep
    · rename_i hwaiting
      cases hstep
      exact .accepts hthread hwaiting
  case h_4 c sent hthread =>
    split at hstep
    · rename_i hsent
      obtain rfl : sent = true := hsent
      split at hstep <;> cases hstep
      · exact .reads hthread
      · exact .leaves hthread
    · cases hstep
  case h_5 c taken hthread =>
    split at hstep
    · rename_i htaken
      obtain rfl : taken = true := htaken
      cases haccept : doAccept (s.process.handlers a).cdp (c.request s.process.commands) with
      | error e =>
        rw [haccept] at hstep
        cases hstep
      | ok out =>
        rw [haccept] at hstep
        cases hstep
        exact .serves hthread haccept
    · cases hstep
  case h_6 => cases hstep

/-- **A step of the thread.** -/
theorem Stopping.threadStep (h : Stopping p a k s) (hstep : s.threadStep a = some s') :
    Stopping p a k s' := by
  have hfits := h.fits
  cases Stop.threadStep_cases hstep with
  | polls hthread =>
    refine h.moves (by simp [hthread]) (fun w hw => hw) fun hclient => ?_
    simpa using hclient
  | ends hthread => exact h.moves (by simp [hthread]) (fun w hw => hw) trivial
  | turns hthread =>
    rw [hthread] at hfits
    exact h.moves (by simp [hthread]) (fun w hw => hw) (hfits rfl)
  | turnsBack hthread => exact h.moves (by simp [hthread]) (fun w hw => hw) trivial
  | @accepts c sent waiting hthread hwaiting =>
    refine h.moves (by simp [hthread]) (fun w hw => ?_) (h.clients (c, sent) (by simp [hwaiting]))
    rw [hwaiting]
    exact List.mem_cons_of_mem _ hw
  | reads hthread =>
    rw [hthread] at hfits
    exact h.moves (by simp [hthread]) (fun w hw => hw) hfits
  | leaves hthread => exact h.moves (by simp [hthread]) (fun w hw => hw) trivial
  | @serves c cdp₁ reply₁ hthread haccept =>
    have hk := h.lt (by simp [hthread])
    obtain ⟨hserved, hsent⟩ := h.survived hthread
    obtain ⟨cdp, buf, hprocess, hbuf⟩ := h.process
    obtain ⟨cdp', buf', reply, haccept', hbuf'⟩ := doAccept_holds hbuf hserved hsent
    rw [hprocess, cdp_tornDown hk, commands_tornDown hk, haccept'] at haccept
    cases haccept
    refine ⟨h.rest, ⟨cdp₁, buf', ?_, hbuf'⟩, fun h3 => absurd h3 (not_le.mpr hk), h.woken, h.clients, trivial⟩
    dsimp only
    rw [hprocess]
    exact withCdp_tornDown hk cdp cdp₁

theorem drop_eq_cons {t : Teardown} {rest : List Teardown} (h : teardown.drop k = t :: rest) :
    teardown.take (k + 1) = teardown.take k ++ [t] ∧ teardown.drop (k + 1) = rest := by
  have hget : teardown[k]? = some t := by
    rw [← List.head?_drop, h, List.head?_cons]
  refine ⟨?_, ?_⟩
  · rw [List.take_add_one, hget, Option.toList_some]
  · rw [← List.drop_drop, h, List.drop_one, List.tail_cons]

/-- **A statement of `cli_destroy`.** -/
theorem Stopping.destroy (h : Stopping p a k s) (hstep : s.step a .destroy = some s') :
    Stopping p a (k + 1) s' := by
  rw [Stop.step] at hstep
  split at hstep
  · cases hstep
  · rename_i t rest hrest
    split at hstep
    · cases hstep
    · rename_i hwaits
      cases hstep
      have hdrop := h.rest.symm.trans hrest
      obtain ⟨htake, hrest'⟩ := drop_eq_cons hdrop
      obtain ⟨cdp, buf, hprocess, hbuf⟩ := h.process
      refine ⟨hrest'.symm, ⟨cdp, buf, ?_, hbuf⟩, fun h3 => ?_, fun h2 => ?_, h.clients, h.fits⟩
      · rw [tornDown, htake, List.foldl_append, ← tornDown, ← hprocess]
        rfl
      · rcases Nat.lt_or_ge k 3 with hk | hk
        · obtain rfl : k = 2 := by omega
          cases hdrop
          cases hthread : s.thread with
          | ended => rfl
          | _ => simp [Teardown.waits, hthread] at hwaits
        · exact h.joined hk
      · rcases Nat.lt_or_ge k 2 with hk | hk
        · obtain rfl : k = 1 := by omega
          cases hdrop
          exact Nat.succ_pos _
        · exact Nat.add_pos_left (h.woken hk) _

/-- **Every action** keeps the invariant. -/
theorem Stopping.step (h : Stopping p a k s) {act : StopAct} (hact : act.Survived p.commands)
    (hstep : s.step a act = some s') : Stopping p a k s' ∨ Stopping p a (k + 1) s' := by
  cases act with
  | destroy => exact .inr (h.destroy hstep)
  | thread => exact .inl (h.threadStep hstep)
  | connect c sent =>
    cases hstep
    refine .inl ⟨h.rest, h.process, h.joined, h.woken, fun w hw => ?_, ?_⟩
    · rcases List.mem_append.mp hw with hw | hw
      · exact h.clients w hw
      · rw [List.mem_singleton.mp hw]
        exact hact
    · have hfits := h.fits
      revert hfits
      cases hthread : s.thread with
      | test client => exact fun _ _ => by simp
      | accept => exact fun _ => by simp [Place.Fits]
      | _ => exact id
  | arrive =>
    have hfits := h.fits
    rw [Stop.step] at hstep
    split at hstep
    · rename_i c hthread
      cases hstep
      rw [hthread] at hfits
      exact .inl (h.moves (by simp [hthread]) (fun w hw => hw) hfits)
    · rename_i c hthread
      cases hstep
      rw [hthread] at hfits
      exact .inl (h.moves (by simp [hthread]) (fun w hw => hw) hfits)
    · cases hstep
  | pollError =>
    rw [Stop.step] at hstep
    split at hstep
    · rename_i hthread
      cases hstep
      exact .inl (h.moves (by simp [hthread]) (fun w hw => hw) trivial)
    · cases hstep
  | acceptError =>
    rw [Stop.step] at hstep
    split at hstep
    · rename_i hthread
      cases hstep
      exact .inl (h.moves (by simp [hthread]) (fun w hw => hw) trivial)
    · cases hstep

/-- So does a run. -/
theorem Stopping.exec (h : Stopping p a k s) {acts : List StopAct} (hacts : ∀ act ∈ acts, act.Survived p.commands)
    (hrun : s.exec a acts = some s') : ∃ k', Stopping p a k' s' := by
  induction acts generalizing k s with
  | nil =>
    cases hrun
    exact ⟨k, h⟩
  | cons act acts ih =>
    obtain ⟨hact, hacts⟩ := List.forall_mem_cons.mp hacts
    rw [Stop.exec, List.foldlM_cons] at hrun
    obtain ⟨s₁, hstep, hrun⟩ := Option.bind_eq_some_iff.mp hrun
    rcases h.step hact hstep with h₁ | h₁
    · exact ih h₁ hacts hrun
    · exact ih h₁ hacts hrun

/-! ### From the first statement on -/

/-- What an action of a run does once the state is `CLI_DOWN`: the thread comes nearer to its end, and clients
are left where they are, but for one that it is about to accept. -/
structure Nearer (s : Stop) (acts : List StopAct) (s' : Stop) : Prop where
  steps : acts.countP StopAct.ofThread + s'.thread.steps ≤ s.thread.steps
  arrivals : acts.countP StopAct.arrives + s'.thread.arrivals ≤ s.thread.arrivals
  clients : s.waiting.length + acts.countP StopAct.connects + s'.thread.accepts ≤
    s'.waiting.length + s.thread.accepts

theorem Nearer.trans {s'' : Stop} {acts acts' : List StopAct} (h : Nearer s acts s') (h' : Nearer s' acts' s'') :
    Nearer s (acts ++ acts') s'' := by
  obtain ⟨hsteps, harrivals, hclients⟩ := h
  obtain ⟨hsteps', harrivals', hclients'⟩ := h'
  refine ⟨?_, ?_, ?_⟩
  · rw [List.countP_append]
    omega
  · rw [List.countP_append]
    omega
  · rw [List.countP_append]
    omega

/-- One action, by what it does to the place of the thread. -/
theorem Nearer.of_place {act : StopAct} {thread thread' : Place} (hthread : s.thread = thread)
    (hthread' : s'.thread = thread') (hwaiting : s'.waiting = s.waiting) (hconnects : act.connects = false)
    (hsteps : [act].countP StopAct.ofThread + thread'.steps ≤ thread.steps)
    (harrivals : [act].countP StopAct.arrives + thread'.arrivals ≤ thread.arrivals)
    (haccepts : thread'.accepts ≤ thread.accepts) : Nearer s [act] s' := by
  subst hthread hthread'
  refine ⟨hsteps, harrivals, ?_⟩
  have hnone : [act].countP StopAct.connects = 0 := by simp [hconnects]
  rw [hnone, hwaiting]
  omega

/-- From then on the thread does not accept another client: the test ends it. -/
theorem Stopping.nearer_thread (h : Stopping p a k s) (hk : 1 ≤ k) (hstep : s.threadStep a = some s') :
    Nearer s [.thread] s' := by
  have hdown : s.thread ≠ .ended → (s.process.handlers a).state = cliDown := by
    intro hthread
    obtain ⟨cdp, buf, hprocess, -⟩ := h.process
    rw [hprocess]
    exact state_tornDown hk (h.lt hthread) _
  cases Stop.threadStep_cases hstep with
  | polls hthread => exact .of_place hthread rfl rfl rfl le_rfl le_rfl le_rfl
  | ends hthread => exact .of_place hthread rfl rfl rfl le_rfl le_rfl le_rfl
  | turns hthread hup => exact absurd (hdown (by simp [hthread])) hup
  | turnsBack hthread hup => exact absurd (hdown (by simp [hthread])) hup
  | @accepts c sent waiting hthread hwaiting =>
    refine ⟨by simp [hthread, Place.steps, StopAct.ofThread], ?_,
      by simp [hthread, hwaiting, Place.accepts, StopAct.connects]⟩
    cases sent <;> simp [hthread, Place.arrivals, StopAct.arrives]
  | reads hthread => exact .of_place hthread rfl rfl rfl le_rfl le_rfl le_rfl
  | leaves hthread =>
    exact .of_place hthread rfl rfl rfl (by simp [Place.steps, StopAct.ofThread]) (Nat.zero_le _) le_rfl
  | serves hthread => exact .of_place hthread rfl rfl rfl le_rfl (Nat.zero_le _) le_rfl

/-- **Once the state is `CLI_DOWN`**, no action takes the thread away from its end. -/
theorem Stopping.nearer (h : Stopping p a k s) (hk : 1 ≤ k) {act : StopAct} (hstep : s.step a act = some s') :
    Nearer s [act] s' := by
  cases act with
  | thread => exact h.nearer_thread hk hstep
  | destroy =>
    rw [Stop.step] at hstep
    split at hstep
    · cases hstep
    · split at hstep <;> cases hstep
      exact .of_place rfl rfl rfl rfl (Nat.zero_add _).le (Nat.zero_add _).le le_rfl
  | connect c sent =>
    cases hstep
    exact ⟨by simp [StopAct.ofThread], by simp [StopAct.arrives], by simp [StopAct.connects]⟩
  | arrive =>
    rw [Stop.step] at hstep
    split at hstep <;> cases hstep
    · rename_i c hthread
      exact .of_place hthread rfl rfl rfl le_rfl le_rfl le_rfl
    · rename_i c hthread
      exact .of_place hthread rfl rfl rfl le_rfl le_rfl le_rfl
  | pollError =>
    rw [Stop.step] at hstep
    split at hstep <;> cases hstep
    rename_i hthread
    exact .of_place hthread rfl rfl rfl (Nat.zero_le _) le_rfl le_rfl
  | acceptError =>
    rw [Stop.step] at hstep
    split at hstep <;> cases hstep
    rename_i hthread
    exact .of_place hthread rfl rfl rfl (by simp [Place.steps, StopAct.ofThread]) (Nat.zero_le _) (Nat.zero_le _)

theorem Stopping.nearer_run (h : Stopping p a k s) (hk : 1 ≤ k) {acts : List StopAct}
    (hacts : ∀ act ∈ acts, act.Survived p.commands) (hrun : s.exec a acts = some s') : Nearer s acts s' := by
  induction acts generalizing k s with
  | nil =>
    cases hrun
    exact ⟨by simp, by simp, by simp⟩
  | cons act acts ih =>
    obtain ⟨hact, hacts⟩ := List.forall_mem_cons.mp hacts
    rw [Stop.exec, List.foldlM_cons] at hrun
    obtain ⟨s₁, hstep, hrun⟩ := Option.bind_eq_some_iff.mp hrun
    have hnear := h.nearer hk hstep
    rcases h.step hact hstep with h₁ | h₁
    · exact hnear.trans (ih h₁ hk hacts hrun)
    · exact hnear.trans (ih h₁ (by omega) hacts hrun)

theorem Place.steps_le (thread : Place) : thread.steps ≤ 5 := by
  cases thread <;> simp [steps]

theorem Place.arrivals_le (thread : Place) : thread.arrivals ≤ 2 := by
  cases thread with
  | read c sent => cases sent <;> simp [arrivals]
  | serve c taken => cases taken <;> simp [arrivals]
  | _ => simp [arrivals]

theorem Place.accepts_le (thread : Place) : thread.accepts ≤ 1 := by
  cases thread <;> simp [accepts]

/-! ### Going on -/

/-- The actions that `cli_destroy` waits for: its own, those of the thread, and those of the client that is
served. -/
def StopAct.Awaited : StopAct → Prop
  | .destroy => True
  | .thread => True
  | .arrive => True
  | _ => False

/-- The thread waits for the client that it serves: for the rest of the request, or until the reply is taken. -/
def Place.WaitsForClient : Place → Prop
  | .read _ false => True
  | .serve _ false => True
  | _ => False

/-- A thread that was woken and has not ended takes a step, unless it waits for its client. -/
theorem Stopping.thread_goesOn (h : Stopping p a k s) (hk : 2 ≤ k) (hthread : s.thread ≠ .ended) :
    (∃ s', s.step a .thread = some s') ∨ s.thread.WaitsForClient := by
  have hlt := h.lt hthread
  have hfits := h.fits
  obtain ⟨cdp, buf, hprocess, hbuf⟩ := h.process
  have hwoken : ¬ s.woken = 0 := Nat.pos_iff_ne_zero.mp (h.woken hk)
  cases hplace : s.thread with
  | poll =>
    exact .inl ⟨{ s with thread := .test (!s.waiting.isEmpty) }, by
      simp [Stop.step, Stop.threadStep, hplace, hwoken]⟩
  | test client =>
    have hstate := state_tornDown (a := a) (by omega) hlt (p.withCdp a cdp)
    exact .inl ⟨{ s with thread := .ended }, by simp [Stop.step, Stop.threadStep, hplace, hprocess, hstate]⟩
  | accept =>
    rw [hplace] at hfits
    obtain ⟨⟨c, sent⟩, waiting, hwaiting⟩ := List.exists_cons_of_ne_nil hfits
    exact .inl ⟨{ s with thread := .read c sent, waiting := waiting }, by
      simp [Stop.step, Stop.threadStep, hplace, hwaiting]⟩
  | read c sent =>
    cases sent with
    | false => exact .inr trivial
    | true =>
      left
      simp only [Stop.step, Stop.threadStep, hplace, if_true]
      split
      · exact ⟨_, rfl⟩
      · exact ⟨_, rfl⟩
  | serve c taken =>
    cases taken with
    | false => exact .inr trivial
    | true =>
      obtain ⟨hserved, hsent⟩ := h.survived hplace
      obtain ⟨cdp', buf', reply, haccept, -⟩ := doAccept_holds hbuf hserved hsent
      left
      simp only [Stop.step, Stop.threadStep, hplace, if_true, hprocess, cdp_tornDown hlt, commands_tornDown hlt,
        haccept]
      exact ⟨_, rfl⟩
  | ended => exact absurd hplace hthread

/-- A statement of `cli_destroy` that has not to wait. -/
theorem Stop.step_destroy {t : Teardown} {rest : List Teardown} (hrest : s.rest = t :: rest)
    (hwaits : t.waits s.thread = false) :
    ∃ s', s.step a .destroy = some s' ∧ s'.rest = rest ∧ s'.thread = s.thread := by
  refine ⟨{ s with process := t.run a s.process, rest := rest, woken := s.woken + t.bytes }, ?_, rfl, rfl⟩
  simp [Stop.step, hrest, hwaits]

/-- Where it has to wait, it was the thread's turn all along. -/
theorem Stopping.of_waits (h : Stopping p a k s) {t : Teardown} {rest : List Teardown} (hrest : s.rest = t :: rest)
    (hwaits : t.waits s.thread = true) : 2 ≤ k ∧ s.thread ≠ .ended := by
  have hdrop := h.rest.symm.trans hrest
  have hjoin : t = .join := by
    cases t with
    | join => rfl
    | _ => cases hwaits
  subst hjoin
  refine ⟨?_, fun hend => ?_⟩
  · by_contra hlt
    obtain rfl | rfl : k = 0 ∨ k = 1 := by omega
    · cases hdrop
    · cases hdrop
  · rw [hend] at hwaits
    cases hwaits

/-- **While `cli_destroy` has not returned**, it goes on, or the thread does, or the thread waits for its
client. -/
theorem Stopping.goesOn (h : Stopping p a k s) (hrest : s.rest ≠ []) :
    (∃ s', s.step a .destroy = some s') ∨ (∃ s', s.step a .thread = some s') ∨ s.thread.WaitsForClient := by
  obtain ⟨t, rest, hcons⟩ := List.exists_cons_of_ne_nil hrest
  cases hwaits : t.waits s.thread with
  | false =>
    obtain ⟨s', hstep, -⟩ := Stop.step_destroy (a := a) hcons hwaits
    exact .inl ⟨s', hstep⟩
  | true =>
    obtain ⟨hk, hthread⟩ := h.of_waits hcons hwaits
    exact .inr (h.thread_goesOn hk hthread)

/-- A client that is waited for can act. -/
theorem Stopping.arrive (h : Stopping p a k s) (hwaits : s.thread.WaitsForClient) :
    ∃ s', s.step a .arrive = some s' ∧ Stopping p a k s' := by
  have hfits := h.fits
  cases hthread : s.thread with
  | read c sent =>
    rw [hthread] at hwaits hfits
    cases sent with
    | true => exact absurd hwaits not_false
    | false => exact ⟨{ s with thread := .read c true }, by simp [Stop.step, hthread],
        h.moves (by simp [hthread]) (fun w hw => hw) hfits⟩
  | serve c taken =>
    rw [hthread] at hwaits hfits
    cases taken with
    | true => exact absurd hwaits not_false
    | false => exact ⟨{ s with thread := .serve c true }, by simp [Stop.step, hthread],
        h.moves (by simp [hthread]) (fun w hw => hw) hfits⟩
  | _ =>
    rw [hthread] at hwaits
    exact absurd hwaits not_false

/-- How many actions `cli_destroy` is from its end. -/
def Stop.toGo (s : Stop) : ℕ := s.rest.length + s.thread.steps + s.thread.arrivals

/-- One awaited action brings it nearer. -/
theorem Stopping.advances (h : Stopping p a k s) (hrest : s.rest ≠ []) :
    ∃ act k' s', act.Awaited ∧ s.step a act = some s' ∧ Stopping p a k' s' ∧ s'.toGo < s.toGo := by
  obtain ⟨t, rest, hcons⟩ := List.exists_cons_of_ne_nil hrest
  cases hwaits : t.waits s.thread with
  | false =>
    obtain ⟨s', hstep, hrest', hthread⟩ := Stop.step_destroy (a := a) hcons hwaits
    refine ⟨.destroy, k + 1, s', trivial, hstep, h.destroy hstep, ?_⟩
    rw [Stop.toGo, Stop.toGo, hrest', hthread, hcons, List.length_cons]
    omega
  | true =>
    obtain ⟨hk, hthread⟩ := h.of_waits hcons hwaits
    rcases h.thread_goesOn hk hthread with ⟨s', hstep⟩ | hclient
    · have h' := h.threadStep hstep
      have hnear := h.nearer (by omega) hstep
      refine ⟨.thread, k, s', trivial, hstep, h', ?_⟩
      have hone : [StopAct.thread].countP StopAct.ofThread = 1 := rfl
      have hsteps := hnear.steps
      have harrivals := hnear.arrivals
      rw [Stop.toGo, Stop.toGo, h'.rest, h.rest]
      omega
    · obtain ⟨s', hstep, h'⟩ := h.arrive hclient
      have hnear := h.nearer (by omega) hstep
      refine ⟨.arrive, k, s', trivial, hstep, h', ?_⟩
      have hone : [StopAct.arrive].countP StopAct.arrives = 1 := rfl
      have hsteps := hnear.steps
      have harrivals := hnear.arrivals
      rw [Stop.toGo, Stop.toGo, h'.rest, h.rest]
      omega

/-- So it comes to its end, by induction on how far it is from it. -/
theorem Stopping.finishes (h : Stopping p a k s) {n : ℕ} (hn : s.toGo ≤ n) :
    ∃ more s', (∀ act ∈ more, act.Awaited) ∧ more.length ≤ n ∧ s.exec a more = some s' ∧ s'.rest = [] := by
  induction n generalizing k s with
  | zero =>
    rw [Stop.toGo] at hn
    exact ⟨[], s, by simp, by simp, rfl, List.length_eq_zero_iff.mp (by omega)⟩
  | succ n ih =>
    by_cases hrest : s.rest = []
    · exact ⟨[], s, by simp, by simp, rfl, hrest⟩
    · obtain ⟨act, k', s₁, hact, hstep, h₁, hlt⟩ := h.advances hrest
      obtain ⟨more, s', hmore, hlen, hrun, hend⟩ := ih h₁ (by omega)
      refine ⟨act :: more, s', List.forall_mem_cons.mpr ⟨hact, hmore⟩, ?_, ?_, hend⟩
      · rw [List.length_cons]
        omega
      · rw [Stop.exec, List.foldlM_cons, hstep]
        exact hrun

/-! ### Every run -/

/-- A state of a run is as it should be: what the thread uses is there until it has ended; when `cli_destroy`
has returned, the thread has ended and the process is that of `cliDestroy`; and until then there is something to
wait for, and an end after at most 17 actions. -/
structure Orderly (p : Process) (a : ℕ) (s : Stop) : Prop where
  intact : s.thread ≠ .ended → Intact p a s.process
  finished : s.rest = [] → s.thread = .ended ∧ ∃ cdp, s.process = cliDestroy (p.withCdp a cdp)
  goesOn : s.rest ≠ [] → (∃ s', s.step a .destroy = some s') ∨ (∃ s', s.step a .thread = some s') ∨
    s.thread.WaitsForClient
  finishes : ∃ more s', (∀ act ∈ more, act.Awaited) ∧ more.length ≤ 17 ∧ s.exec a more = some s' ∧ s'.rest = []

theorem Stopping.orderly (hserver : p.cmdHandler = some a) (h : Stopping p a k s) : Orderly p a s where
  intact hthread := by
    obtain ⟨cdp, buf, hprocess, hbuf⟩ := h.process
    rw [hprocess]
    exact intact_tornDown (h.lt hthread) hbuf
  finished hrest := by
    have hk : teardown.length ≤ k := List.drop_eq_nil_iff.mp (h.rest.symm.trans hrest)
    obtain ⟨cdp, buf, hprocess, -⟩ := h.process
    refine ⟨h.joined (le_trans (by decide) hk), cdp, ?_⟩
    have hserver' : (p.withCdp a cdp).cmdHandler = some a := hserver
    rw [hprocess, tornDown, List.take_of_length_le hk, cliDestroy_eq hserver']
  goesOn := h.goesOn
  finishes := by
    apply h.finishes
    have hsteps := s.thread.steps_le
    have harrivals := s.thread.arrivals_le
    have hlen : teardown.length = 10 := rfl
    rw [Stop.toGo, h.rest, List.length_drop]
    omega

theorem stopping_called (p : Process) {buf : List UInt8} (hbuf : Holds (p.handlers a).cdp buf [])
    {thread : Place} {waiting : List (Client × Bool)} (hwaiting : ∀ w ∈ waiting, w.1.Survived p.commands)
    (hthread : thread.Fits p.commands waiting) : Stopping p a 0 (called p thread waiting) := by
  have hsame : p.withCdp a (p.handlers a).cdp = p := by
    simp [Process.withCdp, Process.modify]
  refine ⟨rfl, ⟨(p.handlers a).cdp, buf, ?_, hbuf⟩, by simp, by simp, hwaiting, hthread⟩
  rw [hsame]
  rfl

theorem Stop.exec_append (acts acts' : List StopAct) :
    s.exec a (acts ++ acts') = (s.exec a acts).bind fun s' => s'.exec a acts' := by
  rw [exec, List.foldlM_append]
  rfl

/-- **The server is shut down in order**, wherever its thread was and whoever connects meanwhile: nothing is
taken back that the thread still uses, `cli_destroy` can always come to its end, for which it needs only the
thread and the client that is being served; and from its first statement on the thread takes at most five steps
more, waits at most twice for its client, and accepts at most one. -/
theorem cliDestroy_stops (hserver : p.cmdHandler = some a) {buf : List UInt8}
    (hbuf : Holds (p.handlers a).cdp buf []) {thread : Place} {waiting : List (Client × Bool)}
    (hwaiting : ∀ w ∈ waiting, w.1.Survived p.commands) (hthread : thread.Fits p.commands waiting)
    {acts : List StopAct} (hacts : ∀ act ∈ acts, act.Survived p.commands)
    (hrun : (called p thread waiting).exec a acts = some s) :
    Orderly p a s ∧ ∀ pre post s₁, acts = pre ++ .destroy :: post →
      (called p thread waiting).exec a (pre ++ [.destroy]) = some s₁ →
      post.countP StopAct.ofThread ≤ 5 ∧ post.countP StopAct.arrives ≤ 2 ∧
        s₁.waiting.length + post.countP StopAct.connects ≤ s.waiting.length + 1 := by
  have h₀ := stopping_called p hbuf hwaiting hthread
  obtain ⟨k, h⟩ := h₀.exec hacts hrun
  refine ⟨h.orderly hserver, ?_⟩
  rintro pre post s₁ rfl hpre
  obtain ⟨hacts₁, hacts₂⟩ := List.forall_mem_append.mp hacts
  obtain ⟨-, hpost⟩ := List.forall_mem_cons.mp hacts₂
  rw [Stop.exec_append] at hpre
  obtain ⟨s₀, hrun₀, hdestroy⟩ := Option.bind_eq_some_iff.mp hpre
  obtain ⟨k₀, hs₀⟩ := h₀.exec hacts₁ hrun₀
  have hstep : s₀.step a .destroy = some s₁ := by
    rw [Stop.exec, List.foldlM_cons] at hdestroy
    obtain ⟨s₂, hstep, hs₂⟩ := Option.bind_eq_some_iff.mp hdestroy
    cases hs₂
    exact hstep
  have hrest : s₁.exec a post = some s := by
    rw [Stop.exec_append, hrun₀, Option.bind_some, Stop.exec, List.foldlM_cons, hstep] at hrun
    exact hrun
  obtain ⟨hsteps, harrivals, hclients⟩ := (hs₀.destroy hstep).nearer_run (Nat.succ_pos _) hpost hrest
  have hfive := s₁.thread.steps_le
  have htwo := s₁.thread.arrivals_le
  have hone := s₁.thread.accepts_le
  exact ⟨by omega, by omega, by omega⟩

/-- A server with the command `hi`, which no client has called yet. -/
def hiServer : Process :=
  { idleProcess with
    blocks := {0}
    handlers := fun _ => { blankHandler with cdp := cdpInit fun _ => 0 }
    threads := [0]
    cmdHandler := some 0
    commands := hiRequest.commands }

/-- It is destroyed while the thread serves a client, which takes its reply. -/
theorem cliDestroy_stops_hi :
    ∃ s, (called hiServer .accept [(earlyClient, true)]).exec 0
        [.thread, .destroy, .thread, .arrive, .destroy] = some s ∧
      Orderly hiServer 0 s ∧ ∀ pre post s₁,
        [StopAct.thread, .destroy, .thread, .arrive, .destroy] = pre ++ .destroy :: post →
        (called hiServer .accept [(earlyClient, true)]).exec 0 (pre ++ [.destroy]) = some s₁ →
        post.countP StopAct.ofThread ≤ 5 ∧ post.countP StopAct.arrives ≤ 2 ∧
          s₁.waiting.length + post.countP StopAct.connects ≤ s.waiting.length + 1 := by
  have hsurvived : earlyClient.Survived hiServer.commands := by
    refine ⟨⟨_, hiRequest_prints, by decide⟩, fun text htext => ⟨0, ?_⟩⟩
    cases hiRequest_reply.1.symm.trans htext
    rfl
  obtain ⟨s, hrun⟩ : ∃ s, (called hiServer .accept [(earlyClient, true)]).exec 0
      [.thread, .destroy, .thread, .arrive, .destroy] = some s := ⟨_, rfl⟩
  have hthread : Place.accept.Fits hiServer.commands [(earlyClient, true)] := List.cons_ne_nil _ _
  refine ⟨s, hrun, cliDestroy_stops rfl (holds_cdpInit fun _ => 0) ?_ hthread ?_ hrun⟩
  · intro w hw
    rw [List.mem_singleton.mp hw]
    exact hsurvived
  · intro act hact
    simp only [List.mem_cons, List.not_mem_nil, or_false] at hact
    rcases hact with rfl | rfl | rfl | rfl | rfl
    all_goals trivial

end CcUtils.Cli
