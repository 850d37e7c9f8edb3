import CcUtils.Cli.Server
import CcUtils.Cli.Transfer

/-!
# The service loop

The loop of `msg_poll`, the thread of the server: it waits for a client or for the wake-up of
`cli_destroy`, and calls `do_accept` for a client.

A run is given by its rounds: what `poll` does in each, and the state the handler has then. A `poll` that
was interrupted is to be called again; but it is told from a failure by the value returned, and that is -1
and not `EINTR`.

## What is proved

* `turn_stop_iff` — when a round ends the loop.
* `msgPoll_survives_iff` — a run is as it should be exactly when no `poll` is interrupted in it, but for
  one that finds the state at `CLI_DOWN`.
-/

namespace CcUtils.Cli

open CcUtils.Lib

/-! ### The loop -/

/-- What a call of `poll` does. -/
inductive PollResult
  /-- It returns the number of descriptors with events; these are `fds[0].revents`. -/
  | ready (n : ℕ) (revents : BitVec 16)
  /-- It returns -1 and leaves this `errno`. -/
  | fails (errno : ℕ+)

/-- What it returns. -/
def PollResult.ret : PollResult → ℤ
  | .ready n _ => n
  | .fails _ => -1

/-- `fds[0].revents`, which is set to 0 before the call. -/
def PollResult.revents : PollResult → BitVec 16
  | .ready _ revents => revents
  | .fails _ => 0

/-- `POLLIN`. -/
def pollIn : BitVec 16 := 1

/-- A round of the loop. -/
structure Round where
  /-- The call of `poll`. -/
  poll : PollResult
  /-- `handler->state` after it. -/
  state : ℤ

/-- What the loop does in a round. -/
inductive Turn
  /-- `msg_poll` returns. -/
  | stop
  /-- It goes on, after `do_accept` or without it. -/
  | again (accept : Bool)
  deriving DecidableEq

/-- The body of the loop. -/
def turn (r : Round) : Turn :=
  let ret := r.poll.ret
  if ret < 0 then
    if ret = (eIntr : ℕ) then .again false else .stop
  else if r.state = cliDown then .stop
  else if r.poll.revents &&& pollIn ≠ 0 then .again true
  else .again false

/-- `msg_poll`: for each round it went on from, whether it called `do_accept`, and whether it has
returned. -/
def msgPoll : List Round → List Bool × Bool
  | [] => ([], false)
  | r :: rounds =>
    match turn r with
    | .stop => ([], true)
    | .again accept => (accept :: (msgPoll rounds).1, (msgPoll rounds).2)

/-! ### What it should do -/

/-- A client is there. -/
def Round.request (r : Round) : Bool := r.poll.revents &&& pollIn ≠ 0

/-- The loop may end: the server is shut down, or `poll` failed for good. -/
def Round.Last (r : Round) : Prop :=
  r.state = cliDown ∨ ∃ errno, r.poll = .fails errno ∧ errno ≠ eIntr

/-- The call of `poll` was interrupted while the server is up. -/
def Round.Interrupted (r : Round) : Prop := r.poll = .fails eIntr ∧ r.state ≠ cliDown

/-- The run is as it should be: when it has returned, it was in a round where it may end, else it went
on from all; and from each round before it called `do_accept` if there was a client. -/
structure Survives (rounds : List Round) : Prop where
  returned : (msgPoll rounds).2 = true → ∃ r, rounds[(msgPoll rounds).1.length]? = some r ∧ r.Last
  running : (msgPoll rounds).2 = false → (msgPoll rounds).1.length = rounds.length
  accepted : (msgPoll rounds).1 = (rounds.take (msgPoll rounds).1.length).map Round.request

/-- No call is interrupted in the rounds up to the first in which the loop may end. -/
def Uninterrupted (rounds : List Round) : Prop :=
  ∀ pre r post, rounds = pre ++ r :: post → r.Interrupted → ∃ r' ∈ pre, r'.Last

/-! ### A round -/

theorem Round.Interrupted.not_last {r : Round} (h : r.Interrupted) : ¬ r.Last := by
  obtain ⟨hpoll, hstate⟩ := h
  rintro (hdown | ⟨errno, herrno, hne⟩)
  · exact hstate hdown
  · rw [hpoll] at herrno
    exact hne (PollResult.fails.inj herrno).symm

/-- **A round ends the loop** when it may end, and when the call of `poll` was interrupted. -/
theorem turn_stop_iff (r : Round) : turn r = .stop ↔ r.Last ∨ r.Interrupted := by
  obtain ⟨poll, state⟩ := r
  cases poll with
  | ready n revents =>
    have hret : ¬ (PollResult.ready n revents).ret < 0 := not_lt.mpr (Int.natCast_nonneg n)
    simp only [turn, if_neg hret, Round.Last, Round.Interrupted, reduceCtorEq, false_and,
      exists_false, or_false]
    split_ifs with hdown hin
    · exact iff_of_true rfl hdown
    · exact iff_of_false nofun hdown
    · exact iff_of_false nofun hdown
  | fails errno =>
    refine iff_of_true rfl ?_
    by_cases hdown : state = cliDown
    · exact Or.inl (Or.inl hdown)
    · by_cases herrno : errno = eIntr
      · exact Or.inr ⟨congrArg _ herrno, hdown⟩
      · exact Or.inl (Or.inr ⟨errno, rfl, herrno⟩)

/-- When it goes on, it has called `do_accept` for a client. -/
theorem turn_again {r : Round} {accept : Bool} (h : turn r = .again accept) : accept = r.request := by
  obtain ⟨poll, state⟩ := r
  cases poll with
  | ready n revents =>
    have hret : ¬ (PollResult.ready n revents).ret < 0 := not_lt.mpr (Int.natCast_nonneg n)
    simp only [turn, if_neg hret] at h
    split_ifs at h with hdown hin
    · obtain rfl := Turn.again.inj h
      exact (decide_eq_true hin).symm
    · obtain rfl := Turn.again.inj h
      exact (decide_eq_false hin).symm
  | fails errno => cases h

theorem uninterrupted_cons {r : Round} {rounds : List Round} :
    Uninterrupted (r :: rounds) ↔ ¬ r.Interrupted ∧ (r.Last ∨ Uninterrupted rounds) := by
  rw [Uninterrupted, forall_split_cons]
  refine and_congr ⟨fun h hr => ?_, fun h hr => absurd hr h⟩ ?_
  · obtain ⟨r', hmem, -⟩ := h hr
    cases hmem
  · by_cases hlast : r.Last
    · exact iff_of_true (fun _ _ _ _ _ => ⟨r, List.mem_cons_self .., hlast⟩) (Or.inl hlast)
    · rw [or_iff_right hlast, Uninterrupted]
      simp only [List.mem_cons, exists_eq_or_imp, or_iff_right hlast]

/-! ### A run -/

theorem survives_stop {r : Round} {rounds : List Round} (h : turn r = .stop) :
    Survives (r :: rounds) ↔ r.Last := by
  have hrun : msgPoll (r :: rounds) = ([], true) := by rw [msgPoll, h]
  constructor
  · rintro ⟨hret, -, -⟩
    rw [hrun] at hret
    obtain ⟨r', hr', hlast⟩ := hret rfl
    obtain rfl := Option.some.inj hr'
    exact hlast
  · intro hlast
    refine ⟨fun _ => ⟨r, ?_, hlast⟩, fun hf => ?_, ?_⟩
    · rw [hrun]
      rfl
    · rw [hrun] at hf
      cases hf
    · rw [hrun]
      rfl

theorem survives_again {r : Round} {rounds : List Round} {accept : Bool}
    (h : turn r = .again accept) : Survives (r :: rounds) ↔ Survives rounds := by
  have hrun : msgPoll (r :: rounds) = (accept :: (msgPoll rounds).1, (msgPoll rounds).2) := by
    rw [msgPoll, h]
  have haccept := turn_again h
  constructor
  · rintro ⟨hret, hrunning, hacc⟩
    rw [hrun] at hret hrunning hacc
    refine ⟨hret, fun hf => Nat.succ.inj (hrunning hf), ?_⟩
    exact (List.cons.inj hacc).2
  · rintro ⟨hret, hrunning, hacc⟩
    refine ⟨?_, ?_, ?_⟩
    · rw [hrun]
      exact hret
    · rw [hrun]
      exact fun hf => congrArg Nat.succ (hrunning hf)
    · rw [hrun]
      exact List.cons_eq_cons.mpr ⟨haccept, hacc⟩

/-- **The service loop survives** exactly the runs in which no call of `poll` is interrupted while the
server is up. -/
theorem msgPoll_survives_iff (rounds : List Round) : Survives rounds ↔ Uninterrupted rounds := by
  induction rounds with
  | nil =>
    refine iff_of_true ⟨nofun, fun _ => rfl, rfl⟩ fun pre r post hsplit => ?_
    simp at hsplit
  | cons r rounds ih =>
    rw [uninterrupted_cons]
    cases hturn : turn r with
    | stop =>
      rw [survives_stop hturn]
      constructor
      · exact fun hlast => ⟨fun hr => hr.not_last hlast, Or.inl hlast⟩
      · rintro ⟨hr, -⟩
        exact ((turn_stop_iff r).mp hturn).resolve_right hr
    | again accept =>
      have hnot : ¬ (r.Last ∨ r.Interrupted) := by
        rw [← turn_stop_iff, hturn]
        exact nofun
      rw [survives_again hturn, ih, and_iff_right fun h => hnot (Or.inr h),
        or_iff_right fun h => hnot (Or.inl h)]

/-- Interrupted once, `msg_poll` returns, and the client after that is left waiting. -/
theorem not_survives_interrupted :
    msgPoll [⟨.fails eIntr, cliInit⟩, ⟨.ready 1 pollIn, cliInit⟩] = ([], true) ∧
      ¬ Survives [⟨.fails eIntr, cliInit⟩, ⟨.ready 1 pollIn, cliInit⟩] := by
  refine ⟨by decide, ?_⟩
  rintro ⟨hret, -, -⟩
  obtain ⟨r, hr, hlast⟩ := hret (by decide)
  obtain rfl : _ = r := Option.some.inj hr
  exact Round.Interrupted.not_last ⟨rfl, by decide⟩ hlast

end CcUtils.Cli
