import CcUtils.Queue.Concurrent

/-!
# Who waits for whom in the lock-free queue

A push links its node behind the last one and then swings `last` to it. Between the two every other push finds
the `next` field of the last node set, and starts again. A pop that has taken the list off and has not yet
cleared the header is in the way in the same manner. So the queue needs no lock, but a thread that stops there
stops all producers; at any other point a thread may stop and the others go on.

## What is proved

* `Caused.step` — a turn keeps that a field set behind `last` has its cause.
* `State.Free.pushes` — alone, a producer pushes its node, if that field is not set.
* `Blocked.run` — while it is, no turn of the others pushes a node.
* `push_progress` — all of this in every state that can be reached.
-/

namespace CcUtils.Queue

open CcUtils.Lib

variable {ι ν : Type} [DecidableEq ι] [DecidableEq ν]

/-- The field behind `last` is NULL, as a push needs it. -/
def State.Free (s : State ι ν) : Prop := s.queue.next s.queue.last = none

/-- The thread is between its two accesses that belong together: a push that has linked its node behind the
last one, or a pop that has taken the list off. -/
inductive Midway (s : State ι ν) : Actor ι → Prop
  | push {p : ι} {n : ν} {r : List ν} (htodo : (s.producer p).todo = n :: r)
      (hpc : (s.producer p).pc = .swing s.queue.last) : Midway s (.producer p)
  | pop {ret : Option ν} {oldNode : Ref ν} (hc : s.consumer = .pop (.clear ret oldNode)) :
      Midway s .consumer

/-- What a producer can count on. -/
structure Progress (s : State ι ν) : Prop where
  /-- If the field behind `last` is NULL, a producer alone pushes its node; -/
  alone : ∀ p n rest, (s.producer p).todo = n :: rest → s.Free →
    ∃ k ≤ 5, (run s (List.replicate k (.producer p))).swung = s.swung ++ [n]
  /-- if not, some thread is midway. -/
  caused : ¬ s.Free → ∃ a, Midway s a
  /-- While that one has no turn, and the consumer none, nothing is pushed; -/
  blocks : ∀ a, Midway s a → ∀ sched : List (Actor ι), (∀ b ∈ sched, b ≠ a ∧ b ≠ .consumer) →
    (run s sched).swung = s.swung ∧ ∀ p, ((run s sched).producer p).todo = (s.producer p).todo
  /-- after its next turn the field is NULL. -/
  frees : ∀ a, Midway s a → (s.step a).Free

/-! ### A producer's turn, case by case -/

section push

variable {s : State ι ν} {p : ι} {n : ν} {rest : List ν} {oldNode : Ref ν}

/-- The producer goes on at another point of the code. -/
def State.at (s : State ι ν) (p : ι) (n : ν) (rest : List ν) (pc : CasPush ν) : State ι ν :=
  { s with producer := Function.update s.producer p ⟨n :: rest, pc⟩ }

theorem push_load (htodo : (s.producer p).todo = n :: rest) (hpc : (s.producer p).pc = .load) :
    s.push p = s.at p n rest (.link s.queue.last) := by
  simp only [State.push, htodo, hpc, CasPush.step, State.at]

theorem push_link (htodo : (s.producer p).todo = n :: rest)
    (hpc : (s.producer p).pc = .link oldNode) (hnull : s.queue.next oldNode = none) :
    s.push p = { s with queue := s.queue.setNext oldNode (some n) }.at p n rest (.swing oldNode) := by
  simp only [State.push, htodo, hpc, CasPush.step, if_pos hnull, State.at]

theorem push_link_taken (htodo : (s.producer p).todo = n :: rest)
    (hpc : (s.producer p).pc = .link oldNode) (hnull : s.queue.next oldNode ≠ none) :
    s.push p = s.at p n rest .load := by
  simp only [State.push, htodo, hpc, CasPush.step, if_neg hnull, State.at]

theorem push_swing (htodo : (s.producer p).todo = n :: rest)
    (hpc : (s.producer p).pc = .swing s.queue.last) :
    s.push p = { s with
      queue := { s.queue with last := .node n }
      producer := Function.update s.producer p ⟨rest, .load⟩
      swung := s.swung ++ [n] } := by
  simp only [State.push, htodo, hpc, CasPush.step, if_true]

theorem push_swing_late (htodo : (s.producer p).todo = n :: rest)
    (hpc : (s.producer p).pc = .swing oldNode) (hlast : s.queue.last ≠ oldNode) :
    s.push p = s.at p n rest .load := by
  simp only [State.push, htodo, hpc, CasPush.step, if_neg hlast, State.at]

theorem at_producer {ι ν : Type} [DecidableEq ι]
    (s : State ι ν) (p : ι) (n : ν) (rest : List ν) (pc : CasPush ν) :
    (s.at p n rest pc).producer p = ⟨n :: rest, pc⟩ := Function.update_self ..

/-! ### Alone -/

/-- Turns of one producer, one after another. -/
theorem run_replicate_succ (s : State ι ν) (p : ι) (k : ℕ) :
    run s (List.replicate (k + 1) (.producer p)) =
      run (s.push p) (List.replicate k (.producer p)) := rfl

theorem State.Free.of_link (h : s.Free) (htodo : (s.producer p).todo = n :: rest)
    (hpc : (s.producer p).pc = .link s.queue.last) :
    (run s (List.replicate 2 (.producer p))).swung = s.swung ++ [n] := by
  rw [run_replicate_succ, push_link htodo hpc h, run_replicate_succ]
  have hat := at_producer { s with queue := s.queue.setNext s.queue.last (some n) } p n rest
    (.swing s.queue.last)
  rw [push_swing (by rw [hat]) (by rw [hat]; rfl)]
  rfl

theorem State.Free.of_load (h : s.Free) (htodo : (s.producer p).todo = n :: rest)
    (hpc : (s.producer p).pc = .load) :
    (run s (List.replicate 3 (.producer p))).swung = s.swung ++ [n] := by
  rw [run_replicate_succ, push_load htodo hpc]
  have hat := at_producer s p n rest (.link s.queue.last)
  exact State.Free.of_link (s := s.at p n rest (.link s.queue.last)) h (by rw [hat]) (by rw [hat]; rfl)

/-- After a try that failed the producer starts again. -/
theorem State.Free.of_retry (h : s.Free) (hretry : s.push p = s.at p n rest .load) :
    (run s (List.replicate 4 (.producer p))).swung = s.swung ++ [n] := by
  rw [run_replicate_succ, hretry]
  have hat := at_producer s p n rest .load
  exact State.Free.of_load (s := s.at p n rest .load) h (by rw [hat]) (by rw [hat])

/-- **Alone, a producer pushes its node**, wherever in the code it is. -/
theorem State.Free.pushes (h : s.Free) (htodo : (s.producer p).todo = n :: rest)
    (hswing : (s.producer p).pc ≠ .swing s.queue.last) :
    ∃ k ≤ 5, (run s (List.replicate k (.producer p))).swung = s.swung ++ [n] := by
  cases hpc : (s.producer p).pc with
  | load => exact ⟨3, by decide, h.of_load htodo hpc⟩
  | swing oldNode =>
    have hlast : s.queue.last ≠ oldNode := fun he => hswing (by rw [hpc, he])
    exact ⟨4, by decide, h.of_retry (push_swing_late htodo hpc hlast)⟩
  | link oldNode =>
    by_cases hlast : oldNode = s.queue.last
    · subst hlast
      exact ⟨2, by decide, h.of_link htodo hpc⟩
    · by_cases hnull : s.queue.next oldNode = none
      · -- it links behind a node that was the last one earlier, and finds out at the swap
        refine ⟨5, le_rfl, ?_⟩
        rw [run_replicate_succ, push_link htodo hpc hnull]
        have hat := at_producer { s with queue := s.queue.setNext oldNode (some n) } p n rest
          (.swing oldNode)
        have hfree : ({ s with queue := s.queue.setNext oldNode (some n) }.at p n rest
            (.swing oldNode)).Free := by
          refine Eq.trans ?_ h
          exact Function.update_of_ne (Ne.symm hlast) ..
        refine hfree.of_retry (push_swing_late (by rw [hat]) (by rw [hat]) ?_)
        exact Ne.symm hlast
      · exact ⟨4, by decide, h.of_retry (push_link_taken htodo hpc hnull)⟩

/-! ### While a thread is midway -/

/-- The field behind `last` is set, and the producers of `P` are not the ones to swing it. -/
structure Blocked (P : ι → Prop) (s : State ι ν) : Prop where
  set : ¬ s.Free
  late : ∀ p, P p → (s.producer p).pc ≠ .swing s.queue.last

/-- The producer has gone on to another point, and what the others rely on is as before. -/
structure Stays (s s' : State ι ν) : Prop where
  last : s'.queue.last = s.queue.last
  swung : s'.swung = s.swung
  todo : ∀ p, (s'.producer p).todo = (s.producer p).todo

theorem Stays.at {ι ν : Type} [DecidableEq ι] {s : State ι ν} {p : ι} {n : ν} {rest : List ν}
    (htodo : (s.producer p).todo = n :: rest) {m : CasQueue ν}
    (hlast : m.last = s.queue.last) (pc : CasPush ν) :
    Stays s ({ s with queue := m }.at p n rest pc) := by
  refine ⟨hlast, rfl, fun q => ?_⟩
  by_cases hq : q = p
  · subst hq
    rw [at_producer, htodo]
  · exact congrArg Producer.todo (Function.update_of_ne hq ..)

theorem Blocked.at {ι ν : Type} [DecidableEq ι] {s : State ι ν} {p : ι} {n : ν} {rest : List ν}
    {P : ι → Prop} (h : Blocked P s) {m : CasQueue ν} (hlast : m.last = s.queue.last)
    (hnext : m.next s.queue.last = s.queue.next s.queue.last) {pc : CasPush ν}
    (hpc : pc ≠ .swing s.queue.last) : Blocked P ({ s with queue := m }.at p n rest pc) := by
  refine ⟨fun hfree => h.set ?_, fun q hq => ?_⟩
  · change m.next m.last = none at hfree
    rwa [hlast, hnext] at hfree
  · change (({ s with queue := m }.at p n rest pc).producer q).pc ≠ .swing m.last
    rw [hlast]
    by_cases hqp : q = p
    · subst hqp
      rwa [at_producer]
    · have hsame : ({ s with queue := m }.at p n rest pc).producer q = s.producer q :=
        Function.update_of_ne hqp ..
      rw [hsame]
      exact h.late q hq

/-- A turn of one of the producers pushes nothing. -/
theorem Blocked.push {P : ι → Prop} (h : Blocked P s) (hp : P p) :
    Blocked P (s.push p) ∧ Stays s (s.push p) := by
  cases htodo : (s.producer p).todo with
  | nil =>
    have hsame : s.push p = s := by simp only [State.push, htodo]
    rw [hsame]
    exact ⟨h, rfl, rfl, fun _ => rfl⟩
  | cons n rest =>
    have hback : ∀ pc : CasPush ν, pc ≠ .swing s.queue.last →
        Blocked P (s.at p n rest pc) ∧ Stays s (s.at p n rest pc) := fun pc hpc =>
      ⟨h.at rfl rfl hpc, Stays.at htodo rfl pc⟩
    cases hpc : (s.producer p).pc with
    | load =>
      rw [push_load htodo hpc]
      exact hback _ (by simp)
    | link oldNode =>
      by_cases hnull : s.queue.next oldNode = none
      · have hne : oldNode ≠ s.queue.last := by
          rintro rfl
          exact h.set hnull
        rw [push_link htodo hpc hnull]
        refine ⟨h.at (m := s.queue.setNext oldNode (some n)) rfl ?_ ?_,
          Stays.at (m := s.queue.setNext oldNode (some n)) htodo rfl _⟩
        · exact Function.update_of_ne hne.symm ..
        · exact fun he => hne (CasPush.swing.inj he)
      · rw [push_link_taken htodo hpc hnull]
        exact hback _ (by simp)
    | swing oldNode =>
      have hlast : s.queue.last ≠ oldNode := fun he => h.late p hp (by rw [hpc, he])
      rw [push_swing_late htodo hpc hlast]
      exact hback _ (by simp)

/-- Nor do any number of turns. By induction on the schedule. -/
theorem Blocked.run {P : ι → Prop} (h : Blocked P s) {sched : List (Actor ι)}
    (hsched : ∀ a ∈ sched, ∃ p, a = .producer p ∧ P p) :
    Stays s (CcUtils.Queue.run s sched) := by
  induction sched generalizing s with
  | nil => exact ⟨rfl, rfl, fun _ => rfl⟩
  | cons a sched ih =>
    obtain ⟨p, rfl, hp⟩ := hsched a (List.mem_cons_self ..)
    obtain ⟨hnext, hstay⟩ := h.push hp
    have hrest := ih hnext fun b hb => hsched b (List.mem_cons_of_mem _ hb)
    exact ⟨hrest.last.trans hstay.last, hrest.swung.trans hstay.swung,
      fun q => (hrest.todo q).trans (hstay.todo q)⟩

end push

/-! ### The cause -/

section cause

variable {todo : ι → List ν} {s : State ι ν} {rest : List ν}

/-- A field set behind `last` has its cause. -/
def Caused (s : State ι ν) : Prop := ¬ s.Free → ∃ a, Midway s a

/-- A turn of a producer that is not midway leaves the cause. -/
theorem Caused.at {ι ν : Type} [DecidableEq ι] {s : State ι ν}
    (h : Caused s) {p : ι} {n : ν} {ns : List ν} (hp : ¬ Midway s (.producer p))
    {m : CasQueue ν} (hlast : m.last = s.queue.last)
    (hnext : m.next s.queue.last = s.queue.next s.queue.last) (pc : CasPush ν) :
    Caused ({ s with queue := m }.at p n ns pc) := by
  intro hset
  obtain ⟨a, ha⟩ := h fun hfree => hset (by
    change m.next m.last = none
    rw [hlast, hnext]
    exact hfree)
  cases ha with
  | pop hc => exact ⟨.consumer, .pop hc⟩
  | @push q k ks htodo hpc =>
    have hqp : q ≠ p := by
      rintro rfl
      exact hp (.push htodo hpc)
    have hsame : ({ s with queue := m }.at p n ns pc).producer q = s.producer q :=
      Function.update_of_ne hqp ..
    refine ⟨.producer q, .push (n := k) (r := ks) (by rw [hsame, htodo]) ?_⟩
    rw [hsame, hpc]
    exact congrArg CasPush.swing hlast.symm

/-- A turn of a producer. -/
theorem Caused.push (h : Caused s) (hp : Producers todo s) (p : ι) : Caused (s.push p) := by
  cases htodo : (s.producer p).todo with
  | nil =>
    have hsame : s.push p = s := by simp only [State.push, htodo]
    rwa [hsame]
  | cons n ns =>
    have hmid : Midway s (.producer p) → (s.producer p).pc = .swing s.queue.last := by
      rintro ⟨-, hpc⟩
      exact hpc
    cases hpc : (s.producer p).pc with
    | load =>
      have hnot : ¬ Midway s (.producer p) := fun ha => by rw [hmid ha] at hpc; cases hpc
      rw [push_load htodo hpc]
      exact h.at hnot rfl rfl _
    | link oldNode =>
      have hnot : ¬ Midway s (.producer p) := fun ha => by rw [hmid ha] at hpc; cases hpc
      by_cases hnull : s.queue.next oldNode = none
      · rw [push_link htodo hpc hnull]
        by_cases hlast : oldNode = s.queue.last
        · subst hlast
          have hat := at_producer { s with queue := s.queue.setNext s.queue.last (some n) } p n ns
            (.swing s.queue.last)
          exact fun _ => ⟨.producer p, .push (n := n) (r := ns) (by rw [hat]) (by rw [hat]; rfl)⟩
        · refine h.at (m := s.queue.setNext oldNode (some n)) hnot rfl ?_ _
          exact Function.update_of_ne (Ne.symm hlast) ..
      · rw [push_link_taken htodo hpc hnull]
        exact h.at hnot rfl rfl _
    | swing oldNode =>
      by_cases hlast : s.queue.last = oldNode
      · subst hlast
        rw [push_swing htodo hpc]
        -- nothing is linked behind the new last node
        refine fun hset => absurd ?_ hset
        exact hp.null p n (htodo ▸ List.mem_cons_self)
      · have hnot : ¬ Midway s (.producer p) := fun ha => by
          rw [hmid ha] at hpc
          exact hlast (CasPush.swing.inj hpc)
        rw [push_swing_late htodo hpc hlast]
        exact h.at hnot rfl rfl _

/-- A turn of the consumer that leaves `last` and the field behind it, and was not midway. -/
theorem Caused.consumer {ι ν : Type} {s : State ι ν}
    (h : Caused s) (hc : ∀ ret oldNode, s.consumer ≠ .pop (.clear ret oldNode))
    {s' : State ι ν} (hlast : s'.queue.last = s.queue.last)
    (hnext : s'.queue.next s.queue.last = s.queue.next s.queue.last)
    (hproducer : s'.producer = s.producer) : Caused s' := by
  intro hset
  obtain ⟨a, ha⟩ := h fun hfree => hset (by
    rw [State.Free, hlast, hnext]
    exact hfree)
  cases ha with
  | pop hpop => exact absurd hpop (hc _ _)
  | @push q k ks htodo hpc =>
    refine ⟨.producer q, .push (n := k) (r := ks) (by rw [hproducer, htodo]) ?_⟩
    rw [hproducer, hpc, hlast]

/-- A turn of the consumer. -/
theorem Caused.consume {ι ν : Type} [DecidableEq ν] {todo : ι → List ν} {s : State ι ν} {rest : List ν}
    (h : Caused s) (hi : Inv todo s rest) : Caused s.consume := by
  obtain ⟨hp, q, hl⟩ := hi
  cases hc : s.consumer with
  | crashed =>
    have hr := hl.rest
    rw [hc] at hr
    exact hr.elim
  | walk next last =>
    have hnot : ∀ ret oldNode, s.consumer ≠ .pop (.clear ret oldNode) := by
      rw [hc]
      simp
    have hstep : s.consume.queue = s.queue ∧ s.consume.producer = s.producer := by
      unfold State.consume
      rw [hc]
      dsimp only
      split <;> exact ⟨rfl, rfl⟩
    exact h.consumer hnot (by rw [hstep.1]) (by rw [hstep.1]) hstep.2
  | pop pc =>
    have hsaw := hl.saw_pop hc
    have hlast := hl.last_pop hc
    have hnot : (∀ ret oldNode, pc ≠ .clear ret oldNode) →
        ∀ ret oldNode, s.consumer ≠ .pop (.clear ret oldNode) := by
      intro hpc ret oldNode he
      rw [hc] at he
      exact hpc ret oldNode (Consumer.pop.inj he)
    cases pc with
    | check =>
      have hstep : s.consume = { s with consumer := s.consume.consumer } := by
        by_cases he : s.queue.last = .head <;>
          simp only [State.consume, hc, CasPop.step, he, if_true, if_false]
      rw [hstep]
      exact h.consumer (hnot (by simp)) rfl rfl rfl
    | first =>
      have hstep : s.consume = { s with consumer := .pop (.load (s.queue.next .head)) } := by
        simp only [State.consume, hc, CasPop.step]
      rw [hstep]
      exact h.consumer (hnot (by simp)) rfl rfl rfl
    | load ret =>
      have hstep : s.consume = { s with consumer := .pop (.swap ret s.queue.last) } := by
        simp only [State.consume, hc, CasPop.step]
      rw [hstep]
      exact h.consumer (hnot (by simp)) rfl rfl rfl
    | swap ret oldNode =>
      by_cases he : s.queue.last = oldNode
      · have hstep : s.consume = { s with
            queue := { s.queue with last := .head }
            consumer := .pop (.clear ret oldNode) } := by
          simp only [State.consume, hc, CasPop.step, if_pos he]
        rw [hstep]
        exact fun _ => ⟨.consumer, .pop rfl⟩
      · have hstep : s.consume = { s with consumer := .pop (.readNext ret oldNode) } := by
          simp only [State.consume, hc, CasPop.step, if_neg he]
        rw [hstep]
        exact h.consumer (hnot (by simp)) rfl rfl rfl
    | clear ret oldNode =>
      refine fun hset => absurd ?_ hset
      have hhead : s.queue.last = .head := hlast
      simp only [State.consume, hc, CasPop.step, State.Free, CasQueue.setNext_last,
        CasQueue.setNext_next, hhead, Function.update_self]
    | readNext ret oldNode =>
      refine h.consumer (hnot (by simp)) ?_ ?_ ?_ <;> unfold State.consume <;> rw [hc] <;> rfl
    | relink ret oldNode v =>
      obtain ⟨b, q', rfl, hb, hq', -⟩ := hsaw
      have hhead : s.queue.last ≠ .head := by
        have hend : s.queue.last = endOf .head (b ++ q') := hlast
        rw [hend]
        exact endOf_ne_head .head (List.append_ne_nil_of_left_ne_nil hb.ne q')
      refine h.consumer (hnot (by simp)) ?_ ?_ ?_ <;> unfold State.consume <;> rw [hc] <;>
        simp only [CasPop.step]
      · rfl
      · exact Function.update_of_ne hhead ..

/-- **A turn** keeps the cause. -/
theorem Caused.step (h : Caused s) (hi : Inv todo s rest) (a : Actor ι) : Caused (s.step a) := by
  cases a with
  | producer p => exact h.push hi.producers p
  | consumer => exact h.consume hi

theorem Caused.run (h : Caused s) (hi : Inv todo s rest) (hnd : ∀ p, (todo p).Nodup)
    (hdj : ∀ p p', p ≠ p' → (todo p).Disjoint (todo p')) (sched : List (Actor ι)) :
    Caused (CcUtils.Queue.run s sched) := by
  induction sched generalizing s rest with
  | nil => exact h
  | cons a sched ih =>
    obtain ⟨rest', hi'⟩ := hi.step hnd hdj a
    exact ih (h.step hi a) hi'

/-! ### In every state -/

/-- A thread midway has set the field behind `last`, and the other producers will not swing it. -/
theorem Midway.blocked {ι ν : Type} [DecidableEq ν] {todo : ι → List ν} {s : State ι ν} {rest : List ν}
    {a : Actor ι} (ha : Midway s a) (hi : Inv todo s rest)
    (hnd : ∀ p, (todo p).Nodup) (hdj : ∀ p p', p ≠ p' → (todo p).Disjoint (todo p')) :
    Blocked (fun p => Actor.producer p ≠ a) s := by
  obtain ⟨hp, q, hl⟩ := hi
  cases ha with
  | @push p n ns htodo hpc =>
    obtain ⟨hnext, hset, -⟩ := hp.swing p _ hpc
    refine ⟨hset, fun p' hp' hpc' => ?_⟩
    -- two producers cannot both have linked behind the last node
    have hnext' := (hp.swing p' _ hpc').1
    rw [hnext, htodo] at hnext'
    have hin : n ∈ todo p := hp.mem_todo (htodo ▸ List.mem_cons_self)
    have hin' : n ∈ todo p' := hp.mem_todo (List.mem_of_head? hnext'.symm)
    exact hdj p p' (fun he => hp' (by rw [he])) hin hin'
  | @pop ret oldNode hc =>
    have hsaw : Batch q ret oldNode := hl.saw_pop hc
    have hhead : s.queue.last = .head := hl.last_pop hc
    refine ⟨?_, fun p _ hpc => hl.not_clear hp hnd hpc ret oldNode hc⟩
    rw [State.Free, hhead, hl.linked.next_eq hsaw.ne, List.head?_eq_none_iff]
    exact hsaw.ne

/-- The next turn of a thread midway. -/
theorem Midway.frees {a : Actor ι} (ha : Midway s a) (hi : Inv todo s rest) : (s.step a).Free := by
  obtain ⟨hp, q, hl⟩ := hi
  cases ha with
  | @push p n ns htodo hpc =>
    rw [State.step, push_swing htodo hpc]
    exact hp.null p n (htodo ▸ List.mem_cons_self)
  | @pop ret oldNode hc =>
    have hhead : s.queue.last = .head := hl.last_pop hc
    simp only [State.step, State.consume, hc, CasPop.step, State.Free, CasQueue.setNext_last,
      CasQueue.setNext_next, hhead, Function.update_self]

theorem Inv.progress (hi : Inv todo s rest) (hcaused : Caused s) (hnd : ∀ p, (todo p).Nodup)
    (hdj : ∀ p p', p ≠ p' → (todo p).Disjoint (todo p')) : Progress s where
  alone p n ns htodo hfree := by
    refine hfree.pushes htodo fun hpc => ?_
    exact (hi.producers.swing p _ hpc).2.1 hfree
  caused := hcaused
  blocks a ha sched hsched := by
    have hothers : ∀ b ∈ sched, ∃ p, b = .producer p ∧ Actor.producer p ≠ a := by
      intro b hb
      obtain ⟨hba, hbc⟩ := hsched b hb
      cases b with
      | consumer => exact absurd rfl hbc
      | producer p => exact ⟨p, rfl, hba⟩
    have hstay := (ha.blocked hi hnd hdj).run hothers
    exact ⟨hstay.swung, hstay.todo⟩
  frees a ha := ha.frees hi

/-- **In every state that can be reached**, a producer alone pushes its node unless some thread is midway; if
one is, no other producer pushes anything before that thread, or the consumer, has had a turn; and after that
turn they can. -/
theorem push_progress (m : CasQueue ν) (todo : ι → List ν) (hnd : ∀ p, (todo p).Nodup)
    (hdj : ∀ p p', p ≠ p' → (todo p).Disjoint (todo p'))
    (hnull : ∀ p, ∀ n ∈ todo p, m.next (.node n) = none) (sched : List (Actor ι)) :
    Progress (run (start m todo) sched) := by
  have hstart := Inv.start m hnull
  obtain ⟨rest, hi⟩ := hstart.run hnd hdj sched
  have hfree : (start m todo).Free := by
    simp only [State.Free, start, casQueueInit, CasQueue.setNext_next, Function.update_self]
  have hcaused : Caused (start m todo) := fun hset => absurd hfree hset
  exact hi.progress (hcaused.run hstart hnd hdj sched) hnd hdj

/-- One producer has linked its node, the other has read `last`. -/
theorem push_progress_two : Progress (run (start ⟨fun _ => none, .head⟩ fun p : Bool => [p])
    [.producer false, .producer true, .producer true]) :=
  push_progress ⟨fun _ => none, .head⟩ (fun p : Bool => [p]) (by decide) (by simp) (fun _ _ _ => rfl)
    [.producer false, .producer true, .producer true]

end cause

end CcUtils.Queue
