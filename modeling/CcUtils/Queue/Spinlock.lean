import CcUtils.Queue.Model
import Mathlib.Data.Finset.Basic

/-!
# The spinlock queue under every schedule

Any number of threads push to the spinlock queue and pop from it, in any order, one access to shared memory a
turn. A thread pushes nodes it owns. What it pops is a batch, which it walks as `test_spinlock_queue_consume`
does, and then it owns the nodes of the batch and may push them again. `spinlock_queue_pop` looks at
`queue->last` before it takes the lock, while another thread may be inside; so a call takes effect not when it
lets the lock go but at its store to `queue->last`, and a pop that sees the queue empty at that look.

Beside the program's state the calls are recorded in the order in which they take effect.

## What is proved

* `run_spinPush`, `run_spinPop` — alone, the accesses of a call do what the whole function does.
* `SpinInv.turn` — a turn keeps the invariant.
* `spinlock_linearizable` — under every schedule the calls are those of a queue that hands out everything in
  it, in the order in which they take effect; no node is lost, no walk meets NULL, at most one thread is
  inside, and every call can still return.
-/

namespace CcUtils.Queue

open CcUtils.Lib

variable {ι ν : Type} [DecidableEq ι] [DecidableEq ν]

/-! ### The accesses -/

/-- Where a call of `spinlock_queue_push` is. -/
inductive SpinPush (ν : Type) where
  /-- Waiting for the lock. -/
  | lock
  /-- About to load `queue->last`. -/
  | load
  /-- About to store the node to `queue->last->next`. -/
  | link (last : Ref ν)
  /-- About to store the node to `queue->last`. -/
  | swing
  | unlock

/-- One access of `spinlock_queue_push(queue, node)`; `none` when it has returned. -/
def SpinPush.step (m : SpinlockQueue ν) (node : ν) : SpinPush ν → SpinlockQueue ν × Option (SpinPush ν)
  | .lock => if m.spin then (m, some .lock) else ({ m with spin := true }, some .load)
  | .load => (m, some (.link m.last))
  | .link last => ({ m with next := Function.update m.next last (some node) }, some .swing)
  | .swing => ({ m with last := .node node }, some .unlock)
  | .unlock => (m.unlock, none)

/-- Where a call of `spinlock_queue_pop` is. -/
inductive SpinPop (ν : Type) where
  /-- About to compare `queue->last` with `&queue->head`. -/
  | check
  /-- Waiting for the lock. -/
  | lock
  /-- About to load `queue->head.next`. -/
  | first
  /-- About to load `queue->last`. -/
  | load (ret : Option ν)
  /-- About to store `&queue->head` to `queue->last`. -/
  | reset (ret : Option ν) (last : Ref ν)
  /-- About to store NULL to `queue->head.next`. -/
  | clear (ret : Option ν) (last : Ref ν)
  | unlock (ret : Option ν) (last : Ref ν)

/-- One access of `spinlock_queue_pop`. -/
def SpinPop.step (m : SpinlockQueue ν) : SpinPop ν → SpinlockQueue ν × (SpinPop ν ⊕ Popped ν)
  | .check => (m, if m.last = .head then .inr ⟨none, none⟩ else .inl .lock)
  | .lock => if m.spin then (m, .inl .lock) else ({ m with spin := true }, .inl .first)
  | .first => (m, .inl (.load (m.next .head)))
  | .load ret => (m, .inl (.reset ret m.last))
  | .reset ret last => ({ m with last := .head }, .inl (.clear ret last))
  | .clear ret last =>
    ({ m with next := Function.update m.next .head none }, .inl (.unlock ret last))
  | .unlock ret last => (m.unlock, .inr ⟨ret, some last⟩)

/-- The accesses of a push one after another; the fuel bounds the wait for the lock. -/
def runSpinPush (node : ν) : ℕ → SpinlockQueue ν → SpinPush ν → Exec (SpinlockQueue ν)
  | 0, _, _ => .error .outOfFuel
  | fuel + 1, m, pc =>
    match pc.step m node with
    | (m, some pc) => runSpinPush node fuel m pc
    | (m, none) => .ok m

/-- The accesses of a pop one after another. -/
def runSpinPop : ℕ → SpinlockQueue ν → SpinPop ν → Exec (SpinlockQueue ν × Popped ν)
  | 0, _, _ => .error .outOfFuel
  | fuel + 1, m, pc =>
    match pc.step m with
    | (m, .inl pc) => runSpinPop fuel m pc
    | (m, .inr r) => .ok (m, r)

/-- Alone, the accesses of a push do what `spinlock_queue_push` does. -/
theorem run_spinPush (m : SpinlockQueue ν) (node : ν) {fuel : ℕ} (hf : 5 ≤ fuel) :
    runSpinPush node fuel m .lock = spinlockQueuePush m node := by
  cases hspin : m.spin with
  | true =>
    have hwait : ∀ fuel, runSpinPush node fuel m .lock = .error .outOfFuel := by
      intro fuel
      induction fuel with
      | zero => rfl
      | succ fuel ih => simp only [runSpinPush, SpinPush.step, hspin, if_true, ih]
    rw [hwait, spinlockQueuePush, SpinlockQueue.lock, hspin]
    rfl
  | false =>
    obtain ⟨fuel, rfl⟩ := Nat.exists_eq_add_of_le' hf
    simp only [runSpinPush, SpinPush.step, hspin, spinlockQueuePush, SpinlockQueue.lock]
    rfl

/-- Alone, the accesses of a pop do what `spinlock_queue_pop` does. -/
theorem run_spinPop (m : SpinlockQueue ν) {fuel : ℕ} (hf : 7 ≤ fuel) :
    runSpinPop fuel m .check = spinlockQueuePop m := by
  obtain ⟨fuel, rfl⟩ := Nat.exists_eq_add_of_le' hf
  by_cases hlast : m.last = .head
  · simp only [runSpinPop, SpinPop.step, spinlockQueuePop, if_pos hlast]
  · cases hspin : m.spin with
    | true =>
      have hwait : ∀ fuel, runSpinPop fuel m .lock = .error .outOfFuel := by
        intro fuel
        induction fuel with
        | zero => rfl
        | succ fuel ih => simp only [runSpinPop, SpinPop.step, hspin, if_true, ih]
      rw [runSpinPop]
      simp only [SpinPop.step, if_neg hlast, hwait, spinlockQueuePop, SpinlockQueue.lock, hspin]
      rfl
    | false =>
      simp only [runSpinPop, SpinPop.step, if_neg hlast, hspin, spinlockQueuePop, SpinlockQueue.lock]
      rfl

/-! ### The system -/

/-- What a call did. -/
inductive Event (ν : Type) where
  | push (n : ν)
  | took (batch : List ν)
  | empty
  deriving DecidableEq

/-- A pop that takes the whole list. -/
def taken (q : List ν) : Event ν := if q = [] then .empty else .took q

/-- Where a thread is: in no call, in a push or a pop, or in the loop over a batch. -/
inductive SpinPc (ν : Type) where
  | idle
  | push (n : ν) (pc : SpinPush ν)
  | pop (pc : SpinPop ν)
  | walk (next : Option ν) (last : Option (Ref ν)) (walked : List ν)
  | crashed

/-- A thread, with the nodes it may push and what its calls did. -/
structure SpinThread (ν : Type) where
  pc : SpinPc ν
  owned : Finset ν
  past : List (Event ν)
  /-- Recorded: the batch it has taken off and not yet walked to its end. -/
  batch : List ν

/-- The shared memory and the threads. -/
structure SpinState (ι ν : Type) where
  queue : SpinlockQueue ν
  thread : ι → SpinThread ν
  /-- Recorded: the nodes in the queue. -/
  queued : List ν
  /-- Recorded: the calls in the order in which they take effect. -/
  log : List (ι × Event ν)

/-- What a thread in no call goes on with. -/
inductive Choice (ν : Type) where
  | push (n : ν)
  | pop

/-- The thread goes to `t`. -/
def SpinState.set (s : SpinState ι ν) (i : ι) (t : SpinThread ν) : SpinState ι ν :=
  { s with thread := Function.update s.thread i t }

/-- The call that takes effect at an access is recorded: a push with its store to `queue->last`, a pop with
its own, or with the look that finds the queue empty. -/
def SpinState.record (s : SpinState ι ν) (i : ι) : SpinPc ν → SpinState ι ν
  | .push n .swing => { s with queued := s.queued ++ [n], log := s.log ++ [(i, .push n)] }
  | .pop .check =>
    if s.queue.last = .head then { s with log := s.log ++ [(i, .empty)] } else s
  | .pop (.reset _ _) =>
    { s.set i { s.thread i with batch := s.queued } with
      queued := []
      log := s.log ++ [(i, taken s.queued)] }
  | _ => s

/-- The memory after an access. -/
def SpinState.store (s : SpinState ι ν) (m : SpinlockQueue ν) : SpinState ι ν := { s with queue := m }

/-- The thread goes to another point. -/
def SpinState.goto (s : SpinState ι ν) (i : ι) (pc : SpinPc ν) : SpinState ι ν :=
  s.set i { s.thread i with pc }

/-- The call of the thread is over. -/
def SpinState.done (s : SpinState ι ν) (i : ι) (e : Event ν) : SpinState ι ν :=
  s.set i { s.thread i with pc := .idle, past := (s.thread i).past ++ [e] }

/-- A turn of a thread. -/
def SpinState.turn (s : SpinState ι ν) (i : ι) (c : Choice ν) : SpinState ι ν :=
  match (s.thread i).pc with
  | .idle =>
    match c with
    | .push n =>
      if n ∈ (s.thread i).owned then
        s.set i { s.thread i with pc := .push n .lock, owned := (s.thread i).owned.erase n }
      else s
    | .pop => s.goto i (.pop .check)
  | .push n pc =>
    match pc.step s.queue n with
    | (m, some pc') => ((s.record i (.push n pc)).store m).goto i (.push n pc')
    | (m, none) => (s.store m).done i (.push n)
  | .pop pc =>
    match pc.step s.queue with
    | (m, .inl pc') => ((s.record i (.pop pc)).store m).goto i (.pop pc')
    | (m, .inr r) =>
      if r.ret = none then ((s.record i (.pop pc)).store m).done i .empty
      else (s.store m).goto i (.walk r.ret r.last [])
  | .walk next last walked =>
    match walkStep s.queue.next next last with
    | .error _ => s.goto i .crashed
    | .ok (node, none) =>
      s.set i
        { pc := .idle
          owned := (s.thread i).owned ∪ (walked ++ [node]).toFinset
          past := (s.thread i).past ++ [.took (walked ++ [node])]
          batch := [] }
    | .ok (node, some next) => s.goto i (.walk next last (walked ++ [node]))
  | .crashed => s

/-- A run under a schedule. -/
def spinRun (s : SpinState ι ν) (sched : List (ι × Choice ν)) : SpinState ι ν :=
  sched.foldl (fun s t => s.turn t.1 t.2) s

/-- The threads start after `spinlock_queue_init`. -/
def spinStart (m : SpinlockQueue ν) (own : ι → Finset ν) : SpinState ι ν where
  queue := spinlockQueueInit m
  thread i := ⟨.idle, own i, [], []⟩
  queued := []
  log := []

/-! ### What is wanted -/

/-- What an event does to the nodes in the queue, if it can happen. -/
def Event.after (q : List ν) : Event ν → Option (List ν)
  | .push n => some (q ++ [n])
  | .took b => if b = q ∧ q ≠ [] then some [] else none
  | .empty => if q = [] then some [] else none

/-- The events can happen one after another, and leave `q` in the queue. -/
def Atomic (log : List (ι × Event ν)) (q : List ν) : Prop :=
  (log.map Prod.snd).foldlM Event.after [] = some q

/-- The nodes pushed. -/
def pushed (log : List (ι × Event ν)) : List ν :=
  log.flatMap fun
    | (_, .push n) => [n]
    | _ => []

/-- The nodes handed out, batch after batch. -/
def handedOut (log : List (ι × Event ν)) : List ν :=
  log.flatMap fun
    | (_, .took b) => b
    | _ => []

/-- The events of one thread. -/
def eventsOf (i : ι) (log : List (ι × Event ν)) : List (Event ν) :=
  log.filterMap fun e => if e.1 = i then some e.2 else none

/-- Does the thread hold the lock? -/
def SpinPc.inside : SpinPc ν → Bool
  | .push _ .lock => false
  | .push _ _ => true
  | .pop .check => false
  | .pop .lock => false
  | .pop _ => true
  | _ => false

/-- The node of a push that has not taken effect. -/
def SpinPc.carried : SpinPc ν → List ν
  | .push _ .unlock => []
  | .push n _ => [n]
  | _ => []

/-- The node belongs to the thread: it may push it, is pushing it, or has popped it. -/
def SpinThread.Has (t : SpinThread ν) (n : ν) : Prop :=
  n ∈ t.owned ∨ n ∈ t.pc.carried ∨ n ∈ t.batch

/-- The call that has taken effect and is not over. -/
def SpinPc.pending (b : List ν) : SpinPc ν → List (Event ν)
  | .push n .unlock => [.push n]
  | .pop (.clear _ _) => [taken b]
  | .pop (.unlock _ _) => [taken b]
  | .walk _ _ _ => [taken b]
  | _ => []

/-- What the queue is for. -/
structure SpinSafe (own : ι → Finset ν) (s : SpinState ι ν) : Prop where
  /-- The calls, in the order in which they take effect, are calls of a queue that hands out everything, -/
  atomic : Atomic s.log s.queued
  /-- so that every node comes out once for each time it was pushed, and in that order; -/
  fifo : pushed s.log = handedOut s.log ++ s.queued
  /-- each thread's calls are those that are over, with the one it is in if that has taken effect. -/
  threads : ∀ i, eventsOf i s.log =
    (s.thread i).past ++ (s.thread i).pc.pending (s.thread i).batch
  /-- At most one thread is inside, -/
  alone : ∀ i j, (s.thread i).pc.inside = true → (s.thread j).pc.inside = true → i = j
  /-- no walk has met NULL, -/
  sound : ∀ i, (s.thread i).pc ≠ .crashed
  /-- and every node is in the queue or belongs to one thread. -/
  all : ∀ n, (∃ i, n ∈ own i) ↔ (∃ i, (s.thread i).Has n) ∨ n ∈ s.queued
  once : ∀ i n, (s.thread i).Has n → n ∉ s.queued ∧ ∀ j, (s.thread j).Has n → j = i
  /-- A thread in a call can still return from it. -/
  returns : ∀ i, (s.thread i).pc ≠ .idle → ∃ sched e, ((spinRun s sched).thread i).pc = .idle ∧
    ((spinRun s sched).thread i).past = (s.thread i).past ++ [e]

/-! ### The invariant -/

/-- Following `next` leads through the nodes of a batch. -/
def Chain (next : Ref ν → Option ν) : List ν → Prop
  | [] => True
  | r :: t => Linked next (.node r) t

/-- What the local variables of a thread say, of the queue if it is inside and of its batch. -/
def SpinPc.Saw (next : Ref ν → Option ν) (q b : List ν) : SpinPc ν → Prop
  | .push _ (.link last) => b = [] ∧ last = endOf .head q
  | .push n .swing => b = [] ∧ next (endOf .head q) = some n
  | .pop (.load ret) => b = [] ∧ ret = q.head?
  | .pop (.reset ret last) => b = [] ∧ ret = q.head? ∧ last = endOf .head q
  | .pop (.clear ret last) => q = [] ∧ ret = b.head? ∧ last = endOf .head b ∧ Chain next b
  | .pop (.unlock ret last) => ret = b.head? ∧ last = endOf .head b ∧ Chain next b
  | .walk n last walked => ∃ r t, b = walked ++ r :: t ∧ n = some r ∧ Linked next (.node r) t ∧
      last = some (endOf (.node r) t)
  | .crashed => False
  | _ => b = []

/-- Between the two stores of a push or of a pop the header may not point to the first node. -/
def SpinPc.dirty : SpinPc ν → Bool
  | .push _ .swing => true
  | .pop (.clear _ _) => true
  | _ => false

/-- The list in memory. -/
structure Shape (m : SpinlockQueue ν) (q : List ν) (thread : ι → SpinThread ν) : Prop where
  last : m.last = endOf .head q
  linked : Linked m.next .head q
  nodup : q.Nodup
  header : (∀ i, (thread i).pc.dirty = false) → m.next .head = q.head?

/-- The lock is held by the thread inside. -/
structure Held (spin : Bool) (thread : ι → SpinThread ν) : Prop where
  some : spin = true → ∃ i, (thread i).pc.inside = true
  held : ∀ i, (thread i).pc.inside = true → spin = true
  alone : ∀ i j, (thread i).pc.inside = true → (thread j).pc.inside = true → i = j

/-- In the thread each node has its place. -/
structure SpinThread.Tidy (t : SpinThread ν) : Prop where
  carried : ∀ n ∈ t.pc.carried, n ∉ t.owned
  batch : t.batch.Nodup

/-- Where the nodes are. -/
structure Placed (own : ι → Finset ν) (q : List ν) (thread : ι → SpinThread ν) : Prop where
  all : ∀ n, (∃ i, n ∈ own i) ↔ (∃ i, (thread i).Has n) ∨ n ∈ q
  out : ∀ i n, (thread i).Has n → n ∉ q
  once : ∀ i j n, (thread i).Has n → (thread j).Has n → j = i
  tidy : ∀ i, (thread i).Tidy

/-- The invariant. -/
structure SpinInv (own : ι → Finset ν) (s : SpinState ι ν) : Prop where
  shape : Shape s.queue s.queued s.thread
  lock : Held s.queue.spin s.thread
  placed : Placed own s.queued s.thread
  saw : ∀ i, (s.thread i).pc.Saw s.queue.next s.queued (s.thread i).batch
  atomic : Atomic s.log s.queued
  past : ∀ i, eventsOf i s.log = (s.thread i).past ++ (s.thread i).pc.pending (s.thread i).batch

/-! ### One thread among the others -/

section thread

variable {own : ι → Finset ν} {thread : ι → SpinThread ν} {i j : ι} {t t' : SpinThread ν}
  {m m' : SpinlockQueue ν} {q q' b : List ν} {spin : Bool} {next next' : Ref ν → Option ν} {n : ν}
  {log : List (ι × Event ν)} {e : Event ν} {pc : SpinPc ν}

section moves

omit [DecidableEq ν]

/-- A property of all threads after one has moved. -/
theorem forall_update {P : ι → SpinThread ν → Prop} (ht : P i t')
    (h : ∀ j, j ≠ i → P j (thread j)) : ∀ j, P j (Function.update thread i t' j) := by
  intro j
  by_cases hj : j = i
  · subst hj
    rwa [Function.update_self]
  · rw [Function.update_of_ne hj]
    exact h j hj

/-- A thread between the two stores. -/
theorem not_clean (ht : t.pc.dirty = true)
    (h : ∀ j, (Function.update thread i t j).pc.dirty = false) : False := by
  have hi := h i
  rw [Function.update_self, ht] at hi
  cases hi

/-- A move that leaves the two fields of the header and of the list. -/
theorem Shape.step (h : Shape m q thread) (hnext : m'.next = m.next) (hlast : m'.last = m.last)
    (hdirty : t'.pc.dirty = (thread i).pc.dirty) : Shape m' q (Function.update thread i t') := by
  refine ⟨hlast.trans h.last, hnext ▸ h.linked, h.nodup, fun hclean => ?_⟩
  rw [hnext]
  refine h.header fun j => ?_
  have hj := hclean j
  by_cases hji : j = i
  · subst hji
    rwa [Function.update_self, hdirty] at hj
  · rwa [Function.update_of_ne hji] at hj

/-- A move on the same side of the lock. -/
theorem Held.step (h : Held spin thread) (ht : t'.pc.inside = (thread i).pc.inside) :
    Held spin (Function.update thread i t') := by
  have hsame : ∀ j, (Function.update thread i t' j).pc.inside = (thread j).pc.inside :=
    forall_update (P := fun j t => t.pc.inside = (thread j).pc.inside) ht fun _ _ => rfl
  refine ⟨fun hs => ?_, fun j hj => h.held j (hsame j ▸ hj), fun j k hj hk => ?_⟩
  · obtain ⟨j, hj⟩ := h.some hs
    exact ⟨j, (hsame j).trans hj⟩
  · exact h.alone j k (hsame j ▸ hj) (hsame k ▸ hk)

/-- The thread gets the free lock. -/
theorem Held.acquire (h : Held false thread) (ht : t'.pc.inside = true) :
    Held true (Function.update thread i t') := by
  have honly : ∀ j, (Function.update thread i t' j).pc.inside = true → j = i := by
    refine forall_update (P := fun j t => t.pc.inside = true → j = i) (fun _ => rfl) fun j _ hj => ?_
    exact absurd (h.held j hj) Bool.false_ne_true
  refine ⟨fun _ => ⟨i, by rwa [Function.update_self]⟩, fun _ _ => rfl, fun j k hj hk => ?_⟩
  rw [honly j hj, honly k hk]

/-- The thread inside lets the lock go. -/
theorem Held.release (h : Held spin thread) (hi : (thread i).pc.inside = true)
    (ht : t'.pc.inside = false) : Held false (Function.update thread i t') := by
  have hnone : ∀ j, (Function.update thread i t' j).pc.inside = false := by
    refine forall_update (P := fun _ t => t.pc.inside = false) ht fun j hji => ?_
    exact Bool.eq_false_iff.mpr fun hj => hji (h.alone j i hj hi)
  refine ⟨nofun, fun j hj => ?_, fun j _ hj => ?_⟩
  · rw [hnone j] at hj
    cases hj
  · rw [hnone j] at hj
    cases hj

/-- A move that moves no node of the thread to others or to the queue. -/
theorem Placed.step (h : Placed own q thread) (ht : ∀ n, t'.Has n ↔ (thread i).Has n)
    (htidy : t'.Tidy) : Placed own q (Function.update thread i t') := by
  have hsame : ∀ j n, (Function.update thread i t' j).Has n ↔ (thread j).Has n :=
    forall_update (P := fun j t => ∀ n, t.Has n ↔ (thread j).Has n) ht fun _ _ _ => Iff.rfl
  refine ⟨fun n => ?_, fun j n hj => h.out j n ((hsame j n).mp hj), fun j k n hj hk => ?_,
    forall_update (P := fun _ t => t.Tidy) htidy fun j _ => h.tidy j⟩
  · simp only [hsame]
    exact h.all n
  · exact h.once j k n ((hsame j n).mp hj) ((hsame k n).mp hk)

/-- The nodes in the queue go to the thread. -/
theorem Placed.take (h : Placed own q thread) (ht : ∀ k, t'.Has k ↔ (thread i).Has k ∨ k ∈ q)
    (htidy : t'.Tidy) : Placed own [] (Function.update thread i t') := by
  have hmore : ∀ j k, (Function.update thread i t' j).Has k ↔
      (thread j).Has k ∨ j = i ∧ k ∈ q := by
    refine forall_update (P := fun j t => ∀ k, t.Has k ↔ (thread j).Has k ∨ j = i ∧ k ∈ q)
      (fun k => ?_) fun j hji k => ?_
    · rw [ht]
      simp
    · simp [hji]
  refine ⟨fun k => ?_, fun j k _ => List.not_mem_nil, fun j k l hj hk => ?_,
    forall_update (P := fun _ t => t.Tidy) htidy fun j _ => h.tidy j⟩
  · rw [h.all k]
    simp only [hmore, List.not_mem_nil, or_false]
    constructor
    · rintro (⟨j, hj⟩ | hk)
      · exact ⟨j, .inl hj⟩
      · exact ⟨i, .inr ⟨rfl, hk⟩⟩
    · rintro ⟨j, hj | ⟨-, hk⟩⟩
      · exact .inl ⟨j, hj⟩
      · exact .inr hk
  · rcases (hmore j l).mp hj with hj' | ⟨rfl, hj'⟩ <;>
      rcases (hmore k l).mp hk with hk' | ⟨rfl, hk'⟩
    · exact h.once j k l hj' hk'
    · exact absurd hk' (h.out j l hj')
    · exact absurd hj' (h.out k l hk')
    · rfl

end moves

/-- A node of the thread goes to the queue. -/
theorem Placed.give (h : Placed own q thread) (hn : (thread i).Has n)
    (ht : ∀ k, t'.Has k ↔ (thread i).Has k ∧ k ≠ n) (htidy : t'.Tidy) :
    Placed own (q ++ [n]) (Function.update thread i t') := by
  have hless : ∀ j k, (Function.update thread i t' j).Has k ↔ (thread j).Has k ∧ k ≠ n := by
    refine forall_update (P := fun j t => ∀ k, t.Has k ↔ (thread j).Has k ∧ k ≠ n) ht
      fun j hji k => ⟨fun hk => ⟨hk, ?_⟩, And.left⟩
    rintro rfl
    exact hji (h.once i j k hn hk)
  refine ⟨fun k => ?_, fun j k hj => ?_, fun j k l hj hk => ?_,
    forall_update (P := fun _ t => t.Tidy) htidy fun j _ => h.tidy j⟩
  · rw [h.all k]
    simp only [hless, List.mem_append, List.mem_singleton]
    by_cases hk : k = n
    · subst hk
      exact ⟨fun _ => .inr (.inr rfl), fun _ => .inl ⟨i, hn⟩⟩
    · simp [hk]
  · obtain ⟨hj, hkn⟩ := (hless j k).mp hj
    rw [List.mem_append, List.mem_singleton, not_or]
    exact ⟨h.out j k hj, hkn⟩
  · exact h.once j k l ((hless j l).mp hj).1 ((hless k l).mp hk).1

/-- What a thread outside knows is not changed by stores to other nodes than those of its batch. -/
theorem SpinPc.Saw.outside {ν : Type} {q q' b : List ν} {next next' : Ref ν → Option ν} {pc : SpinPc ν}
    (h : pc.Saw next q b) (hout : pc.inside = false)
    (hnext : ∀ n ∈ b, next' (.node n) = next (.node n)) : pc.Saw next' q' b := by
  cases pc with
  | push n pc =>
    cases pc with
    | lock => exact h
    | _ => cases hout
  | pop pc =>
    cases pc with
    | check => exact h
    | lock => exact h
    | _ => cases hout
  | walk n last walked =>
    obtain ⟨r, t, rfl, hn, hlinked, hlast⟩ := h
    refine ⟨r, t, rfl, hn, ?_, hlast⟩
    exact hlinked.congr fun k hk => hnext k (List.mem_append_right walked hk)
  | _ => exact h

theorem Atomic.concat {ι ν : Type} [DecidableEq ν] {q q' : List ν} {log : List (ι × Event ν)} {e : Event ν}
    (h : Atomic log q) (he : e.after q = some q') (i : ι) :
    Atomic (log ++ [(i, e)]) q' := by
  rw [Atomic, List.map_append, List.foldlM_append, h]
  change (e.after q >>= fun q => pure q) = some q'
  rw [he]
  rfl

@[simp] theorem eventsOf_concat_self {ι ν : Type} [DecidableEq ι]
    (i : ι) (log : List (ι × Event ν)) (e : Event ν) :
    eventsOf i (log ++ [(i, e)]) = eventsOf i log ++ [e] := by
  simp [eventsOf]

theorem eventsOf_concat_of_ne {ι ν : Type} [DecidableEq ι] {i j : ι}
    (h : i ≠ j) (log : List (ι × Event ν)) (e : Event ν) :
    eventsOf j (log ++ [(i, e)]) = eventsOf j log := by
  simp [eventsOf, h]

theorem taken_after (q : List ν) : (taken q).after q = some [] := by
  unfold taken
  split
  · rename_i hq
    exact if_pos hq
  · rename_i hq
    exact if_pos ⟨rfl, hq⟩

end thread

/-! ### The turns -/

section turn

variable {own : ι → Finset ν} {s : SpinState ι ν} {i : ι} {t t' : SpinThread ν}

/-- A move that leaves the list and the record as they are. -/
theorem SpinInv.local (h : SpinInv own s) (spin : Bool)
    (hlock : Held spin (Function.update s.thread i t'))
    (hdirty : t'.pc.dirty = (s.thread i).pc.dirty) (hhas : ∀ n, t'.Has n ↔ (s.thread i).Has n)
    (htidy : t'.Tidy) (hsaw : t'.pc.Saw s.queue.next s.queued t'.batch)
    (hpast : t'.past ++ t'.pc.pending t'.batch =
      (s.thread i).past ++ (s.thread i).pc.pending (s.thread i).batch) :
    SpinInv own ((s.store { s.queue with spin }).set i t') where
  shape := h.shape.step rfl rfl hdirty
  lock := hlock
  placed := h.placed.step hhas htidy
  saw := forall_update (P := fun _ t => t.pc.Saw s.queue.next s.queued t.batch) hsaw
    fun j _ => h.saw j
  atomic := h.atomic
  past := forall_update (P := fun j t => eventsOf j s.log = t.past ++ t.pc.pending t.batch)
    ((h.past i).trans hpast.symm) fun j _ => h.past j

/-- A move to another point of the code. -/
theorem SpinInv.goto (h : SpinInv own s) {pc pc' : SpinPc ν} (hi : (s.thread i).pc = pc) (spin : Bool)
    (hlock : Held spin (Function.update s.thread i { s.thread i with pc := pc' }))
    (hdirty : pc'.dirty = pc.dirty) (hcarried : pc'.carried = pc.carried)
    (hsaw : pc.Saw s.queue.next s.queued (s.thread i).batch →
      pc'.Saw s.queue.next s.queued (s.thread i).batch)
    (hpending : pc'.pending (s.thread i).batch = pc.pending (s.thread i).batch) :
    SpinInv own ((s.store { s.queue with spin }).goto i pc') := by
  subst hi
  have htidy := h.placed.tidy i
  refine h.local spin hlock hdirty (fun n => ?_) ⟨?_, htidy.batch⟩ (hsaw (h.saw i)) ?_
  · rw [SpinThread.Has, hcarried]
    rfl
  · rw [hcarried]
    exact htidy.carried
  · exact congrArg ((s.thread i).past ++ ·) hpending

/-- The others do not see what the thread inside stores to cells that are in no batch. -/
theorem SpinInv.saw_outside (h : SpinInv own s) (hi : (s.thread i).pc.inside = true)
    {next' : Ref ν → Option ν} {q' : List ν}
    (hnext : ∀ j n, n ∈ (s.thread j).batch → next' (.node n) = s.queue.next (.node n)) {j : ι}
    (hj : j ≠ i) : (s.thread j).pc.Saw next' q' (s.thread j).batch := by
  refine (h.saw j).outside ?_ (hnext j)
  exact Bool.eq_false_iff.mpr fun hin => hj (h.lock.alone j i hin hi)

/-- The thread that is to store the node behind the last one. -/
theorem SpinInv.link (h : SpinInv own s) {n : ν} {last : Ref ν}
    (hi : (s.thread i).pc = .push n (.link last)) :
    SpinInv own ((s.store
      { s.queue with next := Function.update s.queue.next last (some n) }).goto i
        (.push n .swing)) := by
  obtain ⟨hbatch, rfl⟩ : (s.thread i).batch = [] ∧ last = endOf .head s.queued := by
    have hsaw := h.saw i
    rwa [hi] at hsaw
  have hin : (s.thread i).pc.inside = true := by rw [hi]; rfl
  have htidy := h.placed.tidy i
  have hcarried : (s.thread i).pc.carried = [n] := by rw [hi]; rfl
  -- no batch has the last cell of the queue
  have hout : ∀ j k, k ∈ (s.thread j).batch → (.node k : Ref ν) ≠ endOf .head s.queued := by
    intro j k hk he
    have hkq : s.queued.getLast? = some k := endOf_eq_node.mp he.symm
    exact h.placed.out j k (.inr (.inr hk)) (List.mem_of_getLast? hkq)
  refine ⟨⟨h.shape.last, h.shape.linked.write_end h.shape.nodup _, h.shape.nodup, fun hclean => ?_⟩,
    h.lock.step (by rw [hi]; rfl), h.placed.step (fun k => ?_) ⟨?_, htidy.batch⟩, ?_, h.atomic, ?_⟩
  · exact (not_clean (t := { s.thread i with pc := .push n .swing }) rfl hclean).elim
  · rw [SpinThread.Has, SpinThread.Has, hcarried]
    rfl
  · intro k hk
    exact htidy.carried k (hcarried ▸ hk)
  · refine forall_update (P := fun _ t => t.pc.Saw (Function.update s.queue.next
      (endOf .head s.queued) (some n)) s.queued t.batch) ⟨hbatch, Function.update_self ..⟩ fun j hj => ?_
    exact h.saw_outside hin (fun j k hk => Function.update_of_ne (hout j k hk) ..) hj
  · refine forall_update (P := fun j t => eventsOf j s.log = t.past ++ t.pc.pending t.batch) ?_
      fun j _ => h.past j
    rw [h.past i, hi]
    rfl

/-- A push takes effect. -/
theorem SpinInv.swing (h : SpinInv own s) {n : ν} (hi : (s.thread i).pc = .push n .swing) :
    SpinInv own (((s.record i (.push n .swing)).store { s.queue with last := .node n }).goto i
      (.push n .unlock)) := by
  obtain ⟨hbatch, hlinked⟩ : (s.thread i).batch = [] ∧
      s.queue.next (endOf .head s.queued) = some n := by
    have hsaw := h.saw i
    rwa [hi] at hsaw
  have hin : (s.thread i).pc.inside = true := by rw [hi]; rfl
  have hcarried : (s.thread i).pc.carried = [n] := by rw [hi]; rfl
  have htidy := h.placed.tidy i
  have hn : (s.thread i).Has n := .inr (.inl (by rw [hcarried]; exact List.mem_singleton_self n))
  have hnq := h.placed.out i n hn
  have hno : n ∉ (s.thread i).owned := htidy.carried n (by rw [hcarried]; exact List.mem_singleton_self n)
  have hstate : ((s.record i (.push n .swing)).store { s.queue with last := .node n }).goto i
      (.push n .unlock) = ⟨{ s.queue with last := .node n },
        Function.update s.thread i { s.thread i with pc := .push n .unlock }, s.queued ++ [n],
        s.log ++ [(i, .push n)]⟩ := rfl
  rw [hstate]
  refine ⟨⟨(endOf_concat ..).symm, h.shape.linked.concat hlinked, ?_, fun _ => ?_⟩,
    h.lock.step (by rw [hi]; rfl), h.placed.give hn (fun k => ?_) ⟨?_, htidy.batch⟩, ?_,
    h.atomic.concat rfl i, ?_⟩
  · rw [List.nodup_append]
    refine ⟨h.shape.nodup, List.nodup_singleton n, fun k hk j hj => ?_⟩
    obtain rfl := List.mem_singleton.mp hj
    rintro rfl
    exact hnq hk
  · change s.queue.next .head = (s.queued ++ [n]).head?
    cases hq : s.queued with
    | nil =>
      rw [hq] at hlinked
      exact hlinked
    | cons k q =>
      have hl := h.shape.linked
      rw [hq] at hl
      exact hl.1
  · rw [SpinThread.Has, SpinThread.Has, hcarried]
    change k ∈ (s.thread i).owned ∨ k ∈ [] ∨ k ∈ (s.thread i).batch ↔ _
    rw [hbatch]
    constructor
    · rintro (hk | hk | hk)
      · refine ⟨.inl hk, ?_⟩
        rintro rfl
        exact hno hk
      · cases hk
      · cases hk
    · rintro ⟨hk | hk | hk, hne⟩
      · exact .inl hk
      · exact absurd (List.mem_singleton.mp hk) hne
      · cases hk
  · exact fun k hk => absurd hk List.not_mem_nil
  · refine forall_update (P := fun _ t => t.pc.Saw s.queue.next (s.queued ++ [n]) t.batch) hbatch
      fun j hj => ?_
    exact h.saw_outside hin (fun _ _ _ => rfl) hj
  · refine forall_update (P := fun j t => eventsOf j (s.log ++ [(i, .push n)]) =
      t.past ++ t.pc.pending t.batch) ?_ fun j hj => ?_
    · rw [eventsOf_concat_self, h.past i, hi]
      change _ = (s.thread i).past ++ [.push n]
      rw [List.append_assoc]
      rfl
    · rw [eventsOf_concat_of_ne (Ne.symm hj), h.past j]

/-- A pop takes effect. -/
theorem SpinInv.reset (h : SpinInv own s) {ret : Option ν} {last : Ref ν}
    (hi : (s.thread i).pc = .pop (.reset ret last)) :
    SpinInv own (((s.record i (.pop (.reset ret last))).store { s.queue with last := .head }).goto i
      (.pop (.clear ret last))) := by
  obtain ⟨hbatch, rfl, rfl⟩ : (s.thread i).batch = [] ∧ ret = s.queued.head? ∧
      last = endOf .head s.queued := by
    have hsaw := h.saw i
    rwa [hi] at hsaw
  have hin : (s.thread i).pc.inside = true := by rw [hi]; rfl
  have hthread : ((s.record i (.pop (.reset s.queued.head? (endOf .head s.queued)))).store
      { s.queue with last := .head }).goto i
        (.pop (.clear s.queued.head? (endOf .head s.queued))) =
      ⟨{ s.queue with last := .head }, Function.update s.thread i
        { s.thread i with
          pc := .pop (.clear s.queued.head? (endOf .head s.queued))
          batch := s.queued }, [], s.log ++ [(i, taken s.queued)]⟩ := by
    simp [SpinState.record, SpinState.store, SpinState.goto, SpinState.set]
  rw [hthread]
  refine ⟨⟨rfl, trivial, List.nodup_nil, fun hclean => ?_⟩, h.lock.step (by rw [hi]; rfl),
    h.placed.take (fun k => ?_) ⟨fun k hk => absurd hk List.not_mem_nil, h.shape.nodup⟩, ?_,
    h.atomic.concat (taken_after s.queued) i, ?_⟩
  · exact (not_clean (t := { s.thread i with
      pc := .pop (.clear s.queued.head? (endOf .head s.queued)), batch := s.queued }) rfl hclean).elim
  · rw [SpinThread.Has, SpinThread.Has, hi, hbatch]
    simp [SpinPc.carried]
  · refine forall_update (P := fun _ t => t.pc.Saw s.queue.next [] t.batch) ⟨rfl, rfl, rfl, ?_⟩
      fun j hj => ?_
    · have hl := h.shape.linked
      cases hq : s.queued with
      | nil => trivial
      | cons r q =>
        rw [hq] at hl
        exact hl.2
    · exact h.saw_outside hin (fun _ _ _ => rfl) hj
  · refine forall_update (P := fun j t => eventsOf j (s.log ++ [(i, taken s.queued)]) =
      t.past ++ t.pc.pending t.batch) ?_ fun j hj => ?_
    · rw [eventsOf_concat_self, h.past i, hi]
      change _ = (s.thread i).past ++ [taken s.queued]
      rw [List.append_assoc]
      rfl
    · rw [eventsOf_concat_of_ne (Ne.symm hj), h.past j]

/-- The header is cleared. -/
theorem SpinInv.clear (h : SpinInv own s) {ret : Option ν} {last : Ref ν}
    (hi : (s.thread i).pc = .pop (.clear ret last)) :
    SpinInv own ((s.store { s.queue with next := Function.update s.queue.next .head none }).goto i
      (.pop (.unlock ret last))) := by
  obtain ⟨hq, hret, hlast, hchain⟩ : s.queued = [] ∧ ret = (s.thread i).batch.head? ∧
      last = endOf .head (s.thread i).batch ∧ Chain s.queue.next (s.thread i).batch := by
    have hsaw := h.saw i
    rwa [hi] at hsaw
  have hin : (s.thread i).pc.inside = true := by rw [hi]; rfl
  have htidy := h.placed.tidy i
  have hnode : ∀ n : ν, Function.update s.queue.next .head none (.node n) =
      s.queue.next (.node n) := fun n => Function.update_of_ne (node_ne_head n) ..
  refine ⟨⟨h.shape.last, ?_, h.shape.nodup, fun _ => ?_⟩, h.lock.step (by rw [hi]; rfl),
    h.placed.step (fun k => ?_) ⟨fun k hk => absurd hk List.not_mem_nil, htidy.batch⟩, ?_, h.atomic, ?_⟩
  · change Linked _ _ s.queued
    rw [hq]
    trivial
  · change Function.update s.queue.next .head none .head = s.queued.head?
    rw [hq, Function.update_self]
    rfl
  · rw [SpinThread.Has, SpinThread.Has, hi]
    rfl
  · refine forall_update (P := fun _ t => t.pc.Saw (Function.update s.queue.next .head none) s.queued
      t.batch) ⟨hret, hlast, ?_⟩ fun j hj => ?_
    · change Chain _ (s.thread i).batch
      cases hb : (s.thread i).batch with
      | nil => trivial
      | cons r t =>
        rw [hb] at hchain
        exact Linked.congr hchain fun k _ => hnode k
    · exact h.saw_outside hin (fun _ k _ => hnode k) hj
  · refine forall_update (P := fun j t => eventsOf j s.log = t.past ++ t.pc.pending t.batch) ?_
      fun j _ => h.past j
    rw [h.past i, hi]
    rfl

/-- A pop sees the queue empty. -/
theorem SpinInv.sawEmpty (h : SpinInv own s) (hi : (s.thread i).pc = .pop .check)
    (hlast : s.queue.last = .head) : SpinInv own ((s.record i (.pop .check)).done i .empty) := by
  have hq : s.queued = [] := endOf_eq_head.mp (h.shape.last.symm.trans hlast)
  have hstate : (s.record i (.pop .check)).done i .empty = ⟨s.queue, Function.update s.thread i
      { s.thread i with pc := .idle, past := (s.thread i).past ++ [.empty] }, s.queued,
        s.log ++ [(i, .empty)]⟩ := by
    simp [SpinState.record, SpinState.done, SpinState.set, hlast]
  have hbatch : (s.thread i).batch = [] := by
    have hsaw := h.saw i
    rwa [hi] at hsaw
  rw [hstate]
  refine ⟨h.shape.step rfl rfl (by rw [hi]; rfl), h.lock.step (by rw [hi]; rfl),
    h.placed.step (fun k => ?_) ⟨fun k hk => absurd hk List.not_mem_nil, (h.placed.tidy i).batch⟩,
    forall_update (P := fun _ t => t.pc.Saw s.queue.next s.queued t.batch) hbatch fun j _ => h.saw j,
    h.atomic.concat ?_ i, ?_⟩
  · rw [SpinThread.Has, SpinThread.Has, hi]
    rfl
  · rw [hq]
    rfl
  · refine forall_update (P := fun j t => eventsOf j (s.log ++ [(i, .empty)]) =
      t.past ++ t.pc.pending t.batch) ?_ fun j hj => ?_
    · rw [eventsOf_concat_self, h.past i, hi]
      change (s.thread i).past ++ [] ++ [.empty] = (s.thread i).past ++ [.empty] ++ []
      rw [List.append_nil, List.append_nil]
    · rw [eventsOf_concat_of_ne (Ne.symm hj), h.past j]

/-- A thread in no call starts one. -/
theorem SpinInv.turn_idle (h : SpinInv own s) (hi : (s.thread i).pc = .idle) (c : Choice ν) :
    SpinInv own (s.turn i c) := by
  have hbatch : (s.thread i).batch = [] := by
    have hsaw := h.saw i
    rwa [hi] at hsaw
  unfold SpinState.turn
  rw [hi]
  cases c with
  | pop => exact h.goto hi s.queue.spin (h.lock.step (by rw [hi]; rfl)) rfl rfl id rfl
  | push n =>
    by_cases hn : n ∈ (s.thread i).owned
    · simp only [if_pos hn]
      refine h.local s.queue.spin (h.lock.step (by rw [hi]; rfl)) (by rw [hi]; rfl) (fun k => ?_)
        ⟨fun k hk => ?_, (h.placed.tidy i).batch⟩ hbatch (by rw [hi]; rfl)
      · rw [SpinThread.Has, SpinThread.Has, hi]
        simp only [SpinPc.carried, Finset.mem_erase, List.mem_singleton, List.not_mem_nil, false_or]
        by_cases hk : k = n
        · subst hk
          exact ⟨fun _ => .inl hn, fun _ => .inr (.inl rfl)⟩
        · simp [hk]
      · obtain rfl := List.mem_singleton.mp hk
        exact Finset.notMem_erase k _
    · simp only [if_neg hn]
      exact h

/-- A turn inside a push. -/
theorem SpinInv.turn_push (h : SpinInv own s) {n : ν} {pc : SpinPush ν}
    (hi : (s.thread i).pc = .push n pc) (c : Choice ν) : SpinInv own (s.turn i c) := by
  have hlock := h.lock
  unfold SpinState.turn
  rw [hi]
  cases pc with
  | lock =>
    cases hspin : s.queue.spin with
    | true =>
      simp only [SpinPush.step, hspin, if_true]
      exact h.goto hi s.queue.spin (hlock.step (by rw [hi])) rfl rfl id rfl
    | false =>
      simp only [SpinPush.step, hspin, Bool.false_eq_true, if_false]
      rw [hspin] at hlock
      exact h.goto hi true (hlock.acquire rfl) rfl rfl id rfl
  | load =>
    exact h.goto hi s.queue.spin (hlock.step (by rw [hi]; rfl)) rfl rfl
      (fun hbatch => ⟨hbatch, h.shape.last⟩) rfl
  | link last => exact h.link hi
  | swing => exact h.swing hi
  | unlock =>
    have hbatch : (s.thread i).batch = [] := by
      have hsaw := h.saw i
      rwa [hi] at hsaw
    refine h.local false (hlock.release (by rw [hi]; rfl) rfl) (by rw [hi]; rfl) (fun k => ?_)
      ⟨fun k hk => absurd hk List.not_mem_nil, (h.placed.tidy i).batch⟩ hbatch ?_
    · rw [SpinThread.Has, SpinThread.Has, hi]
      rfl
    · rw [hi]
      exact List.append_nil _

/-- A turn inside a pop. -/
theorem SpinInv.turn_pop (h : SpinInv own s) {pc : SpinPop ν} (hi : (s.thread i).pc = .pop pc)
    (c : Choice ν) : SpinInv own (s.turn i c) := by
  have hlock := h.lock
  unfold SpinState.turn
  rw [hi]
  cases pc with
  | check =>
    by_cases hlast : s.queue.last = .head
    · simp only [SpinPop.step, if_pos hlast, if_true]
      have hstore : (s.record i (.pop .check)).store s.queue = s.record i (.pop .check) := by
        rw [SpinState.record, if_pos hlast]
        rfl
      rw [hstore]
      exact h.sawEmpty hi hlast
    · simp only [SpinPop.step, if_neg hlast, SpinState.record]
      exact h.goto hi s.queue.spin (hlock.step (by rw [hi]; rfl)) rfl rfl id rfl
  | lock =>
    cases hspin : s.queue.spin with
    | true =>
      simp only [SpinPop.step, hspin, if_true]
      exact h.goto hi s.queue.spin (hlock.step (by rw [hi])) rfl rfl id rfl
    | false =>
      simp only [SpinPop.step, hspin, Bool.false_eq_true, if_false]
      rw [hspin] at hlock
      exact h.goto hi true (hlock.acquire rfl) rfl rfl id rfl
  | first =>
    have hclean : ∀ j, (s.thread j).pc.dirty = false := by
      intro j
      by_cases hj : j = i
      · rw [hj, hi]
        rfl
      · -- a thread between its two stores is inside
        have hout : (s.thread j).pc.inside = false := by
          refine Bool.eq_false_iff.mpr fun hin => hj (hlock.alone j i hin ?_)
          rw [hi]
          rfl
        generalize (s.thread j).pc = pc at hout
        cases pc with
        | push n pc => cases pc <;> first | rfl | cases hout
        | pop pc => cases pc <;> first | rfl | cases hout
        | _ => rfl
    exact h.goto hi s.queue.spin (hlock.step (by rw [hi]; rfl)) rfl rfl
      (fun hbatch => ⟨hbatch, h.shape.header hclean⟩) rfl
  | load ret =>
    exact h.goto hi s.queue.spin (hlock.step (by rw [hi]; rfl)) rfl rfl
      (fun hsaw => ⟨hsaw.1, hsaw.2, h.shape.last⟩) rfl
  | reset ret last => exact h.reset hi
  | clear ret last => exact h.clear hi
  | unlock ret last =>
    have hin : (s.thread i).pc.inside = true := by rw [hi]; rfl
    obtain ⟨hret, hlast, hchain⟩ : ret = (s.thread i).batch.head? ∧
        last = endOf .head (s.thread i).batch ∧ Chain s.queue.next (s.thread i).batch := by
      have hsaw := h.saw i
      rwa [hi] at hsaw
    cases hb : (s.thread i).batch with
    | nil =>
      rw [hb] at hret
      subst hret
      simp only [SpinPop.step, List.head?_nil, if_true]
      refine h.local false (hlock.release hin rfl) (by rw [hi]; rfl) (fun k => ?_)
        ⟨fun k hk => absurd hk List.not_mem_nil, (h.placed.tidy i).batch⟩ hb ?_
      · rw [SpinThread.Has, SpinThread.Has, hi]
        rfl
      · rw [hi, hb]
        exact List.append_nil _
    | cons r t =>
      rw [hb] at hret hlast hchain
      subst hret
      have hsome : ¬ (r :: t).head? = none := by simp
      simp only [SpinPop.step, if_neg hsome]
      refine h.goto hi false (hlock.release hin rfl) rfl rfl (fun _ => ?_) rfl
      rw [hb]
      exact ⟨r, t, rfl, rfl, hchain, by rw [hlast]; rfl⟩

/-- A turn of a walk. -/
theorem SpinInv.turn_walk (h : SpinInv own s) {next : Option ν} {last : Option (Ref ν)}
    {walked : List ν} (hi : (s.thread i).pc = .walk next last walked) (c : Choice ν) :
    SpinInv own (s.turn i c) := by
  obtain ⟨r, t, hb, rfl, hlinked, rfl⟩ : ∃ r t, (s.thread i).batch = walked ++ r :: t ∧
      next = some r ∧ Linked s.queue.next (.node r) t ∧ last = some (endOf (.node r) t) := by
    have hsaw := h.saw i
    rwa [hi] at hsaw
  have hnodup := (h.placed.tidy i).batch
  rw [hb] at hnodup
  unfold SpinState.turn
  rw [hi]
  cases t with
  | nil =>
    simp only [walkStep, endOf_nil, if_true]
    refine h.local s.queue.spin (h.lock.step (by rw [hi]; rfl)) (by rw [hi]; rfl) (fun k => ?_)
      ⟨fun k hk => absurd hk List.not_mem_nil, List.nodup_nil⟩ rfl ?_
    · rw [SpinThread.Has, SpinThread.Has, hi, hb]
      have hmem : k ∈ walked ++ [r] ↔ k ∈ walked ∨ k = r := by
        rw [List.mem_append, List.mem_singleton]
      simp only [SpinPc.carried, hmem, Finset.mem_union, List.mem_toFinset, List.not_mem_nil, or_false,
        false_or]
    · rw [hi, hb]
      have hne : walked ++ [r] ≠ [] := by simp
      change (s.thread i).past ++ [.took (walked ++ [r])] ++ [] =
        (s.thread i).past ++ [taken (walked ++ [r])]
      rw [taken, if_neg hne, List.append_nil]
  | cons k t =>
    have hne : ¬ some (Ref.node r) = some (endOf (.node r) (k :: t)) := fun he =>
      endOf_ne_self (List.nodup_append.mp hnodup).2.1 (List.cons_ne_nil k t)
        (Option.some.inj he).symm
    simp only [walkStep, if_neg hne]
    refine h.goto hi s.queue.spin (h.lock.step (by rw [hi]; rfl)) rfl rfl (fun _ => ?_) rfl
    refine ⟨k, t, ?_, hlinked.1, hlinked.2, rfl⟩
    rw [hb, List.append_assoc]
    rfl

/-- **A turn keeps the invariant.** -/
theorem SpinInv.turn (h : SpinInv own s) (i : ι) (c : Choice ν) : SpinInv own (s.turn i c) := by
  cases hi : (s.thread i).pc with
  | idle => exact h.turn_idle hi c
  | push n pc => exact h.turn_push hi c
  | pop pc => exact h.turn_pop hi c
  | walk next last walked => exact h.turn_walk hi c
  | crashed =>
    have hsaw := h.saw i
    rw [hi] at hsaw
    exact hsaw.elim

/-- So does a run, by induction on the schedule. -/
theorem SpinInv.run (h : SpinInv own s) (sched : List (ι × Choice ν)) :
    SpinInv own (spinRun s sched) := by
  induction sched generalizing s with
  | nil => exact h
  | cons t sched ih => exact ih (h.turn t.1 t.2)

theorem SpinInv.start (m : SpinlockQueue ν) (own : ι → Finset ν)
    (hown : ∀ i j n, n ∈ own i → n ∈ own j → j = i) : SpinInv own (spinStart m own) where
  shape := by
    refine ⟨rfl, trivial, List.nodup_nil, fun _ => ?_⟩
    change Function.update m.next .head none .head = none
    exact Function.update_self ..
  lock := ⟨nofun, nofun, nofun⟩
  placed := by
    have hhas : ∀ i n, ((spinStart m own).thread i).Has n ↔ n ∈ own i := fun i n => by
      simp [spinStart, SpinThread.Has, SpinPc.carried]
    refine ⟨fun n => ?_, fun i n _ => List.not_mem_nil, fun i j n hi hj => ?_, fun i => ?_⟩
    · simp only [hhas]
      simp [spinStart]
    · exact hown i j n ((hhas i n).mp hi) ((hhas j n).mp hj)
    · exact ⟨fun n hn => absurd hn List.not_mem_nil, List.nodup_nil⟩
  saw _ := rfl
  atomic := rfl
  past _ := rfl

end turn

/-! ### Every call can return -/

section returns

variable {own : ι → Finset ν} {s : SpinState ι ν} {i j : ι}

/-- A turn of a thread leaves the others where they are. -/
theorem turn_others (s : SpinState ι ν) (hj : j ≠ i) (c : Choice ν) :
    (s.turn i c).thread j = s.thread j := by
  have hset : ∀ (u : SpinState ι ν) t, (u.set i t).thread j = u.thread j := fun u t =>
    Function.update_of_ne hj ..
  have hrecord : ∀ pc, (s.record i pc).thread j = s.thread j := by
    intro pc
    unfold SpinState.record
    split
    · rfl
    · split <;> rfl
    · exact hset s _
    · rfl
  unfold SpinState.turn
  split
  · split
    · split
      · exact hset s _
      · rfl
    · exact hset s _
  · split
    · exact (hset _ _).trans (hrecord _)
    · exact hset _ _
  · split
    · exact (hset _ _).trans (hrecord _)
    · split
      · exact (hset _ _).trans (hrecord _)
      · exact hset _ _
  · split <;> exact hset s _
  · rfl

/-- A bound on the turns a thread still needs for its call, when no other moves. -/
def SpinPc.left (q b : List ν) : SpinPc ν → ℕ
  | .push _ .lock => 5
  | .push _ .load => 4
  | .push _ (.link _) => 3
  | .push _ .swing => 2
  | .push _ .unlock => 1
  | .pop .check => q.length + 8
  | .pop .lock => q.length + 7
  | .pop .first => q.length + 6
  | .pop (.load _) => q.length + 5
  | .pop (.reset _ _) => q.length + 4
  | .pop (.clear _ _) => b.length + 3
  | .pop (.unlock _ _) => b.length + 2
  | .walk _ _ walked => b.length + 1 - walked.length
  | _ => 0

/-- The thread does not have to wait. -/
def SpinState.Goes (s : SpinState ι ν) (i : ι) : Prop :=
  (s.thread i).pc.inside = true ∨ s.queue.spin = false

/-- The call of the thread is over. -/
structure Over (s s' : SpinState ι ν) (i : ι) : Prop where
  idle : (s'.thread i).pc = .idle
  free : s'.queue.spin = false
  past : ∃ e, (s'.thread i).past = (s.thread i).past ++ [e]

/-- The thread is on its way. -/
structure OnWay (s s' : SpinState ι ν) (i : ι) : Prop where
  busy : (s'.thread i).pc ≠ .idle
  goes : s'.Goes i
  past : (s'.thread i).past = (s.thread i).past
  less : (s'.thread i).pc.left s'.queued (s'.thread i).batch <
    (s.thread i).pc.left s.queued (s.thread i).batch

/-- To another point of the code. -/
theorem OnWay.goto {ι ν : Type} [DecidableEq ι] {s : SpinState ι ν} {i : ι}
    {u : SpinState ι ν} {pc pc' : SpinPc ν} (hi : (s.thread i).pc = pc)
    (hpast : (u.thread i).past = (s.thread i).past) (hbusy : pc' ≠ .idle)
    (hgoes : pc'.inside = true ∨ u.queue.spin = false)
    (hless : pc'.left u.queued (u.thread i).batch < pc.left s.queued (s.thread i).batch) :
    OnWay s (u.goto i pc') i := by
  have hthread : (u.goto i pc').thread i = { u.thread i with pc := pc' } := Function.update_self ..
  subst hi
  refine ⟨?_, ?_, ?_, ?_⟩
  · rwa [hthread]
  · rw [SpinState.Goes, hthread]
    exact hgoes
  · rwa [hthread]
  · rw [hthread]
    exact hless

/-- A thread that does not have to wait returns with this turn, or is nearer to it. -/
theorem SpinInv.goes_on (h : SpinInv own s) (hbusy : (s.thread i).pc ≠ .idle) (hgoes : s.Goes i)
    (c : Choice ν) : Over s (s.turn i c) i ∨ OnWay s (s.turn i c) i := by
  have hsaw := h.saw i
  unfold SpinState.Goes at hgoes
  unfold SpinState.turn
  cases hi : (s.thread i).pc with
  | idle => exact absurd hi hbusy
  | crashed =>
    rw [hi] at hsaw
    exact hsaw.elim
  | push n pc =>
    rw [hi] at hgoes
    cases pc with
    | lock =>
      have hspin : s.queue.spin = false := by
        rcases hgoes with hin | hspin
        · cases hin
        · exact hspin
      simp only [SpinPush.step, hspin, Bool.false_eq_true, if_false]
      exact .inr (OnWay.goto hi rfl (by simp) (.inl rfl) (Nat.lt_succ_self 4))
    | load => exact .inr (OnWay.goto hi rfl (by simp) (.inl rfl) (Nat.lt_succ_self 3))
    | link last => exact .inr (OnWay.goto hi rfl (by simp) (.inl rfl) (Nat.lt_succ_self 2))
    | swing => exact .inr (OnWay.goto hi rfl (by simp) (.inl rfl) (Nat.lt_succ_self 1))
    | unlock =>
      have hthread : ((s.store s.queue.unlock).done i (.push n)).thread i =
        { s.thread i with pc := .idle, past := (s.thread i).past ++ [.push n] } :=
          Function.update_self ..
      exact .inl ⟨by simp only [SpinPush.step, hthread], rfl, .push n,
        by simp only [SpinPush.step, hthread]⟩
  | pop pc =>
    rw [hi] at hgoes
    cases pc with
    | check =>
      have hspin : s.queue.spin = false := by
        rcases hgoes with hin | hspin
        · cases hin
        · exact hspin
      by_cases hlast : s.queue.last = .head
      · simp only [SpinPop.step, if_pos hlast, if_true]
        have hthread : (((s.record i (.pop .check)).store s.queue).done i .empty).thread i =
            { s.thread i with pc := .idle, past := (s.thread i).past ++ [.empty] } := by
          simp [SpinState.record, SpinState.store, SpinState.done, SpinState.set, hlast]
        exact .inl ⟨by rw [hthread], hspin, .empty, by rw [hthread]⟩
      · simp only [SpinPop.step, if_neg hlast, SpinState.record]
        exact .inr (OnWay.goto hi rfl (by simp) (.inr hspin) (Nat.lt_succ_self _))
    | lock =>
      have hspin : s.queue.spin = false := by
        rcases hgoes with hin | hspin
        · cases hin
        · exact hspin
      simp only [SpinPop.step, hspin, Bool.false_eq_true, if_false]
      exact .inr (OnWay.goto hi rfl (by simp) (.inl rfl) (Nat.lt_succ_self _))
    | first => exact .inr (OnWay.goto hi rfl (by simp) (.inl rfl) (Nat.lt_succ_self _))
    | load ret => exact .inr (OnWay.goto hi rfl (by simp) (.inl rfl) (Nat.lt_succ_self _))
    | reset ret last =>
      have hthread : (s.record i (.pop (.reset ret last))).thread i =
        { s.thread i with batch := s.queued } := Function.update_self ..
      refine .inr (OnWay.goto hi ?_ (by simp) (.inl rfl) ?_)
      · change ((s.record i (.pop (.reset ret last))).thread i).past = _
        rw [hthread]
      · change ((s.record i (.pop (.reset ret last))).thread i).batch.length + 3 < _
        rw [hthread]
        exact Nat.lt_succ_self _
    | clear ret last => exact .inr (OnWay.goto hi rfl (by simp) (.inl rfl) (Nat.lt_succ_self _))
    | unlock ret last =>
      simp only [SpinPop.step]
      by_cases hret : ret = none
      · rw [if_pos hret]
        have hthread : (((s.record i (.pop (.unlock ret last))).store s.queue.unlock).done i
            .empty).thread i =
              { s.thread i with pc := .idle, past := (s.thread i).past ++ [.empty] } :=
          Function.update_self ..
        exact .inl ⟨by rw [hthread], rfl, .empty, by rw [hthread]⟩
      · rw [if_neg hret]
        exact .inr (OnWay.goto hi rfl (by simp) (.inr rfl) (Nat.lt_succ_self _))
  | walk next last walked =>
    rw [hi] at hgoes hsaw
    have hspin : s.queue.spin = false := by
      rcases hgoes with hin | hspin
      · cases hin
      · exact hspin
    obtain ⟨r, t, hb, rfl, -, -⟩ := hsaw
    simp only [walkStep]
    by_cases hend : some (Ref.node r) = last
    · simp only [if_pos hend]
      exact .inl ⟨by simp [SpinState.set], hspin, .took (walked ++ [r]), by simp [SpinState.set]⟩
    · simp only [if_neg hend]
      refine .inr (OnWay.goto hi rfl (by simp) (.inr hspin) ?_)
      simp only [SpinPc.left, hb, List.length_append, List.length_cons, List.length_nil]
      omega

/-- Alone, such a thread returns. By induction on the turns it needs. -/
theorem SpinInv.finishes (h : SpinInv own s) (hbusy : (s.thread i).pc ≠ .idle) (hgoes : s.Goes i) :
    ∃ sched, Over s (spinRun s sched) i ∧
      ∀ j, j ≠ i → (spinRun s sched).thread j = s.thread j := by
  induction hleft : (s.thread i).pc.left s.queued (s.thread i).batch using Nat.strong_induction_on
    generalizing s with
  | _ n ih =>
    have hothers : ∀ j, j ≠ i → (s.turn i .pop).thread j = s.thread j := fun j hj =>
      turn_others s hj .pop
    rcases h.goes_on hbusy hgoes .pop with hover | hway
    · exact ⟨[(i, .pop)], hover, hothers⟩
    · obtain ⟨sched, hover, hrest⟩ :=
        ih _ (hleft ▸ hway.less) (h.turn i .pop) hway.busy hway.goes rfl
      refine ⟨(i, .pop) :: sched, ⟨hover.idle, hover.free, ?_⟩, fun j hj => ?_⟩
      · obtain ⟨e, he⟩ := hover.past
        exact ⟨e, he.trans (by rw [hway.past])⟩
      · exact (hrest j hj).trans (hothers j hj)

/-- **Every call can return**: first the thread inside leaves. -/
theorem SpinInv.returns (h : SpinInv own s) (hbusy : (s.thread i).pc ≠ .idle) :
    ∃ sched e, ((spinRun s sched).thread i).pc = .idle ∧
      ((spinRun s sched).thread i).past = (s.thread i).past ++ [e] := by
  by_cases hgoes : s.Goes i
  · obtain ⟨sched, hover, -⟩ := h.finishes hbusy hgoes
    obtain ⟨e, he⟩ := hover.past
    exact ⟨sched, e, hover.idle, he⟩
  · rw [SpinState.Goes, not_or, Bool.not_eq_false] at hgoes
    obtain ⟨j, hj⟩ := h.lock.some hgoes.2
    have hji : j ≠ i := by
      rintro rfl
      exact hgoes.1 hj
    have hbusy' : (s.thread j).pc ≠ .idle := by
      intro hidle
      rw [hidle] at hj
      cases hj
    obtain ⟨sched, hover, hothers⟩ := h.finishes hbusy' (.inl hj)
    have hi := hothers i hji.symm
    have hbusy₁ : ((spinRun s sched).thread i).pc ≠ .idle := by rwa [hi]
    obtain ⟨sched', hover', -⟩ := (h.run sched).finishes hbusy₁ (.inr hover.free)
    obtain ⟨e, he⟩ := hover'.past
    have happend : spinRun s (sched ++ sched') = spinRun (spinRun s sched) sched' :=
      List.foldl_append
    refine ⟨sched ++ sched', e, ?_, ?_⟩
    · rw [happend]
      exact hover'.idle
    · rw [happend, he, hi]

end returns

/-! ### Runs -/

/-- What comes out is what went in, in that order. By induction on the events, from the last. -/
theorem Atomic.fifo {ι ν : Type} [DecidableEq ν] {log : List (ι × Event ν)} {q : List ν}
    (h : Atomic log q) :
    pushed log = handedOut log ++ q := by
  induction log using List.reverseRecOn generalizing q with
  | nil =>
    obtain rfl := Option.some.inj h
    rfl
  | append_singleton log e ih =>
    rw [Atomic, List.map_append, List.foldlM_append] at h
    obtain ⟨r, hr, he⟩ := Option.bind_eq_some_iff.mp h
    have hfifo := ih hr
    have hlast : e.2.after r = some q := by
      simpa using he
    obtain ⟨i, e⟩ := e
    rw [pushed, handedOut, List.flatMap_append, List.flatMap_append]
    change pushed log ++ _ = handedOut log ++ _ ++ q
    rw [hfifo]
    cases e with
    | push n =>
      obtain rfl := Option.some.inj hlast
      simp
    | took b =>
      obtain ⟨⟨rfl, -⟩, rfl⟩ : (b = r ∧ r ≠ []) ∧ q = [] := by
        simpa [Event.after, eq_comm] using hlast
      simp
    | empty =>
      obtain ⟨rfl, rfl⟩ : r = [] ∧ q = [] := by
        simpa [Event.after, eq_comm] using hlast
      simp

/-- The invariant says what is wanted. -/
theorem SpinInv.safe {own : ι → Finset ν} {s : SpinState ι ν} (h : SpinInv own s) :
    SpinSafe own s where
  atomic := h.atomic
  fifo := h.atomic.fifo
  threads := h.past
  alone := h.lock.alone
  sound i hi := by
    have hsaw := h.saw i
    rw [hi] at hsaw
    exact hsaw
  all := h.placed.all
  once i n hn := ⟨h.placed.out i n hn, fun j hj => h.placed.once i j n hn hj⟩
  returns _ hbusy := h.returns hbusy

/-- **The spinlock queue is linearizable.** From `spinlock_queue_init` on, under every schedule and whatever
the threads choose to push of what they own, the calls are those of a queue that hands out everything in it. -/
theorem spinlock_linearizable (m : SpinlockQueue ν) (own : ι → Finset ν)
    (hown : ∀ i j n, n ∈ own i → n ∈ own j → j = i) (sched : List (ι × Choice ν)) :
    SpinSafe own (spinRun (spinStart m own) sched) :=
  ((SpinInv.start m own hown).run sched).safe

/-- While one thread is inside with its push, another looks at the queue and finds it empty. -/
theorem spinlock_linearizable_two :
    SpinSafe (fun i : Bool => {i}) (spinRun (spinStart ⟨fun _ => none, .head, true⟩ fun i => {i})
      [(true, .push true), (true, .pop), (true, .pop), (false, .pop), (false, .pop), (true, .pop),
        (true, .pop), (false, .pop), (false, .pop)]) :=
  spinlock_linearizable _ _ (by simp) _

end CcUtils.Queue
