import CcUtils.Queue.Model

/-!
# The two queues, one call after another

Both queues are run on the same calls of one thread and compared with what they are for: a list,
to which a push adds and which a pop empties. The lock-free push waits for `last->next` to be NULL,
and nothing resets the `next` of a node that is pushed again, as the benchmark does in each of its
iterations. So a node can be linked behind another only once in its life.

## What is proved

* `spinlockQueue_run` — the spinlock queue is the list.
* `casQueue_run` — so is the lock-free queue, while no node is linked behind twice.
* `casQueue_run_ok` — when one is, a push does not return.
* `agree_iff` — the two queues agree exactly when no node is linked behind twice.
-/

namespace CcUtils.Queue

open CcUtils.Lib

variable {ν : Type} [DecidableEq ν]

/-! ### Whole calls -/

/-- The rest of a call of `cas_queue_push`, if it returns within the fuel. -/
def CasPush.run (node : ν) : ℕ → CasQueue ν → CasPush ν → Exec (CasQueue ν)
  | 0, _, _ => .error .outOfFuel
  | fuel + 1, m, pc =>
    match pc.step m node with
    | (m, some pc) => CasPush.run node fuel m pc
    | (m, none) => .ok m

/-- `cas_queue_push`. -/
def casQueuePush (fuel : ℕ) (m : CasQueue ν) (node : ν) : Exec (CasQueue ν) :=
  CasPush.run node fuel m .load

/-- The rest of a call of `cas_queue_pop`. -/
def CasPop.run : ℕ → CasQueue ν → CasPop ν → Exec (CasQueue ν × Popped ν)
  | 0, _, _ => .error .outOfFuel
  | fuel + 1, m, pc =>
    match pc.step m with
    | (m, .inl pc) => CasPop.run fuel m pc
    | (m, .inr r) => .ok (m, r)

/-- `cas_queue_pop`. -/
def casQueuePop (fuel : ℕ) (m : CasQueue ν) : Exec (CasQueue ν × Popped ν) :=
  CasPop.run fuel m .check

/-- The loop of the consumers over a batch. -/
def walk (fields : Ref ν → Option ν) : ℕ → Option ν → Option (Ref ν) → Exec (List ν)
  | 0, _, _ => .error .outOfFuel
  | fuel + 1, next, last =>
    match walkStep fields next last with
    | .error e => .error e
    | .ok (node, none) => .ok [node]
    | .ok (node, some next) => do
      let nodes ← walk fields fuel next last
      return node :: nodes

/-- The batch a pop gave; none when it returned NULL. -/
def Popped.batch (r : Popped ν) (fields : Ref ν → Option ν) (fuel : ℕ) : Exec (List ν) :=
  if r.ret = none then .ok [] else walk fields fuel r.ret r.last

/-! ### Sequences of calls -/

/-- A call of a queue's function. -/
inductive Op (ν : Type) where
  | init
  | push (n : ν)
  | pop

/-- The functions of a queue. -/
structure Impl (σ ν : Type) where
  init : σ → σ
  push : ℕ → σ → ν → Exec σ
  pop : ℕ → σ → Exec (σ × Popped ν)
  fields : σ → Ref ν → Option ν

/-- The lock-free queue. -/
def casQueue : Impl (CasQueue ν) ν := ⟨casQueueInit, casQueuePush, casQueuePop, CasQueue.next⟩

/-- The spinlock queue. -/
def spinlockQueue : Impl (SpinlockQueue ν) ν :=
  ⟨spinlockQueueInit, fun _ => spinlockQueuePush, fun _ => spinlockQueuePop, SpinlockQueue.next⟩

/-- Run the calls and walk each batch; the result is the batches. -/
def Impl.run {σ : Type} (I : Impl σ ν) (fuel : ℕ) : σ → List (Op ν) → Exec (List (List ν))
  | _, [] => .ok []
  | m, .init :: ops => I.run fuel (I.init m) ops
  | m, .push n :: ops => do
    let m ← I.push fuel m n
    I.run fuel m ops
  | m, .pop :: ops => do
    let (m, r) ← I.pop fuel m
    let batch ← r.batch (I.fields m) fuel
    let batches ← I.run fuel m ops
    return batch :: batches

/-- What a queue is for: the batches that a list gives. -/
def batchesOf : List ν → List (Op ν) → List (List ν)
  | _, [] => []
  | _, .init :: ops => batchesOf [] ops
  | q, .push n :: ops => batchesOf (q ++ [n]) ops
  | q, .pop :: ops => q :: batchesOf [] ops

/-- No node is pushed while it is queued. -/
def Allowed : List ν → List (Op ν) → Prop
  | _, [] => True
  | _, .init :: ops => Allowed [] ops
  | q, .push n :: ops => n ∉ q ∧ Allowed (q ++ [n]) ops
  | _, .pop :: ops => Allowed [] ops

/-- The nodes after which another push comes directly, with no pop and no `init` between; `prev` is
the node pushed by the call before, if that was a push. -/
def followed : Option ν → List (Op ν) → List ν
  | _, [] => []
  | _, .init :: ops => followed none ops
  | prev, .push n :: ops => prev.toList ++ followed (some n) ops
  | _, .pop :: ops => followed none ops

/-- Memory from `calloc`, before `init`. -/
def zeroed : CasQueue ν := ⟨fun _ => none, .head⟩

/-- The same for the spinlock queue. -/
def zeroedSpin : SpinlockQueue ν := ⟨fun _ => none, .head, false⟩

/-- From `init` on, the lock-free queue gets through the calls, and both queues give the same
batches. -/
def Agree (ops : List (Op ν)) : Prop :=
  ∃ fuel batches, casQueue.run fuel zeroed (.init :: ops) = .ok batches ∧
    spinlockQueue.run fuel zeroedSpin (.init :: ops) = .ok batches

/-! ### The walk -/

/-- A batch that is linked from its first node to its last is walked whole. -/
theorem walk_linked {fields : Ref ν → Option ν} {fuel : ℕ} {r : ν} {q : List ν}
    (h : Linked fields (.node r) q) (hd : (r :: q).Nodup) (hf : q.length < fuel) :
    walk fields fuel (some r) (some (endOf (.node r) q)) = .ok (r :: q) := by
  induction q generalizing r fuel with
  | nil =>
    cases fuel with
    | zero => exact absurd hf (Nat.not_lt_zero _)
    | succ fuel => simp [walk, walkStep]
  | cons n q ih =>
    cases fuel with
    | zero => exact absurd hf (Nat.not_lt_zero _)
    | succ fuel =>
      have hne : some (Ref.node r) ≠ some (endOf (.node r) (n :: q)) :=
        fun he => endOf_ne_self hd (List.cons_ne_nil n q) (Option.some.inj he).symm
      have htail := ih h.2 (List.nodup_cons.mp hd).2 (Nat.lt_of_succ_lt_succ hf)
      simp only [walk, walkStep, if_neg hne, h.1]
      rw [endOf_cons, htail]
      rfl

/-- The batch of a pop that takes off the list `q`. -/
theorem batch_linked {fields : Ref ν → Option ν} {fuel : ℕ} {q : List ν}
    (h : Linked fields .head q) (hq : q ≠ []) (hd : q.Nodup) (hf : q.length ≤ fuel) :
    Popped.batch ⟨q.head?, some (endOf .head q)⟩ (Function.update fields .head none) fuel =
      .ok q := by
  cases q with
  | nil => exact absurd rfl hq
  | cons r q => exact walk_linked (h.2.write_head none) hd hf

omit [DecidableEq ν] in
theorem nodup_push {q : List ν} {n : ν} (hd : q.Nodup) (hn : n ∉ q) : (q ++ [n]).Nodup := by
  refine List.nodup_append.mpr ⟨hd, List.nodup_cons.mpr ⟨List.not_mem_nil, List.nodup_nil⟩, ?_⟩
  intro a ha b hb
  obtain rfl := List.mem_singleton.mp hb
  rintro rfl
  exact hn ha

/-! ### The spinlock queue -/

/-- The spinlock queue holds the list. -/
structure SpinHolds (m : SpinlockQueue ν) (q : List ν) : Prop where
  linked : Linked m.next .head q
  last : m.last = endOf .head q
  free : m.spin = false

theorem spinlockQueueInit_spec (m : SpinlockQueue ν) : SpinHolds (spinlockQueueInit m) [] :=
  ⟨trivial, rfl, rfl⟩

theorem spinlockQueuePush_spec {m : SpinlockQueue ν} {q : List ν} (h : SpinHolds m q)
    (hd : q.Nodup) (n : ν) : ∃ m', spinlockQueuePush m n = .ok m' ∧ SpinHolds m' (q ++ [n]) := by
  refine ⟨{ next := Function.update m.next m.last (some n), last := .node n, spin := false }, ?_,
    ?_, (endOf_concat .head q n).symm, rfl⟩
  · simp [spinlockQueuePush, SpinlockQueue.lock, SpinlockQueue.unlock, h.free]
  · rw [h.last]
    exact h.linked.push_back hd n

theorem spinlockQueuePop_spec {m : SpinlockQueue ν} {q : List ν} (h : SpinHolds m q)
    (hd : q.Nodup) {fuel : ℕ} (hf : q.length ≤ fuel) :
    ∃ m' r, spinlockQueuePop m = .ok (m', r) ∧ SpinHolds m' [] ∧ r.batch m'.next fuel = .ok q := by
  by_cases hq : q = []
  · subst hq
    have hlast : m.last = .head := h.last
    refine ⟨m, ⟨none, none⟩, ?_, ⟨trivial, hlast, h.free⟩, rfl⟩
    rw [spinlockQueuePop, if_pos hlast]
  · have hlast : m.last ≠ .head := h.last ▸ endOf_ne_head .head hq
    refine ⟨{ next := Function.update m.next .head none, last := .head, spin := false },
      ⟨q.head?, some (endOf .head q)⟩, ?_, ⟨trivial, rfl, rfl⟩, batch_linked h.linked hq hd hf⟩
    rw [spinlockQueuePop, if_neg hlast]
    simp [SpinlockQueue.lock, SpinlockQueue.unlock, h.free, h.last, h.linked.next_eq hq]

/-- The spinlock queue is the list. -/
theorem spinlockQueue_run {m : SpinlockQueue ν} {q : List ν} {ops : List (Op ν)} {fuel : ℕ}
    (h : SpinHolds m q) (hd : q.Nodup) (ha : Allowed q ops) (hf : q.length + ops.length ≤ fuel) :
    spinlockQueue.run fuel m ops = .ok (batchesOf q ops) := by
  induction ops generalizing m q with
  | nil => rfl
  | cons op ops ih =>
    rw [List.length_cons] at hf
    cases op with
    | init =>
      exact ih (spinlockQueueInit_spec m) List.nodup_nil ha (by rw [List.length_nil]; omega)
    | push n =>
      obtain ⟨hn, ha⟩ := ha
      obtain ⟨m', he, h'⟩ := spinlockQueuePush_spec h hd n
      simp only [Impl.run, spinlockQueue, he, ok_bind]
      exact ih h' (nodup_push hd hn) ha (by rw [List.length_append, List.length_singleton]; omega)
    | pop =>
      have hq : q.length ≤ fuel := by omega
      obtain ⟨m', r, he, h', hb⟩ := spinlockQueuePop_spec h hd hq
      have hrest := ih h' List.nodup_nil ha (by rw [List.length_nil]; omega)
      simp only [Impl.run, spinlockQueue, he, ok_bind, hb]
      simp only [spinlockQueue] at hrest
      rw [hrest]
      rfl

/-! ### The lock-free queue -/

/-- The lock-free queue holds the list; `used` are the nodes that were linked behind. -/
structure CasHolds (m : CasQueue ν) (q used : List ν) : Prop where
  linked : Linked m.next .head q
  last : m.last = endOf .head q
  head : m.next .head = q.head?
  used : ∀ n, m.next (.node n) ≠ none ↔ n ∈ used

theorem casQueueInit_spec {m : CasQueue ν} {used : List ν}
    (h : ∀ n, m.next (.node n) ≠ none ↔ n ∈ used) : CasHolds (casQueueInit m) [] used := by
  refine ⟨trivial, rfl, ?_, ?_⟩
  · change Function.update m.next .head none .head = none
    rw [Function.update_self]
  · intro n
    change (Function.update m.next .head none) (.node n) ≠ none ↔ _
    rw [Function.update_of_ne (node_ne_head n)]
    exact h n

/-- A push returns when nothing was linked behind the last node before. -/
theorem casQueuePush_spec {m : CasQueue ν} {q used : List ν} (h : CasHolds m q used)
    (hd : q.Nodup) (hfree : ∀ x ∈ q.getLast?, x ∉ used) (n : ν) {fuel : ℕ} (hf : 3 ≤ fuel) :
    ∃ m', casQueuePush fuel m n = .ok m' ∧
      CasHolds m' (q ++ [n]) (used ++ q.getLast?.toList) := by
  obtain ⟨fuel, rfl⟩ := Nat.exists_eq_add_of_le' hf
  have hnull : m.next m.last = none := by
    rw [h.last]
    cases hx : endOf .head q with
    | head =>
      obtain rfl := endOf_eq_head.mp hx
      exact h.head
    | node x =>
      by_contra hne
      exact hfree x (endOf_eq_node.mp hx) ((h.used x).mp hne)
  refine ⟨⟨Function.update m.next m.last (some n), .node n⟩, ?_, ?_⟩
  · simp [casQueuePush, CasPush.run, CasPush.step, hnull, CasQueue.setNext]
  · rw [h.last]
    refine ⟨h.linked.push_back hd n, (endOf_concat .head q n).symm, ?_, ?_⟩
    · cases q with
      | nil => exact Function.update_self Ref.head (some n) m.next
      | cons r q =>
        change Function.update m.next (endOf .head (r :: q)) (some n) .head = some r
        rw [Function.update_of_ne (endOf_ne_head .head (List.cons_ne_nil r q)).symm, h.head]
        rfl
    · intro x
      change Function.update m.next (endOf .head q) (some n) (.node x) ≠ none ↔ _
      rw [List.mem_append, Option.mem_toList]
      by_cases hx : endOf .head q = .node x
      · rw [hx, Function.update_self]
        exact ⟨fun _ => .inr (endOf_eq_node.mp hx), fun _ => Option.some_ne_none n⟩
      · rw [Function.update_of_ne (Ne.symm hx), h.used]
        have hlast : q.getLast? ≠ some x := fun he => hx (endOf_eq_node.mpr he)
        exact ⟨.inl, fun ho => ho.resolve_right hlast⟩

/-- Behind a node that was linked behind before, a push never returns. -/
theorem casQueuePush_stuck {m : CasQueue ν} {q used : List ν} (h : CasHolds m q used) {x : ν}
    (hx : q.getLast? = some x) (hu : x ∈ used) (n : ν) (fuel : ℕ) :
    casQueuePush fuel m n = .error .outOfFuel := by
  have hnext : m.next m.last ≠ none := by
    rw [h.last, endOf_eq_node.mpr hx]
    exact (h.used x).mpr hu
  -- load and a failed swap, over and over
  have hloop : ∀ k, CasPush.run n k m .load = .error .outOfFuel ∧
      CasPush.run n k m (.link m.last) = .error .outOfFuel := by
    intro k
    induction k with
    | zero => exact ⟨rfl, rfl⟩
    | succ k ih =>
      refine ⟨ih.2, ?_⟩
      simp only [CasPush.run, CasPush.step, if_neg hnext]
      exact ih.1
  exact (hloop fuel).1

theorem casQueuePop_spec {m : CasQueue ν} {q used : List ν} (h : CasHolds m q used)
    (hd : q.Nodup) {fuel : ℕ} (hf : q.length + 5 ≤ fuel) :
    ∃ m' r, casQueuePop fuel m = .ok (m', r) ∧ CasHolds m' [] used ∧
      r.batch m'.next fuel = .ok q := by
  obtain ⟨k, rfl⟩ := Nat.exists_eq_add_of_le' (Nat.le_of_add_left_le hf)
  by_cases hq : q = []
  · subst hq
    have hlast : m.last = .head := h.last
    refine ⟨m, ⟨none, none⟩, ?_, h, rfl⟩
    simp [casQueuePop, CasPop.run, CasPop.step, hlast]
  · have hlast : m.last ≠ .head := h.last ▸ endOf_ne_head .head hq
    refine ⟨⟨Function.update m.next .head none, .head⟩, ⟨q.head?, some (endOf .head q)⟩, ?_, ?_,
      batch_linked h.linked hq hd (Nat.le_of_add_right_le hf)⟩
    · simp [casQueuePop, CasPop.run, CasPop.step, hlast, h.head, ← h.last, CasQueue.setNext]
    · refine ⟨trivial, rfl, Function.update_self Ref.head none m.next, ?_⟩
      intro n
      change Function.update m.next .head none (.node n) ≠ none ↔ _
      rw [Function.update_of_ne (node_ne_head n)]
      exact h.used n

/-- The lock-free queue is the list, while no node is linked behind twice. -/
theorem casQueue_run {m : CasQueue ν} {q used : List ν} {ops : List (Op ν)} {fuel : ℕ}
    (h : CasHolds m q used) (hd : q.Nodup) (ha : Allowed q ops)
    (hu : (used ++ followed q.getLast? ops).Nodup) (hf : q.length + ops.length + 5 ≤ fuel) :
    casQueue.run fuel m ops = .ok (batchesOf q ops) := by
  induction ops generalizing m q used with
  | nil => rfl
  | cons op ops ih =>
    rw [List.length_cons] at hf
    cases op with
    | init =>
      exact ih (casQueueInit_spec h.used) List.nodup_nil ha hu (by rw [List.length_nil]; omega)
    | push n =>
      obtain ⟨hn, ha⟩ := ha
      rw [followed, ← List.append_assoc] at hu
      have hfree : ∀ x ∈ q.getLast?, x ∉ used := by
        intro x hx hxu
        have hdis := (List.nodup_append.mp (List.nodup_append.mp hu).1).2.2
        exact hdis x hxu x (Option.mem_toList.mpr hx) rfl
      have h3 : 3 ≤ fuel := by omega
      obtain ⟨m', he, h'⟩ := casQueuePush_spec h hd hfree n h3
      simp only [Impl.run, casQueue, he, ok_bind]
      refine ih h' (nodup_push hd hn) ha ?_ ?_
      · rwa [List.getLast?_concat]
      · rw [List.length_append, List.length_singleton]
        omega
    | pop =>
      have hq : q.length + 5 ≤ fuel := by omega
      obtain ⟨m', r, he, h', hb⟩ := casQueuePop_spec h hd hq
      have hrest := ih h' List.nodup_nil ha hu (by rw [List.length_nil]; omega)
      simp only [Impl.run, casQueue, he, ok_bind, hb]
      simp only [casQueue] at hrest
      rw [hrest]
      rfl

/-- More fuel does not change what a push does. -/
theorem CasPush.run_mono {node : ν} {fuel fuel' : ℕ} (hf : fuel ≤ fuel') {m m' : CasQueue ν}
    {pc : CasPush ν} (h : CasPush.run node fuel m pc = .ok m') :
    CasPush.run node fuel' m pc = .ok m' := by
  induction fuel generalizing fuel' m pc with
  | zero => cases h
  | succ fuel ih =>
    cases fuel' with
    | zero => exact absurd hf (Nat.not_succ_le_zero fuel)
    | succ fuel' =>
      simp only [CasPush.run] at h ⊢
      split at h
      · exact ih (Nat.le_of_succ_le_succ hf) h
      · exact h

/-- Nor what a pop does. -/
theorem CasPop.run_mono {fuel fuel' : ℕ} (hf : fuel ≤ fuel') {m : CasQueue ν} {pc : CasPop ν}
    {r : CasQueue ν × Popped ν} (h : CasPop.run fuel m pc = .ok r) :
    CasPop.run fuel' m pc = .ok r := by
  induction fuel generalizing fuel' m pc with
  | zero => cases h
  | succ fuel ih =>
    cases fuel' with
    | zero => exact absurd hf (Nat.not_succ_le_zero fuel)
    | succ fuel' =>
      simp only [CasPop.run] at h ⊢
      split at h
      · exact ih (Nat.le_of_succ_le_succ hf) h
      · exact h

/-- A push that returned has found nothing behind the last node. -/
theorem casQueuePush_ok {m m' : CasQueue ν} {q used : List ν} (h : CasHolds m q used)
    (hd : q.Nodup) {n : ν} {fuel : ℕ} (hok : casQueuePush fuel m n = .ok m') :
    (∀ x ∈ q.getLast?, x ∉ used) ∧ CasHolds m' (q ++ [n]) (used ++ q.getLast?.toList) := by
  have hfree : ∀ x ∈ q.getLast?, x ∉ used := by
    intro x hx hu
    rw [casQueuePush_stuck h hx hu n fuel] at hok
    cases hok
  obtain ⟨m'', he, h'⟩ := casQueuePush_spec h hd hfree n (Nat.le_max_right fuel 3)
  have he' := CasPush.run_mono (Nat.le_max_left fuel 3) hok
  rw [← casQueuePush, he] at he'
  cases he'
  exact ⟨hfree, h'⟩

theorem casQueuePop_ok {m m' : CasQueue ν} {q used : List ν} (h : CasHolds m q used)
    (hd : q.Nodup) {r : Popped ν} {fuel : ℕ} (hok : casQueuePop fuel m = .ok (m', r)) :
    CasHolds m' [] used := by
  obtain ⟨m'', r'', he, h', -⟩ := casQueuePop_spec h hd (Nat.le_max_right fuel (q.length + 5))
  have he' := CasPop.run_mono (Nat.le_max_left fuel (q.length + 5)) hok
  rw [← casQueuePop, he] at he'
  cases he'
  exact h'

/-- When the lock-free queue gets through the calls, no node was linked behind twice. -/
theorem casQueue_run_ok {m : CasQueue ν} {q used : List ν} {ops : List (Op ν)} {fuel : ℕ}
    {batches : List (List ν)} (h : CasHolds m q used) (hd : q.Nodup) (ha : Allowed q ops)
    (hu : used.Nodup) (hok : casQueue.run fuel m ops = .ok batches) :
    (used ++ followed q.getLast? ops).Nodup := by
  induction ops generalizing m q used batches with
  | nil => rwa [followed, List.append_nil]
  | cons op ops ih =>
    cases op with
    | init => exact ih (casQueueInit_spec h.used) List.nodup_nil ha hu hok
    | push n =>
      obtain ⟨hn, ha⟩ := ha
      obtain ⟨m', hpush, hok⟩ := bind_eq_ok.mp hok
      obtain ⟨hfree, h'⟩ := casQueuePush_ok h hd hpush
      have hu' : (used ++ q.getLast?.toList).Nodup := by
        cases hx : q.getLast? with
        | none => rwa [Option.toList_none, List.append_nil]
        | some x => exact nodup_push hu (hfree x hx)
      have hrest := ih h' (nodup_push hd hn) ha hu' hok
      rw [List.getLast?_concat] at hrest
      rwa [followed, ← List.append_assoc]
    | pop =>
      obtain ⟨⟨m', r⟩, hpop, hok⟩ := bind_eq_ok.mp hok
      obtain ⟨batch, -, hok⟩ := bind_eq_ok.mp hok
      obtain ⟨batches', hok, -⟩ := bind_eq_ok.mp hok
      exact ih (casQueuePop_ok h hd hpop) List.nodup_nil ha hu hok

/-! ### Agreement -/

theorem casHolds_init : CasHolds (casQueueInit (zeroed : CasQueue ν)) [] [] := by
  refine casQueueInit_spec ?_
  intro n
  simp [zeroed]

/-- The two queues agree exactly when no node is linked behind twice. -/
theorem agree_iff (ops : List (Op ν)) (ha : Allowed [] ops) :
    Agree ops ↔ (followed none ops).Nodup := by
  constructor
  · rintro ⟨fuel, batches, hcas, -⟩
    exact casQueue_run_ok casHolds_init List.nodup_nil ha List.nodup_nil hcas
  · intro hu
    have hf : ([] : List ν).length + ops.length + 5 ≤ ops.length + 5 := by
      rw [List.length_nil, Nat.zero_add]
    have hcas := casQueue_run casHolds_init List.nodup_nil ha hu hf
    have hspin := spinlockQueue_run (spinlockQueueInit_spec (zeroedSpin : SpinlockQueue ν))
      List.nodup_nil ha (Nat.le_of_add_right_le hf)
    exact ⟨ops.length + 5, batchesOf [] ops, hcas, hspin⟩

/-- Two nodes pushed twice, the second time in the other order: each is linked behind once. -/
theorem agree_iff_reversed : Agree [.push 1, .push 2, .pop, .push 2, .push 1, .pop] :=
  (agree_iff [.push 1, .push 2, .pop, .push 2, .push 1, .pop] (by simp [Allowed])).mpr (by decide)

/-- The benchmark's second iteration, with two nodes: the push of the second node does not return. -/
theorem benchmark_stuck :
    Allowed [] [.push 1, .push 2, .init, .push 1, .push 2] ∧
      ¬ Agree [.push 1, .push 2, .init, .push 1, .push 2] := by
  have ha : Allowed [] [.push 1, .push 2, .init, .push 1, .push 2] := by simp [Allowed]
  refine ⟨ha, ?_⟩
  rintro ⟨fuel, batches, hcas, -⟩
  have hu := casQueue_run_ok casHolds_init List.nodup_nil ha List.nodup_nil hcas
  revert hu
  decide

end CcUtils.Queue
