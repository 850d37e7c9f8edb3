import CcUtils.Lib.Memory
import CcUtils.Lib.Linked

/-!
# The two queues of `benchmark/cas_queue.cc`

Both queues are a header and a `last` pointer over the nodes that callers bring. Any number of
threads push and one pops; a pop takes the whole list off, and its caller walks it from the node
returned to `*last`.

The lock-free queue is given by its accesses to shared memory. `CasPush` and `CasPop` are the
program points of `cas_queue_push` and `cas_queue_pop` with their local variables, and `CasPush.step`
and `CasPop.step` do one load, store or compare-and-swap; the `Concurrent` module interleaves these
steps and the `Sequential` module runs one call after another. The functions of the spinlock queue
are single steps already, since what they do is done between lock and unlock.
-/

namespace CcUtils.Queue

open CcUtils.Lib

variable {ν : Type}

/-- `cas_queue_head_t`, with the `next` fields of the header and of all nodes. -/
structure CasQueue (ν : Type) where
  next : Ref ν → Option ν
  last : Ref ν

/-- `spinlock_queue_head_t`; `spin` says whether the lock is held. -/
structure SpinlockQueue (ν : Type) where
  next : Ref ν → Option ν
  last : Ref ν
  spin : Bool

variable [DecidableEq ν]

/-- A store to a `next` field. -/
def CasQueue.setNext (m : CasQueue ν) (a : Ref ν) (v : Option ν) : CasQueue ν :=
  { m with next := Function.update m.next a v }

@[simp] theorem CasQueue.setNext_last (m : CasQueue ν) (a : Ref ν) (v : Option ν) :
    (m.setNext a v).last = m.last := rfl

@[simp] theorem CasQueue.setNext_next (m : CasQueue ν) (a : Ref ν) (v : Option ν) :
    (m.setNext a v).next = Function.update m.next a v := rfl

/-- `cas_queue_init`. -/
def casQueueInit (m : CasQueue ν) : CasQueue ν := { m.setNext .head none with last := .head }

/-! ### `cas_queue_push` -/

/-- Where a call of `cas_queue_push` is. -/
inductive CasPush (ν : Type) where
  /-- About to load `queue->last`. -/
  | load
  /-- About to compare `old_node->next` with NULL and swap. -/
  | link (oldNode : Ref ν)
  /-- About to compare `queue->last` with `old_node` and swap. -/
  | swing (oldNode : Ref ν)
  deriving DecidableEq

/-- One access of `cas_queue_push(queue, node)`; `none` when it has returned. Both loops go back to
the load. -/
def CasPush.step (m : CasQueue ν) (node : ν) : CasPush ν → CasQueue ν × Option (CasPush ν)
  | .load => (m, some (.link m.last))
  | .link oldNode =>
    if m.next oldNode = none then (m.setNext oldNode (some node), some (.swing oldNode))
    else (m, some .load)
  | .swing oldNode =>
    if m.last = oldNode then ({ m with last := .node node }, none) else (m, some .load)

/-! ### `cas_queue_pop` -/

/-- Where a call of `cas_queue_pop` is. -/
inductive CasPop (ν : Type) where
  /-- About to compare `queue->last` with `&queue->head`. -/
  | check
  /-- About to load `queue->head.next`. -/
  | first
  /-- About to load `queue->last`. -/
  | load (ret : Option ν)
  /-- About to compare `queue->last` with `old_node` and swap. -/
  | swap (ret : Option ν) (oldNode : Ref ν)
  /-- About to store NULL to `queue->head.next`. -/
  | clear (ret : Option ν) (oldNode : Ref ν)
  /-- About to load `record_old_node->next`. -/
  | readNext (ret : Option ν) (oldNode : Ref ν)
  /-- About to store it to `queue->head.next`. -/
  | relink (ret : Option ν) (oldNode : Ref ν) (v : Option ν)
  deriving DecidableEq

/-- What a call of a pop gives its caller: the node returned, and what it stored to `*last`; a call
that finds the queue empty stores nothing. -/
structure Popped (ν : Type) where
  ret : Option ν
  last : Option (Ref ν)
  deriving DecidableEq

/-- One access of `cas_queue_pop`. -/
def CasPop.step (m : CasQueue ν) : CasPop ν → CasQueue ν × (CasPop ν ⊕ Popped ν)
  | .check => (m, if m.last = .head then .inr ⟨none, none⟩ else .inl .first)
  | .first => (m, .inl (.load (m.next .head)))
  | .load ret => (m, .inl (.swap ret m.last))
  | .swap ret oldNode =>
    if m.last = oldNode then ({ m with last := .head }, .inl (.clear ret oldNode))
    else (m, .inl (.readNext ret oldNode))
  | .clear ret oldNode => (m.setNext .head none, .inr ⟨ret, some oldNode⟩)
  | .readNext ret oldNode => (m, .inl (.relink ret oldNode (m.next oldNode)))
  | .relink ret oldNode v => (m.setNext .head v, .inr ⟨ret, some oldNode⟩)

/-! ### The walk over a batch -/

/-- One turn of the loop in `test_cas_queue_consume`: take `node`, read its `next`, and go on unless
it is `last`. -/
def walkStep (fields : Ref ν → Option ν) (next : Option ν) (last : Option (Ref ν)) :
    Exec (ν × Option (Option ν)) :=
  match next with
  | none => .error .nullDeref
  | some node => .ok (node, if some (.node node) = last then none else some (fields (.node node)))

/-! ### The spinlock queue -/

/-- `pthread_spin_lock`; one thread alone waits forever for a lock it holds. -/
def SpinlockQueue.lock (m : SpinlockQueue ν) : Exec (SpinlockQueue ν) :=
  if m.spin then .error .outOfFuel else .ok { m with spin := true }

/-- `pthread_spin_unlock`. -/
def SpinlockQueue.unlock (m : SpinlockQueue ν) : SpinlockQueue ν := { m with spin := false }

/-- `spinlock_queue_init`. -/
def spinlockQueueInit (m : SpinlockQueue ν) : SpinlockQueue ν :=
  { next := Function.update m.next .head none, last := .head, spin := false }

/-- `spinlock_queue_push`. -/
def spinlockQueuePush (m : SpinlockQueue ν) (node : ν) : Exec (SpinlockQueue ν) := do
  let m ← m.lock
  let m := { m with next := Function.update m.next m.last (some node) }
  return { m with last := .node node }.unlock

/-- `spinlock_queue_pop`. -/
def spinlockQueuePop (m : SpinlockQueue ν) : Exec (SpinlockQueue ν × Popped ν) :=
  if m.last = .head then .ok (m, ⟨none, none⟩)
  else do
    let m ← m.lock
    let ret := m.next .head
    let last := m.last
    let m := { m with last := .head }
    let m := { m with next := Function.update m.next .head none }
    return (m.unlock, ⟨ret, some last⟩)

end CcUtils.Queue
