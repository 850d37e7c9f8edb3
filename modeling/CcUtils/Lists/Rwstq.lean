import CcUtils.Lib.Linear
import CcUtils.Lists.Stq

/-!
# The locked tail queue of `list.h`

`rwstq_list`: a tail queue with a `pthread_rwlock_t`. Each function takes the lock, calls the function of
the tail queue, and lets the lock go; the lock functions are there too for a caller's own sections, of
which the model has a walk over the list and a removal by `rwstq_write_trylock`. The functions are cut at
their loads and stores, so that the threads may be anywhere in them.

## What is proved

* `run_stqAddHeadSteps`, and one lemma for each other function — cut at its accesses and run on its own,
  it is the function of the tail queue.
* `rwstq_implements` — the sections do what the calls are for.
* `rwstq_linearizable` — under every schedule the calls return what one order of whole calls returns.
* `Owners.keepsRules` — threads that add only nodes they own keep to the rules.
-/

namespace CcUtils.Lists

open CcUtils.Lib

variable {ι κ ν : Type} [DecidableEq ι] [DecidableEq κ] [DecidableEq ν]

/-! ### The functions of the tail queue, cut at their accesses -/

/-- `stq_is_empty`. -/
def stqIsEmptySteps (list : κ) : Prog (Stq κ ν) Bool := .read fun m => stqIsEmpty m list

/-- `stq_add_head`. -/
def stqAddHeadSteps (list : κ) (node : ν) : Prog (Stq κ ν) Unit := do
  let first ← .read fun m => m.next (.head list)
  .write fun m => m.setNext (.node node) first
  .write fun m => m.setNext (.head list) (some node)
  let last ← .read fun m => m.last list
  match last with
  | none => .write fun m => m.setLast list (some node)
  | some _ => pure ()

/-- `stq_del_head`. -/
def stqDelHeadSteps (list : κ) : Prog (Stq κ ν) (Option ν) := do
  let node ← .read fun m => m.next (.head list)
  match node with
  | some n => do
    let next ← .read fun m => m.next (.node n)
    .write fun m => m.setNext (.head list) next
  | none => pure ()
  let first ← .read fun m => m.next (.head list)
  match first with
  | none => .write fun m => m.setLast list none
  | some _ => pure ()
  return node

/-- `stq_add_tail`. -/
def stqAddTailSteps (list : κ) (node : ν) : Prog (Stq κ ν) Unit := do
  .write fun m => m.setNext (.node node) none
  let last ← .read fun m => m.last list
  match last with
  | some _ => do
    let last ← .read fun m => m.last list
    let last ← .deref last
    .write fun m => m.setNext (.node last) (some node)
    .write fun m => m.setLast list (some node)
  | none => do
    .write fun m => m.setLast list (some node)
    .write fun m => m.setNext (.head list) (some node)

/-- `stq_del_after`. -/
def stqDelAfterSteps (list : κ) (prev : Option ν) : Prog (Stq κ ν) (Option ν) :=
  match prev with
  | none => stqDelHeadSteps list
  | some prev => do
    let node ← .read fun m => m.next (.node prev)
    match node with
    | some n => do
      let next ← .read fun m => m.next (.node n)
      .write fun m => m.setNext (.node prev) next
    | none => pure ()
    let last ← .read fun m => m.last list
    if last = node then .write fun m => m.setLast list (some prev) else pure ()
    return node

/-- The loop of `stq_del`. -/
def stqDelLoopSteps (list : κ) (node : ν) : ℕ → Option ν → Option ν → Prog (Stq κ ν) Unit
  | 0, _, _ => .fault .outOfFuel
  | _ + 1, none, _ => .ret ()
  | fuel + 1, some cur, prev =>
    if cur = node then do
      let _ ← stqDelAfterSteps list prev
      return ()
    else do
      let next ← .read fun m => stqNext m cur
      stqDelLoopSteps list node fuel next (some cur)

/-- `stq_del`. -/
def stqDelSteps (fuel : ℕ) (list : κ) (node : ν) : Prog (Stq κ ν) Unit := do
  let first ← .read fun m => stqFirst m list
  stqDelLoopSteps list node fuel first none

/-- `stq_init`. -/
def stqInitSteps (list : κ) : Prog (Stq κ ν) Unit := do
  .write fun m => m.setNext (.head list) none
  .write fun m => m.setLast list none

/-- The loop of `stq_free_all`. -/
def stqFreeLoopSteps (freed : ν → Option ν) : ℕ → Option ν → Prog (Stq κ ν) (List ν)
  | 0, _ => .fault .outOfFuel
  | _ + 1, none => .ret []
  | fuel + 1, some node => do
    let next ← .read fun m => stqNext m node
    .write fun m => m.setNext (.node node) (freed node)
    let nodes ← stqFreeLoopSteps freed fuel next
    return node :: nodes

/-- `stq_free_all`. -/
def stqFreeAllSteps (freed : ν → Option ν) (fuel : ℕ) (list : κ) : Prog (Stq κ ν) (List ν) := do
  let first ← .read fun m => stqFirst m list
  let nodes ← stqFreeLoopSteps freed fuel first
  stqInitSteps list
  return nodes

/-- `STQ_FOREACH`. -/
def stqForeachSteps : ℕ → Option ν → Prog (Stq κ ν) (List ν)
  | 0, _ => .fault .outOfFuel
  | _ + 1, none => .ret []
  | fuel + 1, some node => do
    let next ← .read fun m => stqNext m node
    let nodes ← stqForeachSteps fuel next
    return node :: nodes

/-! ### Run on their own -/

variable (m : Stq κ ν) (l : κ) (n : ν) (p : Option ν)

theorem stqAddHead_eq : stqAddHead m l n =
    let m' := (m.setNext (.node n) (m.next (.head l))).setNext (.head l) (some n)
    if m.last l = none then m'.setLast l (some n) else m' := rfl

theorem stqDelHead_none (h : m.next (.head l) = none) :
    stqDelHead m l = (m.setLast l none, none) := by
  unfold stqDelHead
  simp only [h, if_true]

theorem stqDelHead_some (h : m.next (.head l) = some n) :
    stqDelHead m l =
      let m' := m.setNext (.head l) (m.next (.node n))
      (if m'.next (.head l) = none then m'.setLast l none else m', some n) := by
  unfold stqDelHead
  simp only [h]

theorem run_stqAddHeadSteps : (stqAddHeadSteps l n).run m = .ok (stqAddHead m l n, ()) := by
  unfold stqAddHeadSteps
  rw [stqAddHead_eq]
  simp only [Prog.run_bind, Prog.run_read, Prog.run_write, ok_bind, Stq.setNext_last]
  cases m.last l <;> rfl

theorem run_stqDelHeadSteps : (stqDelHeadSteps l).run m = .ok (stqDelHead m l) := by
  unfold stqDelHeadSteps
  cases hfirst : m.next (.head l) with
  | none =>
    rw [stqDelHead_none m l hfirst]
    simp only [Prog.run_bind, Prog.run_read, Prog.run_write, Prog.run_pure, ok_bind, hfirst]
  | some n =>
    rw [stqDelHead_some m l n hfirst]
    simp only [Prog.run_bind, Prog.run_read, Prog.run_write, ok_bind, hfirst]
    cases (m.setNext (.head l) (m.next (.node n))).next (.head l) <;> rfl

theorem run_stqAddTailSteps : (stqAddTailSteps l n).run m = .ok (stqAddTail m l n, ()) := by
  unfold stqAddTailSteps stqAddTail
  simp only [Prog.run_bind, Prog.run_read, Prog.run_write, ok_bind, Stq.setNext_last]
  cases hlast : m.last l with
  | none => rfl
  | some last =>
    simp only [Prog.run_bind, Prog.run_read, Prog.run_write, ok_bind, Stq.setNext_last, hlast,
      Prog.run_deref_some]

theorem stqDelAfter_none (p : ν) (h : m.next (.node p) = none) :
    stqDelAfter m l (some p) = (if m.last l = none then m.setLast l (some p) else m, none) := by
  unfold stqDelAfter
  simp only [h]

theorem stqDelAfter_some (p : ν) (h : m.next (.node p) = some n) :
    stqDelAfter m l (some p) =
      let m' := m.setNext (.node p) (m.next (.node n))
      (if m.last l = some n then m'.setLast l (some p) else m', some n) := by
  unfold stqDelAfter
  simp only [h]
  rfl

theorem run_stqDelAfterSteps : (stqDelAfterSteps l p).run m = .ok (stqDelAfter m l p) := by
  cases p with
  | none => exact run_stqDelHeadSteps m l
  | some p =>
    unfold stqDelAfterSteps
    cases hnode : m.next (.node p) with
    | none =>
      rw [stqDelAfter_none m l p hnode]
      simp only [Prog.run_bind, Prog.run_read, ok_bind, hnode]
      split <;> rfl
    | some n =>
      rw [stqDelAfter_some m l n p hnode]
      simp only [Prog.run_bind, Prog.run_read, Prog.run_write, ok_bind, hnode, Stq.setNext_last]
      by_cases hlast : m.last l = some n <;> simp [hlast]

theorem run_stqDelLoopSteps (fuel : ℕ) (cur : Option ν) :
    (stqDelLoopSteps l n fuel cur p).run m = (stqDelLoop m l n fuel cur p).map (·, ()) := by
  induction fuel generalizing cur p with
  | zero => rfl
  | succ fuel ih =>
    cases cur with
    | none => rfl
    | some c =>
      rw [stqDelLoopSteps, stqDelLoop]
      by_cases hc : c = n
      · rw [if_pos hc, if_pos hc, Prog.run_bind, run_stqDelAfterSteps]
        rfl
      · rw [if_neg hc, if_neg hc, Prog.run_bind, Prog.run_read, ok_bind, ih]

theorem run_stqDelSteps (fuel : ℕ) :
    (stqDelSteps fuel l n).run m = (stqDel fuel m l n).map (·, ()) := by
  unfold stqDelSteps stqDel
  rw [Prog.run_bind, Prog.run_read, ok_bind, run_stqDelLoopSteps]

theorem run_stqFreeLoopSteps (freed : ν → Option ν) (fuel : ℕ) (cur : Option ν) :
    (stqFreeLoopSteps freed fuel cur).run m = stqFreeLoop freed fuel m cur := by
  induction fuel generalizing m cur with
  | zero => rfl
  | succ fuel ih =>
    cases cur with
    | none => rfl
    | some c =>
      simp only [stqFreeLoopSteps, stqFreeLoop, Prog.run_bind, Prog.run_read, Prog.run_write,
        ok_bind, ih]
      rfl

theorem run_stqFreeAllSteps (freed : ν → Option ν) (fuel : ℕ) :
    (stqFreeAllSteps freed fuel l).run m = stqFreeAll freed fuel m l := by
  unfold stqFreeAllSteps stqFreeAll stqInitSteps
  simp only [Prog.run_bind, Prog.run_read, Prog.run_write, ok_bind, run_stqFreeLoopSteps]
  rfl

theorem run_stqForeachSteps {κ ν : Type} (m : Stq κ ν) (fuel : ℕ) (cur : Option ν) :
    (stqForeachSteps fuel cur).run m = (stqForeach m fuel cur).map (m, ·) := by
  induction fuel generalizing cur with
  | zero => rfl
  | succ fuel ih =>
    cases cur with
    | none => rfl
    | some c =>
      simp only [stqForeachSteps, stqForeach, Prog.run_bind, Prog.run_read, ok_bind, ih]
      cases stqForeach m fuel (stqNext m c) <;> rfl

theorem readOnly_stqForeachSteps {κ ν : Type} (fuel : ℕ) (cur : Option ν) :
    (stqForeachSteps fuel cur : Prog (Stq κ ν) (List ν)).ReadOnly := by
  induction fuel generalizing cur with
  | zero => trivial
  | succ fuel ih =>
    cases cur with
    | none => trivial
    | some c => exact (Prog.readOnly_read _).bind fun next => (ih next).bind fun _ => trivial

/-! ### The sections -/

/-- What a call gives its caller. -/
inductive RwRet (ν : Type) where
  | unit
  | bool (b : Bool)
  | node (p : Option ν)
  | nodes (ns : List ν)

/-- `rwstq_read_lock`, the body, `rwstq_read_unlock`. -/
def rwReadLocked {σ : Type} (body : Prog σ (RwRet ν)) : Locked σ (RwRet ν) := ⟨false, true, body⟩

/-- `rwstq_read_trylock`, the body if that succeeds, `rwstq_read_unlock`. -/
def rwReadTrylocked {σ : Type} (body : Prog σ (RwRet ν)) : Locked σ (RwRet ν) := ⟨false, false, body⟩

/-- `rwstq_write_lock`, the body, `rwstq_write_unlock`. -/
def rwWriteLocked {σ : Type} (body : Prog σ (RwRet ν)) : Locked σ (RwRet ν) := ⟨true, true, body⟩

/-- `rwstq_write_trylock`, the body if that succeeds, `rwstq_write_unlock`. -/
def rwWriteTrylocked {σ : Type} (body : Prog σ (RwRet ν)) : Locked σ (RwRet ν) := ⟨true, false, body⟩

/-- `rwstq_init`, before the list is shared; the lock is free. -/
def rwstqInit (m : Stq Unit ν) : Stq Unit ν := stqInit m ()

/-- `rwstq_is_empty`. -/
def rwstqIsEmpty : Locked (Stq Unit ν) (RwRet ν) := rwReadLocked do
  let isEmpty ← stqIsEmptySteps ()
  return .bool isEmpty

/-- `rwstq_add_head`. -/
def rwstqAddHead (node : ν) : Locked (Stq Unit ν) (RwRet ν) := rwWriteLocked do
  stqAddHeadSteps () node
  return .unit

/-- `rwstq_del_head`. -/
def rwstqDelHead : Locked (Stq Unit ν) (RwRet ν) := rwWriteLocked do
  let node ← stqDelHeadSteps ()
  return .node node

/-- `rwstq_add_tail`. -/
def rwstqAddTail (node : ν) : Locked (Stq Unit ν) (RwRet ν) := rwWriteLocked do
  stqAddTailSteps () node
  return .unit

/-- `rwstq_del`. -/
def rwstqDel (fuel : ℕ) (node : ν) : Locked (Stq Unit ν) (RwRet ν) := rwWriteLocked do
  stqDelSteps fuel () node
  return .unit

/-- `rwstq_free_all`. -/
def rwstqFreeAll (fuel : ℕ) (freed : ν → Option ν) : Locked (Stq Unit ν) (RwRet ν) := rwWriteLocked do
  let nodes ← stqFreeAllSteps freed fuel ()
  return .nodes nodes

/-- A caller's own walk, by `STQ_FOREACH`. -/
def rwstqWalk (fuel : ℕ) : Prog (Stq Unit ν) (RwRet ν) := do
  let first ← .read fun m => stqFirst m ()
  let nodes ← stqForeachSteps fuel first
  return .nodes nodes

/-- A call: of one of the functions, or a caller's own section under one of the locks. -/
inductive RwstqOp (ν : Type) where
  | isEmpty
  | addHead (node : ν)
  | delHead
  | addTail (node : ν)
  | del (node : ν)
  | freeAll (freed : ν → Option ν)
  | foreach (waits : Bool)
  | tryDelHead

/-- The code of the call. -/
def RwstqOp.code (fuel : ℕ) : RwstqOp ν → Locked (Stq Unit ν) (RwRet ν)
  | .isEmpty => rwstqIsEmpty
  | .addHead n => rwstqAddHead n
  | .delHead => rwstqDelHead
  | .addTail n => rwstqAddTail n
  | .del n => rwstqDel fuel n
  | .freeAll freed => rwstqFreeAll fuel freed
  | .foreach true => rwReadLocked (rwstqWalk fuel)
  | .foreach false => rwReadTrylocked (rwstqWalk fuel)
  | .tryDelHead => rwWriteTrylocked rwstqDelHead.body

/-! ### What the calls are for -/

/-- The list of a locked tail queue, as a sequence: only nodes that are not in it come in. -/
def rwstqType : DataType (RwstqOp ν) (List ν) (RwRet ν) where
  init := []
  after
    | q, .isEmpty => q
    | q, .addHead n => n :: q
    | q, .delHead => q.tail
    | q, .addTail n => q ++ [n]
    | q, .del n => q.erase n
    | _, .freeAll _ => []
    | q, .foreach _ => q
    | q, .tryDelHead => q.tail
  ret
    | q, .isEmpty => .bool q.isEmpty
    | _, .addHead _ => .unit
    | q, .delHead => .node q.head?
    | _, .addTail _ => .unit
    | _, .del _ => .unit
    | q, .freeAll _ => .nodes q
    | q, .foreach _ => .nodes q
    | q, .tryDelHead => .node q.head?
  Allowed
    | q, .addHead n => n ∉ q
    | q, .addTail n => n ∉ q
    | _, _ => True

/-- The memory holds the list. -/
def RwstqRep (m : Stq Unit ν) (q : List ν) : Prop := m.Rep fun _ => some q

theorem put_one {ν : Type} (q r : List ν) : Family.put (fun _ : Unit => some q) () r = fun _ => some r := by
  funext u
  cases u
  exact Function.update_self ..

theorem free_one {ν : Type} {q : List ν} {n : ν} (h : n ∉ q) :
    Family.Free (fun _ : Unit => some q) n := by
  rintro l r ⟨⟩
  exact h

section calls

variable {m : Stq Unit ν} {q : List ν}

/-- The field before the first node. -/
theorem RwstqRep.first {ν : Type} {m : Stq Unit ν} {q : List ν}
    (h : RwstqRep m q) : m.next (.head ()) = q.head? :=
  Stq.Rep.next_eq (l := ()) (q := []) h rfl

theorem RwstqRep.addHead (h : RwstqRep m q) {n : ν} (hn : n ∉ q) :
    RwstqRep (stqAddHead m () n) (n :: q) := by
  have hadd := Stq.Rep.addAfter (l := ()) (q := []) h rfl (free_one hn)
  rwa [put_one] at hadd

theorem RwstqRep.addTail (h : RwstqRep m q) {n : ν} (hn : n ∉ q) :
    RwstqRep (stqAddTail m () n) (q ++ [n]) := by
  have hq : (fun _ : Unit => some q) () = some (q ++ []) := by rw [List.append_nil]
  have hadd := Stq.Rep.addAfter (l := ()) h hq (free_one hn)
  rw [put_one] at hadd
  rwa [RwstqRep, stqAddTail_eq h rfl]

theorem RwstqRep.delHead (h : RwstqRep m q) :
    RwstqRep (stqDelHead m ()).1 q.tail ∧ (stqDelHead m ()).2 = q.head? := by
  obtain ⟨hrep, hret⟩ := Stq.Rep.delAfter (l := ()) (q := []) h rfl
  rw [put_one] at hrep
  exact ⟨hrep, hret⟩

/-- The section of `rwstq_del_head`. -/
theorem RwstqRep.run_delHead (h : RwstqRep m q) :
    Post ((rwstqDelHead (ν := ν)).body.run m) fun u => u.2 = .node q.head? ∧ RwstqRep u.1 q.tail := by
  obtain ⟨hrep, hret⟩ := h.delHead
  change Post ((stqDelHeadSteps () >>= fun node => pure (RwRet.node node)).run m) _
  rw [Prog.run_bind, run_stqDelHeadSteps, ok_bind, Prog.run_pure]
  exact Post.ok ⟨congrArg RwRet.node hret, hrep⟩

/-- A walk gives the nodes and changes nothing. -/
theorem RwstqRep.run_walk {ν : Type} {m : Stq Unit ν} {q : List ν}
    (h : RwstqRep m q) {fuel : ℕ} (hf : q.length < fuel) :
    Post ((rwstqWalk fuel).run m) fun u => u.2 = .nodes q ∧ RwstqRep u.1 q := by
  have hwalk := stqForeach_follows (h.next () q rfl) hf
  change Post ((Prog.read (fun m => stqFirst m ()) >>= fun first =>
    stqForeachSteps fuel first >>= fun nodes => pure (RwRet.nodes nodes)).run m) _
  rw [Prog.run_bind, Prog.run_read, ok_bind, Prog.run_bind, run_stqForeachSteps]
  change Post ((stqForeach m fuel (m.next (.head ()))).map (m, ·) >>= _) _
  rw [hwalk]
  exact Post.ok ⟨rfl, h⟩

end calls

/-- **The sections do what the calls are for.** -/
theorem rwstq_implements (fuel : ℕ) :
    Implements (RwstqOp.code fuel) (rwstqType (ν := ν)) RwstqRep List.length fuel where
  shared c hc := by
    cases c with
    | isEmpty => exact (Prog.readOnly_read _).bind fun _ => trivial
    | foreach waits =>
      have hwalk : (rwstqWalk fuel : Prog (Stq Unit ν) (RwRet ν)).ReadOnly :=
        (Prog.readOnly_read _).bind fun first =>
          (readOnly_stqForeachSteps fuel first).bind fun _ => trivial
      cases waits <;> exact hwalk
    | _ => cases hc
  init := rfl
  grows q c := by
    cases c with
    | del n => exact (List.length_erase_le ..).trans (Nat.le_succ _)
    | _ =>
      simp only [rwstqType, List.length_cons, List.length_tail, List.length_append, List.length_nil]
      omega
  call {m q c} h hc hlen := by
    cases c with
    | isEmpty =>
      change Post ((stqIsEmptySteps () >>= fun b => pure (RwRet.bool b)).run m) _
      rw [Prog.run_bind, stqIsEmptySteps, Prog.run_read, ok_bind, Prog.run_pure, stqIsEmpty, h.first]
      refine Post.ok ⟨?_, h⟩
      cases q <;> rfl
    | addHead n =>
      change Post ((stqAddHeadSteps () n >>= fun _ => pure RwRet.unit).run m) _
      rw [Prog.run_bind, run_stqAddHeadSteps]
      exact Post.ok ⟨rfl, h.addHead hc⟩
    | delHead => exact h.run_delHead
    | addTail n =>
      change Post ((stqAddTailSteps () n >>= fun _ => pure RwRet.unit).run m) _
      rw [Prog.run_bind, run_stqAddTailSteps]
      exact Post.ok ⟨rfl, h.addTail hc⟩
    | del n =>
      obtain ⟨m', hrun, hrep⟩ := Stq.Rep.del (l := ()) h rfl n
      rw [put_one] at hrep
      change Post ((stqDelSteps fuel () n >>= fun _ => pure RwRet.unit).run m) _
      rw [Prog.run_bind, run_stqDelSteps, hrun fuel hlen]
      exact Post.ok ⟨rfl, hrep⟩
    | freeAll freed =>
      obtain ⟨m', hrun, hrep⟩ := Stq.Rep.freeAll (l := ()) h rfl freed
      rw [put_one] at hrep
      change Post ((stqFreeAllSteps freed fuel () >>= fun ns => pure (RwRet.nodes ns)).run m) _
      rw [Prog.run_bind, run_stqFreeAllSteps, hrun fuel hlen]
      exact Post.ok ⟨rfl, hrep⟩
    | foreach waits => cases waits <;> exact h.run_walk hlen
    | tryDelHead => exact h.run_delHead

theorem rwstqRep_init (m : Stq Unit ν) : RwstqRep (rwstqInit m) [] := by
  have hinit := (Stq.rep_none m).init ()
  have hput : Family.put (fun _ : Unit => none) () [] = fun _ => some ([] : List ν) := by
    funext u
    cases u
    exact Function.update_self ..
  rwa [hput] at hinit

variable {client : ι → List (RwstqOp ν × Option (RwRet ν)) → Option (RwstqOp ν)}

/-- **The locked tail queue is linearizable.** Threads that add only nodes in no list when every call is
made whole see such a history under every schedule. -/
theorem rwstq_linearizable (m : Stq Unit ν) (sched : List ι) {fuel : ℕ} (hf : sched.length + 1 < fuel)
    (hrules : KeepsRules (RwstqOp.code fuel) client rwstqType) :
    Post ((Threads.start (rwstqInit m)).run (RwstqOp.code fuel) client sched) fun s =>
      ∃ q, Linearized (RwstqOp.code fuel) client rwstqType RwstqRep s q :=
  linearizable (rwstq_implements fuel) hrules (rwstqRep_init m) hf

/-! ### Threads that own their nodes -/

/-- The nodes a thread may add after one more of its calls: without the node it added, and with the one
it took out. -/
def ownedAfter (S : Set ν) : RwstqOp ν × Option (RwRet ν) → Set ν
  | (.addHead n, _) => S \ {n}
  | (.addTail n, _) => S \ {n}
  | (.delHead, some (.node (some n))) => insert n S
  | (.tryDelHead, some (.node (some n))) => insert n S
  | _ => S

/-- The nodes a thread may add, after its calls. -/
def owned (S : Set ν) (past : List (RwstqOp ν × Option (RwRet ν))) : Set ν := past.foldl ownedAfter S

theorem owned_concat {ν : Type} (S : Set ν) (past : List (RwstqOp ν × Option (RwRet ν)))
    (e : RwstqOp ν × Option (RwRet ν)) : owned S (past ++ [e]) = ownedAfter (owned S past) e := by
  simp [owned]

/-- Each thread starts with nodes of its own, and adds only nodes it owns. -/
structure Owners (own : ι → Set ν)
    (client : ι → List (RwstqOp ν × Option (RwRet ν)) → Option (RwstqOp ν)) : Prop where
  apart : ∀ i j n, n ∈ own i → n ∈ own j → i = j
  addHead : ∀ i past n, client i past = some (.addHead n) → n ∈ owned (own i) past
  addTail : ∀ i past n, client i past = some (.addTail n) → n ∈ owned (own i) past

/-- No node is in the list twice, or in the list and owned, or owned by two threads. -/
structure Owned (own : ι → Set ν) (log : List (ι × RwstqOp ν × Option (RwRet ν))) (q : List ν) :
    Prop where
  nodup : q.Nodup
  outside : ∀ i n, n ∈ owned (own i) (callsOf i log) → n ∉ q
  apart : ∀ i j n, n ∈ owned (own i) (callsOf i log) → n ∈ owned (own j) (callsOf j log) → i = j

variable {own : ι → Set ν} {log : List (ι × RwstqOp ν × Option (RwRet ν))} {q r : List ν} {i : ι}
  {n : ν} {e : RwstqOp ν × Option (RwRet ν)}

section owners

omit [DecidableEq ν]

/-- A call that gives the thread no node, and puts none into the list. -/
theorem Owned.keep (h : Owned own log q) (hr : r.Sublist q) (he : ∀ S, ownedAfter S e = S) :
    Owned own (log ++ [(i, e)]) r := by
  have hsame : ∀ j, owned (own j) (callsOf j (log ++ [(i, e)])) = owned (own j) (callsOf j log) := by
    intro j
    by_cases hij : i = j
    · subst hij
      rw [callsOf_concat_self, owned_concat, he]
    · rw [callsOf_concat_of_ne hij]
  refine ⟨h.nodup.sublist hr, fun j k hk hkr => ?_, fun j j' k hk hk' => ?_⟩
  · rw [hsame] at hk
    exact h.outside j k hk (hr.subset hkr)
  · rw [hsame] at hk hk'
    exact h.apart j j' k hk hk'

/-- A node the thread owned goes into the list. -/
theorem Owned.give (h : Owned own log q) (hn : n ∈ owned (own i) (callsOf i log))
    (hr : r.Perm (n :: q)) (he : ∀ S, ownedAfter S e = S \ {n}) :
    Owned own (log ++ [(i, e)]) r := by
  have hless : ∀ j k, k ∈ owned (own j) (callsOf j (log ++ [(i, e)])) →
      k ∈ owned (own j) (callsOf j log) ∧ k ≠ n := by
    intro j k hk
    by_cases hij : i = j
    · subst hij
      rw [callsOf_concat_self, owned_concat, he] at hk
      exact hk
    · rw [callsOf_concat_of_ne hij] at hk
      refine ⟨hk, ?_⟩
      rintro rfl
      exact hij (h.apart i j k hn hk)
  refine ⟨hr.nodup_iff.mpr (List.nodup_cons.mpr ⟨h.outside i n hn, h.nodup⟩), fun j k hk hkr => ?_,
    fun j j' k hk hk' => h.apart j j' k (hless j k hk).1 (hless j' k hk').1⟩
  obtain ⟨hk, hkn⟩ := hless j k hk
  rcases List.mem_cons.mp (hr.subset hkr) with hkn' | hkq
  · exact hkn hkn'
  · exact h.outside j k hk hkq

/-- The thread takes the first node out of the list and owns it. -/
theorem Owned.take (h : Owned own log (n :: q)) (he : ∀ S, ownedAfter S e = insert n S) :
    Owned own (log ++ [(i, e)]) q := by
  have hmore : ∀ j k, k ∈ owned (own j) (callsOf j (log ++ [(i, e)])) →
      k ∈ owned (own j) (callsOf j log) ∨ k = n ∧ j = i := by
    intro j k hk
    by_cases hij : i = j
    · subst hij
      rw [callsOf_concat_self, owned_concat, he] at hk
      rcases Set.mem_insert_iff.mp hk with hk | hk
      · exact .inr ⟨hk, rfl⟩
      · exact .inl hk
    · rw [callsOf_concat_of_ne hij] at hk
      exact .inl hk
  obtain ⟨hnq, hq⟩ := List.nodup_cons.mp h.nodup
  refine ⟨hq, fun j k hk hkq => ?_, fun j j' k hk hk' => ?_⟩
  · rcases hmore j k hk with hk | ⟨rfl, -⟩
    · exact h.outside j k hk (List.mem_cons_of_mem n hkq)
    · exact hnq hkq
  · rcases hmore j k hk with h₁ | ⟨rfl, rfl⟩ <;> rcases hmore j' _ hk' with h₂ | ⟨h₂, rfl⟩
    · exact h.apart j j' k h₁ h₂
    · subst h₂
      exact absurd (List.mem_cons_self ..) (h.outside j _ h₁)
    · exact absurd (List.mem_cons_self ..) (h.outside j' _ h₂)
    · rfl

end owners

/-- What is owned, after a history of whole calls. -/
theorem Owners.owned (ho : Owners own client) {fuel : ℕ}
    (h : History (RwstqOp.code fuel) client rwstqType log q) : Owned own log q := by
  have hdel : ∀ {log : List (ι × RwstqOp ν × Option (RwRet ν))} {q : List ν} {i : ι} {c : RwstqOp ν},
      c = .delHead ∨ c = .tryDelHead → Owned own log q →
      Owned own (log ++ [(i, c, some (.node q.head?))]) q.tail := by
    intro log q i c hc h
    cases q with
    | nil =>
      refine h.keep (List.Sublist.refl []) fun S => ?_
      rcases hc with rfl | rfl <;> rfl
    | cons n q =>
      refine h.take fun S => ?_
      rcases hc with rfl | rfl <;> rfl
  induction h with
  | init => exact ⟨List.nodup_nil, fun _ _ _ => List.not_mem_nil, ho.apart⟩
  | @call log q i c h hc ih =>
    cases c with
    | addHead n => exact ih.give (ho.addHead i _ n hc) (List.Perm.refl _) fun S => rfl
    | addTail n => exact ih.give (ho.addTail i _ n hc) (List.perm_append_singleton n q) fun S => rfl
    | delHead => exact hdel (.inl rfl) ih
    | tryDelHead => exact hdel (.inr rfl) ih
    | del n => exact ih.keep List.erase_sublist fun S => rfl
    | freeAll freed => exact ih.keep (List.nil_sublist q) fun S => rfl
    | isEmpty => exact ih.keep (List.Sublist.refl q) fun S => rfl
    | foreach waits => exact ih.keep (List.Sublist.refl q) fun S => rfl
  | @giveUp log q i c h hc hw ih =>
    refine ih.keep (List.Sublist.refl q) fun S => ?_
    cases c with
    | tryDelHead => rfl
    | foreach waits => rfl
    | _ => cases hw

/-- **Threads that own their nodes keep to the rules.** -/
theorem Owners.keepsRules (ho : Owners own client) (fuel : ℕ) :
    KeepsRules (RwstqOp.code fuel) client rwstqType := by
  intro log q i c hlog hc
  have h := ho.owned hlog
  cases c with
  | addHead n => exact h.outside i n (ho.addHead i _ n hc)
  | addTail n => exact h.outside i n (ho.addTail i _ n hc)
  | _ => trivial

/-- Each of two threads adds a node, takes one out, and puts back what it got. -/
def swapClient (i : Bool) : List (RwstqOp Bool × Option (RwRet Bool)) → Option (RwstqOp Bool)
  | [] => some (.addTail i)
  | [_] => some .delHead
  | [_, (.delHead, some (.node (some n)))] => some (.addHead n)
  | _ => none

theorem swapClient_owners : Owners (fun i : Bool => {i}) swapClient where
  apart i j n hi hj := hi.symm.trans hj
  addHead i past n h := by
    unfold swapClient at h
    split at h
    · cases h
    · cases h
    · cases h
      exact Set.mem_insert n _
    · cases h
  addTail i past n h := by
    unfold swapClient at h
    split at h
    · cases h
      exact Set.mem_singleton i
    · cases h
    · cases h
    · cases h

theorem rwstq_linearizable_swap :
    Post ((Threads.start (rwstqInit ⟨fun _ => some true, fun _ => some false⟩)).run
      (RwstqOp.code 9) swapClient [true, false, true, true, false]) fun s =>
        ∃ q, Linearized (RwstqOp.code 9) swapClient rwstqType RwstqRep s q :=
  rwstq_linearizable _ [true, false, true, true, false] (by decide) (swapClient_owners.keepsRules 9)

end CcUtils.Lists
