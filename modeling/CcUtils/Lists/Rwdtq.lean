import CcUtils.Lists.Foreach
import CcUtils.Lists.Rwstq

/-!
# The locked deque of `list.h`

`rwdtq_list`: a deque with a `pthread_rwlock_t`. As for `rwstq_list`, each function takes the lock, does
what the function of the deque does, and lets the lock go; `rwdtq_del` has the stores of `dtq_del` written
out. The functions are cut at their loads and stores, so that the threads may be anywhere in them.

## What is proved

* `run_dtqAddAfterSteps`, and one lemma for each other function — cut at its accesses and run on its own,
  it is the function of the deque.
* `rwdtq_implements` — the sections do what the calls are for.
* `rwdtq_linearizable` — under every schedule the calls return what one order of whole calls returns.
-/

namespace CcUtils.Lists

open CcUtils.Lib

variable {ι κ ν : Type} [DecidableEq ι] [DecidableEq κ] [DecidableEq ν]

/-! ### The functions of the deque, cut at their accesses -/

/-- `dtq_init`. -/
def dtqInitSteps (list : κ) : Prog (Dtq κ ν) Unit := do
  .write fun m => m.setNext (.head list) (some (.head list))
  .write fun m => m.setPrev (.head list) (some (.head list))

/-- `dtq_is_empty`. -/
def dtqIsEmptySteps (list : κ) : Prog (Dtq κ ν) Bool := .read fun m => dtqIsEmpty m list

/-- `dtq_is_end`. -/
def dtqIsEndSteps (list : κ) (node : Option (Cell κ ν)) : Prog (Dtq κ ν) Bool := do
  let isEmpty ← dtqIsEmptySteps list
  return if isEmpty then true else if node = none then true else node = some (.head list)

/-- `dtq_add_after`. -/
def dtqAddAfterSteps (prev insert : Cell κ ν) : Prog (Dtq κ ν) Unit := do
  .write fun m => m.setPrev insert (some prev)
  let next ← .read fun m => m.next prev
  .write fun m => m.setNext insert next
  .write fun m => m.setNext prev (some insert)
  let next ← .read fun m => m.next insert
  let next ← .deref next
  .write fun m => m.setPrev next (some insert)

/-- `dtq_add_before`. -/
def dtqAddBeforeSteps (next insert : Cell κ ν) : Prog (Dtq κ ν) Unit := do
  let prev ← .read fun m => m.prev next
  .write fun m => m.setPrev insert prev
  .write fun m => m.setNext insert (some next)
  let prev ← .read fun m => m.prev insert
  let prev ← .deref prev
  .write fun m => m.setNext prev (some insert)
  let next ← .read fun m => m.next insert
  let next ← .deref next
  .write fun m => m.setPrev next (some insert)

/-- `dtq_del`, and the stores of `rwdtq_del`. -/
def dtqDelSteps (node : Cell κ ν) : Prog (Dtq κ ν) Unit := do
  let prev ← .read fun m => m.prev node
  let prev ← .deref prev
  let next ← .read fun m => m.next node
  .write fun m => m.setNext prev next
  let next ← .read fun m => m.next node
  let next ← .deref next
  let prev ← .read fun m => m.prev node
  .write fun m => m.setPrev next prev

/-- `dta_del_head` and `dtq_del_tail`, after `node` has been fetched. -/
def dtqDelEndSteps (list : κ) (node : Option (Cell κ ν)) : Prog (Dtq κ ν) (Option (Cell κ ν)) := do
  let isEnd ← dtqIsEndSteps list node
  if isEnd then return none
  else do
    let a ← .deref node
    dtqDelSteps a
    return node

/-- The loop of `dtq_free_all`. -/
def dtqFreeLoopSteps (freed : Cell κ ν → Option (Cell κ ν) × Option (Cell κ ν)) (list : κ) :
    ℕ → Option (Cell κ ν) → Prog (Dtq κ ν) (List (Cell κ ν))
  | 0, _ => .fault .outOfFuel
  | fuel + 1, node =>
    if node = some (.head list) then return []
    else do
      let a ← .deref node
      let next ← .read fun m => m.next a
      .write fun m => m.setPrev a (freed a).1
      .write fun m => m.setNext a (freed a).2
      let cells ← dtqFreeLoopSteps freed list fuel next
      return a :: cells

/-- `dtq_free_all`. -/
def dtqFreeAllSteps (freed : Cell κ ν → Option (Cell κ ν) × Option (Cell κ ν)) (fuel : ℕ) (list : κ) :
    Prog (Dtq κ ν) (List (Cell κ ν)) := do
  let first ← .read fun m => m.next (.head list)
  let cells ← dtqFreeLoopSteps freed list fuel first
  dtqInitSteps list
  return cells

/-- `DTQ_FOREACH`, from the cell `a` on. -/
def dtqWalkSteps (list : κ) : ℕ → Cell κ ν → Prog (Dtq κ ν) (List (Cell κ ν))
  | 0, _ => .fault .outOfFuel
  | fuel + 1, a => do
    let next ← .read fun m => m.next a
    let b ← .deref next
    if b = .head list then return []
    else do
      let cells ← dtqWalkSteps list fuel b
      return b :: cells

/-! ### Run on their own -/

variable (m : Dtq κ ν) (l : κ) (a b : Cell κ ν) (p : Option (Cell κ ν))

theorem run_deref {κ ν : Type} (m : Dtq κ ν) (p : Option (Cell κ ν)) :
    (Prog.deref p : Prog (Dtq κ ν) (Cell κ ν)).run m = (dtqAt p).map (m, ·) := by
  cases p <;> rfl

theorem run_dtqIsEndSteps : (dtqIsEndSteps l p).run m = .ok (m, dtqIsEnd m l p) := rfl

theorem run_dtqAddAfterSteps :
    (dtqAddAfterSteps a b).run m = (dtqAddAfter m a b).map (·, ()) := by
  unfold dtqAddAfterSteps dtqAddAfter
  simp only [Prog.run_bind, Prog.run_read, Prog.run_write, ok_bind, run_deref]
  cases dtqAt _ <;> rfl

theorem run_dtqAddBeforeSteps :
    (dtqAddBeforeSteps a b).run m = (dtqAddBefore m a b).map (·, ()) := by
  unfold dtqAddBeforeSteps dtqAddBefore
  simp only [Prog.run_bind, Prog.run_read, Prog.run_write, ok_bind, run_deref]
  cases dtqAt _ with
  | error e => rfl
  | ok prev =>
    simp only [Except.map, ok_bind]
    cases dtqAt _ <;> rfl

theorem run_dtqDelSteps : (dtqDelSteps a).run m = (dtqDel m a).map (·, ()) := by
  unfold dtqDelSteps dtqDel
  simp only [Prog.run_bind, Prog.run_read, Prog.run_write, ok_bind, run_deref]
  cases dtqAt _ with
  | error e => rfl
  | ok prev =>
    simp only [Except.map, ok_bind]
    cases dtqAt _ <;> rfl

theorem run_dtqDelEndSteps : (dtqDelEndSteps l p).run m = dtqDelEnd dtqDel m l p := by
  unfold dtqDelEndSteps dtqDelEnd
  rw [Prog.run_bind, run_dtqIsEndSteps, ok_bind]
  by_cases hend : dtqIsEnd m l p = true
  · rw [if_pos hend, if_pos hend]
    rfl
  · rw [if_neg hend, if_neg hend]
    simp only [Prog.run_bind, run_deref, run_dtqDelSteps]
    cases p with
    | none => rfl
    | some a =>
      simp only [dtqAt_some, Except.map, ok_bind]
      cases dtqDel m a <;> rfl

theorem run_dtqFreeLoopSteps (freed : Cell κ ν → Option (Cell κ ν) × Option (Cell κ ν)) (fuel : ℕ) :
    (dtqFreeLoopSteps freed l fuel p).run m =
      safeLoop (dtqAhead l) (dtqFreeNode freed) fuel m p := by
  induction fuel generalizing m p with
  | zero => rfl
  | succ fuel ih =>
    rw [dtqFreeLoopSteps, safeLoop, dtqAhead]
    by_cases hend : p = some (.head l)
    · rw [if_pos hend, if_pos hend]
      rfl
    · rw [if_neg hend, if_neg hend]
      cases p with
      | none => rfl
      | some a =>
        simp only [Prog.run_bind, Prog.run_deref_some, Prog.run_read, Prog.run_write, ok_bind, ih]
        rfl

theorem run_dtqFreeAllSteps (freed : Cell κ ν → Option (Cell κ ν) × Option (Cell κ ν)) (fuel : ℕ) :
    (dtqFreeAllSteps freed fuel l).run m = dtqFreeAll freed fuel m l := by
  unfold dtqFreeAllSteps dtqFreeAll dtqInitSteps
  simp only [Prog.run_bind, Prog.run_read, Prog.run_write, ok_bind, run_dtqFreeLoopSteps]
  rfl

theorem run_dtqWalkSteps (fuel : ℕ) :
    (dtqWalkSteps l fuel a).run m = (dtqWalk m.next l fuel a).map (m, ·) := by
  induction fuel generalizing a with
  | zero => rfl
  | succ fuel ih =>
    rw [dtqWalkSteps, dtqWalk, Prog.run_bind, Prog.run_read, ok_bind, Prog.run_bind, run_deref]
    cases dtqAt (m.next a) with
    | error e => rfl
    | ok b =>
      simp only [Except.map, ok_bind]
      by_cases hend : b = .head l
      · rw [if_pos hend, if_pos hend]
        rfl
      · rw [if_neg hend, if_neg hend, Prog.run_bind, ih]
        cases dtqWalk m.next l fuel b <;> rfl

theorem readOnly_dtqWalkSteps (fuel : ℕ) :
    (dtqWalkSteps l fuel a : Prog (Dtq κ ν) (List (Cell κ ν))).ReadOnly := by
  induction fuel generalizing a with
  | zero => trivial
  | succ fuel ih =>
    refine (Prog.readOnly_read _).bind fun next => ?_
    cases next with
    | none => trivial
    | some b =>
      refine Prog.ReadOnly.bind (p := .ret b) trivial fun b => ?_
      by_cases hend : b = .head l
      · rw [if_pos hend]
        trivial
      · rw [if_neg hend]
        exact (ih b).bind fun _ => trivial

/-! ### The sections -/

/-- A cell of the one deque: its header or a node. -/
abbrev DtqCell (ν : Type) := Cell Unit ν

/-- `rwdtq_init`, before the list is shared; the lock is free. -/
def rwdtqInit (m : Dtq Unit ν) : Dtq Unit ν := dtqInit m ()

/-- `rwdtq_is_empty`. -/
def rwdtqIsEmpty : Locked (Dtq Unit ν) (RwRet (DtqCell ν)) := rwReadLocked do
  let isEmpty ← dtqIsEmptySteps ()
  return .bool isEmpty

/-- `rwdtq_is_end`. -/
def rwdtqIsEnd (node : Option (DtqCell ν)) : Locked (Dtq Unit ν) (RwRet (DtqCell ν)) := rwReadLocked do
  let isEnd ← dtqIsEndSteps () node
  return .bool isEnd

/-- `rwdtq_add_head`. -/
def rwdtqAddHead (node : ν) : Locked (Dtq Unit ν) (RwRet (DtqCell ν)) := rwWriteLocked do
  dtqAddAfterSteps (.head ()) (.node node)
  return .unit

/-- `rwdta_del_head`. -/
def rwdtaDelHead : Locked (Dtq Unit ν) (RwRet (DtqCell ν)) := rwWriteLocked do
  let first ← .read fun m => dtqFirst m ()
  let node ← dtqDelEndSteps () first
  return .node node

/-- `rwdtq_del`. -/
def rwdtqDel (node : ν) : Locked (Dtq Unit ν) (RwRet (DtqCell ν)) := rwWriteLocked do
  dtqDelSteps (.node node)
  return .unit

/-- `rwdtq_add_tail`. -/
def rwdtqAddTail (node : ν) : Locked (Dtq Unit ν) (RwRet (DtqCell ν)) := rwWriteLocked do
  dtqAddBeforeSteps (.head ()) (.node node)
  return .unit

/-- `rwdtq_del_tail`. -/
def rwdtqDelTail : Locked (Dtq Unit ν) (RwRet (DtqCell ν)) := rwWriteLocked do
  let last ← .read fun m => dtqLast m ()
  let node ← dtqDelEndSteps () last
  return .node node

/-- `rwdtq_free_all`. -/
def rwdtqFreeAll (fuel : ℕ) (freed : DtqCell ν → Option (DtqCell ν) × Option (DtqCell ν)) :
    Locked (Dtq Unit ν) (RwRet (DtqCell ν)) := rwWriteLocked do
  let cells ← dtqFreeAllSteps freed fuel ()
  return .nodes cells

/-- A caller's own section: a walk by `DTQ_FOREACH` under `rwdtq_read_lock`. -/
def rwdtqForeach (fuel : ℕ) : Locked (Dtq Unit ν) (RwRet (DtqCell ν)) := rwReadLocked do
  let cells ← dtqWalkSteps () fuel (.head ())
  return .nodes cells

/-- A call: of one of the functions, or a caller's own section: a walk, or a removal by
`rwdtq_write_trylock`. -/
inductive RwdtqOp (ν : Type) where
  | isEmpty
  | isEnd (node : Option (DtqCell ν))
  | addHead (node : ν)
  | delHead
  | del (node : ν)
  | addTail (node : ν)
  | delTail
  | freeAll (freed : DtqCell ν → Option (DtqCell ν) × Option (DtqCell ν))
  | foreach
  | tryDelTail

/-- The code of the call. -/
def RwdtqOp.code (fuel : ℕ) : RwdtqOp ν → Locked (Dtq Unit ν) (RwRet (DtqCell ν))
  | .isEmpty => rwdtqIsEmpty
  | .isEnd node => rwdtqIsEnd node
  | .addHead n => rwdtqAddHead n
  | .delHead => rwdtaDelHead
  | .del n => rwdtqDel n
  | .addTail n => rwdtqAddTail n
  | .delTail => rwdtqDelTail
  | .freeAll freed => rwdtqFreeAll fuel freed
  | .foreach => rwdtqForeach fuel
  | .tryDelTail => rwWriteTrylocked rwdtqDelTail.body

/-! ### What the calls are for -/

/-- The list of a locked deque, as a sequence: only nodes that are not in it come in, and `rwdtq_del` takes
out only a member. -/
def rwdtqType : DataType (RwdtqOp ν) (List ν) (RwRet (DtqCell ν)) where
  init := []
  after
    | q, .isEmpty => q
    | q, .isEnd _ => q
    | q, .addHead n => n :: q
    | q, .delHead => q.tail
    | q, .del n => q.erase n
    | q, .addTail n => q ++ [n]
    | q, .delTail => q.dropLast
    | _, .freeAll _ => []
    | q, .foreach => q
    | q, .tryDelTail => q.dropLast
  ret
    | q, .isEmpty => .bool q.isEmpty
    | q, .isEnd p => .bool (decide (q = [] ∨ p = none ∨ p = some (.head ())))
    | _, .addHead _ => .unit
    | q, .delHead => .node (q.head?.map .node)
    | _, .del _ => .unit
    | _, .addTail _ => .unit
    | q, .delTail => .node (q.getLast?.map .node)
    | q, .freeAll _ => .nodes (q.map .node)
    | q, .foreach => .nodes (q.map .node)
    | q, .tryDelTail => .node (q.getLast?.map .node)
  Allowed
    | q, .addHead n => n ∉ q
    | q, .addTail n => n ∉ q
    | q, .del n => n ∈ q
    | _, _ => True

/-- The memory holds the list. -/
def RwdtqRep (m : Dtq Unit ν) (q : List ν) : Prop := m.Rep ⟨fun _ => some q, ∅⟩

section calls

variable {m : Dtq Unit ν} {q r : List ν} {n : ν}

/-- What an edit of the one list leaves. -/
theorem rep_one {ν : Type} {q r : List ν}
    {m : Dtq Unit ν} (h : m.Rep ⟨Family.put (fun _ : Unit => some q) () r, ∅⟩) :
    RwdtqRep m r := by
  rwa [put_one] at h

theorem RwdtqRep.linkIn (h : RwdtqRep m (q ++ r)) (hn : n ∉ q ++ r) :
    RwdtqRep (m.linkIn () q n r) (q ++ n :: r) := by
  have hrep := Dtq.Rep.linkIn (l := ()) h rfl (free_one hn)
  rw [Finset.erase_empty] at hrep
  exact rep_one hrep

theorem RwdtqRep.linkOut (h : RwdtqRep m (q ++ n :: r)) : RwdtqRep (m.linkOut () q r) (q ++ r) :=
  rep_one (Dtq.Rep.linkOut (l := ()) h rfl)

/-- The section of `rwdtq_add_head`. -/
theorem RwdtqRep.run_addHead (h : RwdtqRep m q) (hn : n ∉ q) :
    Post ((rwdtqAddHead n).body.run m) fun u => u.2 = .unit ∧ RwdtqRep u.1 (n :: q) := by
  have hadd := Dtq.Rep.addAfter (l := ()) (q := []) h rfl (free_one hn)
  change Post ((dtqAddAfterSteps (.head ()) (.node n) >>= fun _ => pure RwRet.unit).run m) _
  rw [Prog.run_bind, run_dtqAddAfterSteps]
  rw [lastCell_nil] at hadd
  rw [hadd]
  exact Post.ok ⟨rfl, RwdtqRep.linkIn (q := []) h hn⟩

/-- The section of `rwdtq_add_tail`. -/
theorem RwdtqRep.run_addTail (h : RwdtqRep m q) (hn : n ∉ q) :
    Post ((rwdtqAddTail n).body.run m) fun u => u.2 = .unit ∧ RwdtqRep u.1 (q ++ [n]) := by
  have hq : RwdtqRep m (q ++ []) := by rwa [List.append_nil]
  have hn' : n ∉ q ++ [] := by rwa [List.append_nil]
  have hadd := Dtq.Rep.addBefore (l := ()) hq rfl (free_one hn')
  rw [List.reverse_nil, lastCell_nil] at hadd
  change Post ((dtqAddBeforeSteps (.head ()) (.node n) >>= fun _ => pure RwRet.unit).run m) _
  rw [Prog.run_bind, run_dtqAddBeforeSteps, hadd]
  exact Post.ok ⟨rfl, hq.linkIn hn'⟩

/-- The section of `rwdtq_del`. -/
theorem RwdtqRep.run_del (h : RwdtqRep m q) (hn : n ∈ q) :
    Post ((rwdtqDel n).body.run m) fun u => u.2 = .unit ∧ RwdtqRep u.1 (q.erase n) := by
  obtain ⟨s, r, rfl⟩ := List.append_of_mem hn
  have hdel := Dtq.Rep.del (l := ()) h rfl
  have hns : n ∉ s := Family.Separate.notMem_before (l := ()) (Dtq.Rep.separate h) rfl
  change Post ((dtqDelSteps (.node n) >>= fun _ => pure RwRet.unit).run m) _
  rw [Prog.run_bind, run_dtqDelSteps, hdel, List.erase_append_right _ hns, List.erase_cons_head]
  exact Post.ok ⟨rfl, h.linkOut⟩

/-- The section of `rwdta_del_head`. -/
theorem RwdtqRep.run_delHead (h : RwdtqRep m q) :
    Post ((rwdtaDelHead (ν := ν)).body.run m) fun u =>
      u.2 = .node (q.head?.map .node) ∧ RwdtqRep u.1 q.tail := by
  have hfirst := Dtq.Rep.first (l := ()) h rfl
  change Post ((Prog.read (fun m => dtqFirst m ()) >>= fun first =>
    dtqDelEndSteps () first >>= fun node => pure (RwRet.node node)).run m) _
  rw [Prog.run_bind, Prog.run_read, ok_bind, Prog.run_bind, run_dtqDelEndSteps, hfirst]
  cases q with
  | nil =>
    rw [Dtq.Rep.delEnd_nil h rfl]
    exact Post.ok ⟨rfl, h⟩
  | cons n q =>
    have hdel := Dtq.Rep.del (l := ()) (q := []) h rfl
    have hend := Dtq.Rep.delEnd_eq (l := ()) h rfl (List.mem_cons_self ..) dtqDel
    rw [List.head?_cons, Option.map_some, hend, hdel]
    exact Post.ok ⟨rfl, RwdtqRep.linkOut (q := []) h⟩

/-- The section of `rwdtq_del_tail`. -/
theorem RwdtqRep.run_delTail (h : RwdtqRep m q) :
    Post ((rwdtqDelTail (ν := ν)).body.run m) fun u =>
      u.2 = .node (q.getLast?.map .node) ∧ RwdtqRep u.1 q.dropLast := by
  have hlast := Dtq.Rep.last (l := ()) h rfl
  change Post ((Prog.read (fun m => dtqLast m ()) >>= fun last =>
    dtqDelEndSteps () last >>= fun node => pure (RwRet.node node)).run m) _
  rw [Prog.run_bind, Prog.run_read, ok_bind, Prog.run_bind, run_dtqDelEndSteps, hlast]
  rcases List.eq_nil_or_concat q with rfl | ⟨r, n, rfl⟩
  · rw [Dtq.Rep.delEnd_nil h rfl]
    exact Post.ok ⟨rfl, h⟩
  · rw [List.concat_eq_append] at h ⊢
    have hdel := Dtq.Rep.del (l := ()) h rfl
    have hend := Dtq.Rep.delEnd_eq (l := ()) (n := n) h rfl (by simp) dtqDel
    rw [List.getLast?_append, List.getLast?_singleton, Option.some_or, Option.map_some, hend, hdel,
      List.dropLast_concat]
    have hrep := h.linkOut
    rw [List.append_nil] at hrep
    exact Post.ok ⟨rfl, hrep⟩

/-- The section of `rwdtq_free_all`. -/
theorem RwdtqRep.run_freeAll (h : RwdtqRep m q) {fuel : ℕ} (hf : q.length < fuel)
    (freed : DtqCell ν → Option (DtqCell ν) × Option (DtqCell ν)) :
    Post ((rwdtqFreeAll fuel freed).body.run m) fun u =>
      u.2 = .nodes (q.map .node) ∧ RwdtqRep u.1 [] := by
  obtain ⟨m', hrun, hrep⟩ := Dtq.Rep.freeAll (l := ()) h rfl freed
  change Post ((dtqFreeAllSteps freed fuel () >>= fun cells => pure (RwRet.nodes cells)).run m) _
  rw [Prog.run_bind, run_dtqFreeAllSteps, hrun fuel hf]
  exact Post.ok ⟨rfl, rep_one hrep⟩

/-- A walk gives the nodes and changes nothing. -/
theorem RwdtqRep.run_foreach (h : RwdtqRep m q) {fuel : ℕ} (hf : q.length < fuel) :
    Post ((rwdtqForeach fuel).body.run m) fun u => u.2 = .nodes (q.map .node) ∧ RwdtqRep u.1 q := by
  have hwalk := dtqWalk_follows (Dtq.Rep.next h () q rfl) hf
  change Post ((dtqWalkSteps () fuel (.head ()) >>= fun cells => pure (RwRet.nodes cells)).run m) _
  rw [Prog.run_bind, run_dtqWalkSteps, hwalk]
  exact Post.ok ⟨rfl, h⟩

end calls

/-- **The sections do what the calls are for.** -/
theorem rwdtq_implements (fuel : ℕ) :
    Implements (RwdtqOp.code fuel) (rwdtqType (ν := ν)) RwdtqRep List.length fuel where
  shared c hc := by
    cases c with
    | isEmpty => exact (Prog.readOnly_read _).bind fun _ => trivial
    | isEnd p =>
      refine Prog.ReadOnly.bind ?_ fun _ => trivial
      exact (Prog.readOnly_read _).bind fun _ => trivial
    | foreach => exact (readOnly_dtqWalkSteps () (.head ()) fuel).bind fun _ => trivial
    | _ => cases hc
  init := rfl
  grows q c := by
    cases c with
    | del n => exact (List.length_erase_le ..).trans (Nat.le_succ _)
    | _ =>
      simp only [rwdtqType, List.length_cons, List.length_tail, List.length_append,
        List.length_dropLast, List.length_nil]
      omega
  call {m q c} h hc hlen := by
    cases c with
    | isEmpty =>
      have hfirst : m.next (.head ()) = some (lastCell (.head ()) q.reverse) :=
        Dtq.Rep.next_eq (l := ()) (q := []) h rfl
      refine Post.ok ⟨congrArg RwRet.bool ?_, h⟩
      change decide (m.next (.head ()) = some (.head ())) = q.isEmpty
      rw [hfirst]
      cases q with
      | nil => simp
      | cons n q =>
        rw [lastCell_reverse_cons]
        simp
    | isEnd p => exact Post.ok ⟨congrArg RwRet.bool (Dtq.Rep.isEnd (l := ()) h rfl p), h⟩
    | addHead n => exact h.run_addHead hc
    | delHead => exact h.run_delHead
    | del n => exact h.run_del hc
    | addTail n => exact h.run_addTail hc
    | delTail => exact h.run_delTail
    | freeAll freed => exact h.run_freeAll hlen freed
    | foreach => exact h.run_foreach hlen
    | tryDelTail => exact h.run_delTail

theorem rwdtqRep_init (m : Dtq Unit ν) : RwdtqRep (rwdtqInit m) [] := by
  have hinit := (Dtq.rep_none m).init ()
  have hput : Family.put (fun _ : Unit => none) () [] = fun _ => some ([] : List ν) := by
    funext u
    cases u
    exact Function.update_self ..
  rwa [hput] at hinit

variable {client : ι → List (RwdtqOp ν × Option (RwRet (DtqCell ν))) → Option (RwdtqOp ν)}

/-- **The locked deque is linearizable.** Threads that add only nodes in no list, and take out by
`rwdtq_del` only members, when every call is made whole, see such a history under every schedule. -/
theorem rwdtq_linearizable (m : Dtq Unit ν) (sched : List ι) {fuel : ℕ} (hf : sched.length + 1 < fuel)
    (hrules : KeepsRules (RwdtqOp.code fuel) client rwdtqType) :
    Post ((Threads.start (rwdtqInit m)).run (RwdtqOp.code fuel) client sched) fun s =>
      ∃ q, Linearized (RwdtqOp.code fuel) client rwdtqType RwdtqRep s q :=
  linearizable (rwdtq_implements fuel) hrules (rwdtqRep_init m) hf

/-- Each of two threads adds its own node, looks whether it is the end, and takes a node out. -/
def ownClient (i : Bool) : List (RwdtqOp Bool × Option (RwRet (DtqCell Bool))) → Option (RwdtqOp Bool)
  | [] => some (.addTail i)
  | [_] => some (.isEnd (some (.node i)))
  | [_, _] => some .delTail
  | _ => none

theorem ownClient_cases {i : Bool} {past : List (RwdtqOp Bool × Option (RwRet (DtqCell Bool)))}
    {c : RwdtqOp Bool} (h : ownClient i past = some c) :
    past = [] ∧ c = .addTail i ∨ past ≠ [] ∧ (c = .isEnd (some (.node i)) ∨ c = .delTail) := by
  unfold ownClient at h
  split at h
  · cases h
    exact .inl ⟨rfl, rfl⟩
  · cases h
    exact .inr ⟨by simp, .inl rfl⟩
  · cases h
    exact .inr ⟨by simp, .inr rfl⟩
  · cases h

/-- Only nodes of threads that have made a call are in the list. -/
theorem ownClient_history {fuel : ℕ} {log : List (Bool × RwdtqOp Bool × Option (RwRet (DtqCell Bool)))}
    {q : List Bool} (h : History (RwdtqOp.code fuel) ownClient rwdtqType log q) :
    ∀ n ∈ q, callsOf n log ≠ [] := by
  have hgrows : ∀ {log : List (Bool × RwdtqOp Bool × Option (RwRet (DtqCell Bool)))} {n i e},
      callsOf n log ≠ [] → callsOf n (log ++ [(i, e)]) ≠ [] := by
    intro log n i e hlog
    rw [callsOf, List.filterMap_append]
    exact List.append_ne_nil_of_left_ne_nil hlog _
  induction h with
  | init => exact fun n hn => absurd hn List.not_mem_nil
  | @call log q i c h hc ih =>
    intro n hn
    rcases ownClient_cases hc with ⟨-, rfl⟩ | ⟨-, rfl | rfl⟩
    · rcases List.mem_append.mp hn with hn | hn
      · exact hgrows (ih n hn)
      · obtain rfl := List.mem_singleton.mp hn
        rw [callsOf_concat_self]
        simp
    · exact hgrows (ih n hn)
    · exact hgrows (ih n (List.dropLast_subset q hn))
  | @giveUp log q i c h hc hw ih =>
    rcases ownClient_cases hc with ⟨-, rfl⟩ | ⟨-, rfl | rfl⟩ <;> cases hw

theorem ownClient_keepsRules (fuel : ℕ) : KeepsRules (RwdtqOp.code fuel) ownClient rwdtqType := by
  intro log q i c hlog hc
  rcases ownClient_cases hc with ⟨hpast, rfl⟩ | ⟨-, rfl | rfl⟩
  · exact fun hi => ownClient_history hlog i hi hpast
  · trivial
  · trivial

theorem rwdtq_linearizable_own :
    Post ((Threads.start (rwdtqInit ⟨fun _ => none, fun _ => none⟩)).run (RwdtqOp.code 9) ownClient
      [true, false, true, true, false]) fun s =>
        ∃ q, Linearized (RwdtqOp.code 9) ownClient rwdtqType RwdtqRep s q :=
  rwdtq_linearizable _ [true, false, true, true, false] (by decide) (ownClient_keepsRules 9)

end CcUtils.Lists
