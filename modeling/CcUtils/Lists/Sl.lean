import CcUtils.Lists.Stq

/-!
# The singly linked list of `list.h`

`sl_list`: singly linked lists that end in NULL, without the tail pointer of `stq_list`. What the two
families share they do with the same stores to the links, so a tail queue whose cached pointers are
forgotten is such a list, and the refinement of the tail queue carries over.

## What is proved

* `SlOp.exec_chain` — a call on a list is the call on a tail queue, its cached pointers forgotten.
* `slStep_refines` — one call does what it says to the lists as sequences.
* `sl_refines` — so does every sequence of calls, and the walks give the sequences.
-/

namespace CcUtils.Lists

open CcUtils.Lib

variable {κ ν : Type} [DecidableEq κ] [DecidableEq ν]

/-! ### The functions -/

/-- The fields of all headers and nodes; the `next` of a header is its `first`. -/
structure Sl (κ ν : Type) where
  next : Cell κ ν → Option ν

/-- A store to a `next` or `first`. -/
def Sl.setNext (m : Sl κ ν) (a : Cell κ ν) (v : Option ν) : Sl κ ν := ⟨Function.update m.next a v⟩

/-- `sl_init`. -/
def slInit (m : Sl κ ν) (list : κ) : Sl κ ν := m.setNext (.head list) none

/-- `sl_init_node`. -/
def slInitNode (m : Sl κ ν) (node : ν) : Sl κ ν := m.setNext (.node node) none

/-- `sl_is_empty`. -/
def slIsEmpty (m : Sl κ ν) (list : κ) : Bool := m.next (.head list) = none

/-- `sl_first`. -/
def slFirst (m : Sl κ ν) (list : κ) : Option ν := m.next (.head list)

/-- `sl_next`. -/
def slNext (m : Sl κ ν) (node : ν) : Option ν := m.next (.node node)

/-- `sl_add_head`. -/
def slAddHead (m : Sl κ ν) (list : κ) (node : ν) : Sl κ ν :=
  let m := m.setNext (.node node) (m.next (.head list))
  m.setNext (.head list) (some node)

/-- `sl_del_head`. -/
def slDelHead (m : Sl κ ν) (list : κ) : Sl κ ν × Option ν :=
  let node := m.next (.head list)
  let m := match node with
    | some n => m.setNext (.head list) (m.next (.node n))
    | none => m
  (m, node)

/-- `sl_add_after`. -/
def slAddAfter (m : Sl κ ν) (list : κ) (prev : Option ν) (insert : ν) : Sl κ ν :=
  match prev with
  | none => slAddHead m list insert
  | some prev =>
    let m := m.setNext (.node insert) (m.next (.node prev))
    m.setNext (.node prev) (some insert)

/-- `sl_del_after`. -/
def slDelAfter (m : Sl κ ν) (list : κ) (prev : Option ν) : Sl κ ν × Option ν :=
  match prev with
  | none => slDelHead m list
  | some prev =>
    let node := m.next (.node prev)
    let m := match node with
      | some n => m.setNext (.node prev) (m.next (.node n))
      | none => m
    (m, node)

/-- The loop of `sl_del`. -/
def slDelLoop (m : Sl κ ν) (list : κ) (node : ν) : ℕ → Option ν → Option ν → Exec (Sl κ ν)
  | 0, _, _ => .error .outOfFuel
  | _ + 1, none, _ => .ok m
  | fuel + 1, some cur, prev =>
    if cur = node then .ok (slDelAfter m list prev).1
    else slDelLoop m list node fuel (slNext m cur) (some cur)

/-- `sl_del`. -/
def slDel (fuel : ℕ) (m : Sl κ ν) (list : κ) (node : ν) : Exec (Sl κ ν) :=
  slDelLoop m list node fuel (slFirst m list) none

/-- `SL_FOREACH_PREVPTR` with an empty body: the last value of `prev`. -/
def slPrevLoop (m : Sl κ ν) : ℕ → Option ν → Option ν → Exec (Option ν)
  | 0, _, _ => .error .outOfFuel
  | _ + 1, none, prev => .ok prev
  | fuel + 1, some node, _ => slPrevLoop m fuel (slNext m node) (some node)

/-- `sl_append`. -/
def slAppend (fuel : ℕ) (m : Sl κ ν) (destList srcList : κ) : Exec (Sl κ ν) :=
  if slIsEmpty m srcList then .ok m
  else do
    let prev ← slPrevLoop m fuel (slFirst m destList) none
    match prev with
    | none => return slInit (m.setNext (.head destList) (slFirst m srcList)) srcList
    | some prev => return slInit (m.setNext (.node prev) (slFirst m srcList)) srcList

/-- The loop of `sl_free_all`; the nodes given to the callback, which leaves `freed n` in the `next`
of the node `n`. -/
def slFreeLoop (freed : ν → Option ν) : ℕ → Sl κ ν → Option ν → Exec (Sl κ ν × List ν)
  | 0, _, _ => .error .outOfFuel
  | _ + 1, m, none => .ok (m, [])
  | fuel + 1, m, some node => do
    let next := slNext m node
    let (m, nodes) ← slFreeLoop freed fuel (m.setNext (.node node) (freed node)) next
    return (m, node :: nodes)

/-- `sl_free_all`. -/
def slFreeAll (freed : ν → Option ν) (fuel : ℕ) (m : Sl κ ν) (list : κ) :
    Exec (Sl κ ν × List ν) := do
  let (m, nodes) ← slFreeLoop freed fuel m (slFirst m list)
  return (slInit m list, nodes)

/-- `SL_FOREACH`: the nodes it visits from `node` on. -/
def slForeach (m : Sl κ ν) : ℕ → Option ν → Exec (List ν)
  | 0, _ => .error .outOfFuel
  | _ + 1, none => .ok []
  | fuel + 1, some node => do
    let nodes ← slForeach m fuel (slNext m node)
    return node :: nodes

/-! ### The tail queue without its tail -/

/-- The links of a tail queue. -/
def Stq.chain (m : Stq κ ν) : Sl κ ν := ⟨m.next⟩

variable (m : Stq κ ν) (l d s : κ) (n : ν) (p : Option ν)

@[simp] theorem slNext_chain {κ ν : Type} (m : Stq κ ν) (n : ν) : slNext m.chain n = stqNext m n := rfl

@[simp] theorem slFirst_chain {κ ν : Type} (m : Stq κ ν) (l : κ) : slFirst m.chain l = stqFirst m l := rfl

theorem slAddHead_chain : slAddHead m.chain l n = (stqAddHead m l n).chain := by
  unfold stqAddHead
  simp only
  split <;> rfl

theorem slAddAfter_chain : slAddAfter m.chain l p n = (stqAddAfter m l p n).chain := by
  cases p with
  | none => exact slAddHead_chain m l n
  | some p =>
    unfold stqAddAfter
    simp only
    split <;> rfl

theorem slDelHead_chain :
    slDelHead m.chain l = ((stqDelHead m l).1.chain, (stqDelHead m l).2) := by
  unfold slDelHead stqDelHead Stq.chain
  cases hfirst : m.next (.head l) with
  | none => simp only [hfirst, if_true]; rfl
  | some n =>
    simp only [hfirst]
    split <;> rfl

theorem slDelAfter_chain :
    slDelAfter m.chain l p = ((stqDelAfter m l p).1.chain, (stqDelAfter m l p).2) := by
  cases p with
  | none => exact slDelHead_chain m l
  | some p =>
    unfold slDelAfter stqDelAfter Stq.chain
    cases hnext : m.next (.node p) with
    | none =>
      simp only [hnext]
      split <;> rfl
    | some n =>
      simp only [hnext]
      split <;> rfl

theorem slDelLoop_chain (fuel : ℕ) (cur : Option ν) :
    slDelLoop m.chain l n fuel cur p = (stqDelLoop m l n fuel cur p).map Stq.chain := by
  induction fuel generalizing cur p with
  | zero => rfl
  | succ fuel ih =>
    cases cur with
    | none => rfl
    | some c =>
      rw [slDelLoop, stqDelLoop, slDelAfter_chain, slNext_chain, ih]
      split <;> rfl

theorem slPrevLoop_chain {κ ν : Type} (m : Stq κ ν) (p : Option ν) (fuel : ℕ) (cur : Option ν) :
    slPrevLoop m.chain fuel cur p = stqPrevLoop m fuel cur p := by
  induction fuel generalizing cur p with
  | zero => rfl
  | succ fuel ih =>
    cases cur with
    | none => rfl
    | some c => exact ih (some c) (stqNext m c)

theorem slAppend_chain (fuel : ℕ) :
    slAppend fuel m.chain d s = (stqAppend fuel m d s).map Stq.chain := by
  have hempty : slIsEmpty m.chain s = stqIsEmpty m s := rfl
  rw [slAppend, stqAppend, hempty, slPrevLoop_chain, slFirst_chain]
  by_cases hs : stqIsEmpty m s = true
  · rw [if_pos hs, if_pos hs]
    rfl
  · rw [if_neg hs, if_neg hs]
    cases stqPrevLoop m fuel (stqFirst m d) none with
    | error e => rfl
    | ok prev => cases prev <;> rfl

theorem slFreeLoop_chain (freed : ν → Option ν) (fuel : ℕ) (cur : Option ν) :
    slFreeLoop freed fuel m.chain cur =
      (stqFreeLoop freed fuel m cur).map fun u => (u.1.chain, u.2) := by
  induction fuel generalizing m cur with
  | zero => rfl
  | succ fuel ih =>
    cases cur with
    | none => rfl
    | some c =>
      have hset : m.chain.setNext (.node c) (freed c) =
          (m.setNext (.node c) (freed c)).chain := rfl
      simp only [slFreeLoop, stqFreeLoop, slNext_chain, hset, ih]
      cases stqFreeLoop freed fuel (m.setNext (.node c) (freed c)) (stqNext m c) <;> rfl

theorem slFreeAll_chain (freed : ν → Option ν) (fuel : ℕ) :
    slFreeAll freed fuel m.chain l = (stqFreeAll freed fuel m l).map fun u => (u.1.chain, u.2) := by
  rw [slFreeAll, stqFreeAll, slFirst_chain, slFreeLoop_chain]
  cases stqFreeLoop freed fuel m (stqFirst m l) <;> rfl

theorem slForeach_chain {κ ν : Type} (m : Stq κ ν) (fuel : ℕ) (cur : Option ν) :
    slForeach m.chain fuel cur = stqForeach m fuel cur := by
  induction fuel generalizing cur with
  | zero => rfl
  | succ fuel ih =>
    cases cur with
    | none => rfl
    | some c => rw [slForeach, stqForeach, slNext_chain, ih]

/-! ### Sequences of calls -/

/-- A call of one of the functions. -/
inductive SlOp (κ ν : Type) where
  | init (list : κ)
  | initNode (node : ν)
  | addHead (list : κ) (node : ν)
  | delHead (list : κ)
  | addAfter (list : κ) (prev : Option ν) (insert : ν)
  | delAfter (list : κ) (prev : Option ν)
  | del (list : κ) (node : ν)
  | append (destList srcList : κ)
  | freeAll (list : κ) (freed : ν → Option ν)

/-- The call in memory, with what it gives its caller. -/
def SlOp.exec (fuel : ℕ) (m : Sl κ ν) : SlOp κ ν → Exec (Sl κ ν × StqRet ν)
  | .init l => .ok (slInit m l, .unit)
  | .initNode n => .ok (slInitNode m n, .unit)
  | .addHead l n => .ok (slAddHead m l n, .unit)
  | .delHead l => .ok ((slDelHead m l).1, .node (slDelHead m l).2)
  | .addAfter l p n => .ok (slAddAfter m l p n, .unit)
  | .delAfter l p => .ok ((slDelAfter m l p).1, .node (slDelAfter m l p).2)
  | .del l n => do
    let m ← slDel fuel m l n
    return (m, .unit)
  | .append d s => do
    let m ← slAppend fuel m d s
    return (m, .unit)
  | .freeAll l freed => do
    let (m, nodes) ← slFreeAll freed fuel m l
    return (m, .freed nodes)

/-- The call on a tail queue. -/
def SlOp.stq : SlOp κ ν → Option (StqOp κ ν)
  | .init l => some (.init l)
  | .initNode _ => none
  | .addHead l n => some (.addHead l n)
  | .delHead l => some (.delHead l)
  | .addAfter l p n => some (.addAfter l p n)
  | .delAfter l p => some (.delAfter l p)
  | .del l n => some (.del l n)
  | .append d s => some (.append d s)
  | .freeAll l freed => some (.freeAll l freed)

/-- What the call is for: the sequences after it. -/
def SlOp.seqs (F : Family κ ν) (op : SlOp κ ν) : Family κ ν := op.stq.elim F (·.seqs F)

/-- What the call is for: its result. -/
def SlOp.ret (F : Family κ ν) (op : SlOp κ ν) : StqRet ν := op.stq.elim .unit (·.ret F)

/-- The call keeps to the rules: those of the tail queue; only a node in no list is cleared. -/
def SlOp.Allowed (F : Family κ ν) (op : SlOp κ ν) : Prop :=
  op.stq.elim (∀ n, op = .initNode n → F.Free n) (·.Allowed F)

/-- The calls one after the other, with what they return. -/
def slRun (fuel : ℕ) : Sl κ ν → List (SlOp κ ν) → Exec (Sl κ ν × List (StqRet ν))
  | m, [] => .ok (m, [])
  | m, op :: ops => do
    let (m, ret) ← op.exec fuel m
    let (m, rets) ← slRun fuel m ops
    return (m, ret :: rets)

/-- The sequences after the calls. -/
def slSeqs : Family κ ν → List (SlOp κ ν) → Family κ ν
  | F, [] => F
  | F, op :: ops => slSeqs (op.seqs F) ops

/-- What the calls return. -/
def slRets : Family κ ν → List (SlOp κ ν) → List (StqRet ν)
  | _, [] => []
  | F, op :: ops => op.ret F :: slRets (op.seqs F) ops

/-- All calls keep to the rules. -/
def SlAllowed : Family κ ν → List (SlOp κ ν) → Prop
  | _, [] => True
  | F, op :: ops => op.Allowed F ∧ SlAllowed (op.seqs F) ops

/-- **A call on a list is the call on a tail queue**, whatever its cached pointers are. -/
theorem SlOp.exec_chain {op : SlOp κ ν} {o : StqOp κ ν} (ho : op.stq = some o) (fuel : ℕ) :
    op.exec fuel m.chain = (o.exec fuel m).map fun u => (u.1.chain, u.2) := by
  cases op with
  | init l =>
    cases ho
    rfl
  | initNode n => cases ho
  | addHead l n =>
    cases ho
    rw [SlOp.exec, slAddHead_chain]
    rfl
  | delHead l =>
    cases ho
    rw [SlOp.exec, slDelHead_chain]
    rfl
  | addAfter l p n =>
    cases ho
    rw [SlOp.exec, slAddAfter_chain]
    rfl
  | delAfter l p =>
    cases ho
    rw [SlOp.exec, slDelAfter_chain]
    rfl
  | del l n =>
    cases ho
    rw [SlOp.exec, StqOp.exec, slDel, stqDel, slFirst_chain, slDelLoop_chain]
    cases stqDelLoop m l n fuel (stqFirst m l) none <;> rfl
  | append d s =>
    cases ho
    rw [SlOp.exec, StqOp.exec, slAppend_chain]
    cases stqAppend fuel m d s <;> rfl
  | freeAll l freed =>
    cases ho
    rw [SlOp.exec, StqOp.exec, slFreeAll_chain]
    cases stqFreeAll freed fuel m l <;> rfl

/-! ### The lists in memory -/

/-- The memory holds the lists. -/
structure Sl.Rep (m : Sl κ ν) (F : Family κ ν) : Prop where
  separate : F.Separate
  next : F.Linked some m.next fun _ => none

variable {m l d s n p} {F : Family κ ν} {u : Sl κ ν}

/-- A tail queue with the same links, its cached pointers those of the lists. -/
theorem Sl.Rep.exists_stq {κ ν : Type} {F : Family κ ν} {u : Sl κ ν}
    (h : u.Rep F) : ∃ m : Stq κ ν, m.chain = u ∧ m.Rep F := by
  refine ⟨⟨u.next, fun l => (F l).bind List.getLast?⟩, rfl, h.separate, h.next, fun l q hl => ?_⟩
  change (F l).bind List.getLast? = q.getLast?
  rw [hl]
  rfl

theorem Stq.Rep.chain {κ ν : Type} {m : Stq κ ν} {F : Family κ ν}
    (h : m.Rep F) : m.chain.Rep F := ⟨h.separate, h.next⟩

/-- `sl_init_node` of a node in no list. -/
theorem Sl.Rep.initNode (h : u.Rep F) (hn : F.Free n) : (slInitNode u n).Rep F where
  separate := h.separate
  next := h.next.congr fun _ _ hl _ hx => Function.update_of_ne (hn.ne_cell hl hx) ..

/-- One call does what it is for, if it has fuel enough for its walk. -/
theorem slStep_refines {op : SlOp κ ν} (h : u.Rep F) (hop : op.Allowed F) :
    ∃ u' N, (∀ fuel, N ≤ fuel → op.exec fuel u = .ok (u', op.ret F)) ∧ u'.Rep (op.seqs F) := by
  unfold SlOp.Allowed at hop
  unfold SlOp.seqs SlOp.ret
  cases ho : op.stq with
  | none =>
    rw [ho] at hop
    cases op with
    | initNode n => exact ⟨_, 0, fun _ _ => rfl, h.initNode (hop n rfl)⟩
    | _ => cases ho
  | some o =>
    rw [ho] at hop
    obtain ⟨m, rfl, hm⟩ := h.exists_stq
    obtain ⟨m', N, hrun, hrep⟩ := stqStep_refines hm hop
    refine ⟨m'.chain, N, fun fuel hf => ?_, hrep.chain⟩
    rw [SlOp.exec_chain m ho, hrun fuel hf]
    rfl

/-- A whole run, by induction on its calls. -/
theorem slRun_refines {ops : List (SlOp κ ν)} (h : u.Rep F) (hops : SlAllowed F ops) :
    ∃ u' N, (∀ fuel, N ≤ fuel → slRun fuel u ops = .ok (u', slRets F ops)) ∧
      u'.Rep (slSeqs F ops) := by
  induction ops generalizing u F with
  | nil => exact ⟨u, 0, fun _ _ => rfl, h⟩
  | cons op ops ih =>
    obtain ⟨u₁, N₁, hstep, h₁⟩ := slStep_refines h hops.1
    obtain ⟨u₂, N₂, hrun, h₂⟩ := ih h₁ hops.2
    refine ⟨u₂, max N₁ N₂, fun fuel hf => ?_, h₂⟩
    rw [slRun, hstep fuel (le_trans (le_max_left ..) hf), ok_bind]
    simp only [hrun fuel (le_trans (le_max_right ..) hf)]
    rfl

/-- No list has been made, whatever the memory holds. -/
theorem Sl.rep_none {κ ν : Type} (u : Sl κ ν) : u.Rep fun _ => none where
  separate := ⟨nofun, nofun⟩
  next := nofun

/-- Every sequence of calls that keeps to the rules returns what the sequences say, and then the walk
over each list gives its sequence. -/
theorem sl_refines (u : Sl κ ν) {ops : List (SlOp κ ν)} (hops : SlAllowed (fun _ => none) ops) :
    ∃ u' N, (∀ fuel, N ≤ fuel → slRun fuel u ops = .ok (u', slRets (fun _ => none) ops)) ∧
      ∀ l q, slSeqs (fun _ => none) ops l = some q →
        ∀ fuel, q.length < fuel → slForeach u' fuel (slFirst u' l) = .ok q := by
  obtain ⟨u', N, hrun, h⟩ := slRun_refines u.rep_none hops
  refine ⟨u', N, hrun, fun l q hl fuel hf => ?_⟩
  obtain ⟨m, rfl, hm⟩ := h.exists_stq
  rw [slForeach_chain]
  exact stqForeach_follows (hm.next l q hl) hf

/-- Calls on two lists. -/
def someSlOps : List (SlOp Bool ℕ) :=
  [.init true, .init false, .addHead true 1, .initNode 2, .addAfter true (some 1) 2,
    .addHead false 3, .append true false, .delAfter true (some 2), .del true 9, .delHead true]

theorem someSlOps_allowed : SlAllowed (fun _ => none) someSlOps := by
  refine ⟨trivial, trivial, ⟨rfl, Family.free_iff.mpr (by decide)⟩, ?_,
    ⟨rfl, Family.free_iff.mpr (by decide), by decide⟩, ⟨rfl, Family.free_iff.mpr (by decide)⟩,
    ⟨rfl, rfl, by decide⟩, ⟨rfl, by decide⟩, rfl, rfl, trivial⟩
  rintro _ ⟨⟩
  exact Family.free_iff.mpr (by decide)

theorem sl_refines_some :
    ∃ u' N, (∀ fuel, N ≤ fuel → slRun fuel ⟨fun _ => some 7⟩ someSlOps =
        .ok (u', slRets (fun _ => none) someSlOps)) ∧
      ∀ l q, slSeqs (fun _ => none) someSlOps l = some q →
        ∀ fuel, q.length < fuel → slForeach u' fuel (slFirst u' l) = .ok q :=
  sl_refines ⟨fun _ => some 7⟩ someSlOps_allowed

end CcUtils.Lists
