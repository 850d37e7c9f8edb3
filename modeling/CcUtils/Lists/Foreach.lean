import CcUtils.Lib.SafeLoop
import CcUtils.Lists.Dtq

/-!
# Changing a deque while walking over it

`DTQ_FOREACH_SAFE` and `DTQ_FOREACH_REVERSE_SAFE` fetch the node after the current one before the body runs.
So a body of calls may do anything to the lists but change what comes after its node; `dtq_free_all` is such
a loop with a body that gives the node back to the allocator, after which its fields may hold anything.

## What is proved

* `Dtq.Rep.forward`, `Dtq.Rep.backward` — each of the two loops runs its body for the members of the list as
  it was at the beginning, once each and in order.
* `Dtq.Rep.freeAll` — the callback gets each member once and in order, and the list is empty then.
* `dtqProgram_refines` — every program of calls, loops and `dtq_free_all` does what it says to the lists as
  sequences.
* `Dtq.Rep.sortOut` — the nodes with a property, moved to the end of another list in either direction.
-/

namespace CcUtils.Lists

open CcUtils.Lib

variable {κ ν : Type} [DecidableEq κ] [DecidableEq ν]

/-! ### The loops -/

/-- `DTQ_FOREACH_SAFE` at `node`: the node, with `nextNode`. -/
def dtqAhead (list : κ) (m : Dtq κ ν) (node : Option (Cell κ ν)) :
    Exec (Option (Cell κ ν × Option (Cell κ ν))) :=
  if node = some (.head list) then .ok none
  else do
    let a ← dtqAt node
    return some (a, m.next a)

/-- `DTQ_FOREACH_REVERSE_SAFE` at `node`: the node, with `prev`. -/
def dtqBehind (list : κ) (m : Dtq κ ν) (node : Option (Cell κ ν)) :
    Exec (Option (Cell κ ν × Option (Cell κ ν))) :=
  if dtqIsEnd m list node then .ok none
  else do
    let a ← dtqAt node
    return some (a, m.prev a)

/-- The body of a loop, given as the calls it makes for a node; with the node and what they return. -/
def dtqBody (body : Cell κ ν → List (DtqOp κ ν)) (a : Cell κ ν) (m : Dtq κ ν) :
    Exec (Dtq κ ν × Cell κ ν × List (DtqRet κ ν)) := do
  let (m, rets) ← dtqRun m (body a)
  return (m, a, rets)

/-- `DTQ_FOREACH_SAFE`. -/
def dtqForeachSafe (body : Cell κ ν → List (DtqOp κ ν)) (fuel : ℕ) (m : Dtq κ ν) (list : κ) :
    Exec (Dtq κ ν × List (Cell κ ν × List (DtqRet κ ν))) :=
  safeLoop (dtqAhead list) (dtqBody body) fuel m (m.next (.head list))

/-- `DTQ_FOREACH_REVERSE_SAFE`. -/
def dtqForeachReverseSafe (body : Cell κ ν → List (DtqOp κ ν)) (fuel : ℕ) (m : Dtq κ ν) (list : κ) :
    Exec (Dtq κ ν × List (Cell κ ν × List (DtqRet κ ν))) :=
  safeLoop (dtqBehind list) (dtqBody body) fuel m (dtqLast m list)

/-- The callback of `dtq_free_all`, which leaves `freed a` in the fields of `a`. -/
def dtqFreeNode (freed : Cell κ ν → Option (Cell κ ν) × Option (Cell κ ν)) (a : Cell κ ν)
    (m : Dtq κ ν) : Exec (Dtq κ ν × Cell κ ν) :=
  .ok ((m.setPrev a (freed a).1).setNext a (freed a).2, a)

/-- `dtq_free_all`, with the nodes given to the callback. -/
def dtqFreeAll (freed : Cell κ ν → Option (Cell κ ν) × Option (Cell κ ν)) (fuel : ℕ) (m : Dtq κ ν)
    (list : κ) : Exec (Dtq κ ν × List (Cell κ ν)) := do
  let (m, cells) ← safeLoop (dtqAhead list) (dtqFreeNode freed) fuel m (m.next (.head list))
  return (dtqInit m list, cells)

/-! ### What they are for -/

/-- The sequences after the body has run for the node. -/
def dtqEach (body : Cell κ ν → List (DtqOp κ ν)) (A : Tracked κ ν) (a : Cell κ ν) : Tracked κ ν :=
  dtqSeqs A (body a)

/-- What the body gives for the node. -/
def dtqEachRets (body : Cell κ ν → List (DtqOp κ ν)) (A : Tracked κ ν) (a : Cell κ ν) :
    Cell κ ν × List (DtqRet κ ν) := (a, dtqRets A (body a))

/-- For each of the nodes the body keeps to the rules, and leaves what comes after the node as it is. The
lists are read in the direction of the loop. -/
def SparesRest (view : Family κ ν → Family κ ν) (l : κ) (body : Cell κ ν → List (DtqOp κ ν)) :
    Tracked κ ν → List ν → Prop
  | _, [] => True
  | A, n :: todo => DtqAllowed A (body (.node n)) ∧
      (∃ done, view (dtqEach body A (.node n)).lists l = some (done ++ todo)) ∧
        SparesRest view l body (dtqEach body A (.node n)) todo

variable {m m' : Dtq κ ν} {A : Tracked κ ν} {l d : κ} {q r todo : List ν} {n : ν}
  {body : Cell κ ν → List (DtqOp κ ν)} {p : Option (Cell κ ν)}

theorem lastCell_reverse_cons {κ ν : Type} (a : Cell κ ν) (n : ν) (q : List ν) :
    lastCell a (n :: q).reverse = .node n := by
  rw [List.reverse_cons, lastCell_append]
  rfl

/-! ### Forward -/

/-- Before a turn of the forward loop: the list ends with the nodes still to come, and `node` is the first
of them, or the header. -/
structure Ahead (l : κ) (body : Cell κ ν → List (DtqOp κ ν)) (A : Tracked κ ν) (todo : List ν)
    (m : Dtq κ ν) (p : Option (Cell κ ν)) : Prop where
  rep : m.Rep A
  list : ∃ done, A.lists l = some (done ++ todo)
  spares : SparesRest id l body A todo
  node : p = some (lastCell (.head l) todo.reverse)

theorem Ahead.peek_nil (h : Ahead l body A [] m p) : dtqAhead l m p = .ok none := by
  rw [h.node]
  exact if_pos rfl

theorem dtqAhead_node (l : κ) (m : Dtq κ ν) (n : ν) :
    dtqAhead l m (some (.node n)) = .ok (some (.node n, m.next (.node n))) := by
  have hne : (some (.node n) : Option (Cell κ ν)) ≠ some (.head l) := by simp
  rw [dtqAhead, if_neg hne]
  rfl

/-- The node after another is the first of those that come after it. -/
theorem Dtq.Rep.next_node {κ ν : Type} {m : Dtq κ ν} {A : Tracked κ ν} {l : κ} {todo : List ν} {n : ν}
    (h : m.Rep A) {done : List ν} (hl : A.lists l = some (done ++ n :: todo)) :
    m.next (.node n) = some (lastCell (.head l) todo.reverse) := by
  have hl1 : A.lists l = some ((done ++ [n]) ++ todo) := by rwa [List.append_assoc]
  have hnext := h.next_eq hl1
  rwa [lastCell_append] at hnext

/-- The body, run for the node. -/
theorem Dtq.Rep.runBody (h : m.Rep A) (hops : DtqAllowed A (body (.node n))) :
    Post (dtqBody body (.node n) m) fun u =>
      u.2 = dtqEachRets body A (.node n) ∧ u.1.Rep (dtqEach body A (.node n)) := by
  refine (dtqRun_refines h hops).bind fun u hu => Post.pure ⟨?_, hu.2⟩
  exact congrArg (Prod.mk (Cell.node n)) hu.1

theorem Ahead.turn (h : Ahead l body A (n :: todo) m p) :
    ∃ next m', dtqAhead l m p = .ok (some (.node n, next)) ∧
      Yields (fun _ => dtqBody body (.node n) m) (m', dtqEachRets body A (.node n)) ∧
        Ahead l body (dtqEach body A (.node n)) todo m' next := by
  obtain ⟨done, hl⟩ := h.list
  obtain ⟨hops, hlist, hspares⟩ := h.spares
  obtain ⟨⟨m', ret⟩, hrun, rfl, hrep⟩ := h.rep.runBody hops
  refine ⟨_, m', ?_, ⟨0, fun _ _ => hrun⟩, hrep, hlist, hspares, rfl⟩
  rw [h.node, lastCell_reverse_cons, dtqAhead_node, h.rep.next_node hl]

/-- **The forward loop** runs its body for the members of the list as it was at the beginning. -/
theorem Dtq.Rep.forward (h : m.Rep A) (hl : A.lists l = some q) (hbody : SparesRest id l body A q) :
    ∃ m', Yields (fun fuel => dtqForeachSafe body fuel m l)
        (m', scan (dtqEach body) (dtqEachRets body) A (q.map .node)) ∧
      m'.Rep ((q.map .node).foldl (dtqEach body) A) := by
  have hstart : Ahead l body A q m (m.next (.head l)) :=
    ⟨h, ⟨[], hl⟩, hbody, h.next_eq (q := []) hl⟩
  obtain ⟨m', p', hrun, hend⟩ := safeLoop_yields (dtqAhead l) (fun _ => dtqBody body)
    (dtqEach body) (dtqEachRets body) Cell.node (Ahead l body) Ahead.peek_nil Ahead.turn hstart
  exact ⟨m', hrun, hend.rep⟩

/-! ### Backward -/

/-- Before a turn of the backward loop: the same from the end of the list. At the beginning an empty list
gives NULL. -/
structure Behind (l : κ) (body : Cell κ ν → List (DtqOp κ ν)) (A : Tracked κ ν) (todo : List ν)
    (m : Dtq κ ν) (p : Option (Cell κ ν)) : Prop where
  rep : m.Rep A
  list : ∃ done, A.lists.mirror l = some (done ++ todo)
  spares : SparesRest Family.mirror l body A todo
  node : p = some (lastCell (.head l) todo.reverse) ∨ todo = [] ∧ p = none

theorem Behind.peek_nil (h : Behind l body A [] m p) : dtqBehind l m p = .ok none := by
  obtain ⟨done, hl⟩ := h.list
  have hend : dtqIsEnd m l p = true := by
    rw [h.rep.isEnd (Family.mirror_eq_some.mp hl), decide_eq_true_iff]
    rcases h.node with hp | ⟨-, hp⟩
    · exact .inr (.inr hp)
    · exact .inr (.inl hp)
  rw [dtqBehind, hend, if_pos rfl]

/-- At a node, `prev` is the last of those before it. -/
theorem Dtq.Rep.peek_behind (h : m.Rep A) (hl : A.lists l = some (q ++ n :: r)) :
    dtqBehind l m (some (.node n)) = .ok (some (.node n, some (lastCell (.head l) q))) := by
  have hprev := h.prev_eq hl
  rw [lastCell_reverse_cons] at hprev
  have hend : dtqIsEnd m l (some (.node n)) = false := by
    rw [h.isEnd hl]
    simp
  rw [dtqBehind, hend, if_neg Bool.false_ne_true, dtqAt_some, ok_bind]
  exact congrArg (fun v => Except.ok (some (Cell.node n, v))) hprev

theorem Behind.turn (h : Behind l body A (n :: todo) m p) :
    ∃ next m', dtqBehind l m p = .ok (some (.node n, next)) ∧
      Yields (fun _ => dtqBody body (.node n) m) (m', dtqEachRets body A (.node n)) ∧
        Behind l body (dtqEach body A (.node n)) todo m' next := by
  obtain ⟨done, hl⟩ := h.list
  obtain ⟨hops, hlist, hspares⟩ := h.spares
  obtain ⟨⟨m', ret⟩, hrun, rfl, hrep⟩ := h.rep.runBody hops
  have hl1 : A.lists l = some (todo.reverse ++ n :: done.reverse) := by
    rw [Family.mirror_eq_some.mp hl, List.reverse_append, List.reverse_cons, List.append_assoc]
    rfl
  have hp : p = some (.node n) := by
    rcases h.node with hp | ⟨hnil, -⟩
    · rw [hp, lastCell_reverse_cons]
    · cases hnil
  refine ⟨_, m', ?_, ⟨0, fun _ _ => hrun⟩, hrep, hlist, hspares, .inl rfl⟩
  rw [hp]
  exact h.rep.peek_behind hl1

/-- **The backward loop** runs its body for the members of the list as it was at the beginning, from the
last to the first. -/
theorem Dtq.Rep.backward (h : m.Rep A) (hl : A.lists l = some q)
    (hbody : SparesRest Family.mirror l body A q.reverse) :
    ∃ m', Yields (fun fuel => dtqForeachReverseSafe body fuel m l)
        (m', scan (dtqEach body) (dtqEachRets body) A (q.reverse.map .node)) ∧
      m'.Rep ((q.reverse.map .node).foldl (dtqEach body) A) := by
  have hstart : Behind l body A q.reverse m (dtqLast m l) := by
    refine ⟨h, ⟨[], Family.mirror_eq hl⟩, hbody, ?_⟩
    rw [h.last hl, List.reverse_reverse, lastCell_eq]
    rcases List.eq_nil_or_concat q with rfl | ⟨r, n, rfl⟩
    · exact .inr ⟨rfl, rfl⟩
    · left
      simp
  obtain ⟨m', p', hrun, hend⟩ := safeLoop_yields (dtqBehind l) (fun _ => dtqBody body)
    (dtqEach body) (dtqEachRets body) Cell.node (Behind l body) Behind.peek_nil Behind.turn hstart
  exact ⟨m', hrun, hend.rep⟩

/-! ### `dtq_free_all` -/

/-- Before a turn of the loop of `dtq_free_all` over the list `q` of the memory `m₀`: only nodes that the
callback has had are not as they were. -/
structure Freeing (l : κ) (q : List ν) (m₀ : Dtq κ ν) (todo : List ν) (m : Dtq κ ν)
    (p : Option (Cell κ ν)) : Prop where
  split : ∃ done, q = done ++ todo ∧ ∀ x, (∀ k ∈ done, x ≠ .node k) →
    m.next x = m₀.next x ∧ m.prev x = m₀.prev x
  node : p = some (lastCell (.head l) todo.reverse)

variable {freed : Cell κ ν → Option (Cell κ ν) × Option (Cell κ ν)}

theorem Freeing.peek_nil {m₀ : Dtq κ ν} (h : Freeing l q m₀ [] m p) : dtqAhead l m p = .ok none := by
  rw [h.node]
  exact if_pos rfl

theorem Freeing.turn {m₀ : Dtq κ ν} (h₀ : m₀.Rep A) (hl : A.lists l = some q)
    (h : Freeing l q m₀ (n :: todo) m p) :
    ∃ next m', dtqAhead l m p = .ok (some (.node n, next)) ∧
      dtqFreeNode freed (.node n) m = .ok (m', .node n) ∧ Freeing l q m₀ todo m' next := by
  obtain ⟨done, rfl, hsame⟩ := h.split
  have hnd : ∀ k ∈ done, (.node n : Cell κ ν) ≠ .node k := by
    intro k hk he
    cases he
    exact h₀.separate.notMem_before hl hk
  refine ⟨some (lastCell (.head l) todo.reverse), _, ?_, rfl, ⟨done ++ [n], ?_, ?_⟩, rfl⟩
  · rw [h.node, lastCell_reverse_cons, dtqAhead_node, (hsame _ hnd).1, h₀.next_node hl]
  · rw [List.append_assoc]
    rfl
  · intro x hx
    have hxn : x ≠ .node n := hx n (by simp)
    have hxd : ∀ k ∈ done, x ≠ .node k := fun k hk => hx k (List.mem_append_left _ hk)
    refine ⟨?_, ?_⟩
    · rw [Dtq.setNext_next, Function.update_of_ne hxn, Dtq.setPrev_next]
      exact (hsame x hxd).1
    · rw [Dtq.setNext_prev, Dtq.setPrev_prev, Function.update_of_ne hxn]
      exact (hsame x hxd).2

/-- The header of a list is made anew when its nodes hold anything. -/
theorem Dtq.Rep.forget (h : m.Rep A) (hl : A.lists l = some q)
    (hsame : ∀ x, (∀ k ∈ q, x ≠ .node k) → m'.next x = m.next x ∧ m'.prev x = m.prev x) :
    (dtqInit m' l).Rep ⟨A.lists.put l [], A.cleared⟩ := by
  -- the cells of another list are neither the header nor one of the nodes
  have hother : ∀ k r, k ≠ l → A.lists k = some r → ∀ x ∈ cellsOf (.head k) r,
      x ≠ .head l ∧ ∀ j ∈ q, x ≠ .node j := by
    intro k r hkl hk x hx
    refine ⟨h.separate.ne_cell hl hk hkl hx (List.mem_cons_self ..), fun j hj => ?_⟩
    exact h.separate.ne_cell hl hk hkl hx (mem_cellsOf.mpr (.inr ⟨j, hj, rfl⟩))
  refine ⟨h.separate.init l, ?_, ?_, fun k hk => ?_⟩
  · refine h.next.put (q := []) (Function.update_self ..) fun k r hkl hk x hx => ?_
    obtain ⟨hx0, hxq⟩ := hother k r hkl hk x hx
    rw [dtqInit_next, Function.update_of_ne hx0, (hsame x hxq).1]
  · rw [Family.mirror_put]
    refine h.prev.put (q := []) (Function.update_self ..) fun k r hkl hk x hx => ?_
    have hx' : x ∈ cellsOf (.head k) r.reverse := by
      simpa only [mem_cellsOf, List.mem_reverse] using hx
    obtain ⟨hx0, hxq⟩ := hother k r.reverse hkl (Family.mirror_eq_some.mp hk) x hx'
    rw [dtqInit_prev, Function.update_of_ne hx0, (hsame x hxq).2]
  · obtain ⟨hfree, hnext, hprev⟩ := h.cleared k hk
    have hk0 : (.node k : Cell κ ν) ≠ .head l := by simp
    have hkq : ∀ j ∈ q, (.node k : Cell κ ν) ≠ .node j := by
      intro j hj he
      cases he
      exact hfree l q hl hj
    refine ⟨hfree.put List.not_mem_nil l, ?_, ?_⟩
    · rw [dtqInit_next, Function.update_of_ne hk0, (hsame _ hkq).1, hnext]
    · rw [dtqInit_prev, Function.update_of_ne hk0, (hsame _ hkq).2, hprev]

/-- **`dtq_free_all`** gives each member to the callback, once and in order, whatever the callback leaves in
its fields. -/
theorem Dtq.Rep.freeAll (h : m.Rep A) (hl : A.lists l = some q)
    (freed : Cell κ ν → Option (Cell κ ν) × Option (Cell κ ν)) :
    ∃ m', (∀ fuel, q.length < fuel → dtqFreeAll freed fuel m l = .ok (m', q.map .node)) ∧
      m'.Rep ⟨A.lists.put l [], A.cleared⟩ := by
  have hstart : Freeing l q m q m (m.next (.head l)) :=
    ⟨⟨[], rfl, fun _ _ => ⟨rfl, rfl⟩⟩, h.next_eq (q := []) hl⟩
  obtain ⟨m', p', hrun, hend⟩ := safeLoop_each (dtqAhead l) (dtqFreeNode freed) Cell.node
    (Freeing l q m) Freeing.peek_nil (Freeing.turn h hl) hstart
  obtain ⟨done, hdone, hsame⟩ := hend.split
  rw [List.append_nil] at hdone
  subst hdone
  refine ⟨dtqInit m' l, fun fuel hf => ?_, h.forget hl hsame⟩
  rw [dtqFreeAll, hrun fuel hf]
  rfl

/-! ### Sorting nodes out -/

/-- The body that moves the nodes with the property to the end of the list `d`. -/
def moveOut (pick : ν → Bool) (d : κ) : Cell κ ν → List (DtqOp κ ν)
  | .head _ => []
  | .node n => if pick n then [.moveAndAddTail d n] else []

/-- The lists `q` in `l` and `r` in `d`, the others as in `F`. -/
structure SortedOut (F : Family κ ν) (l d : κ) (q r : List ν) (G : Family κ ν) : Prop where
  separate : G.Separate
  source : G l = some q
  dest : G d = some r
  others : ∀ k, k ≠ l → k ≠ d → G k = F k

variable {F : Family κ ν} {pick : ν → Bool}

/-- A node that stays. -/
theorem moveOut_stay (A : Tracked κ ν) (hn : pick n = false) :
    dtqEach (moveOut pick d) A (.node n) = A := by
  rw [dtqEach, moveOut, hn]
  rfl

/-- A node that goes. -/
theorem SortedOut.move (h : SortedOut F l d (q ++ n :: r) todo A.lists) (hld : l ≠ d)
    (hn : pick n = true) :
    SortedOut F l d (q ++ r) (todo ++ [n]) (dtqEach (moveOut pick d) A (.node n)).lists := by
  have hlists : (dtqEach (moveOut pick d) A (.node n)).lists =
      (A.lists.put l (q ++ r)).put d (todo ++ [n]) := by
    have hd : (A.lists.put l (q ++ r)).seq d = todo :=
      Family.seq_eq ((Family.put_of_ne A.lists hld.symm _).trans h.dest)
    rw [dtqEach, moveOut, hn, if_pos rfl]
    change (A.lists.edit (·.erase n)).put d ((A.lists.edit (·.erase n)).seq d ++ [n]) = _
    rw [h.separate.erase_eq h.source, hd]
  have hd : A.lists.put l (q ++ r) d = some (todo ++ []) := by
    rw [Family.put_of_ne _ hld.symm, h.dest, List.append_nil]
  rw [hlists]
  refine ⟨(h.separate.remove h.source).insert hd (h.separate.free_remove h.source), ?_, ?_, ?_⟩
  · rw [Family.put_of_ne _ hld, Family.put_self]
  · rw [Family.put_self]
  · intro k hkl hkd
    rw [Family.put_of_ne _ hkd, Family.put_of_ne _ hkl, h.others k hkl hkd]

/-- The calls of the body keep to the rules. -/
theorem SortedOut.allowed (h : SortedOut F l d (q ++ n :: r) todo A.lists) :
    DtqAllowed A (moveOut pick d (.node n)) := by
  rw [moveOut]
  split
  · refine ⟨⟨?_, .inl ⟨l, q, r, h.source⟩⟩, trivial⟩
    rw [Family.Made, h.dest]
    rfl
  · trivial

/-- The nodes sorted out forward, by induction on those still to come. -/
theorem SortedOut.forward {done : List ν} (h : SortedOut F l d (done ++ q) r A.lists) (hld : l ≠ d) :
    SparesRest id l (moveOut pick d) A q ∧
      SortedOut F l d (done ++ q.filter (!pick ·)) (r ++ q.filter pick)
        ((q.map .node).foldl (dtqEach (moveOut pick d)) A).lists := by
  induction q generalizing A done r with
  | nil =>
    rw [List.append_nil] at h
    rw [List.filter_nil, List.filter_nil, List.append_nil, List.append_nil]
    exact ⟨trivial, h⟩
  | cons n q ih =>
    cases hn : pick n with
    | true =>
      have hmove := h.move hld hn
      obtain ⟨hspares, hend⟩ := ih hmove
      refine ⟨⟨h.allowed, ⟨done, hmove.source⟩, hspares⟩, ?_⟩
      simpa only [List.map_cons, List.foldl_cons, List.filter_cons, hn, Bool.not_true,
        Bool.false_eq_true, if_false, if_true, List.append_assoc, List.singleton_append] using hend
    | false =>
      have hstay : SortedOut F l d ((done ++ [n]) ++ q) r A.lists := by
        rwa [List.append_assoc]
      obtain ⟨hspares, hend⟩ := ih hstay
      rw [SparesRest, List.map_cons, List.foldl_cons, moveOut_stay A hn]
      refine ⟨⟨h.allowed, ⟨done ++ [n], hstay.source⟩, hspares⟩, ?_⟩
      simpa only [List.filter_cons, hn, Bool.not_false, Bool.false_eq_true, if_false, if_true,
        List.append_assoc, List.singleton_append] using hend

/-- The nodes sorted out backward. -/
theorem SortedOut.backward {done : List ν} (h : SortedOut F l d (q.reverse ++ done) r A.lists)
    (hld : l ≠ d) :
    SparesRest Family.mirror l (moveOut pick d) A q ∧
      SortedOut F l d ((q.filter (!pick ·)).reverse ++ done) (r ++ q.filter pick)
        ((q.map .node).foldl (dtqEach (moveOut pick d)) A).lists := by
  induction q generalizing A done r with
  | nil =>
    rw [List.filter_nil, List.filter_nil, List.append_nil]
    exact ⟨trivial, h⟩
  | cons n q ih =>
    have h' : SortedOut F l d (q.reverse ++ n :: done) r A.lists := by
      rwa [List.reverse_cons, List.append_assoc] at h
    cases hn : pick n with
    | true =>
      have hmove := h'.move hld hn
      obtain ⟨hspares, hend⟩ := ih hmove
      refine ⟨⟨h'.allowed, ⟨done.reverse, ?_⟩, hspares⟩, ?_⟩
      · rw [Family.mirror_eq hmove.source, List.reverse_append, List.reverse_reverse]
      · simpa only [List.map_cons, List.foldl_cons, List.filter_cons, hn, Bool.not_true,
          Bool.false_eq_true, if_false, if_true, List.append_assoc, List.singleton_append] using hend
    | false =>
      obtain ⟨hspares, hend⟩ := ih h'
      rw [SparesRest, List.map_cons, List.foldl_cons, moveOut_stay A hn]
      refine ⟨⟨h'.allowed, ⟨(n :: done).reverse, ?_⟩, hspares⟩, ?_⟩
      · rw [Family.mirror_eq h'.source, List.reverse_append, List.reverse_reverse]
      · simpa only [List.filter_cons, hn, Bool.not_false, Bool.false_eq_true, if_false, if_true,
          List.reverse_cons, List.append_assoc, List.singleton_append] using hend

/-- **Sorting out**: the loop with `dtq_move_and_add_tail` for the nodes with a property leaves the others
in the list, in order, and appends these to the other list, in the order of the loop. -/
theorem Dtq.Rep.sortOut (h : m.Rep A) (hl : A.lists l = some q) (hd : A.lists d = some r) (hld : l ≠ d)
    (pick : ν → Bool) :
    (∃ m' turns B, Yields (fun fuel => dtqForeachSafe (moveOut pick d) fuel m l) (m', turns) ∧
      m'.Rep B ∧ SortedOut A.lists l d (q.filter (!pick ·)) (r ++ q.filter pick) B.lists) ∧
    ∃ m' turns B, Yields (fun fuel => dtqForeachReverseSafe (moveOut pick d) fuel m l) (m', turns) ∧
      m'.Rep B ∧
        SortedOut A.lists l d (q.filter (!pick ·)) (r ++ (q.filter pick).reverse) B.lists := by
  have hstart : ∀ s, A.lists l = some s → SortedOut A.lists l d s r A.lists := fun s hs =>
    ⟨h.separate, hs, hd, fun _ _ _ => rfl⟩
  refine ⟨?_, ?_⟩
  · have hall : SortedOut A.lists l d ([] ++ q) r A.lists := hstart q hl
    obtain ⟨hspares, hend⟩ := hall.forward hld
    obtain ⟨m', hrun, hrep⟩ := h.forward hl hspares
    exact ⟨m', _, _, hrun, hrep, hend⟩
  · have hrev : A.lists l = some (q.reverse.reverse ++ []) := by
      rwa [List.reverse_reverse, List.append_nil]
    obtain ⟨hspares, hend⟩ := SortedOut.backward (hstart _ hrev) hld
    obtain ⟨m', hrun, hrep⟩ := h.backward hl hspares
    rw [List.append_nil, List.filter_reverse, List.reverse_reverse, List.filter_reverse] at hend
    exact ⟨m', _, _, hrun, hrep, hend⟩

/-! ### Programs -/

/-- A call of one of the functions, a loop, or `dtq_free_all`. -/
inductive DtqStmt (κ ν : Type) where
  | call (op : DtqOp κ ν)
  | foreachSafe (list : κ) (body : Cell κ ν → List (DtqOp κ ν))
  | foreachReverseSafe (list : κ) (body : Cell κ ν → List (DtqOp κ ν))
  | freeAll (list : κ) (freed : Cell κ ν → Option (Cell κ ν) × Option (Cell κ ν))

/-- What a statement gives: what the call returns, the turns of the loop, or the calls of the callback. -/
inductive DtqGives (κ ν : Type) where
  | ret (r : DtqRet κ ν)
  | turns (turns : List (Cell κ ν × List (DtqRet κ ν)))
  | freed (cells : List (Cell κ ν))

/-- The statement in memory. -/
def DtqStmt.exec (fuel : ℕ) (m : Dtq κ ν) : DtqStmt κ ν → Exec (Dtq κ ν × DtqGives κ ν)
  | .call op => do
    let (m, r) ← op.exec m
    return (m, .ret r)
  | .foreachSafe l body => do
    let (m, turns) ← dtqForeachSafe body fuel m l
    return (m, .turns turns)
  | .foreachReverseSafe l body => do
    let (m, turns) ← dtqForeachReverseSafe body fuel m l
    return (m, .turns turns)
  | .freeAll l freed => do
    let (m, cells) ← dtqFreeAll freed fuel m l
    return (m, .freed cells)

/-- What the statement is for: the sequences after it. -/
def DtqStmt.seqs (A : Tracked κ ν) : DtqStmt κ ν → Tracked κ ν
  | .call op => op.seqs A
  | .foreachSafe l body => ((A.lists.seq l).map .node).foldl (dtqEach body) A
  | .foreachReverseSafe l body => ((A.lists.seq l).reverse.map .node).foldl (dtqEach body) A
  | .freeAll l _ => ⟨A.lists.put l [], A.cleared⟩

/-- What the statement is for: what it gives. -/
def DtqStmt.gives (A : Tracked κ ν) : DtqStmt κ ν → DtqGives κ ν
  | .call op => .ret (op.ret A)
  | .foreachSafe l body =>
    .turns (scan (dtqEach body) (dtqEachRets body) A ((A.lists.seq l).map .node))
  | .foreachReverseSafe l body =>
    .turns (scan (dtqEach body) (dtqEachRets body) A ((A.lists.seq l).reverse.map .node))
  | .freeAll l _ => .freed ((A.lists.seq l).map .node)

/-- The statement keeps to the rules. -/
def DtqStmt.Allowed (A : Tracked κ ν) : DtqStmt κ ν → Prop
  | .call op => op.Allowed A
  | .foreachSafe l body => A.lists.Made l ∧ SparesRest id l body A (A.lists.seq l)
  | .foreachReverseSafe l body =>
    A.lists.Made l ∧ SparesRest Family.mirror l body A (A.lists.seq l).reverse
  | .freeAll l _ => A.lists.Made l

/-- The statements one after the other, with what they give. -/
def dtqProgram (fuel : ℕ) : Dtq κ ν → List (DtqStmt κ ν) → Exec (Dtq κ ν × List (DtqGives κ ν))
  | m, [] => .ok (m, [])
  | m, c :: cs => do
    let (m, g) ← c.exec fuel m
    let (m, gs) ← dtqProgram fuel m cs
    return (m, g :: gs)

/-- The sequences after the statements. -/
def dtqProgramSeqs : Tracked κ ν → List (DtqStmt κ ν) → Tracked κ ν
  | A, [] => A
  | A, c :: cs => dtqProgramSeqs (c.seqs A) cs

/-- What the statements give. -/
def dtqProgramGives : Tracked κ ν → List (DtqStmt κ ν) → List (DtqGives κ ν)
  | _, [] => []
  | A, c :: cs => c.gives A :: dtqProgramGives (c.seqs A) cs

/-- All statements keep to the rules. -/
def DtqProgramAllowed : Tracked κ ν → List (DtqStmt κ ν) → Prop
  | _, [] => True
  | A, c :: cs => c.Allowed A ∧ DtqProgramAllowed (c.seqs A) cs

/-- One statement does what it is for. -/
theorem dtqStmt_refines {c : DtqStmt κ ν} (h : m.Rep A) (hc : c.Allowed A) :
    ∃ m', Yields (fun fuel => c.exec fuel m) (m', c.gives A) ∧ m'.Rep (c.seqs A) := by
  cases c with
  | call op =>
    obtain ⟨⟨m', r⟩, hrun, rfl, hrep⟩ := dtqStep_refines h hc
    exact ⟨m', Yields.bind ⟨0, fun _ _ => hrun⟩ (Yields.ok _), hrep⟩
  | foreachSafe l body =>
    obtain ⟨m', hrun, hrep⟩ := h.forward hc.1.eq hc.2
    exact ⟨m', hrun.bind (Yields.ok _), hrep⟩
  | foreachReverseSafe l body =>
    obtain ⟨m', hrun, hrep⟩ := h.backward hc.1.eq hc.2
    exact ⟨m', hrun.bind (Yields.ok _), hrep⟩
  | freeAll l freed =>
    obtain ⟨m', hrun, hrep⟩ := h.freeAll (Family.Made.eq hc) freed
    exact ⟨m', Yields.bind ⟨_, hrun⟩ (Yields.ok _), hrep⟩

/-- A whole program, by induction on its statements. -/
theorem dtqStmts_refine {cs : List (DtqStmt κ ν)} (h : m.Rep A) (hcs : DtqProgramAllowed A cs) :
    ∃ m', Yields (fun fuel => dtqProgram fuel m cs) (m', dtqProgramGives A cs) ∧
      m'.Rep (dtqProgramSeqs A cs) := by
  induction cs generalizing m A with
  | nil => exact ⟨m, Yields.ok _, h⟩
  | cons c cs ih =>
    obtain ⟨m₁, hstmt, h₁⟩ := dtqStmt_refines h hcs.1
    obtain ⟨m₂, hrun, h₂⟩ := ih h₁ hcs.2
    exact ⟨m₂, hstmt.bind (hrun.bind (Yields.ok _)), h₂⟩

/-- **Every program** of calls, loops that change their list, and `dtq_free_all`, which keeps to the rules,
gives what the sequences say; and then the walks over each list give its sequence by `next` and its reverse
by `prev`. -/
theorem dtqProgram_refines (m : Dtq κ ν) {cs : List (DtqStmt κ ν)}
    (hcs : DtqProgramAllowed ⟨fun _ => none, ∅⟩ cs) :
    ∃ m', Yields (fun fuel => dtqProgram fuel m cs) (m', dtqProgramGives ⟨fun _ => none, ∅⟩ cs) ∧
      ∀ l q, (dtqProgramSeqs ⟨fun _ => none, ∅⟩ cs).lists l = some q →
        ∀ fuel, q.length < fuel →
          dtqWalk m'.next l fuel (.head l) = .ok (q.map .node) ∧
            dtqWalk m'.prev l fuel (.head l) = .ok (q.reverse.map .node) := by
  obtain ⟨m', hrun, h⟩ := dtqStmts_refine m.rep_none hcs
  refine ⟨m', hrun, fun l q hl fuel hf => ⟨dtqWalk_follows (h.next l q hl) hf, ?_⟩⟩
  have hrev : q.reverse.length < fuel := by rwa [List.length_reverse]
  exact dtqWalk_follows (h.prev l _ (Family.mirror_eq hl)) hrev

/-- The body takes the even nodes out, and puts the number 10 more after the odd ones. -/
def someBody : Cell Bool ℕ → List (DtqOp Bool ℕ)
  | .head _ => []
  | .node n => if n % 2 = 0 then [.delAndInitNode n] else [.addBefore (.node n) (n + 10)]

/-- Loops over one deque, which is freed then. -/
def someDtqStmts : List (DtqStmt Bool ℕ) :=
  [.call (.init true), .call (.addTail true 1), .call (.addTail true 2), .call (.addTail true 3),
    .foreachSafe true someBody, .foreachReverseSafe true fun _ => [],
    .freeAll true fun _ => (none, some (.node 1))]

theorem someDtqStmts_allowed : DtqProgramAllowed ⟨fun _ => none, ∅⟩ someDtqStmts := by
  refine ⟨trivial, ⟨rfl, Family.free_iff.mpr (by decide)⟩, ⟨rfl, Family.free_iff.mpr (by decide)⟩,
    ⟨rfl, Family.free_iff.mpr (by decide)⟩, ⟨rfl, ?_, ?_, ?_⟩, ⟨rfl, ?_⟩, rfl, trivial⟩
  · exact ⟨⟨⟨true, [], [2, 3], rfl⟩, Family.free_iff.mpr (by decide)⟩, trivial⟩
  · exact ⟨[11, 1], rfl⟩
  · refine ⟨⟨.inl ⟨true, [11, 1], [3], rfl⟩, trivial⟩, ⟨[11, 1], rfl⟩, ?_, ⟨[11, 1, 13, 3], rfl⟩,
      trivial⟩
    exact ⟨⟨⟨true, [11, 1], [], rfl⟩, Family.free_iff.mpr (by decide)⟩, trivial⟩
  · exact ⟨trivial, ⟨[3], rfl⟩, trivial, ⟨[3, 13], rfl⟩, trivial, ⟨[3, 13, 1], rfl⟩, trivial,
      ⟨[3, 13, 1, 11], rfl⟩, trivial⟩

theorem dtqProgram_refines_some :
    ∃ m', Yields (fun fuel => dtqProgram fuel ⟨fun _ => none, fun _ => none⟩ someDtqStmts)
        (m', dtqProgramGives ⟨fun _ => none, ∅⟩ someDtqStmts) ∧
      ∀ l q, (dtqProgramSeqs ⟨fun _ => none, ∅⟩ someDtqStmts).lists l = some q →
        ∀ fuel, q.length < fuel →
          dtqWalk m'.next l fuel (.head l) = .ok (q.map .node) ∧
            dtqWalk m'.prev l fuel (.head l) = .ok (q.reverse.map .node) :=
  dtqProgram_refines ⟨fun _ => none, fun _ => none⟩ someDtqStmts_allowed

end CcUtils.Lists
