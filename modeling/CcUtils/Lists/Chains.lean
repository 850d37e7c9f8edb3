import CcUtils.Lib.SafeLoop
import CcUtils.Lists.Dl
import CcUtils.Lists.Sl

/-!
# Changing a list that ends in NULL while walking over it

`SL_FOREACH_SAFE`, `STQ_FOREACH_SAFE` and `DL_FOREACH_SAFE` are one loop over `first` and `next`: it fetches
the node after the current one, and ends at NULL. What a family of functions has to show for it is what its
calls do to the lists as sequences, and that `first` and `next` lead through them. `dl_free_all`, which the
model of the family leaves to this module, is such a loop too.

## What is proved

* `Chains.forward` — the loop runs its body for the members of the list as it was at the beginning.
* `Chains.program_refines` — calls and loops do what they say to the lists.
* `Dl.Rep.freeAll` — the callback gets each member once and in order, and the list is empty then.
* `dlProgram_refines`, `stqProgram_refines`, `slProgram_refines` — the three families.
-/

namespace CcUtils.Lists

open CcUtils.Lib

variable {κ ν σ τ ο ρ : Type}

/-! ### One loop for three families -/

/-- A family of functions `ο` on lists that end in NULL: the functions in memory and what they are for. -/
structure Chains (κ ν σ τ ο ρ : Type) where
  first : σ → κ → Option ν
  next : σ → ν → Option ν
  exec : ℕ → σ → ο → Exec (σ × ρ)
  lists : τ → Family κ ν
  seqs : τ → ο → τ
  ret : τ → ο → ρ
  Allowed : τ → ο → Prop
  Rep : σ → τ → Prop
  first_eq : ∀ {m A l q}, Rep m A → lists A l = some q → first m l = q.head?
  next_eq : ∀ {m A l q n r}, Rep m A → lists A l = some (q ++ n :: r) → next m n = r.head?
  step : ∀ {m A op}, Rep m A → Allowed A op →
    ∃ m', Yields (fun fuel => exec fuel m op) (m', ret A op) ∧ Rep m' (seqs A op)

namespace Chains

variable (C : Chains κ ν σ τ ο ρ)

/-- The calls one after the other, with what they return. -/
def run (fuel : ℕ) : σ → List ο → Exec (σ × List ρ)
  | m, [] => .ok (m, [])
  | m, op :: ops => do
    let (m, r) ← C.exec fuel m op
    let (m, rs) ← run fuel m ops
    return (m, r :: rs)

/-- The sequences after the calls. -/
def after : τ → List ο → τ
  | A, [] => A
  | A, op :: ops => after (C.seqs A op) ops

/-- What the calls return. -/
def rets : τ → List ο → List ρ
  | _, [] => []
  | A, op :: ops => C.ret A op :: rets (C.seqs A op) ops

/-- All calls keep to the rules. -/
def AllAllowed : τ → List ο → Prop
  | _, [] => True
  | A, op :: ops => C.Allowed A op ∧ AllAllowed (C.seqs A op) ops

/-- The loop at `node`: the node, with `next`. -/
def ahead (m : σ) (node : Option ν) : Exec (Option (ν × Option ν)) :=
  .ok (node.map fun n => (n, C.next m n))

/-- The body of a loop, given as the calls it makes for a node; with the node and what they return. -/
def body (calls : ν → List ο) (fuel : ℕ) (n : ν) (m : σ) : Exec (σ × ν × List ρ) := do
  let (m, rs) ← C.run fuel m (calls n)
  return (m, n, rs)

/-- `*_FOREACH_SAFE`. -/
def foreachSafe (calls : ν → List ο) (fuel : ℕ) (m : σ) (list : κ) :
    Exec (σ × List (ν × List ρ)) :=
  safeLoop C.ahead (C.body calls fuel) fuel m (C.first m list)

/-- For each of the nodes the body keeps to the rules, and leaves what comes after the node as it is. -/
def Spares (l : κ) (calls : ν → List ο) : τ → List ν → Prop
  | _, [] => True
  | A, n :: todo => C.AllAllowed A (calls n) ∧
      (∃ done, C.lists (C.after A (calls n)) l = some (done ++ todo)) ∧
        Spares l calls (C.after A (calls n)) todo

/-- A call of one of the functions, or a loop. -/
inductive Stmt (κ ν ο : Type) where
  | call (op : ο)
  | foreachSafe (list : κ) (calls : ν → List ο)

/-- What a statement gives: what the call returns, or the turns of the loop. -/
inductive Gives (ν ρ : Type) where
  | ret (r : ρ)
  | turns (turns : List (ν × List ρ))

/-- The statement in memory. -/
def stmt (fuel : ℕ) (m : σ) : Stmt κ ν ο → Exec (σ × Gives ν ρ)
  | .call op => do
    let (m, r) ← C.exec fuel m op
    return (m, .ret r)
  | .foreachSafe l calls => do
    let (m, turns) ← C.foreachSafe calls fuel m l
    return (m, .turns turns)

/-- What the statement is for: the sequences after it. -/
def stmtSeqs (A : τ) : Stmt κ ν ο → τ
  | .call op => C.seqs A op
  | .foreachSafe l calls => ((C.lists A).seq l).foldl (fun A n => C.after A (calls n)) A

/-- What the statement is for: what it gives. -/
def stmtGives (A : τ) : Stmt κ ν ο → Gives ν ρ
  | .call op => .ret (C.ret A op)
  | .foreachSafe l calls => .turns (scan (fun A n => C.after A (calls n))
      (fun A n => (n, C.rets A (calls n))) A ((C.lists A).seq l))

/-- The statement keeps to the rules. -/
def StmtAllowed (A : τ) : Stmt κ ν ο → Prop
  | .call op => C.Allowed A op
  | .foreachSafe l calls => (C.lists A).Made l ∧ C.Spares l calls A ((C.lists A).seq l)

/-- The statements one after the other, with what they give. -/
def program (fuel : ℕ) : σ → List (Stmt κ ν ο) → Exec (σ × List (Gives ν ρ))
  | m, [] => .ok (m, [])
  | m, c :: cs => do
    let (m, g) ← C.stmt fuel m c
    let (m, gs) ← program fuel m cs
    return (m, g :: gs)

/-- The sequences after the statements. -/
def programSeqs : τ → List (Stmt κ ν ο) → τ
  | A, [] => A
  | A, c :: cs => programSeqs (C.stmtSeqs A c) cs

/-- What the statements give. -/
def programGives : τ → List (Stmt κ ν ο) → List (Gives ν ρ)
  | _, [] => []
  | A, c :: cs => C.stmtGives A c :: programGives (C.stmtSeqs A c) cs

/-- All statements keep to the rules. -/
def ProgramAllowed : τ → List (Stmt κ ν ο) → Prop
  | _, [] => True
  | A, c :: cs => C.StmtAllowed A c ∧ ProgramAllowed (C.stmtSeqs A c) cs

variable {C} {m : σ} {A : τ} {l : κ} {q todo : List ν} {n : ν} {p : Option ν} {calls : ν → List ο}

theorem run_calls {ops : List ο} (h : C.Rep m A) (hops : C.AllAllowed A ops) :
    ∃ m', Yields (fun fuel => C.run fuel m ops) (m', C.rets A ops) ∧ C.Rep m' (C.after A ops) := by
  induction ops generalizing m A with
  | nil => exact ⟨m, Yields.ok _, h⟩
  | cons op ops ih =>
    obtain ⟨m₁, hstep, h₁⟩ := C.step h hops.1
    obtain ⟨m₂, hrun, h₂⟩ := ih h₁ hops.2
    exact ⟨m₂, hstep.bind (hrun.bind (Yields.ok _)), h₂⟩

/-- Before a turn of the loop: the list ends with the nodes still to come, and `node` is the first of
them. -/
structure Ahead (C : Chains κ ν σ τ ο ρ) (l : κ) (calls : ν → List ο) (A : τ) (todo : List ν) (m : σ)
    (p : Option ν) : Prop where
  rep : C.Rep m A
  list : ∃ done, C.lists A l = some (done ++ todo)
  spares : C.Spares l calls A todo
  node : p = todo.head?

theorem Ahead.peek_nil (h : Ahead C l calls A [] m p) : C.ahead m p = .ok none := by
  rw [h.node]
  rfl

theorem Ahead.turn (h : Ahead C l calls A (n :: todo) m p) :
    ∃ next m', C.ahead m p = .ok (some (n, next)) ∧
      Yields (fun fuel => C.body calls fuel n m) (m', n, C.rets A (calls n)) ∧
        Ahead C l calls (C.after A (calls n)) todo m' next := by
  obtain ⟨done, hl⟩ := h.list
  obtain ⟨hops, hlist, hspares⟩ := h.spares
  obtain ⟨m', hrun, hrep⟩ := run_calls h.rep hops
  refine ⟨_, m', ?_, hrun.bind (Yields.ok _), hrep, hlist, hspares, rfl⟩
  rw [h.node, ahead, List.head?_cons, Option.map_some, C.next_eq h.rep hl]

/-- **The loop** runs its body for the members of the list as it was at the beginning. -/
theorem forward (h : C.Rep m A) (hl : C.lists A l = some q) (hcalls : C.Spares l calls A q) :
    ∃ m', Yields (fun fuel => C.foreachSafe calls fuel m l)
        (m', scan (fun A n => C.after A (calls n)) (fun A n => (n, C.rets A (calls n))) A q) ∧
      C.Rep m' (q.foldl (fun A n => C.after A (calls n)) A) := by
  have hstart : Ahead C l calls A q m (C.first m l) := ⟨h, ⟨[], hl⟩, hcalls, C.first_eq h hl⟩
  obtain ⟨m', p', hrun, hend⟩ := safeLoop_yields C.ahead (C.body calls)
    (fun A n => C.after A (calls n)) (fun A n => (n, C.rets A (calls n))) id (Ahead C l calls)
    Ahead.peek_nil Ahead.turn hstart
  rw [List.map_id] at hrun hend
  exact ⟨m', hrun, hend.rep⟩

/-- One statement does what it is for. -/
theorem stmt_refines {c : Stmt κ ν ο} (h : C.Rep m A) (hc : C.StmtAllowed A c) :
    ∃ m', Yields (fun fuel => C.stmt fuel m c) (m', C.stmtGives A c) ∧ C.Rep m' (C.stmtSeqs A c) := by
  cases c with
  | call op =>
    obtain ⟨m', hrun, hrep⟩ := C.step h hc
    exact ⟨m', hrun.bind (Yields.ok _), hrep⟩
  | foreachSafe l calls =>
    obtain ⟨m', hrun, hrep⟩ := forward h hc.1.eq hc.2
    exact ⟨m', hrun.bind (Yields.ok _), hrep⟩

/-- **A whole program**, by induction on its statements. -/
theorem program_refines {cs : List (Stmt κ ν ο)} (h : C.Rep m A) (hcs : C.ProgramAllowed A cs) :
    ∃ m', Yields (fun fuel => C.program fuel m cs) (m', C.programGives A cs) ∧
      C.Rep m' (C.programSeqs A cs) := by
  induction cs generalizing m A with
  | nil => exact ⟨m, Yields.ok _, h⟩
  | cons c cs ih =>
    obtain ⟨m₁, hstmt, h₁⟩ := stmt_refines h hcs.1
    obtain ⟨m₂, hrun, h₂⟩ := ih h₁ hcs.2
    exact ⟨m₂, hstmt.bind (hrun.bind (Yields.ok _)), h₂⟩

end Chains

/-! ### `dl_free_all` -/

variable [DecidableEq κ] [DecidableEq ν]

/-- `DL_FOREACH_SAFE` at `node`: the node, with `next`. -/
def dlAhead (m : Dl κ ν) (node : Option ν) : Exec (Option (ν × Option ν)) :=
  .ok (node.map fun n => (n, dlNext m n))

/-- The callback of `dl_free_all`, which leaves `freed n` in the fields of `n`. -/
def dlFreeNode (freed : ν → Option ν × Option (Cell κ ν)) (n : ν) (m : Dl κ ν) :
    Exec (Dl κ ν × ν) :=
  .ok ((m.setLink (.node n) (freed n).1).setPrev n (freed n).2, n)

/-- `dl_free_all`, with the nodes given to the callback. -/
def dlFreeAll (freed : ν → Option ν × Option (Cell κ ν)) (fuel : ℕ) (m : Dl κ ν) (list : κ) :
    Exec (Dl κ ν × List ν) := do
  let (m, nodes) ← safeLoop dlAhead (dlFreeNode freed) fuel m (dlFirst m list)
  return (dlInit m list, nodes)

variable {m m' : Dl κ ν} {A : Tracked κ ν} {l : κ} {q todo : List ν} {n : ν} {p : Option ν}
  {freed : ν → Option ν × Option (Cell κ ν)}

/-- Before a turn of the loop of `dl_free_all` over the list `q` of the memory `m₀`: only nodes that the
callback has had are not as they were. -/
structure DlFreeing (q : List ν) (m₀ : Dl κ ν) (todo : List ν) (m : Dl κ ν) (p : Option ν) : Prop where
  split : ∃ done, q = done ++ todo ∧ (∀ x, (∀ k ∈ done, x ≠ .node k) → m.link x = m₀.link x) ∧
    ∀ k, k ∉ done → m.prev k = m₀.prev k
  node : p = todo.head?

theorem DlFreeing.peek_nil {κ ν : Type} {m : Dl κ ν} {q : List ν} {p : Option ν}
    {m₀ : Dl κ ν} (h : DlFreeing q m₀ [] m p) : dlAhead m p = .ok none := by
  rw [h.node]
  rfl

theorem DlFreeing.turn {m₀ : Dl κ ν} (h₀ : m₀.Rep A) (hl : A.lists l = some q)
    (h : DlFreeing q m₀ (n :: todo) m p) :
    ∃ next m', dlAhead m p = .ok (some (n, next)) ∧
      dlFreeNode freed n m = .ok (m', n) ∧ DlFreeing q m₀ todo m' next := by
  obtain ⟨done, rfl, hlink, hprev⟩ := h.split
  have hnd : ∀ k ∈ done, (.node n : Cell κ ν) ≠ .node k := by
    intro k hk he
    cases he
    exact h₀.separate.notMem_before hl hk
  have hl1 : A.lists l = some ((done ++ [n]) ++ todo) := by rwa [List.append_assoc]
  have hnext := h₀.link_eq hl1
  rw [lastCell_append] at hnext
  refine ⟨todo.head?, _, ?_, rfl, ⟨done ++ [n], ?_, ?_, ?_⟩, rfl⟩
  · rw [h.node, dlAhead, List.head?_cons, Option.map_some, dlNext, hlink _ hnd]
    exact congrArg (fun v => Except.ok (some (n, v))) hnext
  · rw [List.append_assoc]
    rfl
  · intro x hx
    rw [Dl.setPrev_link, Dl.setLink_link, Function.update_of_ne (hx n (by simp))]
    exact hlink x fun k hk => hx k (List.mem_append_left _ hk)
  · intro k hk
    rw [List.mem_append, List.mem_singleton, not_or] at hk
    rw [Dl.setPrev_prev, Function.update_of_ne hk.2, Dl.setLink_prev]
    exact hprev k hk.1

/-- The header of a list is made anew when its nodes hold anything. -/
theorem Dl.Rep.forget (h : m.Rep A) (hl : A.lists l = some q)
    (hlink : ∀ x, (∀ k ∈ q, x ≠ .node k) → m'.link x = m.link x)
    (hprev : ∀ k, k ∉ q → m'.prev k = m.prev k) :
    (dlInit m' l).Rep ⟨A.lists.put l [], A.cleared⟩ where
  separate := h.separate.init l
  link := by
    refine h.link.put (q := []) (Function.update_self ..) fun k r hkl hk x hx => ?_
    have hx0 : x ≠ .head l := h.separate.ne_cell hl hk hkl hx (List.mem_cons_self ..)
    refine (Function.update_of_ne hx0 ..).trans (hlink x fun j hj => ?_)
    exact h.separate.ne_cell hl hk hkl hx (mem_cellsOf.mpr (.inr ⟨j, hj, rfl⟩))
  back := by
    refine h.back_put trivial fun k r hkl hk j hj => hprev j fun hjq => ?_
    exact hkl (h.separate.unique hk hl hj hjq)
  cleared k hk := by
    obtain ⟨hfree, hklink, hkprev⟩ := h.cleared k hk
    have hk0 : (.node k : Cell κ ν) ≠ .head l := nofun
    refine ⟨hfree.put List.not_mem_nil l, ?_, (hprev k (hfree l q hl)).trans hkprev⟩
    rw [dlInit, Dl.setLink_link, Function.update_of_ne hk0, hlink _ fun j hj he => ?_, hklink]
    cases he
    exact hfree l q hl hj

/-- **`dl_free_all`** gives each member to the callback, once and in order, whatever the callback leaves in
its fields. -/
theorem Dl.Rep.freeAll (h : m.Rep A) (hl : A.lists l = some q)
    (freed : ν → Option ν × Option (Cell κ ν)) :
    ∃ m', (∀ fuel, q.length < fuel → dlFreeAll freed fuel m l = .ok (m', q)) ∧
      m'.Rep ⟨A.lists.put l [], A.cleared⟩ := by
  have hstart : DlFreeing q m q m (dlFirst m l) :=
    ⟨⟨[], rfl, fun _ _ => rfl, fun _ _ => rfl⟩, h.link_eq (q := []) hl⟩
  obtain ⟨m', p', hrun, hend⟩ := safeLoop_each dlAhead (dlFreeNode freed) id (DlFreeing q m)
    DlFreeing.peek_nil (DlFreeing.turn h hl) hstart
  rw [List.map_id] at hrun
  obtain ⟨done, hdone, hlink, hprev⟩ := hend.split
  rw [List.append_nil] at hdone
  subst hdone
  refine ⟨dlInit m' l, fun fuel hf => ?_, h.forget hl hlink hprev⟩
  rw [dlFreeAll, hrun fuel hf]
  rfl

/-! ### The three families -/

/-- A call of one of the functions, or of `dl_free_all`. -/
inductive DlCall (κ ν : Type) where
  | op (o : DlOp κ ν)
  | freeAll (list : κ) (freed : ν → Option ν × Option (Cell κ ν))

/-- What a call gives: what it returns, or the calls of the callback. -/
inductive DlGives (ν : Type) where
  | ret (r : DlRet ν)
  | freed (nodes : List ν)

/-- The call in memory. -/
def DlCall.exec (fuel : ℕ) (m : Dl κ ν) : DlCall κ ν → Exec (Dl κ ν × DlGives ν)
  | .op o => do
    let (m, r) ← o.exec fuel m
    return (m, .ret r)
  | .freeAll l freed => do
    let (m, nodes) ← dlFreeAll freed fuel m l
    return (m, .freed nodes)

/-- What the call is for: the sequences after it. -/
def DlCall.seqs (A : Tracked κ ν) : DlCall κ ν → Tracked κ ν
  | .op o => o.seqs A
  | .freeAll l _ => ⟨A.lists.put l [], A.cleared⟩

/-- What the call is for: what it gives. -/
def DlCall.gives (A : Tracked κ ν) : DlCall κ ν → DlGives ν
  | .op o => .ret (o.ret A)
  | .freeAll l _ => .freed (A.lists.seq l)

/-- The call keeps to the rules. -/
def DlCall.Allowed (A : Tracked κ ν) : DlCall κ ν → Prop
  | .op o => o.Allowed A
  | .freeAll l _ => A.lists.Made l

theorem dlCall_refines {c : DlCall κ ν} (h : m.Rep A) (hc : c.Allowed A) :
    ∃ m', Yields (fun fuel => c.exec fuel m) (m', c.gives A) ∧ m'.Rep (c.seqs A) := by
  cases c with
  | op o =>
    obtain ⟨m', N, hrun, hrep⟩ := dlStep_refines h hc
    exact ⟨m', Yields.bind ⟨N, hrun⟩ (Yields.ok _), hrep⟩
  | freeAll l freed =>
    obtain ⟨m', hrun, hrep⟩ := h.freeAll (Family.Made.eq hc) freed
    exact ⟨m', Yields.bind ⟨_, hrun⟩ (Yields.ok _), hrep⟩

/-- The node after another, where a `next` field leads. -/
theorem next_of_follows {κ ν : Type} {l : κ} {q : List ν} {n : ν} {f : Cell κ ν → Option ν} {r : List ν}
    (h : Follows some f (.head l) (q ++ n :: r) none) : f (.node n) = r.head? := by
  rw [(follows_middle.mp h).2.first_eq]
  cases r <;> rfl

/-- `dl_list`. -/
def dlChains (κ ν : Type) [DecidableEq κ] [DecidableEq ν] :
    Chains κ ν (Dl κ ν) (Tracked κ ν) (DlCall κ ν) (DlGives ν) where
  first := dlFirst
  next := dlNext
  exec fuel m c := c.exec fuel m
  lists := Tracked.lists
  seqs := DlCall.seqs
  ret := DlCall.gives
  Allowed := DlCall.Allowed
  Rep := Dl.Rep
  first_eq h hl := h.link_eq (q := []) hl
  next_eq h hl := next_of_follows (h.link _ _ hl)
  step := dlCall_refines

/-- `stq_list`. -/
def stqChains (κ ν : Type) [DecidableEq κ] [DecidableEq ν] :
    Chains κ ν (Stq κ ν) (Family κ ν) (StqOp κ ν) (StqRet ν) where
  first := stqFirst
  next := stqNext
  exec fuel m op := op.exec fuel m
  lists F := F
  seqs F op := op.seqs F
  ret F op := op.ret F
  Allowed F op := op.Allowed F
  Rep := Stq.Rep
  first_eq h hl := h.next_eq (q := []) hl
  next_eq h hl := next_of_follows (h.next _ _ hl)
  step h hop := by
    obtain ⟨m', N, hrun, hrep⟩ := stqStep_refines h hop
    exact ⟨m', ⟨N, hrun⟩, hrep⟩

/-- `sl_list`. -/
def slChains (κ ν : Type) [DecidableEq κ] [DecidableEq ν] :
    Chains κ ν (Sl κ ν) (Family κ ν) (SlOp κ ν) (StqRet ν) where
  first := slFirst
  next := slNext
  exec fuel m op := op.exec fuel m
  lists F := F
  seqs F op := op.seqs F
  ret F op := op.ret F
  Allowed F op := op.Allowed F
  Rep := Sl.Rep
  first_eq h hl := by
    obtain ⟨m, rfl, hm⟩ := h.exists_stq
    exact hm.next_eq (q := []) hl
  next_eq h hl := next_of_follows (h.next _ _ hl)
  step h hop := by
    obtain ⟨m', N, hrun, hrep⟩ := slStep_refines h hop
    exact ⟨m', ⟨N, hrun⟩, hrep⟩

/-- **Every program** of calls of `dl_list`, `dl_free_all` among them, and of loops that change their list
gives what the sequences say. Then the walk over each list gives its sequence, and every member points back
to the link before it, which points to the member. -/
theorem dlProgram_refines (m : Dl κ ν) {cs : List (Chains.Stmt κ ν (DlCall κ ν))}
    (hcs : (dlChains κ ν).ProgramAllowed ⟨fun _ => none, ∅⟩ cs) :
    ∃ m', Yields (fun fuel => (dlChains κ ν).program fuel m cs)
        (m', (dlChains κ ν).programGives ⟨fun _ => none, ∅⟩ cs) ∧
      ∀ l q, ((dlChains κ ν).programSeqs ⟨fun _ => none, ∅⟩ cs).lists l = some q →
        (∀ fuel, q.length < fuel → dlForeach m' fuel (dlFirst m' l) = .ok q) ∧
          ∀ p n r, q = p ++ n :: r →
            m'.prev n = some ((p.getLast?.map Cell.node).getD (.head l)) ∧
              m'.link ((p.getLast?.map Cell.node).getD (.head l)) = some n := by
  obtain ⟨m', hrun, h⟩ := (dlChains κ ν).program_refines m.rep_none hcs
  refine ⟨m', hrun, fun l q hl => ⟨fun fuel hf => dlForeach_follows (Dl.Rep.link h l q hl) hf, ?_⟩⟩
  rintro p n r rfl
  rw [← lastCell_eq]
  exact ⟨Dl.Rep.prev_eq h hl, Dl.Rep.link_eq h hl⟩

/-- The same of `stq_list`. -/
theorem stqProgram_refines (m : Stq κ ν) {cs : List (Chains.Stmt κ ν (StqOp κ ν))}
    (hcs : (stqChains κ ν).ProgramAllowed (fun _ => none) cs) :
    ∃ m', Yields (fun fuel => (stqChains κ ν).program fuel m cs)
        (m', (stqChains κ ν).programGives (fun _ => none) cs) ∧
      ∀ l q, (stqChains κ ν).programSeqs (fun _ => none) cs l = some q →
        (∀ fuel, q.length < fuel → stqForeach m' fuel (stqFirst m' l) = .ok q) ∧
          stqLast m' l = q.getLast? := by
  obtain ⟨m', hrun, h⟩ := (stqChains κ ν).program_refines m.rep_none hcs
  exact ⟨m', hrun, fun l q hl =>
    ⟨fun fuel hf => stqForeach_follows (Stq.Rep.next h l q hl) hf, Stq.Rep.last h l q hl⟩⟩

/-- The same of `sl_list`. -/
theorem slProgram_refines (u : Sl κ ν) {cs : List (Chains.Stmt κ ν (SlOp κ ν))}
    (hcs : (slChains κ ν).ProgramAllowed (fun _ => none) cs) :
    ∃ u', Yields (fun fuel => (slChains κ ν).program fuel u cs)
        (u', (slChains κ ν).programGives (fun _ => none) cs) ∧
      ∀ l q, (slChains κ ν).programSeqs (fun _ => none) cs l = some q →
        ∀ fuel, q.length < fuel → slForeach u' fuel (slFirst u' l) = .ok q := by
  obtain ⟨u', hrun, h⟩ := (slChains κ ν).program_refines u.rep_none hcs
  refine ⟨u', hrun, fun l q hl fuel hf => ?_⟩
  obtain ⟨m, rfl, hm⟩ := Sl.Rep.exists_stq h
  rw [slForeach_chain]
  exact stqForeach_follows (hm.next l q hl) hf

/-- A list that is changed while it is walked over, and freed then. -/
def someDlStmts : List (Chains.Stmt Bool ℕ (DlCall Bool ℕ)) :=
  [.call (.op (.init true)), .call (.op (.addHead true 3)), .call (.op (.addHead true 2)),
    .call (.op (.addHead true 1)),
    .foreachSafe true fun n => if n = 2 then [.op (.del 2)] else [.op (.addBefore n (n + 10))],
    .call (.freeAll true fun _ => (some 1, none))]

theorem someDlStmts_allowed :
    (dlChains Bool ℕ).ProgramAllowed ⟨fun _ => none, ∅⟩ someDlStmts := by
  refine ⟨trivial, ⟨rfl, Family.free_iff.mpr (by decide)⟩, ⟨rfl, Family.free_iff.mpr (by decide)⟩,
    ⟨rfl, Family.free_iff.mpr (by decide)⟩, ⟨rfl, ?_, ⟨[11, 1], rfl⟩, ?_, ⟨[11, 1], rfl⟩, ?_,
      ⟨[11, 1, 13, 3], rfl⟩, trivial⟩, rfl, trivial⟩
  · exact ⟨⟨⟨true, [], [2, 3], rfl⟩, Family.free_iff.mpr (by decide)⟩, trivial⟩
  · exact ⟨⟨true, [11, 1], [3], rfl⟩, trivial⟩
  · exact ⟨⟨⟨true, [11, 1], [], rfl⟩, Family.free_iff.mpr (by decide)⟩, trivial⟩

theorem dlProgram_refines_some :
    ∃ m', Yields (fun fuel => (dlChains Bool ℕ).program fuel ⟨fun _ => some 7, fun _ => none⟩
          someDlStmts)
        (m', (dlChains Bool ℕ).programGives ⟨fun _ => none, ∅⟩ someDlStmts) ∧
      ∀ l q, ((dlChains Bool ℕ).programSeqs ⟨fun _ => none, ∅⟩ someDlStmts).lists l = some q →
        (∀ fuel, q.length < fuel → dlForeach m' fuel (dlFirst m' l) = .ok q) ∧
          ∀ p n r, q = p ++ n :: r →
            m'.prev n = some ((p.getLast?.map Cell.node).getD (.head l)) ∧
              m'.link ((p.getLast?.map Cell.node).getD (.head l)) = some n :=
  dlProgram_refines ⟨fun _ => some 7, fun _ => none⟩ someDlStmts_allowed

end CcUtils.Lists
