import CcUtils.Lib.Intrusive
import CcUtils.Lib.Cells

/-!
# The circular deque of `list.h`

`dtq_list`: a header is a node itself, and the nodes of a list are linked to a ring through it in
both directions. All lists and nodes are in one memory. Read from its end, a list is linked by
`prev` as it is by `next`; so each operation is one edit of the lists, done once to `next` and once
in the mirror to `prev`.

## What is proved

* `Dtq.Rep.linkIn`, `Dtq.Rep.linkOut` — the edits at a place of a list.
* `dtqStep_refines` — one call does what it says to the lists as sequences.
* `dtq_refines` — so does every sequence of calls, and the walks in both directions give the
  sequences.
-/

namespace CcUtils.Lists

open CcUtils.Lib

variable {κ ν : Type} [DecidableEq κ] [DecidableEq ν]

/-! ### The functions -/

/-- The fields of all headers and nodes. -/
structure Dtq (κ ν : Type) where
  prev : Cell κ ν → Option (Cell κ ν)
  next : Cell κ ν → Option (Cell κ ν)

/-- A store to a `prev`. -/
def Dtq.setPrev (m : Dtq κ ν) (a : Cell κ ν) (v : Option (Cell κ ν)) : Dtq κ ν :=
  { m with prev := Function.update m.prev a v }

/-- A store to a `next`. -/
def Dtq.setNext (m : Dtq κ ν) (a : Cell κ ν) (v : Option (Cell κ ν)) : Dtq κ ν :=
  { m with next := Function.update m.next a v }

@[simp] theorem Dtq.setPrev_next (m : Dtq κ ν) (a : Cell κ ν) (v : Option (Cell κ ν)) :
    (m.setPrev a v).next = m.next := rfl

@[simp] theorem Dtq.setPrev_prev (m : Dtq κ ν) (a : Cell κ ν) (v : Option (Cell κ ν)) :
    (m.setPrev a v).prev = Function.update m.prev a v := rfl

@[simp] theorem Dtq.setNext_prev (m : Dtq κ ν) (a : Cell κ ν) (v : Option (Cell κ ν)) :
    (m.setNext a v).prev = m.prev := rfl

@[simp] theorem Dtq.setNext_next (m : Dtq κ ν) (a : Cell κ ν) (v : Option (Cell κ ν)) :
    (m.setNext a v).next = Function.update m.next a v := rfl

/-- The cell a pointer points to. -/
def dtqAt (p : Option (Cell κ ν)) : Exec (Cell κ ν) :=
  match p with
  | some a => .ok a
  | none => .error .nullDeref

@[simp] theorem dtqAt_some {κ ν : Type} (a : Cell κ ν) : dtqAt (some a) = .ok a := rfl

/-- `dtq_init`. -/
def dtqInit (m : Dtq κ ν) (list : κ) : Dtq κ ν :=
  (m.setNext (.head list) (some (.head list))).setPrev (.head list) (some (.head list))

/-- `dtq_init_node`. -/
def dtqInitNode (m : Dtq κ ν) (node : Cell κ ν) : Dtq κ ν :=
  (m.setNext node none).setPrev node none

@[simp] theorem dtqInit_next (m : Dtq κ ν) (l : κ) :
    (dtqInit m l).next = Function.update m.next (.head l) (some (.head l)) := rfl

@[simp] theorem dtqInit_prev (m : Dtq κ ν) (l : κ) :
    (dtqInit m l).prev = Function.update m.prev (.head l) (some (.head l)) := rfl

@[simp] theorem dtqInitNode_next (m : Dtq κ ν) (a : Cell κ ν) :
    (dtqInitNode m a).next = Function.update m.next a none := rfl

@[simp] theorem dtqInitNode_prev (m : Dtq κ ν) (a : Cell κ ν) :
    (dtqInitNode m a).prev = Function.update m.prev a none := rfl

/-- `dtq_is_empty`. -/
def dtqIsEmpty (m : Dtq κ ν) (list : κ) : Bool := m.next (.head list) = some (.head list)

/-- `dtq_first`. -/
def dtqFirst (m : Dtq κ ν) (list : κ) : Option (Cell κ ν) :=
  let node := m.next (.head list)
  if node = some (.head list) then none else node

/-- `dtq_last`. -/
def dtqLast (m : Dtq κ ν) (list : κ) : Option (Cell κ ν) :=
  let node := m.prev (.head list)
  if node = some (.head list) then none else node

/-- `dtq_is_end`. -/
def dtqIsEnd (m : Dtq κ ν) (list : κ) (node : Option (Cell κ ν)) : Bool :=
  if dtqIsEmpty m list then true else if node = none then true else node = some (.head list)

/-- `dtq_node_is_linked`. -/
def dtqNodeIsLinked (m : Dtq κ ν) (node : Cell κ ν) : Bool := m.next node ≠ none

/-- `dtq_add_after`. -/
def dtqAddAfter (m : Dtq κ ν) (prev insert : Cell κ ν) : Exec (Dtq κ ν) := do
  let m := m.setPrev insert (some prev)
  let m := m.setNext insert (m.next prev)
  let m := m.setNext prev (some insert)
  let next ← dtqAt (m.next insert)
  return m.setPrev next (some insert)

/-- `dtq_add_before`. -/
def dtqAddBefore (m : Dtq κ ν) (next insert : Cell κ ν) : Exec (Dtq κ ν) := do
  let m := m.setPrev insert (m.prev next)
  let m := m.setNext insert (some next)
  let prev ← dtqAt (m.prev insert)
  let m := m.setNext prev (some insert)
  let next ← dtqAt (m.next insert)
  return m.setPrev next (some insert)

/-- `dtq_del`. -/
def dtqDel (m : Dtq κ ν) (node : Cell κ ν) : Exec (Dtq κ ν) := do
  let prev ← dtqAt (m.prev node)
  let m := m.setNext prev (m.next node)
  let next ← dtqAt (m.next node)
  return m.setPrev next (m.prev node)

/-- `dtq_add_head`. -/
def dtqAddHead (m : Dtq κ ν) (list : κ) (node : Cell κ ν) : Exec (Dtq κ ν) :=
  dtqAddAfter m (.head list) node

/-- `dtq_add_tail`. -/
def dtqAddTail (m : Dtq κ ν) (list : κ) (node : Cell κ ν) : Exec (Dtq κ ν) :=
  dtqAddBefore m (.head list) node

/-- `if (dtq_node_is_linked(node)) dtq_del(node)`. -/
def dtqDelIfLinked (m : Dtq κ ν) (node : Cell κ ν) : Exec (Dtq κ ν) :=
  if dtqNodeIsLinked m node then dtqDel m node else .ok m

/-- `dtq_del_and_init_node`. -/
def dtqDelAndInitNode (m : Dtq κ ν) (node : Cell κ ν) : Exec (Dtq κ ν) := do
  let m ← dtqDelIfLinked m node
  return dtqInitNode m node

/-- `dta_del_head`, `dtq_del_tail` and `dtq_del_head_and_init_node`: unless `node` is the end, take
it out with `del` and return it. -/
def dtqDelEnd (del : Dtq κ ν → Cell κ ν → Exec (Dtq κ ν)) (m : Dtq κ ν) (list : κ)
    (node : Option (Cell κ ν)) : Exec (Dtq κ ν × Option (Cell κ ν)) :=
  if dtqIsEnd m list node then .ok (m, none)
  else do
    let a ← dtqAt node
    let m ← del m a
    return (m, node)

/-- `dta_del_head`. -/
def dtaDelHead (m : Dtq κ ν) (list : κ) : Exec (Dtq κ ν × Option (Cell κ ν)) :=
  dtqDelEnd dtqDel m list (dtqFirst m list)

/-- `dtq_del_tail`. -/
def dtqDelTail (m : Dtq κ ν) (list : κ) : Exec (Dtq κ ν × Option (Cell κ ν)) :=
  dtqDelEnd dtqDel m list (dtqLast m list)

/-- `dtq_del_head_and_init_node`. -/
def dtqDelHeadAndInitNode (m : Dtq κ ν) (list : κ) : Exec (Dtq κ ν × Option (Cell κ ν)) :=
  dtqDelEnd dtqDelAndInitNode m list (dtqFirst m list)

/-- `dtq_move_and_add_tail`. -/
def dtqMoveAndAddTail (m : Dtq κ ν) (list : κ) (node : Cell κ ν) : Exec (Dtq κ ν) := do
  let m ← dtqDelIfLinked m node
  dtqAddTail m list node

/-- `dtq_append`. -/
def dtqAppend (m : Dtq κ ν) (destList srcList : κ) : Exec (Dtq κ ν) :=
  if dtqIsEmpty m srcList then .ok m
  else do
    let first ← dtqAt (m.next (.head srcList))
    let m := m.setPrev first (m.prev (.head destList))
    let last ← dtqAt (m.prev (.head srcList))
    let destLast ← dtqAt (m.prev (.head destList))
    let m := m.setNext last (m.next destLast)
    let destLast ← dtqAt (m.prev (.head destList))
    let m := m.setNext destLast (m.next (.head srcList))
    let m := m.setPrev (.head destList) (m.prev (.head srcList))
    return dtqInit m srcList

/-- The cells met from the cell `a` on, until the walk is back at the header. -/
def dtqWalk (field : Cell κ ν → Option (Cell κ ν)) (list : κ) :
    ℕ → Cell κ ν → Exec (List (Cell κ ν))
  | 0, _ => .error .outOfFuel
  | fuel + 1, a => do
    let b ← dtqAt (field a)
    if b = .head list then return []
    else do
      let cells ← dtqWalk field list fuel b
      return b :: cells

/-! ### The lists in memory -/

/-- The pointer to a node. -/
def dtqPtr (n : ν) : Option (Cell κ ν) := some (.node n)

/-- The memory holds the lists. -/
structure Dtq.Rep (m : Dtq κ ν) (A : Tracked κ ν) : Prop where
  separate : A.lists.Separate
  next : A.lists.Linked dtqPtr m.next fun l => some (.head l)
  prev : A.lists.mirror.Linked dtqPtr m.prev fun l => some (.head l)
  cleared : ∀ n ∈ A.cleared, A.lists.Free n ∧ m.next (.node n) = none ∧ m.prev (.node n) = none

variable {m : Dtq κ ν} {A : Tracked κ ν} {l d s : κ} {q r : List ν} {n k : ν}

/-- At a place of a ring, the field before it points to the cell after it. -/
theorem ring_gap {κ ν : Type} {l : κ} {q r : List ν} {f : Cell κ ν → Option (Cell κ ν)}
    (h : Follows dtqPtr f (.head l) (q ++ r) (some (.head l))) :
    f (lastCell (.head l) q) = some (lastCell (.head l) r.reverse) := by
  rw [(follows_append.mp h).2.first_eq]
  cases r with
  | nil => rfl
  | cons n r => rw [List.reverse_cons, lastCell_append]; rfl

theorem Dtq.Rep.next_eq {κ ν : Type} {m : Dtq κ ν} {A : Tracked κ ν} {l : κ} {q r : List ν}
    (h : m.Rep A) (hl : A.lists l = some (q ++ r)) :
    m.next (lastCell (.head l) q) = some (lastCell (.head l) r.reverse) := ring_gap (h.next l _ hl)

theorem mirror_place {κ ν : Type} {A : Tracked κ ν} {l : κ} {q r : List ν} (hl : A.lists l = some (q ++ r)) :
    A.lists.mirror l = some (r.reverse ++ q.reverse) := by
  rw [Family.mirror_eq hl, List.reverse_append]

theorem Dtq.Rep.prev_eq {κ ν : Type} {m : Dtq κ ν} {A : Tracked κ ν} {l : κ} {q r : List ν}
    (h : m.Rep A) (hl : A.lists l = some (q ++ r)) :
    m.prev (lastCell (.head l) r.reverse) = some (lastCell (.head l) q) := by
  have hgap := ring_gap (h.prev l _ (mirror_place hl))
  rwa [List.reverse_reverse] at hgap

/-- A node of the lists is not one of the cleared ones. -/
theorem Dtq.Rep.cleared_ne {κ ν : Type} {m : Dtq κ ν} {A : Tracked κ ν} {l : κ} {q : List ν} {k : ν}
    (h : m.Rep A) (hl : A.lists l = some q) (hk : k ∈ A.cleared)
    {x : Cell κ ν} (hx : x ∈ cellsOf (.head l) q) : .node k ≠ x :=
  ((h.cleared k hk).1.ne_cell hl hx).symm

/-- The cells at a place are cells of the list. -/
theorem last_mem {κ ν : Type} (l : κ) (q r : List ν) : lastCell (.head l) q ∈ cellsOf (.head l) (q ++ r) :=
  cellsOf_append_left (lastCell_mem _ q)

theorem first_mem {κ ν : Type} (l : κ) (q r : List ν) :
    lastCell (.head l) r.reverse ∈ cellsOf (.head l) (q ++ r) := by
  rcases mem_cellsOf.mp (lastCell_mem (.head l : Cell κ ν) r.reverse) with h0 | ⟨k, hk, he⟩
  · exact mem_cellsOf.mpr (.inl h0)
  · exact mem_cellsOf.mpr (.inr ⟨k, List.mem_append_right q (List.mem_reverse.mp hk), he⟩)

/-! ### Edits at a place -/

/-- The writes that link a node in at a place. -/
def Dtq.linkIn (m : Dtq κ ν) (l : κ) (q : List ν) (n : ν) (r : List ν) : Dtq κ ν where
  prev := Function.update (Function.update m.prev (.node n) (some (lastCell (.head l) q)))
    (lastCell (.head l) r.reverse) (some (.node n))
  next := Function.update (Function.update m.next (.node n) (some (lastCell (.head l) r.reverse)))
    (lastCell (.head l) q) (some (.node n))

/-- The writes that link a node out at a place. -/
def Dtq.linkOut (m : Dtq κ ν) (l : κ) (q r : List ν) : Dtq κ ν where
  prev := Function.update m.prev (lastCell (.head l) r.reverse) (some (lastCell (.head l) q))
  next := Function.update m.next (lastCell (.head l) q) (some (lastCell (.head l) r.reverse))

theorem Dtq.Rep.linkIn (h : m.Rep A) (hl : A.lists l = some (q ++ r)) (hn : A.lists.Free n) :
    (m.linkIn l q n r).Rep ⟨A.lists.put l (q ++ n :: r), A.cleared.erase n⟩ where
  separate := h.separate.insert hl hn
  next := by
    have hne : (.node n : Cell κ ν) ≠ lastCell (.head l) q := (hn.ne_cell hl (last_mem l q r)).symm
    refine h.next.insert h.separate hl hn (Function.update_self ..) ?_ fun x hx hxn => ?_
    · rw [h.next_eq hl]
      exact (Function.update_of_ne hne ..).trans (Function.update_self ..)
    · exact (Function.update_of_ne hx ..).trans (Function.update_of_ne hxn ..)
  prev := by
    have hne : (.node n : Cell κ ν) ≠ lastCell (.head l) r.reverse :=
      (hn.ne_cell hl (first_mem l q r)).symm
    have hins := h.prev.insert h.separate.mirror (mirror_place hl) hn.mirror
      (g := (m.linkIn l q n r).prev) (Function.update_self ..) ?_ fun x hx hxn => ?_
    · rwa [Family.mirror_put, List.reverse_append, List.reverse_cons, List.append_assoc]
    · rw [h.prev_eq hl]
      exact (Function.update_of_ne hne ..).trans (Function.update_self ..)
    · exact (Function.update_of_ne hx ..).trans (Function.update_of_ne hxn ..)
  cleared k hk := by
    obtain ⟨hkn, hk⟩ := Finset.mem_erase.mp hk
    obtain ⟨hfree, hnext, hprev⟩ := h.cleared k hk
    have hkn' : (.node k : Cell κ ν) ≠ .node n := fun he => hkn (Cell.node.inj he)
    refine ⟨hfree.put ?_ l, ?_, ?_⟩
    · have hkl := hfree l _ hl
      simp only [List.mem_append, List.mem_cons, not_or] at hkl ⊢
      exact ⟨hkl.1, hkn, hkl.2⟩
    · rw [← hnext]
      exact (Function.update_of_ne (h.cleared_ne hl hk (last_mem l q r)) ..).trans
        (Function.update_of_ne hkn' ..)
    · rw [← hprev]
      exact (Function.update_of_ne (h.cleared_ne hl hk (first_mem l q r)) ..).trans
        (Function.update_of_ne hkn' ..)

theorem Dtq.Rep.linkOut (h : m.Rep A) (hl : A.lists l = some (q ++ n :: r)) :
    (m.linkOut l q r).Rep ⟨A.lists.put l (q ++ r), A.cleared⟩ where
  separate := h.separate.remove hl
  next := by
    refine h.next.remove h.separate hl ?_ fun x hx _ => Function.update_of_ne hx ..
    have hl1 : A.lists l = some ((q ++ [n]) ++ r) := by rwa [List.append_assoc]
    have hnext := h.next_eq hl1
    rw [lastCell_append] at hnext
    exact (Function.update_self ..).trans hnext.symm
  prev := by
    have hrem := h.prev.remove h.separate.mirror (n := n) (q := r.reverse) (r := q.reverse)
      (g := (m.linkOut l q r).prev) ?_ ?_ fun x hx _ => Function.update_of_ne hx ..
    · rwa [Family.mirror_put, List.reverse_append]
    · rw [mirror_place hl, List.reverse_cons, List.append_assoc]
      rfl
    · have hprev := h.prev_eq hl
      rw [List.reverse_cons, lastCell_append] at hprev
      exact (Function.update_self ..).trans hprev.symm
  cleared k hk := by
    obtain ⟨hfree, hnext, hprev⟩ := h.cleared k hk
    have hkl := hfree l _ hl
    have hsub : k ∉ q ++ r := by
      simp only [List.mem_append, List.mem_cons, not_or] at hkl ⊢
      exact ⟨hkl.1, hkl.2.2⟩
    refine ⟨hfree.put hsub l, ?_, ?_⟩
    · rw [← hnext]
      exact Function.update_of_ne (h.cleared_ne hl hk (last_mem l q _)) ..
    · rw [← hprev]
      refine Function.update_of_ne (h.cleared_ne hl hk ?_) ..
      rw [List.append_cons q n r]
      exact first_mem l (q ++ [n]) r

theorem Dtq.Rep.init (h : m.Rep A) (l : κ) :
    (dtqInit m l).Rep ⟨A.lists.put l [], A.cleared⟩ where
  separate := h.separate.init l
  next := h.next.init (Function.update_self ..) fun _ hx => Function.update_of_ne hx ..
  prev := by
    rw [Family.mirror_put]
    exact h.prev.init (Function.update_self ..) fun _ hx => Function.update_of_ne hx ..
  cleared k hk := by
    obtain ⟨hfree, hnext, hprev⟩ := h.cleared k hk
    have hkl : (.node k : Cell κ ν) ≠ .head l := nofun
    refine ⟨hfree.put List.not_mem_nil l, ?_, ?_⟩
    · rwa [dtqInit_next, Function.update_of_ne hkl]
    · rwa [dtqInit_prev, Function.update_of_ne hkl]

/-- `dtq_init_node` of a free node. -/
theorem Dtq.Rep.initNode (h : m.Rep A) (hn : A.lists.Free n) :
    (dtqInitNode m (.node n)).Rep ⟨A.lists, insert n A.cleared⟩ where
  separate := h.separate
  next := h.next.congr fun _ _ hl _ hx => Function.update_of_ne (hn.ne_cell hl hx) ..
  prev := h.prev.congr fun _ _ hl _ hx => Function.update_of_ne (hn.mirror.ne_cell hl hx) ..
  cleared k hk := by
    by_cases hkn : k = n
    · subst hkn
      exact ⟨hn, Function.update_self .., Function.update_self ..⟩
    · obtain ⟨hfree, hnext, hprev⟩ := h.cleared k (Finset.mem_of_mem_insert_of_ne hk hkn)
      have hkn' : (.node k : Cell κ ν) ≠ .node n := fun he => hkn (Cell.node.inj he)
      refine ⟨hfree, ?_, ?_⟩
      · rwa [dtqInitNode_next, Function.update_of_ne hkn']
      · rwa [dtqInitNode_prev, Function.update_of_ne hkn']

/-! ### The functions make these edits -/

theorem Dtq.Rep.addAfter (h : m.Rep A) (hl : A.lists l = some (q ++ r)) (hn : A.lists.Free n) :
    dtqAddAfter m (lastCell (.head l) q) (.node n) = .ok (m.linkIn l q n r) := by
  have hne : (.node n : Cell κ ν) ≠ lastCell (.head l) q := (hn.ne_cell hl (last_mem l q r)).symm
  simp only [dtqAddAfter, Dtq.setNext_next, Dtq.setPrev_next, h.next_eq hl,
    Function.update_of_ne hne, Function.update_self, dtqAt_some, ok_bind]
  rfl

theorem Dtq.Rep.addBefore (h : m.Rep A) (hl : A.lists l = some (q ++ r)) (hn : A.lists.Free n) :
    dtqAddBefore m (lastCell (.head l) r.reverse) (.node n) = .ok (m.linkIn l q n r) := by
  have hne : (.node n : Cell κ ν) ≠ lastCell (.head l) q := (hn.ne_cell hl (last_mem l q r)).symm
  simp only [dtqAddBefore, Dtq.setNext_next, Dtq.setPrev_next, Dtq.setNext_prev, Dtq.setPrev_prev,
    h.prev_eq hl, Function.update_of_ne hne, Function.update_self, dtqAt_some, ok_bind]
  rfl

theorem Dtq.Rep.del (h : m.Rep A) (hl : A.lists l = some (q ++ n :: r)) :
    dtqDel m (.node n) = .ok (m.linkOut l q r) := by
  have hprev := h.prev_eq hl
  have hl1 : A.lists l = some ((q ++ [n]) ++ r) := by rwa [List.append_assoc]
  have hnext := h.next_eq hl1
  rw [List.reverse_cons, lastCell_append, lastCell_cons, lastCell_nil] at hprev
  rw [lastCell_append, lastCell_cons, lastCell_nil] at hnext
  have hne : (.node n : Cell κ ν) ≠ lastCell (.head l) q :=
    (lastCell_ne_node (h.separate.nodup hl) (List.mem_cons_self ..)).symm
  simp only [dtqDel, hprev, hnext, dtqAt_some, ok_bind, Dtq.setNext_next, Dtq.setNext_prev,
    Function.update_of_ne hne]
  rfl

/-- The end of a list is NULL exactly when the list is empty. -/
theorem Dtq.Rep.isEnd (h : m.Rep A) (hl : A.lists l = some q) (p : Option (Cell κ ν)) :
    dtqIsEnd m l p = decide (q = [] ∨ p = none ∨ p = some (.head l)) := by
  have hfirst := h.next_eq (q := []) hl
  cases q with
  | nil => simp only [dtqIsEnd, dtqIsEmpty]; rw [lastCell_nil] at hfirst; simp [hfirst]
  | cons n r =>
    rw [lastCell_nil, List.reverse_cons, lastCell_append, lastCell_cons, lastCell_nil] at hfirst
    cases p <;> simp [dtqIsEnd, dtqIsEmpty, hfirst]

theorem Dtq.Rep.first (h : m.Rep A) (hl : A.lists l = some q) :
    dtqFirst m l = q.head?.map .node := by
  have hfirst := h.next_eq (q := []) hl
  rw [lastCell_nil] at hfirst
  cases q with
  | nil => exact if_pos hfirst
  | cons n r => simp [dtqFirst, hfirst]

theorem Dtq.Rep.last (h : m.Rep A) (hl : A.lists l = some q) :
    dtqLast m l = q.getLast?.map .node := by
  have hlast := h.prev_eq (r := []) (by rwa [List.append_nil])
  rw [List.reverse_nil, lastCell_nil, lastCell_eq] at hlast
  rcases List.eq_nil_or_concat q with rfl | ⟨p, n, rfl⟩
  · exact if_pos hlast
  · simp only [List.concat_eq_append, List.getLast?_concat, Option.map_some, Option.getD_some]
      at hlast ⊢
    simp [dtqLast, hlast]

/-- A member, or a node from `dtq_init_node`, is linked out. -/
theorem Dtq.Rep.unlink (h : m.Rep A) (hn : A.lists.Has n ∨ n ∈ A.cleared) :
    ∃ m', dtqDelIfLinked m (.node n) = .ok m' ∧
      m'.Rep ⟨A.lists.edit (·.erase n), A.cleared⟩ ∧ (A.lists.edit (·.erase n)).Free n := by
  rcases hn with ⟨l, q, r, hl⟩ | hn
  · have hl1 : A.lists l = some ((q ++ [n]) ++ r) := by rwa [List.append_assoc]
    have hnext := h.next_eq hl1
    rw [lastCell_append, lastCell_cons, lastCell_nil] at hnext
    have hlinked : dtqNodeIsLinked m (.node n) = true := by simp [dtqNodeIsLinked, hnext]
    refine ⟨m.linkOut l q r, ?_, ?_, ?_⟩
    · rw [dtqDelIfLinked, if_pos hlinked, h.del hl]
    · rw [h.separate.erase_eq hl]
      exact h.linkOut hl
    · rw [h.separate.erase_eq hl]
      exact h.separate.free_remove hl
  · obtain ⟨hfree, hnext, -⟩ := h.cleared n hn
    have hlinked : dtqNodeIsLinked m (.node n) = false := by simp [dtqNodeIsLinked, hnext]
    rw [Family.edit_of_free hfree fun q hq => List.erase_of_not_mem hq]
    exact ⟨m, by rw [dtqDelIfLinked, hlinked]; rfl, h, hfree⟩

/-- An end of a list that is not empty is taken out and returned. -/
theorem Dtq.Rep.delEnd_eq (h : m.Rep A) (hl : A.lists l = some q) (hn : n ∈ q)
    (del : Dtq κ ν → Cell κ ν → Exec (Dtq κ ν)) :
    dtqDelEnd del m l (some (.node n)) = do
      let m' ← del m (.node n)
      return (m', some (.node n)) := by
  have hq : q ≠ [] := List.ne_nil_of_mem hn
  have hend : dtqIsEnd m l (some (.node n)) = false := by
    rw [h.isEnd hl]
    simp [hq]
  rw [dtqDelEnd, hend, if_neg Bool.false_ne_true, dtqAt_some, ok_bind]

theorem Dtq.Rep.delEnd (h : m.Rep A) (hl : A.lists l = some q) (hn : n ∈ q)
    {del : Dtq κ ν → Cell κ ν → Exec (Dtq κ ν)} {B : Tracked κ ν}
    (hdel : Post (del m (.node n)) fun m' => m'.Rep B) :
    Post (dtqDelEnd del m l (some (.node n))) fun u => u.2 = some (.node n) ∧ u.1.Rep B := by
  rw [h.delEnd_eq hl hn]
  exact hdel.bind fun m' hm => Post.pure ⟨rfl, hm⟩

/-- The first node is taken out, cleared and returned. -/
theorem Dtq.Rep.delEnd_init (h : m.Rep A) (hl : A.lists l = some (n :: r)) :
    Post (dtqDelEnd dtqDelAndInitNode m l (some (.node n))) fun u =>
      u.2 = some (.node n) ∧ u.1.Rep ⟨A.lists.put l r, insert n A.cleared⟩ := by
  refine h.delEnd hl (List.mem_cons_self ..) ?_
  obtain ⟨m', hrun, hrep, hfree⟩ := h.unlink (.inl ⟨l, [], r, hl⟩)
  rw [h.separate.erase_eq (q := []) hl] at hrep hfree
  rw [dtqDelAndInitNode, hrun, ok_bind]
  exact Post.pure (hrep.initNode hfree)

/-- Of an empty list NULL is returned. -/
theorem Dtq.Rep.delEnd_nil (h : m.Rep A) (hl : A.lists l = some [])
    (del : Dtq κ ν → Cell κ ν → Exec (Dtq κ ν)) (p : Option (Cell κ ν)) :
    dtqDelEnd del m l p = .ok (m, none) := by
  have hend : dtqIsEnd m l p = true := by
    rw [h.isEnd hl]
    simp
  rw [dtqDelEnd, hend, if_pos rfl]

/-! ### Appending a list -/

/-- The writes of `dtq_append` when the source list is `n :: t`. -/
def Dtq.splice (m : Dtq κ ν) (d : κ) (q : List ν) (s : κ) (n : ν) (t : List ν) : Dtq κ ν where
  prev := Function.update (Function.update (Function.update m.prev (.node n)
    (some (lastCell (.head d) q))) (.head d) (some (lastCell (.node n) t)))
    (.head s) (some (.head s))
  next := Function.update (Function.update (Function.update m.next (lastCell (.node n) t)
    (some (.head d))) (lastCell (.head d) q) (some (.node n)))
    (.head s) (some (.head s))

theorem Dtq.Rep.append_nil (h : m.Rep A) (hs : A.lists s = some []) :
    dtqAppend m d s = .ok m := by
  have hfirst := h.next_eq (q := []) hs
  have hempty : dtqIsEmpty m s = true := by simpa [dtqIsEmpty] using hfirst
  rw [dtqAppend, hempty, if_pos rfl]

/-- What the ends of a list hold. -/
theorem Dtq.Rep.ends {κ ν : Type} {m : Dtq κ ν} {A : Tracked κ ν} {l : κ} {q : List ν}
    (h : m.Rep A) (hl : A.lists l = some q) :
    m.next (lastCell (.head l) q) = some (.head l) ∧
      m.prev (.head l) = some (lastCell (.head l) q) := by
  have hl1 : A.lists l = some (q ++ []) := by rwa [List.append_nil]
  exact ⟨h.next_eq hl1, h.prev_eq hl1⟩

theorem Dtq.Rep.first_eq {κ ν : Type} {m : Dtq κ ν} {A : Tracked κ ν} {s : κ} {n : ν}
    (h : m.Rep A) {t : List ν} (hs : A.lists s = some (n :: t)) :
    m.next (.head s) = some (.node n) := by
  have hfirst := h.next_eq (q := []) hs
  rwa [List.reverse_cons, lastCell_append] at hfirst

theorem Dtq.Rep.append_cons (h : m.Rep A) {t : List ν} (hd : A.lists d = some q)
    (hs : A.lists s = some (n :: t)) : dtqAppend m d s = .ok (m.splice d q s n t) := by
  have hfirst := h.first_eq hs
  obtain ⟨-, hlast⟩ := h.ends hs
  obtain ⟨hdnext, hdprev⟩ := h.ends hd
  rw [lastCell_cons] at hlast
  have hempty : dtqIsEmpty m s = false := by simp [dtqIsEmpty, hfirst]
  have h1 : (.head s : Cell κ ν) ≠ .node n := nofun
  have h2 : (.head d : Cell κ ν) ≠ .node n := nofun
  simp only [dtqAppend, hempty, hfirst, dtqAt_some, ok_bind, Dtq.setPrev_prev, Dtq.setPrev_next,
    Dtq.setNext_prev, Dtq.setNext_next, Function.update_of_ne h1, Function.update_of_ne h2,
    hlast, hdprev, hdnext, Function.update_of_ne (lastCell_ne_head n t s).symm]
  rfl

/-- The list `n :: t`, moved to the end of another. -/
theorem Dtq.Rep.splice (h : m.Rep A) {t : List ν} (hds : d ≠ s) (hd : A.lists d = some q)
    (hs : A.lists s = some (n :: t)) :
    (m.splice d q s n t).Rep ⟨(A.lists.put s []).put d (q ++ n :: t), A.cleared⟩ := by
  have hd1 : A.lists d = some (q ++ []) := by rwa [List.append_nil]
  have hL : lastCell (.head d) q ∈ cellsOf (.head d) q := lastCell_mem ..
  have hE : lastCell (.node n) t ∈ cellsOf (.head s) (n :: t) := lastCell_mem (.head s) (n :: t)
  refine ⟨?_, ?_, ?_, fun k hk => ?_⟩
  · have hsep := h.separate.move hds hd1 hs
    rwa [List.append_nil] at hsep
  · have hLs : lastCell (.head d) q ≠ (.head s : Cell κ ν) :=
      (h.separate.ne_cell hd hs hds.symm (List.mem_cons_self ..) hL).symm
    have hEL := h.separate.ne_cell hd hs hds.symm hE hL
    have hmove := h.next.move h.separate hds hd1 hs (g := (m.splice d q s n t).next)
      ?_ ?_ (Function.update_self ..) fun x hxL hxE hxs => ?_
    · rwa [List.append_nil] at hmove
    · dsimp only [Dtq.splice]
      rw [Function.update_of_ne hLs, Function.update_self, h.first_eq hs]
    · dsimp only [Dtq.splice]
      rw [Function.update_of_ne (lastCell_ne_head n t s), Function.update_of_ne hEL,
        Function.update_self, (h.ends hd).1]
    · dsimp only [Dtq.splice]
      rw [Function.update_of_ne hxs, Function.update_of_ne hxL, Function.update_of_ne hxE]
  · -- read from its end, the destination list has the source list put before it
    obtain ⟨n', t', hrev⟩ : ∃ n' t', (n :: t).reverse = n' :: t' :=
      List.exists_cons_of_ne_nil (by simp)
    have hn' : lastCell (.node n' : Cell κ ν) t' = .node n := by
      rw [← lastCell_cons (.head s), ← hrev, List.reverse_cons, lastCell_append]
      rfl
    have hms : A.lists.mirror s = some (n' :: t') := by rw [Family.mirror_eq hs, hrev]
    have hmove := h.prev.move h.separate.mirror hds (q := []) (Family.mirror_eq hd) hms
      (g := (m.splice d q s n t).prev) ?_ ?_ (Function.update_self ..) fun x hxL hxE hxs => ?_
    · rw [Family.mirror_put, Family.mirror_put, List.reverse_append, hrev]
      exact hmove
    · have hds' : (.head d : Cell κ ν) ≠ .head s := fun he => hds (Cell.head.inj he)
      dsimp only [Dtq.splice]
      rw [lastCell_nil, Function.update_of_ne hds', Function.update_self, (h.ends hs).2,
        lastCell_cons]
    · have h1 : (.node n : Cell κ ν) ≠ .head s := nofun
      have h2 : (.node n : Cell κ ν) ≠ .head d := nofun
      dsimp only [Dtq.splice]
      rw [hn', Function.update_of_ne h1, Function.update_of_ne h2, Function.update_self,
        lastCell_nil, (h.ends hd).2]
    · rw [hn'] at hxE
      rw [lastCell_nil] at hxL
      dsimp only [Dtq.splice]
      rw [Function.update_of_ne hxs, Function.update_of_ne hxL, Function.update_of_ne hxE]
  · obtain ⟨hfree, hnext, hprev⟩ := h.cleared k hk
    have hks : (.node k : Cell κ ν) ≠ .head s := nofun
    have hkd : (.node k : Cell κ ν) ≠ .head d := nofun
    have hkn : (.node k : Cell κ ν) ≠ .node n :=
      h.cleared_ne hs hk (mem_cellsOf.mpr (.inr ⟨n, List.mem_cons_self .., rfl⟩))
    refine ⟨(hfree.put List.not_mem_nil s).put ?_ d, ?_, ?_⟩
    · rw [List.mem_append, not_or]
      exact ⟨hfree d q hd, hfree s _ hs⟩
    · dsimp only [Dtq.splice]
      rw [Function.update_of_ne hks, Function.update_of_ne (h.cleared_ne hd hk hL),
        Function.update_of_ne (h.cleared_ne hs hk hE), hnext]
    · dsimp only [Dtq.splice]
      rw [Function.update_of_ne hks, Function.update_of_ne hkd, Function.update_of_ne hkn, hprev]

/-- `dtq_append` of two lists. -/
theorem Dtq.Rep.append (h : m.Rep A) (hds : d ≠ s) (hd : A.lists d = some q)
    (hs : A.lists s = some r) :
    Post (dtqAppend m d s) fun m' =>
      m'.Rep ⟨(A.lists.put s []).put d (q ++ r), A.cleared⟩ := by
  cases r with
  | nil =>
    rw [h.append_nil hs, List.append_nil, Family.put_of_eq hs, Family.put_of_eq hd]
    exact Post.ok h
  | cons n t =>
    rw [h.append_cons hd hs]
    exact Post.ok (h.splice hds hd hs)

/-! ### Sequences of calls -/

/-- A call of one of the functions. -/
inductive DtqOp (κ ν : Type) where
  | init (list : κ)
  | initNode (node : ν)
  | addHead (list : κ) (node : ν)
  | addTail (list : κ) (node : ν)
  | addAfter (prev : Cell κ ν) (insert : ν)
  | addBefore (next : Cell κ ν) (insert : ν)
  | del (node : ν)
  | delHead (list : κ)
  | delTail (list : κ)
  | delAndInitNode (node : ν)
  | delHeadAndInitNode (list : κ)
  | append (destList srcList : κ)
  | moveAndAddTail (head : κ) (node : ν)

/-- What a call gives its caller: nothing, or a node or NULL. -/
inductive DtqRet (κ ν : Type) where
  | unit
  | node (p : Option (Cell κ ν))
  deriving DecidableEq

/-- A function that returns nothing. -/
def dtqVoid (x : Exec (Dtq κ ν)) : Exec (Dtq κ ν × DtqRet κ ν) := do
  let m ← x
  return (m, .unit)

/-- A function that returns a node. -/
def dtqNode (x : Exec (Dtq κ ν × Option (Cell κ ν))) : Exec (Dtq κ ν × DtqRet κ ν) := do
  let (m, p) ← x
  return (m, .node p)

/-- The call in memory. -/
def DtqOp.exec (m : Dtq κ ν) : DtqOp κ ν → Exec (Dtq κ ν × DtqRet κ ν)
  | .init l => .ok (dtqInit m l, .unit)
  | .initNode n => .ok (dtqInitNode m (.node n), .unit)
  | .addHead l n => dtqVoid (dtqAddHead m l (.node n))
  | .addTail l n => dtqVoid (dtqAddTail m l (.node n))
  | .addAfter p n => dtqVoid (dtqAddAfter m p (.node n))
  | .addBefore p n => dtqVoid (dtqAddBefore m p (.node n))
  | .del n => dtqVoid (dtqDel m (.node n))
  | .delHead l => dtqNode (dtaDelHead m l)
  | .delTail l => dtqNode (dtqDelTail m l)
  | .delAndInitNode n => dtqVoid (dtqDelAndInitNode m (.node n))
  | .delHeadAndInitNode l => dtqNode (dtqDelHeadAndInitNode m l)
  | .append d s => dtqVoid (dtqAppend m d s)
  | .moveAndAddTail l n => dtqVoid (dtqMoveAndAddTail m l (.node n))

/-- What the call is for: the sequences after it. -/
def DtqOp.seqs (A : Tracked κ ν) : DtqOp κ ν → Tracked κ ν
  | .init l => ⟨A.lists.put l [], A.cleared⟩
  | .initNode n => ⟨A.lists, insert n A.cleared⟩
  | .addHead l n => ⟨A.lists.put l (n :: A.lists.seq l), A.cleared.erase n⟩
  | .addTail l n => ⟨A.lists.put l (A.lists.seq l ++ [n]), A.cleared.erase n⟩
  | .addAfter p n => ⟨A.lists.addAfter p n, A.cleared.erase n⟩
  | .addBefore p n => ⟨A.lists.addBefore p n, A.cleared.erase n⟩
  | .del n => ⟨A.lists.edit (·.erase n), A.cleared⟩
  | .delHead l => ⟨A.lists.put l (A.lists.seq l).tail, A.cleared⟩
  | .delTail l => ⟨A.lists.put l (A.lists.seq l).dropLast, A.cleared⟩
  | .delAndInitNode n => ⟨A.lists.edit (·.erase n), insert n A.cleared⟩
  | .delHeadAndInitNode l =>
    ⟨A.lists.put l (A.lists.seq l).tail,
      ((A.lists.seq l).head?.map fun n => insert n A.cleared).getD A.cleared⟩
  | .append d s => ⟨(A.lists.put s []).put d (A.lists.seq d ++ A.lists.seq s), A.cleared⟩
  | .moveAndAddTail l n =>
    ⟨(A.lists.edit (·.erase n)).put l ((A.lists.edit (·.erase n)).seq l ++ [n]),
      A.cleared.erase n⟩

/-- What the call is for: its result. -/
def DtqOp.ret (A : Tracked κ ν) : DtqOp κ ν → DtqRet κ ν
  | .delHead l => .node ((A.lists.seq l).head?.map .node)
  | .delTail l => .node ((A.lists.seq l).getLast?.map .node)
  | .delHeadAndInitNode l => .node ((A.lists.seq l).head?.map .node)
  | _ => .unit

/-- The call keeps to the rules: it names lists that have been made and cells that are in one, and
links in only nodes that are in none. -/
def DtqOp.Allowed (A : Tracked κ ν) : DtqOp κ ν → Prop
  | .init _ => True
  | .initNode n => A.lists.Free n
  | .addHead l n => A.lists.Made l ∧ A.lists.Free n
  | .addTail l n => A.lists.Made l ∧ A.lists.Free n
  | .addAfter p n => A.lists.IsCell p ∧ A.lists.Free n
  | .addBefore p n => A.lists.IsCell p ∧ A.lists.Free n
  | .del n => A.lists.Has n
  | .delHead l => A.lists.Made l
  | .delTail l => A.lists.Made l
  | .delAndInitNode n => A.lists.Has n ∨ n ∈ A.cleared
  | .delHeadAndInitNode l => A.lists.Made l
  | .append d s => A.lists.Made d ∧ A.lists.Made s ∧ d ≠ s
  | .moveAndAddTail l n => A.lists.Made l ∧ (A.lists.Has n ∨ n ∈ A.cleared)

/-- The calls one after the other, with what they return. -/
def dtqRun : Dtq κ ν → List (DtqOp κ ν) → Exec (Dtq κ ν × List (DtqRet κ ν))
  | m, [] => .ok (m, [])
  | m, op :: ops => do
    let (m, ret) ← op.exec m
    let (m, rets) ← dtqRun m ops
    return (m, ret :: rets)

/-- The sequences after the calls. -/
def dtqSeqs : Tracked κ ν → List (DtqOp κ ν) → Tracked κ ν
  | A, [] => A
  | A, op :: ops => dtqSeqs (op.seqs A) ops

/-- What the calls return. -/
def dtqRets : Tracked κ ν → List (DtqOp κ ν) → List (DtqRet κ ν)
  | _, [] => []
  | A, op :: ops => op.ret A :: dtqRets (op.seqs A) ops

/-- All calls keep to the rules. -/
def DtqAllowed : Tracked κ ν → List (DtqOp κ ν) → Prop
  | _, [] => True
  | A, op :: ops => op.Allowed A ∧ DtqAllowed (op.seqs A) ops

theorem dtqVoid_post {κ ν : Type} {x : Exec (Dtq κ ν)} {B : Tracked κ ν} (h : Post x fun m' => m'.Rep B) :
    Post (dtqVoid x) fun u => u.2 = .unit ∧ u.1.Rep B :=
  h.bind fun _ hm => Post.pure ⟨rfl, hm⟩

theorem dtqNode_post {κ ν : Type} {x : Exec (Dtq κ ν × Option (Cell κ ν))} {p : Option (Cell κ ν)}
    {B : Tracked κ ν} (h : Post x fun u => u.2 = p ∧ u.1.Rep B) :
    Post (dtqNode x) fun u => u.2 = .node p ∧ u.1.Rep B :=
  h.bind fun _ hu => Post.pure ⟨congrArg DtqRet.node hu.1, hu.2⟩

/-- One call does what it is for. -/
theorem dtqStep_refines {op : DtqOp κ ν} (h : m.Rep A) (hop : op.Allowed A) :
    Post (op.exec m) fun u => u.2 = op.ret A ∧ u.1.Rep (op.seqs A) := by
  have hins : ∀ {l q r n}, A.lists l = some (q ++ r) → A.lists.Free n →
      Post (.ok (m.linkIn l q n r)) fun m' =>
        m'.Rep ⟨A.lists.put l (q ++ n :: r), A.cleared.erase n⟩ :=
    fun hl hn => Post.ok (h.linkIn hl hn)
  cases op with
  | init l => exact Post.ok ⟨rfl, h.init l⟩
  | initNode n => exact Post.ok ⟨rfl, h.initNode hop⟩
  | addHead l n =>
    refine dtqVoid_post ?_
    have hl : A.lists l = some ([] ++ A.lists.seq l) := hop.1.eq
    rw [dtqAddHead, ← lastCell_nil (.head l), h.addAfter hl hop.2]
    exact hins hl hop.2
  | addTail l n =>
    refine dtqVoid_post ?_
    have hl : A.lists l = some (A.lists.seq l ++ []) := by rw [List.append_nil, hop.1.eq]
    have hadd := h.addBefore hl hop.2
    rw [List.reverse_nil, lastCell_nil] at hadd
    rw [dtqAddTail, hadd]
    exact hins hl hop.2
  | addAfter p n =>
    refine dtqVoid_post ?_
    obtain ⟨l, q, r, hl, rfl, he⟩ := h.separate.addAfter_place hop.1 n
    rw [DtqOp.seqs, he, h.addAfter hl hop.2]
    exact hins hl hop.2
  | addBefore p n =>
    refine dtqVoid_post ?_
    obtain ⟨l, q, r, hl, rfl, he⟩ := h.separate.addBefore_place hop.1 n
    rw [DtqOp.seqs, he, h.addBefore hl hop.2]
    exact hins hl hop.2
  | del n =>
    refine dtqVoid_post ?_
    obtain ⟨l, q, r, hl⟩ := hop
    rw [h.del hl, DtqOp.seqs, h.separate.erase_eq hl]
    exact Post.ok (h.linkOut hl)
  | delHead l =>
    have hl : A.lists l = some (A.lists.seq l) := Family.Made.eq hop
    rw [DtqOp.exec, dtaDelHead, h.first hl, DtqOp.seqs, DtqOp.ret]
    generalize A.lists.seq l = q at hl
    cases q with
    | nil =>
      rw [h.delEnd_nil hl, List.tail_nil, Family.put_of_eq hl]
      exact Post.ok ⟨rfl, h⟩
    | cons n r =>
      refine dtqNode_post (h.delEnd hl (List.mem_cons_self ..) ?_)
      rw [h.del (q := []) hl]
      exact Post.ok (h.linkOut (q := []) hl)
  | delTail l =>
    have hl : A.lists l = some (A.lists.seq l) := Family.Made.eq hop
    rw [DtqOp.exec, dtqDelTail, h.last hl, DtqOp.seqs, DtqOp.ret]
    generalize A.lists.seq l = q at hl
    rcases List.eq_nil_or_concat q with rfl | ⟨p, n, rfl⟩
    · rw [h.delEnd_nil hl, List.dropLast_nil, Family.put_of_eq hl]
      exact Post.ok ⟨rfl, h⟩
    · rw [List.concat_eq_append] at hl ⊢
      rw [List.getLast?_concat, List.dropLast_concat]
      refine dtqNode_post (h.delEnd hl (by simp) ?_)
      have hout := h.linkOut hl
      rw [List.append_nil] at hout
      rw [h.del hl]
      exact Post.ok hout
  | delAndInitNode n =>
    refine dtqVoid_post ?_
    obtain ⟨m', hrun, hrep, hfree⟩ := h.unlink hop
    rw [dtqDelAndInitNode, hrun, ok_bind]
    exact Post.pure (hrep.initNode hfree)
  | delHeadAndInitNode l =>
    have hl : A.lists l = some (A.lists.seq l) := Family.Made.eq hop
    rw [DtqOp.exec, dtqDelHeadAndInitNode, h.first hl, DtqOp.seqs, DtqOp.ret]
    generalize A.lists.seq l = q at hl
    cases q with
    | nil =>
      rw [h.delEnd_nil hl, List.tail_nil, Family.put_of_eq hl]
      exact Post.ok ⟨rfl, h⟩
    | cons n r => exact dtqNode_post (h.delEnd_init hl)
  | append d s =>
    refine dtqVoid_post ?_
    exact h.append hop.2.2 hop.1.eq hop.2.1.eq
  | moveAndAddTail l n =>
    refine dtqVoid_post ?_
    obtain ⟨m', hrun, hrep, hfree⟩ := h.unlink hop.2
    have hl : A.lists.edit (·.erase n) l = some ((A.lists.edit (·.erase n)).seq l ++ []) := by
      rw [List.append_nil, (hop.1.edit _).eq]
    have hadd := hrep.addBefore hl hfree
    rw [List.reverse_nil, lastCell_nil] at hadd
    rw [dtqMoveAndAddTail, hrun, ok_bind, dtqAddTail, hadd]
    exact Post.ok (hrep.linkIn hl hfree)

/-- A whole run, by induction on its calls. -/
theorem dtqRun_refines {ops : List (DtqOp κ ν)} (h : m.Rep A) (hops : DtqAllowed A ops) :
    Post (dtqRun m ops) fun u => u.2 = dtqRets A ops ∧ u.1.Rep (dtqSeqs A ops) := by
  induction ops generalizing m A with
  | nil => exact Post.ok ⟨rfl, h⟩
  | cons op ops ih =>
    refine (dtqStep_refines h hops.1).bind fun u hu => ?_
    refine (ih hu.2 hops.2).bind fun v hv => Post.pure ⟨?_, hv.2⟩
    rw [hu.1, hv.1]
    rfl

/-- A walk along a ring visits its nodes and comes back to the header. -/
theorem dtqWalk_follows {f : Cell κ ν → Option (Cell κ ν)} {a : Cell κ ν} {fuel : ℕ}
    (h : Follows dtqPtr f a q (some (.head l))) (hf : q.length < fuel) :
    dtqWalk f l fuel a = .ok (q.map .node) := by
  induction q generalizing a fuel with
  | nil =>
    obtain ⟨fuel, rfl⟩ : ∃ k, fuel = k + 1 := ⟨fuel - 1, by omega⟩
    have hend : f a = some (.head l) := h
    rw [dtqWalk, hend, dtqAt_some, ok_bind, if_pos rfl]
    rfl
  | cons n q ih =>
    obtain ⟨fuel, rfl⟩ : ∃ k, fuel = k + 1 := ⟨fuel - 1, by omega⟩
    have hn : f a = some (.node n) := h.1
    have hne : (.node n : Cell κ ν) ≠ .head l := nofun
    rw [dtqWalk, hn, dtqAt_some, ok_bind, if_neg hne, ih h.2 (Nat.lt_of_succ_lt_succ hf)]
    rfl

/-- No list has been made, whatever the memory holds. -/
theorem Dtq.rep_none {κ ν : Type} (m : Dtq κ ν) : m.Rep ⟨fun _ => none, ∅⟩ where
  separate := ⟨nofun, nofun⟩
  next := nofun
  prev := nofun
  cleared _ hk := absurd hk (Finset.notMem_empty _)

/-- Every sequence of calls that keeps to the rules returns what the sequences say, and then the
walks over each list give its sequence by `next` and its reverse by `prev`. -/
theorem dtq_refines (m : Dtq κ ν) {ops : List (DtqOp κ ν)}
    (hops : DtqAllowed ⟨fun _ => none, ∅⟩ ops) :
    ∃ m', dtqRun m ops = .ok (m', dtqRets ⟨fun _ => none, ∅⟩ ops) ∧
      ∀ l q, (dtqSeqs ⟨fun _ => none, ∅⟩ ops).lists l = some q → ∀ fuel, q.length < fuel →
        dtqWalk m'.next l fuel (.head l) = .ok (q.map .node) ∧
          dtqWalk m'.prev l fuel (.head l) = .ok (q.reverse.map .node) := by
  obtain ⟨⟨m', rets⟩, hrun, rfl, h⟩ := dtqRun_refines m.rep_none hops
  refine ⟨m', hrun, fun l q hl fuel hf => ⟨dtqWalk_follows (h.next l q hl) hf, ?_⟩⟩
  have hrev : q.reverse.length < fuel := by rwa [List.length_reverse]
  exact dtqWalk_follows (h.prev l _ (Family.mirror_eq hl)) hrev

/-- Calls on two deques. -/
def someDtqOps : List (DtqOp Bool ℕ) :=
  [.init true, .init false, .addHead true 1, .addAfter (.node 1) 2, .addBefore (.head true) 3,
    .delTail true, .append false true, .initNode 4, .moveAndAddTail true 4, .delHead false]

theorem someDtqOps_allowed : DtqAllowed ⟨fun _ => none, ∅⟩ someDtqOps :=
  ⟨trivial, trivial, ⟨rfl, Family.free_iff.mpr (by decide)⟩,
    ⟨⟨true, [], [], rfl⟩, Family.free_iff.mpr (by decide)⟩,
    ⟨rfl, Family.free_iff.mpr (by decide)⟩, rfl, ⟨rfl, rfl, by decide⟩,
    Family.free_iff.mpr (by decide), ⟨rfl, .inr (by decide)⟩, rfl, trivial⟩

theorem dtq_refines_some :
    ∃ m', dtqRun ⟨fun _ => none, fun _ => none⟩ someDtqOps =
        .ok (m', dtqRets ⟨fun _ => none, ∅⟩ someDtqOps) ∧
      ∀ l q, (dtqSeqs ⟨fun _ => none, ∅⟩ someDtqOps).lists l = some q → ∀ fuel, q.length < fuel →
        dtqWalk m'.next l fuel (.head l) = .ok (q.map .node) ∧
          dtqWalk m'.prev l fuel (.head l) = .ok (q.reverse.map .node) :=
  dtq_refines ⟨fun _ => none, fun _ => none⟩ someDtqOps_allowed

end CcUtils.Lists
