import CcUtils.Lists.Dl
import CcUtils.Lists.Dtq
import Mathlib.Data.List.Chain

/-!
# The entries around the nodes

A list links nodes, and each node lies in an entry, at an offset that is the same for all of them: an
entry is computed from the address of its node, and the other way round. What is computed from the header
of a list is no entry. `DL_ENTRY_PREV` and `DTQ_FOREACH_ENTRY` find the end of the list by comparing such
numbers with NULL, and with the header.

## What is proved

* `entryWalk_eq_ok` — what a walk over entries visits.
* `entryPrev_iff` — `DL_ENTRY_PREV` stops before the first entry only where the header lies at the offset.
* `foreachEntry_iff` — so does `DTQ_FOREACH_ENTRY` after the last one.
* `dtqForeach_nodes` — `DTQ_FOREACH` always stops there.
-/

namespace CcUtils.Lists

open CcUtils.Lib

variable {κ ν : Type}

/-! ### Addresses -/

/-- A pointer as a number; NULL is 0. -/
abbrev Addr := BitVec 64

/-- `container_of`. -/
def containerOf (ptr off : Addr) : Addr := ptr - off

/-- Where the headers and nodes are, and how far into its entry a node lies. -/
structure Layout (κ ν : Type) where
  addr : Cell κ ν → Addr
  off : Addr
  inj : Function.Injective addr
  addr_ne : ∀ a, addr a ≠ 0
  entry_ne : ∀ n, addr (.node n) ≠ off

/-- The entry of a node. -/
def Layout.entry (L : Layout κ ν) (n : ν) : Addr := containerOf (L.addr (.node n)) L.off

/-- A pointer to a cell. -/
def Layout.cell (L : Layout κ ν) : Option (Cell κ ν) → Addr
  | some a => L.addr a
  | none => 0

@[simp] theorem Layout.cell_some (L : Layout κ ν) (a : Cell κ ν) : L.cell (some a) = L.addr a := rfl

@[simp] theorem Layout.cell_none (L : Layout κ ν) : L.cell none = 0 := rfl

/-- The words of a memory with the lists of `dl_list`: `next` is the first field of a node. -/
structure DlWords (L : Layout κ ν) (w : Addr → Addr) (m : Dl κ ν) : Prop where
  link : ∀ a, w (L.addr a) = L.cell ((m.link a).map .node)
  prev : ∀ n, w (L.addr (.node n) + 8) = L.cell (m.prev n)

/-- The words of a memory with the deques: `prev` is the first field of a node. -/
structure DtqWords (L : Layout κ ν) (w : Addr → Addr) (m : Dtq κ ν) : Prop where
  prev : ∀ a, w (L.addr a) = L.cell (m.prev a)
  next : ∀ a, w (L.addr a + 8) = L.cell (m.next a)

/-! ### The macros -/

/-- `dl_next`. -/
def dlNextAt (w : Addr → Addr) (node : Addr) : Addr := w node

/-- `dl_prev`, by `DL_NODE_FROM_PPRE`. -/
def dlPrevAt (w : Addr → Addr) (node : Addr) : Addr := containerOf (w (node + 8)) 0

/-- `DL_ENTRY_NEXT` and `DL_ENTRY_PREV`: the entry of the node that `f` finds, or NULL. -/
def dlEntryBy (f : Addr → Addr) (off entry : Addr) : Addr :=
  if entry = 0 then 0
  else if f (entry + off) = 0 then 0
  else containerOf (f (entry + off)) off

/-- `DL_ENTRY_NEXT`. -/
def dlEntryNext (w : Addr → Addr) : Addr → Addr → Addr := dlEntryBy (dlNextAt w)

/-- `DL_ENTRY_PREV`. -/
def dlEntryPrev (w : Addr → Addr) : Addr → Addr → Addr := dlEntryBy (dlPrevAt w)

/-- The entries visited after `entry`, until `step` yields NULL. -/
def entryWalk (step : Addr → Addr) : ℕ → Addr → Exec (List Addr)
  | 0, _ => .error .outOfFuel
  | fuel + 1, entry =>
    if step entry = 0 then .ok []
    else do
      let entries ← entryWalk step fuel (step entry)
      return step entry :: entries

/-- `dtq_next`. -/
def dtqNextAt (w : Addr → Addr) (node : Addr) : Addr := w (node + 8)

/-- `dtq_first`. -/
def dtqFirstAt (w : Addr → Addr) (list : Addr) : Addr :=
  if dtqNextAt w list = list then 0 else dtqNextAt w list

/-- `dtq_is_end`. -/
def dtqIsEndAt (w : Addr → Addr) (list node : Addr) : Bool :=
  if dtqNextAt w list = list then true
  else if node = 0 then true
  else node = list

/-- `DTQ_ENTRY_FIRST`. -/
def dtqEntryFirst (w : Addr → Addr) (list off : Addr) : Addr :=
  if dtqFirstAt w list = 0 then 0 else containerOf (dtqFirstAt w list) off

/-- `DTQ_ENTRY_NEXT`. -/
def dtqEntryNext (w : Addr → Addr) (list off entry : Addr) : Addr :=
  if dtqIsEndAt w list (if entry = 0 then 0 else dtqNextAt w (entry + off)) then 0
  else containerOf (dtqNextAt w (entry + off)) off

/-- `DTQ_FOREACH_ENTRY` from the cursor `entry` on: the entries that its body runs for, and what the
cursor is after it. -/
def dtqForeachEntry (w : Addr → Addr) (list off : Addr) : ℕ → Addr → Exec (List Addr × Addr)
  | 0, _ => .error .outOfFuel
  | fuel + 1, entry =>
    if entry + off ≠ list then do
      let (entries, cursor) ← dtqForeachEntry w list off fuel (dtqEntryNext w list off entry)
      return (entry :: entries, cursor)
    else .ok ([], 0)

/-- `DTQ_FOREACH` from the cursor `node` on: the nodes that its body runs for. -/
def dtqForeach (w : Addr → Addr) (list : Addr) : ℕ → Addr → Exec (List Addr)
  | 0, _ => .error .outOfFuel
  | fuel + 1, node =>
    if node ≠ list then do
      let nodes ← dtqForeach w list fuel (dtqNextAt w node)
      return node :: nodes
    else .ok []

/-! ### Walks -/

variable {L : Layout κ ν} {w : Addr → Addr} {l : κ} {q r : List ν} {n k : ν} {fuel : ℕ}
  {step : Addr → Addr} {e : Addr} {es : List Addr}

@[simp] theorem Layout.entry_add (L : Layout κ ν) (n : ν) :
    L.entry n + L.off = L.addr (.node n) := BitVec.sub_add_cancel ..

theorem containerOf_eq_zero {a off : Addr} : containerOf a off = 0 ↔ a = off := by
  rw [containerOf]
  bv_omega

theorem Layout.entry_ne_zero (L : Layout κ ν) (n : ν) : L.entry n ≠ 0 := fun h =>
  L.entry_ne n (containerOf_eq_zero.mp h)

theorem Layout.addr_ne_head (L : Layout κ ν) (n : ν) (l : κ) :
    L.addr (.node n) ≠ L.addr (.head l) := fun h => nomatch L.inj h

theorem dlEntryBy_entry (f : Addr → Addr) (n : ν) :
    dlEntryBy f L.off (L.entry n) =
      if f (L.addr (.node n)) = 0 then 0 else containerOf (f (L.addr (.node n))) L.off := by
  rw [dlEntryBy, if_neg (L.entry_ne_zero n), L.entry_add]

/-- **What a walk visits**: each step leads to the next entry, and the last one to NULL. -/
theorem entryWalk_eq_ok :
    (∃ fuel, entryWalk step fuel e = .ok es) ↔
      (e :: es ++ [0]).IsChain (step · = ·) ∧ ∀ a ∈ es, a ≠ 0 := by
  induction es generalizing e with
  | nil =>
    simp only [List.cons_append, List.nil_append, List.isChain_cons_cons, List.isChain_singleton,
      and_true, List.not_mem_nil, false_implies, implies_true]
    constructor
    · rintro ⟨fuel, h⟩
      cases fuel with
      | zero => cases h
      | succ fuel =>
        by_contra hne
        rw [entryWalk, if_neg hne] at h
        obtain ⟨_, -, h⟩ := bind_eq_ok.mp h
        cases h
    · intro h
      exact ⟨1, by rw [entryWalk, if_pos h]⟩
  | cons a es ih =>
    simp only [List.cons_append, List.isChain_cons_cons, List.forall_mem_cons] at ih ⊢
    constructor
    · rintro ⟨fuel, h⟩
      cases fuel with
      | zero => cases h
      | succ fuel =>
        rw [entryWalk] at h
        split at h
        · cases h
        · rename_i hne
          obtain ⟨es', hes, h⟩ := bind_eq_ok.mp h
          obtain ⟨rfl, rfl⟩ := List.cons.inj (Except.ok.inj h)
          obtain ⟨hchain, hall⟩ := ih.mp ⟨fuel, hes⟩
          exact ⟨⟨rfl, hchain⟩, hne, hall⟩
    · rintro ⟨⟨rfl, hchain⟩, hne, hall⟩
      obtain ⟨fuel, h⟩ := ih.mpr ⟨hchain, hall⟩
      exact ⟨fuel + 1, by rw [entryWalk, if_neg hne, h]; rfl⟩

variable {m : Dl κ ν} {d : Dtq κ ν} {A : Tracked κ ν}

/-! ### `DL_ENTRY_PREV` -/

/-- Backwards from the entry of `n`, before which the list has `q`: `DL_ENTRY_PREV` visits the entries of
`q`, the last one first, and yields NULL then. It takes back `DL_ENTRY_NEXT`, and no entry it yields is
computed from the header. -/
structure EntryPrevRight (L : Layout κ ν) (w : Addr → Addr) (l : κ) (q : List ν) (n : ν) : Prop where
  visits : ∃ fuel, entryWalk (dlEntryPrev w L.off) fuel (L.entry n) = .ok (q.reverse.map L.entry)
  inverts : dlEntryNext w L.off (L.entry n) ≠ 0 →
    dlEntryPrev w L.off (dlEntryNext w L.off (L.entry n)) = L.entry n
  noHead : ∀ i, (dlEntryPrev w L.off)^[i] (L.entry n) ≠ 0 →
    (dlEntryPrev w L.off)^[i] (L.entry n) ≠ containerOf (L.addr (.head l)) L.off

/-- Back from an entry: to what is computed from the cell before its node. -/
theorem DlWords.entryPrev (hw : DlWords L w m) (h : m.Rep A) (hl : A.lists l = some (q ++ n :: r)) :
    dlEntryPrev w L.off (L.entry n) = containerOf (L.addr (lastCell (.head l) q)) L.off := by
  have hprev : dlPrevAt w (L.addr (.node n)) = L.addr (lastCell (.head l) q) := by
    rw [dlPrevAt, containerOf, hw.prev, h.prev_eq hl, L.cell_some]
    exact BitVec.sub_zero _
  rw [dlEntryPrev, dlEntryBy_entry, hprev, if_neg (L.addr_ne _)]

/-- Forward from an entry. -/
theorem DlWords.entryNext (hw : DlWords L w m) (h : m.Rep A) (hl : A.lists l = some (q ++ n :: r)) :
    dlEntryNext w L.off (L.entry n) = (r.head?.map L.entry).getD 0 := by
  have hl1 : A.lists l = some ((q ++ [n]) ++ r) := by rwa [List.append_assoc]
  have hlink := h.link_eq hl1
  rw [lastCell_append, lastCell_cons, lastCell_nil] at hlink
  rw [dlEntryNext, dlEntryBy_entry, dlNextAt, hw.link, hlink]
  cases r with
  | nil => rfl
  | cons k r =>
    rw [List.head?_cons, Option.map_some, L.cell_some, if_neg (L.addr_ne _)]
    rfl

/-- The steps back lead from entry to entry; the last of them leads to NULL or not. -/
theorem DlWords.prev_chain (hw : DlWords L w m) (h : m.Rep A)
    (hl : A.lists l = some (q ++ n :: r)) :
    (L.entry n :: q.reverse.map L.entry ++ [0]).IsChain (dlEntryPrev w L.off · = ·) ↔
      L.addr (.head l) = L.off := by
  induction q using List.reverseRecOn generalizing n r with
  | nil =>
    simp only [List.reverse_nil, List.map_nil, List.cons_append, List.nil_append,
      List.isChain_cons_cons, List.isChain_singleton, and_true]
    rw [hw.entryPrev h hl, lastCell_nil, containerOf_eq_zero]
  | append_singleton q k ih =>
    have hl1 : A.lists l = some (q ++ k :: n :: r) := by rwa [List.append_assoc] at hl
    have hstep : dlEntryPrev w L.off (L.entry n) = L.entry k := by
      rw [hw.entryPrev h hl, lastCell_append]
      rfl
    rw [List.reverse_concat, List.map_cons, List.cons_append, List.cons_append,
      List.isChain_cons_cons, and_iff_right hstep]
    exact ih hl1

/-- **`DL_ENTRY_PREV` goes right** from a member exactly when the header of the list lies at the address
that is the offset, so that what is computed from it is NULL. -/
theorem entryPrev_iff (hw : DlWords L w m) (h : m.Rep A) (hl : A.lists l = some (q ++ n :: r)) :
    EntryPrevRight L w l q n ↔ L.addr (.head l) = L.off := by
  constructor
  · intro hright
    exact (hw.prev_chain h hl).mp (entryWalk_eq_ok.mp hright.visits).1
  · intro hoff
    refine ⟨entryWalk_eq_ok.mpr ⟨(hw.prev_chain h hl).mpr hoff, ?_⟩, ?_, ?_⟩
    · rintro _ ha
      obtain ⟨k, -, rfl⟩ := List.mem_map.mp ha
      exact L.entry_ne_zero k
    · rw [hw.entryNext h hl]
      cases r with
      | nil => exact fun hne => absurd rfl hne
      | cons k r =>
        have hl1 : A.lists l = some ((q ++ [n]) ++ k :: r) := by rwa [List.append_assoc]
        intro _
        rw [List.head?_cons, Option.map_some, Option.getD_some, hw.entryPrev h hl1, lastCell_append]
        rfl
    · intro i hi
      rwa [containerOf_eq_zero.mpr hoff]

/-! ### `DTQ_FOREACH_ENTRY` -/

/-- `DTQ_FOREACH_ENTRY` runs its body once for each entry of `q`, in order, and leaves its cursor NULL. -/
def ForeachEntryRight (L : Layout κ ν) (w : Addr → Addr) (l : κ) (q : List ν) : Prop :=
  ∃ fuel, dtqForeachEntry w (L.addr (.head l)) L.off fuel
    (dtqEntryFirst w (L.addr (.head l)) L.off) = .ok (q.map L.entry, 0)

/-- The cursor before the entries of `r`, which are the last ones. -/
def Layout.cursor (L : Layout κ ν) (r : List ν) : Addr := (r.head?.map L.entry).getD 0

theorem DtqWords.nextAt (hw : DtqWords L w d) (h : d.Rep A) (hl : A.lists l = some (q ++ r)) :
    dtqNextAt w (L.addr (lastCell (.head l) q)) = L.addr (lastCell (.head l) r.reverse) := by
  rw [dtqNextAt, hw.next, h.next_eq hl, L.cell_some]

/-- The first node, if any: no list is taken for an empty one. -/
theorem DtqWords.first_ne (hw : DtqWords L w d) (h : d.Rep A) (hl : A.lists l = some (n :: r)) :
    dtqNextAt w (L.addr (.head l)) ≠ L.addr (.head l) := by
  have hnext := hw.nextAt (q := []) h hl
  rw [List.reverse_cons, lastCell_append] at hnext
  rw [← lastCell_nil (.head l), hnext]
  exact L.addr_ne_head n l

theorem DtqWords.entryFirst (hw : DtqWords L w d) (h : d.Rep A) (hl : A.lists l = some r) :
    dtqEntryFirst w (L.addr (.head l)) L.off = L.cursor r := by
  have hnext := hw.nextAt (q := []) h hl
  rw [lastCell_nil] at hnext
  cases r with
  | nil =>
    have hempty : dtqNextAt w (L.addr (.head l)) = L.addr (.head l) := hnext
    rw [dtqEntryFirst, dtqFirstAt, if_pos hempty, if_pos rfl]
    rfl
  | cons n r =>
    rw [List.reverse_cons, lastCell_append] at hnext
    rw [dtqEntryFirst, dtqFirstAt, if_neg (hw.first_ne h hl), hnext, if_neg (L.addr_ne _)]
    rfl

theorem dtqEntryNext_null (list off : Addr) : dtqEntryNext w list off 0 = 0 := by
  have hend : dtqIsEndAt w list 0 = true := by simp [dtqIsEndAt]
  rw [dtqEntryNext, if_pos rfl, if_pos hend]

theorem DtqWords.entryNext (hw : DtqWords L w d) (h : d.Rep A)
    (hl : A.lists l = some (q ++ n :: r)) :
    dtqEntryNext w (L.addr (.head l)) L.off (L.entry n) = L.cursor r := by
  have hl1 : A.lists l = some ((q ++ [n]) ++ r) := by rwa [List.append_assoc]
  have hnext := hw.nextAt h hl1
  rw [lastCell_append, lastCell_cons, lastCell_nil] at hnext
  have hfirst : dtqNextAt w (L.addr (.head l)) ≠ L.addr (.head l) := by
    cases q with
    | nil => exact hw.first_ne h hl
    | cons k q => exact hw.first_ne h hl
  rw [dtqEntryNext, if_neg (L.entry_ne_zero n), L.entry_add, hnext, dtqIsEndAt, if_neg hfirst,
    if_neg (L.addr_ne _)]
  cases r with
  | nil => simp [Layout.cursor]
  | cons k r =>
    have hk : L.addr (lastCell (.head l) (k :: r).reverse) = L.addr (.node k) := by
      rw [List.reverse_cons, lastCell_append]
      rfl
    rw [hk, if_neg (by simpa using L.addr_ne_head k l)]
    rfl

/-- The turns for the entries that are left, and the test at NULL that ends them. -/
theorem DtqWords.foreach_ok (hw : DtqWords L w d) (h : d.Rep A) (hoff : L.addr (.head l) = L.off)
    (hl : A.lists l = some (q ++ r)) :
    dtqForeachEntry w (L.addr (.head l)) L.off (r.length + 1) (L.cursor r) =
      .ok (r.map L.entry, 0) := by
  induction r generalizing q with
  | nil =>
    have hend : L.cursor [] + L.off = L.addr (.head l) := (BitVec.zero_add _).trans hoff.symm
    rw [dtqForeachEntry, if_neg (not_not.mpr hend)]
    rfl
  | cons n r ih =>
    have hl1 : A.lists l = some ((q ++ [n]) ++ r) := by rwa [List.append_assoc]
    have hcursor : L.cursor (n :: r) = L.entry n := rfl
    have hne : L.entry n + L.off ≠ L.addr (.head l) := by
      rw [L.entry_add]
      exact L.addr_ne_head n l
    rw [hcursor, List.length_cons, dtqForeachEntry, if_pos hne, hw.entryNext h hl, ih hl1]
    rfl

/-- Where the header lies elsewhere, the loop goes on with NULL. -/
theorem DtqWords.foreach_never (hw : DtqWords L w d) (h : d.Rep A)
    (hoff : L.addr (.head l) ≠ L.off) (hl : A.lists l = some (q ++ r)) (fuel : ℕ) :
    dtqForeachEntry w (L.addr (.head l)) L.off fuel (L.cursor r) = .error .outOfFuel := by
  induction fuel generalizing q r with
  | zero => rfl
  | succ fuel ih =>
    cases r with
    | nil =>
      have hne : L.cursor [] + L.off ≠ L.addr (.head l) := fun he =>
        hoff (he.symm.trans (BitVec.zero_add _))
      have hnext : dtqEntryNext w (L.addr (.head l)) L.off (L.cursor []) = L.cursor [] :=
        dtqEntryNext_null _ _
      rw [dtqForeachEntry, if_pos hne, hnext, ih hl]
      rfl
    | cons n r =>
      have hl1 : A.lists l = some ((q ++ [n]) ++ r) := by rwa [List.append_assoc]
      have hcursor : L.cursor (n :: r) = L.entry n := rfl
      have hne : L.entry n + L.off ≠ L.addr (.head l) := by
        rw [L.entry_add]
        exact L.addr_ne_head n l
      rw [hcursor, dtqForeachEntry, if_pos hne, hw.entryNext h hl, ih hl1]
      rfl

/-- **`DTQ_FOREACH_ENTRY` goes right** over a list exactly when its header lies at the address that is the
offset, so that the test at NULL is the test at the header. -/
theorem foreachEntry_iff (hw : DtqWords L w d) (h : d.Rep A) (hl : A.lists l = some q) :
    ForeachEntryRight L w l q ↔ L.addr (.head l) = L.off := by
  rw [ForeachEntryRight, hw.entryFirst h hl]
  constructor
  · rintro ⟨fuel, hrun⟩
    by_contra hoff
    rw [hw.foreach_never (q := []) h hoff hl fuel] at hrun
    cases hrun
  · intro hoff
    exact ⟨q.length + 1, hw.foreach_ok (q := []) h hoff hl⟩

/-- **`DTQ_FOREACH`** runs its body once for each node, in order. -/
theorem dtqForeach_nodes (hw : DtqWords L w d) (h : d.Rep A) (hl : A.lists l = some (q ++ r)) :
    dtqForeach w (L.addr (.head l)) (r.length + 1)
      (dtqNextAt w (L.addr (lastCell (.head l) q))) = .ok (r.map fun n => L.addr (.node n)) := by
  rw [hw.nextAt h hl]
  induction r generalizing q with
  | nil =>
    have hend : L.addr (lastCell (.head l) [].reverse) = L.addr (.head l) := rfl
    rw [dtqForeach, if_neg (not_not.mpr hend)]
    rfl
  | cons n r ih =>
    have hl1 : A.lists l = some ((q ++ [n]) ++ r) := by rwa [List.append_assoc]
    have hnext := hw.nextAt h hl1
    rw [lastCell_append, lastCell_cons, lastCell_nil] at hnext
    have hn : lastCell (.head l) (n :: r).reverse = (.node n : Cell κ ν) := by
      rw [List.reverse_cons, lastCell_append]
      rfl
    rw [hn, List.length_cons, dtqForeach, if_pos (L.addr_ne_head n l), hnext, ih hl1]
    rfl

/-! ### A list of one entry -/

/-- A header, and an entry with its node 8 bytes in. -/
def oneLayout : Layout Unit Unit where
  addr
    | .head _ => 0x1000
    | .node _ => 0x2008
  off := 8
  inj := by rintro (_ | _) (_ | _) h <;> first | rfl | cases h
  addr_ne := by rintro (_ | _) h <;> cases h
  entry_ne := by
    rintro ⟨⟩
    decide

def oneDl : Dl Unit Unit := (dlInit ⟨fun _ => none, fun _ => none⟩ ()).linkIn () [] () []

def oneDtq : Dtq Unit Unit := (dtqInit ⟨fun _ => none, fun _ => none⟩ ()).linkIn () [] () []

def oneTracked : Tracked Unit Unit :=
  ⟨Family.put (Family.put (fun _ => none) () []) () [()], (∅ : Finset Unit).erase ()⟩

theorem oneFree : (Family.put (fun _ => none) () [] : Family Unit Unit).Free () := by
  intro l q hl
  rcases Family.of_put hl with ⟨-, rfl⟩ | ⟨-, hl⟩
  · exact List.not_mem_nil
  · cases hl

def oneDlWords (a : Addr) : Addr :=
  if a = 0x1000 then 0x2008 else if a = 0x2010 then 0x1000 else 0

def oneDtqWords (a : Addr) : Addr := if a = 0x1000 ∨ a = 0x1008 then 0x2008 else 0x1000

theorem oneDl_words : DlWords oneLayout oneDlWords oneDl :=
  ⟨by rintro (_ | _) <;> rfl, by rintro ⟨⟩; rfl⟩

theorem oneDtq_words : DtqWords oneLayout oneDtqWords oneDtq :=
  ⟨by rintro (_ | _) <;> rfl, by rintro (_ | _) <;> rfl⟩

theorem oneDl_rep : oneDl.Rep oneTracked :=
  ((Dl.rep_none _).init ()).linkIn (q := []) (r := []) rfl oneFree

theorem oneDtq_rep : oneDtq.Rep oneTracked :=
  ((Dtq.rep_none _).init ()).linkIn (q := []) (r := []) rfl oneFree

/-- Before the only entry, `DL_ENTRY_PREV` yields what is computed from the header. -/
theorem entryPrev_one :
    DlWords oneLayout oneDlWords oneDl ∧ oneDl.Rep oneTracked ∧
      oneTracked.lists () = some ([] ++ () :: []) ∧
      ¬ EntryPrevRight oneLayout oneDlWords () [] () := by
  refine ⟨oneDl_words, oneDl_rep, rfl, fun hright => ?_⟩
  have hfirst : dlEntryPrev oneDlWords oneLayout.off (oneLayout.entry ()) = 0xff8 := rfl
  refine hright.noHead 1 ?_ ?_
  · rw [Function.iterate_one, hfirst]
    decide
  · rw [Function.iterate_one, hfirst]
    rfl

/-- After the only entry, `DTQ_FOREACH_ENTRY` runs its body with NULL. -/
theorem foreachEntry_one :
    DtqWords oneLayout oneDtqWords oneDtq ∧ oneDtq.Rep oneTracked ∧
      oneTracked.lists () = some [()] ∧ ¬ ForeachEntryRight oneLayout oneDtqWords () [()] := by
  refine ⟨oneDtq_words, oneDtq_rep, rfl, ?_⟩
  rintro ⟨_ | _ | fuel, hrun⟩
  · cases hrun
  · cases hrun
  · obtain ⟨⟨es, c⟩, hes, hrun⟩ := bind_eq_ok.mp hrun
    obtain ⟨⟨es', c'⟩, -, hes⟩ := bind_eq_ok.mp hes
    cases hes
    cases hrun

/-- Two entries, the second at `0x3000`. -/
def twoLayout : Layout Unit Bool where
  addr
    | .head _ => 0x1000
    | .node false => 0x2008
    | .node true => 0x3008
  off := 8
  inj := by rintro (_ | _ | _) (_ | _ | _) h <;> first | rfl | cases h
  addr_ne := by rintro (_ | _ | _) h <;> cases h
  entry_ne := by rintro (_ | _) h <;> cases h

def twoDl : Dl Unit Bool :=
  ((dlInit ⟨fun _ => none, fun _ => none⟩ ()).linkIn () [] false []).linkIn () [false] true []

def twoDtq : Dtq Unit Bool :=
  ((dtqInit ⟨fun _ => none, fun _ => none⟩ ()).linkIn () [] false []).linkIn () [false] true []

def twoTracked : Tracked Unit Bool :=
  ⟨Family.put (Family.put (Family.put (fun _ => none) () []) () [false]) () [false, true],
    ((∅ : Finset Bool).erase false).erase true⟩

theorem twoFree : (Family.put (fun _ => none) () [] : Family Unit Bool).Free false ∧
    (Family.put (Family.put (fun _ => none) () []) () [false] : Family Unit Bool).Free true := by
  constructor
  · intro l q hl
    rcases Family.of_put hl with ⟨-, rfl⟩ | ⟨hne, -⟩
    · exact List.not_mem_nil
    · exact absurd rfl hne
  · intro l q hl
    rcases Family.of_put hl with ⟨-, rfl⟩ | ⟨hne, -⟩
    · simp
    · exact absurd rfl hne

def twoDlWords (a : Addr) : Addr :=
  if a = 0x1000 then 0x2008 else if a = 0x2008 then 0x3008
  else if a = 0x2010 then 0x1000 else if a = 0x3010 then 0x2008 else 0

def twoDtqWords (a : Addr) : Addr :=
  if a = 0x1000 ∨ a = 0x2010 then 0x3008 else if a = 0x1008 ∨ a = 0x3008 then 0x2008 else 0x1000

theorem twoDl_words : DlWords twoLayout twoDlWords twoDl :=
  ⟨by rintro (_ | _ | _) <;> rfl, by rintro (_ | _) <;> rfl⟩

theorem twoDtq_words : DtqWords twoLayout twoDtqWords twoDtq :=
  ⟨by rintro (_ | _ | _) <;> rfl, by rintro (_ | _ | _) <;> rfl⟩

theorem twoDl_rep : twoDl.Rep twoTracked :=
  (((Dl.rep_none _).init ()).linkIn (q := []) (r := []) rfl twoFree.1).linkIn (q := [false]) (r := []) rfl
    twoFree.2

theorem twoDtq_rep : twoDtq.Rep twoTracked :=
  (((Dtq.rep_none _).init ()).linkIn (q := []) (r := []) rfl twoFree.1).linkIn (q := [false]) (r := []) rfl
    twoFree.2

/-- From the second entry backwards. -/
theorem entryPrev_iff_two :
    EntryPrevRight twoLayout twoDlWords () [false] true ↔ twoLayout.addr (.head ()) = twoLayout.off :=
  entryPrev_iff (r := []) twoDl_words twoDl_rep rfl

/-- Over both entries. -/
theorem foreachEntry_iff_two :
    ForeachEntryRight twoLayout twoDtqWords () [false, true] ↔
      twoLayout.addr (.head ()) = twoLayout.off :=
  foreachEntry_iff twoDtq_words twoDtq_rep rfl

end CcUtils.Lists
