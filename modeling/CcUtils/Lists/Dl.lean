import CcUtils.Lib.Intrusive
import CcUtils.Lib.Cells

/-!
# The list with pointers to links of `list.h`

`dl_list`: linked lists that end in NULL, where each node also points back, not to the node before
it but to the link that points to it: the `first` of the header or the `next` of a node. So the
address of a link is a cell, and a store through such a pointer is a store to the link of that cell.

## What is proved

* `Dl.Rep.linkIn`, `Dl.Rep.linkOut`, `Dl.Rep.splice` — the edits at a place of a list.
* `dlStep_refines` — one call does what it says to the lists as sequences.
* `dl_refines` — so does every sequence of calls; the walks give the sequences, and every member
  points back to the link that points to it.
-/

namespace CcUtils.Lists

open CcUtils.Lib

variable {κ ν : Type} [DecidableEq κ] [DecidableEq ν]

/-! ### The functions -/

/-- The fields of all headers and nodes: the links, which are the `first` of a header and the `next`
of a node, and the `prev` of a node, which is the address of a link. -/
structure Dl (κ ν : Type) where
  link : Cell κ ν → Option ν
  prev : ν → Option (Cell κ ν)

/-- A store to a link. -/
def Dl.setLink (m : Dl κ ν) (a : Cell κ ν) (v : Option ν) : Dl κ ν :=
  { m with link := Function.update m.link a v }

/-- A store to a `prev`. -/
def Dl.setPrev (m : Dl κ ν) (n : ν) (v : Option (Cell κ ν)) : Dl κ ν :=
  { m with prev := Function.update m.prev n v }

@[simp] theorem Dl.setLink_link (m : Dl κ ν) (a : Cell κ ν) (v : Option ν) :
    (m.setLink a v).link = Function.update m.link a v := rfl

@[simp] theorem Dl.setLink_prev (m : Dl κ ν) (a : Cell κ ν) (v : Option ν) :
    (m.setLink a v).prev = m.prev := rfl

@[simp] theorem Dl.setPrev_link {κ ν : Type} [DecidableEq ν] (m : Dl κ ν) (n : ν) (v : Option (Cell κ ν)) :
    (m.setPrev n v).link = m.link := rfl

@[simp] theorem Dl.setPrev_prev {κ ν : Type} [DecidableEq ν] (m : Dl κ ν) (n : ν) (v : Option (Cell κ ν)) :
    (m.setPrev n v).prev = Function.update m.prev n v := rfl

/-- `*p = v`, if `p` is not NULL. -/
def Dl.setLinkIf (m : Dl κ ν) (p : Option (Cell κ ν)) (v : Option ν) : Dl κ ν :=
  match p with
  | some a => m.setLink a v
  | none => m

/-- `n->prev = v`, if `n` is not NULL. -/
def Dl.setPrevIf (m : Dl κ ν) (n : Option ν) (v : Option (Cell κ ν)) : Dl κ ν :=
  match n with
  | some n => m.setPrev n v
  | none => m

@[simp] theorem Dl.setPrevIf_link {κ ν : Type} [DecidableEq ν]
    (m : Dl κ ν) (n : Option ν) (v : Option (Cell κ ν)) :
    (m.setPrevIf n v).link = m.link := by
  cases n <;> rfl

theorem Dl.setPrevIf_prev {κ ν : Type} [DecidableEq ν]
    (m : Dl κ ν) (n : Option ν) (v : Option (Cell κ ν)) (k : ν) :
    (m.setPrevIf n v).prev k = if n = some k then v else m.prev k := by
  cases n with
  | none => rfl
  | some n =>
    by_cases hk : k = n
    · subst hk
      rw [if_pos rfl]
      exact Function.update_self ..
    · rw [if_neg fun he => hk (Option.some.inj he).symm]
      exact Function.update_of_ne hk ..

/-- The node a pointer points to. -/
def dlAt (p : Option ν) : Exec ν :=
  match p with
  | some n => .ok n
  | none => .error .nullDeref

@[simp] theorem dlAt_some {ν : Type} (n : ν) : dlAt (some n) = .ok n := rfl

/-- `dl_init`. -/
def dlInit (m : Dl κ ν) (list : κ) : Dl κ ν := m.setLink (.head list) none

/-- `dl_init_node`. -/
def dlInitNode (m : Dl κ ν) (node : ν) : Dl κ ν := (m.setLink (.node node) none).setPrev node none

/-- `dl_is_empty`. -/
def dlIsEmpty (m : Dl κ ν) (list : κ) : Bool := m.link (.head list) = none

/-- `dl_first`. -/
def dlFirst (m : Dl κ ν) (list : κ) : Option ν := m.link (.head list)

/-- `dl_next`. -/
def dlNext (m : Dl κ ν) (node : ν) : Option ν := m.link (.node node)

/-- `dl_del`. -/
def dlDel (m : Dl κ ν) (node : ν) : Dl κ ν :=
  let m := m.setLinkIf (m.prev node) (m.link (.node node))
  m.setPrevIf (m.link (.node node)) (m.prev node)

/-- `dl_del_and_init_node`. -/
def dlDelAndInitNode (m : Dl κ ν) (node : ν) : Dl κ ν := dlInitNode (dlDel m node) node

/-- `dl_add_head`. -/
def dlAddHead (m : Dl κ ν) (list : κ) (node : ν) : Dl κ ν :=
  let m := m.setPrev node (some (.head list))
  let m := m.setLink (.node node) (m.link (.head list))
  let m := m.setPrevIf (m.link (.node node)) (some (.node node))
  m.setLink (.head list) (some node)

/-- `dl_del_head`. -/
def dlDelHead (m : Dl κ ν) (list : κ) : Dl κ ν × Option ν :=
  let node := dlFirst m list
  match node with
  | some n => (dlDel m n, node)
  | none => (m, node)

/-- `dl_add_after_prevptr`. -/
def dlAddAfterPrevptr (m : Dl κ ν) (prev : Cell κ ν) (insert : ν) : Dl κ ν :=
  let m := m.setPrev insert (some prev)
  let m := m.setLink (.node insert) (m.link prev)
  let m := m.setLink prev (some insert)
  m.setPrevIf (m.link (.node insert)) (some (.node insert))

/-- `dl_add_after`, which is the same at `&prev->next`. -/
def dlAddAfter (m : Dl κ ν) (prev insert : ν) : Dl κ ν := dlAddAfterPrevptr m (.node prev) insert

/-- `dl_add_before`. -/
def dlAddBefore (m : Dl κ ν) (next insert : ν) : Exec (Dl κ ν) := do
  let m := m.setPrev insert (m.prev next)
  let m := m.setLink (.node insert) (some next)
  let m := m.setLinkIf (m.prev insert) (some insert)
  let next ← dlAt (m.link (.node insert))
  return m.setPrev next (some (.node insert))

/-- `DL_FOREACH_PREVPTR` with an empty body: the last value of `prev`. -/
def dlPrevLoop (m : Dl κ ν) : ℕ → Option ν → Cell κ ν → Exec (Cell κ ν)
  | 0, _, _ => .error .outOfFuel
  | _ + 1, none, prev => .ok prev
  | fuel + 1, some node, _ => dlPrevLoop m fuel (dlNext m node) (.node node)

/-- `dl_append`. -/
def dlAppend (fuel : ℕ) (m : Dl κ ν) (destList srcList : κ) : Exec (Dl κ ν) :=
  if dlIsEmpty m srcList then .ok m
  else do
    let prev ← dlPrevLoop m fuel (dlFirst m destList) (.head destList)
    let m := m.setLink prev (m.link (.head srcList))
    let first ← dlAt (m.link (.head srcList))
    let m := m.setPrev first (some prev)
    return dlInit m srcList

/-- `DL_FOREACH`: the nodes it visits from `node` on. -/
def dlForeach (m : Dl κ ν) : ℕ → Option ν → Exec (List ν)
  | 0, _ => .error .outOfFuel
  | _ + 1, none => .ok []
  | fuel + 1, some node => do
    let nodes ← dlForeach m fuel (dlNext m node)
    return node :: nodes

/-! ### The lists in memory -/

/-- The nodes of a list from the cell `a` point back, each to the link before it. -/
def Backs (prev : ν → Option (Cell κ ν)) : Cell κ ν → List ν → Prop
  | _, [] => True
  | a, n :: q => prev n = some a ∧ Backs prev (.node n) q

/-- The memory holds the lists. -/
structure Dl.Rep (m : Dl κ ν) (A : Tracked κ ν) : Prop where
  separate : A.lists.Separate
  link : A.lists.Linked some m.link fun _ => none
  back : ∀ l q, A.lists l = some q → Backs m.prev (.head l) q
  cleared : ∀ n ∈ A.cleared, A.lists.Free n ∧ m.link (.node n) = none ∧ m.prev n = none

variable {m : Dl κ ν} {A : Tracked κ ν} {l d s : κ} {q r : List ν} {n k : ν}
  {f g : ν → Option (Cell κ ν)} {a b : Cell κ ν}

theorem backs_append {κ ν : Type} {q r : List ν} {f : ν → Option (Cell κ ν)} {a : Cell κ ν} :
    Backs f a (q ++ r) ↔ Backs f a q ∧ Backs f (lastCell a q) r := by
  induction q generalizing a with
  | nil => simp [Backs]
  | cons n q ih => simp only [List.cons_append, Backs, lastCell_cons, ih, and_assoc]

theorem Backs.congr {κ ν : Type} {q : List ν} {f g : ν → Option (Cell κ ν)} {a : Cell κ ν}
    (h : Backs f a q) (hg : ∀ n ∈ q, g n = f n) : Backs g a q := by
  induction q generalizing a with
  | nil => trivial
  | cons n q ih =>
    refine ⟨(hg n (List.mem_cons_self ..)).trans h.1, ?_⟩
    exact ih h.2 fun k hk => hg k (List.mem_cons_of_mem n hk)

/-- The list hung from another link: only its first node points elsewhere. -/
theorem Backs.rebase {κ ν : Type} {q : List ν} {f g : ν → Option (Cell κ ν)} {a b : Cell κ ν}
    (h : Backs f a q) (hd : q.Nodup) (hb : ∀ n, q.head? = some n → g n = some b)
    (hg : ∀ n ∈ q, q.head? ≠ some n → g n = f n) : Backs g b q := by
  cases q with
  | nil => trivial
  | cons n q =>
    refine ⟨hb n rfl, h.2.congr fun k hk => hg k (List.mem_cons_of_mem n hk) fun e => ?_⟩
    exact (List.nodup_cons.mp hd).1 (Option.some.inj e ▸ hk)

/-- The new list of one header, when the stores touch no node of another list. -/
theorem Dl.Rep.back_put {κ ν : Type} [DecidableEq κ] {m : Dl κ ν} {A : Tracked κ ν} {l : κ} {q : List ν}
    {g : ν → Option (Cell κ ν)} (h : m.Rep A) (hl : Backs g (.head l) q)
    (hg : ∀ k r, k ≠ l → A.lists k = some r → ∀ n ∈ r, g n = m.prev n) :
    ∀ k r, A.lists.put l q k = some r → Backs g (.head k) r := by
  intro k r hk
  rcases Family.of_put hk with ⟨rfl, rfl⟩ | ⟨hkl, hk⟩
  · exact hl
  · exact (h.back k r hk).congr (hg k r hkl hk)

/-- What the link before a place holds. -/
theorem Dl.Rep.link_eq {κ ν : Type} {m : Dl κ ν} {A : Tracked κ ν} {l : κ} {q r : List ν}
    (h : m.Rep A) (hl : A.lists l = some (q ++ r)) :
    m.link (lastCell (.head l) q) = r.head? := by
  rw [(follows_append.mp (h.link l _ hl)).2.first_eq]
  cases r <;> rfl

theorem Dl.Rep.prev_eq {κ ν : Type} {m : Dl κ ν} {A : Tracked κ ν} {l : κ} {q r : List ν} {n : ν}
    (h : m.Rep A) (hl : A.lists l = some (q ++ n :: r)) :
    m.prev n = some (lastCell (.head l) q) := (backs_append.mp (h.back l _ hl)).2.1

/-! ### Edits at a place -/

/-- The writes that link a node in at a place. -/
def Dl.linkIn (m : Dl κ ν) (l : κ) (q : List ν) (n : ν) (r : List ν) : Dl κ ν :=
  (((m.setPrev n (some (lastCell (.head l) q))).setLink (.node n) r.head?).setLink
    (lastCell (.head l) q) (some n)).setPrevIf r.head? (some (.node n))

/-- The writes that link a node out at a place. -/
def Dl.linkOut (m : Dl κ ν) (l : κ) (q r : List ν) : Dl κ ν :=
  (m.setLink (lastCell (.head l) q) r.head?).setPrevIf r.head? (some (lastCell (.head l) q))

/-- The writes of `dl_append` when the source list starts with `n`. -/
def Dl.splice (m : Dl κ ν) (d : κ) (q : List ν) (s : κ) (n : ν) : Dl κ ν :=
  ((m.setLink (lastCell (.head d) q) (some n)).setPrev n (some (lastCell (.head d) q))).setLink
    (.head s) none

/-- A node in the list is not the first of what follows a place after it. -/
theorem head_ne {ν : Type} {q r : List ν} {k : ν}
    (hd : (q ++ r).Nodup) (hk : k ∈ q) : r.head? ≠ some k := fun he =>
  (List.nodup_append.mp hd).2.2 k hk k (List.mem_of_mem_head? he) rfl

theorem Dl.Rep.linkIn (h : m.Rep A) (hl : A.lists l = some (q ++ r)) (hn : A.lists.Free n) :
    (m.linkIn l q n r).Rep ⟨A.lists.put l (q ++ n :: r), A.cleared.erase n⟩ := by
  have hqr := h.separate.nodup hl
  have hnqr : n ∉ q ∧ n ∉ r := by
    have hnl := hn l _ hl
    rwa [List.mem_append, not_or] at hnl
  have hlink : (m.linkIn l q n r).link =
      Function.update (Function.update m.link (.node n) r.head?) (lastCell (.head l) q) (some n) := by
    rw [Dl.linkIn, Dl.setPrevIf_link]
    rfl
  have hprev : ∀ k, k ≠ n → r.head? ≠ some k → (m.linkIn l q n r).prev k = m.prev k := by
    intro k hkn hkr
    rw [Dl.linkIn, Dl.setPrevIf_prev, if_neg hkr]
    exact Function.update_of_ne hkn ..
  have hnl : (.node n : Cell κ ν) ≠ lastCell (.head l) q :=
    (hn.ne_cell hl (cellsOf_append_left (lastCell_mem _ q))).symm
  refine ⟨h.separate.insert hl hn, ?_, ?_, fun k hk => ?_⟩
  · rw [hlink]
    refine h.link.insert h.separate hl hn (Function.update_self ..) ?_ fun x hx hxn => ?_
    · rw [Function.update_of_ne hnl, Function.update_self, h.link_eq hl]
    · rw [Function.update_of_ne hx, Function.update_of_ne hxn]
  · obtain ⟨hq, hr⟩ := backs_append.mp (h.back l _ hl)
    refine h.back_put (backs_append.mpr ⟨hq.congr fun k hk => ?_, ?_, ?_⟩) fun k s hkl hk j hj => ?_
    · exact hprev k (fun e => hnqr.1 (e ▸ hk)) (head_ne hqr hk)
    · have hn0 : r.head? ≠ some n := fun e => hnqr.2 (List.mem_of_mem_head? e)
      rw [Dl.linkIn, Dl.setPrevIf_prev, if_neg hn0]
      exact Function.update_self ..
    · refine hr.rebase (List.nodup_append.mp hqr).2.1 (fun k hk => ?_) fun k hk hk' => ?_
      · rw [Dl.linkIn, Dl.setPrevIf_prev, if_pos hk]
      · exact hprev k (fun e => hnqr.2 (e ▸ hk)) hk'
    · refine hprev j (fun e => hn k s hk (e ▸ hj)) fun e => hkl ?_
      exact h.separate.unique hk hl hj (List.mem_append_right q (List.mem_of_mem_head? e))
  · obtain ⟨hkn, hk⟩ := Finset.mem_erase.mp hk
    obtain ⟨hfree, hklink, hkprev⟩ := h.cleared k hk
    have hkl := hfree l _ hl
    refine ⟨hfree.put ?_ l, ?_, ?_⟩
    · simp only [List.mem_append, List.mem_cons, not_or] at hkl ⊢
      exact ⟨hkl.1, hkn, hkl.2⟩
    · have hkc : (.node k : Cell κ ν) ≠ lastCell (.head l) q :=
        (hfree.ne_cell hl (cellsOf_append_left (lastCell_mem _ q))).symm
      rw [hlink, Function.update_of_ne hkc, Function.update_of_ne fun e => hkn (Cell.node.inj e),
        hklink]
    · refine (hprev k hkn fun e => hkl ?_).trans hkprev
      exact List.mem_append_right q (List.mem_of_mem_head? e)

theorem Dl.Rep.linkOut (h : m.Rep A) (hl : A.lists l = some (q ++ n :: r)) :
    (m.linkOut l q r).Rep ⟨A.lists.put l (q ++ r), A.cleared⟩ := by
  have hqr := h.separate.nodup hl
  have hl1 : A.lists l = some ((q ++ [n]) ++ r) := by rwa [List.append_assoc]
  have hnode : m.link (.node n) = r.head? := by
    rw [← h.link_eq hl1, lastCell_append]
    rfl
  have hlink : (m.linkOut l q r).link =
      Function.update m.link (lastCell (.head l) q) r.head? := by
    rw [Dl.linkOut, Dl.setPrevIf_link]
    rfl
  have hprev : ∀ k, r.head? ≠ some k → (m.linkOut l q r).prev k = m.prev k := by
    intro k hkr
    rw [Dl.linkOut, Dl.setPrevIf_prev, if_neg hkr]
    rfl
  have hr0 : ∀ k, r.head? = some k → k ∈ q ++ n :: r := fun k hk =>
    List.mem_append_right q (List.mem_cons_of_mem n (List.mem_of_mem_head? hk))
  refine ⟨h.separate.remove hl, ?_, ?_, fun k hk => ?_⟩
  · rw [hlink]
    refine h.link.remove h.separate hl ?_ fun x hx _ => Function.update_of_ne hx ..
    rw [Function.update_self, hnode]
  · obtain ⟨hq, hn⟩ := backs_append.mp (h.back l _ hl)
    have hnr := (List.nodup_cons.mp (List.nodup_append.mp hqr).2.1).2
    refine h.back_put (backs_append.mpr ⟨hq.congr fun k hk => ?_, ?_⟩) fun k s hkl hk j hj => ?_
    · refine hprev k fun e => ?_
      exact (List.nodup_append.mp hqr).2.2 k hk k
        (List.mem_cons_of_mem n (List.mem_of_mem_head? e)) rfl
    · refine hn.2.rebase hnr (fun k hk => ?_) fun k _ hk => hprev k hk
      rw [Dl.linkOut, Dl.setPrevIf_prev, if_pos hk]
    · exact hprev j fun e => hkl (h.separate.unique hk hl hj (hr0 j e))
  · obtain ⟨hfree, hklink, hkprev⟩ := h.cleared k hk
    have hkl := hfree l _ hl
    refine ⟨hfree.put ?_ l, ?_, (hprev k fun e => hkl (hr0 k e)).trans hkprev⟩
    · simp only [List.mem_append, List.mem_cons, not_or] at hkl ⊢
      exact ⟨hkl.1, hkl.2.2⟩
    · have hkc : (.node k : Cell κ ν) ≠ lastCell (.head l) q :=
        (hfree.ne_cell hl (cellsOf_append_left (lastCell_mem _ q))).symm
      rw [hlink, Function.update_of_ne hkc, hklink]

/-- The list `n :: r`, moved to the end of another. -/
theorem Dl.Rep.splice (h : m.Rep A) (hds : d ≠ s) (hd : A.lists d = some q)
    (hs : A.lists s = some (n :: r)) :
    (m.splice d q s n).Rep ⟨(A.lists.put s []).put d (q ++ n :: r), A.cleared⟩ := by
  have hd1 : A.lists d = some (q ++ []) := by rwa [List.append_nil]
  have hL : lastCell (.head d) q ∈ cellsOf (.head d) q := lastCell_mem ..
  have hLs : lastCell (.head d) q ≠ (.head s : Cell κ ν) :=
    (h.separate.ne_cell hd hs hds.symm (List.mem_cons_self ..) hL).symm
  have hprev : ∀ k, k ≠ n → (m.splice d q s n).prev k = m.prev k := fun k hk =>
    Function.update_of_ne hk ..
  have hsep := h.separate.move hds hd1 hs
  rw [List.append_nil] at hsep
  refine ⟨hsep, ?_, ?_, fun k hk => ?_⟩
  · have hE : lastCell (.node n) r ∈ cellsOf (.head s) (n :: r) := lastCell_mem (.head s) (n :: r)
    have hEL := h.separate.ne_cell hd hs hds.symm hE hL
    have hlast : m.link (lastCell (.node n) r) = none := (h.link s _ hs).last_eq
    have hmove := h.link.move h.separate hds hd1 hs (g := (m.splice d q s n).link)
      ?_ ?_ (Function.update_self ..) fun x hxL _ hxs => ?_
    · rwa [List.append_nil] at hmove
    · dsimp only [Dl.splice, Dl.setLink, Dl.setPrev]
      rw [Function.update_of_ne hLs, Function.update_self]
      exact (h.link_eq (q := []) hs).symm
    · dsimp only [Dl.splice, Dl.setLink, Dl.setPrev]
      rw [Function.update_of_ne (lastCell_ne_head n r s), Function.update_of_ne hEL, hlast]
      exact (h.link_eq hd1).symm
    · dsimp only [Dl.splice, Dl.setLink, Dl.setPrev]
      rw [Function.update_of_ne hxs, Function.update_of_ne hxL]
  · intro k p hk
    have hqn : n ∉ q := fun hn => hds (h.separate.unique hd hs hn (List.mem_cons_self ..))
    have hnr := (List.nodup_cons.mp (h.separate.nodup hs)).1
    rcases Family.of_put hk with ⟨rfl, rfl⟩ | ⟨hkd, hk⟩
    · refine backs_append.mpr ⟨(h.back k q hd).congr fun j hj => ?_, Function.update_self .., ?_⟩
      · refine hprev j ?_
        rintro rfl
        exact hqn hj
      · refine (h.back s _ hs).2.congr fun j hj => hprev j ?_
        rintro rfl
        exact hnr hj
    · rcases Family.of_put hk with ⟨rfl, rfl⟩ | ⟨hks, hk⟩
      · trivial
      · refine (h.back k p hk).congr fun j hj => hprev j fun e => hks ?_
        exact h.separate.unique hk hs hj (e ▸ List.mem_cons_self ..)
  · obtain ⟨hfree, hklink, hkprev⟩ := h.cleared k hk
    refine ⟨(hfree.put List.not_mem_nil s).put ?_ d, ?_, ?_⟩
    · rw [List.mem_append, not_or]
      exact ⟨hfree d q hd, hfree s _ hs⟩
    · have hks : (.node k : Cell κ ν) ≠ .head s := nofun
      dsimp only [Dl.splice, Dl.setLink, Dl.setPrev]
      rw [Function.update_of_ne hks, Function.update_of_ne (hfree.ne_cell hd hL).symm, hklink]
    · exact (hprev k fun e => hfree s _ hs (e ▸ List.mem_cons_self ..)).trans hkprev

theorem Dl.Rep.init (h : m.Rep A) (l : κ) : (dlInit m l).Rep ⟨A.lists.put l [], A.cleared⟩ where
  separate := h.separate.init l
  link := h.link.init (Function.update_self ..) fun _ hx => Function.update_of_ne hx ..
  back := h.back_put trivial fun _ _ _ _ _ _ => rfl
  cleared k hk := by
    obtain ⟨hfree, hlink, hprev⟩ := h.cleared k hk
    have hkl : (.node k : Cell κ ν) ≠ .head l := nofun
    refine ⟨hfree.put List.not_mem_nil l, ?_, hprev⟩
    rw [dlInit, Dl.setLink_link, Function.update_of_ne hkl, hlink]

/-- `dl_init_node` of a free node. -/
theorem Dl.Rep.initNode (h : m.Rep A) (hn : A.lists.Free n) :
    (dlInitNode m n).Rep ⟨A.lists, insert n A.cleared⟩ where
  separate := h.separate
  link := h.link.congr fun _ _ hl _ hx => Function.update_of_ne (hn.ne_cell hl hx) ..
  back l q hl := by
    refine (h.back l q hl).congr fun k hk => Function.update_of_ne ?_ ..
    rintro rfl
    exact hn l q hl hk
  cleared k hk := by
    by_cases hkn : k = n
    · subst hkn
      exact ⟨hn, Function.update_self .., Function.update_self ..⟩
    · obtain ⟨hfree, hlink, hprev⟩ := h.cleared k (Finset.mem_of_mem_insert_of_ne hk hkn)
      refine ⟨hfree, ?_, ?_⟩
      · rw [dlInitNode, Dl.setPrev_link, Dl.setLink_link,
          Function.update_of_ne fun e => hkn (Cell.node.inj e), hlink]
      · rw [dlInitNode, Dl.setPrev_prev, Function.update_of_ne hkn, Dl.setLink_prev, hprev]

/-! ### The functions make these edits -/

theorem Dl.Rep.addAfterPrevptr (h : m.Rep A) (hl : A.lists l = some (q ++ r))
    (hn : A.lists.Free n) :
    dlAddAfterPrevptr m (lastCell (.head l) q) n = m.linkIn l q n r := by
  have hnl : (.node n : Cell κ ν) ≠ lastCell (.head l) q :=
    (hn.ne_cell hl (cellsOf_append_left (lastCell_mem _ q))).symm
  simp only [dlAddAfterPrevptr, Dl.setLink_link, Dl.setPrev_link, h.link_eq hl,
    Function.update_of_ne hnl, Function.update_self]
  rfl

theorem Dl.Rep.addHead (h : m.Rep A) (hl : A.lists l = some r) :
    dlAddHead m l n = m.linkIn l [] n r := by
  have hfirst := h.link_eq (q := []) hl
  rw [lastCell_nil] at hfirst
  simp only [dlAddHead, Dl.setLink_link, Dl.setPrev_link, hfirst, Function.update_self]
  cases r <;> rfl

theorem Dl.Rep.addBefore (h : m.Rep A) (hl : A.lists l = some (q ++ k :: r))
    (hn : A.lists.Free n) : dlAddBefore m k n = .ok (m.linkIn l q n (k :: r)) := by
  have hnl : (.node n : Cell κ ν) ≠ lastCell (.head l) q :=
    (hn.ne_cell hl (cellsOf_append_left (lastCell_mem _ q))).symm
  simp only [dlAddBefore, Dl.setLink_prev, Dl.setPrev_prev, h.prev_eq hl, Function.update_self,
    Dl.setLinkIf, Dl.setLink_link, Function.update_of_ne hnl, dlAt_some, ok_bind]
  rfl

theorem Dl.Rep.del (h : m.Rep A) (hl : A.lists l = some (q ++ n :: r)) :
    dlDel m n = m.linkOut l q r := by
  have hl1 : A.lists l = some ((q ++ [n]) ++ r) := by rwa [List.append_assoc]
  have hnode : m.link (.node n) = r.head? := by
    rw [← h.link_eq hl1, lastCell_append]
    rfl
  have hnl : (.node n : Cell κ ν) ≠ lastCell (.head l) q :=
    (lastCell_ne_node (h.separate.nodup hl) (List.mem_cons_self ..)).symm
  simp only [dlDel, h.prev_eq hl, Dl.setLinkIf, hnode, Dl.setLink_link, Dl.setLink_prev,
    Function.update_of_ne hnl]
  rfl

theorem Dl.Rep.delHead_cons (h : m.Rep A) (hl : A.lists l = some (n :: r)) :
    dlDelHead m l = (m.linkOut l [] r, some n) := by
  have hfirst : dlFirst m l = some n := h.link_eq (q := []) hl
  rw [dlDelHead, hfirst, ← h.del (q := []) hl]

theorem Dl.Rep.delHead_nil (h : m.Rep A) (hl : A.lists l = some []) :
    dlDelHead m l = (m, none) := by
  have hfirst : dlFirst m l = none := h.link_eq (q := []) hl
  rw [dlDelHead, hfirst]

/-- `dl_del` of a node whose fields are NULL. -/
theorem Dl.Rep.del_cleared (h : m.Rep A) (hn : n ∈ A.cleared) : dlDel m n = m := by
  obtain ⟨-, hlink, hprev⟩ := h.cleared n hn
  simp only [dlDel, hprev, Dl.setLinkIf, hlink, Dl.setPrevIf]

/-- The walk of `dl_append` ends with the last link. -/
theorem dlPrevLoop_follows {κ ν : Type} {m : Dl κ ν} {q : List ν} {a : Cell κ ν}
    {fuel : ℕ} (h : Follows some m.link a q none) (hf : q.length < fuel) :
    dlPrevLoop m fuel (m.link a) a = .ok (lastCell a q) := by
  induction q generalizing a fuel with
  | nil =>
    obtain ⟨fuel, rfl⟩ : ∃ k, fuel = k + 1 := ⟨fuel - 1, by omega⟩
    have hnone : m.link a = none := h
    rw [hnone, dlPrevLoop]
    rfl
  | cons n q ih =>
    obtain ⟨fuel, rfl⟩ : ∃ k, fuel = k + 1 := ⟨fuel - 1, by omega⟩
    rw [h.1, dlPrevLoop, dlNext, ih h.2 (Nat.lt_of_succ_lt_succ hf)]
    rfl

/-- `dl_append` of two lists. -/
theorem Dl.Rep.append (h : m.Rep A) (hds : d ≠ s) (hd : A.lists d = some q)
    (hs : A.lists s = some r) :
    ∃ m', (∀ fuel, q.length < fuel → dlAppend fuel m d s = .ok m') ∧
      m'.Rep ⟨(A.lists.put s []).put d (q ++ r), A.cleared⟩ := by
  have hfirst : m.link (.head s) = r.head? := h.link_eq (q := []) hs
  cases r with
  | nil =>
    refine ⟨m, fun fuel _ => ?_, ?_⟩
    · rw [dlAppend, dlIsEmpty, hfirst]
      rfl
    · rwa [List.append_nil, Family.put_of_eq hs, Family.put_of_eq hd]
  | cons n r =>
    refine ⟨m.splice d q s n, fun fuel hf => ?_, h.splice hds hd hs⟩
    have hLs : (.head s : Cell κ ν) ≠ lastCell (.head d) q :=
      h.separate.ne_cell hd hs hds.symm (List.mem_cons_self ..) (lastCell_mem ..)
    have hloop : dlPrevLoop m fuel (dlFirst m d) (.head d) = .ok (lastCell (.head d) q) :=
      dlPrevLoop_follows (h.link d q hd) hf
    have hempty : dlIsEmpty m s = false := by simp [dlIsEmpty, hfirst]
    simp only [dlAppend, hempty, hloop, ok_bind, hfirst, List.head?_cons, Dl.setLink_link,
      Function.update_of_ne hLs, dlAt_some]
    rfl

/-- The walk of `DL_FOREACH` gives the list. -/
theorem dlForeach_follows {κ ν : Type} {m : Dl κ ν} {q : List ν} {a : Cell κ ν}
    {fuel : ℕ} (h : Follows some m.link a q none) (hf : q.length < fuel) :
    dlForeach m fuel (m.link a) = .ok q := by
  induction q generalizing a fuel with
  | nil =>
    obtain ⟨fuel, rfl⟩ : ∃ k, fuel = k + 1 := ⟨fuel - 1, by omega⟩
    have hnone : m.link a = none := h
    rw [hnone, dlForeach]
  | cons n q ih =>
    obtain ⟨fuel, rfl⟩ : ∃ k, fuel = k + 1 := ⟨fuel - 1, by omega⟩
    rw [h.1, dlForeach, dlNext, ih h.2 (Nat.lt_of_succ_lt_succ hf)]
    rfl

/-! ### Sequences of calls -/

/-- A call of one of the functions. -/
inductive DlOp (κ ν : Type) where
  | init (list : κ)
  | initNode (node : ν)
  | addHead (list : κ) (node : ν)
  | addAfter (prev insert : ν)
  | addBefore (next insert : ν)
  | addAfterPrevptr (prev : Cell κ ν) (insert : ν)
  | del (node : ν)
  | delAndInitNode (node : ν)
  | delHead (list : κ)
  | append (destList srcList : κ)

/-- What a call gives its caller: nothing, or a node or NULL. -/
inductive DlRet (ν : Type) where
  | unit
  | node (p : Option ν)
  deriving DecidableEq

/-- The call in memory. -/
def DlOp.exec (fuel : ℕ) (m : Dl κ ν) : DlOp κ ν → Exec (Dl κ ν × DlRet ν)
  | .init l => .ok (dlInit m l, .unit)
  | .initNode n => .ok (dlInitNode m n, .unit)
  | .addHead l n => .ok (dlAddHead m l n, .unit)
  | .addAfter p n => .ok (dlAddAfter m p n, .unit)
  | .addBefore p n => do
    let m ← dlAddBefore m p n
    return (m, .unit)
  | .addAfterPrevptr a n => .ok (dlAddAfterPrevptr m a n, .unit)
  | .del n => .ok (dlDel m n, .unit)
  | .delAndInitNode n => .ok (dlDelAndInitNode m n, .unit)
  | .delHead l => .ok ((dlDelHead m l).1, .node (dlDelHead m l).2)
  | .append d s => do
    let m ← dlAppend fuel m d s
    return (m, .unit)

/-- What the call is for: the sequences after it. -/
def DlOp.seqs (A : Tracked κ ν) : DlOp κ ν → Tracked κ ν
  | .init l => ⟨A.lists.put l [], A.cleared⟩
  | .initNode n => ⟨A.lists, insert n A.cleared⟩
  | .addHead l n => ⟨A.lists.put l (n :: A.lists.seq l), A.cleared.erase n⟩
  | .addAfter p n => ⟨A.lists.addAfter (.node p) n, A.cleared.erase n⟩
  | .addBefore p n => ⟨A.lists.addBefore (.node p) n, A.cleared.erase n⟩
  | .addAfterPrevptr a n => ⟨A.lists.addAfter a n, A.cleared.erase n⟩
  | .del n => ⟨A.lists.edit (·.erase n), A.cleared⟩
  | .delAndInitNode n => ⟨A.lists.edit (·.erase n), insert n A.cleared⟩
  | .delHead l => ⟨A.lists.put l (A.lists.seq l).tail, A.cleared⟩
  | .append d s => ⟨(A.lists.put s []).put d (A.lists.seq d ++ A.lists.seq s), A.cleared⟩

/-- What the call is for: its result. -/
def DlOp.ret (A : Tracked κ ν) : DlOp κ ν → DlRet ν
  | .delHead l => .node (A.lists.seq l).head?
  | _ => .unit

/-- The call keeps to the rules: it names lists that have been made and cells that are in one, and
links in only nodes that are in none. -/
def DlOp.Allowed (A : Tracked κ ν) : DlOp κ ν → Prop
  | .init _ => True
  | .initNode n => A.lists.Free n
  | .addHead l n => A.lists.Made l ∧ A.lists.Free n
  | .addAfter p n => A.lists.Has p ∧ A.lists.Free n
  | .addBefore p n => A.lists.Has p ∧ A.lists.Free n
  | .addAfterPrevptr a n => A.lists.IsCell a ∧ A.lists.Free n
  | .del n => A.lists.Has n
  | .delAndInitNode n => A.lists.Has n ∨ n ∈ A.cleared
  | .delHead l => A.lists.Made l
  | .append d s => A.lists.Made d ∧ A.lists.Made s ∧ d ≠ s

/-- The calls one after the other, with what they return. -/
def dlRun (fuel : ℕ) : Dl κ ν → List (DlOp κ ν) → Exec (Dl κ ν × List (DlRet ν))
  | m, [] => .ok (m, [])
  | m, op :: ops => do
    let (m, ret) ← op.exec fuel m
    let (m, rets) ← dlRun fuel m ops
    return (m, ret :: rets)

/-- The sequences after the calls. -/
def dlSeqs : Tracked κ ν → List (DlOp κ ν) → Tracked κ ν
  | A, [] => A
  | A, op :: ops => dlSeqs (op.seqs A) ops

/-- What the calls return. -/
def dlRets : Tracked κ ν → List (DlOp κ ν) → List (DlRet ν)
  | _, [] => []
  | A, op :: ops => op.ret A :: dlRets (op.seqs A) ops

/-- All calls keep to the rules. -/
def DlAllowed : Tracked κ ν → List (DlOp κ ν) → Prop
  | _, [] => True
  | A, op :: ops => op.Allowed A ∧ DlAllowed (op.seqs A) ops

/-- `dl_add_after_prevptr` at a link of a list. -/
theorem Dl.Rep.linkIn_after (h : m.Rep A) (ha : A.lists.IsCell a) (hn : A.lists.Free n) :
    (dlAddAfterPrevptr m a n).Rep ⟨A.lists.addAfter a n, A.cleared.erase n⟩ := by
  obtain ⟨l, q, r, hl, rfl, he⟩ := h.separate.addAfter_place ha n
  rw [he, h.addAfterPrevptr hl hn]
  exact h.linkIn hl hn

/-- `dl_del` of a member, which is in no list then, or of a node whose fields are NULL. -/
theorem Dl.Rep.unlink (h : m.Rep A) (hn : A.lists.Has n ∨ n ∈ A.cleared) :
    (dlDel m n).Rep ⟨A.lists.edit (·.erase n), A.cleared⟩ ∧
      (A.lists.edit (·.erase n)).Free n := by
  rcases hn with ⟨l, q, r, hl⟩ | hn
  · rw [h.separate.erase_eq hl, h.del hl]
    exact ⟨h.linkOut hl, h.separate.free_remove hl⟩
  · have hfree := (h.cleared n hn).1
    rw [Family.edit_of_free hfree fun q hq => List.erase_of_not_mem hq, h.del_cleared hn]
    exact ⟨h, hfree⟩

/-- One call does what it is for, if it has fuel enough for its walk. -/
theorem dlStep_refines {op : DlOp κ ν} (h : m.Rep A) (hop : op.Allowed A) :
    ∃ m' N, (∀ fuel, N ≤ fuel → op.exec fuel m = .ok (m', op.ret A)) ∧ m'.Rep (op.seqs A) := by
  cases op with
  | init l => exact ⟨_, 0, fun _ _ => rfl, h.init l⟩
  | initNode n => exact ⟨_, 0, fun _ _ => rfl, h.initNode hop⟩
  | addHead l n =>
    refine ⟨_, 0, fun _ _ => rfl, ?_⟩
    rw [h.addHead hop.1.eq]
    exact h.linkIn (q := []) hop.1.eq hop.2
  | addAfter p n =>
    exact ⟨_, 0, fun _ _ => rfl, h.linkIn_after (a := .node p) hop.1 hop.2⟩
  | addBefore p n =>
    obtain ⟨⟨l, q, r, hl⟩, hn⟩ := hop
    refine ⟨m.linkIn l q n (p :: r), 0, fun _ _ => ?_, ?_⟩
    · rw [DlOp.exec, h.addBefore hl hn]
      rfl
    · rw [DlOp.seqs, Family.addBefore, h.separate.insertBefore_eq n hl]
      exact h.linkIn hl hn
  | addAfterPrevptr a n => exact ⟨_, 0, fun _ _ => rfl, h.linkIn_after hop.1 hop.2⟩
  | del n => exact ⟨_, 0, fun _ _ => rfl, (h.unlink (.inl hop)).1⟩
  | delAndInitNode n =>
    obtain ⟨hrep, hfree⟩ := h.unlink hop
    exact ⟨_, 0, fun _ _ => rfl, hrep.initNode hfree⟩
  | delHead l =>
    have hl : A.lists l = some (A.lists.seq l) := Family.Made.eq hop
    rw [DlOp.seqs, DlOp.ret]
    generalize A.lists.seq l = q at hl
    cases q with
    | nil =>
      refine ⟨m, 0, fun _ _ => by rw [DlOp.exec, h.delHead_nil hl]; rfl, ?_⟩
      rwa [List.tail_nil, Family.put_of_eq hl]
    | cons n r =>
      refine ⟨m.linkOut l [] r, 0, fun _ _ => by rw [DlOp.exec, h.delHead_cons hl]; rfl, ?_⟩
      exact h.linkOut (q := []) hl
  | append d s =>
    obtain ⟨m', hrun, hrep⟩ := h.append hop.2.2 hop.1.eq hop.2.1.eq
    refine ⟨m', (A.lists.seq d).length + 1, fun fuel hf => ?_, hrep⟩
    rw [DlOp.exec, hrun fuel hf]
    rfl

/-- A whole run, by induction on its calls. -/
theorem dlRun_refines {ops : List (DlOp κ ν)} (h : m.Rep A) (hops : DlAllowed A ops) :
    ∃ m' N, (∀ fuel, N ≤ fuel → dlRun fuel m ops = .ok (m', dlRets A ops)) ∧
      m'.Rep (dlSeqs A ops) := by
  induction ops generalizing m A with
  | nil => exact ⟨m, 0, fun _ _ => rfl, h⟩
  | cons op ops ih =>
    obtain ⟨m₁, N₁, hstep, h₁⟩ := dlStep_refines h hops.1
    obtain ⟨m₂, N₂, hrun, h₂⟩ := ih h₁ hops.2
    refine ⟨m₂, max N₁ N₂, fun fuel hf => ?_, h₂⟩
    rw [dlRun, hstep fuel (le_trans (le_max_left ..) hf), ok_bind]
    simp only [hrun fuel (le_trans (le_max_right ..) hf)]
    rfl

/-- No list has been made, whatever the memory holds. -/
theorem Dl.rep_none {κ ν : Type} (m : Dl κ ν) : m.Rep ⟨fun _ => none, ∅⟩ where
  separate := ⟨nofun, nofun⟩
  link := nofun
  back := nofun
  cleared _ hk := absurd hk (Finset.notMem_empty _)

/-- Every sequence of calls that keeps to the rules returns what the sequences say. Then the walk
over each list gives its sequence, and every member points back to the link before it, which points
to the member. -/
theorem dl_refines (m : Dl κ ν) {ops : List (DlOp κ ν)} (hops : DlAllowed ⟨fun _ => none, ∅⟩ ops) :
    ∃ m' N, (∀ fuel, N ≤ fuel → dlRun fuel m ops = .ok (m', dlRets ⟨fun _ => none, ∅⟩ ops)) ∧
      ∀ l q, (dlSeqs ⟨fun _ => none, ∅⟩ ops).lists l = some q →
        (∀ fuel, q.length < fuel → dlForeach m' fuel (dlFirst m' l) = .ok q) ∧
          ∀ p n r, q = p ++ n :: r →
            m'.prev n = some ((p.getLast?.map Cell.node).getD (.head l)) ∧
              m'.link ((p.getLast?.map Cell.node).getD (.head l)) = some n := by
  obtain ⟨m', N, hrun, h⟩ := dlRun_refines m.rep_none hops
  refine ⟨m', N, hrun, fun l q hl => ⟨fun fuel hf => dlForeach_follows (h.link l q hl) hf, ?_⟩⟩
  rintro p n r rfl
  rw [← lastCell_eq]
  exact ⟨h.prev_eq hl, h.link_eq hl⟩

/-- Calls on two lists. -/
def someDlOps : List (DlOp Bool ℕ) :=
  [.init true, .init false, .addHead true 1, .addAfter 1 2, .addBefore 1 3,
    .addAfterPrevptr (.head false) 4, .append true false, .del 2, .delAndInitNode 1,
    .delAndInitNode 1, .delHead true]

theorem someDlOps_allowed : DlAllowed ⟨fun _ => none, ∅⟩ someDlOps :=
  ⟨trivial, trivial, ⟨rfl, Family.free_iff.mpr (by decide)⟩,
    ⟨⟨true, [], [], rfl⟩, Family.free_iff.mpr (by decide)⟩,
    ⟨⟨true, [], [2], rfl⟩, Family.free_iff.mpr (by decide)⟩,
    ⟨rfl, Family.free_iff.mpr (by decide)⟩, ⟨rfl, rfl, by decide⟩,
    ⟨true, [3, 1], [4], rfl⟩, .inl ⟨true, [3], [4], rfl⟩, .inr (by decide), rfl, trivial⟩

theorem dl_refines_some :
    ∃ m' N, (∀ fuel, N ≤ fuel → dlRun fuel ⟨fun _ => some 7, fun _ => none⟩ someDlOps =
        .ok (m', dlRets ⟨fun _ => none, ∅⟩ someDlOps)) ∧
      ∀ l q, (dlSeqs ⟨fun _ => none, ∅⟩ someDlOps).lists l = some q →
        (∀ fuel, q.length < fuel → dlForeach m' fuel (dlFirst m' l) = .ok q) ∧
          ∀ p n r, q = p ++ n :: r →
            m'.prev n = some ((p.getLast?.map Cell.node).getD (.head l)) ∧
              m'.link ((p.getLast?.map Cell.node).getD (.head l)) = some n :=
  dl_refines ⟨fun _ => some 7, fun _ => none⟩ someDlOps_allowed

end CcUtils.Lists
