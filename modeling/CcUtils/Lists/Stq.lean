import CcUtils.Lib.Intrusive
import CcUtils.Lib.Cells

/-!
# The tail queue of `list.h`

`stq_list`: singly linked lists that end in NULL, each with a cached pointer to its last node. All
lists and nodes are in one memory. A list is what its header's `first` leads through; the cached
pointer is there for `stq_add_tail` alone, and every other operation has to keep it right.

## What is proved

* `Stq.Rep.addAfter`, `Stq.Rep.delAfter` — the two operations at a place of a list.
* `stqStep_refines` — one call does what it says to the lists as sequences.
* `stq_refines` — so does every sequence of calls, and the walks give the sequences.
-/

namespace CcUtils.Lists

open CcUtils.Lib

variable {κ ν : Type} [DecidableEq κ] [DecidableEq ν]

/-! ### The functions -/

/-- The fields of all headers and nodes; the `next` of a header is its `first`. -/
structure Stq (κ ν : Type) where
  next : Cell κ ν → Option ν
  last : κ → Option ν

/-- A store to a `next` or `first`. -/
def Stq.setNext (m : Stq κ ν) (a : Cell κ ν) (v : Option ν) : Stq κ ν :=
  { m with next := Function.update m.next a v }

/-- A store to a `last`. -/
def Stq.setLast (m : Stq κ ν) (l : κ) (v : Option ν) : Stq κ ν :=
  { m with last := Function.update m.last l v }

@[simp] theorem Stq.setLast_next {κ ν : Type} [DecidableEq κ] (m : Stq κ ν) (l : κ) (v : Option ν) :
    (m.setLast l v).next = m.next := rfl

@[simp] theorem Stq.setNext_last (m : Stq κ ν) (a : Cell κ ν) (v : Option ν) :
    (m.setNext a v).last = m.last := rfl

@[simp] theorem Stq.setNext_next (m : Stq κ ν) (a : Cell κ ν) (v : Option ν) :
    (m.setNext a v).next = Function.update m.next a v := rfl

@[simp] theorem Stq.setLast_last {κ ν : Type} [DecidableEq κ] (m : Stq κ ν) (l : κ) (v : Option ν) :
    (m.setLast l v).last = Function.update m.last l v := rfl

/-- `stq_init`. -/
def stqInit (m : Stq κ ν) (list : κ) : Stq κ ν := (m.setNext (.head list) none).setLast list none

/-- `stq_is_empty`. -/
def stqIsEmpty (m : Stq κ ν) (list : κ) : Bool := m.next (.head list) = none

/-- `stq_first`. -/
def stqFirst (m : Stq κ ν) (list : κ) : Option ν := m.next (.head list)

/-- `stq_last`. -/
def stqLast (m : Stq κ ν) (list : κ) : Option ν := m.last list

/-- `stq_next`. -/
def stqNext (m : Stq κ ν) (node : ν) : Option ν := m.next (.node node)

/-- `stq_add_head`. -/
def stqAddHead (m : Stq κ ν) (list : κ) (node : ν) : Stq κ ν :=
  let m := m.setNext (.node node) (m.next (.head list))
  let m := m.setNext (.head list) (some node)
  if m.last list = none then m.setLast list (some node) else m

/-- `stq_del_head`. -/
def stqDelHead (m : Stq κ ν) (list : κ) : Stq κ ν × Option ν :=
  let node := m.next (.head list)
  let m := match node with
    | some n => m.setNext (.head list) (m.next (.node n))
    | none => m
  let m := if m.next (.head list) = none then m.setLast list none else m
  (m, node)

/-- `stq_add_tail`. -/
def stqAddTail (m : Stq κ ν) (list : κ) (node : ν) : Stq κ ν :=
  let m := m.setNext (.node node) none
  match m.last list with
  | some last => (m.setNext (.node last) (some node)).setLast list (some node)
  | none => (m.setLast list (some node)).setNext (.head list) (some node)

/-- `stq_add_after`. -/
def stqAddAfter (m : Stq κ ν) (list : κ) (prev : Option ν) (insert : ν) : Stq κ ν :=
  match prev with
  | none => stqAddHead m list insert
  | some prev =>
    let m := m.setNext (.node insert) (m.next (.node prev))
    let m := m.setNext (.node prev) (some insert)
    if m.last list = some prev then m.setLast list (some insert) else m

/-- `stq_del_after`. -/
def stqDelAfter (m : Stq κ ν) (list : κ) (prev : Option ν) : Stq κ ν × Option ν :=
  match prev with
  | none => stqDelHead m list
  | some prev =>
    let node := m.next (.node prev)
    let m := match node with
      | some n => m.setNext (.node prev) (m.next (.node n))
      | none => m
    let m := if m.last list = node then m.setLast list (some prev) else m
    (m, node)

/-- The loop of `stq_del`. -/
def stqDelLoop (m : Stq κ ν) (list : κ) (node : ν) : ℕ → Option ν → Option ν → Exec (Stq κ ν)
  | 0, _, _ => .error .outOfFuel
  | _ + 1, none, _ => .ok m
  | fuel + 1, some cur, prev =>
    if cur = node then .ok (stqDelAfter m list prev).1
    else stqDelLoop m list node fuel (stqNext m cur) (some cur)

/-- `stq_del`. -/
def stqDel (fuel : ℕ) (m : Stq κ ν) (list : κ) (node : ν) : Exec (Stq κ ν) :=
  stqDelLoop m list node fuel (stqFirst m list) none

/-- `STQ_FOREACH_PREVPTR` with an empty body: the last value of `prev`. -/
def stqPrevLoop (m : Stq κ ν) : ℕ → Option ν → Option ν → Exec (Option ν)
  | 0, _, _ => .error .outOfFuel
  | _ + 1, none, prev => .ok prev
  | fuel + 1, some node, _ => stqPrevLoop m fuel (stqNext m node) (some node)

/-- `stq_append`. -/
def stqAppend (fuel : ℕ) (m : Stq κ ν) (destList srcList : κ) : Exec (Stq κ ν) :=
  if stqIsEmpty m srcList then .ok m
  else do
    let prev ← stqPrevLoop m fuel (stqFirst m destList) none
    match prev with
    | none =>
      let m := m.setNext (.head destList) (stqFirst m srcList)
      let m := m.setLast destList (stqLast m srcList)
      return stqInit m srcList
    | some prev =>
      let m := m.setNext (.node prev) (stqFirst m srcList)
      let m := m.setLast destList (stqLast m srcList)
      return stqInit m srcList

/-- The loop of `stq_free_all`; the nodes given to the callback, which leaves `freed n` in the
`next` of the node `n`. -/
def stqFreeLoop (freed : ν → Option ν) : ℕ → Stq κ ν → Option ν → Exec (Stq κ ν × List ν)
  | 0, _, _ => .error .outOfFuel
  | _ + 1, m, none => .ok (m, [])
  | fuel + 1, m, some node => do
    let next := stqNext m node
    let (m, nodes) ← stqFreeLoop freed fuel (m.setNext (.node node) (freed node)) next
    return (m, node :: nodes)

/-- `stq_free_all`. -/
def stqFreeAll (freed : ν → Option ν) (fuel : ℕ) (m : Stq κ ν) (list : κ) :
    Exec (Stq κ ν × List ν) := do
  let (m, nodes) ← stqFreeLoop freed fuel m (stqFirst m list)
  return (stqInit m list, nodes)

/-- `STQ_FOREACH`: the nodes it visits from `node` on. -/
def stqForeach (m : Stq κ ν) : ℕ → Option ν → Exec (List ν)
  | 0, _ => .error .outOfFuel
  | _ + 1, none => .ok []
  | fuel + 1, some node => do
    let nodes ← stqForeach m fuel (stqNext m node)
    return node :: nodes

/-! ### The lists in memory -/

/-- The memory holds the lists. -/
structure Stq.Rep (m : Stq κ ν) (F : Family κ ν) : Prop where
  separate : F.Separate
  next : F.Linked some m.next fun _ => none
  last : ∀ l q, F l = some q → m.last l = q.getLast?

variable {m m' : Stq κ ν} {F : Family κ ν} {l d s : κ} {q r : List ν} {n : ν}

/-- The cached pointers, after one list has changed. -/
theorem Stq.Rep.last_put {κ ν : Type} [DecidableEq κ] {m m' : Stq κ ν} {F : Family κ ν} {l : κ}
    {q : List ν} (h : m.Rep F) (hl : m'.last l = q.getLast?)
    (hk : ∀ k, k ≠ l → m'.last k = m.last k) :
    ∀ k r, F.put l q k = some r → m'.last k = r.getLast? := by
  intro k r hr
  rcases Family.of_put hr with ⟨rfl, rfl⟩ | ⟨hkl, hr⟩
  · exact hl
  · rw [hk k hkl]
    exact h.last k r hr

/-- What the field before a place holds: the node after it. -/
theorem Stq.Rep.next_eq {κ ν : Type} {m : Stq κ ν} {F : Family κ ν} {l : κ} {q r : List ν}
    (h : m.Rep F) (hl : F l = some (q ++ r)) :
    m.next (lastCell (.head l) q) = r.head? := by
  have hr := (follows_append.mp (h.next l _ hl)).2.first_eq
  rw [hr]
  cases r <;> rfl

theorem Stq.Rep.init (h : m.Rep F) (l : κ) : (stqInit m l).Rep (F.put l []) where
  separate := h.separate.init l
  next := h.next.init (Function.update_self ..) fun _ hx => Function.update_of_ne hx ..
  last := h.last_put (Function.update_self ..) fun _ hk => Function.update_of_ne hk ..

/-- The walk of `STQ_FOREACH` gives the list. -/
theorem stqForeach_follows {κ ν : Type} {m : Stq κ ν} {q : List ν}
    {a : Cell κ ν} {fuel : ℕ} (h : Follows some m.next a q none)
    (hf : q.length < fuel) : stqForeach m fuel (m.next a) = .ok q := by
  induction q generalizing a fuel with
  | nil =>
    obtain ⟨fuel, rfl⟩ : ∃ k, fuel = k + 1 := ⟨fuel - 1, by omega⟩
    have hnone : m.next a = none := h
    rw [hnone, stqForeach]
  | cons n q ih =>
    obtain ⟨fuel, rfl⟩ : ∃ k, fuel = k + 1 := ⟨fuel - 1, by omega⟩
    have htail := ih h.2 (Nat.lt_of_succ_lt_succ hf)
    rw [h.1, stqForeach, stqNext, htail]
    rfl

/-! ### The operations at a place -/

/-- The fields that `stq_add_after` writes, whichever of its cases it takes. -/
theorem stqAddAfter_next (m : Stq κ ν) (l : κ) (q : List ν) (n : ν) :
    (stqAddAfter m l q.getLast? n).next =
      Function.update (Function.update m.next (.node n) (m.next (lastCell (.head l) q)))
        (lastCell (.head l) q) (some n) := by
  rcases List.eq_nil_or_concat q with rfl | ⟨p, c, rfl⟩
  · rw [List.getLast?_nil, stqAddAfter, stqAddHead]
    split <;> rfl
  · rw [List.concat_eq_append, List.getLast?_concat, lastCell_append, stqAddAfter]
    split <;> rfl

/-- The cached pointer moves exactly when the place is the end. -/
theorem stqAddAfter_last (h : m.Rep F) (hl : F l = some (q ++ r)) (n : ν) :
    (stqAddAfter m l q.getLast? n).last =
      if r = [] then Function.update m.last l (some n) else m.last := by
  have hlast := h.last l _ hl
  rcases List.eq_nil_or_concat q with rfl | ⟨p, c, rfl⟩
  · rw [List.getLast?_nil, stqAddAfter, stqAddHead]
    by_cases hr : r = []
    · have h0 : m.last l = none := by rw [hlast, hr]; rfl
      rw [if_pos hr]
      exact congrArg Stq.last (if_pos h0)
    · have h0 : m.last l ≠ none := by
        rw [hlast, List.nil_append, ne_eq, List.getLast?_eq_none_iff]
        exact hr
      rw [if_neg hr]
      exact (congrArg Stq.last (if_neg h0)).trans rfl
  · rw [List.concat_eq_append, List.getLast?_concat, stqAddAfter]
    rw [List.concat_eq_append] at hl hlast
    by_cases hr : r = []
    · have h0 : m.last l = some c := by rw [hlast, hr]; simp
      rw [if_pos hr]
      exact congrArg Stq.last (if_pos h0)
    · have h0 : m.last l ≠ some c := by
        rw [hlast, List.getLast?_append_of_ne_nil _ hr]
        intro hc
        have hcr : c ∈ r := List.mem_of_getLast? hc
        exact (List.nodup_append.mp (h.separate.nodup hl)).2.2 c (by simp) c hcr rfl
      rw [if_neg hr]
      exact (congrArg Stq.last (if_neg h0)).trans rfl

/-- `stq_add_after` of a free node at a place. -/
theorem Stq.Rep.addAfter (h : m.Rep F) (hl : F l = some (q ++ r)) (hn : F.Free n) :
    (stqAddAfter m l q.getLast? n).Rep (F.put l (q ++ n :: r)) where
  separate := h.separate.insert hl hn
  next := by
    have hne : (.node n : Cell κ ν) ≠ lastCell (.head l) q :=
      (hn.ne_cell hl (cellsOf_append_left (lastCell_mem _ q))).symm
    rw [stqAddAfter_next]
    refine h.next.insert h.separate hl hn (Function.update_self ..) ?_ fun x hx hxn => ?_
    · rw [Function.update_of_ne hne, Function.update_self]
    · rw [Function.update_of_ne hx, Function.update_of_ne hxn]
  last := by
    have hlast := stqAddAfter_last h hl n
    by_cases hr : r = []
    · rw [if_pos hr] at hlast
      refine h.last_put ?_ fun k hk => ?_
      · rw [hlast, hr, Function.update_self, List.getLast?_concat]
      · rw [hlast, Function.update_of_ne hk]
    · rw [if_neg hr] at hlast
      refine h.last_put ?_ fun k _ => by rw [hlast]
      rw [hlast, h.last l _ hl, List.getLast?_append_of_ne_nil _ hr,
        List.getLast?_append_of_ne_nil _ (List.cons_ne_nil n r), List.getLast?_cons_of_ne_nil hr]

/-- `stq_add_tail` links the node in at the end. -/
theorem stqAddTail_eq (h : m.Rep F) (hl : F l = some q) (n : ν) :
    stqAddTail m l n = stqAddAfter m l q.getLast? n := by
  have hnext := stqAddAfter_next m l q n
  have hlast := stqAddAfter_last h (r := []) (by rwa [List.append_nil]) n
  have hq := h.next_eq (r := []) (by rwa [List.append_nil])
  rw [if_pos rfl] at hlast
  rw [hq] at hnext
  have hm := h.last l q hl
  generalize stqAddAfter m l q.getLast? n = m' at hnext hlast
  obtain ⟨next', last'⟩ := m'
  dsimp only at hnext hlast
  subst hnext hlast
  rw [stqAddTail]
  rcases List.eq_nil_or_concat q with rfl | ⟨p, c, rfl⟩
  · simp only [List.getLast?_nil] at hm
    simp only [Stq.setNext_last, hm]
    rfl
  · simp only [List.concat_eq_append, List.getLast?_concat] at hm
    simp only [Stq.setNext_last, hm, List.concat_eq_append, lastCell_append]
    rfl

/-- `stq_del_after` at a place takes out the node after it, if there is one. -/
theorem Stq.Rep.delAfter_cons (h : m.Rep F) (hl : F l = some (q ++ n :: r)) :
    stqDelAfter m l q.getLast? =
      (⟨Function.update m.next (lastCell (.head l) q) r.head?,
        if r = [] then Function.update m.last l q.getLast? else m.last⟩, some n) := by
  have hfirst := h.next_eq hl
  have hl1 : F l = some ((q ++ [n]) ++ r) := by rwa [List.append_assoc]
  have hnode := h.next_eq hl1
  have hlast := h.last l _ hl1
  simp only [lastCell_append, lastCell_cons, lastCell_nil] at hnode
  rcases List.eq_nil_or_concat q with rfl | ⟨p, c, rfl⟩
  · simp only [lastCell_nil, List.head?_cons] at hfirst
    simp only [List.getLast?_nil, stqDelAfter, stqDelHead, hfirst, hnode, Stq.setNext_next,
      Function.update_self, List.head?_eq_none_iff, lastCell_nil]
    by_cases hr : r = []
    · rw [if_pos hr, if_pos hr]
      rfl
    · rw [if_neg hr, if_neg hr]
      rfl
  · simp only [List.concat_eq_append, lastCell_append, lastCell_cons, lastCell_nil,
      List.head?_cons] at hfirst hlast ⊢
    simp only [List.getLast?_concat, stqDelAfter, hfirst, hnode, Stq.setNext_last]
    by_cases hr : r = []
    · have h0 : m.last l = some n := by rw [hlast, hr]; simp
      rw [if_pos h0, if_pos hr]
      rfl
    · have h0 : m.last l ≠ some n := by
        rw [hlast, List.getLast?_append_of_ne_nil _ hr]
        intro hn
        have hnr : n ∈ r := List.mem_of_getLast? hn
        have hd := h.separate.nodup hl1
        exact (List.nodup_append.mp hd).2.2 n (by simp) n hnr rfl
      rw [if_neg h0, if_neg hr]
      rfl

/-- At the end there is nothing to take out. -/
theorem Stq.Rep.delAfter_nil (h : m.Rep F) (hl : F l = some q) :
    (stqDelAfter m l q.getLast?).1.Rep F ∧ (stqDelAfter m l q.getLast?).2 = none := by
  have hl1 : F l = some (q ++ []) := by rwa [List.append_nil]
  have hfirst := h.next_eq hl1
  have hlast := h.last l _ hl
  rcases List.eq_nil_or_concat q with rfl | ⟨p, c, rfl⟩
  · simp only [lastCell_nil, List.head?_nil] at hfirst
    simp only [List.getLast?_nil] at hlast
    simp only [List.getLast?_nil, stqDelAfter, stqDelHead, hfirst, if_true, and_true]
    have hsame : m.setLast l none = m := by
      rw [Stq.setLast, ← hlast, Function.update_eq_self]
    rwa [hsame]
  · simp only [List.concat_eq_append, lastCell_append, lastCell_cons, lastCell_nil,
      List.head?_nil, List.getLast?_concat] at hfirst hlast ⊢
    have h0 : m.last l ≠ none := by rw [hlast]; exact nofun
    simp only [stqDelAfter, hfirst, if_neg h0, and_true]
    exact h

/-- `stq_del_after` at a place. -/
theorem Stq.Rep.delAfter (h : m.Rep F) (hl : F l = some (q ++ r)) :
    (stqDelAfter m l q.getLast?).1.Rep (F.put l (q ++ r.tail)) ∧
      (stqDelAfter m l q.getLast?).2 = r.head? := by
  cases r with
  | nil =>
    rw [List.append_nil] at hl
    rw [List.tail_nil, List.append_nil, Family.put_of_eq hl]
    exact h.delAfter_nil hl
  | cons n r =>
    have hnode : m.next (.node n) = r.head? := by
      have hl1 : F l = some ((q ++ [n]) ++ r) := by rwa [List.append_assoc]
      simpa using h.next_eq hl1
    rw [h.delAfter_cons hl]
    refine ⟨⟨h.separate.remove hl, ?_, ?_⟩, rfl⟩
    · refine h.next.remove h.separate hl ?_ fun x hx _ => Function.update_of_ne hx ..
      exact (Function.update_self ..).trans hnode.symm
    · by_cases hr : r = []
      · rw [if_pos hr, hr, List.tail_cons, List.append_nil]
        exact h.last_put (Function.update_self ..) fun k hk => Function.update_of_ne hk ..
      · refine h.last_put ?_ fun k _ => by rw [if_neg hr]
        rw [if_neg hr, h.last l _ hl, List.tail_cons, List.getLast?_append_of_ne_nil _ hr,
          List.getLast?_append_of_ne_nil _ (List.cons_ne_nil n r), List.getLast?_cons_of_ne_nil hr]

/-! ### The loops -/

/-- The loop of `stq_del` takes out the node it looks for, by induction on what it has not passed. -/
theorem Stq.Rep.delLoop (h : m.Rep F) (hl : F l = some (q ++ r)) (hn : n ∉ q) :
    ∃ m', (∀ fuel, r.length < fuel → stqDelLoop m l n fuel r.head? q.getLast? = .ok m') ∧
      m'.Rep (F.put l ((q ++ r).erase n)) := by
  induction r generalizing q with
  | nil =>
    refine ⟨m, fun fuel hf => ?_, ?_⟩
    · obtain ⟨fuel, rfl⟩ : ∃ k, fuel = k + 1 := ⟨fuel - 1, by omega⟩
      rfl
    · rw [List.append_nil] at hl ⊢
      rwa [List.erase_of_not_mem hn, Family.put_of_eq hl]
  | cons c r ih =>
    by_cases hc : c = n
    · subst hc
      refine ⟨(stqDelAfter m l q.getLast?).1, fun fuel hf => ?_, ?_⟩
      · obtain ⟨fuel, rfl⟩ : ∃ k, fuel = k + 1 := ⟨fuel - 1, by omega⟩
        rw [List.head?_cons, stqDelLoop, if_pos rfl]
      · rw [List.erase_append_right _ hn, List.erase_cons_head]
        exact (h.delAfter hl).1
    · have hl1 : F l = some ((q ++ [c]) ++ r) := by rwa [List.append_assoc]
      have hn1 : n ∉ q ++ [c] := by
        rw [List.mem_append, List.mem_singleton, not_or]
        exact ⟨hn, Ne.symm hc⟩
      obtain ⟨m', hrun, hrep⟩ := ih hl1 hn1
      have hnext : stqNext m c = r.head? := by
        rw [stqNext, ← h.next_eq hl1, lastCell_append]
        rfl
      refine ⟨m', fun fuel hf => ?_, by rwa [List.append_assoc] at hrep⟩
      obtain ⟨fuel, rfl⟩ : ∃ k, fuel = k + 1 := ⟨fuel - 1, by omega⟩
      have hrest := hrun fuel (Nat.lt_of_succ_lt_succ hf)
      rw [List.getLast?_concat] at hrest
      rw [List.head?_cons, stqDelLoop, if_neg hc, hnext, hrest]

/-- `stq_del` of any node. -/
theorem Stq.Rep.del (h : m.Rep F) (hl : F l = some q) (n : ν) :
    ∃ m', (∀ fuel, q.length < fuel → stqDel fuel m l n = .ok m') ∧
      m'.Rep (F.put l (q.erase n)) := by
  obtain ⟨m', hrun, hrep⟩ := h.delLoop (q := []) hl List.not_mem_nil
  refine ⟨m', fun fuel hf => ?_, hrep⟩
  have hfirst : stqFirst m l = q.head? := h.next_eq (q := []) hl
  rw [stqDel, hfirst]
  exact hrun fuel hf

/-- The walk of `stq_append` ends with the last node. -/
theorem stqPrevLoop_follows {κ ν : Type} {m : Stq κ ν} {q : List ν}
    {a : Cell κ ν} {fuel : ℕ} (h : Follows some m.next a q none)
    (hf : q.length < fuel) (prev : Option ν) :
    stqPrevLoop m fuel (m.next a) prev = .ok (q.getLast?.or prev) := by
  induction q generalizing a fuel prev with
  | nil =>
    obtain ⟨fuel, rfl⟩ : ∃ k, fuel = k + 1 := ⟨fuel - 1, by omega⟩
    have hnone : m.next a = none := h
    rw [hnone, stqPrevLoop]
    rfl
  | cons n q ih =>
    obtain ⟨fuel, rfl⟩ : ∃ k, fuel = k + 1 := ⟨fuel - 1, by omega⟩
    rw [h.1, stqPrevLoop, stqNext, ih h.2 (Nat.lt_of_succ_lt_succ hf)]
    cases q with
    | nil => rfl
    | cons k q => rw [List.getLast?_cons_cons, List.getLast?_cons]; rfl

/-- `stq_append` of two lists. -/
theorem Stq.Rep.append (h : m.Rep F) (hds : d ≠ s) (hd : F d = some q) (hs : F s = some r) :
    ∃ m', (∀ fuel, q.length < fuel → stqAppend fuel m d s = .ok m') ∧
      m'.Rep ((F.put s []).put d (q ++ r)) := by
  have hfirst : m.next (.head s) = r.head? := h.next_eq (q := []) hs
  cases r with
  | nil =>
    refine ⟨m, fun fuel _ => ?_, ?_⟩
    · rw [stqAppend, stqIsEmpty, hfirst]
      rfl
    · rwa [List.append_nil, Family.put_of_eq hs, Family.put_of_eq hd]
  | cons n t =>
    have hlast : lastCell (.head d) q ≠ (.head s : Cell κ ν) := by
      intro he
      rcases mem_cellsOf.mp (lastCell_mem (.head d : Cell κ ν) q) with h0 | ⟨k, -, hk⟩
      · exact hds (Cell.head.inj (h0.symm.trans he))
      · exact nomatch hk.trans he
    have hd1 : F d = some (q ++ []) := by rwa [List.append_nil]
    have hend : m.next (lastCell (.head d) q) = none := h.next_eq hd1
    have hend' : m.next (lastCell (.node n) t) = none := (h.next s _ hs).last_eq
    have hcell : lastCell (.node n : Cell κ ν) t ≠ lastCell (.head d) q :=
      h.separate.ne_cell hd hs hds.symm (lastCell_mem (.head s) (n :: t)) (lastCell_mem _ q)
    refine ⟨⟨Function.update (Function.update m.next (lastCell (.head d) q) (some n)) (.head s) none,
      Function.update (Function.update m.last d (m.last s)) s none⟩, fun fuel hf => ?_, ?_, ?_, ?_⟩
    · have hprev : stqPrevLoop m fuel (stqFirst m d) none = .ok q.getLast? := by
        have hloop := stqPrevLoop_follows (h.next d _ hd) hf none
        rwa [Option.or_none] at hloop
      rw [stqAppend, stqIsEmpty, hfirst, hprev, ok_bind]
      rcases List.eq_nil_or_concat q with rfl | ⟨p, c, rfl⟩
      · simp only [List.getLast?_nil, stqFirst, hfirst]
        rfl
      · simp only [List.concat_eq_append, List.getLast?_concat, stqFirst, hfirst, lastCell_append]
        rfl
    · have hsep := h.separate.move hds hd1 hs
      rwa [List.append_nil] at hsep
    · have hmove := h.next.move h.separate hds hd1 hs
        (g := Function.update (Function.update m.next (lastCell (.head d) q) (some n)) (.head s) none)
        ?_ ?_ (Function.update_self ..) fun x hx _ hxs => ?_
      · rwa [List.append_nil] at hmove
      · rw [Function.update_of_ne hlast, Function.update_self, hfirst, List.head?_cons]
      · rw [Function.update_of_ne, Function.update_of_ne hcell, hend', hend]
        intro he
        rcases mem_cellsOf.mp (lastCell_mem (.node n : Cell κ ν) t) with h0 | ⟨k, -, hk⟩
        · exact nomatch h0.symm.trans he
        · exact nomatch hk.trans he
      · rw [Function.update_of_ne hxs, Function.update_of_ne hx]
    · intro k p hk
      rcases Family.of_put hk with ⟨rfl, rfl⟩ | ⟨hkd, hk⟩
      · change Function.update (Function.update m.last k (m.last s)) s none k = _
        rw [Function.update_of_ne hds, Function.update_self, h.last s _ hs,
          List.getLast?_append_of_ne_nil _ (List.cons_ne_nil n t)]
      · rcases Family.of_put hk with ⟨rfl, rfl⟩ | ⟨hks, hk⟩
        · exact Function.update_self ..
        · change Function.update (Function.update m.last d (m.last s)) s none k = _
          rw [Function.update_of_ne hks, Function.update_of_ne hkd]
          exact h.last k p hk

/-- The loop of `stq_free_all` gives the nodes to the callback in order, and leaves all other nodes
alone. -/
theorem stqFreeLoop_follows (freed : ν → Option ν) (h : Follows some m.next (.node n) q none)
    (hd : (n :: q).Nodup) :
    ∃ m', (∀ fuel, (n :: q).length < fuel →
        stqFreeLoop freed fuel m (some n) = .ok (m', n :: q)) ∧
      m'.last = m.last ∧ ∀ x, (∀ k ∈ n :: q, x ≠ .node k) → m'.next x = m.next x := by
  induction q generalizing m n with
  | nil =>
    refine ⟨m.setNext (.node n) (freed n), fun fuel hf => ?_, rfl, fun x hx => ?_⟩
    · obtain ⟨fuel, rfl⟩ : ∃ k, fuel = k + 2 := ⟨fuel - 2, by simp at hf; omega⟩
      have hnext : stqNext m n = none := h
      rw [stqFreeLoop, hnext]
      rfl
    · exact Function.update_of_ne (hx n (List.mem_singleton_self n)) ..
  | cons k q ih =>
    have hnk : n ∉ k :: q := (List.nodup_cons.mp hd).1
    have htail : Follows some (m.setNext (.node n) (freed n)).next (.node k) q none := by
      refine h.2.congr fun x hx => Function.update_of_ne ?_ ..
      rintro rfl
      rcases mem_cellsOf.mp hx with h0 | ⟨j, hj, hj'⟩
      · exact hnk (Cell.node.inj h0 ▸ List.mem_cons_self ..)
      · exact hnk (Cell.node.inj hj' ▸ List.mem_cons_of_mem k hj)
    obtain ⟨m', hrun, hlast, hnext⟩ := ih htail (List.nodup_cons.mp hd).2
    refine ⟨m', fun fuel hf => ?_, hlast, fun x hx => ?_⟩
    · obtain ⟨fuel, rfl⟩ : ∃ j, fuel = j + 1 := ⟨fuel - 1, by omega⟩
      have hk : stqNext m n = some k := h.1
      rw [stqFreeLoop]
      simp only [hk, hrun fuel (Nat.lt_of_succ_lt_succ hf)]
      rfl
    · rw [hnext x fun j hj => hx j (List.mem_cons_of_mem n hj)]
      exact Function.update_of_ne (hx n (List.mem_cons_self ..)) ..

/-- `stq_free_all`. -/
theorem Stq.Rep.freeAll (h : m.Rep F) (hl : F l = some q) (freed : ν → Option ν) :
    ∃ m', (∀ fuel, q.length < fuel → stqFreeAll freed fuel m l = .ok (m', q)) ∧
      m'.Rep (F.put l []) := by
  have hfirst : stqFirst m l = q.head? := h.next_eq (q := []) hl
  -- the memory before the header is made empty
  obtain ⟨m₁, hrun, hlast, hnext⟩ : ∃ m₁ : Stq κ ν, (∀ fuel, q.length < fuel →
      stqFreeLoop freed fuel m q.head? = .ok (m₁, q)) ∧ m₁.last = m.last ∧
      ∀ x, (∀ k ∈ q, x ≠ .node k) → m₁.next x = m.next x := by
    cases q with
    | nil =>
      refine ⟨m, fun fuel hf => ?_, rfl, fun x _ => rfl⟩
      obtain ⟨fuel, rfl⟩ : ∃ j, fuel = j + 1 := ⟨fuel - 1, by omega⟩
      rfl
    | cons n q => exact stqFreeLoop_follows freed (h.next l _ hl).2 (h.separate.nodup hl)
  refine ⟨stqInit m₁ l, fun fuel hf => ?_, h.separate.init l, ?_, ?_⟩
  · rw [stqFreeAll, hfirst, hrun fuel hf]
    rfl
  · refine h.next.put (q := []) (Function.update_self ..) fun k r hkl hk x hx => ?_
    have hne : x ≠ .head l :=
      h.separate.ne_cell hl hk hkl hx (List.mem_cons_self ..)
    refine (Function.update_of_ne hne ..).trans (hnext x fun j hj => ?_)
    exact h.separate.ne_cell hl hk hkl hx (mem_cellsOf.mpr (.inr ⟨j, hj, rfl⟩))
  · refine h.last_put (Function.update_self ..) fun k hk => ?_
    exact (Function.update_of_ne hk ..).trans (congrFun hlast k)

/-! ### Sequences of calls -/

/-- A call of one of the functions. -/
inductive StqOp (κ ν : Type) where
  | init (list : κ)
  | addHead (list : κ) (node : ν)
  | addTail (list : κ) (node : ν)
  | delHead (list : κ)
  | addAfter (list : κ) (prev : Option ν) (insert : ν)
  | delAfter (list : κ) (prev : Option ν)
  | del (list : κ) (node : ν)
  | append (destList srcList : κ)
  | freeAll (list : κ) (freed : ν → Option ν)

/-- What a call gives its caller: nothing, a node or NULL, or the calls of the callback. -/
inductive StqRet (ν : Type) where
  | unit
  | node (p : Option ν)
  | freed (nodes : List ν)
  deriving DecidableEq

/-- The call in memory. -/
def StqOp.exec (fuel : ℕ) (m : Stq κ ν) : StqOp κ ν → Exec (Stq κ ν × StqRet ν)
  | .init l => .ok (stqInit m l, .unit)
  | .addHead l n => .ok (stqAddHead m l n, .unit)
  | .addTail l n => .ok (stqAddTail m l n, .unit)
  | .delHead l => .ok ((stqDelHead m l).1, .node (stqDelHead m l).2)
  | .addAfter l p n => .ok (stqAddAfter m l p n, .unit)
  | .delAfter l p => .ok ((stqDelAfter m l p).1, .node (stqDelAfter m l p).2)
  | .del l n => do
    let m ← stqDel fuel m l n
    return (m, .unit)
  | .append d s => do
    let m ← stqAppend fuel m d s
    return (m, .unit)
  | .freeAll l freed => do
    let (m, nodes) ← stqFreeAll freed fuel m l
    return (m, .freed nodes)

/-- What the call is for: the sequences after it. -/
def StqOp.seqs (F : Family κ ν) : StqOp κ ν → Family κ ν
  | .init l => F.put l []
  | .addHead l n => F.put l (n :: F.seq l)
  | .addTail l n => F.put l (F.seq l ++ [n])
  | .delHead l => F.put l (F.seq l).tail
  | .addAfter l none n => F.put l (n :: F.seq l)
  | .addAfter l (some p) n => F.put l (Family.insertAfter p n (F.seq l))
  | .delAfter l none => F.put l (F.seq l).tail
  | .delAfter l (some p) => F.put l (Family.eraseAfter p (F.seq l))
  | .del l n => F.put l ((F.seq l).erase n)
  | .append d s => (F.put s []).put d (F.seq d ++ F.seq s)
  | .freeAll l _ => F.put l []

/-- What the call is for: its result. -/
def StqOp.ret (F : Family κ ν) : StqOp κ ν → StqRet ν
  | .delHead l => .node (F.seq l).head?
  | .delAfter l none => .node (F.seq l).head?
  | .delAfter l (some p) => .node (Family.nodeAfter p (F.seq l))
  | .freeAll l _ => .freed (F.seq l)
  | _ => .unit

/-- The call keeps to the rules: it names lists that have been made, links in only nodes that are in
no list, and gives NULL or a member as `prev`. -/
def StqOp.Allowed (F : Family κ ν) : StqOp κ ν → Prop
  | .init _ => True
  | .addHead l n => F.Made l ∧ F.Free n
  | .addTail l n => F.Made l ∧ F.Free n
  | .delHead l => F.Made l
  | .addAfter l p n => F.Made l ∧ F.Free n ∧ ∀ k ∈ p, k ∈ F.seq l
  | .delAfter l p => F.Made l ∧ ∀ k ∈ p, k ∈ F.seq l
  | .del l _ => F.Made l
  | .append d s => F.Made d ∧ F.Made s ∧ d ≠ s
  | .freeAll l _ => F.Made l

/-- The calls one after the other, with what they return. -/
def stqRun (fuel : ℕ) : Stq κ ν → List (StqOp κ ν) → Exec (Stq κ ν × List (StqRet ν))
  | m, [] => .ok (m, [])
  | m, op :: ops => do
    let (m, ret) ← op.exec fuel m
    let (m, rets) ← stqRun fuel m ops
    return (m, ret :: rets)

/-- The sequences after the calls. -/
def stqSeqs : Family κ ν → List (StqOp κ ν) → Family κ ν
  | F, [] => F
  | F, op :: ops => stqSeqs (op.seqs F) ops

/-- What the calls return. -/
def stqRets : Family κ ν → List (StqOp κ ν) → List (StqRet ν)
  | _, [] => []
  | F, op :: ops => op.ret F :: stqRets (op.seqs F) ops

/-- All calls keep to the rules. -/
def StqAllowed : Family κ ν → List (StqOp κ ν) → Prop
  | _, [] => True
  | F, op :: ops => op.Allowed F ∧ StqAllowed (op.seqs F) ops

theorem exec_delAfter (fuel : ℕ) {p x : Option ν} (hx : (stqDelAfter m l p).2 = x) :
    (StqOp.delAfter l p).exec fuel m = .ok ((stqDelAfter m l p).1, .node x) := by
  rw [StqOp.exec, hx]

/-- One call does what it is for, if it has fuel enough for its walk. -/
theorem stqStep_refines {op : StqOp κ ν} (h : m.Rep F) (hop : op.Allowed F) :
    ∃ m' N, (∀ fuel, N ≤ fuel → op.exec fuel m = .ok (m', op.ret F)) ∧ m'.Rep (op.seqs F) := by
  cases op with
  | init l => exact ⟨_, 0, fun _ _ => rfl, h.init l⟩
  | addHead l n => exact ⟨_, 0, fun _ _ => rfl, h.addAfter (q := []) hop.1.eq hop.2⟩
  | addTail l n =>
    refine ⟨_, 0, fun _ _ => rfl, ?_⟩
    have hl : F l = some (F.seq l ++ []) := by rw [List.append_nil, hop.1.eq]
    rw [stqAddTail_eq h hop.1.eq n]
    exact h.addAfter hl hop.2
  | delHead l =>
    have hdel := h.delAfter (q := []) (Family.Made.eq hop)
    exact ⟨_, 0, fun fuel _ => exec_delAfter fuel hdel.2, hdel.1⟩
  | addAfter l p n =>
    refine ⟨_, 0, fun _ _ => rfl, ?_⟩
    obtain ⟨hl, hn, hp⟩ := hop
    cases p with
    | none => exact h.addAfter (q := []) hl.eq hn
    | some p =>
      obtain ⟨q, r, hqr, hl0, hl1⟩ := hl.split_mem (hp p rfl)
      have hadd := h.addAfter hl1 hn
      rw [List.getLast?_concat, List.append_assoc] at hadd
      rw [StqOp.seqs, hqr, Family.insertAfter_append n (h.separate.notMem_before hl0)]
      exact hadd
  | delAfter l p =>
    obtain ⟨hl, hp⟩ := hop
    cases p with
    | none =>
      have hdel := h.delAfter (q := []) hl.eq
      exact ⟨_, 0, fun fuel _ => exec_delAfter fuel hdel.2, hdel.1⟩
    | some p =>
      obtain ⟨q, r, hqr, hl0, hl1⟩ := hl.split_mem (hp p rfl)
      have hdel := h.delAfter hl1
      rw [List.getLast?_concat, List.append_assoc] at hdel
      have hq := h.separate.notMem_before hl0
      rw [StqOp.seqs, StqOp.ret, hqr, Family.eraseAfter_append hq, Family.nodeAfter_append hq]
      exact ⟨_, 0, fun fuel _ => exec_delAfter fuel hdel.2, hdel.1⟩
  | del l n =>
    obtain ⟨m', hrun, hrep⟩ := h.del (Family.Made.eq hop) n
    refine ⟨m', (F.seq l).length + 1, fun fuel hf => ?_, hrep⟩
    rw [StqOp.exec, hrun fuel hf]
    rfl
  | append d s =>
    obtain ⟨m', hrun, hrep⟩ := h.append hop.2.2 hop.1.eq hop.2.1.eq
    refine ⟨m', (F.seq d).length + 1, fun fuel hf => ?_, hrep⟩
    rw [StqOp.exec, hrun fuel hf]
    rfl
  | freeAll l freed =>
    obtain ⟨m', hrun, hrep⟩ := h.freeAll (Family.Made.eq hop) freed
    refine ⟨m', (F.seq l).length + 1, fun fuel hf => ?_, hrep⟩
    rw [StqOp.exec, hrun fuel hf]
    rfl

/-- A whole run, by induction on its calls. -/
theorem stqRun_refines {ops : List (StqOp κ ν)} (h : m.Rep F) (hops : StqAllowed F ops) :
    ∃ m' N, (∀ fuel, N ≤ fuel → stqRun fuel m ops = .ok (m', stqRets F ops)) ∧
      m'.Rep (stqSeqs F ops) := by
  induction ops generalizing m F with
  | nil => exact ⟨m, 0, fun _ _ => rfl, h⟩
  | cons op ops ih =>
    obtain ⟨m₁, N₁, hstep, h₁⟩ := stqStep_refines h hops.1
    obtain ⟨m₂, N₂, hrun, h₂⟩ := ih h₁ hops.2
    refine ⟨m₂, max N₁ N₂, fun fuel hf => ?_, h₂⟩
    rw [stqRun, hstep fuel (le_trans (le_max_left ..) hf), ok_bind]
    simp only [hrun fuel (le_trans (le_max_right ..) hf)]
    rfl

/-- No list has been made, whatever the memory holds. -/
theorem Stq.rep_none {κ ν : Type} (m : Stq κ ν) : m.Rep fun _ => none where
  separate := ⟨nofun, nofun⟩
  next := nofun
  last := nofun

/-- Every sequence of calls that keeps to the rules returns what the sequences say, and then the walk
over each list gives its sequence, and the cached pointer its last node. -/
theorem stq_refines (m : Stq κ ν) {ops : List (StqOp κ ν)} (hops : StqAllowed (fun _ => none) ops) :
    ∃ m' N, (∀ fuel, N ≤ fuel → stqRun fuel m ops = .ok (m', stqRets (fun _ => none) ops)) ∧
      ∀ l q, stqSeqs (fun _ => none) ops l = some q →
        (∀ fuel, q.length < fuel → stqForeach m' fuel (stqFirst m' l) = .ok q) ∧
          stqLast m' l = q.getLast? := by
  obtain ⟨m', N, hrun, h⟩ := stqRun_refines m.rep_none hops
  refine ⟨m', N, hrun, fun l q hl => ⟨fun fuel hf => ?_, h.last l q hl⟩⟩
  exact stqForeach_follows (h.next l q hl) hf

/-- Calls on two lists. -/
def someStqOps : List (StqOp Bool ℕ) :=
  [.init true, .init false, .addTail true 1, .addAfter true (some 1) 2, .addHead false 3,
    .append true false, .delAfter true (some 2), .del true 9, .delHead true]

theorem someStqOps_allowed : StqAllowed (fun _ => none) someStqOps :=
  ⟨trivial, trivial, ⟨rfl, Family.free_iff.mpr (by decide)⟩,
    ⟨rfl, Family.free_iff.mpr (by decide), by decide⟩, ⟨rfl, Family.free_iff.mpr (by decide)⟩,
    ⟨rfl, rfl, nofun⟩, ⟨rfl, by decide⟩, rfl, rfl, trivial⟩

theorem stq_refines_some :
    ∃ m' N, (∀ fuel, N ≤ fuel → stqRun fuel ⟨fun _ => some 7, fun _ => none⟩ someStqOps =
        .ok (m', stqRets (fun _ => none) someStqOps)) ∧
      ∀ l q, stqSeqs (fun _ => none) someStqOps l = some q →
        (∀ fuel, q.length < fuel → stqForeach m' fuel (stqFirst m' l) = .ok q) ∧
          stqLast m' l = q.getLast? :=
  stq_refines ⟨fun _ => some 7, fun _ => none⟩ someStqOps_allowed

end CcUtils.Lists
