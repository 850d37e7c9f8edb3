import CcUtils.Lists.Dl
import CcUtils.Lists.Dtq

/-!
# Draining a list

`dl_del_head_and_init_node` asks whether there is a second node, where `dl_del_head` and
`dtq_del_head_and_init_node` ask whether there is a first one. So a drain by it reads through NULL when
the list is empty, and otherwise stops with one node left.

## What is proved

* `Dl.Rep.drain_delHead`, `Dtq.Rep.drain_delHeadAndInitNode` — the two siblings return every node.
* `Dl.Rep.drain_delHeadAndInitNode` — this one returns every node but the last.
* `drain_never_right` — so its drain is right for no list.
-/

namespace CcUtils.Lists

open CcUtils.Lib

variable {κ ν : Type} [DecidableEq κ] [DecidableEq ν]

/-- `dl_del_head_and_init_node`. -/
def dlDelHeadAndInitNode (m : Dl κ ν) (list : κ) : Exec (Dl κ ν × Option ν) := do
  let node ← dlAt (dlFirst m list)
  if dlNext m node = none then return (m, none)
  else return (dlDelAndInitNode m node, some node)

/-- Draining the list `q` by `dl_del_head_and_init_node` returns its nodes, cleared, and leaves it empty,
in agreement with the drains by `dl_del_head` and, from a deque of the same nodes, by
`dtq_del_head_and_init_node`. -/
structure DrainsTo (m : Dl κ ν) (l : κ) (q : List ν) (fuel : ℕ) (m' : Dl κ ν) : Prop where
  drain : drain (dlDelHeadAndInitNode · l) fuel m = .ok (m', q)
  cleared : ∀ n ∈ q, dlNext m' n = none ∧ m'.prev n = none
  empty : dlIsEmpty m' l = true
  delHead : Post (Lib.drain (fun m => .ok (dlDelHead m l)) fuel m) fun u => u.2 = q
  dtq : ∀ (d : Dtq κ ν) B, d.Rep B → B.lists l = some q →
    Post (Lib.drain (dtqDelHeadAndInitNode · l) fuel d) fun u => u.2 = q.map .node

/-! ### The siblings -/

variable {m : Dl κ ν} {d : Dtq κ ν} {A : Tracked κ ν} {l : κ} {q : List ν} {n z : ν} {fuel : ℕ}

/-- **The drain by `dl_del_head`** returns every node and leaves the list empty. -/
theorem Dl.Rep.drain_delHead (h : m.Rep A) (hl : A.lists l = some q) (hf : q.length < fuel) :
    Post (drain (fun m => .ok (dlDelHead m l)) fuel m) fun u =>
      u.2 = q ∧ ∃ B : Tracked κ ν, u.1.Rep B ∧ B.lists l = some [] := by
  refine Post.drain (R := fun m q => ∃ B : Tracked κ ν, Dl.Rep m B ∧ B.lists l = some q) ?_ ?_
    ⟨A, h, hl⟩ hf
  · rintro m ⟨B, h, hl⟩
    rw [h.delHead_nil hl]
    exact Post.ok ⟨rfl, B, h, hl⟩
  · rintro m n q ⟨B, h, hl⟩
    rw [h.delHead_cons hl]
    exact Post.ok ⟨rfl, _, h.linkOut (q := []) hl, Function.update_self ..⟩

/-- **The drain by `dtq_del_head_and_init_node`** returns every node and leaves the list empty. -/
theorem Dtq.Rep.drain_delHeadAndInitNode (h : d.Rep A) (hl : A.lists l = some q)
    (hf : q.length < fuel) :
    Post (drain (dtqDelHeadAndInitNode · l) fuel d) fun u =>
      u.2 = q.map .node ∧ ∃ B : Tracked κ ν, u.1.Rep B ∧ B.lists l = some [] := by
  have hlen : (q.map .node : List (Cell κ ν)).length < fuel := by rwa [List.length_map]
  refine (Post.drain (R := fun d cells => ∃ (B : Tracked κ ν) (q : List ν), Dtq.Rep d B ∧
    B.lists l = some q ∧ cells = q.map .node) ?_ ?_ ⟨A, q, h, hl, rfl⟩ hlen).mono ?_
  · rintro d ⟨B, q, h, hl, hq⟩
    obtain rfl := List.map_eq_nil_iff.mp hq.symm
    rw [dtqDelHeadAndInitNode, h.delEnd_nil hl]
    exact Post.ok ⟨rfl, B, [], h, hl, rfl⟩
  · rintro d a cells ⟨B, q, h, hl, hq⟩
    obtain ⟨n, q, rfl, rfl, rfl⟩ := List.map_eq_cons_iff.mp hq.symm
    rw [dtqDelHeadAndInitNode, h.first hl]
    exact (h.delEnd_init hl).mono fun u hu =>
      ⟨hu.1, _, q, hu.2, Function.update_self .., rfl⟩
  · rintro u ⟨hu, B, q, h, hl, hq⟩
    obtain rfl := List.map_eq_nil_iff.mp hq.symm
    exact ⟨hu, B, h, hl⟩

/-! ### The drain by `dl_del_head_and_init_node` -/

/-- Of an empty list it reads the node's `next` through NULL. -/
theorem Dl.Rep.delHeadAndInitNode_nil (h : m.Rep A) (hl : A.lists l = some []) :
    dlDelHeadAndInitNode m l = .error .nullDeref := by
  have hfirst : dlFirst m l = none := h.link_eq (q := []) hl
  rw [dlDelHeadAndInitNode, hfirst]
  rfl

/-- Of a list of one node it returns NULL. -/
theorem Dl.Rep.delHeadAndInitNode_last (h : m.Rep A) (hl : A.lists l = some [z]) :
    dlDelHeadAndInitNode m l = .ok (m, none) := by
  have hfirst : dlFirst m l = some z := h.link_eq (q := []) hl
  have hnext : dlNext m z = none := h.link_eq (q := [z]) (r := []) hl
  rw [dlDelHeadAndInitNode, hfirst, dlAt_some, ok_bind, if_pos hnext]
  rfl

/-- Of a longer list it returns the first node, cleared. -/
theorem Dl.Rep.delHeadAndInitNode_cons (h : m.Rep A) (hq : q ≠ [])
    (hl : A.lists l = some (n :: q)) :
    Post (dlDelHeadAndInitNode m l) fun u =>
      u.2 = some n ∧ u.1.Rep ⟨A.lists.put l q, insert n A.cleared⟩ := by
  have hfirst : dlFirst m l = some n := h.link_eq (q := []) hl
  have hnext : dlNext m n = q.head? := h.link_eq (q := [n]) hl
  have hsecond : ¬ dlNext m n = none := by rwa [hnext, List.head?_eq_none_iff]
  obtain ⟨hrep, hfree⟩ := h.unlink (.inl ⟨l, [], q, hl⟩)
  rw [h.separate.erase_eq (q := []) hl] at hrep hfree
  rw [dlDelHeadAndInitNode, hfirst, dlAt_some, ok_bind, if_neg hsecond]
  exact Post.pure ⟨rfl, hrep.initNode hfree⟩

/-- **The drain by `dl_del_head_and_init_node`** returns every node but the last, which stays. -/
theorem Dl.Rep.drain_delHeadAndInitNode (h : m.Rep A) (hl : A.lists l = some (q ++ [z]))
    (hf : q.length < fuel) :
    Post (drain (dlDelHeadAndInitNode · l) fuel m) fun u =>
      u.2 = q ∧ ∃ B : Tracked κ ν, u.1.Rep B ∧ B.lists l = some [z] := by
  refine Post.drain (R := fun m q => ∃ B : Tracked κ ν, Dl.Rep m B ∧ B.lists l = some (q ++ [z])) ?_
    ?_ ⟨A, h, hl⟩ hf
  · rintro m ⟨B, h, hl⟩
    rw [h.delHeadAndInitNode_last hl]
    exact Post.ok ⟨rfl, B, h, hl⟩
  · rintro m n q ⟨B, h, hl⟩
    have hq : q ++ [z] ≠ [] := by simp
    exact (h.delHeadAndInitNode_cons hq hl).mono fun u hu =>
      ⟨hu.1, _, hu.2, Function.update_self ..⟩

/-- **The drain by `dl_del_head_and_init_node` is right** for no list. -/
theorem drain_never_right (h : m.Rep A) (hl : A.lists l = some q) :
    ¬ ∃ fuel m', DrainsTo m l q fuel m' := by
  rintro ⟨fuel, m', hright⟩
  have hdrain := hright.drain
  rcases List.eq_nil_or_concat q with rfl | ⟨p, z, rfl⟩
  · cases fuel with
    | zero => cases hdrain
    | succ fuel =>
      rw [drain, h.delHeadAndInitNode_nil hl] at hdrain
      cases hdrain
  · rw [List.concat_eq_append] at hl hdrain
    have hpost := h.drain_delHeadAndInitNode hl (Nat.lt_succ_of_le (Nat.le_max_right fuel p.length))
    have heq := (hpost.of_ok (drain_mono hdrain (by omega))).1
    simp at heq

/-- A memory with one list, which is empty. -/
theorem dlRep_empty :
    (dlInit ⟨fun _ => none, fun _ => none⟩ true : Dl Bool ℕ).Rep
      ⟨Function.update (fun _ => none) true (some []), ∅⟩ :=
  (Dl.rep_none _).init true

theorem drain_never_right_one :
    ¬ ∃ fuel m', DrainsTo
      ((dlInit ⟨fun _ => none, fun _ => none⟩ true : Dl Bool ℕ).linkIn true [] 1 []) true [1] fuel m' :=
  drain_never_right (dlRep_empty.linkIn (q := []) (r := []) rfl (Family.free_iff.mpr (by decide)))
    rfl

/-- There the first call reads through NULL. -/
theorem drain_empty :
    ¬ ∀ (m : Dl Bool ℕ) (A : Tracked Bool ℕ) (l : Bool) (q : List ℕ), m.Rep A →
      A.lists l = some q → ∃ fuel m', DrainsTo m l q fuel m' := by
  intro hall
  obtain ⟨fuel, m', hright⟩ := hall _ _ true [] dlRep_empty rfl
  have hdrain := hright.drain
  cases fuel with
  | zero => cases hdrain
  | succ fuel => cases hdrain

end CcUtils.Lists
