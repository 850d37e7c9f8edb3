import CcUtils.Lib.Traverse
import CcUtils.Rbtree.Delete

/-!
# Walking the tree by its links

`rb_first`, `rb_last`, `rb_next` and `rb_prev` keep no state between calls: each finds its way by
the child pointers down and by the parent words up. `rb_find_first` and `rb_next_match` walk the
nodes that compare equal to a key. Nothing here needs balance or colours.

## What is proved

* `rbNeighbour_spec` — the neighbour of a node is the one after it in the order.
* `rbWalk_spec` — repeated steps visit the rest of the order.
* `rbFirst_walk` — from `rb_first` and from `rb_last` a walk visits every node once, in order and
  in reverse.
* `rbFindFirst_walk` — the nodes that compare equal are found in order, and then NULL.
-/

namespace CcUtils.Rbtree

open CcUtils.Lib CcUtils.Lib.RedBlack CcUtils.Lib.RedBlack.RBTree

variable {σ : Type}

/-! ### Walks -/

/-- A caller's loop that steps from node to node until NULL: the nodes it visits. -/
def rbWalk (next : ℕ → Exec ℕ) : ℕ → ℕ → Exec (List ℕ)
  | 0, _ => .error .outOfFuel
  | fuel + 1, pos =>
    if pos = 0 then .ok []
    else do
      let n ← next pos
      let rest ← rbWalk next fuel n
      return pos :: rest

/-- The pointer to the first node of a list, or NULL. -/
def headPtr (as : List NodeRef) : ℕ := as.head?.elim 0 (·.val)

@[simp] theorem headPtr_nil : headPtr [] = 0 := rfl

@[simp] theorem headPtr_cons (a : NodeRef) (as : List NodeRef) : headPtr (a :: as) = a := rfl

theorem headPtr_append {as : List NodeRef} (h : as ≠ []) (bs : List NodeRef) :
    headPtr (as ++ bs) = headPtr as := by
  cases as with
  | nil => exact absurd rfl h
  | cons a as => rfl

/-! ### Down and up -/

/-- Down a subtree on side `d`. -/
theorem rbDownLoop_spec {m : Mem σ} {x p : ℕ} (d : Dir) {t : RBTree NodeRef} {cs : Cells}
    (h : State m x (cells p t + cs)) (ht : t ≠ .nil) {fuel : ℕ} (hfuel : t.height ≤ fuel) :
    rbDownLoop d m fuel (ptr t) = .ok (headPtr (t.order d)) := by
  induction fuel generalizing t p cs with
  | zero =>
    cases t with
    | nil => exact absurd rfl ht
    | node c l a r => simp [height] at hfuel
  | succ fuel ih =>
    obtain ⟨y, a, z, hy⟩ := exists_nodeAt d ht
    generalize t.color = c at hy
    subst hy
    have hh : y.height ≤ fuel := by
      cases d <;> simp [nodeAt, height] at hfuel <;> omega
    have h1 := h.perm (show _ = cell a (rbNode d (word p c) (ptr y) (ptr z)) +
      (cells a y + (cells a z + cs)) by rw [cells_nodeAt]; ac_rfl)
    rw [rbDownLoop, ptr_nodeAt, h1.get, ok_bind, child_rbNode, order_nodeAt]
    by_cases hy : y = nil
    · subst hy
      rw [if_neg (by simp), order_nil]
      rfl
    · rw [if_pos fun e => hy (ptr_eq_zero.mp e), ih (h1.perm (add_left_comm ..)) hy hh]
      rw [headPtr_append (order_ne_nil hy)]

/-- What the memory holds of the node at a hole. -/
theorem Represents.get_root {m : Mem σ} {fs : List (Frame NodeRef)} {d : Dir} {c : Color}
    {x y : RBTree NodeRef} {a : NodeRef} (h : Represents m (plug fs (nodeAt d c x a y))) :
    m.get a = .ok (rbNode d (word (ctxParent fs) c) (ptr x) (ptr y)) := by
  have h1 := State.perm h ((cells_plug fs _).trans (add_comm ..))
  rw [cells_nodeAt, add_assoc] at h1
  exact h1.get

/-- Up from a subtree to the first node ahead. -/
theorem rbUpLoop_spec {m : Mem σ} (d : Dir) {fs : List (Frame NodeRef)} {t : RBTree NodeRef}
    (h : Represents m (plug fs t)) (ht : t ≠ .nil) {fuel : ℕ} (hfuel : fs.length < fuel) :
    rbUpLoop d m fuel (ptr t) = .ok (headPtr (ahead d fs)) := by
  induction fs generalizing t fuel with
  | nil =>
    obtain ⟨fuel, rfl⟩ : ∃ k, fuel = k + 1 := ⟨fuel - 1, by omega⟩
    obtain ⟨x, a, y, hx⟩ := exists_nodeAt d ht
    generalize t.color = c at hx
    subst hx
    rw [rbUpLoop, ptr_nodeAt, h.get_root, ok_bind, parent_rbNode, ctxParent_nil, if_pos rfl,
      ahead_nil]
    rfl
  | cons f fs ih =>
    obtain ⟨fuel, rfl⟩ : ∃ k, fuel = k + 1 := ⟨fuel - 1, by omega⟩
    obtain ⟨e, fc, b, s⟩ := f
    have hne : ptr t ≠ ptr s := by
      have h1 := State.perm h (show _ = cells b t + (cells b s +
        (cell b (rbNode e (word (ctxParent fs) fc) (ptr t) (ptr s)) + ctxCells fs b)) by
          rw [cells_plug, ctxCells_cons, ctxParent_cons]; ac_rfl)
      exact h1.ptr_ne ht
    have hb : m.get b = .ok (rbNode e (word (ctxParent fs) fc) (ptr t) (ptr s)) := by
      rw [plug, Frame.fill] at h
      exact h.get_root
    obtain ⟨n, hn, hnp⟩ : ∃ n : RbNode, m.get (ptr t) = .ok n ∧ n.parent = b := by
      obtain ⟨x, a, y, hx⟩ := exists_nodeAt d ht
      generalize t.color = c at hx
      subst hx
      rw [ptr_nodeAt]
      exact ⟨_, h.get_root, parent_rbNode ..⟩
    rw [rbUpLoop, hn, ok_bind, hnp, if_neg b.ne_zero, hb, ok_bind]
    by_cases hd : e = d
    · -- the node is the child on side `d`, and the parent comes next
      subst hd
      rw [child_flip_rbNode, if_neg hne, ahead_same]
      rfl
    · obtain rfl : e = d.flip := Dir.eq_flip_of_ne hd
      rw [child_rbNode, if_pos rfl, ahead_flip]
      have hlen : fs.length < fuel := by
        rw [List.length_cons] at hfuel
        omega
      have hup := ih (t := nodeAt d.flip fc t b s) h (nodeAt_ne_nil _ _ _ _ _) hlen
      rwa [ptr_nodeAt] at hup

/-! ### Neighbours -/

/-- A node is split off its order in one way only. -/
theorem exists_place {t : RBTree NodeRef} (hn : t.toList.Nodup) (d : Dir) {a : NodeRef}
    {pre post : List NodeRef} (h : t.order d = pre ++ a :: post) :
    ∃ fs c x y, t = plug fs (nodeAt d c x a y) ∧ pre = behind d fs ++ x.order d ∧
      post = y.order d ++ ahead d fs := by
  have ha : a ∈ t.toList := by
    rw [← mem_order (d := d), h]
    exact List.mem_append_cons_self
  obtain ⟨fs, c, l, r, rfl⟩ := exists_plug_of_mem ha []
  rw [node_eq_nodeAt d] at h hn ⊢
  generalize (node c l a r).child d = x at h hn ⊢
  generalize (node c l a r).child d.flip = y at h hn ⊢
  have e : (plug fs (nodeAt d c x a y)).order d =
      (behind d fs ++ x.order d) ++ a :: (y.order d ++ ahead d fs) := by simp [order_plug]
  have hnd := nodup_order (d := d) hn
  rw [e, List.nodup_append, List.nodup_cons] at hnd
  obtain ⟨-, ⟨hpost, -⟩, hne⟩ := hnd
  have hpre : a ∉ behind d fs ++ x.order d := fun hm => hne a hm a (List.mem_cons_self ..) rfl
  rw [e, List.append_cons_inj_of_notMem hpre hpost] at h
  exact ⟨fs, c, x, y, rfl, h.1.symm, h.2.2.symm⟩

/-- No node is its own parent. -/
theorem Represents.ctxParent_ne {m : Mem σ} {fs : List (Frame NodeRef)} {d : Dir} {c : Color}
    {x y : RBTree NodeRef} {a : NodeRef} (h : Represents m (plug fs (nodeAt d c x a y))) :
    ctxParent fs ≠ a := by
  cases fs with
  | nil => exact fun e => a.ne_zero e.symm
  | cons f fs =>
    obtain ⟨e, b, p, s⟩ := f
    have h1 := State.perm h (show _ = cell p _ + (cell a _ + (cells p s + ctxCells fs p +
      (cells a x + cells a y))) by rw [cells_plug, ctxCells_cons, cells_nodeAt]; ac_rfl)
    intro he
    exact h1.owns.ne (mem_cell.mpr rfl) (Multiset.mem_add.mpr (.inl (mem_cell.mpr rfl)))
      (Subtype.ext he)

/-- A linked node is never marked as unlinked. -/
theorem Represents.word_ne {m : Mem σ} {fs : List (Frame NodeRef)} {d : Dir} {c : Color}
    {x y : RBTree NodeRef} {a : NodeRef} (h : Represents m (plug fs (nodeAt d c x a y))) :
    word (ctxParent fs) c ≠ a := by
  intro he
  have hp := rbParentOf_word (ctxParent_dvd fs) c
  rw [he, rbParentOf, Nat.div_mul_cancel a.dvd] at hp
  exact h.ctxParent_ne hp.symm

/-- The neighbour of a node is the one after it in the order. -/
theorem rbNeighbour_spec {m : Mem σ} {t : RBTree NodeRef} (h : Represents m t) (d : Dir)
    {a : NodeRef} {pre post : List NodeRef} (ho : t.order d = pre ++ a :: post) {fuel : ℕ}
    (hfuel : t.height < fuel) : rbNeighbour d fuel m a = .ok (headPtr post) := by
  obtain ⟨fs, c, x, y, rfl, -, rfl⟩ := exists_place h.nodup d ho
  have hlen := length_add_height_le fs (nodeAt d c x a y)
  have hy : y.height ≤ (nodeAt d c x a y).height := by cases d <;> simp [nodeAt, height] <;> omega
  rw [rbNeighbour, h.get_root, ok_bind, parentColor_rbNode, if_neg h.word_ne, child_flip_rbNode]
  by_cases hyn : y = nil
  · subst hyn
    have hup := rbUpLoop_spec d h (nodeAt_ne_nil _ _ _ _ _) (show fs.length < fuel by omega)
    rw [ptr_nodeAt] at hup
    rw [ptr_nil, if_neg (by simp), order_nil, hup]
    rfl
  · rw [if_pos fun e => hyn (ptr_eq_zero.mp e)]
    have h1 := State.perm h (show _ = cells a y + (cell a (rbNode d (word (ctxParent fs) c) (ptr x)
      (ptr y)) + (cells a x + ctxCells fs a)) by
        rw [cells_plug, cells_nodeAt, ptr_nodeAt]; ac_rfl)
    rw [rbDownLoop_spec d h1 hyn (by omega), headPtr_append (order_ne_nil hyn)]

/-- The first node from either side. -/
theorem rbEnd_spec {m : Mem σ} {t : RBTree NodeRef} (h : Represents m t) (d : Dir) {fuel : ℕ}
    (hfuel : t.height < fuel) : rbEnd d fuel m = .ok (headPtr (t.order d)) := by
  rw [rbEnd, h.root]
  by_cases ht : t = nil
  · subst ht
    rw [ptr_nil, if_pos rfl, order_nil]
    rfl
  · rw [if_neg fun e => ht (ptr_eq_zero.mp e)]
    exact rbDownLoop_spec d (State.perm h (add_zero _).symm) ht (by omega)

/-! ### Whole walks -/

/-- A walk visits the rest of a list, when each step leads to the next entry. -/
theorem rbWalk_spec {next : ℕ → Exec ℕ} {as : List NodeRef}
    (h : ∀ (pre : List NodeRef) (a : NodeRef) (post : List NodeRef), as = pre ++ a :: post →
      next a = .ok (headPtr post)) {pre post : List NodeRef} (e : as = pre ++ post) {fuel : ℕ}
    (hfuel : post.length < fuel) :
    rbWalk next fuel (headPtr post) = .ok (post.map (·.val)) := by
  induction post generalizing pre fuel with
  | nil =>
    obtain ⟨fuel, rfl⟩ : ∃ k, fuel = k + 1 := ⟨fuel - 1, by omega⟩
    rfl
  | cons a post ih =>
    obtain ⟨fuel, rfl⟩ : ∃ k, fuel = k + 1 := ⟨fuel - 1, by omega⟩
    have hlen : post.length < fuel := by
      rw [List.length_cons] at hfuel
      omega
    have e' : as = (pre ++ [a]) ++ post := by simpa using e
    rw [rbWalk, headPtr_cons, if_neg a.ne_zero, h pre a post e, ok_bind, ih e' hlen]
    rfl

theorem length_order (d : Dir) (t : RBTree NodeRef) : (t.order d).length = t.toList.length := by
  cases d <;> simp [order]

/-- A walk from one side to the other. -/
theorem rbEnd_walk {m : Mem σ} {t : RBTree NodeRef} (h : Represents m t) (d : Dir) {fuel : ℕ}
    (hfuel : t.toList.length < fuel) :
    (do let n ← rbEnd d fuel m; rbWalk (rbNeighbour d fuel m) fuel n) =
      .ok ((t.order d).map (·.val)) := by
  have hheight : t.height < fuel := lt_of_le_of_lt t.height_le_length hfuel
  have hlen : (t.order d).length < fuel := by rwa [length_order]
  have e : t.order d = [] ++ t.order d := rfl
  rw [rbEnd_spec h d hheight, ok_bind]
  exact rbWalk_spec (fun pre a post e => rbNeighbour_spec h d e hheight) e hlen

/-- From `rb_first` on, `rb_next` visits every node once, in order; from `rb_last` on, `rb_prev`
visits them in reverse; and of two consecutive nodes each is the neighbour of the other. -/
theorem rbFirst_walk {m : Mem σ} {t : RBTree NodeRef} (h : Represents m t) {fuel : ℕ}
    (hfuel : t.toList.length < fuel) :
    t.toList.Nodup ∧
      (do let n ← rbFirst fuel m; rbWalk (rbNext fuel m) fuel n) =
        .ok (t.toList.map (·.val)) ∧
      (do let n ← rbLast fuel m; rbWalk (rbPrev fuel m) fuel n) =
        .ok (t.toList.reverse.map (·.val)) ∧
      ∀ (pre : List NodeRef) (a b : NodeRef) (post : List NodeRef),
        t.toList = pre ++ a :: b :: post →
          rbNext fuel m a = .ok b ∧ rbPrev fuel m b = .ok a := by
  have hheight : t.height < fuel := lt_of_le_of_lt t.height_le_length hfuel
  refine ⟨h.nodup, rbEnd_walk h .left hfuel, rbEnd_walk h .right hfuel, ?_⟩
  intro pre a b post e
  have hrev : t.order .right = post.reverse ++ b :: a :: pre.reverse := by
    simp [order, e]
  exact ⟨rbNeighbour_spec h .left e hheight, rbNeighbour_spec h .right hrev hheight⟩

theorem rbFirst_walk_three :
    threeNodes.toList.Nodup ∧
      (do let n ← rbFirst 4 threeNodesMem; rbWalk (rbNext 4 threeNodesMem) 4 n) =
        .ok (threeNodes.toList.map (·.val)) ∧
      (do let n ← rbLast 4 threeNodesMem; rbWalk (rbPrev 4 threeNodesMem) 4 n) =
        .ok (threeNodes.toList.reverse.map (·.val)) ∧
      ∀ (pre : List NodeRef) (a b : NodeRef) (post : List NodeRef),
        threeNodes.toList = pre ++ a :: b :: post →
          rbNext 4 threeNodesMem a = .ok b ∧ rbPrev 4 threeNodesMem b = .ok a :=
  rbFirst_walk threeNodesMem_represents (by decide)

/-! ### Nodes that compare equal -/

/-- The nodes after an equal one are equal first. -/
theorem headPtr_filter {c : NodeRef → ℤ} {a b : NodeRef} {post : List NodeRef}
    (h : KeyOrdered c (a :: b :: post)) (ha : c a = 0) :
    headPtr ((b :: post).filter fun x => c x = 0) = if c b = 0 then (b : ℕ) else 0 := by
  obtain ⟨hab, hb, -⟩ := (List.pairwise_cons.mp h).imp_right List.pairwise_cons.mp
  by_cases hc : c b = 0
  · rw [if_pos hc, List.filter_cons_of_pos (by simpa using hc)]
    rfl
  · -- the key lies left of `b`, and so of everything after it
    have hlt : c b < 0 := by
      have := (hab b (List.mem_cons_self ..)).1
      omega
    have hnone : post.filter (fun x => c x = 0) = [] := by
      rw [List.filter_eq_nil_iff]
      intro x hx
      have := (hb x hx).2 hlt
      simp only [decide_eq_true_eq]
      omega
    rw [if_neg hc, List.filter_cons_of_neg (by simpa using hc), hnone]
    rfl

/-- `rb_next_match` goes from an equal node to the next one. -/
theorem rbNextMatch_spec {c : NodeRef → ℤ} {m : Mem σ} {t : RBTree NodeRef} (h : Represents m t)
    (hc : KeyOrdered c t.toList) {pre post : List NodeRef} {a : NodeRef}
    (e : t.toList = pre ++ a :: post) (ha : c a = 0) {fuel : ℕ} (hfuel : t.height < fuel) :
    rbNextMatch c fuel m a = .ok (headPtr (post.filter fun b => c b = 0)) := by
  have hk : KeyOrdered c (a :: post) := by
    rw [e] at hc
    exact (List.pairwise_append.mp hc).2.1
  rw [rbNextMatch, rbNext, rbNeighbour_spec h .left e hfuel, ok_bind]
  cases post with
  | nil => rfl
  | cons b post =>
    rw [headPtr_filter hk ha, headPtr_cons, if_pos b.ne_zero, deref_ref, ok_bind]
    by_cases hb : c b = 0
    · rw [if_neg (not_not.mpr hb), if_pos hb]
      rfl
    · rw [if_pos hb, if_neg hb]
      rfl

/-- A list of three stretches is ordered by the key. -/
theorem keyOrdered_stretches {c : NodeRef → ℤ} {ps zs ns : List NodeRef} (hp : ∀ a ∈ ps, 0 < c a)
    (hz : ∀ a ∈ zs, c a = 0) (hn : ∀ a ∈ ns, c a < 0) : KeyOrdered c (ps ++ (zs ++ ns)) := by
  have hzn : KeyOrdered c (zs ++ ns) := by
    refine List.pairwise_append.mpr ⟨?_, ?_, ?_⟩
    · refine List.pairwise_of_forall_mem_list fun a ha b hb => ?_
      rw [hz a ha, hz b hb]
      exact ⟨id, id⟩
    · refine List.pairwise_of_forall_mem_list fun a ha b hb => ?_
      exact ⟨fun h => absurd h (not_lt.mpr (hn b hb).le), fun _ => hn b hb⟩
    · intro a ha b hb
      exact ⟨fun h => absurd h (not_lt.mpr (hn b hb).le), fun _ => hn b hb⟩
  refine List.pairwise_append.mpr ⟨?_, hzn, ?_⟩
  · refine List.pairwise_of_forall_mem_list fun a ha b hb => ?_
    exact ⟨fun _ => hp a ha, fun h => absurd h (not_lt.mpr (hp a ha).le)⟩
  · intro a ha b hb
    exact ⟨fun _ => hp a ha, fun h => absurd h (not_lt.mpr (hp a ha).le)⟩

theorem filter_stretches {c : NodeRef → ℤ} {ps zs ns : List NodeRef} (hp : ∀ a ∈ ps, 0 < c a)
    (hz : ∀ a ∈ zs, c a = 0) (hn : ∀ a ∈ ns, c a < 0) :
    ((ps ++ (zs ++ ns)).filter fun a => c a = 0) = zs := by
  have hp' : ps.filter (fun a => c a = 0) = [] :=
    List.filter_eq_nil_iff.mpr fun a ha => by simpa using (hp a ha).ne'
  have hz' : zs.filter (fun a => c a = 0) = zs :=
    List.filter_eq_self.mpr fun a ha => by simpa using hz a ha
  have hn' : ns.filter (fun a => c a = 0) = [] :=
    List.filter_eq_nil_iff.mpr fun a ha => by simpa using (hn a ha).ne
  rw [List.filter_append, List.filter_append, hp', hz', hn', List.nil_append, List.append_nil]

/-- When the key compares greater to the first nodes `ps` of the order, equal to the next ones `zs`
and less to the rest, `rb_find_first` returns the first of `zs`, or NULL, and from it repeated
`rb_next_match` returns the others in order, each once, and then NULL. -/
theorem rbFindFirst_walk {c : NodeRef → ℤ} {m : Mem σ} {t : RBTree NodeRef} (h : Represents m t)
    {ps zs ns : List NodeRef} (e : t.toList = ps ++ (zs ++ ns)) (hp : ∀ a ∈ ps, 0 < c a)
    (hz : ∀ a ∈ zs, c a = 0) (hn : ∀ a ∈ ns, c a < 0) {fuel : ℕ}
    (hfuel : t.toList.length < fuel) :
    zs.Nodup ∧ rbFindFirst c fuel m = .ok (headPtr zs) ∧
      (do let n ← rbFindFirst c fuel m; rbWalk (rbNextMatch c fuel m) fuel n) =
        .ok (zs.map (·.val)) := by
  have hheight : t.height < fuel := lt_of_le_of_lt t.height_le_length hfuel
  have hc : KeyOrdered c t.toList := by
    rw [e]
    exact keyOrdered_stretches hp hz hn
  have hfilter : (t.toList.filter fun a => c a = 0) = zs := by rw [e, filter_stretches hp hz hn]
  have hfirst : rbFindFirst c fuel m = .ok (headPtr zs) := by
    rw [rbFindFirst_spec h hc hheight, ← hfilter, headPtr, List.head?_filter]
  have hstep : ∀ (pre : List NodeRef) (a : NodeRef) (post : List NodeRef),
      zs = pre ++ a :: post → rbNextMatch c fuel m a = .ok (headPtr post) := by
    intro pre a post ez
    have ha : c a = 0 := hz a (by rw [ez]; exact List.mem_append_cons_self)
    have et : t.toList = (ps ++ pre) ++ a :: (post ++ ns) := by
      rw [e, ez]
      simp
    have hpost : ((post ++ ns).filter fun b => c b = 0) = post :=
      @filter_stretches c [] post ns nofun (fun b hb => hz b (by rw [ez]; simp [hb])) hn
    rw [rbNextMatch_spec h hc et ha hheight, hpost]
  have hnd : zs.Nodup := by
    have hnd := h.nodup
    rw [e] at hnd
    exact hnd.of_append_right.of_append_left
  have hlen : zs.length < fuel := by
    rw [e, List.length_append, List.length_append] at hfuel
    omega
  have ez : zs = [] ++ zs := rfl
  refine ⟨hnd, hfirst, ?_⟩
  rw [hfirst, ok_bind]
  exact rbWalk_spec hstep ez hlen

/-- A key that compares greater to the first of three nodes and equal to the other two. -/
theorem rbFindFirst_walk_three :
    [nodeRef 1, nodeRef 2].Nodup ∧
      rbFindFirst (fun a => if a = nodeRef 0 then 1 else 0) 4 threeNodesMem =
        .ok (headPtr [nodeRef 1, nodeRef 2]) ∧
      (do
        let n ← rbFindFirst (fun a => if a = nodeRef 0 then 1 else 0) 4 threeNodesMem
        rbWalk (rbNextMatch (fun a => if a = nodeRef 0 then 1 else 0) 4 threeNodesMem) 4 n) =
        .ok ([nodeRef 1, nodeRef 2].map (·.val)) :=
  @rbFindFirst_walk _ (fun a => if a = nodeRef 0 then 1 else 0) threeNodesMem threeNodes
    threeNodesMem_represents [nodeRef 0] [nodeRef 1, nodeRef 2] [] rfl (by decide) (by decide)
    (by decide) 4 (by decide)

end CcUtils.Rbtree
