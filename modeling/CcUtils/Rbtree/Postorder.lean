import CcUtils.Rbtree.Walk

/-!
# Releasing a tree in post-order

A caller that releases a whole tree visits every node after its children, and asks for the next
node before it releases the one it stands at. The next node is found without a look at any node
visited before, so those may be gone.

## What is proved

* `rbNextPostorder_spec` — the step after a node reads that node and nodes still to come.
* `rbPostorder_safe` — the walk visits every node once, children first, and it works just the same
  when each node is released as soon as it has been visited.
-/

namespace CcUtils.Rbtree

open CcUtils.Lib CcUtils.Lib.RedBlack CcUtils.Lib.RedBlack.RBTree

variable {σ : Type}

/-! ### Reading -/

/-- Reading gives what the cells hold. -/
def Loads (load : ℕ → Exec RbNode) (cs : Cells) : Prop := ∀ c ∈ cs, load c.1 = .ok c.2

theorem Loads.head {load : ℕ → Exec RbNode} {a : NodeRef} {n : RbNode} {cs : Cells}
    (h : Loads load (cell a n + cs)) : load a = .ok n :=
  h (a, n) (Multiset.mem_add.mpr (.inl (mem_cell.mpr rfl)))

theorem Loads.left {load : ℕ → Exec RbNode} {cs ds : Cells} (h : Loads load (cs + ds)) :
    Loads load cs := fun c hc => h c (Multiset.mem_add.mpr (.inl hc))

theorem Loads.right {load : ℕ → Exec RbNode} {cs ds : Cells} (h : Loads load (cs + ds)) :
    Loads load ds := fun c hc => h c (Multiset.mem_add.mpr (.inr hc))

/-- Nodes that are not released can be read. -/
theorem Owns.getLive {m : Mem σ} {cs : Cells} (h : Owns m.node cs) {freed : List NodeRef}
    (hfreed : ∀ c ∈ cs, c.1 ∉ freed) : Loads (m.getLive freed) cs := by
  intro c hc
  rw [Mem.getLive, deref_ref, ok_bind, if_neg (hfreed c hc), h.holds c hc]
  rfl

/-! ### The steps -/

/-- Down a subtree to the node it starts with in post-order. -/
theorem rbLeftDeepestNode_spec {load : ℕ → Exec RbNode} {p : ℕ} {t : RBTree NodeRef}
    (h : Loads load (cells p t)) (ht : t ≠ .nil) {fuel : ℕ} (hfuel : t.height ≤ fuel) :
    rbLeftDeepestNode load fuel (ptr t) = .ok (headPtr t.postorder) := by
  induction t generalizing p fuel with
  | nil => exact absurd rfl ht
  | node c l a r ihl ihr =>
    obtain ⟨fuel, rfl⟩ : ∃ k, fuel = k + 1 := ⟨fuel - 1, by rw [height] at hfuel; omega⟩
    rw [height] at hfuel
    have hl : Loads load (cells a l) := Loads.left h.right
    have hr : Loads load (cells a r) := Loads.right h.right
    rw [rbLeftDeepestNode, ptr_node, h.head, ok_bind, postorder]
    by_cases hln : l = nil
    · subst hln
      rw [if_neg (by simp)]
      by_cases hrn : r = nil
      · subst hrn
        rw [if_neg (by simp)]
        rfl
      · rw [if_pos fun e => hrn (ptr_eq_zero.mp e), ihr hr hrn (by omega)]
        rw [postorder, List.nil_append, headPtr_append (postorder_ne_nil hrn)]
    · rw [if_pos fun e => hln (ptr_eq_zero.mp e), ihl hl hln (by omega)]
      rw [headPtr_append (postorder_ne_nil hln)]

/-- The step from a node reads that node and nodes still to come, and leads to the next one. -/
theorem rbNextPostorder_spec {load : ℕ → Exec RbNode} {fs : List (Frame NodeRef)} {c : Color}
    {l r : RBTree NodeRef} {a : NodeRef} {m : Mem σ}
    (h : Represents m (plug fs (.node c l a r)))
    (hload : ∀ n ∈ cells 0 (plug fs (.node c l a r)), n.1 = a ∨ n.1 ∈ postAhead fs →
      load n.1 = .ok n.2) {fuel : ℕ} (hfuel : (plug fs (.node c l a r)).height < fuel) :
    rbNextPostorder load fuel a = .ok (headPtr (postAhead fs)) := by
  have hcells := cells_plug fs (.node c l a r)
  rw [cells_left, ptr_node] at hcells
  have ha : load a = .ok (rbNode .left (word (ctxParent fs) c) (ptr l) (ptr r)) := by
    refine hload (a, rbNode .left (word (ctxParent fs) c) (ptr l) (ptr r)) ?_ (.inl rfl)
    rw [hcells]
    simp
  rw [rbNextPostorder, if_neg a.ne_zero, ha, ok_bind, parent_rbNode]
  cases fs with
  | nil =>
    rw [ctxParent_nil, if_pos rfl]
    rfl
  | cons f fs =>
    obtain ⟨d, b, p, s⟩ := f
    rw [ctxCells_cons] at hcells
    have hp : load p = .ok (rbNode d (word (ctxParent fs) b) a (ptr s)) := by
      refine hload (p, rbNode d (word (ctxParent fs) b) a (ptr s)) ?_ (.inr ?_)
      · rw [hcells]
        simp
      · cases d <;> simp [postAhead]
    rw [ctxParent_cons, if_neg p.ne_zero, hp, ok_bind]
    cases d with
    | right =>
      have hne : ptr s ≠ a := by
        have h1 := State.perm h (show _ = ctxCells (⟨.right, b, p, s⟩ :: fs) a +
          (cell a _ + (cells a l + cells a r)) by
            rw [hcells, ctxCells_cons])
        exact h1.sib_ne _ (List.mem_cons_self ..)
      rw [if_neg fun e => hne e.1.symm]
      rfl
    | left =>
      by_cases hs : s = nil
      · subst hs
        rw [if_neg fun e => e.2 rfl]
        rfl
      · have hsl : Loads load (cells p s) := by
          intro n hn
          refine hload n ?_ (.inr ?_)
          · rw [hcells]
            simp [hn]
          · rw [postAhead]
            refine List.mem_append.mpr (.inl (mem_postorder.mpr ?_))
            exact mem_cells.mp (Multiset.mem_map_of_mem _ hn)
        have hh : s.height ≤ fuel := by
          have h1 := length_add_height_le fs (nodeAt .left b (node c l a r) p s)
          have h2 : s.height ≤ (nodeAt .left b (node c l a r) p s).height := by
            simp [nodeAt, height]
            omega
          have h3 : (plug fs (nodeAt .left b (node c l a r) p s)).height < fuel := hfuel
          omega
        rw [if_pos ⟨rfl, fun e => hs (ptr_eq_zero.mp e)⟩]
        have hdown := rbLeftDeepestNode_spec hsl hs hh
        rw [postAhead, headPtr_append (postorder_ne_nil hs)]
        exact hdown

/-- The step from a node when every node visited before it has been released. -/
theorem rbNextPostorder_live {m : Mem σ} {t : RBTree NodeRef} (h : Represents m t)
    {pre post : List NodeRef} {a : NodeRef} (e : t.postorder = pre ++ a :: post) {fuel : ℕ}
    (hfuel : t.height < fuel) {freed : List NodeRef} (hfreed : ∀ b ∈ freed, b ∈ pre) :
    rbNextPostorder (m.getLive freed) fuel a = .ok (headPtr post) := by
  have ha : a ∈ t.toList := by
    rw [← mem_postorder, e]
    exact List.mem_append_cons_self
  obtain ⟨fs, c, l, r, rfl⟩ := exists_plug_of_mem ha []
  obtain ⟨-, rfl⟩ := postorder_place h.nodup e
  have hnd := (postorder_perm _).nodup_iff.mpr h.nodup
  rw [e, List.nodup_append] at hnd
  refine rbNextPostorder_spec h (fun n hn hahead => ?_) hfuel
  have hnot : n.1 ∉ freed := fun hm =>
    hnd.2.2 n.1 (hfreed _ hm) n.1 (List.mem_cons.mpr hahead) rfl
  rw [Mem.getLive, deref_ref, ok_bind, if_neg hnot, h.owns.holds n hn]
  rfl

/-- Reading when nothing has been released. -/
theorem Mem.getLive_nil (m : Mem σ) : m.getLive [] = m.get := by
  funext p
  rw [Mem.getLive, Mem.get]
  simp

/-- The first node in post-order. -/
theorem rbFirstPostorder_spec {m : Mem σ} {t : RBTree NodeRef} (h : Represents m t) {fuel : ℕ}
    (hfuel : t.height < fuel) :
    rbFirstPostorder m.get fuel m.rbNode = .ok (headPtr t.postorder) := by
  rw [rbFirstPostorder, h.root]
  by_cases ht : t = nil
  · subst ht
    rfl
  · rw [if_neg fun e => ht (ptr_eq_zero.mp e), ← Mem.getLive_nil]
    exact rbLeftDeepestNode_spec (Owns.getLive h.owns (by simp)) ht (by omega)

/-! ### The whole walk -/

/-- The loop that releases each node it has visited, from any point on. -/
theorem rbtreePostorderLoop_spec {m : Mem σ} {t : RBTree NodeRef} (h : Represents m t) {depth : ℕ}
    (hdepth : t.height < depth) {pre post : List NodeRef} (e : t.postorder = pre ++ post) {fuel : ℕ}
    (hfuel : post.length < fuel) :
    rbtreePostorderLoop m depth fuel pre (headPtr post) = .ok (pre ++ post) := by
  induction post generalizing pre fuel with
  | nil =>
    obtain ⟨fuel, rfl⟩ : ∃ k, fuel = k + 1 := ⟨fuel - 1, by omega⟩
    rw [List.append_nil]
    rfl
  | cons a post ih =>
    obtain ⟨fuel, rfl⟩ : ∃ k, fuel = k + 1 := ⟨fuel - 1, by omega⟩
    have hlen : post.length < fuel := by
      rw [List.length_cons] at hfuel
      omega
    have e' : t.postorder = (pre ++ [a]) ++ post := by simpa using e
    rw [rbtreePostorderLoop, headPtr_cons, if_neg a.ne_zero,
      rbNextPostorder_live h e hdepth fun _ hb => hb, ok_bind, deref_ref, ok_bind, ih e' hlen]
    simp

/-- From `rb_first_postorder` on, `rb_next_postorder` visits every node once, both children before
their parent. The step from a node reads none of those visited before it, and so a loop that
releases each node it has visited runs through all the same. -/
theorem rbPostorder_safe {m : Mem σ} {t : RBTree NodeRef} (h : Represents m t) {fuel : ℕ}
    (hfuel : t.toList.length < fuel) :
    ∃ visits : List NodeRef, visits.Perm t.toList ∧ visits.Nodup ∧
      (do
        let n ← rbFirstPostorder m.get fuel m.rbNode
        rbWalk (rbNextPostorder m.get fuel) fuel n) = .ok (visits.map (·.val)) ∧
      (∀ fs c l a r, t = plug fs (.node c l a r) → ∀ pre post : List NodeRef,
        visits = pre ++ a :: post → ∀ b ∈ l.toList ++ r.toList, b ∈ pre) ∧
      (∀ (pre : List NodeRef) (a : NodeRef) (post : List NodeRef), visits = pre ++ a :: post →
        rbNextPostorder (m.getLive pre) fuel a = .ok (headPtr post)) ∧
      rbtreePostorderForEachEntrySafe fuel m = .ok visits := by
  have hheight : t.height < fuel := lt_of_le_of_lt t.height_le_length hfuel
  have hperm := postorder_perm t
  have hlen : t.postorder.length < fuel := by rwa [hperm.length_eq]
  have e : t.postorder = [] ++ t.postorder := rfl
  refine ⟨t.postorder, hperm, hperm.nodup_iff.mpr h.nodup, ?_, ?_, ?_, ?_⟩
  · rw [rbFirstPostorder_spec h hheight, ok_bind]
    refine rbWalk_spec (fun pre a post e => ?_) e hlen
    rw [← Mem.getLive_nil]
    exact rbNextPostorder_live h e hheight nofun
  · rintro fs c l a r rfl pre post e b hb
    obtain ⟨rfl, -⟩ := postorder_place h.nodup e
    refine List.mem_append.mpr (.inr ?_)
    rw [List.mem_append] at hb ⊢
    exact hb.imp mem_postorder.mpr mem_postorder.mpr
  · intro pre a post e
    exact rbNextPostorder_live h e hheight fun _ hb => hb
  · rw [rbtreePostorderForEachEntrySafe, Mem.getLive_nil, rbFirstPostorder_spec h hheight, ok_bind]
    exact rbtreePostorderLoop_spec h hheight e hlen

theorem rbPostorder_safe_three :
    ∃ visits : List NodeRef, visits.Perm threeNodes.toList ∧ visits.Nodup ∧
      (do
        let n ← rbFirstPostorder threeNodesMem.get 4 threeNodesMem.rbNode
        rbWalk (rbNextPostorder threeNodesMem.get 4) 4 n) = .ok (visits.map (·.val)) ∧
      (∀ fs c l a r, threeNodes = plug fs (.node c l a r) → ∀ pre post : List NodeRef,
        visits = pre ++ a :: post → ∀ b ∈ l.toList ++ r.toList, b ∈ pre) ∧
      (∀ (pre : List NodeRef) (a : NodeRef) (post : List NodeRef), visits = pre ++ a :: post →
        rbNextPostorder (threeNodesMem.getLive pre) 4 a = .ok (headPtr post)) ∧
      rbtreePostorderForEachEntrySafe 4 threeNodesMem = .ok visits :=
  rbPostorder_safe threeNodesMem_represents (by decide)

end CcUtils.Rbtree
