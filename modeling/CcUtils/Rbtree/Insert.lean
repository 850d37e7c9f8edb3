import CcUtils.Rbtree.Callbacks

/-!
# Insertion into the tree in memory

`rb_add` links a red node at a leaf and repairs the tree on the way up. Its rotations and recolourings
are those of `insertFix` on trees; what is shown here is that the pointers follow.

## What is proved

* `rbInsertRotate_spec` — the one or two rotations that end the repair.
* `rbInsert_spec` — the loop ends with the tree that `insertFix` gives.
* `rbAdd_spec` — the whole of `rb_add`.
-/

namespace CcUtils.Rbtree

open CcUtils.Lib CcUtils.Lib.RedBlack CcUtils.Lib.RedBlack.RBTree

variable {σ : Type}

variable {cb : RbAugmentCallbacks σ} {I : AugInvariant σ} {bound : ℕ}

/-! ### Rotations -/

/-- Case 3: the node `p` takes the place of its parent `g`, and `g` takes over the child `y`. -/
theorem rbInsertCase3_spec {m : Mem σ} {fs : List (Frame NodeRef)} {d : Dir}
    {g p : NodeRef} {c : Color} {v w x u s q : ℕ} {y : RBTree NodeRef} {cs : Cells} {e : σ}
    {Q : σ → Prop}
    (h : StateWith m (ctxRoot fs g) (cell g (rbNode d (word (ctxParent fs) c) v s) +
      (cell p (rbNode d w x u) + (cells q y + (ctxCells fs g + cs)))) e)
    (hrot : ∀ nodes, nodes g = rbNode d (word p .red) (ptr y) s → Post (cb.rotate nodes g p e) Q) :
    Post (rbInsertCase3 cb d m p g (ptr y)) fun m' => State m' (ctxRoot fs p)
      (cell g (rbNode d (word p .red) (ptr y) s) +
        (cell p (rbNode d (word (ctxParent fs) c) x g) +
          (cells g (y.recolor .black) + (ctxCells fs p + cs)))) ∧ Q m'.aug := by
  rw [rbInsertCase3]
  refine (h.setChild d (ptr y)).bind fun m h => ?_
  rw [setChild_rbNode] at h
  have h1 := h.perm (add_left_comm ..)
  refine (h1.setChild d.flip g).bind fun m h => ?_
  rw [setChild_flip_rbNode] at h
  have h1 := h.perm (show _ = cells q y + (cell p _ + (cell g _ + (ctxCells fs g + cs))) by ac_rfl)
  refine (h1.setParentColor_opt g .black).bind fun m h => ?_
  have h1 := h.perm (show _ = cell g _ + (cell p _ + (ctxCells fs g +
    (cells g (y.recolor .black) + cs))) by ac_rfl)
  refine (h1.rotateSetParents .red).bind fun m h => ?_
  rw [setWord_rbNode] at h
  refine (h.call (hrot _ h.state.owns.read)).mono fun m h => ?_
  exact ⟨h.1.perm (by ac_rfl), h.2⟩

/-- Cases 2 and 3 do the rotations of `insertRotate`. -/
theorem rbInsertRotate_spec (hcb : cb.Keeps I bound) {m : Mem σ} {p g : Frame NodeRef}
    {fs : List (Frame NodeRef)} {t : RBTree NodeRef} (ht : t ≠ .nil)
    (h : Represents m (plug (p :: g :: fs) t)) (hgood : I.Good (plug (p :: g :: fs) t) m.aug) :
    Post (rbInsertRotate cb g.dir m (ptr t) p.item g.item) fun m' =>
      Represents m' (plug fs (insertRotate p g t)) ∧
        I.Good (plug fs (insertRotate p g t)) m'.aug := by
  obtain ⟨pd, pc, pa, ps⟩ := p
  obtain ⟨d, gc, ga, gs⟩ := g
  have hs := State.with_aug h
  generalize m.aug = e at hs hgood
  rw [cells_plug, ptr_plug] at hs
  simp only [ctxCells_cons, ctxRoot_cons, ctxParent_cons] at hs
  rw [rbInsertRotate]
  by_cases hd : pd = d
  · -- an outer grandchild: one rotation
    subst hd
    have h1 := hs.perm (show _ = cells pa t + (cells pa ps +
      (cell pa (rbNode pd (word ga pc) (ptr t) (ptr ps)) +
        (cell ga (rbNode pd (word (ctxParent fs) gc) pa (ptr gs)) +
          (cells ga gs + ctxCells fs ga)))) by ac_rfl)
    have hne : ptr t ≠ ptr ps := h1.state.ptr_ne ht
    have h2 := hs.perm (show _ = cell pa (rbNode pd (word ga pc) (ptr t) (ptr ps)) +
      (cell ga (rbNode pd (word (ctxParent fs) gc) pa (ptr gs)) + (cells pa ps +
        (ctxCells fs ga + (cells pa t + cells ga gs)))) by ac_rfl)
    rw [h2.get, ok_bind]
    simp only [child_flip_rbNode, if_neg hne]
    have hrot : ∀ nodes, nodes ga = rbNode pd (word pa .red) (ptr ps) (ptr gs) →
        Post (cb.rotate nodes ga pa e)
          (I.Good (plug fs (nodeAt pd gc t pa (nodeAt pd pc ps ga gs)))) :=
      fun nodes hn => hcb.rotate hgood hn
    refine (rbInsertCase3_spec (h2.perm (add_left_comm ..)) hrot).mono fun m h => ⟨?_, ?_⟩
    · rw [insertRotate_outer, Represents, cells_plug, ptr_plug]
      simp only [ptr_nodeAt, cells_nodeAt, ptr_recolor]
      exact h.1.perm (by ac_rfl)
    · rw [insertRotate_outer]
      exact hcb.bare (bare_plug (by simp) fs) h.2
  · -- an inner grandchild: two rotations
    obtain rfl : pd = d.flip := Dir.eq_flip_of_ne hd
    obtain ⟨x, a, y, hx⟩ := exists_nodeAt d ht
    generalize t.color = c at hx
    subst hx
    simp only [ptr_nodeAt, cells_nodeAt, rbNode_flip] at hs
    have h1 := hs.perm (show _ = cell pa (rbNode d (word ga pc) (ptr ps) a) +
      (cell a (rbNode d (word pa c) (ptr x) (ptr y)) + (cells a x + (cells a y + (cells pa ps +
        (cell ga (rbNode d (word (ctxParent fs) gc) pa (ptr gs)) +
          (cells ga gs + ctxCells fs ga)))))) by ac_rfl)
    rw [ptr_nodeAt, h1.get, ok_bind]
    simp only [child_flip_rbNode, if_true]
    rw [(h1.perm (add_left_comm ..)).get, ok_bind]
    simp only [child_rbNode]
    refine (h1.setChild d.flip (ptr x)).bind fun m h => ?_
    rw [setChild_flip_rbNode] at h
    refine ((h.perm (add_left_comm ..)).setChild d pa).bind fun m h => ?_
    rw [setChild_rbNode] at h
    have h1 := h.perm (show _ = cells a x + (cell pa (rbNode d (word ga pc) (ptr ps) (ptr x)) +
      (cell a (rbNode d (word pa c) pa (ptr y)) + (cells a y + (cells pa ps +
        (cell ga (rbNode d (word (ctxParent fs) gc) pa (ptr gs)) +
          (cells ga gs + ctxCells fs ga)))))) by ac_rfl)
    refine (h1.setParentColor_opt pa .black).bind fun m h => ?_
    refine ((h.perm (add_left_comm ..)).setParentColor a .red).bind fun m h => ?_
    rw [setWord_rbNode] at h
    -- the first rotation is at the parent
    have hgood1 : I.Good (plug (⟨d, gc, ga, gs⟩ :: fs)
        (nodeAt d pc ps pa (nodeAt d c x a y))) e := by
      rw [← nodeAt_flip]
      exact hgood
    refine (h.call (hcb.rotate_flip hgood1 h.state.owns.read)).bind fun m h => ?_
    obtain ⟨h, hgood2⟩ := h
    have h1 := h.with_aug.perm (show _ = cell a (rbNode d (word pa c) pa (ptr y)) +
      (cell ga (rbNode d (word (ctxParent fs) gc) pa (ptr gs)) +
        (cells a y + (ctxCells fs ga + (cell pa (rbNode d (word a .red) (ptr ps) (ptr x)) +
          (cells pa (x.recolor .black) + (cells pa ps + cells ga gs)))))) by ac_rfl)
    rw [h1.get, ok_bind, child_flip_rbNode]
    have hrot : ∀ nodes, nodes ga = rbNode d (word a .red) (ptr y) (ptr gs) →
        Post (cb.rotate nodes ga a m.aug)
          (I.Good (plug fs (nodeAt d gc (nodeAt d c ps pa x) a (nodeAt d pc y ga gs)))) :=
      fun nodes hn => hcb.rotate hgood2 hn
    refine (rbInsertCase3_spec (h1.perm (add_left_comm ..)) hrot).mono fun m h => ⟨?_, ?_⟩
    · rw [insertRotate_inner, Represents, cells_plug, ptr_plug]
      simp only [ptr_nodeAt, cells_nodeAt, ptr_recolor]
      exact h.1.perm (by ac_rfl)
    · rw [insertRotate_inner]
      exact hcb.bare (bare_plug (by simp) fs) h.2

/-! ### The loop -/

/-- The loop ends when the parent is black. -/
theorem rbInsertLoop_black {m : Mem σ} {p : Frame NodeRef} {fs : List (Frame NodeRef)}
    {t : RBTree NodeRef} {fuel : ℕ} (h : Represents m (plug (p :: fs) t)) (hp : p.color = .black)
    (hfuel : 0 < fuel) : rbInsertLoop cb fuel m (ptr t) p.item = .ok m := by
  obtain ⟨k, rfl⟩ : ∃ k, fuel = k + 1 := ⟨fuel - 1, by omega⟩
  obtain ⟨d, c, a, s⟩ := p
  obtain rfl : c = .black := hp
  rw [Represents, cells_plug] at h
  rw [rbInsertLoop, if_neg a.ne_zero, h.get_frame, ok_bind, color_rbNode, if_pos rfl]

/-- The side of the parent under the grandparent, as the code finds it. -/
theorem State.side {m : Mem σ} {x : ℕ} {d pd : Dir} {c pc : Color} {g p : NodeRef}
    {s ps : RBTree NodeRef} {fs : List (Frame NodeRef)} {y : ℕ} {cs : Cells}
    (h : State m x (ctxCells (⟨pd, pc, p, ps⟩ :: ⟨d, c, g, s⟩ :: fs) y + cs)) (w : ℕ) :
    (if (p : ℕ) = (rbNode d w p (ptr s)).rbRight then Dir.right else Dir.left) = d := by
  have h1 := h.perm (show _ = ctxCells (⟨d, c, g, s⟩ :: fs) p +
    (cell p (rbNode pd (word g pc) y (ptr ps)) + (cells p ps + cs)) by
      rw [ctxCells_cons, ctxParent_cons]; ac_rfl)
  have hne := h1.sib_ne _ (List.mem_cons_self ..)
  cases d
  · exact if_neg fun e => hne e.symm
  · exact if_pos rfl

/-- One turn of the loop below a red parent, up to the test of the uncle. -/
theorem rbInsertLoop_red {m : Mem σ} {pd d : Dir} {c : Color} {pa ga : NodeRef}
    {ps gs t : RBTree NodeRef} {fs : List (Frame NodeRef)} {fuel : ℕ}
    (h : Represents m (plug (⟨pd, .red, pa, ps⟩ :: ⟨d, c, ga, gs⟩ :: fs) t)) :
    rbInsertLoop cb (fuel + 1) m (ptr t) pa =
      if gs.color = .red then do
        let m ← rbSetParentColor m (ptr gs) ga .black
        let m ← rbSetParentColor m pa ga .black
        let g ← m.get ga
        let m ← rbSetParentColor m ga g.parent .red
        rbInsertLoop cb fuel m ga g.parent
      else rbInsertRotate cb d m (ptr t) pa ga := by
  rw [Represents, cells_plug, ptr_plug] at h
  have hd := h.side (word (ctxParent fs) c)
  have h1 := h.perm (show _ = ctxCells (⟨d, c, ga, gs⟩ :: fs) pa + (cells pa ps +
    (cell pa (rbNode pd (word ga .red) (ptr t) (ptr ps)) + cells pa t)) by
      simp only [ctxCells_cons, ctxParent_cons]; ac_rfl)
  have h2 := h.perm (show _ = cells ga gs + (ctxCells fs ga +
    (cell pa (rbNode pd (word ga .red) (ptr t) (ptr ps)) + (cells pa ps + (cells pa t +
      cell ga (rbNode d (word (ctxParent fs) c) pa (ptr gs)))))) by
        simp only [ctxCells_cons, ctxParent_cons]; ac_rfl)
  rw [rbInsertLoop, if_neg pa.ne_zero, h.get_frame, ok_bind, color_rbNode, if_neg (by decide)]
  simp only [parentColor_rbNode, ctxParent_cons, word_red, h1.get_frame, ok_bind, hd,
    child_flip_rbNode, h2.testRed ga.dvd, decide_eq_true_eq]

/-- The loop ends with the tree that `insertFix` gives. -/
theorem rbInsertLoop_spec (hcb : cb.Keeps I bound) {m : Mem σ} {fs : List (Frame NodeRef)}
    {t : RBTree NodeRef} {n fuel : ℕ} (hfs : CtxBal fs n) (htr : t.color = .red)
    (hfuel : fs.length < fuel) (h : Represents m (plug fs t)) (hgood : I.Good (plug fs t) m.aug) :
    Post (rbInsertLoop cb fuel m (ptr t) (ctxParent fs)) fun m' =>
      Represents m' (insertFix fs t) ∧ I.Good (insertFix fs t) m'.aug := by
  have hne : t ≠ .nil := by rintro rfl; cases htr
  induction fs, t using insertFix.induct generalizing m n fuel with
  | case1 t =>
    obtain ⟨fuel, rfl⟩ : ∃ k, fuel = k + 1 := ⟨fuel - 1, by omega⟩
    rw [rbInsertLoop, ctxParent_nil, if_pos rfl]
    have h1 := (State.with_aug h).perm (show _ = cells 0 t + 0 from (add_zero _).symm)
    refine (h1.setParentColor_tree hne 0 .black).mono fun m h => ⟨?_, ?_⟩
    · rw [Represents, insertFix, ptr_recolor]
      exact h.state.perm (add_zero _)
    · rw [h.aug, insertFix]
      exact hcb.bare (bare_recolor .black t).symm hgood
  | case2 p t =>
    have hp : p.color = .black := by
      apply Color.eq_black
      intro hr
      cases (hfs.2.1 hr).2
    rw [ctxParent_frame, rbInsertLoop_black h hp (by omega)]
    exact Post.ok ⟨h, hgood⟩
  | case3 p g fs t hp =>
    rw [ctxParent_frame, rbInsertLoop_black h hp (by omega), insertFix, if_pos hp]
    exact Post.ok ⟨h, hgood⟩
  | case4 p g fs t hp hu ih =>
    rw [insertFix, if_neg hp, if_pos hu]
    obtain ⟨pd, pc, pa, ps⟩ := p
    obtain ⟨d, c, ga, gs⟩ := g
    obtain rfl : pc = .red := Color.eq_red hp
    obtain ⟨-, -, -, -, hctx⟩ := hfs
    obtain ⟨fuel, rfl⟩ : ∃ k, fuel = k + 1 := ⟨fuel - 1, by omega⟩
    have hgs : gs ≠ .nil := by rintro rfl; cases hu
    rw [ctxParent_cons, rbInsertLoop_red h, if_pos hu]
    have hs := State.with_aug h
    rw [cells_plug, ptr_plug, ctxCells_cons, ctxCells_cons] at hs
    generalize m.aug = e at hs hgood
    -- the uncle and the parent turn black, the grandparent red
    have h1 := hs.perm (show _ = cells ga gs +
      (cell pa (rbNode pd (word ga .red) (ptr t) (ptr ps)) +
        (cell ga (rbNode d (word (ctxParent fs) c) pa (ptr gs)) +
          (cells pa ps + (cells pa t + ctxCells fs ga)))) by
            simp only [ctxParent_cons]; ac_rfl)
    refine (h1.setParentColor_tree hgs ga .black).bind fun m h => ?_
    refine ((h.perm (add_left_comm ..)).setParentColor ga .black).bind fun m h => ?_
    have h1 := h.perm (show _ = cell ga (rbNode d (word (ctxParent fs) c) pa (ptr gs)) +
      ((cell pa (rbNode pd (word ga .black) (ptr t) (ptr ps)) + (cells pa ps + cells pa t)) +
        (cells ga (gs.recolor .black) + ctxCells fs ga)) by
          rw [setWord_rbNode]; ac_rfl)
    rw [h1.get, ok_bind, parent_rbNode]
    refine (h1.setParentColor (ctxParent fs) .red).bind fun m h => ?_
    rw [setWord_rbNode] at h
    have hnew : Represents m (plug fs (nodeAt d .red
        ((nodeAt pd .red t pa ps).recolor .black) ga (gs.recolor .black))) := by
      rw [Represents, cells_plug, ptr_plug, cells_nodeAt, recolor_nodeAt, cells_nodeAt]
      simp only [ptr_nodeAt, ptr_recolor]
      exact h.state.perm (by ac_rfl)
    have hgnew : I.Good (plug fs (nodeAt d .red
        ((nodeAt pd .red t pa ps).recolor .black) ga (gs.recolor .black))) m.aug := by
      have hb : (nodeAt d c (nodeAt pd .red t pa ps) ga gs).bare = (nodeAt d .red
        ((nodeAt pd .red t pa ps).recolor .black) ga (gs.recolor .black)).bare := by simp
      rw [h.aug]
      exact hcb.bare (bare_plug hb fs) hgood
    have hlen : fs.length < fuel := by
      simp only [List.length_cons] at hfuel
      omega
    have hih := ih hctx (color_nodeAt ..) hlen hnew hgnew (nodeAt_ne_nil _ _ _ _ _)
    rwa [ptr_nodeAt] at hih
  | case5 p g fs t hp hu =>
    rw [insertFix, if_neg hp, if_neg hu]
    have hrot := rbInsertRotate_spec hcb hne h hgood
    obtain ⟨pd, pc, pa, ps⟩ := p
    obtain ⟨d, c, ga, gs⟩ := g
    obtain rfl : pc = .red := Color.eq_red hp
    obtain ⟨fuel, rfl⟩ : ∃ k, fuel = k + 1 := ⟨fuel - 1, by omega⟩
    rw [ctxParent_cons, rbInsertLoop_red h, if_neg hu]
    exact hrot

/-- `__rb_insert` of a red node that was linked at a leaf of a red-black tree. -/
theorem rbInsert_keeps (hcb : cb.Keeps I bound) {m : Mem σ} {fs : List (Frame NodeRef)}
    {a : NodeRef} {fuel : ℕ} (hrb : (plug fs .nil).IsRB) (hfuel : fs.length < fuel)
    (h : Represents m (plug fs (.node .red .nil a .nil)))
    (hgood : I.Good (plug fs (.node .red .nil a .nil)) m.aug) :
    Post (rbInsert cb fuel m a) fun m' =>
      Represents m' (insertFix fs (.node .red .nil a .nil)) ∧
        I.Good (insertFix fs (.node .red .nil a .nil)) m'.aug := by
  obtain ⟨n, hn, hctx, -⟩ := (isRB_plug_iff fs nil).mp hrb
  obtain rfl : n = 0 := hn
  have hget : m.get a = .ok (rbNode .left (word (ctxParent fs) .red) 0 0) := by
    have h1 := State.perm h ((cells_plug fs _).trans (add_comm ..))
    exact (h1.perm (cells_node_add ..)).get
  rw [rbInsert, hget, ok_bind, parentColor_rbNode, word_red]
  exact rbInsertLoop_spec hcb hctx rfl hfuel h hgood

/-- The same, whatever the callbacks do. -/
theorem rbInsert_spec (hcb : cb.Total) {m : Mem σ} {fs : List (Frame NodeRef)} {a : NodeRef}
    {fuel : ℕ} (hrb : (plug fs .nil).IsRB) (hfuel : fs.length < fuel)
    (h : Represents m (plug fs (.node .red .nil a .nil))) :
    Post (rbInsert cb fuel m a) fun m' =>
      Represents m' (insertFix fs (.node .red .nil a .nil)) :=
  (rbInsert_keeps (hcb.keeps 0) hrb hfuel h True.intro).mono fun _ h => h.1

/-! ### Linking a new node -/

/-- The side of the hole in the node above it. -/
def ctxDir : List (Frame NodeRef) → Dir
  | [] => .left
  | f :: _ => f.dir

/-- The search for the link follows `descend`. -/
theorem rbAddLoop_spec {m : Mem σ} (lt : NodeRef → Bool) (t : RBTree NodeRef)
    (fs : List (Frame NodeRef)) {fuel : ℕ} (hfuel : t.height < fuel)
    (h : Represents m (plug fs t)) :
    rbAddLoop lt m fuel (ptr t) (ctxParent fs) (ctxDir fs) =
      .ok (ctxParent (descend lt t fs), ctxDir (descend lt t fs)) := by
  induction t generalizing fs fuel with
  | nil =>
    obtain ⟨fuel, rfl⟩ : ∃ k, fuel = k + 1 := ⟨fuel - 1, by omega⟩
    rfl
  | node c l a r ihl ihr =>
    obtain ⟨fuel, rfl⟩ : ∃ k, fuel = k + 1 := ⟨fuel - 1, by omega⟩
    simp only [height] at hfuel
    have hn : m.node a = ⟨word (ctxParent fs) c, ptr r, ptr l⟩ := by
      have h1 := State.perm h ((cells_plug fs _).trans (add_comm ..))
      exact (h1.perm (cells_node_add ..)).owns.read
    rw [rbAddLoop, ptr_node, if_neg a.ne_zero, deref_ref, ok_bind, descend, hn]
    cases lt a
    · exact ihr (⟨.right, c, a, l⟩ :: fs) (by omega) h
    · exact ihl (⟨.left, c, a, r⟩ :: fs) (by omega) h

/-- `rb_link_node` hangs a red node into the hole. -/
theorem rbLinkNode_spec {m : Mem σ} {fs : List (Frame NodeRef)} {a : NodeRef}
    (h : Represents m (plug fs .nil)) (ha : a ∉ (plug fs .nil).toList) :
    Post (rbLinkNode m a (ctxParent fs) (ctxDir fs)) fun m' =>
      Represents m' (plug fs (.node .red .nil a .nil)) := by
  rw [Represents, ptr_plug] at h
  rw [rbLinkNode]
  refine (h.link (fun hm => ha (mem_cells.mp hm)) _).bind fun m h => ?_
  rw [cells_plug] at h
  cases fs with
  | nil =>
    refine Post.ok ⟨rfl, ?_⟩
    rw [plug, cells_single]
    exact h.owns
  | cons f fs =>
    obtain ⟨d, c, b, s⟩ := f
    rw [ctxParent_cons] at *
    rw [if_neg b.ne_zero]
    have h1 := h.perm (show _ = cell b (rbNode d (word (ctxParent fs) c) 0 (ptr s)) +
      (cells b s + ctxCells fs b + cell a ⟨b, 0, 0⟩) by
        rw [ctxCells_cons, cells_nil, add_zero]; ac_rfl)
    refine (h1.setChild d a).mono fun m h => ?_
    rw [Represents, cells_plug, ptr_plug, ctxCells_cons, ctxParent_cons, cells_single]
    rw [setChild_rbNode] at h
    exact h.perm (by rw [ptr_node]; ac_rfl)

/-- `rb_add` leaves the tree that `insertItem` gives. -/
theorem rbAdd_spec {m : Mem σ} {t : RBTree NodeRef} {a : NodeRef} {fuel : ℕ}
    (cmp : NodeRef → NodeRef → ℤ) (h : Represents m t) (ht : t.IsRB) (ha : a ∉ t.toList)
    (hfuel : t.height < fuel) :
    Post (rbAdd cmp fuel m a) fun m' => Represents m' (insertItem (fun b => cmp a b < 0) a t) := by
  let lt : NodeRef → Bool := fun b => cmp a b < 0
  let fs := descend lt t []
  have hfs : plug fs nil = t := plug_descend lt t []
  have hlen : fs.length ≤ t.height := length_descend lt t []
  have hloop := rbAddLoop_spec lt t [] hfuel h
  rw [rbAdd, h.root]
  rw [ctxParent_nil, ctxDir] at hloop
  rw [hloop, ok_bind]
  have hnil : Represents m (plug fs nil) := by rwa [hfs]
  refine (rbLinkNode_spec hnil (by rwa [hfs])).bind fun m h => ?_
  exact rbInsert_spec dummyCallbacks_total (by rwa [hfs]) (show fs.length < fuel by omega) h

end CcUtils.Rbtree
