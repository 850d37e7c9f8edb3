import CcUtils.Rbtree.Insert

/-!
# Removal from the tree in memory

`rb_erase` unlinks a node, puts its child or its successor into its place, and repairs the tree on
the way up when a black node is missing. `rb_replace_node` puts a node into another's place without
any repair.

## What is proved

* `rbEraseStep_spec`, `rbEraseColorLoop_spec` — the repair is that of `deleteFix`.
* `rbErase_spec` — the whole of `rb_erase`.
* `rbReplaceNode_spec` — the whole of `rb_replace_node`.
-/

namespace CcUtils.Rbtree

open CcUtils.Lib CcUtils.Lib.RedBlack CcUtils.Lib.RedBlack.RBTree

variable {σ : Type} {cb : RbAugmentCallbacks σ} {I : AugInvariant σ} {bound : ℕ}

/-! ### Rotations -/

/-- Case 4: the sibling `s` takes the place of the parent `a`, and `a` takes over the child `i`. -/
theorem rbEraseRotate_spec {m : Mem σ} {fs : List (Frame NodeRef)} {d : Dir}
    {a s : NodeRef} {c : Color} {x u w y q r : ℕ} {i o : RBTree NodeRef} {cs : Cells} {e : σ}
    {Q : σ → Prop} (hq : 4 ∣ q) (ho : o ≠ .nil)
    (h : StateWith m (ctxRoot fs a) (cell a (rbNode d (word (ctxParent fs) c) x u) +
      (cell s (rbNode d w (ptr i) y) + (cells q i + (cells r o + (ctxCells fs a + cs))))) e)
    (hrot : ∀ nodes, nodes a = rbNode d (word s .black) x (ptr i) →
      Post (cb.rotate nodes a s e) Q) :
    Post (rbEraseRotate cb d m a s (ptr o)) fun m' => State m' (ctxRoot fs s)
      (cell a (rbNode d (word s .black) x (ptr i)) +
        (cell s (rbNode d (word (ctxParent fs) c) a y) +
          (cells a i + (cells s (o.recolor .black) + (ctxCells fs s + cs))))) ∧ Q m'.aug := by
  rw [rbEraseRotate, (h.perm (add_left_comm ..)).get, ok_bind]
  simp only [child_rbNode]
  refine (h.setChild d.flip (ptr i)).bind fun m h => ?_
  rw [setChild_flip_rbNode] at h
  refine ((h.perm (add_left_comm ..)).setChild d a).bind fun m h => ?_
  rw [setChild_rbNode] at h
  have h1 := h.perm (show _ = cells r o + (cell s (rbNode d w a y) +
    (cell a (rbNode d (word (ctxParent fs) c) x (ptr i)) + (cells q i + (ctxCells fs a + cs))))
      by ac_rfl)
  refine (h1.setParentColor_tree ho s .black).bind fun m h => ?_
  have h1 := h.perm (show _ = cells q i + (cell s (rbNode d w a y) +
    (cell a (rbNode d (word (ctxParent fs) c) x (ptr i)) +
      (cells s (o.recolor .black) + (ctxCells fs a + cs)))) by ac_rfl)
  refine (h1.setParent_opt hq a).bind fun m h => ?_
  have h1 := h.perm (show _ = cell a (rbNode d (word (ctxParent fs) c) x (ptr i)) +
    (cell s (rbNode d w a y) + (ctxCells fs a +
      (cells a i + (cells s (o.recolor .black) + cs)))) by ac_rfl)
  refine (h1.rotateSetParents .black).bind fun m h => ?_
  rw [setWord_rbNode] at h
  refine (h.call (hrot _ h.state.owns.read)).mono fun m h => ?_
  exact ⟨h.1.perm (by ac_rfl), h.2⟩

/-- Case 1: the red sibling `s` takes the place of the parent `a`, and `a` takes over the child
`i`, its new sibling. -/
theorem rbEraseCase1_spec {m : Mem σ} {fs : List (Frame NodeRef)} {d : Dir}
    {a s : NodeRef} {c : Color} {x u w y q : ℕ} {i : RBTree NodeRef} {cs : Cells} {e : σ}
    {Q : σ → Prop} (hi : i ≠ .nil)
    (h : StateWith m (ctxRoot fs a) (cell a (rbNode d (word (ctxParent fs) c) x u) +
      (cell s (rbNode d w (ptr i) y) + (cells q i + (ctxCells fs a + cs)))) e)
    (hrot : ∀ nodes, nodes a = rbNode d (word s .red) x (ptr i) →
      Post (cb.rotate nodes a s e) Q) :
    Post (rbEraseCase1 cb d m a s) fun r => r.2 = ptr i ∧ State r.1 (ctxRoot fs s)
      (cell a (rbNode d (word s .red) x (ptr i)) +
        (cell s (rbNode d (word (ctxParent fs) c) a y) +
          (cells a (i.recolor .black) + (ctxCells fs s + cs)))) ∧ Q r.1.aug := by
  rw [rbEraseCase1, (h.perm (add_left_comm ..)).get, ok_bind]
  simp only [child_rbNode]
  refine (h.setChild d.flip (ptr i)).bind fun m h => ?_
  rw [setChild_flip_rbNode] at h
  refine ((h.perm (add_left_comm ..)).setChild d a).bind fun m h => ?_
  rw [setChild_rbNode] at h
  have h1 := h.perm (show _ = cells q i + (cell s (rbNode d w a y) +
    (cell a (rbNode d (word (ctxParent fs) c) x (ptr i)) + (ctxCells fs a + cs))) by ac_rfl)
  refine (h1.setParentColor_tree hi a .black).bind fun m h => ?_
  have h1 := h.perm (show _ = cell a (rbNode d (word (ctxParent fs) c) x (ptr i)) +
    (cell s (rbNode d w a y) + (ctxCells fs a + (cells a (i.recolor .black) + cs))) by ac_rfl)
  refine (h1.rotateSetParents .red).bind fun m h => ?_
  rw [setWord_rbNode] at h
  refine (h.call (hrot _ h.state.owns.read)).bind fun m h => ?_
  exact Post.pure ⟨rfl, h.1.perm (by ac_rfl), h.2⟩

/-! ### One step of the repair -/

/-- Where the loop goes on after the step at a frame below `fs` that left `u`. -/
def nextOf (fs : List (Frame NodeRef)) (u : RBTree NodeRef × Bool) : Option (ℕ × ℕ) :=
  if u.2 = true ∧ ctxParent fs ≠ 0 then some (ctxParent fs, ptr u.1) else none

/-- Cases 2 to 4 do the step of `deleteBlack`. -/
theorem rbEraseBlack_spec (hcb : cb.Keeps I bound) {m : Mem σ} {fs : List (Frame NodeRef)}
    {d : Dir} {c b : Color} {a s : NodeRef} {inner outer t : RBTree NodeRef}
    (h : Represents m (plug (⟨d, c, a, nodeAt d b inner s outer⟩ :: fs) t))
    (hgood : I.Good (plug (⟨d, c, a, nodeAt d b inner s outer⟩ :: fs) t) m.aug) :
    Post (rbEraseBlack cb d m a s) fun r =>
      (Represents r.1 (plug fs (deleteBlack ⟨d, c, a, nodeAt d b inner s outer⟩ t).1) ∧
        I.Good (plug fs (deleteBlack ⟨d, c, a, nodeAt d b inner s outer⟩ t).1) r.1.aug) ∧
        r.2 = nextOf fs (deleteBlack ⟨d, c, a, nodeAt d b inner s outer⟩ t) := by
  have hs := State.with_aug h
  have hgood : I.Good (plug fs (nodeAt d c t a (nodeAt d b inner s outer))) m.aug := hgood
  generalize m.aug = e at hs hgood
  rw [cells_plug, ptr_plug, ctxCells_cons, ctxRoot_cons, ctxParent_cons, cells_nodeAt,
    ptr_nodeAt] at hs
  have h1 := hs.perm (show _ = cells s outer +
    (cell a (rbNode d (word (ctxParent fs) c) (ptr t) s) +
      (cell s (rbNode d (word a b) (ptr inner) (ptr outer)) +
        (cells s inner + (ctxCells fs a + cells a t)))) by ac_rfl)
  have h2 := h1.perm (show _ = cell s (rbNode d (word a b) (ptr inner) (ptr outer)) +
    (cell a (rbNode d (word (ctxParent fs) c) (ptr t) s) +
      (cells s outer + (cells s inner + (ctxCells fs a + cells a t)))) by ac_rfl)
  rw [rbEraseBlack, h2.get, ok_bind]
  simp only [child_flip_rbNode, child_rbNode, h1.state.testRed s.dvd, ok_bind, decide_eq_true_eq]
  by_cases hor : outer.color = .red
  · -- case 4
    rw [if_pos hor, deleteBlack_outer d c b a s inner outer t hor]
    have hone : outer ≠ nil := by rintro rfl; cases hor
    have h3 := h1.perm (show _ = cell a (rbNode d (word (ctxParent fs) c) (ptr t) s) +
      (cell s (rbNode d (word a b) (ptr inner) (ptr outer)) +
        (cells s inner + (cells s outer + (ctxCells fs a + cells a t)))) by ac_rfl)
    have hrot := rbEraseRotate_spec s.dvd hone h3 fun nodes hn => hcb.rotate_flip hgood hn
    refine hrot.bind fun m h => ?_
    refine Post.pure ⟨⟨?_, hcb.bare (bare_plug (by simp) fs) h.2⟩, rfl⟩
    rw [Represents, cells_plug, ptr_plug]
    simp only [cells_nodeAt, ptr_nodeAt, ptr_recolor]
    exact h.1.perm (by ac_rfl)
  · rw [if_neg hor]
    have h3 := h1.perm (show _ = cells s inner +
      (cell a (rbNode d (word (ctxParent fs) c) (ptr t) s) +
        (cell s (rbNode d (word a b) (ptr inner) (ptr outer)) +
          (cells s outer + (ctxCells fs a + cells a t)))) by ac_rfl)
    rw [h3.state.testRed s.dvd, ok_bind]
    simp only [decide_eq_true_eq]
    by_cases hir : inner.color = .red
    · -- case 3
      rw [if_pos hir]
      obtain ⟨x, i, y, rfl⟩ := exists_nodeAt_red d hir
      rw [deleteBlack_inner d c b a s outer t hor]
      simp only [cells_nodeAt, ptr_nodeAt] at h3
      have h4 := h3.perm (show _ = cell i (rbNode d (word s .red) (ptr x) (ptr y)) +
        (cell s (rbNode d (word a b) i (ptr outer)) +
          (cell a (rbNode d (word (ctxParent fs) c) (ptr t) s) + (cells i y + (cells i x +
            (cells s outer + (ctxCells fs a + cells a t)))))) by ac_rfl)
      rw [ptr_nodeAt, h4.get, ok_bind]
      simp only [child_flip_rbNode]
      refine ((h4.perm (add_left_comm ..)).setChild d (ptr y)).bind fun m h => ?_
      rw [setChild_rbNode] at h
      refine ((h.perm (add_left_comm ..)).setChild d.flip s).bind fun m h => ?_
      rw [setChild_flip_rbNode] at h
      have h5 := h.perm (show _ = cell a (rbNode d (word (ctxParent fs) c) (ptr t) s) +
        (cells i y + (cell i (rbNode d (word s .red) (ptr x) s) +
          (cell s (rbNode d (word a b) (ptr y) (ptr outer)) + (cells i x +
            (cells s outer + (ctxCells fs a + cells a t)))))) by ac_rfl)
      refine (h5.setChild d.flip i).bind fun m h => ?_
      rw [setChild_flip_rbNode] at h
      refine ((h.perm (add_left_comm ..)).setParentColor_opt s .black).bind fun m h => ?_
      -- the rotation at the sibling, which is the other child of the parent
      have hgood1 : I.Good (plug (⟨d.flip, c, a, t⟩ :: fs)
          (nodeAt d b (nodeAt d .red x i y) s outer)) e := by
        rw [plug, Frame.fill, nodeAt_flip]
        exact hgood
      have hread : m.node s = rbNode d (word a b) (ptr y) (ptr outer) :=
        h.state.owns.holds (s, rbNode d (word a b) (ptr y) (ptr outer)) (by simp)
      refine (h.call (hcb.rotate hgood1 hread)).bind fun m h => ?_
      obtain ⟨h, hgood2⟩ := h
      rw [plug, Frame.fill, nodeAt_flip] at hgood2
      -- the old sibling is now the outer child of the new one
      have h6 := h.with_aug.perm (show _ = cell a (rbNode d (word (ctxParent fs) c) (ptr t) i) +
        (cell i (rbNode d (word s .red) (ptr x) s) + (cells i x +
          (cells a (nodeAt d b (y.recolor .black) s outer) + (ctxCells fs a + cells a t)))) by
            simp only [cells_nodeAt, ptr_recolor]; ac_rfl)
      have hrot := rbEraseRotate_spec i.dvd (nodeAt_ne_nil _ _ _ _ _) h6
        fun nodes hn => hcb.rotate_flip hgood2 hn
      rw [ptr_nodeAt] at hrot
      refine hrot.bind fun m h => ?_
      obtain ⟨h, hgood3⟩ := h
      refine Post.pure ⟨⟨?_, hcb.bare (bare_plug (by simp) fs) hgood3⟩, rfl⟩
      rw [recolor_nodeAt] at h
      rw [Represents, cells_plug, ptr_plug]
      simp only [cells_nodeAt, ptr_nodeAt] at h ⊢
      exact h.perm (by ac_rfl)
    · -- case 2
      rw [if_neg hir, deleteBlack_flip d c b a s inner outer t hor hir]
      refine (h2.setParentColor a .red).bind fun m h => ?_
      rw [setWord_rbNode] at h
      have h4 := h.perm (add_left_comm ..)
      rw [h4.get, ok_bind, color_rbNode, parent_rbNode]
      have hfin : ∀ {m' : Mem σ}, StateWith m' (ctxRoot fs a)
          (cell a (rbNode d (word (ctxParent fs) .black) (ptr t) s) +
            (cell s (rbNode d (word a .red) (ptr inner) (ptr outer)) +
              (cells s outer + (cells s inner + (ctxCells fs a + cells a t))))) e →
          Represents m' (plug fs (nodeAt d .black t a (nodeAt d .red inner s outer))) ∧
            I.Good (plug fs (nodeAt d .black t a (nodeAt d .red inner s outer))) m'.aug := by
        intro m' h
        rw [Represents, cells_plug, ptr_plug, h.aug]
        simp only [ptr_nodeAt, cells_nodeAt]
        exact ⟨h.state.perm (by ac_rfl), hcb.bare (bare_plug (by simp) fs) hgood⟩
      cases c
      · rw [if_pos rfl]
        refine (h4.modify _).bind fun m h => ?_
        rw [parentColor_rbNode, word_or_one, setWord_rbNode] at h
        exact Post.pure ⟨hfin h, rfl⟩
      · rw [if_neg (by decide)]
        refine Post.pure ⟨hfin h4, ?_⟩
        by_cases hfs : ctxParent fs = 0 <;> simp [nextOf, hfs]

/-- The step of the loop is that of `deleteStep`. -/
theorem rbEraseStep_spec (hcb : cb.Keeps I bound) {m : Mem σ} {f : Frame NodeRef}
    {fs : List (Frame NodeRef)} {t : RBTree NodeRef} {n : ℕ} (hs : f.sib.Bal (n + 1))
    (h : Represents m (plug (f :: fs) t)) (hgood : I.Good (plug (f :: fs) t) m.aug) :
    Post (rbEraseStep cb m f.item (ptr t)) fun r =>
      (Represents r.1 (plug fs (deleteStep f t).1) ∧
        I.Good (plug fs (deleteStep f t).1) r.1.aug) ∧ r.2 = nextOf fs (deleteStep f t) := by
  obtain ⟨d, c, a, sib⟩ := f
  have hrep := h
  have hsib : sib ≠ nil := by rintro rfl; cases hs
  obtain ⟨inner, s, outer, hx⟩ := exists_nodeAt d hsib
  rw [Represents, cells_plug, ptr_plug, ctxRoot_cons, ctxParent_cons] at h
  have hside : (if ptr t = (rbNode d (word (ctxParent fs) c) (ptr t) (ptr sib)).rbRight
      then Dir.right else Dir.left) = d := by
    cases d
    · refine if_neg fun e => ?_
      by_cases ht : t = nil
      · rw [ht] at e
        exact hsib (ptr_eq_zero.mp e.symm)
      · have h1 := h.perm (show _ = cells a t + (cells a sib +
          (cell a (rbNode .left (word (ctxParent fs) c) (ptr t) (ptr sib)) + ctxCells fs a)) by
            rw [ctxCells_cons]; ac_rfl)
        exact h1.ptr_ne ht e
    · exact if_pos rfl
  have hget : m.get (ptr sib) = .ok (rbNode d (word a sib.color) (ptr inner) (ptr outer)) := by
    have h1 := h.perm (show _ = cells a sib +
      (cell a (rbNode d (word (ctxParent fs) c) (ptr t) (ptr sib)) +
        (ctxCells fs a + cells a t)) by rw [ctxCells_cons]; ac_rfl)
    generalize sib.color = b at hx ⊢
    subst hx
    rw [ptr_nodeAt]
    exact (h1.perm (by rw [cells_nodeAt, add_assoc])).get
  rw [rbEraseStep, h.get_frame, ok_bind]
  simp only [hside, child_flip_rbNode, hget, ok_bind]
  rw [RbNode.color, parentColor_rbNode, rbColorOf_word a.dvd]
  by_cases hsc : sib.color = .red
  · -- case 1 first
    rw [if_pos hsc]
    rw [hsc] at hx
    subst hx
    obtain ⟨k, hk, hin, -, -⟩ := (bal_nodeAt ..).mp hs
    have hi : inner ≠ nil := by
      rintro rfl
      exact absurd (hk.trans (congrArg (· + 0) hin)) (by omega)
    rw [ctxCells_cons, cells_nodeAt, ptr_nodeAt] at h
    have h1 := h.with_aug.perm (show _ = cell a (rbNode d (word (ctxParent fs) c) (ptr t) s) +
      (cell s (rbNode d (word a .red) (ptr inner) (ptr outer)) + (cells s inner +
        (ctxCells fs a + (cells s outer + cells a t)))) by ac_rfl)
    rw [ptr_nodeAt]
    have hrot := rbEraseCase1_spec hi h1 fun nodes hn =>
      hcb.rotate_flip (show I.Good (plug fs (nodeAt d c t a _)) _ from hgood) hn
    refine hrot.bind fun r h => ?_
    obtain ⟨m, sibling⟩ := r
    obtain ⟨hsibling, h, hgood⟩ := h
    have h2 : Represents m (plug (⟨d, .red, a, inner.recolor .black⟩ :: ⟨d, c, s, outer⟩ :: fs) t) := by
      rw [Represents, cells_plug, ptr_plug]
      simp only [ctxCells_cons, ctxRoot_cons, ctxParent_cons, ptr_recolor]
      exact h.perm (by ac_rfl)
    have hgood2 : I.Good
        (plug (⟨d, .red, a, inner.recolor .black⟩ :: ⟨d, c, s, outer⟩ :: fs) t) m.aug :=
      hcb.bare (bare_plug (by simp [Frame.fill]) fs) hgood
    rw [deleteStep_red]
    obtain ⟨x, i, y, hy⟩ := exists_nodeAt d hi
    generalize inner.color = b at hy
    subst hy
    rw [recolor_nodeAt] at h2 hgood2 ⊢
    obtain rfl : sibling = i := hsibling.trans (ptr_nodeAt ..)
    refine (rbEraseBlack_spec hcb h2 hgood2).mono fun r hr => ⟨hr.1, hr.2.trans ?_⟩
    rw [nextOf, if_neg, nextOf, if_neg]
    · rintro ⟨⟨⟩, -⟩
    · intro hb
      have := deleteBlack_color hb.1
      cases this
  · rw [if_neg hsc, deleteStep_black (Color.eq_black hsc)]
    generalize sib.color = b at hx
    subst hx
    rw [ptr_nodeAt]
    exact rbEraseBlack_spec hcb hrep hgood

/-- The loop ends with the tree that `deleteFix` gives. -/
theorem rbEraseColorLoop_spec (hcb : cb.Keeps I bound) {m : Mem σ} {f : Frame NodeRef}
    {fs : List (Frame NodeRef)} {t : RBTree NodeRef} {n fuel : ℕ} (ht : t.Bal n)
    (hfs : CtxBal (f :: fs) (n + 1)) (hfuel : fs.length < fuel)
    (h : Represents m (plug (f :: fs) t)) (hgood : I.Good (plug (f :: fs) t) m.aug) :
    Post (rbEraseColorLoop cb fuel m f.item (ptr t)) fun m' =>
      Represents m' (deleteFix (f :: fs) t) ∧ I.Good (deleteFix (f :: fs) t) m'.aug := by
  induction fs generalizing m f t n fuel with
  | nil =>
    obtain ⟨fuel, rfl⟩ : ∃ k, fuel = k + 1 := ⟨fuel - 1, by omega⟩
    obtain ⟨hs, hc, -⟩ := hfs
    rw [rbEraseColorLoop]
    refine (rbEraseStep_spec hcb hs h hgood).bind fun r hr => ?_
    obtain ⟨m, next⟩ := r
    obtain ⟨h, rfl⟩ := hr
    have hnext : nextOf [] (deleteStep f t) = none := if_neg fun hb => hb.2 rfl
    rw [hnext, deleteFix, deleteFix, plug, ite_self]
    exact Post.pure h
  | cons g fs ih =>
    obtain ⟨fuel, rfl⟩ : ∃ k, fuel = k + 1 := ⟨fuel - 1, by omega⟩
    obtain ⟨hs, hc, hctx⟩ := hfs
    have hbal := deleteStep_bal ht hs fun hf => (hc hf).1
    rw [rbEraseColorLoop]
    refine (rbEraseStep_spec hcb hs h hgood).bind fun r hr => ?_
    obtain ⟨m, next⟩ := r
    obtain ⟨h, rfl⟩ := hr
    rw [deleteFix]
    by_cases hshort : (deleteStep f t).2 = true
    · rw [if_pos hshort] at hbal ⊢
      obtain ⟨hu, -, hf⟩ := hbal
      rw [hf] at hctx
      have hnext : nextOf (g :: fs) (deleteStep f t) =
          some ((g.item : ℕ), ptr (deleteStep f t).1) := if_pos ⟨hshort, g.item.ne_zero⟩
      rw [hnext]
      simp only [List.length_cons] at hfuel
      exact ih hu hctx (by omega) h.1 h.2
    · rw [if_neg hshort]
      have hnext : nextOf (g :: fs) (deleteStep f t) = none := if_neg fun hb => hshort hb.1
      rw [hnext]
      exact Post.pure h

/-! ### Taking out a node -/

/-- A node of colour `c` was taken out of the hole of `fs`, its only child `t` moved up with the
colour `c'`, and `reb` is where the repair has to start. -/
def Spliced (m : Mem σ) (reb : ℕ) (fs : List (Frame NodeRef)) (c c' : Color)
    (t : RBTree NodeRef) : Prop :=
  Represents m (plug fs (t.recolor c')) ∧
    reb = if t = .nil ∧ c = .black then ctxParent fs else 0

/-- The repair after a node was taken out. -/
theorem Spliced.rebalance (hcb : cb.Keeps I bound) {m : Mem σ} {reb fuel : ℕ}
    {fs : List (Frame NodeRef)} {d : Dir} {c c' : Color} {a : NodeRef} {t : RBTree NodeRef}
    (h : Spliced m reb fs c c' t) (hgood : I.Good (plug fs t) m.aug)
    (hrb : (plug fs (nodeAt d c .nil a t)).IsRB) (hfuel : fs.length < fuel) :
    Post (if reb ≠ 0 then rbEraseColor cb fuel m reb else pure m) fun m' =>
      Represents m' (spliceOut fs c c' t) ∧ I.Good (spliceOut fs c c' t) m'.aug := by
  obtain ⟨h, hreb⟩ := h
  cases t with
  | node b l i r =>
    rw [if_neg fun hb => nomatch hb.1] at hreb
    rw [if_neg fun hne => hne hreb]
    exact Post.pure ⟨h, hcb.bare (bare_plug (bare_recolor ..).symm fs) hgood⟩
  | nil =>
    cases c
    · rw [if_neg fun hb => nomatch hb.2] at hreb
      rw [if_neg fun hne => hne hreb]
      exact Post.pure ⟨h, hgood⟩
    · rw [if_pos ⟨rfl, rfl⟩] at hreb
      subst hreb
      cases fs with
      | nil => exact Post.pure ⟨h, hgood⟩
      | cons f fs =>
        obtain ⟨n, hbal, hctx, -⟩ := (isRB_plug_iff ..).mp hrb
        obtain ⟨k, rfl, hnil, -, -⟩ := (bal_nodeAt ..).mp hbal
        obtain rfl : k = 0 := hnil
        rw [ctxParent_frame, if_pos f.item.ne_zero, rbEraseColor]
        rw [List.length_cons] at hfuel
        exact rbEraseColorLoop_spec hcb (t := nil) (n := 0) rfl hctx (by omega) h hgood

/-- Case 1 with a child on the right or none. -/
theorem rbEraseCase1Right_spec (hcb : cb.Keeps I bound) {m : Mem σ} {fs : List (Frame NodeRef)}
    {c : Color} {a : NodeRef} {r : RBTree NodeRef} (hbound : fs.length < bound)
    (h : Represents m (plug fs (.node c .nil a r)))
    (hgood : I.Good (plug fs (.node c .nil a r)) m.aug) :
    Post (rbEraseCase1Right cb m a ⟨word (ctxParent fs) c, ptr r, 0⟩) fun u =>
      Spliced u.1 u.2 fs c c r ∧ I.Good (plug fs r) u.1.aug := by
  have hs := State.with_aug h
  have hstale : I.Stale fs r m.aug := hcb.detach (d := .left) hgood
  rw [cells_plug, ptr_plug, ptr_node] at hs
  have h1 := hs.perm (show _ = ctxCells fs a + (cell a ⟨word (ctxParent fs) c, ptr r, 0⟩ +
    cells a r) by rw [cells, cells_nil, zero_add, ptr_nil])
  rw [rbEraseCase1Right]
  simp only [rbParentOf_word (ctxParent_dvd fs), rbColorOf_word (ctxParent_dvd fs)]
  refine (h1.changeChild h1.state.sib_ne (ptr r)).bind fun m h => ?_
  by_cases hr : r = nil
  · subst hr
    rw [if_neg (by simp)]
    have hcall := h.call (hcb.propagate hbound h.state.owns hstale)
    refine hcall.bind fun m h => Post.pure ⟨⟨?_, by simp⟩, h.2⟩
    rw [Represents, cells_plug, ptr_plug]
    exact ⟨h.1.root, (h.1.perm (show _ = ctxCells fs 0 + 0 + cell a _ by
      rw [cells_nil]; ac_rfl)).owns.left⟩
  · rw [if_pos fun e => hr (ptr_eq_zero.mp e)]
    have h2 := h.perm (show _ = cells a r + (ctxCells fs (ptr r) +
      cell a ⟨word (ctxParent fs) c, ptr r, 0⟩) by ac_rfl)
    refine (h2.setParentColor_tree hr (ctxParent fs) c).bind fun m h => ?_
    have h3 := h.perm (add_left_comm ..)
    have hcall := h3.call (hcb.propagate hbound h3.state.owns hstale)
    refine hcall.bind fun m h => Post.pure ⟨⟨?_, by simp [hr]⟩, h.2⟩
    rw [Represents, cells_plug, ptr_plug, ptr_recolor]
    exact ⟨h.1.root, (h.1.perm (show _ = ctxCells fs (ptr r) + cells (ctxParent fs) (r.recolor c) +
      cell a _ by ac_rfl)).owns.left⟩

/-- Case 1 with a child on the left only. -/
theorem rbEraseCase1Left_spec (hcb : cb.Keeps I bound) {m : Mem σ} {fs : List (Frame NodeRef)}
    {c : Color} {a : NodeRef} {l : RBTree NodeRef} (hl : l ≠ .nil) (hbound : fs.length < bound)
    (h : Represents m (plug fs (.node c l a .nil)))
    (hgood : I.Good (plug fs (.node c l a .nil)) m.aug) :
    Post (rbEraseCase1Left cb m a ⟨word (ctxParent fs) c, 0, ptr l⟩) fun u =>
      Spliced u.1 u.2 fs c c l ∧ I.Good (plug fs l) u.1.aug := by
  have hs := State.with_aug h
  have hstale : I.Stale fs l m.aug := hcb.detach (d := .right) hgood
  rw [cells_plug, ptr_plug, ptr_node] at hs
  have h1 := hs.perm (show _ = cells a l + (ctxCells fs a +
    cell a ⟨word (ctxParent fs) c, 0, ptr l⟩) by rw [cells, cells_nil, add_zero, ptr_nil]; ac_rfl)
  rw [rbEraseCase1Left]
  simp only [rbParentOf_word (ctxParent_dvd fs)]
  refine (h1.setParentColor_tree hl (ctxParent fs) c).bind fun m h => ?_
  have h2 := h.perm (show _ = ctxCells fs a + (cell a ⟨word (ctxParent fs) c, 0, ptr l⟩ +
    cells (ctxParent fs) (l.recolor c)) by ac_rfl)
  refine (h2.changeChild h2.state.sib_ne (ptr l)).bind fun m h => ?_
  have hcall := h.call (hcb.propagate hbound h.state.owns hstale)
  refine hcall.bind fun m h => Post.pure ⟨⟨?_, by simp [hl]⟩, h.2⟩
  rw [Represents, cells_plug, ptr_plug, ptr_recolor]
  exact ⟨h.1.root, (h.1.perm (show _ = ctxCells fs (ptr l) + cells (ctxParent fs) (l.recolor c) +
    cell a _ by ac_rfl)).owns.left⟩

/-- The search for the successor follows `leftmost`. -/
theorem rbSuccessorLoop_spec {m : Mem σ} {x p : ℕ} (path : List (Frame NodeRef)) (c : Color)
    (l : RBTree NodeRef) (a : NodeRef) (r : RBTree NodeRef) {q fuel : ℕ} {cs : Cells}
    (hfuel : l.height < fuel) (h : State m x (cells q l + cs)) :
    rbSuccessorLoop m fuel (segParent p path) a (ptr l) =
      .ok (segParent p (leftmost path c l a r).path, ((leftmost path c l a r).item : ℕ)) := by
  induction l generalizing path c a r q fuel cs with
  | nil =>
    obtain ⟨fuel, rfl⟩ : ∃ k, fuel = k + 1 := ⟨fuel - 1, by omega⟩
    rfl
  | node lc ll la lr ihl _ =>
    obtain ⟨fuel, rfl⟩ : ∃ k, fuel = k + 1 := ⟨fuel - 1, by omega⟩
    simp only [height] at hfuel
    have h1 := h.perm (cells_node_add ..)
    rw [rbSuccessorLoop, ptr_node, if_neg la.ne_zero, h1.get, ok_bind]
    exact ihl (⟨.left, c, a, r⟩ :: path) lc la lr (by omega)
      (h1.perm (show _ = cells la ll + (cells la lr + cs + cell la _) by ac_rfl))

/-- Cases 2 and 3 once the successor `s` is out of its place: it takes the place of the node `a`. -/
theorem rbEraseReplace_spec (hcb : cb.Keeps I bound) {m : Mem σ} {fs : List (Frame NodeRef)}
    (path : List (Frame NodeRef)) {c sc : Color} {a s : NodeRef} {l t : RBTree NodeRef} {q z : ℕ}
    {e : σ} (hq : 4 ∣ q) (hl : l ≠ .nil) (hbound : fs.length + 1 < bound)
    (h : StateWith m (ctxRoot fs a) (cell a (rbNode .left (word (ctxParent fs) c) (ptr l) z) +
      (cell s (rbNode .right (word q sc) (ctxRoot path (ptr t)) 0) + (cells a l +
        (segCells s path (ptr t) + (cells s t + ctxCells fs a))))) e)
    (hstale : I.Stale (⟨.right, c, s, l⟩ :: fs) (plug path t) e) :
    Post (rbEraseReplace cb m a (segParent s path) s (ptr t)) fun u =>
      Spliced u.1 u.2 (path ++ ⟨.right, c, s, l⟩ :: fs) sc .black t ∧
        I.Good (plug (path ++ ⟨.right, c, s, l⟩ :: fs) t) u.1.aug := by
  rw [rbEraseReplace, h.get, ok_bind]
  have h1 := h.perm (add_left_comm ..)
  refine (h1.setChild .left (ptr l)).bind fun m h => ?_
  rw [show Dir.left = Dir.right.flip from rfl, setChild_flip_rbNode] at h
  have h1 := h.perm (show _ = cells a l +
    (cell a (rbNode .left (word (ctxParent fs) c) (ptr l) z) +
      (cell s (rbNode .right (word q sc) (ctxRoot path (ptr t)) (ptr l)) +
        (segCells s path (ptr t) + (cells s t + ctxCells fs a)))) by ac_rfl)
  refine (h1.setParent_tree a.dvd hl s).bind fun m h => ?_
  rw [(h.perm (add_left_comm ..)).get, ok_bind]
  simp only [parentColor_rbNode, rbParentOf_word (ctxParent_dvd fs)]
  have h1 := h.perm (show _ = ctxCells fs a +
    (cell a (rbNode .left (word (ctxParent fs) c) (ptr l) z) +
      (cell s (rbNode .right (word q sc) (ctxRoot path (ptr t)) (ptr l)) +
        (segCells s path (ptr t) + (cells s t + cells s l)))) by ac_rfl)
  refine (h1.changeChild h1.state.sib_ne s).bind fun m h => ?_
  have h1 := h.perm (show _ = cell s (rbNode .right (word q sc) (ctxRoot path (ptr t)) (ptr l)) +
    (cells s t + (segCells s path (ptr t) + (cells s l + (ctxCells fs s +
      cell a (rbNode .left (word (ctxParent fs) c) (ptr l) z))))) by ac_rfl)
  -- what is left is to propagate from the successor, and then all but the erased node is there
  have hfin : ∀ {m' : Mem σ}, StateWith m' (ctxRoot fs s)
      (cells (segParent s path) (t.recolor .black) +
        (cell s (rbNode .right (word (ctxParent fs) c) (ctxRoot path (ptr t)) (ptr l)) +
          (segCells s path (ptr t) + (cells s l + (ctxCells fs s +
            cell a (rbNode .left (word (ctxParent fs) c) (ptr l) z)))))) e →
      Post (m'.call cb.propagate s 0) fun m' =>
        Represents m' (plug (path ++ ⟨.right, c, s, l⟩ :: fs) (t.recolor .black)) ∧
          I.Good (plug (path ++ ⟨.right, c, s, l⟩ :: fs) t) m'.aug := by
    intro m' h
    have h1 := h.perm (show _ = ctxCells (⟨.right, c, s, l⟩ :: fs) (ptr (plug path t)) +
      (cells (segParent s path) (t.recolor .black) + (segCells s path (ptr t) +
        cell a (rbNode .left (word (ctxParent fs) c) (ptr l) z))) by
          rw [ctxCells_cons, ptr_plug]; ac_rfl)
    refine (h1.call (hcb.propagate (by simpa using hbound) h1.state.owns hstale)).mono
      fun m h => ⟨?_, ?_⟩
    · rw [Represents, cells_plug, ptr_plug, ptr_recolor, ctxRoot_append, ctxRoot_cons, ctxCells,
        segCells_append, segCells_cons, ctxParent, segParent_append]
      exact ⟨h.1.root, (h.1.perm (show _ = segCells s path (ptr t) +
        (cell s (rbNode .right (word (ctxParent fs) c) (ctxRoot path (ptr t)) (ptr l)) +
          (cells s l + ctxCells fs s)) + cells (segParent s path) (t.recolor .black) +
            cell a _ by rw [ctxCells_cons, ptr_plug]; ac_rfl)).owns.left⟩
    · rw [plug_append]
      exact h.2
  have hpar : ctxParent (path ++ ⟨.right, c, s, l⟩ :: fs) = segParent s path :=
    segParent_append 0 path _
  by_cases ht : t = nil
  · subst ht
    rw [ptr_nil, if_neg (by simp)]
    rw [ptr_nil] at h1
    rw [h1.get, ok_bind]
    refine (h1.setWord _).bind fun m h => ?_
    rw [setWord_rbNode] at h
    refine (hfin (h.perm ?_)).bind fun m h => Post.pure ⟨⟨h.1, ?_⟩, h.2⟩
    · rw [recolor_nil, cells_nil, cells_nil, ptr_nil]
      ac_rfl
    · simp only [parentColor_rbNode, rbColorOf_word hq, hpar, true_and]
  · rw [if_pos fun e => ht (ptr_eq_zero.mp e)]
    refine (h1.setWord _).bind fun m h => ?_
    rw [setWord_rbNode] at h
    refine ((h.perm (add_left_comm ..)).setParentColor_tree ht (segParent s path) .black).bind
      fun m h => ?_
    refine (hfin h).bind fun m h => Post.pure ⟨⟨h.1, ?_⟩, h.2⟩
    rw [if_neg fun hb => ht hb.1]

/-- `__rb_erase_augmented` of a node with two children, up to the choice between cases 2 and 3. -/
theorem rbEraseAugmented_two {m : Mem σ} {a ra : NodeRef} {w fuel : ℕ} {l : RBTree NodeRef}
    (h : m.get a = .ok (rbNode .left w (ptr l) ra)) (hl : l ≠ .nil) :
    rbEraseAugmented cb fuel m a = (do
      let c ← m.get ra
      if c.rbLeft = 0 then do
        let m ← m.call cb.copy a ra
        rbEraseReplace cb m a ra ra c.rbRight
      else do
        let (parent, successor) ← rbSuccessorLoop m fuel ra ra c.rbLeft
        let s ← m.get successor
        let child2 := s.rbRight
        let m ← m.setChild .left parent child2
        let m ← m.setChild .right successor ra
        let m ← rbSetParent m ra successor
        let m ← m.call cb.copy a successor
        let m ← m.call cb.propagate parent successor
        rbEraseReplace cb m a parent successor child2) := by
  have hl0 : (rbNode .left w (ptr l) ra).rbLeft ≠ 0 := fun e => hl (ptr_eq_zero.mp e)
  have hr0 : (rbNode .left w (ptr l) ra).rbRight ≠ 0 := ra.ne_zero
  rw [rbEraseAugmented, h, ok_bind, if_neg hl0]
  dsimp only
  rw [if_neg hr0]
  rfl

/-- The successor is the right child of the node `a` itself. -/
theorem rbEraseAugmented_case2 (hcb : cb.Keeps I bound) {m : Mem σ} {fs : List (Frame NodeRef)}
    {c rc : Color} {a ra : NodeRef} {l rr : RBTree NodeRef} {fuel : ℕ} (hl : l ≠ .nil)
    (hbound : fs.length + 1 < bound)
    (h : Represents m (plug fs (.node c l a (.node rc .nil ra rr))))
    (hgood : I.Good (plug fs (.node c l a (.node rc .nil ra rr))) m.aug) :
    Post (rbEraseAugmented cb fuel m a) fun u =>
      Spliced u.1 u.2 (⟨.right, c, ra, l⟩ :: fs) rc .black rr ∧
        I.Good (plug (⟨.right, c, ra, l⟩ :: fs) rr) u.1.aug := by
  have hs := State.with_aug h
  generalize m.aug = e at hs hgood
  rw [cells_plug, ptr_plug, ptr_node, cells_left, ptr_node, cells_right] at hs
  have h1 := hs.perm (show _ = cell a (rbNode .left (word (ctxParent fs) c) (ptr l) ra) +
    (cell ra (rbNode .right (word a rc) (ptr rr) 0) + (cells a l + (segCells ra [] (ptr rr) +
      (cells ra rr + ctxCells fs a)))) by
        rw [cells_nil, ptr_nil, segCells, zero_add, zero_add]; ac_rfl)
  rw [rbEraseAugmented_two h1.get hl, (h1.perm (add_left_comm ..)).get, ok_bind]
  have hl0 : (rbNode .right (word a rc) (ptr rr) 0).rbLeft = 0 := rfl
  rw [if_pos hl0, rbRight_rbNode_right]
  have hgood : I.Good (plug fs (.node c l a (plug [] (.node rc .nil ra rr)))) e := hgood
  refine (h1.call (hcb.copy hgood)).bind fun m h => ?_
  exact rbEraseReplace_spec hcb [] a.dvd hl hbound h.1.with_aug (hcb.moved_nil h.2)

/-- The successor `s` is taken out of its place under the right child of the node `a`. -/
theorem rbEraseAugmented_case3 (hcb : cb.Keeps I bound) {m : Mem σ} {fs path : List (Frame NodeRef)}
    {f : Frame NodeRef} {c sc rc : Color} {a s ra : NodeRef} {l t rl rr : RBTree NodeRef}
    {fuel : ℕ} (hl : l ≠ .nil) (hrl : rl ≠ .nil) (hfuel : rl.height < fuel)
    (hbound : fs.length + 1 < bound) (hpath : (f :: path).length < bound)
    (hm : leftmost [] rc rl ra rr = ⟨f :: path, sc, s, t⟩) (hf : f.dir = .left)
    (h : Represents m (plug fs (.node c l a (.node rc rl ra rr))))
    (hgood : I.Good (plug fs (.node c l a (.node rc rl ra rr))) m.aug) :
    Post (rbEraseAugmented cb fuel m a) fun u =>
      Spliced u.1 u.2 (f :: path ++ ⟨.right, c, s, l⟩ :: fs) sc .black t ∧
        I.Good (plug (f :: path ++ ⟨.right, c, s, l⟩ :: fs) t) u.1.aug := by
  have hplug : plug (f :: path) (.node sc .nil s t) = .node rc rl ra rr := by
    have e := plug_leftmost [] rc rl ra rr
    rw [hm] at e
    exact e
  have hroot : ctxRoot (f :: path) (ptr t) = ra := by
    have e := congrArg ptr hplug
    rwa [ptr_plug] at e
  have hcells : cells a (.node rc rl ra rr) =
      cell f.item (rbNode .left (word (segParent a path) f.color) s (ptr f.sib)) +
        (cells f.item f.sib + segCells a path f.item) +
          (cell s (rbNode .right (word f.item sc) (ptr t) 0) + cells s t) := by
    rw [← hplug, cells_plug_seg, segCells_cons, hf, cells_right, cells_nil, zero_add]
    rfl
  have hs := State.with_aug h
  generalize m.aug = e at hs hgood
  rw [cells_plug, ptr_plug, ptr_node, cells_left, ptr_node] at hs
  have h1 := hs.perm (show _ = cell a (rbNode .left (word (ctxParent fs) c) (ptr l) ra) +
    (cells a (.node rc rl ra rr) + (cells a l + ctxCells fs a)) by ac_rfl)
  have h2 := (h1.perm (add_left_comm ..)).perm (show _ =
    cell ra (rbNode .left (word a rc) (ptr rl) (ptr rr)) + (cells ra rl + (cells ra rr +
      (cell a (rbNode .left (word (ctxParent fs) c) (ptr l) ra) + (cells a l + ctxCells fs a)))) by
        rw [cells_left]; ac_rfl)
  have hsucc := rbSuccessorLoop_spec [] rc rl ra rr (p := ra) hfuel
    (h2.perm (add_left_comm ..)).state
  rw [hm, segParent, segParent] at hsucc
  have hrl0 : ptr rl ≠ 0 := fun e => hrl (ptr_eq_zero.mp e)
  rw [rbEraseAugmented_two h1.get hl, h2.get, ok_bind]
  simp only [rbLeft_rbNode, if_neg hrl0, hsucc, ok_bind]
  have h2 := h1.perm (show _ = cell s (rbNode .right (word f.item sc) (ptr t) 0) +
    (cell f.item (rbNode .left (word (segParent a path) f.color) s (ptr f.sib)) +
      (cells f.item f.sib + segCells a path f.item + (cells s t +
        (cell a (rbNode .left (word (ctxParent fs) c) (ptr l) ra) +
          (cells a l + ctxCells fs a))))) by rw [hcells]; ac_rfl)
  rw [h2.get, ok_bind]
  simp only [rbRight_rbNode_right]
  refine ((h2.perm (add_left_comm ..)).setChild .left (ptr t)).bind fun m h => ?_
  rw [setChild_rbNode] at h
  refine ((h.perm (add_left_comm ..)).setChild .right ra).bind fun m h => ?_
  rw [setChild_rbNode] at h
  have h3 := h.perm (show _ = segCells a (f :: path) (ptr t) +
    (cell s (rbNode .right (word f.item sc) ra 0) + (cells s t +
        (cell a (rbNode .left (word (ctxParent fs) c) (ptr l) ra) +
          (cells a l + ctxCells fs a)))) by rw [segCells_cons, hf]; ac_rfl)
  have h4 := h3.setParent_seg a.dvd (List.cons_ne_nil f path) s
  rw [hroot] at h4
  refine h4.bind fun m h => ?_
  -- the data of the node moves to the successor, and the path below it is put right first
  rw [← hplug] at hgood
  refine (h.call (hcb.copy hgood)).bind fun m h => ?_
  have hprop := hcb.propagate_path (f := ⟨.right, c, s, l⟩) (t := t) hpath h.1.owns h.2
  refine (h.1.with_aug.call hprop).bind fun m h => ?_
  have h5 := h.1.with_aug.perm (show _ =
    cell a (rbNode .left (word (ctxParent fs) c) (ptr l) ra) +
      (cell s (rbNode .right (word f.item sc) (ctxRoot (f :: path) (ptr t)) 0) + (cells a l +
        (segCells s (f :: path) (ptr t) + (cells s t + ctxCells fs a)))) by rw [hroot]; ac_rfl)
  exact rbEraseReplace_spec hcb (f :: path) f.item.dvd hl hbound h5 h.2

/-- `rb_erase_augmented` leaves the tree that `eraseAt` gives, and the callbacks' invariant. -/
theorem rbEraseWith_keeps (hcb : cb.Keeps I bound) {m : Mem σ} {fs : List (Frame NodeRef)}
    {c : Color} {l r : RBTree NodeRef} {a : NodeRef} {fuel : ℕ}
    (hrb : (plug fs (.node c l a r)).IsRB) (hfuel : (plug fs (.node c l a r)).height < fuel)
    (hbound : (plug fs (.node c l a r)).height < bound)
    (h : Represents m (plug fs (.node c l a r)))
    (hgood : I.Good (plug fs (.node c l a r)) m.aug) :
    Post (rbEraseWith cb fuel m a) fun m' =>
      Represents m' (eraseAt fs c l r) ∧ I.Good (eraseAt fs c l r) m'.aug := by
  have hlen := length_add_height_le fs (.node c l a r)
  simp only [height] at hlen
  have hget : m.get a = .ok (rbNode .left (word (ctxParent fs) c) (ptr l) (ptr r)) := by
    have h1 := State.perm h ((cells_plug fs _).trans (add_comm ..))
    exact (h1.perm (cells_node_add ..)).get
  rw [rbEraseWith]
  cases l with
  | nil =>
    have h1 : Post (rbEraseAugmented cb fuel m a) fun u =>
        Spliced u.1 u.2 fs c c r ∧ I.Good (plug fs r) u.1.aug := by
      rw [rbEraseAugmented, hget, ok_bind]
      exact rbEraseCase1Right_spec hcb (by omega) h hgood
    refine h1.bind fun u hu => ?_
    exact hu.1.rebalance hcb (d := .left) hu.2 hrb (by omega)
  | node lc ll la lr =>
    cases r with
    | nil =>
      have h1 : Post (rbEraseAugmented cb fuel m a) fun u =>
          Spliced u.1 u.2 fs c c (.node lc ll la lr) ∧
            I.Good (plug fs (.node lc ll la lr)) u.1.aug := by
        rw [rbEraseAugmented, hget, ok_bind]
        have hl0 : (rbNode .left (word (ctxParent fs) c) la 0).rbLeft ≠ 0 := la.ne_zero
        rw [ptr_node, ptr_nil, if_neg hl0]
        exact rbEraseCase1Left_spec hcb (node_ne_nil _ _ _ _) (by omega) h hgood
      refine h1.bind fun u hu => ?_
      exact hu.1.rebalance hcb (d := .right) hu.2 hrb (by omega)
    | node rc rl ra rr =>
      have hM := isRB_leftmost hrb
      have hlM := length_add_height_le (leftmost [] rc rl ra rr).path
        (.node (leftmost [] rc rl ra rr).color nil (leftmost [] rc rl ra rr).item
          (leftmost [] rc rl ra rr).right)
      rw [plug_leftmost, plug] at hlM
      simp only [height] at hlM hlen
      have hbound1 : fs.length + 1 < bound := by omega
      have h1 : Post (rbEraseAugmented cb fuel m a) fun u => Spliced u.1 u.2
          ((leftmost [] rc rl ra rr).path ++
            ⟨.right, c, (leftmost [] rc rl ra rr).item, .node lc ll la lr⟩ :: fs)
          (leftmost [] rc rl ra rr).color .black (leftmost [] rc rl ra rr).right ∧
          I.Good (plug ((leftmost [] rc rl ra rr).path ++
            ⟨.right, c, (leftmost [] rc rl ra rr).item, .node lc ll la lr⟩ :: fs)
              (leftmost [] rc rl ra rr).right) u.1.aug := by
        cases rl with
        | nil => exact rbEraseAugmented_case2 hcb (node_ne_nil _ _ _ _) hbound1 h hgood
        | node b x i y =>
          obtain ⟨f, path, hpath, hf⟩ := exists_leftmost_path ⟨.left, rc, ra, rr⟩ [] b x i y rfl
          have hm : leftmost [] rc (.node b x i y) ra rr =
              ⟨f :: path, (leftmost [] rc (.node b x i y) ra rr).color,
                (leftmost [] rc (.node b x i y) ra rr).item,
                (leftmost [] rc (.node b x i y) ra rr).right⟩ := by
            rw [← hpath]
            rfl
          have hx : (node b x i y).height < fuel := by omega
          have hlp : (f :: path).length < bound := by
            rw [hm] at hlM
            dsimp only at hlM
            omega
          have h3 := rbEraseAugmented_case3 hcb (node_ne_nil _ _ _ _) (node_ne_nil _ _ _ _) hx
            hbound1 hlp hm hf h hgood
          rwa [← hpath] at h3
      refine h1.bind fun u hu => ?_
      refine hu.1.rebalance hcb hu.2 hM ?_
      rw [List.length_append, List.length_cons]
      omega

/-- `rb_erase_augmented` leaves the tree that `eraseAt` gives, whatever the callbacks do. -/
theorem rbEraseWith_spec (hcb : cb.Total) {m : Mem σ} {fs : List (Frame NodeRef)} {c : Color}
    {l r : RBTree NodeRef} {a : NodeRef} {fuel : ℕ} (hrb : (plug fs (.node c l a r)).IsRB)
    (hfuel : (plug fs (.node c l a r)).height < fuel)
    (h : Represents m (plug fs (.node c l a r))) :
    Post (rbEraseWith cb fuel m a) fun m' => Represents m' (eraseAt fs c l r) :=
  (rbEraseWith_keeps (hcb.keeps fuel) hrb hfuel hfuel h True.intro).mono fun _ h => h.1

/-- The nodes that `eraseAt` leaves. -/
theorem eraseAt_toList_erase {fs : List (Frame NodeRef)} {c : Color} {l r : RBTree NodeRef}
    {a : NodeRef} (hnd : (plug fs (.node c l a r)).toList.Nodup) :
    (eraseAt fs c l r).toList = (plug fs (.node c l a r)).toList.erase a := by
  have e : (plug fs (node c l a r)).toList =
      (before fs ++ l.toList) ++ a :: (r.toList ++ after fs) := by
    simp [toList_plug, toList]
  have hna : a ∉ before fs ++ l.toList := by
    rw [e, List.nodup_append] at hnd
    exact fun hm => hnd.2.2 a hm a (List.mem_cons_self ..) rfl
  rw [e, List.erase_append_right _ hna, List.erase_cons_head, eraseAt_toList]
  simp

/-- `rb_erase` of a linked node. -/
theorem rbErase_spec {m : Mem σ} {t : RBTree NodeRef} {a : NodeRef} {fuel : ℕ}
    (h : Represents m t) (ht : t.IsRB) (ha : a ∈ t.toList) (hfuel : t.height < fuel) :
    Post (rbErase fuel m a) fun m' =>
      ∃ t', Represents m' t' ∧ t'.IsRB ∧ t'.toList = t.toList.erase a := by
  obtain ⟨fs, c, l, r, rfl⟩ := exists_plug_of_mem ha []
  refine (rbEraseWith_spec dummyCallbacks_total ht hfuel h).mono fun m' h' => ?_
  exact ⟨_, h', eraseAt_isRB ht, eraseAt_toList_erase h.nodup⟩

/-! ### Replacing a node -/

/-- `rb_replace_node` puts the node `b` into the place of `a`. -/
theorem rbReplaceNode_plug {m : Mem σ} {fs : List (Frame NodeRef)} {c : Color}
    {l r : RBTree NodeRef} {a b : NodeRef} (hb : b ∉ (plug fs (.node c l a r)).toList)
    (h : Represents m (plug fs (.node c l a r))) :
    Post (rbReplaceNode m a b) fun m' => Represents m' (plug fs (.node c l b r)) := by
  have hcells : cells 0 (plug fs (.node c l a r)) =
      cell a (rbNode .left (word (ctxParent fs) c) (ptr l) (ptr r)) +
        (cells a l + (cells a r + ctxCells fs a)) := by
    rw [cells_plug, ptr_node, cells_left]
    ac_rfl
  have h1 := State.perm h hcells
  rw [ptr_plug, ptr_node] at h1
  rw [rbReplaceNode, h1.get, ok_bind]
  refine (h1.link (fun hm => hb ?_) _).bind fun m h => ?_
  · rw [← hcells] at hm
    exact mem_cells.mp hm
  have h1 := h.perm (add_left_comm ..)
  rw [h1.get, ok_bind, rbLeft_rbNode]
  have h2 := h1.perm (show _ = cells a l +
    (cell a (rbNode .left (word (ctxParent fs) c) (ptr l) (ptr r)) +
      (cell b (rbNode .left (word (ctxParent fs) c) (ptr l) (ptr r)) +
        (cells a r + ctxCells fs a))) by ac_rfl)
  refine (h2.setParent_opt a.dvd b).bind fun m h => ?_
  rw [(h.perm (add_left_comm ..)).get, ok_bind, rbRight_rbNode]
  have h3 := h.perm (show _ = cells a r +
    (cell a (rbNode .left (word (ctxParent fs) c) (ptr l) (ptr r)) +
      (cell b (rbNode .left (word (ctxParent fs) c) (ptr l) (ptr r)) +
        (cells b l + ctxCells fs a))) by ac_rfl)
  refine (h3.setParent_opt a.dvd b).bind fun m h => ?_
  have h4 := h.perm (show _ = ctxCells fs a +
    (cell a (rbNode .left (word (ctxParent fs) c) (ptr l) (ptr r)) +
      (cell b (rbNode .left (word (ctxParent fs) c) (ptr l) (ptr r)) +
        (cells b l + cells b r))) by ac_rfl)
  rw [parent_rbNode]
  refine (h4.changeChild h4.sib_ne b).mono fun m h => ?_
  rw [Represents, ptr_plug, cells_plug, cells_left, ptr_node]
  exact ⟨h.root, (h.perm (show _ = ctxCells fs b +
    (cell b (rbNode .left (word (ctxParent fs) c) (ptr l) (ptr r)) + (cells b l + cells b r)) +
      cell a (rbNode .left (word (ctxParent fs) c) (ptr l) (ptr r)) by ac_rfl)).owns.left⟩

/-- `rb_replace_node` of a linked node by one that is not linked. -/
theorem rbReplaceNode_spec {m : Mem σ} {t : RBTree NodeRef} {a b : NodeRef}
    (h : Represents m t) (ht : t.IsRB) (ha : a ∈ t.toList) (hb : b ∉ t.toList) :
    Post (rbReplaceNode m a b) fun m' => ∃ t' pre post, Represents m' t' ∧ t'.IsRB ∧
      t.toList = pre ++ a :: post ∧ t'.toList = pre ++ b :: post := by
  obtain ⟨fs, c, l, r, rfl⟩ := exists_plug_of_mem ha []
  refine (rbReplaceNode_plug hb h).mono fun m' h' => ?_
  refine ⟨_, before fs ++ l.toList, r.toList ++ after fs, h', isRB_plug_node ht, ?_, ?_⟩
  · simp [toList_plug, toList]
  · simp [toList_plug, toList]

end CcUtils.Rbtree
