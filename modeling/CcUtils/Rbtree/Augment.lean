import CcUtils.Lib.SubtreeMax
import CcUtils.Rbtree.Delete

/-!
# The maximum callbacks

`RB_DECLARE_CALLBACKS_MAX` makes callbacks that keep in each node the greatest value of its subtree.
They look at one node and its children at a time: a rotation copies one field and recomputes one,
a removal recomputes the fields upwards and stops at the first that stays as it is.

## What is proved

* `rbComputeMax_spec`, `rbPropagateLoop_spec` — what the callbacks do to the fields.
* `rbDeclareCallbacksMax_keeps` — they keep what the tree code asks of them.
* `rbAugmentedMax` — insertion and removal leave the greatest value in every node.
-/

namespace CcUtils.Rbtree

open CcUtils.Lib CcUtils.Lib.RedBlack CcUtils.Lib.RedBlack.RBTree

variable {β : Type} [LinearOrder β] {v s : NodeRef → β}

/-! ### The callbacks -/

theorem rbMaxChild_spec (s : NodeRef → β) (t : RBTree NodeRef) (x : β) :
    ∃ y : β, rbMaxChild s (ptr t) x = .ok y ∧ (y : WithBot β) = max ↑x (t.top s) := by
  cases t with
  | nil => exact ⟨x, rfl, by simp⟩
  | node c l a r =>
    refine ⟨max x (s a), ?_, WithBot.coe_max x (s a)⟩
    rw [rbMaxChild, ptr_node, if_pos a.ne_zero, deref_ref, ok_bind]
    by_cases h : s a > x
    · rw [if_pos h, max_eq_right h.le]
      rfl
    · rw [if_neg h, max_eq_left (not_lt.mp h)]
      rfl

/-- The recomputed field is the maximum of the node's value and its children's fields. -/
theorem rbComputeMax_spec {nodes : NodeRef → RbNode} {a : NodeRef} {d : Dir} {w : ℕ}
    {x y : RBTree NodeRef} (hn : nodes a = rbNode d w (ptr x) (ptr y)) (exit : Bool) :
    ∃ k : β, (k : WithBot β) = max ↑(v a) (max (x.top s) (y.top s)) ∧
      rbComputeMax v nodes a exit s =
        .ok (if exit = true ∧ s a = k then (true, s) else (false, Function.update s a k)) := by
  obtain ⟨l, r, hl, hr, hlr⟩ : ∃ l r : RBTree NodeRef, (nodes a).rbLeft = ptr l ∧
      (nodes a).rbRight = ptr r ∧ max (l.top s) (r.top s) = max (x.top s) (y.top s) := by
    rw [hn]
    cases d
    · exact ⟨x, y, rfl, rfl, rfl⟩
    · exact ⟨y, x, rfl, rfl, max_comm _ _⟩
  obtain ⟨k1, h1, e1⟩ := rbMaxChild_spec s l (v a)
  obtain ⟨k, h2, e2⟩ := rbMaxChild_spec s r k1
  refine ⟨k, ?_, ?_⟩
  · rw [e2, e1, max_assoc, hlr]
  · rw [rbComputeMax, hl, hr, h1, ok_bind, h2, ok_bind]
    split <;> rfl

theorem segParent_dvd {q : ℕ} (hq : 4 ∣ q) (fs : List (Frame NodeRef)) : 4 ∣ segParent q fs := by
  cases fs with
  | nil => exact hq
  | cons f fs => exact f.item.dvd

/-- Propagating up a path to the node it hangs from. Only the fields of the path change. -/
theorem rbPropagateLoop_spec {nodes : NodeRef → RbNode} {path : List (Frame NodeRef)} {q fuel : ℕ}
    {t : RBTree NodeRef} {cs : Cells} (hdvd : 4 ∣ q) (hq : ∀ f ∈ path, (f.item : ℕ) ≠ q)
    (hfuel : path.length < fuel) (howns : Owns nodes (segCells q path (ptr t) + cs))
    (hnd : (plug path t).toList.Nodup) (ht : MaxBelow v s t) (hpath : StaleAbove v s path) :
    ∃ s', rbPropagateLoop (rbComputeMax v) nodes fuel (segParent q path) q s = .ok s' ∧
      MaxBelow v s' (plug path t) ∧ ∀ b, b ∉ ctxItems path → s' b = s b := by
  induction path generalizing t s fuel cs with
  | nil =>
    obtain ⟨fuel, rfl⟩ : ∃ k, fuel = k + 1 := ⟨fuel - 1, by omega⟩
    exact ⟨s, if_pos rfl, ht, fun _ _ => rfl⟩
  | cons f path ih =>
    obtain ⟨fuel, rfl⟩ : ∃ k, fuel = k + 1 := ⟨fuel - 1, by omega⟩
    have howns1 : Owns nodes (cell f.item (rbNode f.dir (word (segParent q path) f.color) (ptr t)
        (ptr f.sib)) + (segCells q path f.item + (cells f.item f.sib + cs))) := by
      have e : segCells q (f :: path) (ptr t) + cs = cell f.item (rbNode f.dir
          (word (segParent q path) f.color) (ptr t) (ptr f.sib)) +
            (segCells q path f.item + (cells f.item f.sib + cs)) := by
        rw [segCells_cons]
        ac_rfl
      rwa [e] at howns
    obtain ⟨k, hk, hcomp⟩ := rbComputeMax_spec (v := v) (s := s) howns1.read true
    have hitem : ptr (f.fill t) = f.item := ptr_nodeAt ..
    rw [rbPropagateLoop, segParent, if_neg (hq f (List.mem_cons_self ..)), deref_ref, ok_bind, hcomp,
      ok_bind]
    by_cases hsame : s f.item = k
    · -- the field stays as it is, and so do those further up
      rw [if_pos ⟨rfl, hsame⟩]
      refine ⟨s, rfl, hpath.stop ht ?_, fun _ _ => rfl⟩
      rw [hsame, hk]
    · rw [if_neg fun h => hsame h.2]
      have hpar : (nodes f.item).parent = segParent q path := by
        rw [howns1.read, RbNode.parent, parentColor_rbNode,
          rbParentOf_word (segParent_dvd hdvd path)]
      have hn := hnd
      rw [← Multiset.coe_nodup, toList_plug_items, ctxItems, Multiset.add_cons,
        Multiset.nodup_cons] at hn
      obtain ⟨hnot, -⟩ := hn
      have hup : ∀ b, b ≠ f.item → Function.update s f.item k b = s b :=
        fun b hb => Function.update_of_ne hb k s
      have hne : ∀ b ∈ (↑t.toList + (↑f.sib.toList + ctxItems path) : Multiset NodeRef),
          b ≠ f.item := fun b hb e => hnot (e ▸ hb)
      have htc : ∀ b ∈ t.toList, Function.update s f.item k b = s b :=
        fun b hb => hup b (hne b (by simp [hb]))
      have hsc : ∀ b ∈ f.sib.toList, Function.update s f.item k b = s b :=
        fun b hb => hup b (hne b (by simp [hb]))
      have hpc : ∀ b ∈ ctxItems path, Function.update s f.item k b = s b :=
        fun b hb => hup b (hne b (by simp [hb]))
      have hfill : MaxBelow v (Function.update s f.item k) (f.fill t) := by
        refine (maxBelow_nodeAt ..).mpr ⟨?_, ht.congr htc, hpath.1.congr hsc⟩
        rw [Function.update_self, hk, top_congr htc, top_congr hsc]
      have hlen : path.length < fuel := by
        rw [List.length_cons] at hfuel
        omega
      have howns2 : Owns nodes (segCells q path (ptr (f.fill t)) + (cells f.item f.sib + cs)) := by
        rw [hitem]
        rw [add_comm] at howns1
        exact howns1.left
      obtain ⟨s', hrun, hmax, hframe⟩ := ih (fun g hg => hq g (List.mem_cons_of_mem _ hg)) hlen
        howns2 hnd hfill (hpath.2.stale.congr hpc)
      refine ⟨s', ?_, hmax, fun b hb => ?_⟩
      · dsimp only
        rw [hpar]
        exact hrun
      · rw [ctxItems, Multiset.mem_cons, not_or, Multiset.mem_add, not_or] at hb
        rw [hframe b hb.2.2, hup b hb.1]

/-! ### What they keep -/

/-- The fields hold the greatest values, when no node is listed twice. -/
def maxInvariant (v : NodeRef → β) : AugInvariant (NodeRef → β) where
  Good t s := t.toList.Nodup ∧ MaxBelow v s t
  Stale fs t s := (plug fs t).toList.Nodup ∧ MaxBelow v s t ∧ StaleAbove v s fs
  Moved path f fs t s := (plug (path ++ f :: fs) t).toList.Nodup ∧ MaxBelow v s t ∧
    StaleAbove v s path ∧ StaleAbove v s (f :: fs)

theorem mem_ctxItems {fs : List (Frame NodeRef)} {f : Frame NodeRef} (hf : f ∈ fs) :
    f.item ∈ ctxItems fs := by
  induction fs with
  | nil => exact absurd hf List.not_mem_nil
  | cons g fs ih =>
    rw [ctxItems]
    rcases List.mem_cons.mp hf with rfl | hf
    · exact Multiset.mem_cons_self ..
    · exact Multiset.mem_cons_of_mem (Multiset.mem_add.mpr (.inr (ih hf)))

theorem ctxItems_append (path fs : List (Frame NodeRef)) :
    ctxItems (path ++ fs) = ctxItems path + ctxItems fs := by
  induction path with
  | nil => simp [ctxItems]
  | cons f path ih =>
    rw [List.cons_append, ctxItems, ih, ctxItems, Multiset.cons_add, add_assoc]

/-- `rotate` copies one field and recomputes one. -/
theorem rbDeclareCallbacksMax_rotate {fs : List (Frame NodeRef)} {d : Dir} {c b : Color}
    {x y z : RBTree NodeRef} {old new : NodeRef} {nodes : NodeRef → RbNode} {w fuel : ℕ}
    (h : (maxInvariant v).Good (plug fs (nodeAt d c (nodeAt d b x new y) old z)) s)
    (hold : nodes old = rbNode d w (ptr y) (ptr z)) :
    Post ((rbDeclareCallbacksMax fuel v).rotate nodes old new s)
      ((maxInvariant v).Good (plug fs (nodeAt d c x new (nodeAt d b y old z)))) := by
  obtain ⟨hn, hm⟩ := h
  let s1 : NodeRef → β := Function.update s new (s old)
  obtain ⟨k, hk, hcomp⟩ := rbComputeMax_spec (v := v) (s := s1) hold false
  have hrun : (rbDeclareCallbacksMax fuel v).rotate nodes old new s =
      .ok (Function.update s1 old k) := by
    unfold rbDeclareCallbacksMax rbDeclareCallbacks
    dsimp only
    rw [deref_ref, ok_bind, deref_ref, ok_bind, hcomp, if_neg (by simp)]
    rfl
  have hnd := hn
  rw [← Multiset.coe_nodup, toList_plug_items, toList_nodeAt, toList_nodeAt] at hnd
  have e : old ::ₘ ((new ::ₘ (↑x.toList + ↑y.toList)) + ↑z.toList) + ctxItems fs =
      new ::ₘ (↑x.toList + (old ::ₘ (↑y.toList + ↑z.toList))) + ctxItems fs := by
    simp only [Multiset.cons_add, Multiset.add_cons, Multiset.cons_swap new old, add_assoc]
  rw [e] at hnd
  have hnew := (Multiset.nodup_cons.mp (by rwa [Multiset.cons_add] at hnd)).1
  have hyz : ∀ i, i ∈ y.toList ∨ i ∈ z.toList → s1 i = s i := by
    intro i hi
    refine Function.update_of_ne (fun hi' => hnew ?_) ..
    subst hi'
    rcases hi with hi | hi <;> simp [hi]
  rw [top_congr fun i hi => hyz i (.inl hi), top_congr fun i hi => hyz i (.inr hi)] at hk
  refine ⟨_, hrun, ?_, maxBelow_rotate hm hn hk⟩
  rwa [← Multiset.coe_nodup, toList_plug_items, toList_nodeAt, toList_nodeAt]

/-- `copy` gives the field of the removed node to the one that takes its place. -/
theorem rbDeclareCallbacksMax_copy {fs path : List (Frame NodeRef)} {c b : Color}
    {l t : RBTree NodeRef} {a new : NodeRef} {nodes : NodeRef → RbNode} {fuel : ℕ}
    (h : (maxInvariant v).Good (plug fs (.node c l a (plug path (.node b .nil new t)))) s) :
    Post ((rbDeclareCallbacksMax fuel v).copy nodes a new s)
      ((maxInvariant v).Moved path ⟨.right, c, new, l⟩ fs t) := by
  obtain ⟨hn, hm⟩ := h
  let s' : NodeRef → β := Function.update s new (s a)
  have hrun : (rbDeclareCallbacksMax fuel v).copy nodes a new s = .ok s' := by
    unfold rbDeclareCallbacksMax rbDeclareCallbacks
    dsimp only
    rw [deref_ref, ok_bind, deref_ref]
    rfl
  have e : ((plug fs (.node c l a (plug path (.node b .nil new t)))).toList : Multiset NodeRef) =
      a ::ₘ (new ::ₘ (↑l.toList + (↑t.toList + (ctxItems path + ctxItems fs)))) := by
    have hleft : ∀ (c : Color) (l : RBTree NodeRef) (a : NodeRef) (r : RBTree NodeRef),
        node c l a r = nodeAt .left c l a r := fun _ _ _ _ => rfl
    rw [toList_plug_items, hleft, toList_nodeAt, toList_plug_items, hleft,
      toList_nodeAt]
    simp only [Multiset.cons_add, Multiset.add_cons, toList, Multiset.coe_nil, zero_add, add_assoc]
  rw [← Multiset.coe_nodup, e, Multiset.nodup_cons] at hn
  obtain ⟨ha, hn⟩ := hn
  have hnew := (Multiset.nodup_cons.mp hn).1
  have hsame : ∀ i ∈ (↑l.toList + (↑t.toList + (ctxItems path + ctxItems fs)) : Multiset NodeRef),
      s' i = s i := by
    intro i hi
    refine Function.update_of_ne (fun e => hnew ?_) ..
    rwa [← e]
  rw [maxBelow_plug, MaxBelow, maxBelow_plug, MaxBelow] at hm
  obtain ⟨⟨-, hl, ⟨-, -, ht⟩, hpath⟩, hfs⟩ := hm
  refine ⟨s', hrun, ?_, ht.congr fun i hi => hsame i (by simp [hi]),
    hpath.stale.congr fun i hi => hsame i (by simp [hi]),
    hl.congr fun i hi => hsame i (by simp [hi]), ?_⟩
  · rw [← Multiset.coe_nodup, toList_plug_items, ctxItems_append, ctxItems]
    refine Eq.mp (congrArg Multiset.Nodup ?_) hn
    simp only [Multiset.add_cons]
    ac_rfl
  · have hself : s' new = s a := Function.update_self ..
    dsimp only
    rw [hself]
    exact hfs.congr fun i hi => hsame i (by simp [hi])

/-- `propagate` up to the node that has taken another place. -/
theorem rbDeclareCallbacksMax_propagate_path {path fs : List (Frame NodeRef)} {f : Frame NodeRef}
    {t : RBTree NodeRef} {cs : Cells} {nodes : NodeRef → RbNode} {fuel : ℕ}
    (hlen : path.length < fuel) (howns : Owns nodes (segCells f.item path (ptr t) + cs))
    (h : (maxInvariant v).Moved path f fs t s) :
    Post ((rbDeclareCallbacksMax fuel v).propagate nodes (segParent f.item path) f.item s)
      ((maxInvariant v).Stale (f :: fs) (plug path t)) := by
  obtain ⟨hn, ht, hpath, hfs⟩ := h
  rw [plug_append] at hn
  have e : ((plug (f :: fs) (plug path t)).toList : Multiset NodeRef) =
      ctxItems (f :: fs) + (plug path t).toList := by
    rw [toList_plug_items, add_comm]
  have hn' := hn
  rw [← Multiset.coe_nodup, e, Multiset.nodup_add] at hn'
  obtain ⟨-, hnd, hdisj⟩ := hn'
  have hitems : ∀ i ∈ ctxItems path, i ∈ ((plug path t).toList : Multiset NodeRef) := by
    intro i hi
    rw [toList_plug_items]
    exact Multiset.mem_add.mpr (.inr hi)
  have hq : ∀ g ∈ path, (g.item : ℕ) ≠ f.item := by
    intro g hg e
    have hg' : g.item ∈ ctxItems path := mem_ctxItems hg
    rw [Subtype.ext e] at hg'
    exact Multiset.disjoint_left.mp hdisj (Multiset.mem_cons_self ..) (hitems _ hg')
  obtain ⟨s', hrun, hm, hframe⟩ := rbPropagateLoop_spec f.item.dvd hq hlen howns
    (Multiset.coe_nodup.mp hnd) ht hpath
  refine ⟨s', hrun, hn, hm, hfs.congr fun i hi => hframe i fun hi' => ?_⟩
  exact Multiset.disjoint_left.mp hdisj hi (hitems i hi')

/-- The callbacks keep what the tree code asks of them. -/
theorem rbDeclareCallbacksMax_keeps (v : NodeRef → β) (fuel : ℕ) :
    (rbDeclareCallbacksMax fuel v).Keeps (maxInvariant v) fuel where
  bare := by
    rintro t u s e ⟨hn, hm⟩
    refine ⟨?_, ?_⟩
    · rwa [← toList_bare, ← e, toList_bare]
    · rwa [← maxBelow_bare, ← e, maxBelow_bare]
  rotate := rbDeclareCallbacksMax_rotate
  detach := by
    rintro fs d c a t s ⟨hn, hm⟩
    rw [← Multiset.coe_nodup, toList_plug_items, toList_nodeAt, toList, Multiset.coe_nil, zero_add,
      Multiset.cons_add, Multiset.nodup_cons, ← toList_plug_items] at hn
    rw [maxBelow_plug, maxBelow_nodeAt] at hm
    exact ⟨Multiset.coe_nodup.mp hn.2, hm.1.2.2, hm.2.stale⟩
  copy := rbDeclareCallbacksMax_copy
  moved_nil := by
    rintro f fs t s ⟨hn, ht, -, hfs⟩
    exact ⟨hn, ht, hfs⟩
  propagate_path := rbDeclareCallbacksMax_propagate_path
  propagate := by
    rintro fs t cs nodes s hlen howns ⟨hn, ht, hfs⟩
    have hq : ∀ f ∈ fs, (f.item : ℕ) ≠ 0 := fun f _ => f.item.ne_zero
    obtain ⟨s', hrun, hm, -⟩ := rbPropagateLoop_spec (Nat.dvd_zero 4) hq hlen howns hn ht hfs
    exact ⟨s', hrun, hn, hm⟩

/-! ### Insertion and removal -/

/-- With the maximum callbacks, `rb_insert_augmented` of a linked red node below which and above
which the fields are right, and `rb_erase_augmented` of any node, leave the greatest value of its
subtree in every node. -/
theorem rbAugmentedMax (v : NodeRef → β) (fuel : ℕ) :
    (∀ (m : Mem (NodeRef → β)) (fs : List (Frame NodeRef)) (a : NodeRef),
      Represents m (plug fs (node .red nil a nil)) → (plug fs nil).IsRB →
      EachMax v m.aug (plug fs (node .red nil a nil)) → (plug fs nil).toList.length < fuel →
      ∃ m' t', rbInsertAugmented (rbDeclareCallbacksMax fuel v) fuel m a = .ok m' ∧
        Represents m' t' ∧ t'.IsRB ∧ t'.toList = (plug fs (node .red nil a nil)).toList ∧
        EachMax v m'.aug t') ∧
    ∀ (m : Mem (NodeRef → β)) (t : RBTree NodeRef) (a : NodeRef),
      Represents m t → t.IsRB → EachMax v m.aug t → a ∈ t.toList → t.toList.length < fuel →
      ∃ m' t', rbEraseWith (rbDeclareCallbacksMax fuel v) fuel m a = .ok m' ∧
        Represents m' t' ∧ t'.IsRB ∧ t'.toList = t.toList.erase a ∧ EachMax v m'.aug t' := by
  constructor
  · intro m fs a h hrb hmax hfuel
    have hlen : fs.length < fuel := by
      have h1 := length_add_height_le fs nil
      have h2 := (plug fs nil).height_le_length
      omega
    have hgood := maxBelow_iff.mpr hmax
    obtain ⟨m', hrun, hrep, -, hm⟩ :=
      rbInsert_keeps (rbDeclareCallbacksMax_keeps v fuel) hrb hlen h ⟨h.nodup, hgood⟩
    refine ⟨m', _, hrun, hrep, ?_, ?_, maxBelow_iff.mp hm⟩
    · obtain ⟨n, hn, hctx, -⟩ := (isRB_plug_iff fs nil).mp hrb
      obtain rfl : n = 0 := hn
      exact insertFix_isRB _ _ ⟨rfl, rfl, rfl, rfl⟩ rfl hctx
    · rw [insertFix_toList]
  · intro m t a h hrb hmax ha hfuel
    have hheight : t.height < fuel := lt_of_le_of_lt t.height_le_length hfuel
    obtain ⟨fs, c, l, r, rfl⟩ := exists_plug_of_mem ha []
    obtain ⟨m', hrun, hrep, -, hm⟩ := rbEraseWith_keeps (rbDeclareCallbacksMax_keeps v fuel) hrb
      hheight hheight h ⟨h.nodup, maxBelow_iff.mpr hmax⟩
    exact ⟨m', _, hrun, hrep, eraseAt_isRB hrb, eraseAt_toList_erase h.nodup, maxBelow_iff.mp hm⟩

/-- The path down to the node on the right of `threeNodes`. -/
def threeNodesRight : List (Frame NodeRef) :=
  [⟨.right, .red, nodeRef 2, nil⟩,
    ⟨.right, .black, nodeRef 1, node .red nil (nodeRef 0) nil⟩]

/-- `threeNodes` in memory with a fourth node linked on the right, and the greatest addresses. -/
def fourNodesMem : Mem (NodeRef → ℕ) where
  node a := if a = nodeRef 1 then ⟨1, 24, 8⟩ else
    if a = nodeRef 2 then ⟨16, 32, 0⟩ else if a = nodeRef 3 then ⟨24, 0, 0⟩ else ⟨16, 0, 0⟩
  rbNode := 16
  aug a := if a = nodeRef 0 then 8 else 32

theorem rbAugmentedMax_three :
    (∃ m' t', rbInsertAugmented (rbDeclareCallbacksMax 4 (·.val)) 4 fourNodesMem (nodeRef 3) =
        .ok m' ∧ Represents m' t' ∧ t'.IsRB ∧
        t'.toList = [nodeRef 0, nodeRef 1, nodeRef 2, nodeRef 3] ∧ EachMax (·.val) m'.aug t') ∧
    ∃ m' t', rbEraseWith (rbDeclareCallbacksMax 4 (·.val)) 4
        { threeNodesMem with aug := fun a => if a = nodeRef 1 then 24 else a } (nodeRef 1) =
          .ok m' ∧ Represents m' t' ∧ t'.IsRB ∧
        t'.toList = [nodeRef 0, nodeRef 1, nodeRef 2].erase (nodeRef 1) ∧
        EachMax (·.val) m'.aug t' := by
  have hrb : threeNodes.IsRB := ⟨rfl, 1, by simp [threeNodes, Bal]⟩
  refine ⟨(rbAugmentedMax (·.val) 4).1 fourNodesMem threeNodesRight (nodeRef 3) ?_ hrb ?_
    (by decide), (rbAugmentedMax (·.val) 4).2 _ threeNodes (nodeRef 1)
      ⟨rfl, threeNodesMem_represents.owns⟩ hrb ?_ (by decide) (by decide)⟩
  · have e : cells 0 (plug threeNodesRight (node .red nil (nodeRef 3) nil)) =
        {(nodeRef 1, ⟨1, 24, 8⟩), (nodeRef 0, ⟨16, 0, 0⟩), (nodeRef 2, ⟨16, 32, 0⟩),
          (nodeRef 3, ⟨24, 0, 0⟩)} := rfl
    refine ⟨rfl, ?_, ?_⟩
    · rw [e]
      decide
    · rw [e]
      simp [fourNodesMem, nodeRef]
  · refine maxBelow_iff.mp ?_
    change MaxBelow _ _ (node .black (node .red nil (nodeRef 0) nil) (nodeRef 1)
      (node .red nil (nodeRef 2) (node .red nil (nodeRef 3) nil)))
    simp [MaxBelow, top, fourNodesMem, nodeRef]
    decide
  · refine maxBelow_iff.mp ?_
    simp [MaxBelow, top, threeNodes, nodeRef]
    decide

end CcUtils.Rbtree
