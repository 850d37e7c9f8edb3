import CcUtils.Rbtree.Walk

/-!
# The leftmost cache

A root that keeps a pointer to the first node. The three operations on it move the pointer before
they touch the tree: an insertion is told by the caller whether the node it has linked is the first
one, a removal takes the next node of the tree as it still is, a replacement follows the node.

## What is proved

* `Caches.insert`, `Caches.erase`, `Caches.replace` — each operation keeps the cache.
* `runCached_first` — after each step of a run, the cached pointer is that of `rb_first`.
-/

namespace CcUtils.Rbtree

open CcUtils.Lib CcUtils.Lib.RedBlack CcUtils.Lib.RedBlack.RBTree

variable {σ : Type}

/-! ### Operations and runs -/

/-- A step of the caller. An insertion links the node below `parent` on side `d` first. -/
inductive CachedOp where
  | insert (node : NodeRef) (parent : ℕ) (d : Dir) (leftmost : Bool)
  | erase (node : NodeRef)
  | replace (victim new : NodeRef)

/-- Do the step. -/
def CachedOp.exec (fuel : ℕ) (root : RbRootCached σ) : CachedOp → Exec (RbRootCached σ)
  | .insert a parent d leftmost => do
    let m ← rbLinkNode root.mem a parent d
    rbInsertColorCached fuel ⟨m, root.rbLeftmost⟩ a leftmost
  | .erase a => rbEraseCached fuel root a
  | .replace a b => rbReplaceNodeCached root a b

/-- The step keeps to the rules. A node is linked at a free link, and `leftmost` is true exactly
when it is then the first one; a node taken out or replaced is linked, and the new one is not. -/
def CachedOp.Valid (t : RBTree NodeRef) : CachedOp → Prop
  | .insert a parent d leftmost => ∃ fs, t = plug fs .nil ∧ parent = ctxParent fs ∧ d = ctxDir fs ∧
      a ∉ t.toList ∧
      (leftmost = true ↔ (plug fs (.node .red .nil a .nil)).toList.head? = some a)
  | .erase a => a ∈ t.toList
  | .replace a b => a ∈ t.toList ∧ b ∉ t.toList

/-- Do the steps one after the other. -/
def runCached (fuel : ℕ) (root : RbRootCached σ) (ops : List CachedOp) : Exec (RbRootCached σ) :=
  ops.foldlM (CachedOp.exec fuel) root

/-- Every step of the run keeps to the rules for the tree it finds. -/
def ValidCachedRun (fuel : ℕ) : RbRootCached σ → List CachedOp → Prop
  | _, [] => True
  | root, op :: ops => (∃ t, Represents root.mem t ∧ op.Valid t) ∧
      ∀ root', op.exec fuel root = .ok root' → ValidCachedRun fuel root' ops

/-! ### One step -/

/-- A tree is determined by the memory it is in. -/
theorem Represents.unique {m : Mem σ} {t u : RBTree NodeRef} (ht : Represents m t)
    (hu : Represents m u) : t = u := by
  have hind : ∀ {p : ℕ} {t u : RBTree NodeRef}, 4 ∣ p → ptr t = ptr u →
      (∀ c ∈ cells p t, m.node c.1 = c.2) → (∀ c ∈ cells p u, m.node c.1 = c.2) → t = u := by
    intro p t
    induction t generalizing p with
    | nil =>
      intro u _ hp _ _
      exact (ptr_eq_zero.mp hp.symm).symm
    | node c l a r ihl ihr =>
      intro u hdvd hp h1 h2
      cases u with
      | nil => exact absurd hp a.ne_zero
      | node c' l' a' r' =>
        obtain rfl : a = a' := Subtype.ext hp
        have e1 := h1 (a, _) (Multiset.mem_add.mpr (.inl (mem_cell.mpr rfl)))
        have e2 := h2 (a, _) (Multiset.mem_add.mpr (.inl (mem_cell.mpr rfl)))
        have e := e1.symm.trans e2
        rw [RbNode.mk.injEq] at e
        obtain ⟨hw, hr, hl⟩ := e
        have hc : c = c' := by
          rw [← rbColorOf_word hdvd c, hw, rbColorOf_word hdvd]
        have h1' : ∀ x ∈ cells a l + cells a r, m.node x.1 = x.2 :=
          fun x hx => h1 x (Multiset.mem_add.mpr (.inr hx))
        have h2' : ∀ x ∈ cells a l' + cells a r', m.node x.1 = x.2 :=
          fun x hx => h2 x (Multiset.mem_add.mpr (.inr hx))
        rw [hc, ihl a.dvd hl (fun x hx => h1' x (Multiset.mem_add.mpr (.inl hx)))
            fun x hx => h2' x (Multiset.mem_add.mpr (.inl hx)),
          ihr a.dvd hr (fun x hx => h1' x (Multiset.mem_add.mpr (.inr hx)))
            fun x hx => h2' x (Multiset.mem_add.mpr (.inr hx))]
  exact hind (Nat.dvd_zero 4) (ht.root.symm.trans hu.root) ht.owns.holds hu.owns.holds

/-- The tree of the root is red-black, and the cache points to its first node. -/
structure Caches (root : RbRootCached σ) (t : RBTree NodeRef) : Prop where
  represents : Represents root.mem t
  isRB : t.IsRB
  leftmost : root.rbLeftmost = headPtr t.toList

/-- `rb_insert_color_cached` of a node that was linked at a leaf. -/
theorem Caches.insert {root : RbRootCached σ} {fs : List (Frame NodeRef)} {a : NodeRef}
    {leftmost : Bool} {fuel : ℕ} (h : Caches root (plug fs .nil)) (ha : a ∉ (plug fs .nil).toList)
    (hleft : leftmost = true ↔ (plug fs (.node .red .nil a .nil)).toList.head? = some a)
    (hfuel : fs.length < fuel) :
    Post ((CachedOp.insert a (ctxParent fs) (ctxDir fs) leftmost).exec fuel root) fun root' =>
      Caches root' (insertFix fs (.node .red .nil a .nil)) := by
  have hl : (plug fs (.node .red .nil a .nil)).toList = before fs ++ a :: after fs := by
    simp [toList_plug, toList]
  have hold : root.rbLeftmost = headPtr (before fs ++ after fs) := by
    rw [h.leftmost, toList_plug]
    rfl
  have hnot : a ∉ before fs := fun hm => ha (by rw [toList_plug]; simp [hm])
  have hcache : (if leftmost then (a : ℕ) else root.rbLeftmost) =
      headPtr (before fs ++ a :: after fs) := by
    rw [hl] at hleft
    cases hb : before fs with
    | nil =>
      rw [hb] at hleft
      rw [if_pos (hleft.mpr rfl)]
      rfl
    | cons b bs =>
      rw [hb] at hleft hold hnot
      have hne : ¬ leftmost = true := by
        intro e
        have := Option.some.inj (hleft.mp e)
        exact hnot (this ▸ List.mem_cons_self ..)
      rw [if_neg hne, hold]
      rfl
  rw [CachedOp.exec]
  refine (rbLinkNode_spec h.represents ha).bind fun m hm => ?_
  rw [rbInsertColorCached]
  refine (rbInsert_spec dummyCallbacks_total h.isRB hfuel hm).bind fun m hm => ?_
  refine Post.pure ⟨hm, ?_, ?_⟩
  · obtain ⟨n, hn, hctx, -⟩ := (isRB_plug_iff fs nil).mp h.isRB
    obtain rfl : n = 0 := hn
    exact insertFix_isRB _ _ ⟨rfl, rfl, rfl, rfl⟩ rfl hctx
  · rw [insertFix_toList, hl]
    exact hcache

/-- The cached pointer moves to the next node exactly when the first one is erased. -/
theorem Caches.leave {root : RbRootCached σ} {t : RBTree NodeRef} {a : NodeRef} {fuel : ℕ}
    (h : Caches root t) (ha : a ∈ t.toList) (hfuel : t.height < fuel) :
    root.leave fuel a = .ok (headPtr (t.toList.erase a)) := by
  rw [RbRootCached.leave]
  cases hb : t.toList with
  | nil =>
    rw [hb] at ha
    exact nomatch ha
  | cons b bs =>
    have hleft := h.leftmost
    rw [hb, headPtr_cons] at hleft
    by_cases hab : b = a
    · -- the next node is looked up in the tree as it still is
      subst hab
      have ho : t.order .left = [] ++ b :: bs := hb
      rw [if_pos hleft, List.erase_cons_head]
      exact rbNeighbour_spec h.represents .left ho hfuel
    · have hne : root.rbLeftmost ≠ a := fun e => hab (Subtype.ext (hleft.symm.trans e))
      rw [if_neg hne, hleft, List.erase_cons_tail (by rwa [beq_iff_eq])]
      rfl

/-- `rb_erase_cached` of a linked node. -/
theorem Caches.erase {root : RbRootCached σ} {t : RBTree NodeRef} {a : NodeRef} {fuel : ℕ}
    (h : Caches root t) (ha : a ∈ t.toList) (hfuel : t.height < fuel) :
    Post (rbEraseCached fuel root a) fun root' =>
      ∃ t', Caches root' t' ∧ t'.toList = t.toList.erase a := by
  rw [rbEraseCached, h.leave ha hfuel, ok_bind]
  refine (rbErase_spec h.represents h.isRB ha hfuel).bind fun m hm => ?_
  obtain ⟨t', hrep, hrb, hl⟩ := hm
  exact Post.pure ⟨t', ⟨hrep, hrb, by rw [hl]⟩, hl⟩

/-- `rb_replace_node_cached` of a linked node by one that is not linked. -/
theorem Caches.replace {root : RbRootCached σ} {t : RBTree NodeRef} {a b : NodeRef}
    (h : Caches root t) (ha : a ∈ t.toList) (hb : b ∉ t.toList) :
    Post (rbReplaceNodeCached root a b) fun root' =>
      ∃ t', Caches root' t' ∧ t'.toList.length = t.toList.length := by
  rw [rbReplaceNodeCached]
  refine (rbReplaceNode_spec h.represents h.isRB ha hb).bind fun m hm => ?_
  obtain ⟨t', pre, post, hrep, hrb, hl, hl'⟩ := hm
  refine Post.pure ⟨t', ⟨hrep, hrb, ?_⟩, by simp [hl, hl']⟩
  have hleft := h.leftmost
  have hnd := h.represents.nodup
  rw [hl] at hleft hnd
  rw [hl']
  cases pre with
  | nil =>
    have hroot : root.rbLeftmost = a := hleft
    simp [hroot]
  | cons c cs =>
    have hne : root.rbLeftmost ≠ a := by
      intro e
      have hca : c = a := Subtype.ext (hleft.symm.trans e)
      exact (List.nodup_append.mp hnd).2.2 c (List.mem_cons_self ..) a (List.mem_cons_self ..) hca
    rw [if_neg hne]
    exact hleft

/-- One step of a run keeps the cache, and the tree grows by at most one node. -/
theorem CachedOp.exec_caches {root : RbRootCached σ} {t : RBTree NodeRef} {op : CachedOp}
    {fuel : ℕ} (h : Caches root t) (hop : op.Valid t) (hfuel : t.toList.length < fuel) :
    Post (op.exec fuel root) fun root' =>
      ∃ t', Caches root' t' ∧ t'.toList.length ≤ t.toList.length + 1 := by
  have hheight : t.height < fuel := lt_of_le_of_lt t.height_le_length hfuel
  cases op with
  | insert a parent d leftmost =>
    obtain ⟨fs, rfl, rfl, rfl, ha, hleft⟩ := hop
    have hlen := length_add_height_le fs (nil : RBTree NodeRef)
    refine (h.insert ha hleft (by omega)).mono fun root' h' => ⟨_, h', ?_⟩
    rw [insertFix_toList, toList_plug, toList_plug]
    simp [toList]
    omega
  | erase a =>
    refine (h.erase hop hheight).mono fun root' h' => ?_
    obtain ⟨t', h', hl⟩ := h'
    refine ⟨t', h', ?_⟩
    rw [hl]
    exact (List.erase_sublist.length_le).trans (Nat.le_succ _)
  | replace a b =>
    refine (h.replace hop.1 hop.2).mono fun root' h' => ?_
    obtain ⟨t', h', hl⟩ := h'
    exact ⟨t', h', by omega⟩

/-! ### Runs -/

/-- A whole run keeps the cache. -/
theorem runCached_caches {root : RbRootCached σ} {t : RBTree NodeRef} {ops : List CachedOp}
    {fuel : ℕ} (h : Caches root t) (hops : ValidCachedRun fuel root ops)
    (hfuel : t.toList.length + ops.length < fuel) :
    Post (runCached fuel root ops) fun root' => ∃ t', Caches root' t' ∧ t'.height < fuel := by
  induction ops generalizing root t with
  | nil =>
    have hheight := t.height_le_length
    rw [List.length_nil] at hfuel
    exact Post.pure ⟨t, h, by omega⟩
  | cons op ops ih =>
    obtain ⟨⟨u, hu, hop⟩, hrest⟩ := hops
    obtain rfl : t = u := h.represents.unique hu
    rw [List.length_cons] at hfuel
    have hlt : t.toList.length < fuel := by omega
    rw [runCached, List.foldlM_cons]
    obtain ⟨root', hexec, t', h', hlen⟩ := CachedOp.exec_caches h hop hlt
    rw [hexec, ok_bind]
    exact ih h' (hrest root' hexec) (by omega)

theorem ValidCachedRun.of_prefix {fuel : ℕ} {root : RbRootCached σ} {ops pre : List CachedOp}
    (h : ValidCachedRun fuel root ops) (hpre : pre <+: ops) : ValidCachedRun fuel root pre := by
  induction pre generalizing root ops with
  | nil => trivial
  | cons op pre ih =>
    obtain ⟨post, rfl⟩ := hpre
    exact ⟨h.1, fun root' e => ih (h.2 root' e) ⟨post, rfl⟩⟩

/-- Starting from `RB_ROOT_CACHED`, after each step of a run the cached pointer is the result of
`rb_first`, and it is NULL exactly when the tree is empty. -/
theorem runCached_first {m : Mem σ} (hm : m.rbNode = 0) {ops : List CachedOp} {fuel : ℕ}
    (hops : ValidCachedRun fuel ⟨m, 0⟩ ops) (hfuel : ops.length < fuel) {pre : List CachedOp}
    (hpre : pre <+: ops) :
    ∃ root', runCached fuel ⟨m, 0⟩ pre = .ok root' ∧
      rbFirst fuel root'.mem = .ok (rbFirstCached root') ∧
      (rbFirstCached root' = 0 ↔ root'.mem.rbNode = 0) := by
  have hempty : Caches (⟨m, 0⟩ : RbRootCached σ) .nil := ⟨⟨hm, Owns.zero _⟩, ⟨rfl, 0, rfl⟩, rfl⟩
  have hlen : (nil : RBTree NodeRef).toList.length + pre.length < fuel := by
    have := hpre.length_le
    simp only [toList, List.length_nil]
    omega
  obtain ⟨root', hrun, t, h, hheight⟩ := runCached_caches hempty (hops.of_prefix hpre) hlen
  refine ⟨root', hrun, ?_, ?_⟩
  · rw [rbFirst, rbEnd_spec h.represents .left hheight, rbFirstCached, h.leftmost]
    rfl
  · rw [rbFirstCached, h.leftmost, h.represents.root, ptr_eq_zero]
    cases t with
    | nil => exact ⟨fun _ => rfl, fun _ => rfl⟩
    | node c l a r =>
      refine ⟨fun e => absurd e ?_, fun e => by cases e⟩
      have hne : (node c l a r).order .left ≠ [] := order_ne_nil (node_ne_nil c l a r)
      obtain ⟨b, bs, hb⟩ := List.exists_cons_of_ne_nil hne
      rw [show (node c l a r).toList = b :: bs from hb]
      exact b.ne_zero

/-- Two insertions, the second one to the left of the first, and the removal of the first node. -/
def cachedOps : List CachedOp :=
  [.insert (nodeRef 1) 0 .left true, .insert (nodeRef 0) 16 .left true, .erase (nodeRef 0)]

/-- An empty cached root. -/
def emptyCached : RbRootCached Unit := ⟨⟨fun _ => ⟨0, 0, 0⟩, 0, ()⟩, 0⟩

theorem cachedOps_valid : ValidCachedRun 4 emptyCached cachedOps := by
  have h0 : Caches emptyCached (plug [] .nil) := ⟨⟨rfl, Owns.zero _⟩, ⟨rfl, 0, rfl⟩, rfl⟩
  refine ⟨⟨_, h0.represents, [], rfl, rfl, rfl, by decide, by decide⟩, fun r1 e1 => ?_⟩
  have h1 : Caches r1 (plug [⟨.left, .black, nodeRef 1, .nil⟩] .nil) :=
    (h0.insert (by decide) (by decide) (by decide)).of_ok e1
  refine ⟨⟨_, h1.represents, _, rfl, rfl, rfl, by decide, by decide⟩, fun r2 e2 => ?_⟩
  have h2 := (h1.insert (by decide) (by decide) (by decide)).of_ok e2
  exact ⟨⟨_, h2.represents, show nodeRef 0 ∈ _ by decide⟩, fun _ _ => trivial⟩

theorem runCached_first_ops :
    ∃ root', runCached 4 emptyCached cachedOps = .ok root' ∧
      rbFirst 4 root'.mem = .ok (rbFirstCached root') ∧
      (rbFirstCached root' = 0 ↔ root'.mem.rbNode = 0) :=
  runCached_first rfl cachedOps_valid (by decide) (List.prefix_refl _)

end CcUtils.Rbtree
