import CcUtils.Rbtree.Augment
import CcUtils.Rbtree.Cached

/-!
# Runs with augmented data and a leftmost cache

`rb_insert_augmented_cached` and `rb_erase_augmented_cached` do three things at once: they keep the tree
balanced, the cached pointer at its first node, and the caller's data right through their callbacks. An
insertion relies on its caller: the new node is linked, the data on the path above it is up to date, and the
caller says whether it is the first node.

## What is proved

* `Augmented.insert`, `Augmented.erase` — one step, for all callbacks that keep an invariant of the data.
* `runAugmented_max` — with the maximum callbacks, after each step of a run the field of the root is the
  greatest value of the linked nodes, and the cached pointer is that of `rb_first`.
-/

namespace CcUtils.Rbtree

open CcUtils.Lib CcUtils.Lib.RedBlack CcUtils.Lib.RedBlack.RBTree


variable {σ : Type}

/-! ### The functions -/

/-- `rb_insert_augmented_cached`. -/
def rbInsertAugmentedCached (cb : RbAugmentCallbacks σ) (fuel : ℕ) (root : RbRootCached σ) (node : ℕ)
    (newleft : Bool) : Exec (RbRootCached σ) := do
  let cached := if newleft then node else root.rbLeftmost
  let m ← rbInsertAugmented cb fuel root.mem node
  return ⟨m, cached⟩

/-- `rb_erase_augmented_cached`. -/
def rbEraseAugmentedCached (cb : RbAugmentCallbacks σ) (fuel : ℕ) (root : RbRootCached σ) (node : ℕ) :
    Exec (RbRootCached σ) := do
  let cached ← root.leave fuel node
  let m ← rbEraseWith cb fuel root.mem node
  return ⟨m, cached⟩

/-! ### Runs -/

/-- A step of the caller. An insertion leaves the data `aug`, and links the node below `parent` on side `d`
first. -/
inductive AugOp (σ : Type) where
  | insert (node : NodeRef) (parent : ℕ) (d : Dir) (newleft : Bool) (aug : σ)
  | erase (node : NodeRef)

/-- Do the step. -/
def AugOp.exec (cb : RbAugmentCallbacks σ) (fuel : ℕ) (root : RbRootCached σ) :
    AugOp σ → Exec (RbRootCached σ)
  | .insert a parent d newleft aug => do
    let m ← rbLinkNode { root.mem with aug := aug } a parent d
    rbInsertAugmentedCached cb fuel ⟨m, root.rbLeftmost⟩ a newleft
  | .erase a => rbEraseAugmentedCached cb fuel root a

/-- The step keeps to the rules. A node is linked at a free link, with data that is right for the tree as it
then is, and `newleft` is true exactly when it is then the first one; a node taken out is linked. -/
def AugOp.Valid (I : AugInvariant σ) (t : RBTree NodeRef) : AugOp σ → Prop
  | .insert a parent d newleft aug => ∃ fs, t = plug fs .nil ∧ parent = ctxParent fs ∧ d = ctxDir fs ∧
      a ∉ t.toList ∧ (newleft = true ↔ (plug fs (.node .red .nil a .nil)).toList.head? = some a) ∧
      I.Good (plug fs (.node .red .nil a .nil)) aug
  | .erase a => a ∈ t.toList

/-- The linked nodes after it. -/
def AugOp.linked (s : Finset NodeRef) : AugOp σ → Finset NodeRef
  | .insert a _ _ _ _ => Insert.insert a s
  | .erase a => s.erase a

/-- Do the steps one after the other. -/
def runAugmented (cb : RbAugmentCallbacks σ) (fuel : ℕ) (root : RbRootCached σ) (ops : List (AugOp σ)) :
    Exec (RbRootCached σ) := ops.foldlM (AugOp.exec cb fuel) root

/-- Every step of the run keeps to the rules for the tree it finds. -/
def ValidAugRun (cb : RbAugmentCallbacks σ) (I : AugInvariant σ) (fuel : ℕ) :
    RbRootCached σ → List (AugOp σ) → Prop
  | _, [] => True
  | root, op :: ops => (∃ t, Represents root.mem t ∧ op.Valid I t) ∧
      ∀ root', op.exec cb fuel root = .ok root' → ValidAugRun cb I fuel root' ops

/-- The linked nodes after a run. -/
def augLinkedAfter (s : Finset NodeRef) (ops : List (AugOp σ)) : Finset NodeRef :=
  ops.foldl AugOp.linked s

/-! ### One step -/

section step

variable {cb : RbAugmentCallbacks σ} {I : AugInvariant σ} {root : RbRootCached σ} {t : RBTree NodeRef}
  {s : Finset NodeRef} {fuel : ℕ}

/-- The tree is red-black and holds exactly the linked nodes, the cache points to its first one, and the data
is right for it. -/
structure Augmented (I : AugInvariant σ) (root : RbRootCached σ) (t : RBTree NodeRef)
    (s : Finset NodeRef) : Prop where
  caches : Caches root t
  good : I.Good t root.mem.aug
  mem_iff : ∀ a, a ∈ t.toList ↔ a ∈ s

/-- There are as many nodes as there are linked ones. -/
theorem Augmented.length_eq (h : Augmented I root t s) : t.toList.length = s.card := by
  have hs : s = ⟨↑t.toList, Multiset.coe_nodup.mpr h.caches.represents.nodup⟩ :=
    Finset.ext fun a => (h.mem_iff a).symm
  rw [hs]
  rfl

/-- A cache does not depend on the data. -/
theorem Caches.with_aug (h : Caches root t) (aug : σ) :
    Caches ⟨{ root.mem with aug := aug }, root.rbLeftmost⟩ t :=
  ⟨⟨h.represents.root, h.represents.owns⟩, h.isRB, h.leftmost⟩

/-- The pointer to cache after an insertion, whatever callbacks it has. -/
theorem Caches.leftmost_insert {fs : List (Frame NodeRef)} {a : NodeRef} {newleft : Bool}
    (h : Caches root (plug fs .nil)) (ha : a ∉ (plug fs .nil).toList)
    (hleft : newleft = true ↔ (plug fs (.node .red .nil a .nil)).toList.head? = some a)
    (hfuel : fs.length < fuel) :
    (if newleft then (a : ℕ) else root.rbLeftmost) =
      headPtr (insertFix fs (.node .red .nil a .nil)).toList := by
  obtain ⟨root', hrun, h'⟩ := h.insert ha hleft hfuel
  rw [CachedOp.exec, bind_eq_ok] at hrun
  obtain ⟨m, -, hrun⟩ := hrun
  rw [rbInsertColorCached, bind_eq_ok] at hrun
  obtain ⟨m', -, hrun⟩ := hrun
  cases hrun
  exact h'.leftmost

/-- Linking a node leaves the data alone. -/
theorem Leaves.linkNode {m : Mem σ} {s : σ} (h : m.aug = s) (node parent : ℕ) (d : Dir) :
    Leaves s (rbLinkNode m node parent d) := by
  rw [rbLinkNode]
  refine (Leaves.modify h _ _).bind fun m' h' => ?_
  split
  · exact Ensures.ok h'
  · exact Leaves.setChild h' _ _ _

/-- `rb_insert_augmented_cached` of a node that was linked at a leaf. -/
theorem Augmented.insert (hcb : cb.Keeps I fuel) {fs : List (Frame NodeRef)} {a : NodeRef}
    {newleft : Bool} {aug : σ} (h : Augmented I root (plug fs .nil) s) (ha : a ∉ (plug fs .nil).toList)
    (hleft : newleft = true ↔ (plug fs (.node .red .nil a .nil)).toList.head? = some a)
    (hgood : I.Good (plug fs (.node .red .nil a .nil)) aug) (hfuel : fs.length < fuel) :
    Post ((AugOp.insert a (ctxParent fs) (ctxDir fs) newleft aug).exec cb fuel root) fun root' =>
      Augmented I root' (insertFix fs (.node .red .nil a .nil)) (insert a s) := by
  have hcaches := h.caches.with_aug aug
  have hlinked := (rbLinkNode_spec hcaches.represents ha).and_ensures
    (Leaves.linkNode (s := aug) rfl a (ctxParent fs) (ctxDir fs))
  obtain ⟨m, hlink, hm, haug⟩ := hlinked
  rw [AugOp.exec, hlink, ok_bind, rbInsertAugmentedCached, rbInsertAugmented]
  refine (rbInsert_keeps hcb h.caches.isRB hfuel hm (haug ▸ hgood)).bind fun m' hm' => ?_
  obtain ⟨hrep, hgood'⟩ := hm'
  refine Post.pure ⟨⟨hrep, ?_, h.caches.leftmost_insert ha hleft hfuel⟩, hgood', fun b => ?_⟩
  · obtain ⟨n, hn, hctx, -⟩ := (isRB_plug_iff fs nil).mp h.caches.isRB
    obtain rfl : n = 0 := hn
    exact insertFix_isRB _ _ ⟨rfl, rfl, rfl, rfl⟩ rfl hctx
  · rw [insertFix_toList, Finset.mem_insert, ← h.mem_iff]
    simp only [toList_plug, toList, List.mem_append, List.mem_cons, List.nil_append]
    grind

/-- `rb_erase_augmented_cached` of a linked node. -/
theorem Augmented.erase (hcb : cb.Keeps I fuel) {a : NodeRef} (h : Augmented I root t s)
    (ha : a ∈ t.toList) (hfuel : t.height < fuel) :
    Post (rbEraseAugmentedCached cb fuel root a) fun root' => ∃ t', Augmented I root' t' (s.erase a) := by
  have hnd := h.caches.represents.nodup
  rw [rbEraseAugmentedCached, h.caches.leave ha hfuel, ok_bind]
  obtain ⟨fs, c, l, r, rfl⟩ := exists_plug_of_mem ha []
  refine (rbEraseWith_keeps hcb h.caches.isRB hfuel hfuel h.caches.represents h.good).bind fun m' hm' => ?_
  obtain ⟨hrep, hgood⟩ := hm'
  have hlist := eraseAt_toList_erase hnd
  refine Post.pure ⟨_, ⟨hrep, eraseAt_isRB h.caches.isRB, ?_⟩, hgood, fun b => ?_⟩
  · rw [hlist]
  · rw [hlist, hnd.mem_erase_iff, Finset.mem_erase, h.mem_iff]

theorem AugOp.exec_augmented (hcb : cb.Keeps I fuel) (h : Augmented I root t s) {op : AugOp σ}
    (hop : op.Valid I t) (hfuel : t.toList.length < fuel) :
    Post (op.exec cb fuel root) fun root' => ∃ t', Augmented I root' t' (op.linked s) := by
  have hheight : t.height < fuel := lt_of_le_of_lt t.height_le_length hfuel
  cases op with
  | insert a parent d newleft aug =>
    obtain ⟨fs, rfl, rfl, rfl, ha, hleft, hgood⟩ := hop
    have hlen := length_add_height_le fs (nil : RBTree NodeRef)
    exact (h.insert hcb ha hleft hgood (by omega)).mono fun root' h' => ⟨_, h'⟩
  | erase a => exact h.erase hcb hop hheight

theorem AugOp.card_linked (s : Finset NodeRef) (op : AugOp σ) : (op.linked s).card ≤ s.card + 1 := by
  cases op with
  | insert a parent d newleft aug => exact Finset.card_insert_le a s
  | erase a => exact Finset.card_erase_le.trans (Nat.le_succ _)

end step

/-! ### A run -/

variable {cb : RbAugmentCallbacks σ} {I : AugInvariant σ} {root : RbRootCached σ} {fuel : ℕ}

/-- A whole run keeps it all, by induction on the run. -/
theorem runAugmented_augmented (hcb : cb.Keeps I fuel) {t : RBTree NodeRef} {s : Finset NodeRef}
    {ops : List (AugOp σ)} (h : Augmented I root t s) (hops : ValidAugRun cb I fuel root ops)
    (hfuel : s.card + ops.length < fuel) :
    Post (runAugmented cb fuel root ops) fun root' =>
      ∃ t', Augmented I root' t' (augLinkedAfter s ops) ∧ t'.height < fuel := by
  induction ops generalizing root t s with
  | nil =>
    have hheight := t.height_le_length
    have hlen := h.length_eq
    rw [List.length_nil] at hfuel
    exact Post.pure ⟨t, h, by omega⟩
  | cons op ops ih =>
    obtain ⟨⟨u, hu, hop⟩, hrest⟩ := hops
    obtain rfl : t = u := h.caches.represents.unique hu
    have hlen := h.length_eq
    have hcard := op.card_linked s
    rw [List.length_cons] at hfuel
    rw [runAugmented, List.foldlM_cons]
    obtain ⟨root', hexec, t', h'⟩ := AugOp.exec_augmented hcb h hop (by omega)
    rw [hexec, ok_bind]
    exact ih h' (hrest root' hexec) (by omega)

theorem ValidAugRun.of_prefix {ops pre : List (AugOp σ)} (h : ValidAugRun cb I fuel root ops)
    (hpre : pre <+: ops) : ValidAugRun cb I fuel root pre := by
  induction pre generalizing root ops with
  | nil => trivial
  | cons op pre ih =>
    obtain ⟨post, rfl⟩ := hpre
    exact ⟨h.1, fun root' hrun => ih (h.2 root' hrun) ⟨post, rfl⟩⟩

variable {β : Type} [LinearOrder β]

/-- Every field of a tree is right if the local condition holds, and the root's is that of all nodes. -/
theorem Augmented.root_greatest {v : NodeRef → β} {root : RbRootCached (NodeRef → β)}
    {t : RBTree NodeRef} {s : Finset NodeRef} (h : Augmented (maxInvariant v) root t s) {a : NodeRef}
    (ha : root.mem.rbNode = a) : IsGreatest {x | ∃ b ∈ s, v b = x} (root.mem.aug a) := by
  have hmax := maxBelow_iff.mp h.good.2
  rw [h.caches.represents.root] at ha
  cases t with
  | nil => exact absurd ha.symm a.ne_zero
  | node c l b r =>
    obtain rfl : b = a := Subtype.ext ha
    simpa only [h.mem_iff] using hmax.1

/-- **In every run** from `RB_ROOT_CACHED` with the maximum callbacks, after each step the memory holds a
red-black tree of exactly the linked nodes, every field is the greatest value below its node, that of the
root the greatest of all, and the cached pointer is that of `rb_first`. -/
theorem runAugmented_max (v : NodeRef → β) {m : Mem (NodeRef → β)} (hm : m.rbNode = 0) {fuel : ℕ}
    {ops : List (AugOp (NodeRef → β))}
    (hops : ValidAugRun (rbDeclareCallbacksMax fuel v) (maxInvariant v) fuel ⟨m, 0⟩ ops)
    (hfuel : ops.length < fuel) {pre : List (AugOp (NodeRef → β))} (hpre : pre <+: ops) :
    ∃ root' t, runAugmented (rbDeclareCallbacksMax fuel v) fuel ⟨m, 0⟩ pre = .ok root' ∧
      Represents root'.mem t ∧ t.IsRB ∧ (∀ a, a ∈ t.toList ↔ a ∈ augLinkedAfter ∅ pre) ∧
      EachMax v root'.mem.aug t ∧
      (∀ a : NodeRef, root'.mem.rbNode = a →
        IsGreatest {x | ∃ b ∈ augLinkedAfter ∅ pre, v b = x} (root'.mem.aug a)) ∧
      rbFirst fuel root'.mem = .ok (rbFirstCached root') := by
  have hempty : Augmented (maxInvariant v) ⟨m, 0⟩ nil ∅ :=
    ⟨⟨⟨hm, Owns.zero _⟩, ⟨rfl, 0, rfl⟩, rfl⟩, ⟨List.nodup_nil, trivial⟩, by simp [toList]⟩
  have hlen : (∅ : Finset NodeRef).card + pre.length < fuel := by
    rw [Finset.card_empty, Nat.zero_add]
    exact lt_of_le_of_lt hpre.length_le hfuel
  obtain ⟨root', hrun, t, h, hheight⟩ := runAugmented_augmented (rbDeclareCallbacksMax_keeps v fuel)
    hempty (hops.of_prefix hpre) hlen
  refine ⟨root', t, hrun, h.caches.represents, h.caches.isRB, h.mem_iff, maxBelow_iff.mp h.good.2,
    fun a ha => h.root_greatest ha, ?_⟩
  rw [rbFirst, rbEnd_spec h.caches.represents .left hheight, rbFirstCached, h.caches.leftmost]
  rfl

/-- Two insertions, the second one to the left of the first and with the greater value, and the removal of the
first node. -/
def someAugOps : List (AugOp (NodeRef → ℕ)) :=
  [.insert (nodeRef 1) 0 .left true fun _ => 84, .insert (nodeRef 0) 16 .left true fun _ => 92,
    .erase (nodeRef 0)]

/-- An empty cached root with fields. -/
def emptyAugmented : RbRootCached (NodeRef → ℕ) := ⟨⟨fun _ => ⟨0, 0, 0⟩, 0, fun _ => 0⟩, 0⟩

theorem someAugOps_valid :
    ValidAugRun (rbDeclareCallbacksMax 4 fun a => 100 - a.val) (maxInvariant fun a => 100 - a.val) 4
      emptyAugmented someAugOps := by
  have hkeeps := rbDeclareCallbacksMax_keeps (fun a : NodeRef => 100 - a.val) 4
  have hgood₀ : (maxInvariant fun a : NodeRef => 100 - a.val).Good nil emptyAugmented.mem.aug :=
    ⟨List.nodup_nil, trivial⟩
  have hgood₁ : (maxInvariant fun a : NodeRef => 100 - a.val).Good
      (plug [] (.node .red .nil (nodeRef 1) .nil)) fun _ => 84 := by
    refine ⟨by decide, ?_⟩
    simp [plug, MaxBelow, top, nodeRef]
  have hgood₂ : (maxInvariant fun a : NodeRef => 100 - a.val).Good
      (plug [⟨.left, .black, nodeRef 1, .nil⟩] (.node .red .nil (nodeRef 0) .nil)) fun _ => 92 := by
    refine ⟨by decide, ?_⟩
    simp [plug, Frame.fill, nodeAt, MaxBelow, top, nodeRef]
    decide
  have h₀ : Augmented (maxInvariant fun a : NodeRef => 100 - a.val) emptyAugmented (plug [] .nil) ∅ :=
    ⟨⟨⟨rfl, Owns.zero _⟩, ⟨rfl, 0, rfl⟩, rfl⟩, hgood₀, by simp [plug, toList]⟩
  refine ⟨⟨_, h₀.caches.represents, [], rfl, rfl, rfl, by decide, by decide, hgood₁⟩, fun r₁ e₁ => ?_⟩
  have h₁ : Augmented (maxInvariant fun a : NodeRef => 100 - a.val) r₁
      (plug [⟨.left, .black, nodeRef 1, .nil⟩] .nil) {nodeRef 1} :=
    (h₀.insert hkeeps (by decide) (by decide) hgood₁ (by decide)).of_ok e₁
  refine ⟨⟨_, h₁.caches.represents, _, rfl, rfl, rfl, by decide, by decide, hgood₂⟩, fun r₂ e₂ => ?_⟩
  have h₂ := (h₁.insert hkeeps (by decide) (by decide) hgood₂ (by decide)).of_ok e₂
  exact ⟨⟨_, h₂.caches.represents, show nodeRef 0 ∈ _ by decide⟩, fun _ _ => trivial⟩

theorem runAugmented_max_ops :
    ∃ root' t, runAugmented (rbDeclareCallbacksMax 4 fun a => 100 - a.val) 4 emptyAugmented someAugOps =
        .ok root' ∧
      Represents root'.mem t ∧ t.IsRB ∧ (∀ a, a ∈ t.toList ↔ a ∈ augLinkedAfter ∅ someAugOps) ∧
      EachMax (fun a => 100 - a.val) root'.mem.aug t ∧
      (∀ a : NodeRef, root'.mem.rbNode = a →
        IsGreatest {x | ∃ b ∈ augLinkedAfter ∅ someAugOps, 100 - b.val = x} (root'.mem.aug a)) ∧
      rbFirst 4 root'.mem = .ok (rbFirstCached root') :=
  runAugmented_max (fun a => 100 - a.val) rfl someAugOps_valid (by decide) (List.prefix_refl _)

end CcUtils.Rbtree
