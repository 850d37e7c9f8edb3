import CcUtils.Rbtree.Delete

/-!
# Where a new node goes

`rb_add` goes left only where the new node compares less, so it ends right of every node that
compares equal: equal nodes stay in the order in which they were added.

## What is proved

* `rbAdd_places` — the new node comes right after the last node that does not compare greater.
* `addAll_toList` — adding nodes one after the other sorts them, equal ones in the order they came.
-/

namespace CcUtils.Rbtree

open CcUtils.Lib CcUtils.Lib.RedBlack CcUtils.Lib.RedBlack.RBTree

variable {σ : Type} {cmp : NodeRef → NodeRef → ℤ}

/-! ### One node -/

/-- `rb_add` of a node that is not linked returns, and leaves a red-black tree of the old nodes in
their order with the new one right after the last of them that does not compare greater. -/
theorem rbAdd_places (hcmp : TotalPreorder cmp) {m : Mem σ} {t : RBTree NodeRef} {a : NodeRef}
    {fuel : ℕ} (h : Represents m t) (ht : t.IsRB) (hs : t.toList.Pairwise fun x y => cmp x y ≤ 0)
    (ha : a ∉ t.toList) (hfuel : t.toList.length < fuel) :
    ∃ m' t' pre post, rbAdd cmp fuel m a = .ok m' ∧ Represents m' t' ∧ t'.IsRB ∧
      t.toList = pre ++ post ∧ t'.toList = pre ++ a :: post ∧
      (∀ x ∈ pre, cmp x a ≤ 0) ∧ ∀ x ∈ post, 0 < cmp x a := by
  have hheight : t.height < fuel := lt_of_le_of_lt t.height_le_length hfuel
  obtain ⟨m', hrun, t', hrep, hrb, hl⟩ := rbAdd_placed hcmp h ht hs ha hheight
  obtain ⟨pre, post, e, e', hpre, hpost⟩ := placed_split hcmp a hs
  exact ⟨m', t', pre, post, hrun, hrep, hrb, e, hl.trans e', hpre, hpost⟩

theorem rbAdd_places_three :
    ∃ m' t' pre post, rbAdd pairCmp 4 threeNodesMem (nodeRef 3) = .ok m' ∧ Represents m' t' ∧
      t'.IsRB ∧ threeNodes.toList = pre ++ post ∧ t'.toList = pre ++ nodeRef 3 :: post ∧
      (∀ x ∈ pre, pairCmp x (nodeRef 3) ≤ 0) ∧ ∀ x ∈ post, 0 < pairCmp x (nodeRef 3) := by
  have hrb : threeNodes.IsRB := ⟨rfl, 1, by simp [threeNodes, Bal]⟩
  exact rbAdd_places pairCmp_totalPreorder threeNodesMem_represents hrb (by decide) (by decide)
    (by decide)

/-! ### Many nodes -/

/-- `rb_add` of one node after the other. -/
def addAll (cmp : NodeRef → NodeRef → ℤ) (fuel : ℕ) (m : Mem σ) (as : List NodeRef) :
    Exec (Mem σ) := as.foldlM (fun m a => rbAdd cmp fuel m a) m

/-- Adding nodes to a sorted tree puts each into its place. -/
theorem addAll_toList (hcmp : TotalPreorder cmp) {m : Mem σ} {t : RBTree NodeRef}
    {as : List NodeRef} {fuel : ℕ} (h : Represents m t) (ht : t.IsRB)
    (hs : t.toList.Pairwise fun x y => cmp x y ≤ 0) (ha : (t.toList ++ as).Nodup)
    (hfuel : (t.toList ++ as).length < fuel) :
    Post (addAll cmp fuel m as) fun m' => ∃ t', Represents m' t' ∧ t'.IsRB ∧
      t'.toList = as.foldl (fun xs a => placed cmp a xs) t.toList := by
  induction as generalizing m t with
  | nil => exact Post.pure ⟨t, h, ht, rfl⟩
  | cons a as ih =>
    have hnot : a ∉ t.toList := fun hm =>
      (List.nodup_append.mp ha).2.2 a hm a (List.mem_cons_self ..) rfl
    have hheight : t.height < fuel := by
      have hle := t.height_le_length
      rw [List.length_append] at hfuel
      omega
    rw [addAll, List.foldlM_cons]
    refine (rbAdd_placed hcmp h ht hs hnot hheight).bind fun m' h' => ?_
    obtain ⟨t', hrep, hrb, hl⟩ := h'
    have hperm : (t'.toList ++ as).Perm (t.toList ++ a :: as) := by
      rw [hl]
      exact ((perm_placed cmp a t.toList).append_right as).trans List.perm_middle.symm
    rw [List.foldl_cons, ← hl]
    refine ih hrep hrb ?_ (hperm.nodup_iff.mpr ha) ?_
    · rw [hl]
      exact pairwise_placed hcmp a hs
    · rwa [hperm.length_eq]

end CcUtils.Rbtree
