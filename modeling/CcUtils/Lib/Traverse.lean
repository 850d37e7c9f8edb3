import CcUtils.Lib.RedBlack

/-!
# Traversals of a tree

A library of the orders in which a tree is walked: in order from either side, and in post-order.
A program that walks by parent pointers stands at the hole of a context, so each order is split
there: what lies behind the hole, the subtree in it, and what lies ahead.

## What is proved

* `order_plug` — the order from one side, split at a subtree.
* `postorder_plug` — the post-order, split at a subtree.
* `postorder_perm` — the post-order lists the items of the tree.
-/

namespace CcUtils.Lib.RedBlack

open CcUtils.Lib.RedBlack.RBTree

variable {α : Type}

/-! ### In order, from either side -/

/-- The items in order, starting at side `d`. -/
def RBTree.order (d : Dir) (t : RBTree α) : List α :=
  match d with
  | .left => t.toList
  | .right => t.toList.reverse

/-- The items that come after the hole of a context in the order from side `d`. -/
def ahead (d : Dir) (fs : List (Frame α)) : List α :=
  match d with
  | .left => after fs
  | .right => (before fs).reverse

/-- The items that come before the hole of a context in the order from side `d`. -/
def behind (d : Dir) (fs : List (Frame α)) : List α :=
  match d with
  | .left => before fs
  | .right => (after fs).reverse

@[simp] theorem order_nil (d : Dir) : (nil : RBTree α).order d = [] := by cases d <;> rfl

@[simp] theorem order_nodeAt (d : Dir) (c : Color) (x : RBTree α) (a : α) (y : RBTree α) :
    (nodeAt d c x a y).order d = x.order d ++ a :: y.order d := by
  cases d <;> simp [order, nodeAt, toList]

@[simp] theorem ahead_nil (d : Dir) : ahead d ([] : List (Frame α)) = [] := by cases d <;> rfl

@[simp] theorem ahead_same (d : Dir) (c : Color) (a : α) (s : RBTree α) (fs : List (Frame α)) :
    ahead d (⟨d, c, a, s⟩ :: fs) = a :: (s.order d ++ ahead d fs) := by
  cases d <;> simp [ahead, before, after, order]

@[simp] theorem ahead_flip (d : Dir) (c : Color) (a : α) (s : RBTree α) (fs : List (Frame α)) :
    ahead d (⟨d.flip, c, a, s⟩ :: fs) = ahead d fs := by
  cases d <;> simp [ahead, before, after, Dir.flip]

/-- The order from one side, split at a subtree. -/
theorem order_plug (d : Dir) (fs : List (Frame α)) (t : RBTree α) :
    (plug fs t).order d = behind d fs ++ (t.order d ++ ahead d fs) := by
  cases d <;> simp [order, behind, ahead, toList_plug]

theorem mem_order {d : Dir} {t : RBTree α} {a : α} : a ∈ t.order d ↔ a ∈ t.toList := by
  cases d <;> simp [order]

theorem nodup_order {d : Dir} {t : RBTree α} (h : t.toList.Nodup) : (t.order d).Nodup := by
  cases d
  · exact h
  · exact (List.reverse_perm _).nodup_iff.mpr h

theorem order_ne_nil {d : Dir} {t : RBTree α} (h : t ≠ nil) : t.order d ≠ [] := by
  obtain ⟨x, a, y, hx⟩ := exists_nodeAt d h
  rw [hx, order_nodeAt]
  exact List.append_ne_nil_of_right_ne_nil _ (List.cons_ne_nil _ _)

/-! ### Post-order -/

/-- The items in post-order: the left subtree, the right subtree, the node. -/
def RBTree.postorder : RBTree α → List α
  | .nil => []
  | .node _ l a r => l.postorder ++ (r.postorder ++ [a])

/-- The items that come before the hole of a context in post-order. -/
def postBehind : List (Frame α) → List α
  | [] => []
  | ⟨.left, _, _, _⟩ :: fs => postBehind fs
  | ⟨.right, _, _, s⟩ :: fs => postBehind fs ++ s.postorder

/-- The items that come after the hole of a context in post-order. -/
def postAhead : List (Frame α) → List α
  | [] => []
  | ⟨.left, _, a, s⟩ :: fs => s.postorder ++ a :: postAhead fs
  | ⟨.right, _, a, _⟩ :: fs => a :: postAhead fs

/-- The post-order, split at a subtree. -/
theorem postorder_plug (fs : List (Frame α)) (t : RBTree α) :
    (plug fs t).postorder = postBehind fs ++ (t.postorder ++ postAhead fs) := by
  induction fs generalizing t with
  | nil => simp [plug, postBehind, postAhead]
  | cons f fs ih =>
    obtain ⟨d, c, a, s⟩ := f
    cases d <;> simp [plug, Frame.fill, nodeAt, postorder, postBehind, postAhead, ih]

/-- The post-order lists the items of the tree. -/
theorem postorder_perm (t : RBTree α) : t.postorder.Perm t.toList := by
  induction t with
  | nil => exact List.Perm.refl _
  | node c l a r ihl ihr =>
    rw [postorder, toList]
    exact ihl.append ((List.perm_append_singleton a _).trans (ihr.cons a))

theorem mem_postorder {t : RBTree α} {a : α} : a ∈ t.postorder ↔ a ∈ t.toList :=
  (postorder_perm t).mem_iff

/-- Only the empty tree has an empty post-order. -/
theorem postorder_ne_nil {t : RBTree α} (h : t ≠ nil) : t.postorder ≠ [] := by
  cases t with
  | nil => exact absurd rfl h
  | node c l a r => simp [postorder]

/-- What is visited before a node and after it, when no item occurs twice. -/
theorem postorder_place {fs : List (Frame α)} {c : Color} {l r : RBTree α} {a : α}
    {pre post : List α} (hn : (plug fs (.node c l a r)).toList.Nodup)
    (h : (plug fs (.node c l a r)).postorder = pre ++ a :: post) :
    pre = postBehind fs ++ (l.postorder ++ r.postorder) ∧ post = postAhead fs := by
  have e : (plug fs (node c l a r)).postorder =
      (postBehind fs ++ (l.postorder ++ r.postorder)) ++ a :: postAhead fs := by
    simp [postorder_plug, postorder]
  have hnd := (postorder_perm (plug fs (node c l a r))).nodup_iff.mpr hn
  rw [e, List.nodup_append, List.nodup_cons] at hnd
  obtain ⟨-, ⟨hpost, -⟩, hne⟩ := hnd
  have hpre : a ∉ postBehind fs ++ (l.postorder ++ r.postorder) := fun hm =>
    hne a hm a (List.mem_cons_self ..) rfl
  rw [e, List.append_cons_inj_of_notMem hpre hpost] at h
  exact ⟨h.1.symm, h.2.2.symm⟩

end CcUtils.Lib.RedBlack
