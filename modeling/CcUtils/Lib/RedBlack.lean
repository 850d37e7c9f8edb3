import Mathlib.Data.List.Basic
import Mathlib.Tactic.Linarith
import Mathlib.Tactic.Tauto

/-!
# Red-black trees and their contexts

A library of red-black trees as values: the trees, the contexts a subtree can stand in (the path
from it up to the root, with the siblings hanging off), and the two ways of repairing a tree in
which one subtree is at fault, by recolouring and rotating on the way up. A program that works
on a tree in memory by parent pointers moves along such a context.

Everything that comes in a left and a right form is stated once, for a direction: `RBTree.nodeAt d c x
a y` is the node with the child `x` on side `d`.

## What is proved

* `isRB_plug_iff` — a tree is red-black exactly when a subtree and its context fit together.
* `insertFix_isRB`, `insertFix_toList` — the repair after a red node took the place of a leaf.
* `deleteFix_isRB`, `deleteFix_toList` — the repair after a black node was taken out.
* `eraseAt_isRB`, `eraseAt_toList` — taking out any node.
* `IsRB.height_bound` — `2 ^ height ≤ (size + 1) ^ 2`.
-/

namespace CcUtils.Lib.RedBlack

/-! ### Trees -/

/-- The colour of a node. -/
inductive Color where
  | red
  | black
  deriving DecidableEq, Repr

theorem Color.eq_black {c : Color} (h : c ≠ .red) : c = .black := by cases c <;> trivial

theorem Color.eq_red {c : Color} (h : c ≠ .black) : c = .red := by cases c <;> trivial

/-- The number of black nodes a node of this colour adds. -/
def Color.weight : Color → ℕ
  | .red => 0
  | .black => 1

/-- A side of a node. -/
inductive Dir where
  | left
  | right
  deriving DecidableEq, Repr

/-- The other side. -/
def Dir.flip : Dir → Dir
  | .left => .right
  | .right => .left

@[simp] theorem Dir.flip_ne (d : Dir) : d.flip ≠ d := by cases d <;> decide

@[simp] theorem Dir.ne_flip (d : Dir) : d ≠ d.flip := by cases d <;> decide

theorem Dir.eq_flip_of_ne {d e : Dir} (h : d ≠ e) : d = e.flip := by
  cases d <;> cases e <;> first | rfl | exact absurd rfl h

/-- A binary tree with coloured nodes. -/
inductive RBTree (α : Type) where
  | nil
  | node (c : Color) (l : RBTree α) (a : α) (r : RBTree α)
  deriving DecidableEq, Repr

namespace RBTree

variable {α : Type}

/-- The node with the child `x` on side `d` and the child `y` on the other. -/
def nodeAt (d : Dir) (c : Color) (x : RBTree α) (a : α) (y : RBTree α) : RBTree α :=
  match d with
  | .left => .node c x a y
  | .right => .node c y a x

/-- The child on side `d`. -/
def child (d : Dir) : RBTree α → RBTree α
  | .nil => .nil
  | .node _ l _ r => match d with
    | .left => l
    | .right => r

/-- The colour of the root; leaves are black. -/
def color : RBTree α → Color
  | .nil => .black
  | .node c _ _ _ => c

/-- The tree with its root given a colour. -/
def recolor (c : Color) : RBTree α → RBTree α
  | .nil => .nil
  | .node _ l a r => .node c l a r

/-- The items in order. -/
def toList : RBTree α → List α
  | .nil => []
  | .node _ l a r => l.toList ++ a :: r.toList

/-- The number of nodes. -/
def size : RBTree α → ℕ
  | .nil => 0
  | .node _ l _ r => l.size + 1 + r.size

/-- The number of nodes on the longest path down. -/
def height : RBTree α → ℕ
  | .nil => 0
  | .node _ l _ r => max l.height r.height + 1

/-- Every path down has `n` black nodes, and no red node has a red child. -/
def Bal : RBTree α → ℕ → Prop
  | .nil, n => n = 0
  | .node .red l _ r, n => l.Bal n ∧ r.Bal n ∧ l.color = .black ∧ r.color = .black
  | .node .black l _ r, n => ∃ k, n = k + 1 ∧ l.Bal k ∧ r.Bal k

/-- A red-black tree: balanced, with a black root. -/
def IsRB (t : RBTree α) : Prop := t.color = .black ∧ ∃ n, t.Bal n

@[simp] theorem node_ne_nil (c : Color) (l : RBTree α) (a : α) (r : RBTree α) :
    node c l a r ≠ nil := fun h => nomatch h

@[simp] theorem color_nil : (nil : RBTree α).color = .black := rfl

@[simp] theorem color_node (c : Color) (l : RBTree α) (a : α) (r : RBTree α) :
    (node c l a r).color = c := rfl

@[simp] theorem color_nodeAt (d : Dir) (c : Color) (x : RBTree α) (a : α) (y : RBTree α) :
    (nodeAt d c x a y).color = c := by cases d <;> rfl

@[simp] theorem nodeAt_ne_nil (d : Dir) (c : Color) (x : RBTree α) (a : α) (y : RBTree α) :
    nodeAt d c x a y ≠ nil := by cases d <;> exact fun h => nomatch h

/-- A node seen from any side. -/
theorem node_eq_nodeAt (d : Dir) (c : Color) (l : RBTree α) (a : α) (r : RBTree α) :
    node c l a r = nodeAt d c ((node c l a r).child d) a ((node c l a r).child d.flip) := by
  cases d <;> rfl

/-- A tree that is not a leaf, seen from any side. -/
theorem exists_nodeAt (d : Dir) {t : RBTree α} (h : t ≠ nil) : ∃ x a y, t = nodeAt d t.color x a y := by
  cases t with
  | nil => exact absurd rfl h
  | node c l a r => exact ⟨_, a, _, node_eq_nodeAt d c l a r⟩

/-- A red tree is a node. -/
theorem exists_nodeAt_red (d : Dir) {t : RBTree α} (h : t.color = .red) : ∃ x a y, t = nodeAt d .red x a y := by
  have hne : t ≠ nil := by rintro rfl; cases h
  obtain ⟨x, a, y, ht⟩ := exists_nodeAt d hne
  exact ⟨x, a, y, by rw [← h]; exact ht⟩

@[simp] theorem recolor_nil (c : Color) : (nil : RBTree α).recolor c = nil := rfl

@[simp] theorem recolor_nodeAt (d : Dir) (c c' : Color) (x : RBTree α) (a : α) (y : RBTree α) :
    (nodeAt d c x a y).recolor c' = nodeAt d c' x a y := by cases d <;> rfl

@[simp] theorem recolor_self (t : RBTree α) : t.recolor t.color = t := by cases t <;> rfl

theorem recolor_of_color {t : RBTree α} {c : Color} (h : t.color = c) : t.recolor c = t := by
  rw [← h, recolor_self]

@[simp] theorem toList_recolor (c : Color) (t : RBTree α) : (t.recolor c).toList = t.toList := by
  cases t <;> rfl

@[simp] theorem color_blacken (t : RBTree α) : (t.recolor .black).color = .black := by
  cases t <;> rfl

theorem length_toList (t : RBTree α) : t.toList.length = t.size := by
  induction t with
  | nil => rfl
  | node c l a r ihl ihr =>
    simp only [toList, size, List.length_append, List.length_cons, ihl, ihr]
    omega

/-- A node seen from the other side. -/
theorem nodeAt_flip (d : Dir) (c : Color) (x : RBTree α) (a : α) (y : RBTree α) :
    nodeAt d.flip c x a y = nodeAt d c y a x := by cases d <;> rfl

/-- The tree without its colours. -/
def bare : RBTree α → RBTree α
  | .nil => .nil
  | .node _ l a r => .node .red l.bare a r.bare

@[simp] theorem bare_nodeAt (d : Dir) (c : Color) (x : RBTree α) (a : α) (y : RBTree α) :
    (nodeAt d c x a y).bare = nodeAt d .red x.bare a y.bare := by cases d <;> rfl

@[simp] theorem bare_recolor (c : Color) (t : RBTree α) : (t.recolor c).bare = t.bare := by
  cases t <;> rfl

/-! ### Balance -/

/-- A node is balanced when its children are, and a red one has black children. -/
theorem bal_nodeAt (d : Dir) (c : Color) (x : RBTree α) (a : α) (y : RBTree α) (n : ℕ) :
    (nodeAt d c x a y).Bal n ↔ ∃ k, n = k + c.weight ∧ x.Bal k ∧ y.Bal k ∧
      (c = .red → x.color = .black ∧ y.color = .black) := by
  cases d <;> cases c <;> simp only [nodeAt, Bal, Color.weight, Nat.add_zero, exists_eq_left', true_imp_iff,
    reduceCtorEq, false_imp_iff, and_true]
  · exact ⟨fun ⟨hy, hx, hcy, hcx⟩ => ⟨hx, hy, hcx, hcy⟩, fun ⟨hx, hy, hcx, hcy⟩ => ⟨hy, hx, hcy, hcx⟩⟩
  · exact exists_congr fun k => and_congr_right fun _ => and_comm

theorem bal_node (c : Color) (l : RBTree α) (a : α) (r : RBTree α) (n : ℕ) :
    (node c l a r).Bal n ↔ ∃ k, n = k + c.weight ∧ l.Bal k ∧ r.Bal k ∧
      (c = .red → l.color = .black ∧ r.color = .black) :=
  bal_nodeAt .left c l a r n

/-- A tree without black nodes on its paths that has a node at all is one red node. -/
theorem Bal.eq_of_zero {t : RBTree α} (h : t.Bal 0) (hne : t ≠ nil) :
    ∃ a, t = node .red nil a nil := by
  cases t with
  | nil => exact absurd rfl hne
  | node c l a r =>
    obtain ⟨k, hk, hl, hr, hc⟩ := (bal_node c l a r 0).mp h
    cases c with
    | black => exact absurd hk (by simp [Color.weight])
    | red =>
      obtain rfl : k = 0 := by simpa [Color.weight] using hk.symm
      obtain ⟨hcl, hcr⟩ := hc rfl
      cases l with
      | node c' l' a' r' =>
        obtain rfl : c' = .black := hcl
        obtain ⟨j, hj, -⟩ := hl
        exact absurd hj (by omega)
      | nil =>
        cases r with
        | node c' l' a' r' =>
          obtain rfl : c' = .black := hcr
          obtain ⟨j, hj, -⟩ := hr
          exact absurd hj (by omega)
        | nil => exact ⟨a, rfl⟩

/-- Blackening the root of a balanced tree keeps it balanced. -/
theorem Bal.blacken {t : RBTree α} {n : ℕ} (h : t.Bal n) : ∃ m, (t.recolor .black).Bal m := by
  cases t with
  | nil => exact ⟨n, h⟩
  | node c l a r =>
    obtain ⟨k, -, hl, hr, -⟩ := (bal_node c l a r n).mp h
    exact ⟨k + 1, k, rfl, hl, hr⟩

/-! ### The height -/

theorem height_le_size (t : RBTree α) : t.height ≤ t.size := by
  induction t with
  | nil => exact le_refl 0
  | node c l a r ihl ihr =>
    simp only [height, size]
    omega

/-- A tree is no higher than it has nodes. -/
theorem height_le_length (t : RBTree α) : t.height ≤ t.toList.length := by
  rw [length_toList]
  exact t.height_le_size

theorem Bal.pow_le_size {t : RBTree α} {n : ℕ} (h : t.Bal n) : 2 ^ n ≤ t.size + 1 := by
  induction t generalizing n with
  | nil => obtain rfl : n = 0 := h; simp [size]
  | node c l a r ihl ihr =>
    obtain ⟨k, rfl, hl, hr, -⟩ := (bal_node c l a r n).mp h
    have h1 := ihl hl
    have h2 := ihr hr
    cases c
    · simp only [Color.weight, size, Nat.add_zero]
      omega
    · simp only [Color.weight, size, pow_succ]
      omega

theorem Bal.height_le {t : RBTree α} {n : ℕ} (h : t.Bal n) :
    t.height ≤ 2 * n + (1 - t.color.weight) := by
  induction t generalizing n with
  | nil => simp [height]
  | node c l a r ihl ihr =>
    obtain ⟨k, rfl, hl, hr, hc⟩ := (bal_node c l a r n).mp h
    have h1 := ihl hl
    have h2 := ihr hr
    cases c
    · obtain ⟨hcl, hcr⟩ := hc rfl
      simp only [height, hcl, hcr, Color.weight, color_node] at h1 h2 ⊢
      omega
    · simp only [height, Color.weight, color_node] at h1 h2 ⊢
      omega

/-- The height of a red-black tree is at most twice the logarithm of its size. -/
theorem IsRB.height_bound {t : RBTree α} (h : t.IsRB) : 2 ^ t.height ≤ (t.size + 1) ^ 2 := by
  obtain ⟨hc, n, hn⟩ := h
  have hle := hn.height_le
  rw [hc] at hle
  calc 2 ^ t.height ≤ 2 ^ (n * 2) := Nat.pow_le_pow_right (by omega) (by simpa [Color.weight, mul_comm] using hle)
    _ = (2 ^ n) ^ 2 := pow_mul 2 n 2
    _ ≤ (t.size + 1) ^ 2 := Nat.pow_le_pow_left hn.pow_le_size 2

end RBTree

open CcUtils.Lib.RedBlack.RBTree

variable {α : Type}

/-! ### Contexts -/

/-- One step of the way from a subtree to the root: the subtree is the child on side `dir` of a
node, whose other child is `sib`. -/
structure Frame (α : Type) where
  dir : Dir
  color : Color
  item : α
  sib : RBTree α

/-- The node of a frame, with its missing child put in. -/
def Frame.fill (f : Frame α) (t : RBTree α) : RBTree α := nodeAt f.dir f.color t f.item f.sib

/-- The whole tree around a subtree; the innermost frame comes first. -/
def plug : List (Frame α) → RBTree α → RBTree α
  | [], t => t
  | f :: fs, t => plug fs (f.fill t)

/-- The items left of the hole. -/
def before : List (Frame α) → List α
  | [] => []
  | ⟨.left, _, _, _⟩ :: fs => before fs
  | ⟨.right, _, a, s⟩ :: fs => before fs ++ (s.toList ++ [a])

/-- The items right of the hole. -/
def after : List (Frame α) → List α
  | [] => []
  | ⟨.left, _, a, s⟩ :: fs => a :: s.toList ++ after fs
  | ⟨.right, _, _, _⟩ :: fs => after fs

/-- The colour of the node above the hole; a root has nothing above it and must be black, as if a
red node stood there. -/
def ctxColor : List (Frame α) → Color
  | [] => .red
  | f :: _ => f.color

/-- The context takes a subtree with `n` black nodes on each path. -/
def CtxBal : List (Frame α) → ℕ → Prop
  | [], _ => True
  | f :: fs, n => f.sib.Bal n ∧ (f.color = .red → f.sib.color = .black ∧ ctxColor fs = .black) ∧
      CtxBal fs (n + f.color.weight)

theorem plug_append (fs gs : List (Frame α)) (t : RBTree α) :
    plug (fs ++ gs) t = plug gs (plug fs t) := by
  induction fs generalizing t with
  | nil => rfl
  | cons f fs ih => exact ih _

theorem toList_plug (fs : List (Frame α)) (t : RBTree α) :
    (plug fs t).toList = before fs ++ (t.toList ++ after fs) := by
  induction fs generalizing t with
  | nil => simp [plug, before, after]
  | cons f fs ih =>
    obtain ⟨d, c, a, s⟩ := f
    cases d <;> simp [plug, Frame.fill, nodeAt, toList, before, after, ih]

/-- A context around two trees that differ in their colours only. -/
theorem bare_plug {t u : RBTree α} (h : t.bare = u.bare) (fs : List (Frame α)) :
    (plug fs t).bare = (plug fs u).bare := by
  induction fs generalizing t u with
  | nil => exact h
  | cons f fs ih =>
    apply ih
    rw [Frame.fill, Frame.fill, bare_nodeAt, bare_nodeAt, h]

/-- The frames of a context lie on one way down. -/
theorem length_add_height_le (fs : List (Frame α)) (t : RBTree α) :
    fs.length + t.height ≤ (plug fs t).height := by
  induction fs generalizing t with
  | nil => simp [plug]
  | cons f fs ih =>
    have h : t.height + 1 ≤ (f.fill t).height := by
      obtain ⟨d, c, a, s⟩ := f
      cases d <;> simp [Frame.fill, nodeAt, height]
    have := ih (f.fill t)
    rw [List.length_cons, plug]
    omega

theorem before_append (fs gs : List (Frame α)) : before (fs ++ gs) = before gs ++ before fs := by
  induction fs with
  | nil => simp [before]
  | cons f fs ih =>
    obtain ⟨d, c, a, s⟩ := f
    cases d <;> simp [before, ih]

theorem after_append (fs gs : List (Frame α)) : after (fs ++ gs) = after fs ++ after gs := by
  induction fs with
  | nil => simp [after]
  | cons f fs ih =>
    obtain ⟨d, c, a, s⟩ := f
    cases d <;> simp [after, ih]

/-- The place of an item. -/
theorem exists_plug_of_mem {t : RBTree α} {a : α} (h : a ∈ t.toList) (fs : List (Frame α)) :
    ∃ gs c l r, plug gs (node c l a r) = plug fs t := by
  induction t generalizing fs with
  | nil => exact nomatch h
  | node c l b r ihl ihr =>
    rcases List.mem_append.mp h with h | h
    · exact ihl h (⟨.left, c, b, r⟩ :: fs)
    · rcases List.mem_cons.mp h with rfl | h
      · exact ⟨fs, c, l, r, rfl⟩
      · exact ihr h (⟨.right, c, b, l⟩ :: fs)

/-- A tree is red-black exactly when the subtree is balanced and the context takes it. -/
theorem isRB_plug_iff (fs : List (Frame α)) (t : RBTree α) :
    (plug fs t).IsRB ↔
      ∃ n, t.Bal n ∧ CtxBal fs n ∧ (t.color = .red → ctxColor fs = .black) := by
  induction fs generalizing t with
  | nil =>
    simp only [plug, IsRB, CtxBal, ctxColor, true_and, exists_and_right, reduceCtorEq, imp_false]
    constructor
    · rintro ⟨hc, n, hn⟩
      exact ⟨⟨n, hn⟩, by rw [hc]; decide⟩
    · rintro ⟨⟨n, hn⟩, hc⟩
      exact ⟨Color.eq_black hc, n, hn⟩
  | cons f fs ih =>
    simp only [plug, ih, Frame.fill, bal_nodeAt, color_nodeAt, CtxBal, ctxColor]
    constructor
    · rintro ⟨n, ⟨k, rfl, ht, hs, hc⟩, hctx, hred⟩
      refine ⟨k, ht, ⟨hs, fun h => ⟨(hc h).2, hred h⟩, hctx⟩, fun h => ?_⟩
      exact Color.eq_black fun hf => nomatch (hc hf).1.symm.trans h
    · rintro ⟨n, ht, ⟨hs, hc, hctx⟩, hred⟩
      refine ⟨n + f.color.weight, ⟨n, rfl, ht, hs, fun h => ⟨?_, (hc h).1⟩⟩, hctx,
        fun h => (hc h).2⟩
      exact Color.eq_black fun ht' => nomatch h.symm.trans (hred ht')

/-- Balance and colours do not look at the items. -/
theorem isRB_plug_node {fs : List (Frame α)} {c : Color} {l r : RBTree α} {a b : α}
    (h : (plug fs (node c l a r)).IsRB) : (plug fs (node c l b r)).IsRB := by
  obtain ⟨n, hbal, hctx, hred⟩ := (isRB_plug_iff ..).mp h
  exact (isRB_plug_iff ..).mpr ⟨n, (bal_node ..).mpr ((bal_node ..).mp hbal), hctx, hred⟩

/-! ### Repair after an insertion -/

/-- The rotation at the grandparent `g`, for a red node `t` under the red node `p`: one rotation
when `t` is an outer grandchild, two when it is an inner one. -/
def insertRotate (p g : Frame α) (t : RBTree α) : RBTree α :=
  if p.dir = g.dir then
    nodeAt g.dir g.color t p.item (nodeAt g.dir .red (p.sib.recolor .black) g.item g.sib)
  else
    match t with
    | .nil => g.fill (p.fill .nil)
    | .node c l a r =>
      nodeAt g.dir g.color
        (nodeAt g.dir .red p.sib p.item (((node c l a r).child g.dir).recolor .black)) a
        (nodeAt g.dir .red (((node c l a r).child g.dir.flip).recolor .black) g.item g.sib)

theorem insertRotate_outer (d : Dir) (pc gc : Color) (pa ga : α) (ps gs t : RBTree α) :
    insertRotate ⟨d, pc, pa, ps⟩ ⟨d, gc, ga, gs⟩ t =
      nodeAt d gc t pa (nodeAt d .red (ps.recolor .black) ga gs) := if_pos rfl

theorem insertRotate_inner (d : Dir) (pc gc c : Color) (pa ga a : α) (ps gs x y : RBTree α) :
    insertRotate ⟨d.flip, pc, pa, ps⟩ ⟨d, gc, ga, gs⟩ (nodeAt d c x a y) =
      nodeAt d gc (nodeAt d .red ps pa (x.recolor .black)) a
        (nodeAt d .red (y.recolor .black) ga gs) := by
  cases d <;> rfl

/-- The repair on the way up: `t` is a red node that may have a red node above it. -/
def insertFix : List (Frame α) → RBTree α → RBTree α
  | [], t => t.recolor .black
  | [p], t => p.fill t
  | p :: g :: fs, t =>
    if p.color = .black then plug (p :: g :: fs) t
    else if g.sib.color = .red then
      insertFix fs (nodeAt g.dir .red ((p.fill t).recolor .black) g.item (g.sib.recolor .black))
    else plug fs (insertRotate p g t)

theorem insertRotate_toList (p g : Frame α) (t : RBTree α) :
    (insertRotate p g t).toList = (g.fill (p.fill t)).toList := by
  obtain ⟨pd, pc, pa, ps⟩ := p
  obtain ⟨gd, gc, ga, gs⟩ := g
  cases pd <;> cases gd <;> cases t <;>
    simp [insertRotate, Frame.fill, nodeAt, toList, child, Dir.flip]

/-- The repair moves no item. -/
theorem insertFix_toList (fs : List (Frame α)) (t : RBTree α) :
    (insertFix fs t).toList = (plug fs t).toList := by
  induction fs, t using insertFix.induct with
  | case1 t => simp [insertFix, plug]
  | case2 p t => rfl
  | case3 p g fs t h => rw [insertFix, if_pos h]
  | case4 p g fs t h hu ih =>
    rw [insertFix, if_neg h, if_pos hu, ih]
    obtain ⟨gd, gc, ga, gs⟩ := g
    cases gd <;> simp [plug, toList_plug, Frame.fill, nodeAt, toList]
  | case5 p g fs t h hu =>
    rw [insertFix, if_neg h, if_neg hu, toList_plug, insertRotate_toList, ← toList_plug]
    rfl

/-- The rotation makes the subtree at the grandparent balanced and its root black. -/
theorem insertRotate_bal {p g : Frame α} {t : RBTree α} {n : ℕ} (ht : t.Bal n) (htr : t.color = .red)
    (hps : p.sib.Bal n) (hpsc : p.sib.color = .black) (hgs : g.sib.Bal n)
    (hgsc : g.sib.color = .black) (hg : g.color = .black) :
    (insertRotate p g t).Bal (n + 1) ∧ (insertRotate p g t).color = .black := by
  unfold insertRotate
  split
  · refine ⟨?_, by rw [color_nodeAt, hg]⟩
    rw [hg, recolor_of_color hpsc]
    exact (bal_nodeAt ..).mpr ⟨n, rfl, ht, (bal_nodeAt ..).mpr ⟨n, rfl, hps, hgs, fun _ => ⟨hpsc, hgsc⟩⟩,
      fun h => nomatch h⟩
  · cases t with
    | nil => cases htr
    | node c l a r =>
      obtain rfl : c = .red := htr
      rw [node_eq_nodeAt g.dir] at ht
      obtain ⟨k, rfl, hx, hy, hc⟩ := (bal_nodeAt ..).mp ht
      obtain ⟨hxc, hyc⟩ := hc rfl
      refine ⟨?_, by rw [color_nodeAt, hg]⟩
      dsimp only
      rw [hg, recolor_of_color hxc, recolor_of_color hyc]
      exact (bal_nodeAt ..).mpr ⟨n, rfl,
        (bal_nodeAt ..).mpr ⟨n, rfl, hps, hx, fun _ => ⟨hpsc, hxc⟩⟩,
        (bal_nodeAt ..).mpr ⟨n, rfl, hy, hgs, fun _ => ⟨hyc, hgsc⟩⟩, fun h => nomatch h⟩

/-- The repair makes the tree red-black. -/
theorem insertFix_isRB (fs : List (Frame α)) (t : RBTree α) {n : ℕ} (ht : t.Bal n)
    (htr : t.color = .red) (hfs : CtxBal fs n) : (insertFix fs t).IsRB := by
  induction fs, t using insertFix.induct generalizing n with
  | case1 t => exact ⟨color_blacken t, ht.blacken⟩
  | case2 p t =>
    obtain ⟨hs, hc, -⟩ := hfs
    have hp : p.color = .black := Color.eq_black fun h => nomatch (hc h).2
    exact (isRB_plug_iff [p] t).mpr ⟨n, ht, ⟨hs, hc, trivial⟩, fun _ => hp⟩
  | case3 p g fs t h =>
    rw [insertFix, if_pos h]
    exact (isRB_plug_iff ..).mpr ⟨n, ht, hfs, fun _ => h⟩
  | case4 p g fs t h hu ih =>
    rw [insertFix, if_neg h, if_pos hu]
    obtain ⟨hps, hpc, hgs, hgc, hctx⟩ := hfs
    have hp : p.color = .red := Color.eq_red h
    have hg : g.color = .black := (hpc hp).2
    rw [hp] at hgs hctx
    rw [hg] at hctx
    -- both children of the grandparent turn black, and it turns red
    have hpt : ((p.fill t).recolor .black).Bal (n + 1) := by
      rw [Frame.fill, recolor_nodeAt]
      exact (bal_nodeAt ..).mpr ⟨n, rfl, ht, hps, fun h => nomatch h⟩
    have hun : (g.sib.recolor .black).Bal (n + 1) := by
      obtain ⟨x, b, y, hgsib⟩ := exists_nodeAt_red .left hu
      rw [hgsib] at hgs ⊢
      obtain ⟨k, hk, hx, hy, -⟩ := (bal_nodeAt ..).mp hgs
      obtain rfl : n = k := hk
      rw [recolor_nodeAt]
      exact (bal_nodeAt ..).mpr ⟨n, rfl, hx, hy, fun h => nomatch h⟩
    exact ih ((bal_nodeAt ..).mpr ⟨n + 1, rfl, hpt, hun, fun _ => ⟨color_blacken _, color_blacken _⟩⟩)
      (color_nodeAt ..) hctx
  | case5 p g fs t h hu =>
    rw [insertFix, if_neg h, if_neg hu]
    obtain ⟨hps, hpc, hgs, hgc, hctx⟩ := hfs
    have hp : p.color = .red := Color.eq_red h
    obtain ⟨hpsc, hg⟩ := hpc hp
    have hg : g.color = .black := hg
    have huc : g.sib.color = .black := Color.eq_black hu
    rw [hp] at hgs hctx
    rw [hg] at hctx
    obtain ⟨hbal, hcol⟩ := insertRotate_bal ht htr hps hpsc hgs huc hg
    exact (isRB_plug_iff ..).mpr ⟨n + 1, hbal, hctx, fun h => nomatch hcol.symm.trans h⟩

/-! ### Repair after a removal -/

/-- One step of the repair at the frame `f` over the subtree `t`, which has one black node too
few, when the sibling is black: the new subtree, and whether it still has one too few. -/
def deleteBlack (f : Frame α) (t : RBTree α) : RBTree α × Bool :=
  match f.sib with
  | .nil => (f.fill t, true)
  | .node c l s r =>
    let inner := (node c l s r).child f.dir
    let outer := (node c l s r).child f.dir.flip
    if outer.color = .red then
      (nodeAt f.dir f.color (nodeAt f.dir .black t f.item inner) s (outer.recolor .black), false)
    else
      match inner with
      | .node .red il ia ir =>
        (nodeAt f.dir f.color
          (nodeAt f.dir .black t f.item ((node .red il ia ir).child f.dir)) ia
          (nodeAt f.dir .black (((node .red il ia ir).child f.dir.flip).recolor .black) s outer),
          false)
      | _ => (nodeAt f.dir .black t f.item ((node c l s r).recolor .red), f.color = .black)

/-- One step of the repair at the frame `f`. A red sibling is rotated up first, which gives `t` a
black sibling. -/
def deleteStep (f : Frame α) (t : RBTree α) : RBTree α × Bool :=
  match f.sib with
  | .node .red l s r =>
    let inner := (node .red l s r).child f.dir
    let outer := (node .red l s r).child f.dir.flip
    (nodeAt f.dir f.color (deleteBlack ⟨f.dir, .red, f.item, inner.recolor .black⟩ t).1 s outer,
      false)
  | _ => deleteBlack f t

/-- The repair on the way up: every path through `t` has one black node too few. -/
def deleteFix : List (Frame α) → RBTree α → RBTree α
  | [], t => t
  | f :: fs, t =>
    if (deleteStep f t).2 then deleteFix fs (deleteStep f t).1 else plug fs (deleteStep f t).1

section equations

variable (d : Dir) (c b : Color) (a s : α) (inner outer t : RBTree α)

theorem deleteBlack_outer (h : outer.color = .red) :
    deleteBlack ⟨d, c, a, nodeAt d b inner s outer⟩ t =
      (nodeAt d c (nodeAt d .black t a inner) s (outer.recolor .black), false) := by
  cases d <;> exact if_pos h

theorem deleteBlack_inner (h : outer.color ≠ .red) (x y : RBTree α) (i : α) :
    deleteBlack ⟨d, c, a, nodeAt d b (nodeAt d .red x i y) s outer⟩ t =
      (nodeAt d c (nodeAt d .black t a x) i (nodeAt d .black (y.recolor .black) s outer), false) := by
  cases d <;> exact if_neg h

theorem deleteBlack_flip (h : outer.color ≠ .red) (hi : inner.color ≠ .red) :
    deleteBlack ⟨d, c, a, nodeAt d b inner s outer⟩ t =
      (nodeAt d .black t a (nodeAt d .red inner s outer), decide (c = .black)) := by
  rcases inner with _ | ⟨_ | _, il, ia, ir⟩
  · cases d <;> exact if_neg h
  · exact absurd rfl hi
  · cases d <;> exact if_neg h

theorem deleteStep_red :
    deleteStep ⟨d, c, a, nodeAt d .red inner s outer⟩ t =
      (nodeAt d c (deleteBlack ⟨d, .red, a, inner.recolor .black⟩ t).1 s outer, false) := by
  cases d <;> rfl

theorem deleteStep_black {f : Frame α} (h : f.sib.color = .black) (t : RBTree α) :
    deleteStep f t = deleteBlack f t := by
  obtain ⟨d, c, a, s⟩ := f
  rcases s with _ | ⟨_ | _, l, s, r⟩
  · rfl
  · cases h
  · rfl

end equations

/-- The step only goes on above a black node. -/
theorem deleteBlack_color {d : Dir} {c b : Color} {a s : α} {inner outer t : RBTree α}
    (h : (deleteBlack ⟨d, c, a, nodeAt d b inner s outer⟩ t).2 = true) : c = .black := by
  by_cases hor : outer.color = .red
  · rw [deleteBlack_outer _ _ _ _ _ _ _ _ hor] at h
    cases h
  · by_cases hir : inner.color = .red
    · obtain ⟨x, i, y, rfl⟩ := exists_nodeAt_red d hir
      rw [deleteBlack_inner _ _ _ _ _ _ _ hor] at h
      cases h
    · rw [deleteBlack_flip _ _ _ _ _ _ _ _ hor hir] at h
      exact of_decide_eq_true h

theorem deleteBlack_toList (f : Frame α) (t : RBTree α) :
    (deleteBlack f t).1.toList = (f.fill t).toList := by
  obtain ⟨d, c, a, s⟩ := f
  rcases s with _ | ⟨sc, sl, sa, sr⟩
  · rfl
  · unfold deleteBlack
    cases d
    · dsimp only [child, Dir.flip]
      split
      · simp [Frame.fill, nodeAt, toList]
      · rcases sl with _ | ⟨_ | _, il, ia, ir⟩ <;> simp [Frame.fill, nodeAt, toList]
    · dsimp only [child, Dir.flip]
      split
      · simp [Frame.fill, nodeAt, toList]
      · rcases sr with _ | ⟨_ | _, il, ia, ir⟩ <;> simp [Frame.fill, nodeAt, toList]

theorem deleteStep_toList (f : Frame α) (t : RBTree α) :
    (deleteStep f t).1.toList = (f.fill t).toList := by
  unfold deleteStep
  split
  · rename_i l s r hs
    have h := deleteBlack_toList
      ⟨f.dir, .red, f.item, ((node .red l s r).child f.dir).recolor .black⟩ t
    obtain ⟨d, c, a, sib⟩ := f
    obtain rfl : sib = node .red l s r := hs
    cases d <;> simp_all [Frame.fill, nodeAt, toList, child, Dir.flip]
  · exact deleteBlack_toList f t

/-- The repair moves no item. -/
theorem deleteFix_toList (fs : List (Frame α)) (t : RBTree α) :
    (deleteFix fs t).toList = (plug fs t).toList := by
  induction fs generalizing t with
  | nil => rfl
  | cons f fs ih =>
    rw [deleteFix]
    split
    · rw [ih, plug, toList_plug, toList_plug, deleteStep_toList]
    · rw [plug, toList_plug, toList_plug, deleteStep_toList]

/-- What one step of the repair leaves: a balanced subtree with the missing black node put back,
or a black subtree that is still short of it. -/
theorem deleteBlack_bal {f : Frame α} {t : RBTree α} {n : ℕ} (ht : t.Bal n)
    (hs : f.sib.Bal (n + 1)) (hsc : f.sib.color = .black) :
    if (deleteBlack f t).2 then
      (deleteBlack f t).1.Bal (n + 1) ∧ (deleteBlack f t).1.color = .black ∧ f.color = .black
    else (deleteBlack f t).1.Bal (n + 1 + f.color.weight) ∧
      ((deleteBlack f t).1.color = .red → f.color = .red) := by
  obtain ⟨d, c, a, s⟩ := f
  have hne : s ≠ nil := by rintro rfl; cases hs
  obtain ⟨inner, s, outer, rfl⟩ : ∃ x b y, s = nodeAt d .black x b y := by
    rw [← show s.color = .black from hsc]
    exact exists_nodeAt d hne
  obtain ⟨k, hk, hin, hout, -⟩ := (bal_nodeAt ..).mp hs
  obtain rfl : n = k := Nat.succ.inj hk
  by_cases hor : outer.color = .red
  · -- the outer nephew is red
    rw [deleteBlack_outer d c .black a s inner outer t hor]
    obtain ⟨x, b, y, rfl⟩ := exists_nodeAt_red .left hor
    obtain ⟨j, hj, hx, hy, -⟩ := (bal_nodeAt ..).mp hout
    obtain rfl : n = j := hj
    simp only [Bool.false_eq_true, if_false, color_nodeAt, imp_self, and_true, recolor_nodeAt]
    exact (bal_nodeAt ..).mpr ⟨n + 1, rfl,
      (bal_nodeAt ..).mpr ⟨n, rfl, ht, hin, fun h => nomatch h⟩,
      (bal_nodeAt ..).mpr ⟨n, rfl, hx, hy, fun h => nomatch h⟩,
      fun _ => ⟨color_nodeAt .., color_nodeAt ..⟩⟩
  · by_cases hir : inner.color = .red
    · -- the inner nephew is red
      obtain ⟨x, i, y, rfl⟩ := exists_nodeAt_red d hir
      obtain ⟨j, hj, hx, hy, hc⟩ := (bal_nodeAt ..).mp hin
      obtain rfl : n = j := hj
      rw [deleteBlack_inner d c .black a s outer t hor, recolor_of_color (hc rfl).2]
      simp only [Bool.false_eq_true, if_false, color_nodeAt, imp_self, and_true]
      exact (bal_nodeAt ..).mpr ⟨n + 1, rfl,
        (bal_nodeAt ..).mpr ⟨n, rfl, ht, hx, fun h => nomatch h⟩,
        (bal_nodeAt ..).mpr ⟨n, rfl, hy, hout, fun h => nomatch h⟩,
        fun _ => ⟨color_nodeAt .., color_nodeAt ..⟩⟩
    · -- both nephews are black: the sibling turns red
      rw [deleteBlack_flip d c .black a s inner outer t hor hir]
      have hsib : (nodeAt d .red inner s outer).Bal n :=
        (bal_nodeAt ..).mpr ⟨n, rfl, hin, hout, fun _ => ⟨Color.eq_black hir, Color.eq_black hor⟩⟩
      have hu : (nodeAt d .black t a (nodeAt d .red inner s outer)).Bal (n + 1) :=
        (bal_nodeAt ..).mpr ⟨n, rfl, ht, hsib, fun h => nomatch h⟩
      cases c
      · exact ⟨hu, fun _ => rfl⟩
      · exact ⟨hu, color_nodeAt .., rfl⟩

theorem deleteStep_bal {f : Frame α} {t : RBTree α} {n : ℕ} (ht : t.Bal n)
    (hs : f.sib.Bal (n + 1)) (hc : f.color = .red → f.sib.color = .black) :
    if (deleteStep f t).2 then
      (deleteStep f t).1.Bal (n + 1) ∧ (deleteStep f t).1.color = .black ∧ f.color = .black
    else (deleteStep f t).1.Bal (n + 1 + f.color.weight) ∧
      ((deleteStep f t).1.color = .red → f.color = .red) := by
  by_cases hsc : f.sib.color = .red
  · obtain ⟨d, c, a, s⟩ := f
    obtain ⟨inner, s, outer, rfl⟩ := exists_nodeAt_red d hsc
    have hcb : c = .black := Color.eq_black fun h => nomatch hsc.symm.trans (hc h)
    obtain ⟨j, hj, hin, hout, hio⟩ := (bal_nodeAt ..).mp hs
    obtain rfl : n + 1 = j := hj
    obtain ⟨hinc, houtc⟩ := hio rfl
    rw [deleteStep_red, recolor_of_color hinc]
    have h := deleteBlack_bal (f := ⟨d, .red, a, inner⟩) ht hin hinc
    generalize deleteBlack ⟨d, .red, a, inner⟩ t = u at h
    obtain ⟨u, _ | _⟩ := u
    · refine ⟨(bal_nodeAt ..).mpr ⟨n + 1, rfl, h.1, hout, fun h' => nomatch hcb.symm.trans h'⟩,
        fun h' => ?_⟩
      rwa [color_nodeAt] at h'
    · exact nomatch h.2.2
  · rw [deleteStep_black (Color.eq_black hsc)]
    exact deleteBlack_bal ht hs (Color.eq_black hsc)

/-- The repair makes the tree red-black. -/
theorem deleteFix_isRB (fs : List (Frame α)) (t : RBTree α) {n : ℕ} (ht : t.Bal n)
    (htc : t.color = .black) (hfs : CtxBal fs (n + 1)) : (deleteFix fs t).IsRB := by
  induction fs generalizing t n with
  | nil => exact ⟨htc, n, ht⟩
  | cons f fs ih =>
    obtain ⟨hs, hc, hctx⟩ := hfs
    have h := deleteStep_bal ht hs fun hf => (hc hf).1
    rw [deleteFix]
    split
    · rename_i hd
      rw [if_pos hd] at h
      obtain ⟨hu, huc, hf⟩ := h
      rw [hf] at hctx
      exact ih _ hu huc hctx
    · rename_i hd
      rw [if_neg hd] at h
      exact (isRB_plug_iff ..).mpr ⟨_, h.1, hctx, fun h' => (hc (h.2 h')).2⟩

/-! ### Removal -/

/-- The leftmost node of a tree, with the way to it. -/
structure Leftmost (α : Type) where
  path : List (Frame α)
  color : Color
  item : α
  right : RBTree α

/-- Go left from a node as far as there are left children. -/
def leftmost (path : List (Frame α)) (c : Color) : RBTree α → α → RBTree α → Leftmost α
  | .nil, a, r => ⟨path, c, a, r⟩
  | .node lc ll la lr, a, r => leftmost (⟨.left, c, a, r⟩ :: path) lc ll la lr

theorem plug_leftmost (path : List (Frame α)) (c : Color) (l : RBTree α) (a : α) (r : RBTree α) :
    plug (leftmost path c l a r).path
      (node (leftmost path c l a r).color nil (leftmost path c l a r).item
        (leftmost path c l a r).right) = plug path (node c l a r) := by
  induction l generalizing path c a r with
  | nil => rfl
  | node lc ll la lr ihl _ => exact ihl (⟨.left, c, a, r⟩ :: path) lc la lr

/-- The way to the leftmost node ends with a step to the left. -/
theorem exists_leftmost_path (f : Frame α) (path : List (Frame α)) (c : Color) (l : RBTree α)
    (a : α) (r : RBTree α) (hf : f.dir = .left) :
    ∃ g gs, (leftmost (f :: path) c l a r).path = g :: gs ∧ g.dir = .left := by
  induction l generalizing f path c a r with
  | nil => exact ⟨f, path, rfl, hf⟩
  | node lc ll la lr ihl _ => exact ihl ⟨.left, c, a, r⟩ (f :: path) lc la lr rfl

theorem before_leftmost (path : List (Frame α)) (c : Color) (l : RBTree α) (a : α) (r : RBTree α) :
    before (leftmost path c l a r).path = before path := by
  induction l generalizing path c a r with
  | nil => rfl
  | node lc ll la lr ihl _ => exact ihl (⟨.left, c, a, r⟩ :: path) lc la lr

/-- Take out a node of colour `c` with the one child `t`, or with no child; a child gets the
colour `c'`. -/
def spliceOut (fs : List (Frame α)) (c c' : Color) (t : RBTree α) : RBTree α :=
  match t with
  | .nil => if c = .black then deleteFix fs nil else plug fs nil
  | .node .. => plug fs (t.recolor c')

/-- Take out the node with the given colour and children. A node with two children is replaced by
its successor, which is taken out of its own place. -/
def eraseAt (fs : List (Frame α)) (c : Color) (l r : RBTree α) : RBTree α :=
  match l, r with
  | .nil, r => spliceOut fs c c r
  | l, .nil => spliceOut fs c c l
  | l, .node rc rl ra rr =>
    let m := leftmost [] rc rl ra rr
    spliceOut (m.path ++ ⟨.right, c, m.item, l⟩ :: fs) m.color .black m.right

theorem spliceOut_toList (fs : List (Frame α)) (c c' : Color) (t : RBTree α) :
    (spliceOut fs c c' t).toList = before fs ++ (t.toList ++ after fs) := by
  unfold spliceOut
  split
  · split
    · rw [deleteFix_toList, toList_plug]
    · rw [toList_plug]
  · rw [toList_plug, toList_recolor]

/-- Only the erased item goes. -/
theorem eraseAt_toList (fs : List (Frame α)) (c : Color) (l r : RBTree α) :
    (eraseAt fs c l r).toList = before fs ++ (l.toList ++ (r.toList ++ after fs)) := by
  unfold eraseAt
  split
  · simp [spliceOut_toList, toList]
  · simp [spliceOut_toList, toList]
  · rename_i rc rl ra rr hl
    have h := congrArg toList (plug_leftmost [] rc rl ra rr)
    have hb : before (leftmost [] rc rl ra rr).path = [] := before_leftmost ..
    simp only [toList_plug, plug, toList, hb, List.nil_append] at h
    simp only [spliceOut_toList, before_append, after_append, before, after, toList, hb, ← h,
      List.append_assoc, List.cons_append, List.nil_append]

/-- Taking out a node that has a child on at most one side. -/
theorem spliceOut_isRB {fs : List (Frame α)} {d : Dir} {c c' : Color} {a : α} {t : RBTree α}
    (h : (plug fs (nodeAt d c nil a t)).IsRB) (hc' : c' = c ∨ c' = .black) :
    (spliceOut fs c c' t).IsRB := by
  obtain ⟨n, hbal, hctx, hred⟩ := (isRB_plug_iff ..).mp h
  obtain ⟨k, rfl, hnil, ht, hc⟩ := (bal_nodeAt ..).mp hbal
  obtain rfl : k = 0 := hnil
  rw [color_nodeAt] at hred
  unfold spliceOut
  split
  · cases c
    · exact (isRB_plug_iff ..).mpr ⟨0, rfl, hctx, fun h => nomatch h⟩
    · exact deleteFix_isRB fs nil rfl rfl hctx
  · -- the only child is a red node, so the node is black
    obtain ⟨b, hb⟩ := ht.eq_of_zero (fun h => nomatch h)
    have hcb : c = .black := Color.eq_black fun h => by
      have := (hc h).2
      rw [hb] at this
      cases this
    subst hcb
    obtain rfl : c' = .black := by rcases hc' with h | h <;> exact h
    rw [hb]
    exact (isRB_plug_iff ..).mpr ⟨1, ⟨0, rfl, rfl, rfl⟩, hctx, fun h => nomatch h⟩

/-- Balance does not look at the items of the context. -/
theorem isRB_plug_item {fs gs : List (Frame α)} {d : Dir} {c : Color} {a b : α} {s t : RBTree α}
    (h : (plug (fs ++ ⟨d, c, a, s⟩ :: gs) t).IsRB) :
    (plug (fs ++ ⟨d, c, b, s⟩ :: gs) t).IsRB := by
  induction fs generalizing t with
  | nil =>
    obtain ⟨n, ht, hctx, hred⟩ := (isRB_plug_iff ..).mp h
    exact (isRB_plug_iff ..).mpr ⟨n, ht, hctx, hred⟩
  | cons f fs ih => exact ih h

/-- The tree around the successor `m` of a node, which has taken over the node's item. -/
theorem isRB_leftmost {fs : List (Frame α)} {c rc : Color} {l rl rr : RBTree α} {a ra : α}
    (h : (plug fs (node c l a (node rc rl ra rr))).IsRB) :
    (plug ((leftmost [] rc rl ra rr).path ++
        ⟨.right, c, (leftmost [] rc rl ra rr).item, l⟩ :: fs)
      (nodeAt .left (leftmost [] rc rl ra rr).color nil (leftmost [] rc rl ra rr).item
        (leftmost [] rc rl ra rr).right)).IsRB := by
  refine isRB_plug_item (a := a) ?_
  have hm := plug_leftmost [] rc rl ra rr
  rw [plug_append]
  exact (congrArg (fun t => (plug (⟨.right, c, a, l⟩ :: fs) t).IsRB) hm).mpr h

/-- Taking out a node keeps the tree red-black. -/
theorem eraseAt_isRB {fs : List (Frame α)} {c : Color} {l r : RBTree α} {a : α}
    (h : (plug fs (node c l a r)).IsRB) : (eraseAt fs c l r).IsRB := by
  unfold eraseAt
  split
  · exact spliceOut_isRB (d := .left) h (.inl rfl)
  · exact spliceOut_isRB (d := .right) h (.inl rfl)
  · rename_i rc rl ra rr hl
    exact spliceOut_isRB (isRB_leftmost h) (.inr rfl)

/-! ### Insertion -/

/-- The way from the root to the leaf where an item goes that belongs left of the items for which
`lt` holds. -/
def descend (lt : α → Bool) : RBTree α → List (Frame α) → List (Frame α)
  | .nil, fs => fs
  | .node c l a r, fs =>
    if lt a then descend lt l (⟨.left, c, a, r⟩ :: fs)
    else descend lt r (⟨.right, c, a, l⟩ :: fs)

/-- Put a new red node at the place found, and repair. -/
def insertItem (lt : α → Bool) (a : α) (t : RBTree α) : RBTree α :=
  insertFix (descend lt t []) (node .red nil a nil)

theorem plug_descend (lt : α → Bool) (t : RBTree α) (fs : List (Frame α)) :
    plug (descend lt t fs) nil = plug fs t := by
  induction t generalizing fs with
  | nil => rfl
  | node c l a r ihl ihr =>
    unfold descend
    split
    · exact ihl _
    · exact ihr _

theorem length_descend (lt : α → Bool) (t : RBTree α) (fs : List (Frame α)) :
    (descend lt t fs).length ≤ t.height + fs.length := by
  induction t generalizing fs with
  | nil => simp [descend, height]
  | node c l a r ihl ihr =>
    have hl := ihl (⟨.left, c, a, r⟩ :: fs)
    have hr := ihr (⟨.right, c, a, l⟩ :: fs)
    simp only [List.length_cons] at hl hr
    simp only [descend, height]
    split <;> omega

/-- Inserting keeps the tree red-black. -/
theorem insertItem_isRB (lt : α → Bool) (a : α) {t : RBTree α} (h : t.IsRB) : (insertItem lt a t).IsRB := by
  have h' : (plug (descend lt t []) nil).IsRB := by rw [plug_descend]; exact h
  obtain ⟨n, hn, hctx, -⟩ := (isRB_plug_iff ..).mp h'
  obtain rfl : n = 0 := hn
  exact insertFix_isRB _ _ ⟨rfl, rfl, rfl, rfl⟩ rfl hctx

/-- The place found splits the items at the first one for which `lt` holds, when it holds for all
items from there on. -/
theorem descend_split {lt : α → Bool} {t : RBTree α} (fs : List (Frame α))
    (h : t.toList.Pairwise fun x y => lt x → lt y) :
    before (descend lt t fs) = before fs ++ t.toList.filter (fun x => !lt x) ∧
      after (descend lt t fs) = t.toList.filter (fun x => lt x) ++ after fs := by
  induction t generalizing fs with
  | nil => simp [descend, toList]
  | node c l a r ihl ihr =>
    simp only [toList, List.pairwise_append, List.pairwise_cons] at h
    obtain ⟨hl, ⟨har, hr⟩, hlr⟩ := h
    unfold descend
    split
    · rename_i ha
      have hr1 : r.toList.filter (fun x => lt x) = r.toList :=
        List.filter_eq_self.mpr fun x hx => har x hx ha
      have hr2 : r.toList.filter (fun x => !lt x) = [] :=
        List.filter_eq_nil_iff.mpr fun x hx => by simp [har x hx ha]
      obtain ⟨h1, h2⟩ := ihl (⟨.left, c, a, r⟩ :: fs) hl
      simp [h1, h2, before, after, toList, ha, hr1, hr2]
    · rename_i ha
      have hl1 : l.toList.filter (fun x => lt x) = [] :=
        List.filter_eq_nil_iff.mpr fun x hx hx' =>
          ha (hlr x hx a (List.mem_cons_self ..) hx')
      have hl2 : l.toList.filter (fun x => !lt x) = l.toList :=
        List.filter_eq_self.mpr fun x hx => by
          have := List.filter_eq_nil_iff.mp hl1 x hx
          simpa using this
      obtain ⟨h1, h2⟩ := ihr (⟨.right, c, a, l⟩ :: fs) hr
      simp [h1, h2, before, after, toList, ha, hl1, hl2]

/-- The new item comes right before the first item for which `lt` holds. -/
theorem insertItem_toList {lt : α → Bool} (a : α) {t : RBTree α}
    (h : t.toList.Pairwise fun x y => lt x → lt y) :
    (insertItem lt a t).toList =
      t.toList.filter (fun x => !lt x) ++ a :: t.toList.filter (fun x => lt x) := by
  obtain ⟨h1, h2⟩ := descend_split [] h
  simp [insertItem, insertFix_toList, toList_plug, toList, h1, h2, before, after]

/-! ### Comparisons -/

/-- The sign of `cmp` is that of a total preorder. -/
structure TotalPreorder {α : Type} (cmp : α → α → ℤ) : Prop where
  swap : ∀ a b, cmp a b < 0 ↔ 0 < cmp b a
  trans : ∀ a b c, cmp a b ≤ 0 → cmp b c ≤ 0 → cmp a c ≤ 0

theorem TotalPreorder.le_of_not_lt {α : Type} {cmp : α → α → ℤ} (h : TotalPreorder cmp) {a b : α}
    (hab : ¬ cmp a b < 0) : cmp b a ≤ 0 := by
  rw [h.swap] at hab
  omega

theorem TotalPreorder.le_of_eq {α : Type} {cmp : α → α → ℤ} (h : TotalPreorder cmp) {a b : α}
    (hab : cmp a b = 0) : cmp b a ≤ 0 := h.le_of_not_lt (by omega)

/-- In a sorted list, what is less than one item is less than all later ones. -/
theorem TotalPreorder.pairwise_lt {α : Type} {cmp : α → α → ℤ} (h : TotalPreorder cmp) (a : α)
    {xs : List α} (hs : xs.Pairwise fun x y => cmp x y ≤ 0) :
    xs.Pairwise fun x y => cmp a x < 0 → cmp a y < 0 := by
  refine hs.imp fun {x y} hxy hax => ?_
  by_contra hay
  have hxa := h.trans _ _ _ hxy (h.le_of_not_lt hay)
  rw [h.swap] at hax
  omega

/-- The list with `a` right after the last entry that does not compare greater; `xs` is sorted. -/
def placed (cmp : α → α → ℤ) (a : α) (xs : List α) : List α :=
  xs.filter (fun b => !decide (cmp a b < 0)) ++ a :: xs.filter (fun b => decide (cmp a b < 0))

theorem perm_placed (cmp : α → α → ℤ) (a : α) (xs : List α) : (placed cmp a xs).Perm (a :: xs) := by
  refine List.perm_middle.trans (List.Perm.cons a ?_)
  refine List.perm_append_comm.trans ?_
  exact List.filter_append_perm _ xs

/-- A sorted list stays sorted. -/
theorem pairwise_placed {cmp : α → α → ℤ} (hcmp : TotalPreorder cmp) (a : α) {xs : List α}
    (hs : xs.Pairwise fun x y => cmp x y ≤ 0) :
    (placed cmp a xs).Pairwise fun x y => cmp x y ≤ 0 := by
  have hpre : ∀ x ∈ xs.filter (fun b => !decide (cmp a b < 0)), cmp x a ≤ 0 := by
    intro x hx
    exact hcmp.le_of_not_lt (by simpa using (List.mem_filter.mp hx).2)
  have hpost : ∀ x ∈ xs.filter (fun b => decide (cmp a b < 0)), cmp a x ≤ 0 := by
    intro x hx
    exact le_of_lt (by simpa using (List.mem_filter.mp hx).2)
  rw [placed, List.pairwise_append, List.pairwise_cons]
  refine ⟨hs.filter _, ⟨hpost, hs.filter _⟩, fun x hx y hy => ?_⟩
  rcases List.mem_cons.mp hy with rfl | hy
  · exact hpre x hx
  · exact hcmp.trans _ _ _ (hpre x hx) (hpost y hy)

/-- A sorted list is cut in two where the new node goes. -/
theorem placed_split {cmp : α → α → ℤ} (hcmp : TotalPreorder cmp) (a : α) {xs : List α}
    (hs : xs.Pairwise fun x y => cmp x y ≤ 0) :
    ∃ pre post, xs = pre ++ post ∧ placed cmp a xs = pre ++ a :: post ∧
      (∀ x ∈ pre, cmp x a ≤ 0) ∧ ∀ x ∈ post, 0 < cmp x a := by
  refine ⟨xs.filter (fun b => !decide (cmp a b < 0)), xs.filter (fun b => decide (cmp a b < 0)),
    ?_, rfl, fun x hx => ?_, fun x hx => ?_⟩
  · induction xs with
    | nil => rfl
    | cons b xs ih =>
      obtain ⟨hb, hs⟩ := List.pairwise_cons.mp hs
      by_cases hab : cmp a b < 0
      · -- everything from `b` on compares greater
        have hall : ∀ x ∈ xs, cmp a x < 0 := fun x hx => by
          have hp := hcmp.pairwise_lt a (List.pairwise_cons.mpr ⟨hb, hs⟩)
          exact (List.pairwise_cons.mp hp).1 x hx hab
        have h1 : xs.filter (fun b => !decide (cmp a b < 0)) = [] :=
          List.filter_eq_nil_iff.mpr fun x hx => by simp [hall x hx]
        have h2 : xs.filter (fun b => decide (cmp a b < 0)) = xs :=
          List.filter_eq_self.mpr fun x hx => by simp [hall x hx]
        simp [hab, h1, h2]
      · simp only [List.filter_cons, hab, decide_false, Bool.not_false, if_true,
          Bool.false_eq_true, if_false, List.cons_append]
        rw [← ih hs]
  · exact hcmp.le_of_not_lt (by simpa using (List.mem_filter.mp hx).2)
  · exact (hcmp.swap a x).mp (by simpa using (List.mem_filter.mp hx).2)

/-- Inserting by a comparison puts the item into its place. -/
theorem insertItem_placed {cmp : α → α → ℤ} (hcmp : TotalPreorder cmp) (a : α) {t : RBTree α}
    (hs : t.toList.Pairwise fun x y => cmp x y ≤ 0) :
    (insertItem (fun b => cmp a b < 0) a t).toList = placed cmp a t.toList :=
  insertItem_toList a
    ((hcmp.pairwise_lt a hs).imp fun hxy hx => decide_eq_true (hxy (of_decide_eq_true hx)))

/-! ### Search -/

/-- Where the key belongs left of, on and right of the items, in this order. -/
def KeyOrdered (c : α → ℤ) (xs : List α) : Prop :=
  xs.Pairwise fun x y => (0 < c y → 0 < c x) ∧ (c x < 0 → c y < 0)

/-- The search for the first item that compares equal to the key; `c` is the comparison of the key
with an item, `found` the best item so far. -/
def findFirst (c : α → ℤ) : RBTree α → Option α → Option α
  | .nil, found => found
  | .node _ l a r, found =>
    if c a ≤ 0 then findFirst c l (if c a = 0 then some a else found)
    else findFirst c r found

/-- The search finds the first equal item in order. -/
theorem findFirst_eq {c : α → ℤ} {t : RBTree α} (h : KeyOrdered c t.toList) (found : Option α) :
    findFirst c t found = (t.toList.find? fun a => c a = 0).or found := by
  induction t generalizing found with
  | nil => rfl
  | node b l a r ihl ihr =>
    simp only [KeyOrdered, toList, List.pairwise_append, List.pairwise_cons] at h
    obtain ⟨hl, ⟨har, hr⟩, hlr⟩ := h
    rw [findFirst, toList, List.find?_append, List.find?_cons]
    by_cases hle : c a ≤ 0
    · rw [if_pos hle, ihl hl]
      by_cases h0 : c a = 0
      · simp [h0]
      · have hnone : r.toList.find? (fun a => c a = 0) = none := by
          rw [List.find?_eq_none]
          intro x hx
          have := (har x hx).2 (by omega)
          simp only [decide_eq_true_eq]
          omega
        simp [h0, hnone]
    · have hnone : l.toList.find? (fun a => c a = 0) = none := by
        rw [List.find?_eq_none]
        intro x hx
        have := (hlr x hx a (List.mem_cons_self ..)).1 (by omega)
        simp only [decide_eq_true_eq]
        omega
      have h0 : c a ≠ 0 := by omega
      rw [if_neg hle, ihr hr, hnone]
      simp [h0]

/-- A sorted list is ordered with respect to every key. -/
theorem TotalPreorder.keyOrdered {β : Type} {cmp : β → β → ℤ} (h : TotalPreorder cmp) (k : β)
    (f : α → β) {xs : List α} (hs : xs.Pairwise fun x y => cmp (f x) (f y) ≤ 0) :
    KeyOrdered (fun a => cmp k (f a)) xs := by
  refine hs.imp fun {x y} hxy => ⟨fun hy => ?_, fun hx => ?_⟩
  · by_contra hx
    exact absurd hy (not_lt.mpr (h.trans _ _ _ (not_lt.mp hx) hxy))
  · by_contra hy
    have hyk := h.le_of_not_lt hy
    have hxk := h.trans _ _ _ hxy hyk
    exact absurd ((h.swap _ _).mp hx) (not_lt.mpr hxk)

end CcUtils.Lib.RedBlack
