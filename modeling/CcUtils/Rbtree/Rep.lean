import CcUtils.Rbtree.Model
import CcUtils.Lib.Cells

/-!
# Trees in memory

The cells a red-black tree occupies: each node with the word that holds its parent and colour and
its two child pointers. A subtree and the context around it occupy separate cells, so the pieces
can be reasoned about one by one; `State` says which cells are in use and where the root pointer
points, and every access of the model has one rule about it.

## What is proved

* `cells_plug` — the cells of a tree are those of a subtree and those of its context.
* `State.setChild`, `State.setWord`, … — the rules of the accesses.
* `State.changeChild` — `__rb_change_child` puts another subtree into a context.
-/

namespace CcUtils.Rbtree

open CcUtils.Lib CcUtils.Lib.RedBlack CcUtils.Lib.RedBlack.RBTree

/-! ### Parent words -/

/-- The word of a node below `p`. -/
def word (p : ℕ) (c : Color) : ℕ := p ||| rbBit c

theorem word_eq {p : ℕ} (hp : 4 ∣ p) (c : Color) : word p c = p + rbBit c := by
  obtain ⟨k, rfl⟩ := hp
  have hc : rbBit c < 2 ^ 2 := by cases c <;> decide
  rw [word, show 4 * k = 2 ^ 2 * k from rfl, Nat.two_pow_add_eq_or_of_lt hc]

theorem rbParentOf_word {p : ℕ} (hp : 4 ∣ p) (c : Color) : rbParentOf (word p c) = p := by
  rw [word_eq hp, rbParentOf]
  have hc : rbBit c < 4 := by cases c <;> decide
  omega

theorem rbColorOf_word {p : ℕ} (hp : 4 ∣ p) (c : Color) : rbColorOf (word p c) = c := by
  obtain ⟨k, hk⟩ := hp
  rw [word_eq ⟨k, hk⟩, rbColorOf]
  cases c
  · exact if_pos (by simp only [rbBit]; omega)
  · exact if_neg (by simp only [rbBit]; omega)

theorem word_red (p : ℕ) : word p .red = p := Nat.or_zero p

theorem word_or_one (p : ℕ) : word p .red ||| 1 = word p .black := by
  rw [word_red]
  rfl

theorem NodeRef.ne_zero (a : NodeRef) : (a : ℕ) ≠ 0 := a.2.1

theorem NodeRef.dvd (a : NodeRef) : 4 ∣ (a : ℕ) := Nat.dvd_trans (by decide) a.2.2

/-! ### Nodes by sides -/

/-- The node with the child `x` on side `d` and `y` on the other. -/
def rbNode (d : Dir) (w x y : ℕ) : RbNode :=
  match d with
  | .left => ⟨w, y, x⟩
  | .right => ⟨w, x, y⟩

@[simp] theorem child_rbNode (d : Dir) (w x y : ℕ) : (rbNode d w x y).child d = x := by
  cases d <;> rfl

@[simp] theorem child_flip_rbNode (d : Dir) (w x y : ℕ) : (rbNode d w x y).child d.flip = y := by
  cases d <;> rfl

@[simp] theorem parentColor_rbNode (d : Dir) (w x y : ℕ) : (rbNode d w x y).parentColor = w := by
  cases d <;> rfl

@[simp] theorem setChild_rbNode (d : Dir) (v w x y : ℕ) :
    (rbNode d w x y).setChild d v = rbNode d w v y := by cases d <;> rfl

@[simp] theorem setChild_flip_rbNode (d : Dir) (v w x y : ℕ) :
    (rbNode d w x y).setChild d.flip v = rbNode d w x v := by cases d <;> rfl

@[simp] theorem setWord_rbNode (d : Dir) (v w x y : ℕ) :
    (rbNode d w x y).setWord v = rbNode d v x y := by cases d <;> rfl

@[simp] theorem rbLeft_rbNode (w x y : ℕ) : (rbNode .left w x y).rbLeft = x := rfl

@[simp] theorem rbRight_rbNode (w x y : ℕ) : (rbNode .left w x y).rbRight = y := rfl

@[simp] theorem rbRight_rbNode_right (w x y : ℕ) : (rbNode .right w x y).rbRight = x := rfl

theorem rbNode_flip (d : Dir) (w x y : ℕ) : rbNode d.flip w x y = rbNode d w y x := by
  cases d <;> rfl

/-! ### Cells of trees and contexts -/

/-- The cells in use: node addresses and what the nodes hold. -/
abbrev Cells := Multiset (NodeRef × RbNode)

/-- The pointer to a tree. -/
def ptr : RBTree NodeRef → ℕ
  | .nil => 0
  | .node _ _ a _ => a

/-- The cells of a tree whose root hangs below `p`. -/
def cells (p : ℕ) : RBTree NodeRef → Cells
  | .nil => 0
  | .node c l a r => cell a ⟨word p c, ptr r, ptr l⟩ + (cells a l + cells a r)

/-- The parent of the hole of a path that starts below `p`. -/
def segParent (p : ℕ) : List (Frame NodeRef) → ℕ
  | [] => p
  | f :: _ => f.item

/-- The cells of a path that starts below `p` and whose hole holds the pointer `x`. -/
def segCells (p : ℕ) : List (Frame NodeRef) → ℕ → Cells
  | [], _ => 0
  | f :: fs, x => cell f.item (rbNode f.dir (word (segParent p fs) f.color) x (ptr f.sib)) +
      (cells f.item f.sib + segCells p fs f.item)

theorem segCells_cons (p : ℕ) (f : Frame NodeRef) (fs : List (Frame NodeRef)) (x : ℕ) :
    segCells p (f :: fs) x = cell f.item (rbNode f.dir (word (segParent p fs) f.color) x (ptr f.sib)) +
      (cells f.item f.sib + segCells p fs f.item) := rfl

/-- The parent of the hole of a context. -/
def ctxParent (fs : List (Frame NodeRef)) : ℕ := segParent 0 fs

/-- The cells of a context whose hole holds the pointer `x`. -/
def ctxCells (fs : List (Frame NodeRef)) (x : ℕ) : Cells := segCells 0 fs x

/-- The root pointer of a context whose hole holds the pointer `x`. -/
def ctxRoot : List (Frame NodeRef) → ℕ → ℕ
  | [], x => x
  | f :: fs, _ => ctxRoot fs f.item

@[simp] theorem ctxParent_nil : ctxParent [] = 0 := rfl

theorem ctxParent_frame (f : Frame NodeRef) (fs : List (Frame NodeRef)) :
    ctxParent (f :: fs) = f.item := rfl

@[simp] theorem ctxParent_cons (d : Dir) (c : Color) (a : NodeRef) (s : RBTree NodeRef)
    (fs : List (Frame NodeRef)) : ctxParent (⟨d, c, a, s⟩ :: fs) = a := rfl

@[simp] theorem ctxRoot_cons (d : Dir) (c : Color) (a : NodeRef) (s : RBTree NodeRef)
    (fs : List (Frame NodeRef)) (x : ℕ) : ctxRoot (⟨d, c, a, s⟩ :: fs) x = ctxRoot fs a := rfl

theorem ctxCells_cons (d : Dir) (c : Color) (a : NodeRef) (s : RBTree NodeRef)
    (fs : List (Frame NodeRef)) (x : ℕ) :
    ctxCells (⟨d, c, a, s⟩ :: fs) x = cell a (rbNode d (word (ctxParent fs) c) x (ptr s)) +
      (cells a s + ctxCells fs a) := rfl

@[simp] theorem ptr_nil : ptr .nil = 0 := rfl

@[simp] theorem ptr_node (c : Color) (l : RBTree NodeRef) (a : NodeRef) (r : RBTree NodeRef) :
    ptr (.node c l a r) = a := rfl

@[simp] theorem ptr_nodeAt (d : Dir) (c : Color) (x : RBTree NodeRef) (a : NodeRef)
    (y : RBTree NodeRef) : ptr (nodeAt d c x a y) = a := by cases d <;> rfl

@[simp] theorem ptr_recolor (c : Color) (t : RBTree NodeRef) : ptr (t.recolor c) = ptr t := by
  cases t <;> rfl

theorem ptr_eq_zero {t : RBTree NodeRef} : ptr t = 0 ↔ t = .nil := by
  cases t with
  | nil => simp
  | node c l a r => simp [a.ne_zero]

@[simp] theorem cells_nil (p : ℕ) : cells p .nil = 0 := rfl

theorem cells_nodeAt (p : ℕ) (d : Dir) (c : Color) (x : RBTree NodeRef) (a : NodeRef)
    (y : RBTree NodeRef) :
    cells p (nodeAt d c x a y) =
      cell a (rbNode d (word p c) (ptr x) (ptr y)) + (cells a x + cells a y) := by
  cases d
  · rfl
  · exact congrArg _ (add_comm _ _)

theorem cells_left (p : ℕ) (c : Color) (l : RBTree NodeRef) (a : NodeRef) (r : RBTree NodeRef) :
    cells p (.node c l a r) =
      cell a (rbNode .left (word p c) (ptr l) (ptr r)) + (cells a l + cells a r) := rfl

theorem cells_right (p : ℕ) (c : Color) (l : RBTree NodeRef) (a : NodeRef) (r : RBTree NodeRef) :
    cells p (.node c l a r) =
      cell a (rbNode .right (word p c) (ptr r) (ptr l)) + (cells a l + cells a r) := rfl

/-- A red leaf node. -/
theorem cells_single (p : ℕ) (a : NodeRef) : cells p (.node .red .nil a .nil) = cell a ⟨p, 0, 0⟩ := by
  simp [cells, word_red]

theorem cells_node_add (p : ℕ) (c : Color) (l : RBTree NodeRef) (a : NodeRef) (r : RBTree NodeRef)
    (cs : Cells) :
    cells p (.node c l a r) + cs =
      cell a ⟨word p c, ptr r, ptr l⟩ + (cells a l + cells a r + cs) := add_assoc ..

theorem ctxCells_cons_add (d : Dir) (c : Color) (a : NodeRef) (s : RBTree NodeRef)
    (fs : List (Frame NodeRef)) (x : ℕ) (cs : Cells) :
    ctxCells (⟨d, c, a, s⟩ :: fs) x + cs =
      cell a (rbNode d (word (ctxParent fs) c) x (ptr s)) +
        (cells a s + ctxCells fs a + cs) := add_assoc ..

theorem ctxParent_dvd (fs : List (Frame NodeRef)) : 4 ∣ ctxParent fs := by
  cases fs with
  | nil => exact Nat.dvd_zero 4
  | cons f fs => exact f.item.dvd

theorem ptr_plug (fs : List (Frame NodeRef)) (t : RBTree NodeRef) :
    ptr (plug fs t) = ctxRoot fs (ptr t) := by
  induction fs generalizing t with
  | nil => rfl
  | cons f fs ih => rw [plug, ih, ctxRoot, Frame.fill, ptr_nodeAt]

theorem cells_plug_seg (p : ℕ) (fs : List (Frame NodeRef)) (t : RBTree NodeRef) :
    cells p (plug fs t) = segCells p fs (ptr t) + cells (segParent p fs) t := by
  induction fs generalizing t with
  | nil => simp [plug, segCells, segParent]
  | cons f fs ih =>
    rw [plug, ih, Frame.fill, ptr_nodeAt, cells_nodeAt, segCells, segParent]
    ac_rfl

/-- The cells of a whole tree, seen from a subtree. -/
theorem cells_plug (fs : List (Frame NodeRef)) (t : RBTree NodeRef) :
    cells 0 (plug fs t) = ctxCells fs (ptr t) + cells (ctxParent fs) t := cells_plug_seg 0 fs t

theorem segParent_append (p : ℕ) (fs gs : List (Frame NodeRef)) :
    segParent p (fs ++ gs) = segParent (segParent p gs) fs := by
  cases fs <;> rfl

/-- The cells of a context that is put together from two parts. -/
theorem segCells_append (p : ℕ) (fs gs : List (Frame NodeRef)) (x : ℕ) :
    segCells p (fs ++ gs) x = segCells (segParent p gs) fs x + segCells p gs (ctxRoot fs x) := by
  induction fs generalizing x with
  | nil => simp [segCells, ctxRoot]
  | cons f fs ih =>
    rw [List.cons_append, segCells, ih, segCells, segParent_append, ctxRoot]
    ac_rfl

theorem ctxRoot_append (fs gs : List (Frame NodeRef)) (x : ℕ) :
    ctxRoot (fs ++ gs) x = ctxRoot gs (ctxRoot fs x) := by
  induction fs generalizing x with
  | nil => rfl
  | cons f fs ih => exact ih _

theorem mem_cells {p : ℕ} {t : RBTree NodeRef} {a : NodeRef} :
    a ∈ (cells p t).map Prod.fst ↔ a ∈ t.toList := by
  induction t generalizing p with
  | nil => simp [toList]
  | node c l b r ihl ihr =>
    simp only [cells, Multiset.map_add, map_fst_cell, Multiset.mem_add, Multiset.mem_singleton, ihl,
      ihr, toList, List.mem_append, List.mem_cons]
    exact or_left_comm

theorem map_fst_cells (p : ℕ) (t : RBTree NodeRef) : (cells p t).map Prod.fst = ↑t.toList := by
  induction t generalizing p with
  | nil => rfl
  | node c l b r ihl ihr =>
    rw [cells, Multiset.map_add, Multiset.map_add, map_fst_cell, ihl, ihr, toList,
      ← Multiset.coe_add, ← Multiset.cons_coe, ← Multiset.singleton_add]
    ac_rfl

/-! ### The state and the rules of the accesses -/

variable {σ : Type}

/-- The root pointer is `x`, and the memory holds the cells. -/
structure State (m : Mem σ) (x : ℕ) (cs : Cells) : Prop where
  root : m.rbNode = x
  owns : Owns m.node cs

/-- The tree is in memory, and the root pointer points to it. -/
def Represents (m : Mem σ) (t : RBTree NodeRef) : Prop := State m (ptr t) (cells 0 t)

theorem Represents.nodup {m : Mem σ} {t : RBTree NodeRef} (h : Represents m t) : t.toList.Nodup := by
  have hn := h.owns.nodup
  rwa [map_fst_cells, Multiset.coe_nodup] at hn

/-- The cells in another order. -/
theorem State.perm {m : Mem σ} {x : ℕ} {cs ds : Cells} (h : State m x cs) (e : cs = ds) :
    State m x ds := e ▸ h

@[simp] theorem deref_ref (a : NodeRef) : deref (a : ℕ) = .ok a := dif_pos a.2

theorem State.get {m : Mem σ} {x : ℕ} {cs : Cells} {a : NodeRef} {n : RbNode}
    (h : State m x (cell a n + cs)) : m.get a = .ok n := by
  rw [Mem.get, deref_ref, ok_bind, h.owns.read]
  rfl

theorem State.modify {m : Mem σ} {x : ℕ} {cs : Cells} {a : NodeRef} {n : RbNode}
    (h : State m x (cell a n + cs)) (f : RbNode → RbNode) :
    Post (m.modify a f) fun m' => State m' x (cell a (f n) + cs) := by
  rw [Mem.modify, deref_ref, ok_bind, h.owns.read]
  exact Post.pure ⟨h.root, h.owns.write _⟩

theorem State.setChild {m : Mem σ} {x : ℕ} {cs : Cells} {a : NodeRef} {n : RbNode}
    (h : State m x (cell a n + cs)) (d : Dir) (v : ℕ) :
    Post (m.setChild d a v) fun m' => State m' x (cell a (n.setChild d v) + cs) := h.modify _

theorem State.setWord {m : Mem σ} {x : ℕ} {cs : Cells} {a : NodeRef} {n : RbNode}
    (h : State m x (cell a n + cs)) (pc : ℕ) :
    Post (m.setWord a pc) fun m' => State m' x (cell a (n.setWord pc) + cs) := h.modify _

theorem State.setParentColor {m : Mem σ} {x : ℕ} {cs : Cells} {a : NodeRef} {n : RbNode}
    (h : State m x (cell a n + cs)) (p : ℕ) (c : Color) :
    Post (rbSetParentColor m a p c) fun m' => State m' x (cell a (n.setWord (word p c)) + cs) :=
  h.modify _

/-! ### Accesses to the root of a subtree -/

/-- `rb_set_parent_color` of a subtree that is not empty. -/
theorem State.setParentColor_tree {m : Mem σ} {x p : ℕ} {cs : Cells} {t : RBTree NodeRef}
    (h : State m x (cells p t + cs)) (ht : t ≠ .nil) (q : ℕ) (c : Color) :
    Post (rbSetParentColor m (ptr t) q c) fun m' => State m' x (cells q (t.recolor c) + cs) := by
  cases t with
  | nil => exact absurd rfl ht
  | node c' l a r =>
    have h1 := h.perm (cells_node_add ..)
    refine (h1.setParentColor q c).mono fun m' h' => ?_
    exact h'.perm (cells_node_add ..).symm

/-- `rb_set_parent_color` of a subtree, when there is one. -/
theorem State.setParentColor_opt {m : Mem σ} {x p : ℕ} {cs : Cells} {t : RBTree NodeRef}
    (h : State m x (cells p t + cs)) (q : ℕ) (c : Color) :
    Post (rbSetParentColorIf m (ptr t) q c) fun m' => State m' x (cells q (t.recolor c) + cs) := by
  by_cases ht : t = .nil
  · subst ht
    exact Post.ok h
  · rw [rbSetParentColorIf, if_pos (fun e => ht (ptr_eq_zero.mp e))]
    exact h.setParentColor_tree ht q c

/-- `rb_set_parent` of a subtree that is not empty. -/
theorem State.setParent_tree {m : Mem σ} {x p : ℕ} {cs : Cells} {t : RBTree NodeRef} (hp : 4 ∣ p)
    (h : State m x (cells p t + cs)) (ht : t ≠ .nil) (q : ℕ) :
    Post (rbSetParent m (ptr t) q) fun m' => State m' x (cells q t + cs) := by
  cases t with
  | nil => exact absurd rfl ht
  | node c' l a r =>
    have h1 := h.perm (cells_node_add ..)
    refine (h1.modify _).mono fun m' h' => h'.perm ?_
    rw [RbNode.color, rbColorOf_word hp, cells_node_add, Nat.or_comm]
    rfl

/-- `rb_set_parent` of a subtree, when there is one. -/
theorem State.setParent_opt {m : Mem σ} {x p : ℕ} {cs : Cells} {t : RBTree NodeRef} (hp : 4 ∣ p)
    (h : State m x (cells p t + cs)) (q : ℕ) :
    Post (rbSetParentIf m (ptr t) q) fun m' => State m' x (cells q t + cs) := by
  by_cases ht : t = .nil
  · subst ht
    exact Post.ok h
  · rw [rbSetParentIf, if_pos (fun e => ht (ptr_eq_zero.mp e))]
    exact h.setParent_tree hp ht q

/-- The test for a red subtree. -/
theorem State.testRed {m : Mem σ} {x p : ℕ} {cs : Cells} {t : RBTree NodeRef} (hp : 4 ∣ p)
    (h : State m x (cells p t + cs)) : rbTestRed m (ptr t) = .ok (decide (t.color = .red)) := by
  cases t with
  | nil => rfl
  | node c l a r =>
    rw [rbTestRed, ptr_node, if_neg a.ne_zero, (h.perm (cells_node_add ..)).get, ok_bind,
      RbNode.color, rbColorOf_word hp]
    rfl

/-- Two subtrees in memory share no root. -/
theorem State.ptr_ne {m : Mem σ} {x p q : ℕ} {cs : Cells} {t u : RBTree NodeRef}
    (h : State m x (cells p t + (cells q u + cs))) (ht : t ≠ .nil) : ptr t ≠ ptr u := by
  intro he
  cases t with
  | nil => exact ht rfl
  | node c l a r =>
    cases u with
    | nil => exact a.ne_zero he
    | node c' l' a' r' =>
      refine h.owns.ne (c := (a, _)) (d := (a', _)) (Multiset.mem_add.mpr (.inl (mem_cell.mpr rfl)))
        (Multiset.mem_add.mpr (.inl (Multiset.mem_add.mpr (.inl (mem_cell.mpr rfl))))) ?_
      exact Subtype.ext he

/-! ### Changing a child -/

/-- `__rb_change_child` puts a new pointer into the hole of a context. -/
theorem State.changeChild {m : Mem σ} {fs : List (Frame NodeRef)} {old : ℕ} {cs : Cells}
    (h : State m (ctxRoot fs old) (ctxCells fs old + cs)) (hold : ∀ f ∈ fs, ptr f.sib ≠ old)
    (new : ℕ) :
    Post (rbChangeChild m old new (ctxParent fs)) fun m' =>
      State m' (ctxRoot fs new) (ctxCells fs new + cs) := by
  cases fs with
  | nil => exact Post.ok ⟨rfl, h.owns⟩
  | cons f fs =>
    obtain ⟨d, c, a, s⟩ := f
    rw [ctxParent_cons, rbChangeChild, if_neg a.ne_zero]
    have h1 := h.perm (ctxCells_cons_add ..)
    rw [h1.get, ok_bind]
    have hs : ptr s ≠ old := hold _ (List.mem_cons_self ..)
    have hput := h1.setChild d new
    rw [setChild_rbNode] at hput
    cases d
    · rw [if_pos (show (rbNode .left (word (ctxParent fs) c) old (ptr s)).rbLeft = old from rfl)]
      exact hput.mono fun m' h' => h'.perm (ctxCells_cons_add ..).symm
    · rw [if_neg (by simpa [rbNode] using hs)]
      exact hput.mono fun m' h' => h'.perm (ctxCells_cons_add ..).symm

/-- A node that is not in use gets its first content. -/
theorem State.link {m : Mem σ} {x : ℕ} {cs : Cells} {a : NodeRef} (h : State m x cs)
    (ha : a ∉ cs.map Prod.fst) (f : RbNode → RbNode) :
    Post (m.modify a f) fun m' => State m' x (cell a (f (m.node a)) + cs) := by
  rw [Mem.modify, deref_ref, ok_bind]
  exact Post.pure ⟨h.root, h.owns.alloc (fun c hc he => ha (Multiset.mem_map.mpr ⟨c, hc, he⟩)) _⟩

/-- Reading the node above the hole. -/
theorem State.get_frame {m : Mem σ} {x y : ℕ} {d : Dir} {c : Color} {a : NodeRef}
    {s : RBTree NodeRef} {fs : List (Frame NodeRef)} {cs : Cells}
    (h : State m x (ctxCells (⟨d, c, a, s⟩ :: fs) y + cs)) :
    m.get a = .ok (rbNode d (word (ctxParent fs) c) y (ptr s)) :=
  (h.perm (ctxCells_cons_add ..)).get

theorem color_rbNode (d : Dir) (fs : List (Frame NodeRef)) (c : Color) (x y : ℕ) :
    (rbNode d (word (ctxParent fs) c) x y).color = c := by
  rw [RbNode.color, parentColor_rbNode, rbColorOf_word (ctxParent_dvd fs)]

theorem parent_rbNode (d : Dir) (fs : List (Frame NodeRef)) (c : Color) (x y : ℕ) :
    (rbNode d (word (ctxParent fs) c) x y).parent = ctxParent fs := by
  rw [RbNode.parent, parentColor_rbNode, rbParentOf_word (ctxParent_dvd fs)]

/-- `rb_set_parent` of the topmost node of a path. -/
theorem State.setParent_seg {m : Mem σ} {x y p : ℕ} {fs : List (Frame NodeRef)} {cs : Cells}
    (hp : 4 ∣ p) (h : State m x (segCells p fs y + cs)) (hfs : fs ≠ []) (q : ℕ) :
    Post (rbSetParent m (ctxRoot fs y) q) fun m' => State m' x (segCells q fs y + cs) := by
  induction fs generalizing y cs with
  | nil => exact absurd rfl hfs
  | cons f fs ih =>
    cases fs with
    | nil =>
      have h1 := h.perm (show _ = cell f.item (rbNode f.dir (word p f.color) y (ptr f.sib)) +
        (cells f.item f.sib + cs) by rw [segCells, segCells, add_zero, segParent]; ac_rfl)
      refine (h1.modify _).mono fun m h => h.perm ?_
      rw [setWord_rbNode, RbNode.color, parentColor_rbNode, rbColorOf_word hp, segCells, segCells,
        add_zero, segParent, Nat.or_comm]
      exact (add_assoc ..).symm
    | cons g fs =>
      have h1 := h.perm (show _ = segCells p (g :: fs) f.item +
        (cell f.item (rbNode f.dir (word g.item f.color) y (ptr f.sib)) +
          (cells f.item f.sib + cs)) by rw [segCells, segParent]; ac_rfl)
      refine (ih h1 (List.cons_ne_nil g fs)).mono fun m h => h.perm ?_
      rw [segCells_cons q f, segParent]
      ac_rfl

/-- A node in use elsewhere is no sibling on the way to the root. -/
theorem State.sib_ne {m : Mem σ} {x y : ℕ} {fs : List (Frame NodeRef)} {a : NodeRef} {n : RbNode}
    {cs : Cells} (h : State m x (ctxCells fs y + (cell a n + cs))) : ∀ f ∈ fs, ptr f.sib ≠ a := by
  intro f hf he
  have hmem : ∀ c ∈ cells f.item f.sib, c ∈ ctxCells fs y := by
    clear h
    induction fs generalizing y with
    | nil => exact nomatch hf
    | cons g fs ih =>
      intro c hc
      rw [ctxCells, segCells, Multiset.mem_add, Multiset.mem_add]
      rcases List.mem_cons.mp hf with rfl | hf
      · exact .inr (.inl hc)
      · exact .inr (.inr (ih hf c hc))
  have hroot : ∃ c ∈ cells f.item f.sib, c.1 = a := by
    cases hs : f.sib with
    | nil => exact absurd (by rw [← he, hs]; rfl) a.ne_zero
    | node c l b r =>
      rw [hs, ptr_node] at he
      exact ⟨(b, _), Multiset.mem_add.mpr (.inl (mem_cell.mpr rfl)), Subtype.ext he⟩
  obtain ⟨c, hc, hca⟩ := hroot
  exact h.owns.ne (hmem c hc) (Multiset.mem_add.mpr (.inl (mem_cell.mpr rfl))) hca

/-- `__rb_rotate_set_parents`: `new` takes the place of `old` and its word, and `old` goes below
`new`. -/
theorem State.rotateSetParents {m : Mem σ} {fs : List (Frame NodeRef)} {old new : NodeRef}
    {d : Dir} {c : Color} {x y : ℕ} {n : RbNode} {cs : Cells}
    (h : State m (ctxRoot fs old)
      (cell old (rbNode d (word (ctxParent fs) c) x y) + (cell new n + (ctxCells fs old + cs))))
    (color : Color) :
    Post (rbRotateSetParents m old new color) fun m' => State m' (ctxRoot fs new)
      (cell old (rbNode d (word new color) x y) +
        (cell new (n.setWord (word (ctxParent fs) c)) + (ctxCells fs new + cs))) := by
  rw [rbRotateSetParents, h.get, ok_bind, parentColor_rbNode, RbNode.parent, parentColor_rbNode,
    rbParentOf_word (ctxParent_dvd fs)]
  have h1 := h.perm (add_left_comm ..)
  refine (h1.setWord _).bind fun m h => ?_
  have h1 := h.perm (add_left_comm ..)
  refine (h1.setParentColor new color).bind fun m h => ?_
  rw [setWord_rbNode] at h
  have h1 := h.perm (show _ = ctxCells fs old + (cell old _ + (cell new _ + cs)) by ac_rfl)
  exact (h1.changeChild h1.sib_ne new).mono fun m h => h.perm (by ac_rfl)

end CcUtils.Rbtree
