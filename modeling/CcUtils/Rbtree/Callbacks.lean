import CcUtils.Rbtree.Rep

/-!
# The augmented data and what the callbacks keep

The tree code touches the caller's data through its callbacks only. `Leaves` says that an access
leaves the data alone, and `StateWith` adds the data to what is known of the memory. What the
callbacks do to the data is theirs: `Keeps` lists what they have to keep of an invariant so that
the tree code, whatever it rotates and takes out, keeps it too.

## What is proved

* `StateWith.setChild`, `StateWith.changeChild`, … — the accesses leave the data alone.
* `StateWith.call` — a callback does what it does, and changes no node.
* `Total.keeps` — callbacks that always return keep the invariant that says nothing.
-/

namespace CcUtils.Rbtree

open CcUtils.Lib CcUtils.Lib.RedBlack CcUtils.Lib.RedBlack.RBTree

variable {σ : Type} {m : Mem σ} {s : σ}

/-! ### Accesses leave the data alone -/

/-- The run leaves the records `s`. -/
def Leaves (s : σ) (x : Exec (Mem σ)) : Prop := Ensures x fun m => m.aug = s

/-- The same for a run that gives a second result. -/
def LeavesWith {β : Type} (s : σ) (x : Exec (Mem σ × β)) : Prop := Ensures x fun u => u.1.aug = s

theorem Leaves.bind {x : Exec (Mem σ)} {f : Mem σ → Exec (Mem σ)} (hx : Leaves s x)
    (hf : ∀ m : Mem σ, m.aug = s → Leaves s (f m)) : Leaves s (x >>= f) := Ensures.bind hx hf

theorem Leaves.bind_with {β : Type} {x : Exec (Mem σ)} {f : Mem σ → Exec (Mem σ × β)}
    (hx : Leaves s x) (hf : ∀ m : Mem σ, m.aug = s → LeavesWith s (f m)) :
    LeavesWith s (x >>= f) := Ensures.bind hx hf

theorem Leaves.modify (h : m.aug = s) (p : ℕ) (f : RbNode → RbNode) : Leaves s (m.modify p f) :=
  Ensures.step fun _ => Ensures.pure h

theorem Leaves.setChild (h : m.aug = s) (d : Dir) (p v : ℕ) : Leaves s (m.setChild d p v) :=
  .modify h p _

theorem Leaves.setWord (h : m.aug = s) (p pc : ℕ) : Leaves s (m.setWord p pc) := .modify h p _

theorem Leaves.setParentColor (h : m.aug = s) (rb p : ℕ) (c : Color) :
    Leaves s (rbSetParentColor m rb p c) := .setWord h rb _

theorem Leaves.setParent (h : m.aug = s) (rb p : ℕ) : Leaves s (rbSetParent m rb p) :=
  .modify h rb _

theorem Leaves.setParentIf (h : m.aug = s) (rb p : ℕ) : Leaves s (rbSetParentIf m rb p) := by
  rw [rbSetParentIf]
  split
  · exact .setParent h rb p
  · exact Ensures.ok h

theorem Leaves.setParentColorIf (h : m.aug = s) (rb p : ℕ) (c : Color) :
    Leaves s (rbSetParentColorIf m rb p c) := by
  rw [rbSetParentColorIf]
  split
  · exact .setParentColor h rb p c
  · exact Ensures.ok h

theorem Leaves.changeChild (h : m.aug = s) (old new parent : ℕ) :
    Leaves s (rbChangeChild m old new parent) := by
  rw [rbChangeChild]
  split
  · exact Ensures.ok h
  · refine Ensures.step fun p => ?_
    split
    · exact Leaves.setChild h .left parent new
    · exact Leaves.setChild h .right parent new

theorem Leaves.rotateSetParents (h : m.aug = s) (old new : ℕ) (c : Color) :
    Leaves s (rbRotateSetParents m old new c) := by
  refine Ensures.step fun o => ?_
  refine (Leaves.setWord h new _).bind fun m h => ?_
  refine (Leaves.setParentColor h old new c).bind fun m h => ?_
  exact .changeChild h old new _

/-! ### The memory with the data -/

/-- What the memory holds, and its augmented data. -/
structure StateWith (m : Mem σ) (x : ℕ) (cs : Cells) (s : σ) : Prop where
  state : State m x cs
  aug : m.aug = s

theorem State.with_aug {x : ℕ} {cs : Cells} (h : State m x cs) : StateWith m x cs m.aug := ⟨h, rfl⟩

/-- A run that leaves the data alone. -/
theorem Leaves.state {r : Exec (Mem σ)} {x : ℕ} {cs : Cells} (hs : Leaves s r)
    (h : Post r fun m => State m x cs) : Post r fun m => StateWith m x cs s :=
  (h.and_ensures hs).mono fun _ h => ⟨h.1, h.2⟩

section rules

variable {x : ℕ} {cs : Cells}

/-- The cells in another order. -/
theorem StateWith.perm {ds : Cells} (h : StateWith m x cs s) (e : cs = ds) : StateWith m x ds s :=
  ⟨h.state.perm e, h.aug⟩

theorem StateWith.get {a : NodeRef} {n : RbNode} (h : StateWith m x (cell a n + cs) s) :
    m.get a = .ok n := h.state.get

theorem StateWith.modify {a : NodeRef} {n : RbNode} (h : StateWith m x (cell a n + cs) s)
    (f : RbNode → RbNode) :
    Post (m.modify a f) fun m' => StateWith m' x (cell a (f n) + cs) s :=
  (Leaves.modify h.aug _ _).state (h.state.modify f)

theorem StateWith.setChild {a : NodeRef} {n : RbNode} (h : StateWith m x (cell a n + cs) s)
    (d : Dir) (v : ℕ) :
    Post (m.setChild d a v) fun m' => StateWith m' x (cell a (n.setChild d v) + cs) s :=
  h.modify _

theorem StateWith.setWord {a : NodeRef} {n : RbNode} (h : StateWith m x (cell a n + cs) s)
    (pc : ℕ) : Post (m.setWord a pc) fun m' => StateWith m' x (cell a (n.setWord pc) + cs) s :=
  h.modify _

theorem StateWith.setParentColor {a : NodeRef} {n : RbNode}
    (h : StateWith m x (cell a n + cs) s) (p : ℕ) (c : Color) :
    Post (rbSetParentColor m a p c) fun m' =>
      StateWith m' x (cell a (n.setWord (word p c)) + cs) s := h.modify _

theorem StateWith.setParentColor_tree {p : ℕ} {t : RBTree NodeRef}
    (h : StateWith m x (cells p t + cs) s) (ht : t ≠ .nil) (q : ℕ) (c : Color) :
    Post (rbSetParentColor m (ptr t) q c) fun m' =>
      StateWith m' x (cells q (t.recolor c) + cs) s :=
  (Leaves.setParentColor h.aug _ _ _).state (h.state.setParentColor_tree ht q c)

theorem StateWith.setParentColor_opt {p : ℕ} {t : RBTree NodeRef}
    (h : StateWith m x (cells p t + cs) s) (q : ℕ) (c : Color) :
    Post (rbSetParentColorIf m (ptr t) q c) fun m' =>
      StateWith m' x (cells q (t.recolor c) + cs) s :=
  (Leaves.setParentColorIf h.aug _ _ _).state (h.state.setParentColor_opt q c)

theorem StateWith.setParent_tree {p : ℕ} {t : RBTree NodeRef} (hp : 4 ∣ p)
    (h : StateWith m x (cells p t + cs) s) (ht : t ≠ .nil) (q : ℕ) :
    Post (rbSetParent m (ptr t) q) fun m' => StateWith m' x (cells q t + cs) s :=
  (Leaves.setParent h.aug _ _).state (h.state.setParent_tree hp ht q)

theorem StateWith.setParent_opt {p : ℕ} {t : RBTree NodeRef} (hp : 4 ∣ p)
    (h : StateWith m x (cells p t + cs) s) (q : ℕ) :
    Post (rbSetParentIf m (ptr t) q) fun m' => StateWith m' x (cells q t + cs) s :=
  (Leaves.setParentIf h.aug _ _).state (h.state.setParent_opt hp q)

theorem StateWith.setParent_seg {y p : ℕ} {fs : List (Frame NodeRef)} (hp : 4 ∣ p)
    (h : StateWith m x (segCells p fs y + cs) s) (hfs : fs ≠ []) (q : ℕ) :
    Post (rbSetParent m (ctxRoot fs y) q) fun m' => StateWith m' x (segCells q fs y + cs) s :=
  (Leaves.setParent h.aug _ _).state (h.state.setParent_seg hp hfs q)

theorem StateWith.changeChild {fs : List (Frame NodeRef)} {old : ℕ}
    (h : StateWith m (ctxRoot fs old) (ctxCells fs old + cs) s)
    (hold : ∀ f ∈ fs, ptr f.sib ≠ old) (new : ℕ) :
    Post (rbChangeChild m old new (ctxParent fs)) fun m' =>
      StateWith m' (ctxRoot fs new) (ctxCells fs new + cs) s :=
  (Leaves.changeChild h.aug _ _ _).state (h.state.changeChild hold new)

theorem StateWith.rotateSetParents {fs : List (Frame NodeRef)} {old new : NodeRef} {d : Dir}
    {c : Color} {y z : ℕ} {n : RbNode}
    (h : StateWith m (ctxRoot fs old)
      (cell old (rbNode d (word (ctxParent fs) c) y z) + (cell new n + (ctxCells fs old + cs))) s)
    (color : Color) :
    Post (rbRotateSetParents m old new color) fun m' => StateWith m' (ctxRoot fs new)
      (cell old (rbNode d (word new color) y z) +
        (cell new (n.setWord (word (ctxParent fs) c)) + (ctxCells fs new + cs))) s :=
  (Leaves.rotateSetParents h.aug _ _ _).state (h.state.rotateSetParents color)

/-- A callback changes no node. -/
theorem StateWith.call {f : (NodeRef → RbNode) → ℕ → ℕ → σ → Exec σ} {a b : ℕ} {Q : σ → Prop}
    (h : StateWith m x cs s) (hf : Post (f m.node a b s) Q) :
    Post (m.call f a b) fun m' => State m' x cs ∧ Q m'.aug := by
  obtain ⟨s', hs, hq⟩ := hf
  rw [Mem.call, h.aug, hs]
  exact Post.pure ⟨⟨h.state.root, h.state.owns⟩, hq⟩

end rules

/-! ### What the callbacks keep -/

/-- Callbacks that always return. -/
structure RbAugmentCallbacks.Total (cb : RbAugmentCallbacks σ) : Prop where
  propagate : ∀ n a b s, ∃ s', cb.propagate n a b s = .ok s'
  copy : ∀ n a b s, ∃ s', cb.copy n a b s = .ok s'
  rotate : ∀ n a b s, ∃ s', cb.rotate n a b s = .ok s'

/-- An invariant of the augmented data. -/
structure AugInvariant (σ : Type) where
  /-- The data is right for the tree. -/
  Good : RBTree NodeRef → σ → Prop
  /-- The data is right below the hole of a context, and above it still for what was there before:
  all that is missing is to propagate from the hole up to the root. -/
  Stale : List (Frame NodeRef) → RBTree NodeRef → σ → Prop
  /-- The node of the frame has taken the place of a removed one, and a tree was put into its own
  old place, below it on the path: all that is missing is to propagate from there up to the frame,
  and then from the frame up. -/
  Moved : List (Frame NodeRef) → Frame NodeRef → List (Frame NodeRef) → RBTree NodeRef → σ → Prop

/-- The invariant that says nothing. -/
def AugInvariant.trivial (σ : Type) : AugInvariant σ where
  Good _ _ := True
  Stale _ _ _ := True
  Moved _ _ _ _ _ := True

/-- The callbacks keep the invariant, on paths of fewer than `bound` nodes. -/
structure RbAugmentCallbacks.Keeps (cb : RbAugmentCallbacks σ) (I : AugInvariant σ) (bound : ℕ) :
    Prop where
  /-- Colours do not matter. -/
  bare : ∀ {t u : RBTree NodeRef} {s : σ}, t.bare = u.bare → I.Good t s → I.Good u s
  /-- `rotate` follows a rotation that lifts `new` above `old`. -/
  rotate : ∀ {fs : List (Frame NodeRef)} {d : Dir} {c b : Color} {x y z : RBTree NodeRef}
    {old new : NodeRef} {nodes : NodeRef → RbNode} {w : ℕ} {s : σ},
    I.Good (plug fs (nodeAt d c (nodeAt d b x new y) old z)) s →
    nodes old = rbNode d w (ptr y) (ptr z) →
    Post (cb.rotate nodes old new s) (I.Good (plug fs (nodeAt d c x new (nodeAt d b y old z))))
  /-- Taking out a node with a child on at most one side. -/
  detach : ∀ {fs : List (Frame NodeRef)} {d : Dir} {c : Color} {a : NodeRef} {t : RBTree NodeRef}
    {s : σ}, I.Good (plug fs (nodeAt d c .nil a t)) s → I.Stale fs t s
  /-- `copy` when `b`, the leftmost node on the right of `a`, takes the place of `a`. -/
  copy : ∀ {fs path : List (Frame NodeRef)} {c b : Color} {l t : RBTree NodeRef} {a new : NodeRef}
    {nodes : NodeRef → RbNode} {s : σ},
    I.Good (plug fs (.node c l a (plug path (.node b .nil new t)))) s →
    Post (cb.copy nodes a new s) (I.Moved path ⟨.right, c, new, l⟩ fs t)
  /-- Nothing to propagate on an empty path. -/
  moved_nil : ∀ {f : Frame NodeRef} {fs : List (Frame NodeRef)} {t : RBTree NodeRef} {s : σ},
    I.Moved [] f fs t s → I.Stale (f :: fs) t s
  /-- `propagate` up to a node. -/
  propagate_path : ∀ {path fs : List (Frame NodeRef)} {f : Frame NodeRef} {t : RBTree NodeRef}
    {cs : Cells} {nodes : NodeRef → RbNode} {s : σ}, path.length < bound →
    Owns nodes (segCells f.item path (ptr t) + cs) → I.Moved path f fs t s →
    Post (cb.propagate nodes (segParent f.item path) f.item s) (I.Stale (f :: fs) (plug path t))
  /-- `propagate` up to the root. -/
  propagate : ∀ {fs : List (Frame NodeRef)} {t : RBTree NodeRef} {cs : Cells}
    {nodes : NodeRef → RbNode} {s : σ}, fs.length < bound → Owns nodes (ctxCells fs (ptr t) + cs) →
    I.Stale fs t s → Post (cb.propagate nodes (ctxParent fs) 0 s) (I.Good (plug fs t))

/-- `rotate` seen from the other side: `new` was the child of `old` away from side `d`. -/
theorem RbAugmentCallbacks.Keeps.rotate_flip {cb : RbAugmentCallbacks σ} {I : AugInvariant σ}
    {bound : ℕ} (hcb : cb.Keeps I bound) {fs : List (Frame NodeRef)} {d : Dir} {c b : Color}
    {x y z : RBTree NodeRef} {old new : NodeRef} {nodes : NodeRef → RbNode} {w : ℕ}
    (h : I.Good (plug fs (nodeAt d c x old (nodeAt d b y new z))) s)
    (hn : nodes old = rbNode d w (ptr x) (ptr y)) :
    Post (cb.rotate nodes old new s) (I.Good (plug fs (nodeAt d c (nodeAt d b x old y) new z))) := by
  rw [← nodeAt_flip, ← nodeAt_flip d b] at h
  rw [← rbNode_flip] at hn
  have hrot := hcb.rotate h hn
  rwa [nodeAt_flip, nodeAt_flip] at hrot

/-- Callbacks that always return keep the invariant that says nothing. -/
theorem RbAugmentCallbacks.Total.keeps {cb : RbAugmentCallbacks σ} (h : cb.Total) (bound : ℕ) :
    cb.Keeps (.trivial σ) bound where
  bare _ _ := True.intro
  rotate _ _ := (h.rotate _ _ _ _).imp fun _ e => ⟨e, True.intro⟩
  detach _ := True.intro
  copy _ := (h.copy _ _ _ _).imp fun _ e => ⟨e, True.intro⟩
  moved_nil _ := True.intro
  propagate_path _ _ _ := (h.propagate _ _ _ _).imp fun _ e => ⟨e, True.intro⟩
  propagate _ _ _ := (h.propagate _ _ _ _).imp fun _ e => ⟨e, True.intro⟩

theorem dummyCallbacks_total : (dummyCallbacks : RbAugmentCallbacks σ).Total :=
  ⟨fun _ _ _ s => ⟨s, rfl⟩, fun _ _ _ s => ⟨s, rfl⟩, fun _ _ _ s => ⟨s, rfl⟩⟩

end CcUtils.Rbtree
