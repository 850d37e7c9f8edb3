import CcUtils.Lib.RedBlack
import CcUtils.Lib.Memory
import Mathlib.Logic.Function.Basic
import Mathlib.Order.Defs.LinearOrder

/-!
# The intrusive red-black tree

`rbtree.c` and `rbtree.h`: nodes live inside the caller's records, hold their parent's address and
their own colour in one word, and are linked and re-linked in place. The model is the memory the
code works on: what each node holds, the root pointer, and the data of the augmenting callbacks.

Where the source has two branches that are mirror images, the model has one with the side as a
parameter: `d = .left` gives the first branch as it is written, `d = .right` the second. Loops
have fuel.
-/

namespace CcUtils.Rbtree

open CcUtils.Lib CcUtils.Lib.RedBlack

/-! ### Nodes in memory -/

/-- The address of a node: not NULL, and aligned like a `long`. -/
abbrev NodeRef := {p : ℕ // p ≠ 0 ∧ 8 ∣ p}

/-- `struct rb_node`; a pointer is its address, NULL is 0. -/
structure RbNode where
  parentColor : ℕ
  rbRight : ℕ
  rbLeft : ℕ
  deriving DecidableEq, Repr

/-- `RB_RED` and `RB_BLACK`. -/
def rbBit : Color → ℕ
  | .red => 0
  | .black => 1

/-- `__rb_parent(pc)`: the two low bits cleared. -/
def rbParentOf (pc : ℕ) : ℕ := pc / 4 * 4

/-- `__rb_color(pc)`. -/
def rbColorOf (pc : ℕ) : Color := if pc % 2 = 0 then .red else .black

/-- `rb_left` or `rb_right`. -/
def RbNode.child (d : Dir) (n : RbNode) : ℕ :=
  match d with
  | .left => n.rbLeft
  | .right => n.rbRight

/-- `rb_left = v` or `rb_right = v`. -/
def RbNode.setChild (d : Dir) (v : ℕ) (n : RbNode) : RbNode :=
  match d with
  | .left => { n with rbLeft := v }
  | .right => { n with rbRight := v }

/-- `rb_parent(n)`. -/
def RbNode.parent (n : RbNode) : ℕ := rbParentOf n.parentColor

/-- `rb_color(n)`. -/
def RbNode.color (n : RbNode) : Color := rbColorOf n.parentColor

/-- The memory: the nodes, `root->rb_node`, and the augmented data. -/
structure Mem (σ : Type) where
  node : NodeRef → RbNode
  rbNode : ℕ
  aug : σ

variable {σ : Type}

/-- The node a pointer points to. -/
def deref (p : ℕ) : Exec NodeRef := if h : p ≠ 0 ∧ 8 ∣ p then .ok ⟨p, h⟩ else .error .nullDeref

/-- Read the node at `p`. -/
def Mem.get (m : Mem σ) (p : ℕ) : Exec RbNode := do
  let a ← deref p
  return m.node a

/-- Change the node at `p`. -/
def Mem.modify (m : Mem σ) (p : ℕ) (f : RbNode → RbNode) : Exec (Mem σ) := do
  let a ← deref p
  return { m with node := Function.update m.node a (f (m.node a)) }

/-- `p->rb_left = v` or `p->rb_right = v`. -/
def Mem.setChild (m : Mem σ) (d : Dir) (p v : ℕ) : Exec (Mem σ) := m.modify p (RbNode.setChild d v)

/-- The node with another parent word. -/
def RbNode.setWord (pc : ℕ) (n : RbNode) : RbNode := { n with parentColor := pc }

/-- `p->__rb_parent_color = pc`. -/
def Mem.setWord (m : Mem σ) (p pc : ℕ) : Exec (Mem σ) := m.modify p (RbNode.setWord pc)

/-- `rb_set_parent`. -/
def rbSetParent (m : Mem σ) (rb p : ℕ) : Exec (Mem σ) :=
  m.modify rb fun n => n.setWord (rbBit n.color ||| p)

/-- `rb_set_parent_color`. -/
def rbSetParentColor (m : Mem σ) (rb p : ℕ) (color : Color) : Exec (Mem σ) :=
  m.setWord rb (p ||| rbBit color)

/-- `rb_set_black`. -/
def rbSetBlack (m : Mem σ) (rb : ℕ) : Exec (Mem σ) :=
  m.modify rb fun n => n.setWord (n.parentColor ||| 1)

/-- `if (rb) rb_set_parent(rb, p)`. -/
def rbSetParentIf (m : Mem σ) (rb p : ℕ) : Exec (Mem σ) :=
  if rb ≠ 0 then rbSetParent m rb p else .ok m

/-- `if (rb) rb_set_parent_color(rb, p, color)`. -/
def rbSetParentColorIf (m : Mem σ) (rb p : ℕ) (color : Color) : Exec (Mem σ) :=
  if rb ≠ 0 then rbSetParentColor m rb p color else .ok m

/-- `rb && rb_is_red(rb)`. -/
def rbTestRed (m : Mem σ) (rb : ℕ) : Exec Bool :=
  if rb = 0 then .ok false
  else do
    let n ← m.get rb
    return n.color = .red

/-- `__rb_change_child`. -/
def rbChangeChild (m : Mem σ) (old new parent : ℕ) : Exec (Mem σ) :=
  if parent = 0 then .ok { m with rbNode := new }
  else do
    let p ← m.get parent
    if p.rbLeft = old then m.setChild .left parent new else m.setChild .right parent new

/-- `__rb_rotate_set_parents`. -/
def rbRotateSetParents (m : Mem σ) (old new : ℕ) (color : Color) : Exec (Mem σ) := do
  let o ← m.get old
  let m ← m.setWord new o.parentColor
  let m ← rbSetParentColor m old new color
  rbChangeChild m old new o.parent

/-! ### Augmentation -/

/-- `struct rb_augment_callbacks`. The callbacks read the nodes and change the augmented data. -/
structure RbAugmentCallbacks (σ : Type) where
  propagate : (NodeRef → RbNode) → ℕ → ℕ → σ → Exec σ
  copy : (NodeRef → RbNode) → ℕ → ℕ → σ → Exec σ
  rotate : (NodeRef → RbNode) → ℕ → ℕ → σ → Exec σ

/-- Call one of the callbacks. -/
def Mem.call (m : Mem σ) (f : (NodeRef → RbNode) → ℕ → ℕ → σ → Exec σ) (a b : ℕ) :
    Exec (Mem σ) := do
  let s ← f m.node a b m.aug
  return { m with aug := s }

/-- `dummy_callbacks`. -/
def dummyCallbacks : RbAugmentCallbacks σ where
  propagate := fun _ _ _ s => .ok s
  copy := fun _ _ _ s => .ok s
  rotate := fun _ _ _ s => .ok s

/-- The loop of the propagate callback that `RB_DECLARE_CALLBACKS` makes; `recompute` is its
RBCOMPUTE. -/
def rbPropagateLoop (recompute : (NodeRef → RbNode) → NodeRef → Bool → σ → Exec (Bool × σ))
    (nodes : NodeRef → RbNode) : ℕ → ℕ → ℕ → σ → Exec σ
  | 0, _, _, _ => .error .outOfFuel
  | fuel + 1, rb, stop, s =>
    if rb = stop then .ok s
    else do
      let a ← deref rb
      let (unchanged, s) ← recompute nodes a true s
      if unchanged then return s
      else rbPropagateLoop recompute nodes fuel (nodes a).parent stop s

/-- `RB_DECLARE_CALLBACKS`; the augmented data is the RBAUGMENTED field of each node. -/
def rbDeclareCallbacks {β : Type} (fuel : ℕ)
    (recompute : (NodeRef → RbNode) → NodeRef → Bool → (NodeRef → β) →
      Exec (Bool × (NodeRef → β))) : RbAugmentCallbacks (NodeRef → β) where
  propagate nodes rb stop s := rbPropagateLoop recompute nodes fuel rb stop s
  copy _ rbOld rbNew s := do
    let old ← deref rbOld
    let new ← deref rbNew
    return Function.update s new (s old)
  rotate nodes rbOld rbNew s := do
    let old ← deref rbOld
    let new ← deref rbNew
    let (_, s) ← recompute nodes old false (Function.update s new (s old))
    return s

/-- `if (child && child->RBAUGMENTED > max) max = child->RBAUGMENTED;` -/
def rbMaxChild {β : Type} [LinearOrder β] (s : NodeRef → β) (child : ℕ) (max : β) : Exec β :=
  if child ≠ 0 then do
    let c ← deref child
    return if s c > max then s c else max
  else .ok max

/-- The `_compute_max` of `RB_DECLARE_CALLBACKS_MAX`; `compute` is its RBCOMPUTE. -/
def rbComputeMax {β : Type} [LinearOrder β] (compute : NodeRef → β) (nodes : NodeRef → RbNode)
    (a : NodeRef) (exit : Bool) (s : NodeRef → β) : Exec (Bool × (NodeRef → β)) := do
  let max ← rbMaxChild s (nodes a).rbLeft (compute a)
  let max ← rbMaxChild s (nodes a).rbRight max
  if exit = true ∧ s a = max then return (true, s)
  else return (false, Function.update s a max)

/-- `RB_DECLARE_CALLBACKS_MAX`. -/
def rbDeclareCallbacksMax {β : Type} [LinearOrder β] (fuel : ℕ) (compute : NodeRef → β) :
    RbAugmentCallbacks (NodeRef → β) := rbDeclareCallbacks fuel (rbComputeMax compute)

/-! ### Insertion -/

/-- `rb_link_node`; the link is the root pointer or the child of `parent` on side `d`. -/
def rbLinkNode (m : Mem σ) (node parent : ℕ) (d : Dir) : Exec (Mem σ) := do
  let m ← m.modify node fun _ => ⟨parent, 0, 0⟩
  if parent = 0 then return { m with rbNode := node } else m.setChild d parent node

/-- Case 3 of `__rb_insert`: rotate at gparent; `tmp` is the child of parent that moves over. -/
def rbInsertCase3 (cb : RbAugmentCallbacks σ) (d : Dir) (m : Mem σ) (parent gparent tmp : ℕ) :
    Exec (Mem σ) := do
  let m ← m.setChild d gparent tmp
  let m ← m.setChild d.flip parent gparent
  let m ← rbSetParentColorIf m tmp gparent .black
  let m ← rbRotateSetParents m gparent parent .red
  m.call cb.rotate gparent parent

/-- Cases 2 and 3 of `__rb_insert`: the uncle is black. Case 2 rotates at parent when node is its
inner child and goes on to case 3 with node as the parent. -/
def rbInsertRotate (cb : RbAugmentCallbacks σ) (d : Dir) (m : Mem σ) (node parent gparent : ℕ) :
    Exec (Mem σ) := do
  let p ← m.get parent
  let tmp := p.child d.flip
  if node = tmp then do
    let n ← m.get node
    let tmp := n.child d
    let m ← m.setChild d.flip parent tmp
    let m ← m.setChild d node parent
    let m ← rbSetParentColorIf m tmp parent .black
    let m ← rbSetParentColor m parent node .red
    let m ← m.call cb.rotate parent node
    let n ← m.get node
    rbInsertCase3 cb d m node gparent (n.child d.flip)
  else rbInsertCase3 cb d m parent gparent tmp

/-- The loop of `__rb_insert`. -/
def rbInsertLoop (cb : RbAugmentCallbacks σ) : ℕ → Mem σ → ℕ → ℕ → Exec (Mem σ)
  | 0, _, _, _ => .error .outOfFuel
  | fuel + 1, m, node, parent =>
    if parent = 0 then rbSetParentColor m node 0 .black
    else do
      let p ← m.get parent
      if p.color = .black then .ok m
      else
        let gparent := p.parentColor
        let g ← m.get gparent
        let d : Dir := if parent = g.rbRight then .right else .left
        let tmp := g.child d.flip
        let red ← rbTestRed m tmp
        if red then do
          let m ← rbSetParentColor m tmp gparent .black
          let m ← rbSetParentColor m parent gparent .black
          let g ← m.get gparent
          let m ← rbSetParentColor m gparent g.parent .red
          rbInsertLoop cb fuel m gparent g.parent
        else rbInsertRotate cb d m node parent gparent

/-- `__rb_insert`. -/
def rbInsert (cb : RbAugmentCallbacks σ) (fuel : ℕ) (m : Mem σ) (node : ℕ) : Exec (Mem σ) := do
  let n ← m.get node
  rbInsertLoop cb fuel m node n.parentColor

/-- `rb_insert_augmented`. -/
def rbInsertAugmented (cb : RbAugmentCallbacks σ) (fuel : ℕ) (m : Mem σ) (node : ℕ) :
    Exec (Mem σ) := rbInsert cb fuel m node

/-- `rb_insert_color`. -/
def rbInsertColor (fuel : ℕ) (m : Mem σ) (node : ℕ) : Exec (Mem σ) :=
  rbInsert dummyCallbacks fuel m node

/-- The loop of `rb_add` that looks for the link: it starts with the content of a link and the node
the link is in, on side `d`. -/
def rbAddLoop (lt : NodeRef → Bool) (m : Mem σ) : ℕ → ℕ → ℕ → Dir → Exec (ℕ × Dir)
  | 0, _, _, _ => .error .outOfFuel
  | fuel + 1, link, parent, d =>
    if link = 0 then .ok (parent, d)
    else do
      let a ← deref link
      if lt a then rbAddLoop lt m fuel (m.node a).rbLeft link .left
      else rbAddLoop lt m fuel (m.node a).rbRight link .right

/-- `rb_add`. -/
def rbAdd (cmp : NodeRef → NodeRef → ℤ) (fuel : ℕ) (m : Mem σ) (node : NodeRef) :
    Exec (Mem σ) := do
  let (parent, d) ← rbAddLoop (fun a => cmp node a < 0) m fuel m.rbNode 0 .left
  let m ← rbLinkNode m node parent d
  rbInsertColor fuel m node

/-! ### Removal -/

/-- Case 4 of `____rb_erase_color`: rotate at parent and flip colors. -/
def rbEraseRotate (cb : RbAugmentCallbacks σ) (d : Dir) (m : Mem σ) (parent sibling tmp1 : ℕ) :
    Exec (Mem σ) := do
  let s ← m.get sibling
  let tmp2 := s.child d
  let m ← m.setChild d.flip parent tmp2
  let m ← m.setChild d sibling parent
  let m ← rbSetParentColor m tmp1 sibling .black
  let m ← rbSetParentIf m tmp2 parent
  let m ← rbRotateSetParents m parent sibling .black
  m.call cb.rotate parent sibling

/-- Cases 2 to 4 of `____rb_erase_color`, where the sibling is black: the parent to go on with, if
any, and the node below it. The tests for black are those for red the other way. -/
def rbEraseBlack (cb : RbAugmentCallbacks σ) (d : Dir) (m : Mem σ) (parent sibling : ℕ) :
    Exec (Mem σ × Option (ℕ × ℕ)) := do
  let s ← m.get sibling
  let tmp1 := s.child d.flip
  let red1 ← rbTestRed m tmp1
  if red1 then do
    let m ← rbEraseRotate cb d m parent sibling tmp1
    return (m, none)
  else do
    let tmp2 := s.child d
    let red2 ← rbTestRed m tmp2
    if red2 then do
      -- Case 3: rotate at sibling, and go on to case 4 with the new sibling
      let t ← m.get tmp2
      let tmp1 := t.child d.flip
      let m ← m.setChild d sibling tmp1
      let m ← m.setChild d.flip tmp2 sibling
      let m ← m.setChild d.flip parent tmp2
      let m ← rbSetParentColorIf m tmp1 sibling .black
      let m ← m.call cb.rotate sibling tmp2
      let m ← rbEraseRotate cb d m parent tmp2 sibling
      return (m, none)
    else do
      -- Case 2: sibling color flip
      let m ← rbSetParentColor m sibling parent .red
      let p ← m.get parent
      if p.color = .red then do
        let m ← rbSetBlack m parent
        return (m, none)
      else return (m, if p.parent = 0 then none else some (p.parent, parent))

/-- Case 1 of `____rb_erase_color`, where the sibling is red: rotate at parent; the result is the
new sibling. -/
def rbEraseCase1 (cb : RbAugmentCallbacks σ) (d : Dir) (m : Mem σ) (parent sibling : ℕ) :
    Exec (Mem σ × ℕ) := do
  let s ← m.get sibling
  let tmp1 := s.child d
  let m ← m.setChild d.flip parent tmp1
  let m ← m.setChild d sibling parent
  let m ← rbSetParentColor m tmp1 parent .black
  let m ← rbRotateSetParents m parent sibling .red
  let m ← m.call cb.rotate parent sibling
  return (m, tmp1)

/-- The body of the loop of `____rb_erase_color`. -/
def rbEraseStep (cb : RbAugmentCallbacks σ) (m : Mem σ) (parent node : ℕ) :
    Exec (Mem σ × Option (ℕ × ℕ)) := do
  let p ← m.get parent
  let d : Dir := if node = p.rbRight then .right else .left
  let sibling := p.child d.flip
  let s ← m.get sibling
  if s.color = .red then do
    let (m, sibling) ← rbEraseCase1 cb d m parent sibling
    rbEraseBlack cb d m parent sibling
  else rbEraseBlack cb d m parent sibling

/-- The loop of `____rb_erase_color`. -/
def rbEraseColorLoop (cb : RbAugmentCallbacks σ) : ℕ → Mem σ → ℕ → ℕ → Exec (Mem σ)
  | 0, _, _, _ => .error .outOfFuel
  | fuel + 1, m, parent, node => do
    let (m, next) ← rbEraseStep cb m parent node
    match next with
    | none => return m
    | some (parent, node) => rbEraseColorLoop cb fuel m parent node

/-- `____rb_erase_color`. -/
def rbEraseColor (cb : RbAugmentCallbacks σ) (fuel : ℕ) (m : Mem σ) (parent : ℕ) : Exec (Mem σ) :=
  rbEraseColorLoop cb fuel m parent 0

/-- The loop of `__rb_erase_augmented` that looks for the successor: `tmp` is the left child of
`successor`. -/
def rbSuccessorLoop (m : Mem σ) : ℕ → ℕ → ℕ → ℕ → Exec (ℕ × ℕ)
  | 0, _, _, _ => .error .outOfFuel
  | fuel + 1, parent, successor, tmp =>
    if tmp = 0 then .ok (parent, successor)
    else do
      let t ← m.get tmp
      rbSuccessorLoop m fuel successor tmp t.rbLeft

/-- Case 1 of `__rb_erase_augmented` with no left child; the result is the node to rebalance at, or
NULL. -/
def rbEraseCase1Right (cb : RbAugmentCallbacks σ) (m : Mem σ) (node : ℕ) (n : RbNode) :
    Exec (Mem σ × ℕ) := do
  let child := n.rbRight
  let pc := n.parentColor
  let parent := rbParentOf pc
  let m ← rbChangeChild m node child parent
  if child ≠ 0 then do
    let m ← m.setWord child pc
    let m ← m.call cb.propagate parent 0
    return (m, 0)
  else do
    let m ← m.call cb.propagate parent 0
    return (m, if rbColorOf pc = .black then parent else 0)

/-- Case 1 of `__rb_erase_augmented` with a left child only. -/
def rbEraseCase1Left (cb : RbAugmentCallbacks σ) (m : Mem σ) (node : ℕ) (n : RbNode) :
    Exec (Mem σ × ℕ) := do
  let tmp := n.rbLeft
  let pc := n.parentColor
  let m ← m.setWord tmp pc
  let parent := rbParentOf pc
  let m ← rbChangeChild m node tmp parent
  let m ← m.call cb.propagate parent 0
  return (m, 0)

/-- The part of `__rb_erase_augmented` that cases 2 and 3 share: the successor takes over the place of
the node, and `child2` that of the successor. -/
def rbEraseReplace (cb : RbAugmentCallbacks σ) (m : Mem σ) (node parent successor child2 : ℕ) :
    Exec (Mem σ × ℕ) := do
  let n ← m.get node
  let tmp := n.rbLeft
  let m ← m.setChild .left successor tmp
  let m ← rbSetParent m tmp successor
  let n ← m.get node
  let pc := n.parentColor
  let tmp := rbParentOf pc
  let m ← rbChangeChild m node successor tmp
  if child2 ≠ 0 then do
    let m ← m.setWord successor pc
    let m ← rbSetParentColor m child2 parent .black
    let m ← m.call cb.propagate successor 0
    return (m, 0)
  else do
    let s ← m.get successor
    let pc2 := s.parentColor
    let m ← m.setWord successor pc
    let m ← m.call cb.propagate successor 0
    return (m, if rbColorOf pc2 = .black then parent else 0)

/-- `__rb_erase_augmented`; the result is the node to rebalance at, or NULL. -/
def rbEraseAugmented (cb : RbAugmentCallbacks σ) (fuel : ℕ) (m : Mem σ) (node : ℕ) :
    Exec (Mem σ × ℕ) := do
  let n ← m.get node
  let child := n.rbRight
  if n.rbLeft = 0 then rbEraseCase1Right cb m node n
  else if child = 0 then rbEraseCase1Left cb m node n
  else do
    let c ← m.get child
    if c.rbLeft = 0 then do
      -- Case 2: node's successor is its right child
      let m ← m.call cb.copy node child
      rbEraseReplace cb m node child child c.rbRight
    else do
      -- Case 3: node's successor is leftmost under its right child
      let (parent, successor) ← rbSuccessorLoop m fuel child child c.rbLeft
      let s ← m.get successor
      let child2 := s.rbRight
      let m ← m.setChild .left parent child2
      let m ← m.setChild .right successor child
      let m ← rbSetParent m child successor
      let m ← m.call cb.copy node successor
      let m ← m.call cb.propagate parent successor
      rbEraseReplace cb m node parent successor child2

/-- `rb_erase_augmented`. -/
def rbEraseWith (cb : RbAugmentCallbacks σ) (fuel : ℕ) (m : Mem σ) (node : ℕ) : Exec (Mem σ) := do
  let (m, rebalance) ← rbEraseAugmented cb fuel m node
  if rebalance ≠ 0 then rbEraseColor cb fuel m rebalance else pure m

/-- `rb_erase`. -/
def rbErase (fuel : ℕ) (m : Mem σ) (node : ℕ) : Exec (Mem σ) := rbEraseWith dummyCallbacks fuel m node

/-! ### Replacement -/

/-- `rb_replace_node`. -/
def rbReplaceNode (m : Mem σ) (victim new : ℕ) : Exec (Mem σ) := do
  let v ← m.get victim
  let parent := v.parent
  let m ← m.modify new fun _ => v
  let v ← m.get victim
  let m ← rbSetParentIf m v.rbLeft new
  let v ← m.get victim
  let m ← rbSetParentIf m v.rbRight new
  rbChangeChild m victim new parent

/-! ### Search -/

/-- The loop of `rb_find_first`. -/
def rbFindFirstLoop (cmp : NodeRef → ℤ) (m : Mem σ) : ℕ → ℕ → ℕ → Exec ℕ
  | 0, _, _ => .error .outOfFuel
  | fuel + 1, node, found =>
    if node = 0 then .ok found
    else do
      let a ← deref node
      let c := cmp a
      if c ≤ 0 then rbFindFirstLoop cmp m fuel (m.node a).rbLeft (if c = 0 then node else found)
      else rbFindFirstLoop cmp m fuel (m.node a).rbRight found

/-- `rb_find_first`; `cmp` is the comparison with the key. -/
def rbFindFirst (cmp : NodeRef → ℤ) (fuel : ℕ) (m : Mem σ) : Exec ℕ :=
  rbFindFirstLoop cmp m fuel m.rbNode 0

/-! ### Traversal -/

/-- `while (node->rb_left) node = node->rb_left;` on side `d`. -/
def rbDownLoop (d : Dir) (m : Mem σ) : ℕ → ℕ → Exec ℕ
  | 0, _ => .error .outOfFuel
  | fuel + 1, node => do
    let n ← m.get node
    if n.child d ≠ 0 then rbDownLoop d m fuel (n.child d) else return node

/-- The first node from side `d`. -/
def rbEnd (d : Dir) (fuel : ℕ) (m : Mem σ) : Exec ℕ :=
  if m.rbNode = 0 then .ok 0 else rbDownLoop d m fuel m.rbNode

/-- `rb_first`. -/
def rbFirst (fuel : ℕ) (m : Mem σ) : Exec ℕ := rbEnd .left fuel m

/-- `rb_last`. -/
def rbLast (fuel : ℕ) (m : Mem σ) : Exec ℕ := rbEnd .right fuel m

/-- The loop that goes up while the node is a child on the side away from `d`; the result is the
parent it ends at. -/
def rbUpLoop (d : Dir) (m : Mem σ) : ℕ → ℕ → Exec ℕ
  | 0, _ => .error .outOfFuel
  | fuel + 1, node => do
    let n ← m.get node
    if n.parent = 0 then return 0
    else do
      let p ← m.get n.parent
      if node = p.child d.flip then rbUpLoop d m fuel n.parent else return n.parent

/-- The next node in the order from side `d`. -/
def rbNeighbour (d : Dir) (fuel : ℕ) (m : Mem σ) (node : ℕ) : Exec ℕ := do
  let n ← m.get node
  -- RB_EMPTY_NODE
  if n.parentColor = node then return 0
  else if n.child d.flip ≠ 0 then rbDownLoop d m fuel (n.child d.flip)
  else rbUpLoop d m fuel node

/-- `rb_next`. -/
def rbNext (fuel : ℕ) (m : Mem σ) (node : ℕ) : Exec ℕ := rbNeighbour .left fuel m node

/-- `rb_prev`. -/
def rbPrev (fuel : ℕ) (m : Mem σ) (node : ℕ) : Exec ℕ := rbNeighbour .right fuel m node

/-- `rb_next_match`; `cmp` is the comparison with the key. -/
def rbNextMatch (cmp : NodeRef → ℤ) (fuel : ℕ) (m : Mem σ) (node : ℕ) : Exec ℕ := do
  let node ← rbNext fuel m node
  if node ≠ 0 then do
    let a ← deref node
    if cmp a ≠ 0 then return 0 else return node
  else return node

/-! ### Post-order -/

/-- `rb_left_deepest_node`; `load` reads a node. -/
def rbLeftDeepestNode (load : ℕ → Exec RbNode) : ℕ → ℕ → Exec ℕ
  | 0, _ => .error .outOfFuel
  | fuel + 1, node => do
    let n ← load node
    if n.rbLeft ≠ 0 then rbLeftDeepestNode load fuel n.rbLeft
    else if n.rbRight ≠ 0 then rbLeftDeepestNode load fuel n.rbRight
    else return node

/-- `rb_next_postorder`. -/
def rbNextPostorder (load : ℕ → Exec RbNode) (fuel : ℕ) (node : ℕ) : Exec ℕ :=
  if node = 0 then .ok 0
  else do
    let n ← load node
    if n.parent = 0 then return 0
    else do
      let p ← load n.parent
      if node = p.rbLeft ∧ p.rbRight ≠ 0 then rbLeftDeepestNode load fuel p.rbRight
      else return n.parent

/-- `rb_first_postorder`; `root` is the root pointer. -/
def rbFirstPostorder (load : ℕ → Exec RbNode) (fuel : ℕ) (root : ℕ) : Exec ℕ :=
  if root = 0 then .ok 0 else rbLeftDeepestNode load fuel root

/-- Read the node at `p` after the nodes of `freed` were released. -/
def Mem.getLive (m : Mem σ) (freed : List NodeRef) (p : ℕ) : Exec RbNode := do
  let a ← deref p
  if a ∈ freed then .error .outOfBounds else return m.node a

/-- The loop of `rbtree_postorder_for_each_entry_safe` with a body that releases the entry: `pos`
is next, and the nodes of `freed` are gone. The result is the nodes released, in order. -/
def rbtreePostorderLoop (m : Mem σ) (depth : ℕ) : ℕ → List NodeRef → ℕ → Exec (List NodeRef)
  | 0, _, _ => .error .outOfFuel
  | fuel + 1, freed, pos =>
    if pos = 0 then .ok freed
    else do
      let n ← rbNextPostorder (m.getLive freed) depth pos
      let a ← deref pos
      rbtreePostorderLoop m depth fuel (freed ++ [a]) n

/-- `rbtree_postorder_for_each_entry_safe` with a body that releases the entry. -/
def rbtreePostorderForEachEntrySafe (fuel : ℕ) (m : Mem σ) : Exec (List NodeRef) := do
  let pos ← rbFirstPostorder (m.getLive []) fuel m.rbNode
  rbtreePostorderLoop m fuel fuel [] pos

/-! ### The leftmost-cached root -/

/-- `struct rb_root_cached`, with the memory its tree is in. -/
structure RbRootCached (σ : Type) where
  mem : Mem σ
  rbLeftmost : ℕ

/-- `rb_first_cached`. -/
def rbFirstCached (root : RbRootCached σ) : ℕ := root.rbLeftmost

/-- `rb_insert_color_cached`. -/
def rbInsertColorCached (fuel : ℕ) (root : RbRootCached σ) (node : ℕ) (leftmost : Bool) :
    Exec (RbRootCached σ) := do
  let cached := if leftmost then node else root.rbLeftmost
  let m ← rbInsertColor fuel root.mem node
  return ⟨m, cached⟩

/-- The cached pointer when `node` is about to be erased. -/
def RbRootCached.leave (fuel : ℕ) (root : RbRootCached σ) (node : ℕ) : Exec ℕ :=
  if root.rbLeftmost = node then rbNext fuel root.mem node else .ok root.rbLeftmost

/-- `rb_erase_cached`. -/
def rbEraseCached (fuel : ℕ) (root : RbRootCached σ) (node : ℕ) : Exec (RbRootCached σ) := do
  let cached ← root.leave fuel node
  let m ← rbErase fuel root.mem node
  return ⟨m, cached⟩

/-- `rb_replace_node_cached`. -/
def rbReplaceNodeCached (root : RbRootCached σ) (victim new : ℕ) : Exec (RbRootCached σ) := do
  let cached := if root.rbLeftmost = victim then new else root.rbLeftmost
  let m ← rbReplaceNode root.mem victim new
  return ⟨m, cached⟩

end CcUtils.Rbtree
