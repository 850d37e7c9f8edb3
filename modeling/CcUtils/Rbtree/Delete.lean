import CcUtils.Rbtree.Run

/-!
# Deletion leaves the records alone

A tree node lives inside its caller's record, and `rb_erase` works on the nodes only. What the
records hold besides their nodes is the augmented data of the memory, of any type: no access of
`rb_erase` changes it, since its callbacks are the ones that do nothing.

## What is proved

* `rbErase_aug` — `rb_erase` changes no record.
* `rbErase_removes` — in a red-black tree, `rb_erase` of any node returns, and leaves a red-black
  tree of the other nodes in their order, and every record as it was.
-/

namespace CcUtils.Rbtree

open CcUtils.Lib CcUtils.Lib.RedBlack CcUtils.Lib.RedBlack.RBTree

variable {σ : Type} {m : Mem σ} {s : σ}

/-! ### Callbacks that do nothing -/

/-- Callbacks that change no record. -/
structure RbAugmentCallbacks.Idle (cb : RbAugmentCallbacks σ) : Prop where
  propagate : ∀ n a b s, cb.propagate n a b s = .ok s
  copy : ∀ n a b s, cb.copy n a b s = .ok s
  rotate : ∀ n a b s, cb.rotate n a b s = .ok s

theorem dummyCallbacks_idle : (dummyCallbacks : RbAugmentCallbacks σ).Idle :=
  ⟨fun _ _ _ _ => rfl, fun _ _ _ _ => rfl, fun _ _ _ _ => rfl⟩

theorem Leaves.call (h : m.aug = s) {f : (NodeRef → RbNode) → ℕ → ℕ → σ → Exec σ}
    (hf : ∀ n a b s, f n a b s = .ok s) (a b : ℕ) : Leaves s (m.call f a b) := by
  rw [Mem.call, hf]
  exact Ensures.ok h

/-! ### The parts of `rb_erase` -/

variable {cb : RbAugmentCallbacks σ}

theorem Leaves.eraseRotate (hcb : cb.Idle) (h : m.aug = s) (d : Dir)
    (parent sibling tmp1 : ℕ) : Leaves s (rbEraseRotate cb d m parent sibling tmp1) := by
  refine Ensures.step fun n => ?_
  refine (Leaves.setChild h d.flip parent _).bind fun m h => ?_
  refine (Leaves.setChild h d sibling parent).bind fun m h => ?_
  refine (Leaves.setParentColor h tmp1 sibling .black).bind fun m h => ?_
  refine (Leaves.setParentIf h _ parent).bind fun m h => ?_
  refine (Leaves.rotateSetParents h parent sibling .black).bind fun m h => ?_
  exact .call h hcb.rotate parent sibling

theorem LeavesWith.eraseBlack (hcb : cb.Idle) (h : m.aug = s) (d : Dir) (parent sibling : ℕ) :
    LeavesWith s (rbEraseBlack cb d m parent sibling) := by
  refine Ensures.step fun n => Ensures.step fun red1 => ?_
  split
  · exact (Leaves.eraseRotate hcb h d parent sibling _).bind_with fun m h => Ensures.pure h
  · refine Ensures.step fun red2 => ?_
    split
    · refine Ensures.step fun t => ?_
      refine (Leaves.setChild h d sibling _).bind_with fun m h => ?_
      refine (Leaves.setChild h d.flip _ sibling).bind_with fun m h => ?_
      refine (Leaves.setChild h d.flip parent _).bind_with fun m h => ?_
      refine (Leaves.setParentColorIf h _ sibling .black).bind_with fun m h => ?_
      refine (Leaves.call h hcb.rotate sibling _).bind_with fun m h => ?_
      exact (Leaves.eraseRotate hcb h d parent _ sibling).bind_with fun m h => Ensures.pure h
    · refine (Leaves.setParentColor h sibling parent .red).bind_with fun m h => ?_
      refine Ensures.step fun p => ?_
      split
      · exact (Leaves.modify h parent _).bind_with fun m h => Ensures.pure h
      · exact Ensures.pure h

theorem LeavesWith.eraseCase1 (hcb : cb.Idle) (h : m.aug = s) (d : Dir) (parent sibling : ℕ) :
    LeavesWith s (rbEraseCase1 cb d m parent sibling) := by
  refine Ensures.step fun n => ?_
  refine (Leaves.setChild h d.flip parent _).bind_with fun m h => ?_
  refine (Leaves.setChild h d sibling parent).bind_with fun m h => ?_
  refine (Leaves.setParentColor h _ parent .black).bind_with fun m h => ?_
  refine (Leaves.rotateSetParents h parent sibling .red).bind_with fun m h => ?_
  exact (Leaves.call h hcb.rotate parent sibling).bind_with fun m h => Ensures.pure h

/-- One turn of the loop of `____rb_erase_color`. -/
theorem LeavesWith.eraseStep (hcb : cb.Idle) (h : m.aug = s) (parent node : ℕ) :
    LeavesWith s (rbEraseStep cb m parent node) := by
  refine Ensures.step fun p => Ensures.step fun n => ?_
  split
  · exact Ensures.bind (eraseCase1 hcb h _ parent _) fun u hu => eraseBlack hcb hu _ parent u.2
  · exact eraseBlack hcb h _ parent _

/-- The whole loop, by induction on the fuel. -/
theorem Leaves.eraseColorLoop (hcb : cb.Idle) {fuel : ℕ} (h : m.aug = s) (parent node : ℕ) :
    Leaves s (rbEraseColorLoop cb fuel m parent node) := by
  induction fuel generalizing m parent node with
  | zero => exact Ensures.error _ _
  | succ fuel ih =>
    refine Ensures.bind (LeavesWith.eraseStep hcb h parent node) fun u hu => ?_
    obtain ⟨m, next⟩ := u
    cases next with
    | none => exact Ensures.pure hu
    | some q => exact ih hu q.1 q.2

theorem LeavesWith.eraseCase1Right (hcb : cb.Idle) (h : m.aug = s) (node : ℕ) (n : RbNode) :
    LeavesWith s (rbEraseCase1Right cb m node n) := by
  refine (Leaves.changeChild h node _ _).bind_with fun m h => ?_
  split
  · refine (Leaves.setWord h _ _).bind_with fun m h => ?_
    exact (Leaves.call h hcb.propagate _ 0).bind_with fun m h => Ensures.pure h
  · exact (Leaves.call h hcb.propagate _ 0).bind_with fun m h => Ensures.pure h

theorem LeavesWith.eraseCase1Left (hcb : cb.Idle) (h : m.aug = s) (node : ℕ) (n : RbNode) :
    LeavesWith s (rbEraseCase1Left cb m node n) := by
  refine (Leaves.setWord h _ _).bind_with fun m h => ?_
  refine (Leaves.changeChild h node _ _).bind_with fun m h => ?_
  exact (Leaves.call h hcb.propagate _ 0).bind_with fun m h => Ensures.pure h

theorem LeavesWith.eraseReplace (hcb : cb.Idle) (h : m.aug = s)
    (node parent successor child2 : ℕ) :
    LeavesWith s (rbEraseReplace cb m node parent successor child2) := by
  refine Ensures.step fun n => ?_
  refine (Leaves.setChild h .left successor _).bind_with fun m h => ?_
  refine (Leaves.setParent h _ successor).bind_with fun m h => ?_
  refine Ensures.step fun n => ?_
  refine (Leaves.changeChild h node successor _).bind_with fun m h => ?_
  split
  · refine (Leaves.setWord h successor _).bind_with fun m h => ?_
    refine (Leaves.setParentColor h child2 parent .black).bind_with fun m h => ?_
    exact (Leaves.call h hcb.propagate successor 0).bind_with fun m h => Ensures.pure h
  · refine Ensures.step fun t => ?_
    refine (Leaves.setWord h successor _).bind_with fun m h => ?_
    exact (Leaves.call h hcb.propagate successor 0).bind_with fun m h => Ensures.pure h

theorem LeavesWith.eraseAugmented (hcb : cb.Idle) {fuel : ℕ} (h : m.aug = s) (node : ℕ) :
    LeavesWith s (rbEraseAugmented cb fuel m node) := by
  refine Ensures.step fun n => ?_
  split
  · exact eraseCase1Right hcb h node n
  · dsimp only
    split
    · exact eraseCase1Left hcb h node n
    · refine Ensures.step fun c => ?_
      split
      · refine (Leaves.call h hcb.copy node _).bind_with fun m h => ?_
        exact eraseReplace hcb h node _ _ _
      · refine Ensures.step fun u => Ensures.step fun t => ?_
        refine (Leaves.setChild h .left u.1 _).bind_with fun m h => ?_
        refine (Leaves.setChild h .right u.2 _).bind_with fun m h => ?_
        refine (Leaves.setParent h _ u.2).bind_with fun m h => ?_
        refine (Leaves.call h hcb.copy node u.2).bind_with fun m h => ?_
        refine (Leaves.call h hcb.propagate u.1 u.2).bind_with fun m h => ?_
        exact eraseReplace hcb h node u.1 u.2 _

/-! ### Deletion -/

/-- `rb_erase` changes no record. -/
theorem rbErase_aug (fuel : ℕ) (m : Mem σ) (node : ℕ) :
    Ensures (rbErase fuel m node) fun m' => m'.aug = m.aug := by
  have hcb : (dummyCallbacks : RbAugmentCallbacks σ).Idle := dummyCallbacks_idle
  refine Ensures.bind (LeavesWith.eraseAugmented hcb rfl node) fun u hu => ?_
  dsimp only
  split
  · exact Leaves.eraseColorLoop hcb hu u.2 0
  · exact Ensures.pure hu

/-- `rb_erase` of any node of a red-black tree in memory returns, and then the memory holds a
red-black tree of the other nodes in the same order, with every record as it was. -/
theorem rbErase_removes {m : Mem σ} {t : RBTree NodeRef} (h : Represents m t) (ht : t.IsRB)
    {a : NodeRef} (ha : a ∈ t.toList) {fuel : ℕ} (hfuel : t.toList.length < fuel) :
    ∃ m' t', rbErase fuel m a = .ok m' ∧ Represents m' t' ∧ t'.IsRB ∧
      t'.toList = t.toList.erase a ∧ a ∉ t'.toList ∧ m'.aug = m.aug := by
  have hheight : t.height < fuel := lt_of_le_of_lt t.height_le_length hfuel
  obtain ⟨m', hrun, ⟨t', hrep, hrb, hl⟩, haug⟩ :=
    (rbErase_spec h ht ha hheight).and_ensures (rbErase_aug fuel m a)
  refine ⟨m', t', hrun, hrep, hrb, hl, ?_, haug⟩
  rw [hl]
  exact h.nodup.not_mem_erase

/-- A black root with two red children. -/
def threeNodes : RBTree NodeRef :=
  .node .black (.node .red .nil (nodeRef 0) .nil) (nodeRef 1) (.node .red .nil (nodeRef 2) .nil)

/-- It in memory, in records that each hold a number. -/
def threeNodesMem : Mem (NodeRef → ℕ) where
  node a := if a = nodeRef 1 then ⟨1, 24, 8⟩ else ⟨16, 0, 0⟩
  rbNode := 16
  aug a := a

theorem threeNodesMem_represents : Represents threeNodesMem threeNodes where
  root := rfl
  owns := by
    have e : cells 0 threeNodes =
        {(nodeRef 1, ⟨1, 24, 8⟩), (nodeRef 0, ⟨16, 0, 0⟩), (nodeRef 2, ⟨16, 0, 0⟩)} := rfl
    refine ⟨?_, ?_⟩
    · rw [e]
      decide
    · rw [e]
      simp [threeNodesMem, nodeRef]

theorem rbErase_removes_three :
    ∃ m' t', rbErase 4 threeNodesMem (nodeRef 1) = .ok m' ∧ Represents m' t' ∧ t'.IsRB ∧
      t'.toList = [nodeRef 0, nodeRef 1, nodeRef 2].erase (nodeRef 1) ∧
      nodeRef 1 ∉ t'.toList ∧ m'.aug = threeNodesMem.aug := by
  have hrb : threeNodes.IsRB := ⟨rfl, 1, by simp [threeNodes, Bal]⟩
  exact rbErase_removes threeNodesMem_represents hrb (by decide) (by decide)

end CcUtils.Rbtree
