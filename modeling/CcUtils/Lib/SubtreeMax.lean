import Mathlib.Algebra.Order.Group.Multiset
import Mathlib.Order.WithBot
import Mathlib.Order.Bounds.Basic
import CcUtils.Lib.RedBlack

/-!
# The greatest value below each node

A library of trees in which each node has a field that is to hold the greatest value below it. What
makes the fields right is local: a field is the maximum of the node's own value and the fields of
its children. So a tree with a subtree exchanged is right again as soon as the fields on the way up
are, and the first field on that way that need not change ends it.

## What is proved

* `maxBelow_iff` — the local condition says that every field holds the greatest value below.
* `maxBelow_plug` — it splits at any subtree.
* `StaleAbove.stop` — an unchanged field ends the way up.
* `maxBelow_rotate` — a rotation needs one field copied and one recomputed.
-/

namespace CcUtils.Lib.RedBlack

open CcUtils.Lib.RedBlack.RBTree

variable {α β : Type}

/-! ### Fields -/

/-- The field of the root; a leaf has none. -/
def RBTree.top (s : α → β) : RBTree α → WithBot β
  | .nil => ⊥
  | .node _ _ a _ => s a

@[simp] theorem top_nil (s : α → β) : (nil : RBTree α).top s = ⊥ := rfl

@[simp] theorem top_nodeAt (s : α → β) (d : Dir) (c : Color) (x : RBTree α) (a : α)
    (y : RBTree α) : (nodeAt d c x a y).top s = s a := by cases d <;> rfl

theorem top_congr {s s' : α → β} {t : RBTree α} (h : ∀ b ∈ t.toList, s' b = s b) :
    t.top s' = t.top s := by
  cases t with
  | nil => rfl
  | node c l a r => exact congrArg _ (h a (by simp [toList]))

variable [LinearOrder β]

/-- Every node has in its field the greatest value below it, its own value included. -/
def EachMax (v s : α → β) : RBTree α → Prop
  | .nil => True
  | .node c l a r => IsGreatest {x | ∃ b ∈ (node c l a r).toList, v b = x} (s a) ∧
      EachMax v s l ∧ EachMax v s r

/-- Every field is the maximum of the value of the node and the fields of its children. -/
def MaxBelow (v s : α → β) : RBTree α → Prop
  | .nil => True
  | .node _ l a r => (s a : WithBot β) = max ↑(v a) (max (l.top s) (r.top s)) ∧
      MaxBelow v s l ∧ MaxBelow v s r

/-- The same of the nodes of a context whose hole holds a tree with the root field `x`. -/
def MaxAbove (v s : α → β) : List (Frame α) → WithBot β → Prop
  | [], _ => True
  | f :: fs, x => (s f.item : WithBot β) = max ↑(v f.item) (max x (f.sib.top s)) ∧
      MaxBelow v s f.sib ∧ MaxAbove v s fs (s f.item)

/-- The same of a context but for the node above the hole, whose field may be anything. -/
def StaleAbove (v s : α → β) : List (Frame α) → Prop
  | [] => True
  | f :: fs => MaxBelow v s f.sib ∧ MaxAbove v s fs (s f.item)

variable {v s s' : α → β}

theorem maxBelow_nodeAt (d : Dir) (c : Color) (x : RBTree α) (a : α) (y : RBTree α) :
    MaxBelow v s (nodeAt d c x a y) ↔
      (s a : WithBot β) = max ↑(v a) (max (x.top s) (y.top s)) ∧ MaxBelow v s x ∧
        MaxBelow v s y := by
  cases d
  · exact Iff.rfl
  · rw [max_comm (x.top s), and_comm (a := MaxBelow v s x)]
    exact Iff.rfl

/-- The condition splits at a subtree. -/
theorem maxBelow_plug (fs : List (Frame α)) (t : RBTree α) :
    MaxBelow v s (plug fs t) ↔ MaxBelow v s t ∧ MaxAbove v s fs (t.top s) := by
  induction fs generalizing t with
  | nil => simp [plug, MaxAbove]
  | cons f fs ih =>
    rw [plug, ih, Frame.fill, maxBelow_nodeAt, top_nodeAt, MaxAbove]
    tauto

theorem MaxAbove.stale {fs : List (Frame α)} {x : WithBot β} (h : MaxAbove v s fs x) :
    StaleAbove v s fs := by
  cases fs with
  | nil => exact True.intro
  | cons f fs => exact h.2

/-- When the field above the hole turns out right, so are all fields further up. -/
theorem StaleAbove.stop {f : Frame α} {fs : List (Frame α)} {t : RBTree α}
    (h : StaleAbove v s (f :: fs)) (ht : MaxBelow v s t)
    (hf : (s f.item : WithBot β) = max ↑(v f.item) (max (t.top s) (f.sib.top s))) :
    MaxBelow v s (plug (f :: fs) t) := (maxBelow_plug ..).mpr ⟨ht, hf, h.1, h.2⟩

/-! ### The greatest value -/

theorem MaxBelow.le_top {t : RBTree α} (h : MaxBelow v s t) :
    ∀ b ∈ t.toList, (v b : WithBot β) ≤ t.top s := by
  induction t with
  | nil => exact nofun
  | node c l a r ihl ihr =>
    obtain ⟨ha, hl, hr⟩ := h
    intro b hb
    rw [top, ha]
    rcases List.mem_append.mp hb with hb | hb
    · exact (ihl hl b hb).trans ((le_max_left _ _).trans (le_max_right _ _))
    · rcases List.mem_cons.mp hb with rfl | hb
      · exact le_max_left _ _
      · exact (ihr hr b hb).trans ((le_max_right _ _).trans (le_max_right _ _))

theorem MaxBelow.top_mem {t : RBTree α} (h : MaxBelow v s t) :
    t.top s = ⊥ ∨ ∃ b ∈ t.toList, (v b : WithBot β) = t.top s := by
  induction t with
  | nil => exact .inl rfl
  | node c l a r ihl ihr =>
    obtain ⟨ha, hl, hr⟩ := h
    have hsub : ∀ x : WithBot β, x ≠ ⊥ → (s a : WithBot β) = x →
        (x = ⊥ ∨ ∃ b ∈ (node c l a r).toList, (v b : WithBot β) = x) →
          ∃ b ∈ (node c l a r).toList, (v b : WithBot β) = s a := by
      rintro x hne rfl (hx | hx)
      · exact absurd hx hne
      · exact hx
    right
    rw [top]
    rcases max_choice (v a : WithBot β) (max (l.top s) (r.top s)) with hm | hm
    · exact ⟨a, by simp [toList], by rw [ha, hm]⟩
    rw [hm] at ha
    have hne : (s a : WithBot β) ≠ ⊥ := WithBot.coe_ne_bot
    rcases max_choice (l.top s) (r.top s) with hm | hm
    · rw [hm] at ha
      refine hsub _ (ha ▸ hne) ha ((ihl hl).imp id ?_)
      rintro ⟨b, hb, e⟩
      exact ⟨b, by simp [toList, hb], e⟩
    · rw [hm] at ha
      refine hsub _ (ha ▸ hne) ha ((ihr hr).imp id ?_)
      rintro ⟨b, hb, e⟩
      exact ⟨b, by simp [toList, hb], e⟩

/-- The local condition says that every field holds the greatest value below. -/
theorem maxBelow_iff {t : RBTree α} : MaxBelow v s t ↔ EachMax v s t := by
  induction t with
  | nil => exact Iff.rfl
  | node c l a r ihl ihr =>
    have key : MaxBelow v s l → MaxBelow v s r →
        ((s a : WithBot β) = max ↑(v a) (max (l.top s) (r.top s)) ↔
          IsGreatest {x | ∃ b ∈ (node c l a r).toList, v b = x} (s a)) := by
      intro hl hr
      constructor
      · intro ha
        have hn : MaxBelow v s (node c l a r) := ⟨ha, hl, hr⟩
        refine ⟨?_, ?_⟩
        · rcases hn.top_mem with h | ⟨b, hb, e⟩
          · exact absurd h WithBot.coe_ne_bot
          · exact ⟨b, hb, WithBot.coe_injective e⟩
        · rintro x ⟨b, hb, rfl⟩
          exact WithBot.coe_le_coe.mp (hn.le_top b hb)
      · rintro ⟨⟨b, hb, e⟩, hub⟩
        have hmem : ∀ b ∈ (node c l a r).toList, (v b : WithBot β) ≤ s a := fun b hb =>
          WithBot.coe_le_coe.mpr (hub ⟨b, hb, rfl⟩)
        have htop : ∀ t : RBTree α, MaxBelow v s t → (∀ b ∈ t.toList, (v b : WithBot β) ≤ s a) →
            t.top s ≤ s a := by
          intro t ht h
          rcases ht.top_mem with h0 | ⟨b, hb, e⟩
          · rw [h0]
            exact bot_le
          · rw [← e]
            exact h b hb
        refine le_antisymm ?_ (max_le (hmem a (by simp [toList])) (max_le
          (htop l hl fun b hb => hmem b (by simp [toList, hb]))
          (htop r hr fun b hb => hmem b (by simp [toList, hb]))))
        rw [← e]
        rcases List.mem_append.mp hb with hb | hb
        · exact (hl.le_top b hb).trans ((le_max_left _ _).trans (le_max_right _ _))
        · rcases List.mem_cons.mp hb with rfl | hb
          · exact le_max_left _ _
          · exact (hr.le_top b hb).trans ((le_max_right _ _).trans (le_max_right _ _))
    rw [MaxBelow, EachMax, ← ihl, ← ihr]
    constructor
    · rintro ⟨ha, hl, hr⟩
      exact ⟨(key hl hr).mp ha, hl, hr⟩
    · rintro ⟨ha, hl, hr⟩
      exact ⟨(key hl hr).mpr ha, hl, hr⟩

/-! ### Other fields -/

/-- Only the fields of the tree matter. -/
theorem MaxBelow.congr {t : RBTree α} (hm : MaxBelow v s t) (h : ∀ b ∈ t.toList, s' b = s b) :
    MaxBelow v s' t := by
  induction t with
  | nil => exact True.intro
  | node c l a r ihl ihr =>
    obtain ⟨ha, hl, hr⟩ := hm
    have h1 : ∀ b ∈ l.toList, s' b = s b := fun b hb => h b (by simp [toList, hb])
    have h2 : ∀ b ∈ r.toList, s' b = s b := fun b hb => h b (by simp [toList, hb])
    refine ⟨?_, ihl hl h1, ihr hr h2⟩
    rw [h a (by simp [toList]), top_congr h1, top_congr h2]
    exact ha

/-- The items of a context. -/
def ctxItems : List (Frame α) → Multiset α
  | [] => 0
  | f :: fs => f.item ::ₘ (↑f.sib.toList + ctxItems fs)

/-- Only the fields of the context matter. -/
theorem MaxAbove.congr {fs : List (Frame α)} {x : WithBot β} (hm : MaxAbove v s fs x)
    (h : ∀ b ∈ ctxItems fs, s' b = s b) : MaxAbove v s' fs x := by
  induction fs generalizing x with
  | nil => exact True.intro
  | cons f fs ih =>
    obtain ⟨ha, hs, hfs⟩ := hm
    have h0 : s' f.item = s f.item := h _ (by simp [ctxItems])
    have h1 : ∀ b ∈ f.sib.toList, s' b = s b := fun b hb => h b (by simp [ctxItems, hb])
    have h2 : ∀ b ∈ ctxItems fs, s' b = s b := fun b hb => h b (by simp [ctxItems, hb])
    refine ⟨?_, hs.congr h1, ?_⟩
    · rw [h0, top_congr h1]
      exact ha
    · rw [h0]
      exact ih hfs h2

/-- Only the fields of the siblings and of the nodes from the second one on matter. -/
theorem StaleAbove.congr {fs : List (Frame α)} (hm : StaleAbove v s fs)
    (h : ∀ b ∈ ctxItems fs, s' b = s b) : StaleAbove v s' fs := by
  cases fs with
  | nil => exact True.intro
  | cons f fs =>
    refine ⟨hm.1.congr fun b hb => h b (by simp [ctxItems, hb]), ?_⟩
    rw [h _ (by simp [ctxItems])]
    exact hm.2.congr fun b hb => h b (by simp [ctxItems, hb])

theorem maxBelow_bare {t : RBTree α} : MaxBelow v s t.bare ↔ MaxBelow v s t := by
  have htop : ∀ t : RBTree α, t.bare.top s = t.top s := fun t => by cases t <;> rfl
  induction t with
  | nil => exact Iff.rfl
  | node c l a r ihl ihr =>
    refine and_congr ?_ (and_congr ihl ihr)
    rw [htop, htop]

/-! ### Items as a multiset -/

theorem toList_nodeAt (d : Dir) (c : Color) (x : RBTree α) (a : α) (y : RBTree α) :
    ((nodeAt d c x a y).toList : Multiset α) = a ::ₘ (↑x.toList + ↑y.toList) := by
  have h : ∀ xs ys : List α, (↑(xs ++ a :: ys) : Multiset α) = a ::ₘ (↑xs + ↑ys) := fun xs ys =>
    Multiset.coe_eq_coe.mpr List.perm_middle
  cases d
  · exact h _ _
  · exact (h _ _).trans (congrArg _ (add_comm _ _))

theorem toList_plug_items (fs : List (Frame α)) (t : RBTree α) :
    ((plug fs t).toList : Multiset α) = ↑t.toList + ctxItems fs := by
  induction fs generalizing t with
  | nil => simp [plug, ctxItems]
  | cons f fs ih =>
    rw [plug, ih, Frame.fill, toList_nodeAt, ctxItems, Multiset.cons_add, Multiset.add_cons,
      add_assoc]

theorem toList_bare (t : RBTree α) : t.bare.toList = t.toList := by
  induction t with
  | nil => rfl
  | node c l a r ihl ihr => rw [bare, toList, toList, ihl, ihr]

/-! ### Rotation -/

section rotate

variable [DecidableEq α]

/-- After a rotation that lifts `new` above `old`, the fields are right when `new` gets the field
of `old`, and then `old` the maximum of what is below it now. -/
theorem maxBelow_rotate {fs : List (Frame α)} {d : Dir} {c b c' b' : Color} {x y z : RBTree α}
    {old new : α} (h : MaxBelow v s (plug fs (nodeAt d c (nodeAt d b x new y) old z)))
    (hn : (plug fs (nodeAt d c (nodeAt d b x new y) old z)).toList.Nodup) {k : β}
    (hk : (k : WithBot β) = max ↑(v old) (max (y.top s) (z.top s))) :
    MaxBelow v (Function.update (Function.update s new (s old)) old k)
      (plug fs (nodeAt d c' x new (nodeAt d b' y old z))) := by
  rw [← Multiset.coe_nodup, toList_plug_items, toList_nodeAt, toList_nodeAt] at hn
  have e : old ::ₘ ((new ::ₘ (↑x.toList + ↑y.toList)) + ↑z.toList) + ctxItems fs =
      old ::ₘ (new ::ₘ (↑x.toList + (↑y.toList + (↑z.toList + ctxItems fs)))) := by
    simp only [Multiset.cons_add, add_assoc]
  rw [e, Multiset.nodup_cons, Multiset.nodup_cons] at hn
  obtain ⟨hold, hnew, -⟩ := hn
  have hne : new ≠ old := fun h => hold (h ▸ Multiset.mem_cons_self ..)
  generalize hs' : Function.update (Function.update s new (s old)) old k = s'
  have hso : s' old = k := by rw [← hs', Function.update_self]
  have hsn : s' new = s old := by
    rw [← hs', Function.update_of_ne hne, Function.update_self]
  have hsame : ∀ i ∈ (↑x.toList + (↑y.toList + (↑z.toList + ctxItems fs)) : Multiset α),
      s' i = s i := by
    intro i hi
    have h1 : i ≠ old := fun h => hold (h ▸ Multiset.mem_cons_of_mem hi)
    have h2 : i ≠ new := fun h => hnew (h ▸ hi)
    rw [← hs', Function.update_of_ne h1, Function.update_of_ne h2]
  have hx : ∀ i ∈ x.toList, s' i = s i := fun i hi => hsame i (by simp [hi])
  have hy : ∀ i ∈ y.toList, s' i = s i := fun i hi => hsame i (by simp [hi])
  have hz : ∀ i ∈ z.toList, s' i = s i := fun i hi => hsame i (by simp [hi])
  rw [maxBelow_plug, top_nodeAt, maxBelow_nodeAt, maxBelow_nodeAt, top_nodeAt] at h
  obtain ⟨⟨ho, ⟨hn', hx', hy'⟩, hz'⟩, hfs⟩ := h
  rw [maxBelow_plug, top_nodeAt, maxBelow_nodeAt, maxBelow_nodeAt, top_nodeAt, hso, hsn,
    top_congr hx, top_congr hy, top_congr hz, hk]
  refine ⟨⟨?_, hx'.congr hx, rfl, hy'.congr hy, hz'.congr hz⟩, ?_⟩
  · rw [ho, hn']
    simp only [max_left_comm, max_assoc]
  · exact hfs.congr fun i hi => hsame i (by simp [hi])

end rotate

end CcUtils.Lib.RedBlack
