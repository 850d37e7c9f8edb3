import CcUtils.Rbtree.Erase
import Mathlib.Data.Finset.Card

/-!
# Runs of the tree's operations

A run links, erases and replaces nodes in any order, starting from the empty root. Which nodes are
linked is what the callers have to keep track of; everything else is the tree's own business.

## What is proved

* `WellFormed.add`, `WellFormed.erase`, `WellFormed.replace` — one operation keeps the tree a sorted
  red-black tree of exactly the linked nodes.
* `run_wellFormed` — so does every run, after each of its steps, and the height stays logarithmic.
-/

namespace CcUtils.Rbtree

open CcUtils.Lib CcUtils.Lib.RedBlack CcUtils.Lib.RedBlack.RBTree

variable {σ : Type} {cmp : NodeRef → NodeRef → ℤ}

/-! ### One operation -/

/-- The memory holds a red-black tree of exactly the linked nodes, sorted by `cmp`. -/
structure WellFormed (cmp : NodeRef → NodeRef → ℤ) (m : Mem σ) (linked : Finset NodeRef)
    (t : RBTree NodeRef) : Prop where
  represents : Represents m t
  isRB : t.IsRB
  sorted : t.toList.Pairwise fun a b => cmp a b ≤ 0
  mem_iff : ∀ a, a ∈ t.toList ↔ a ∈ linked

/-- The tree has as many nodes as there are linked ones. -/
theorem WellFormed.size_eq {m : Mem σ} {linked : Finset NodeRef} {t : RBTree NodeRef}
    (h : WellFormed cmp m linked t) : t.size = linked.card := by
  have e : linked = ⟨↑t.toList, Multiset.coe_nodup.mpr h.represents.nodup⟩ :=
    Finset.ext fun a => (h.mem_iff a).symm
  rw [← length_toList, e]
  rfl

theorem WellFormed.height_lt {m : Mem σ} {linked : Finset NodeRef} {t : RBTree NodeRef}
    (h : WellFormed cmp m linked t) : t.height < linked.card + 1 := by
  rw [← h.size_eq]
  exact Nat.lt_succ_of_le t.height_le_size

/-- Only the comparisons of linked nodes matter. -/
theorem WellFormed.congr {cmp' : NodeRef → NodeRef → ℤ} {m : Mem σ} {linked : Finset NodeRef}
    {t : RBTree NodeRef} (h : WellFormed cmp m linked t)
    (hc : ∀ a ∈ linked, ∀ b ∈ linked, cmp' a b = cmp a b) : WellFormed cmp' m linked t where
  represents := h.represents
  isRB := h.isRB
  sorted := h.sorted.imp_of_mem fun {a b} ha hb hab => by
    rwa [hc a ((h.mem_iff a).mp ha) b ((h.mem_iff b).mp hb)]
  mem_iff := h.mem_iff

/-- The empty root. -/
theorem WellFormed.empty {m : Mem σ} (h : m.rbNode = 0) : WellFormed cmp m ∅ .nil where
  represents := ⟨h, Owns.zero _⟩
  isRB := ⟨rfl, 0, rfl⟩
  sorted := List.Pairwise.nil
  mem_iff a := by simp [toList]

/-- `rb_add` leaves a red-black tree with the new node in its place. -/
theorem rbAdd_placed (hcmp : TotalPreorder cmp) {m : Mem σ} {t : RBTree NodeRef} {a : NodeRef}
    {fuel : ℕ} (h : Represents m t) (ht : t.IsRB) (hs : t.toList.Pairwise fun x y => cmp x y ≤ 0)
    (ha : a ∉ t.toList) (hfuel : t.height < fuel) :
    Post (rbAdd cmp fuel m a) fun m' =>
      ∃ t', Represents m' t' ∧ t'.IsRB ∧ t'.toList = placed cmp a t.toList := by
  refine (rbAdd_spec cmp h ht ha hfuel).mono fun m' h' => ?_
  exact ⟨_, h', insertItem_isRB _ _ ht, insertItem_placed hcmp a hs⟩

/-- `rb_add` of a node that is not linked. -/
theorem WellFormed.add (hcmp : TotalPreorder cmp) {m : Mem σ} {linked : Finset NodeRef}
    {t : RBTree NodeRef} {a : NodeRef} {fuel : ℕ} (h : WellFormed cmp m linked t)
    (ha : a ∉ linked) (hfuel : t.height < fuel) :
    Post (rbAdd cmp fuel m a) fun m' => ∃ t', WellFormed cmp m' (insert a linked) t' := by
  have hat : a ∉ t.toList := fun hm => ha ((h.mem_iff a).mp hm)
  refine (rbAdd_placed hcmp h.represents h.isRB h.sorted hat hfuel).mono fun m' h' => ?_
  obtain ⟨t', hrep, hrb, hl⟩ := h'
  refine ⟨t', hrep, hrb, ?_, fun b => ?_⟩
  · rw [hl]
    exact pairwise_placed hcmp a h.sorted
  · rw [hl, (perm_placed cmp a t.toList).mem_iff, List.mem_cons, Finset.mem_insert, h.mem_iff]

/-- `rb_erase` of a linked node. -/
theorem WellFormed.erase {m : Mem σ} {linked : Finset NodeRef} {t : RBTree NodeRef} {a : NodeRef}
    {fuel : ℕ} (h : WellFormed cmp m linked t) (ha : a ∈ linked) (hfuel : t.height < fuel) :
    Post (rbErase fuel m a) fun m' => ∃ t', WellFormed cmp m' (linked.erase a) t' := by
  have hat : a ∈ t.toList := (h.mem_iff a).mpr ha
  refine (rbErase_spec h.represents h.isRB hat hfuel).mono fun m' h' => ?_
  obtain ⟨t', hrep, hrb, hl⟩ := h'
  refine ⟨t', hrep, hrb, ?_, fun b => ?_⟩
  · rw [hl]
    exact h.sorted.sublist (List.erase_sublist)
  · rw [hl, h.represents.nodup.mem_erase_iff, Finset.mem_erase, h.mem_iff]

/-- `rb_replace_node` of a linked node by one that is not linked and compares equal to it. -/
theorem WellFormed.replace (hcmp : TotalPreorder cmp) {m : Mem σ} {linked : Finset NodeRef}
    {t : RBTree NodeRef} {a b : NodeRef} (h : WellFormed cmp m linked t) (ha : a ∈ linked)
    (hb : b ∉ linked) (hab : cmp a b = 0) :
    Post (rbReplaceNode m a b) fun m' =>
      ∃ t', WellFormed cmp m' (insert b (linked.erase a)) t' := by
  have hat : a ∈ t.toList := (h.mem_iff a).mpr ha
  have hbt : b ∉ t.toList := fun hm => hb ((h.mem_iff b).mp hm)
  refine (rbReplaceNode_spec h.represents h.isRB hat hbt).mono fun m' h' => ?_
  obtain ⟨t', pre, post, hrep, hrb, hl, hl'⟩ := h'
  have hs := h.sorted
  have hnd := h.represents.nodup
  rw [hl, List.pairwise_append, List.pairwise_cons] at hs
  rw [hl, List.nodup_append, List.nodup_cons] at hnd
  obtain ⟨hpre, ⟨hpost, hpp⟩, hcross⟩ := hs
  refine ⟨t', hrep, hrb, ?_, fun x => ?_⟩
  · rw [hl', List.pairwise_append, List.pairwise_cons]
    have hle : cmp b a ≤ 0 := hcmp.le_of_eq hab
    refine ⟨hpre, ⟨fun y hy => hcmp.trans _ _ _ hle (hpost y hy), hpp⟩, fun x hx y hy => ?_⟩
    rcases List.mem_cons.mp hy with rfl | hy
    · exact hcmp.trans _ _ _ (hcross x hx a (List.mem_cons_self ..)) (le_of_eq hab)
    · exact hcross x hx y (List.mem_cons_of_mem _ hy)
  · rw [hl', Finset.mem_insert, Finset.mem_erase, ← h.mem_iff, hl]
    simp only [List.mem_append, List.mem_cons]
    have h1 : ∀ x ∈ pre, x ≠ a := fun x hx => hnd.2.2 x hx a (List.mem_cons_self ..)
    have h2 : ∀ x ∈ post, x ≠ a := fun x hx e => hnd.2.1.1 (e ▸ hx)
    constructor
    · rintro (hx | rfl | hx)
      · exact .inr ⟨h1 x hx, .inl hx⟩
      · exact .inl rfl
      · exact .inr ⟨h2 x hx, .inr (.inr hx)⟩
    · rintro (rfl | ⟨hne, hx | rfl | hx⟩)
      · exact .inr (.inl rfl)
      · exact .inl hx
      · exact absurd rfl hne
      · exact .inr (.inr hx)

/-! ### Search -/

/-- The loop of `rb_find_first` follows `findFirst`. -/
theorem rbFindFirstLoop_spec (c : NodeRef → ℤ) {m : Mem σ} {x p fuel : ℕ} {t : RBTree NodeRef}
    {cs : Cells} (h : State m x (cells p t + cs)) (found : Option NodeRef)
    (hfuel : t.height < fuel) :
    rbFindFirstLoop c m fuel (ptr t) (found.elim 0 (·.val)) =
      .ok ((findFirst c t found).elim 0 (·.val)) := by
  induction t generalizing p fuel cs found with
  | nil =>
    obtain ⟨fuel, rfl⟩ : ∃ k, fuel = k + 1 := ⟨fuel - 1, by omega⟩
    rfl
  | node b l a r ihl ihr =>
    obtain ⟨fuel, rfl⟩ : ∃ k, fuel = k + 1 := ⟨fuel - 1, by omega⟩
    simp only [height] at hfuel
    have h1 := h.perm (cells_node_add ..)
    rw [rbFindFirstLoop, ptr_node, if_neg a.ne_zero, deref_ref, ok_bind, h1.owns.read, findFirst]
    by_cases hle : c a ≤ 0
    · have hfl : l.height < fuel := by omega
      have hl := ihl (h1.perm (show _ = cells a l + (cell a ⟨word p b, ptr r, ptr l⟩ +
        (cells a r + cs)) by ac_rfl)) (if c a = 0 then some a else found) hfl
      rw [if_pos hle, if_pos hle, ← hl]
      by_cases h0 : c a = 0
      · rw [if_pos h0, if_pos h0]
        rfl
      · rw [if_neg h0, if_neg h0]
    · rw [if_neg hle, if_neg hle]
      exact ihr (h1.perm (show _ = cells a r + (cell a ⟨word p b, ptr r, ptr l⟩ +
        (cells a l + cs)) by ac_rfl)) found (by omega)

/-- `rb_find_first` returns the first node that compares equal to the key, or NULL. -/
theorem rbFindFirst_spec {c : NodeRef → ℤ} {m : Mem σ} {t : RBTree NodeRef} {fuel : ℕ}
    (h : Represents m t) (hc : KeyOrdered c t.toList) (hfuel : t.height < fuel) :
    rbFindFirst c fuel m = .ok ((t.toList.find? fun a => c a = 0).elim 0 (·.val)) := by
  have h1 := State.perm h (add_zero _).symm
  have hloop := rbFindFirstLoop_spec c h1 none hfuel
  rw [findFirst_eq hc, Option.or_none] at hloop
  rw [rbFindFirst, h.root]
  exact hloop

/-! ### Runs -/

/-- An operation on the tree. -/
inductive Op where
  | add (node : NodeRef)
  | erase (node : NodeRef)
  | replace (victim new : NodeRef)

/-- The linked nodes after an operation. -/
def Op.linked (s : Finset NodeRef) : Op → Finset NodeRef
  | .add a => insert a s
  | .erase a => s.erase a
  | .replace a b => insert b (s.erase a)

/-- The operation keeps to the rules: only nodes that are not linked are linked, and only linked
ones taken out; a node is replaced by one that compares equal. -/
def Op.Valid (cmp : NodeRef → NodeRef → ℤ) (s : Finset NodeRef) : Op → Prop
  | .add a => a ∉ s
  | .erase a => a ∈ s
  | .replace a b => a ∈ s ∧ b ∉ s ∧ cmp a b = 0

instance (cmp : NodeRef → NodeRef → ℤ) (s : Finset NodeRef) (op : Op) :
    Decidable (op.Valid cmp s) :=
  match op with
  | .add a => inferInstanceAs (Decidable (a ∉ s))
  | .erase a => inferInstanceAs (Decidable (a ∈ s))
  | .replace a b => inferInstanceAs (Decidable (a ∈ s ∧ b ∉ s ∧ cmp a b = 0))

/-- Call the operation. -/
def Op.exec (cmp : NodeRef → NodeRef → ℤ) (fuel : ℕ) (m : Mem σ) : Op → Exec (Mem σ)
  | .add a => rbAdd cmp fuel m a
  | .erase a => rbErase fuel m a
  | .replace a b => rbReplaceNode m a b

/-- Call the operations one after the other. -/
def run (cmp : NodeRef → NodeRef → ℤ) (fuel : ℕ) (m : Mem σ) (ops : List Op) : Exec (Mem σ) :=
  ops.foldlM (Op.exec cmp fuel) m

/-- The linked nodes after a run. -/
def linkedAfter (s : Finset NodeRef) (ops : List Op) : Finset NodeRef := ops.foldl Op.linked s

/-- Every operation of the run keeps to the rules. -/
def ValidRun (cmp : NodeRef → NodeRef → ℤ) : Finset NodeRef → List Op → Prop
  | _, [] => True
  | s, op :: ops => op.Valid cmp s ∧ ValidRun cmp (op.linked s) ops

instance decidableValidRun (cmp : NodeRef → NodeRef → ℤ) :
    (s : Finset NodeRef) → (ops : List Op) → Decidable (ValidRun cmp s ops)
  | _, [] => inferInstanceAs (Decidable True)
  | s, op :: ops =>
    have := decidableValidRun cmp (op.linked s) ops
    inferInstanceAs (Decidable (op.Valid cmp s ∧ ValidRun cmp (op.linked s) ops))

theorem Op.card_linked (s : Finset NodeRef) (op : Op) : (op.linked s).card ≤ s.card + 1 := by
  cases op with
  | add a => exact Finset.card_insert_le a s
  | erase a => exact (Finset.card_erase_le).trans (Nat.le_succ _)
  | replace a b =>
    exact (Finset.card_insert_le b _).trans (Nat.succ_le_succ Finset.card_erase_le)

/-- One step keeps the tree well formed. -/
theorem Op.exec_wellFormed (hcmp : TotalPreorder cmp) {m : Mem σ} {s : Finset NodeRef}
    {t : RBTree NodeRef} {op : Op} {fuel : ℕ} (h : WellFormed cmp m s t) (hop : op.Valid cmp s)
    (hfuel : s.card < fuel) :
    Post (op.exec cmp fuel m) fun m' => ∃ t', WellFormed cmp m' (op.linked s) t' := by
  have hh := h.height_lt
  cases op with
  | add a => exact h.add hcmp hop (by omega)
  | erase a => exact h.erase hop (by omega)
  | replace a b => exact h.replace hcmp hop.1 hop.2.1 hop.2.2

/-- A whole run keeps the tree well formed. -/
theorem run_of_wellFormed (hcmp : TotalPreorder cmp) {m : Mem σ} {s : Finset NodeRef}
    {t : RBTree NodeRef} {ops : List Op} {fuel : ℕ} (h : WellFormed cmp m s t)
    (hops : ValidRun cmp s ops) (hfuel : s.card + ops.length < fuel) :
    Post (run cmp fuel m ops) fun m' => ∃ t', WellFormed cmp m' (linkedAfter s ops) t' := by
  induction ops generalizing m s t with
  | nil => exact Post.pure ⟨t, h⟩
  | cons op ops ih =>
    obtain ⟨hop, hops⟩ := hops
    rw [List.length_cons] at hfuel
    rw [run, List.foldlM_cons]
    refine (Op.exec_wellFormed hcmp h hop (by omega)).bind fun m' h' => ?_
    obtain ⟨t', h'⟩ := h'
    have hcard := op.card_linked s
    exact ih h' hops (by omega)

theorem ValidRun.of_prefix {s : Finset NodeRef} {ops : List Op} (h : ValidRun cmp s ops)
    {pre : List Op} (hpre : pre <+: ops) : ValidRun cmp s pre := by
  induction pre generalizing s ops with
  | nil => trivial
  | cons op pre ih =>
    obtain ⟨post, rfl⟩ := hpre
    exact ⟨h.1, ih h.2 ⟨post, rfl⟩⟩

/-- Starting from an empty root, after each step of a run the memory holds a red-black tree of
exactly the linked nodes, sorted by the comparison, and its height is logarithmic. -/
theorem run_wellFormed (hcmp : TotalPreorder cmp) {m : Mem σ} (hm : m.rbNode = 0) {ops : List Op}
    (hops : ValidRun cmp ∅ ops) {fuel : ℕ} (hfuel : ops.length < fuel) {pre : List Op}
    (hpre : pre <+: ops) :
    ∃ m' t, run cmp fuel m pre = .ok m' ∧ WellFormed cmp m' (linkedAfter ∅ pre) t ∧
      t.size = (linkedAfter ∅ pre).card ∧ 2 ^ t.height ≤ (t.size + 1) ^ 2 := by
  have hlen : (∅ : Finset NodeRef).card + pre.length < fuel := by
    rw [Finset.card_empty, Nat.zero_add]
    exact lt_of_le_of_lt hpre.length_le hfuel
  obtain ⟨m', hrun, t, ht⟩ :=
    run_of_wellFormed hcmp (WellFormed.empty hm) (hops.of_prefix hpre) hlen
  exact ⟨m', t, hrun, ht, ht.size_eq, ht.isRB.height_bound⟩

/-- The node at an address. -/
def nodeRef (k : ℕ) : NodeRef := ⟨8 * (k + 1), by omega, Nat.dvd_mul_right 8 (k + 1)⟩

/-- A comparison under which the nodes at two neighbouring addresses are equal. -/
def pairCmp (a b : NodeRef) : ℤ := (a : ℕ) / 16 - (b : ℕ) / 16

theorem pairCmp_totalPreorder : TotalPreorder pairCmp where
  swap a b := by
    simp only [pairCmp]
    omega
  trans a b c h1 h2 := by
    simp only [pairCmp] at h1 h2 ⊢
    omega

/-- Three insertions, a replacement and a removal. -/
def someOps : List Op :=
  [.add (nodeRef 1), .add (nodeRef 3), .add (nodeRef 5), .replace (nodeRef 1) (nodeRef 2),
    .erase (nodeRef 3)]

theorem run_wellFormed_someOps :
    ∃ m' t, run pairCmp 6 (⟨fun _ => ⟨0, 0, 0⟩, 0, ()⟩ : Mem Unit) someOps = .ok m' ∧
      WellFormed pairCmp m' (linkedAfter ∅ someOps) t ∧
      t.size = (linkedAfter ∅ someOps).card ∧ 2 ^ t.height ≤ (t.size + 1) ^ 2 := by
  have hv : ValidRun pairCmp ∅ someOps := by decide
  exact run_wellFormed pairCmp_totalPreorder rfl hv (by decide) (List.prefix_refl _)

end CcUtils.Rbtree
