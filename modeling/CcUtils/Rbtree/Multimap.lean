import CcUtils.Rbtree.Postorder
import CcUtils.Rbtree.Walk
import Mathlib.Data.Nat.Log

/-!
# The tree as a sorted sequence

Its users see a sequence: sorted by their comparison, equal nodes in the order in which they came. They add
and take out nodes, look for a key, and step from node to node, in any order, and nothing of the tree shows
but its cost.

## What is proved

* `Shows.update` — `rb_add`, `rb_erase` and `rb_replace_node` do to the sequence what they should.
* `Shows.ask` — what the lookups, the steps and the loops return is read off the sequence.
* `store_refines` — so for every run, in which no loop up or down the tree takes more turns than twice the
  logarithm of the greatest number of nodes.
-/

namespace CcUtils.Rbtree

open CcUtils.Lib CcUtils.Lib.RedBlack CcUtils.Lib.RedBlack.RBTree

variable {σ : Type} {cmp : NodeRef → NodeRef → ℤ}

/-! ### What users ask -/

/-- A question about the tree. A key is given by its comparison with the nodes. -/
inductive Query where
  | findFirst (key : NodeRef → ℤ)
  | nextMatch (node : NodeRef) (key : NodeRef → ℤ)
  | first
  | last
  | next (node : NodeRef)
  | prev (node : NodeRef)
  /-- The loop from `rb_find_first` on by `rb_next_match`. -/
  | equalRange (key : NodeRef → ℤ)
  /-- The loops from `rb_first` on by `rb_next`, and from `rb_last` on by `rb_prev`. -/
  | forward
  | backward

/-- Ask it. A loop of the tree takes less than `depth` turns, a caller's loop less than `fuel`. -/
def Query.ask (depth fuel : ℕ) (m : Mem σ) : Query → Exec (List ℕ)
  | .findFirst c => do
    let n ← rbFindFirst c depth m
    return [n]
  | .nextMatch a c => do
    let n ← rbNextMatch c depth m a
    return [n]
  | .first => do
    let n ← rbFirst depth m
    return [n]
  | .last => do
    let n ← rbLast depth m
    return [n]
  | .next a => do
    let n ← rbNext depth m a
    return [n]
  | .prev a => do
    let n ← rbPrev depth m a
    return [n]
  | .equalRange c => do
    let n ← rbFindFirst c depth m
    rbWalk (rbNextMatch c depth m) fuel n
  | .forward => do
    let n ← rbFirst depth m
    rbWalk (rbNext depth m) fuel n
  | .backward => do
    let n ← rbLast depth m
    rbWalk (rbPrev depth m) fuel n

/-- The nodes after `a`. -/
def following (a : NodeRef) (q : List NodeRef) : List NodeRef := (q.dropWhile (· ≠ a)).tail

/-- What a sequence answers. -/
def Query.answer (q : List NodeRef) : Query → List ℕ
  | .findFirst c => [headPtr (q.filter (c · = 0))]
  | .nextMatch a c => [headPtr ((following a q).filter (c · = 0))]
  | .first => [headPtr q]
  | .last => [headPtr q.reverse]
  | .next a => [headPtr (following a q)]
  | .prev a => [headPtr (following a q.reverse)]
  | .equalRange c => (q.filter (c · = 0)).map (·.val)
  | .forward => q.map (·.val)
  | .backward => q.reverse.map (·.val)

/-- The comparison with a key goes along with the order of the nodes. -/
structure KeyFor (cmp : NodeRef → NodeRef → ℤ) (c : NodeRef → ℤ) : Prop where
  above : ∀ a b, cmp a b ≤ 0 → 0 < c b → 0 < c a
  below : ∀ a b, cmp a b ≤ 0 → c a < 0 → c b < 0

theorem KeyFor.ordered {c : NodeRef → ℤ} (h : KeyFor cmp c) {q : List NodeRef}
    (hs : q.Pairwise fun a b => cmp a b ≤ 0) : KeyOrdered c q :=
  hs.imp fun hab => ⟨h.above _ _ hab, h.below _ _ hab⟩

/-- The question keeps to the rules: keys go along with the order, and a step starts at a node of the tree,
one that matches if it is a step to the next match. -/
def Query.Allowed (cmp : NodeRef → NodeRef → ℤ) (q : List NodeRef) : Query → Prop
  | .findFirst c | .equalRange c => KeyFor cmp c
  | .nextMatch a c => KeyFor cmp c ∧ a ∈ q ∧ c a = 0
  | .next a | .prev a => a ∈ q
  | .first | .last | .forward | .backward => True

/-- What an operation does to the sequence. -/
def Op.sequence (cmp : NodeRef → NodeRef → ℤ) (q : List NodeRef) : Op → List NodeRef
  | .add a => placed cmp a q
  | .erase a => q.erase a
  | .replace a b => q.map fun x => if x = a then b else x

/-- It keeps to the rules. -/
def Op.Allowed (cmp : NodeRef → NodeRef → ℤ) (q : List NodeRef) : Op → Prop
  | .add a => a ∉ q
  | .erase a => a ∈ q
  | .replace a b => a ∈ q ∧ b ∉ q ∧ cmp a b = 0

instance (cmp : NodeRef → NodeRef → ℤ) (q : List NodeRef) (op : Op) : Decidable (op.Allowed cmp q) :=
  match op with
  | .add a => inferInstanceAs (Decidable (a ∉ q))
  | .erase a => inferInstanceAs (Decidable (a ∈ q))
  | .replace a b => inferInstanceAs (Decidable (a ∈ q ∧ b ∉ q ∧ cmp a b = 0))

/-! ### The sequence of a tree -/

/-- The memory holds a red-black tree of the sequence, which is sorted. -/
structure Shows (cmp : NodeRef → NodeRef → ℤ) (m : Mem σ) (t : RBTree NodeRef) (q : List NodeRef) :
    Prop where
  represents : Represents m t
  isRB : t.IsRB
  toList : t.toList = q
  sorted : q.Pairwise fun a b => cmp a b ≤ 0

variable {m : Mem σ} {t : RBTree NodeRef} {q : List NodeRef}

theorem Shows.nodup (h : Shows cmp m t q) : q.Nodup := h.toList ▸ h.represents.nodup

/-- A red-black tree is at most twice the logarithm high. -/
theorem Shows.height_le (h : Shows cmp m t q) : t.height ≤ 2 * Nat.log 2 (q.length + 1) := by
  obtain ⟨hc, n, hn⟩ := h.isRB
  have hsize : t.size = q.length := by rw [← length_toList, h.toList]
  have hlog : n ≤ Nat.log 2 (q.length + 1) := by
    apply Nat.le_log_of_pow_le (by omega)
    rw [← hsize]
    exact hn.pow_le_size
  have hle := hn.height_le
  rw [hc] at hle
  have hheight : t.height ≤ n * 2 := by simpa [Color.weight, mul_comm] using hle
  omega

theorem following_append {a : NodeRef} {pre post : List NodeRef} (h : a ∉ pre) :
    following a (pre ++ a :: post) = post := by
  rw [following, List.dropWhile_append_of_pos, List.dropWhile_cons_of_neg, List.tail_cons]
  · simp
  · intro x hx
    have hne : x ≠ a := fun he => h (he ▸ hx)
    simpa using hne

/-- A node of the sequence, with what is before and after it. -/
theorem Shows.split (h : Shows cmp m t q) {a : NodeRef} (ha : a ∈ q) :
    ∃ pre post, q = pre ++ a :: post ∧ following a q = post ∧ following a q.reverse = pre.reverse := by
  obtain ⟨pre, post, rfl⟩ := List.append_of_mem ha
  have hnd := h.nodup
  rw [List.nodup_append, List.nodup_cons] at hnd
  obtain ⟨-, ⟨hpost, -⟩, hcross⟩ := hnd
  have hpre : a ∉ pre := fun hm => hcross a hm a (List.mem_cons_self ..) rfl
  refine ⟨pre, post, rfl, following_append hpre, ?_⟩
  have hrev : (pre ++ a :: post).reverse = post.reverse ++ a :: pre.reverse := by simp
  rw [hrev]
  exact following_append (by simpa using hpost)

/-! ### Operations -/

theorem map_replace {a b : NodeRef} {pre post : List NodeRef} (h : (pre ++ a :: post).Nodup) :
    ((pre ++ a :: post).map fun x => if x = a then b else x) = pre ++ b :: post := by
  rw [List.nodup_append, List.nodup_cons] at h
  obtain ⟨-, ⟨hpost, -⟩, hcross⟩ := h
  have hpre : ∀ x ∈ pre, x ≠ a := fun x hx => hcross x hx a (List.mem_cons_self ..)
  have hpost' : ∀ x ∈ post, x ≠ a := fun x hx he => hpost (he ▸ hx)
  have hsame : ∀ q : List NodeRef, (∀ x ∈ q, x ≠ a) → (q.map fun x => if x = a then b else x) = q := by
    intro q hq
    refine (List.map_congr_left fun x hx => if_neg (hq x hx)).trans (List.map_id' q)
  rw [List.map_append, List.map_cons, if_pos rfl, hsame pre hpre, hsame post hpost']

/-- A node that compares equal may take another's place. -/
theorem pairwise_replace (hcmp : TotalPreorder cmp) {a b : NodeRef} (hab : cmp a b = 0)
    {pre post : List NodeRef} (hs : (pre ++ a :: post).Pairwise fun x y => cmp x y ≤ 0) :
    (pre ++ b :: post).Pairwise fun x y => cmp x y ≤ 0 := by
  rw [List.pairwise_append, List.pairwise_cons] at hs ⊢
  obtain ⟨hpre, ⟨hafter, hpost⟩, hcross⟩ := hs
  have hba : cmp b a ≤ 0 := hcmp.le_of_eq hab
  refine ⟨hpre, ⟨fun y hy => hcmp.trans _ _ _ hba (hafter y hy), hpost⟩, fun x hx y hy => ?_⟩
  rcases List.mem_cons.mp hy with rfl | hy
  · exact hcmp.trans _ _ _ (hcross x hx a (List.mem_cons_self ..)) hab.le
  · exact hcross x hx y (List.mem_cons_of_mem _ hy)

/-- **An operation** on the tree is that on the sequence. -/
theorem Shows.update (hcmp : TotalPreorder cmp) (h : Shows cmp m t q) {op : Op} (hop : op.Allowed cmp q)
    {depth : ℕ} (hdepth : t.height < depth) :
    Post (op.exec cmp depth m) fun m' => ∃ t', Shows cmp m' t' (op.sequence cmp q) := by
  obtain ⟨hrep, hrb, rfl, hs⟩ := h
  cases op with
  | add a =>
    refine (rbAdd_placed hcmp hrep hrb hs hop hdepth).mono fun m' h' => ?_
    obtain ⟨t', hrep', hrb', hl⟩ := h'
    exact ⟨t', hrep', hrb', hl, pairwise_placed hcmp a hs⟩
  | erase a =>
    refine (rbErase_spec hrep hrb hop hdepth).mono fun m' h' => ?_
    obtain ⟨t', hrep', hrb', hl⟩ := h'
    exact ⟨t', hrep', hrb', hl, hs.sublist List.erase_sublist⟩
  | replace a b =>
    obtain ⟨ha, hb, hab⟩ := hop
    refine (rbReplaceNode_spec hrep hrb ha hb).mono fun m' h' => ?_
    obtain ⟨t', pre, post, hrep', hrb', hl, hl'⟩ := h'
    have hnd := hrep.nodup
    rw [hl] at hs hnd
    refine ⟨t', hrep', hrb', ?_, ?_⟩
    · rw [Op.sequence, hl, map_replace hnd, hl']
    · rw [Op.sequence, hl, map_replace hnd]
      exact pairwise_replace hcmp hab hs

/-! ### Questions -/

theorem Shows.next_eq (h : Shows cmp m t q) {a : NodeRef} (ha : a ∈ q) {depth : ℕ}
    (hdepth : t.height < depth) : rbNext depth m a = .ok (headPtr (following a q)) := by
  obtain ⟨pre, post, hq, hpost, -⟩ := h.split ha
  have ho : t.order .left = pre ++ a :: post := h.toList.trans hq
  rw [hpost]
  exact rbNeighbour_spec h.represents .left ho hdepth

theorem Shows.prev_eq (h : Shows cmp m t q) {a : NodeRef} (ha : a ∈ q) {depth : ℕ}
    (hdepth : t.height < depth) : rbPrev depth m a = .ok (headPtr (following a q.reverse)) := by
  obtain ⟨pre, post, hq, -, hpre⟩ := h.split ha
  have ho : t.order .right = post.reverse ++ a :: pre.reverse := by
    rw [order, h.toList, hq]
    simp
  rw [hpre]
  exact rbNeighbour_spec h.represents .right ho hdepth

theorem Shows.findFirst_eq (h : Shows cmp m t q) {c : NodeRef → ℤ} (hc : KeyFor cmp c) {depth : ℕ}
    (hdepth : t.height < depth) : rbFindFirst c depth m = .ok (headPtr (q.filter (c · = 0))) := by
  have hord : KeyOrdered c t.toList := by
    rw [h.toList]
    exact hc.ordered h.sorted
  rw [rbFindFirst_spec h.represents hord hdepth, h.toList, headPtr, List.head?_filter]

theorem Shows.nextMatch_eq (h : Shows cmp m t q) {c : NodeRef → ℤ} (hc : KeyFor cmp c) {a : NodeRef}
    (ha : a ∈ q) (hca : c a = 0) {depth : ℕ} (hdepth : t.height < depth) :
    rbNextMatch c depth m a = .ok (headPtr ((following a q).filter (c · = 0))) := by
  obtain ⟨pre, post, hq, hpost, -⟩ := h.split ha
  have hord : KeyOrdered c t.toList := by
    rw [h.toList]
    exact hc.ordered h.sorted
  rw [hpost]
  exact rbNextMatch_spec h.represents hord (h.toList.trans hq) hca hdepth

/-- The loop over the nodes that match. -/
theorem Shows.matches_eq (h : Shows cmp m t q) {c : NodeRef → ℤ} (hc : KeyFor cmp c) {depth fuel : ℕ}
    (hdepth : t.height < depth) (hfuel : q.length < fuel) :
    (do let n ← rbFindFirst c depth m; rbWalk (rbNextMatch c depth m) fuel n) =
      .ok ((q.filter (c · = 0)).map (·.val)) := by
  have hstep : ∀ (pre : List NodeRef) (a : NodeRef) (post : List NodeRef),
      q.filter (c · = 0) = pre ++ a :: post → rbNextMatch c depth m a = .ok (headPtr post) := by
    intro pre a post he
    have hmem : a ∈ q.filter (c · = 0) := by
      rw [he]
      exact List.mem_append_cons_self
    obtain ⟨ha, hca⟩ := List.mem_filter.mp hmem
    have hca' : c a = 0 := by simpa using hca
    -- the matches after the node are those among the nodes after it
    obtain ⟨pre', post', hq, hpost, -⟩ := h.split ha
    have hnd : (pre ++ a :: post).Nodup := he ▸ h.nodup.filter _
    have hsplit : pre ++ a :: post = pre'.filter (c · = 0) ++ a :: post'.filter (c · = 0) := by
      rw [← he, hq, List.filter_append, List.filter_cons, if_pos hca]
    have hnot : a ∉ pre := fun hm =>
      (List.nodup_append.mp hnd).2.2 a hm a (List.mem_cons_self ..) rfl
    have hnot' : a ∉ pre'.filter (c · = 0) := fun hm =>
      (List.nodup_append.mp (hsplit ▸ hnd)).2.2 a hm a (List.mem_cons_self ..) rfl
    have heq := congrArg (following a) hsplit
    rw [following_append hnot, following_append hnot'] at heq
    rw [h.nextMatch_eq hc ha hca' hdepth, hpost, heq]
  have hlen : (q.filter (c · = 0)).length < fuel := lt_of_le_of_lt (List.length_filter_le ..) hfuel
  have hall : q.filter (c · = 0) = [] ++ q.filter (c · = 0) := rfl
  rw [h.findFirst_eq hc hdepth, ok_bind]
  exact rbWalk_spec hstep hall hlen

/-- A loop from one end to the other. -/
theorem Shows.order_eq (h : Shows cmp m t q) (d : Dir) {depth fuel : ℕ} (hdepth : t.height < depth)
    (hfuel : q.length < fuel) :
    (do let n ← rbEnd d depth m; rbWalk (rbNeighbour d depth m) fuel n) =
      .ok ((t.order d).map (·.val)) := by
  have hlen : (t.order d).length < fuel := by rwa [length_order, h.toList]
  have hall : t.order d = [] ++ t.order d := rfl
  rw [rbEnd_spec h.represents d hdepth, ok_bind]
  exact rbWalk_spec (fun pre a post he => rbNeighbour_spec h.represents d he hdepth) hall hlen

/-- **A question** to the tree is answered by the sequence. -/
theorem Shows.ask (h : Shows cmp m t q) {c : Query} (hc : c.Allowed cmp q) {depth fuel : ℕ}
    (hdepth : t.height < depth) (hfuel : q.length < fuel) : c.ask depth fuel m = .ok (c.answer q) := by
  have hleft : t.order .left = q := h.toList
  have hright : t.order .right = q.reverse := congrArg List.reverse h.toList
  cases c with
  | findFirst c =>
    rw [Query.ask, h.findFirst_eq hc hdepth]
    rfl
  | nextMatch a c =>
    rw [Query.ask, h.nextMatch_eq hc.1 hc.2.1 hc.2.2 hdepth]
    rfl
  | first =>
    rw [Query.ask, rbFirst, rbEnd_spec h.represents .left hdepth, hleft]
    rfl
  | last =>
    rw [Query.ask, rbLast, rbEnd_spec h.represents .right hdepth, hright]
    rfl
  | next a =>
    rw [Query.ask, h.next_eq hc hdepth]
    rfl
  | prev a =>
    rw [Query.ask, h.prev_eq hc hdepth]
    rfl
  | equalRange c => exact h.matches_eq hc hdepth hfuel
  | forward => exact (h.order_eq .left hdepth hfuel).trans (by rw [hleft, Query.answer])
  | backward => exact (h.order_eq .right hdepth hfuel).trans (by rw [hright, Query.answer])

/-- The loop that releases each entry runs through the post-order. -/
theorem Represents.freeAll (h : Represents m t) {fuel : ℕ} (hfuel : t.toList.length < fuel) :
    rbtreePostorderForEachEntrySafe fuel m = .ok t.postorder := by
  have hheight : t.height < fuel := lt_of_le_of_lt t.height_le_length hfuel
  have hlen : t.postorder.length < fuel := by rwa [(postorder_perm t).length_eq]
  have hall : t.postorder = [] ++ t.postorder := rfl
  rw [rbtreePostorderForEachEntrySafe, Mem.getLive_nil, rbFirstPostorder_spec h hheight, ok_bind]
  exact rbtreePostorderLoop_spec h hheight hall hlen

/-! ### Runs -/

/-- What a user does. -/
inductive StoreOp where
  | update (op : Op)
  | ask (question : Query)

/-- Do it; an update answers nothing. -/
def StoreOp.exec (cmp : NodeRef → NodeRef → ℤ) (depth fuel : ℕ) (m : Mem σ) :
    StoreOp → Exec (Mem σ × List ℕ)
  | .update op => do
    let m ← op.exec cmp depth m
    return (m, [])
  | .ask c => do
    let answer ← c.ask depth fuel m
    return (m, answer)

/-- Do one after the other. -/
def storeRun (cmp : NodeRef → NodeRef → ℤ) (depth fuel : ℕ) :
    Mem σ → List StoreOp → Exec (Mem σ × List (List ℕ))
  | m, [] => .ok (m, [])
  | m, op :: ops => do
    let (m, answer) ← op.exec cmp depth fuel m
    let (m, answers) ← storeRun cmp depth fuel m ops
    return (m, answer :: answers)

/-- The sequence after it, the answer, and the rules. -/
def StoreOp.sequence (cmp : NodeRef → NodeRef → ℤ) (q : List NodeRef) : StoreOp → List NodeRef
  | .update op => op.sequence cmp q
  | .ask _ => q

def StoreOp.answer (q : List NodeRef) : StoreOp → List ℕ
  | .update _ => []
  | .ask c => c.answer q

def StoreOp.Allowed (cmp : NodeRef → NodeRef → ℤ) (q : List NodeRef) : StoreOp → Prop
  | .update op => op.Allowed cmp q
  | .ask c => c.Allowed cmp q

/-- The same of a run. -/
def sequenceAfter (cmp : NodeRef → NodeRef → ℤ) (q : List NodeRef) (ops : List StoreOp) : List NodeRef :=
  ops.foldl (StoreOp.sequence cmp) q

def answersOf (cmp : NodeRef → NodeRef → ℤ) : List NodeRef → List StoreOp → List (List ℕ)
  | _, [] => []
  | q, op :: ops => op.answer q :: answersOf cmp (op.sequence cmp q) ops

def AllAllowed (cmp : NodeRef → NodeRef → ℤ) : List NodeRef → List StoreOp → Prop
  | _, [] => True
  | q, op :: ops => op.Allowed cmp q ∧ AllAllowed cmp (op.sequence cmp q) ops

/-- One step, with as many turns as a tree of `size` nodes allows. -/
theorem StoreOp.exec_shows (hcmp : TotalPreorder cmp) (h : Shows cmp m t q) {op : StoreOp}
    (hop : op.Allowed cmp q) {size depth fuel : ℕ} (hsize : q.length ≤ size)
    (hdepth : 2 * Nat.log 2 (size + 1) < depth) (hfuel : q.length < fuel) :
    ∃ m' t', op.exec cmp depth fuel m = .ok (m', op.answer q) ∧
      Shows cmp m' t' (op.sequence cmp q) := by
  have hlog : Nat.log 2 (q.length + 1) ≤ Nat.log 2 (size + 1) := Nat.log_mono_right (by omega)
  have hheight : t.height < depth := by
    have hle := h.height_le
    omega
  cases op with
  | update op =>
    obtain ⟨m', hrun, t', h'⟩ := h.update hcmp hop hheight
    refine ⟨m', t', ?_, h'⟩
    rw [StoreOp.exec, hrun]
    rfl
  | ask c =>
    refine ⟨m, t, ?_, h⟩
    rw [StoreOp.exec, h.ask hop hheight hfuel]
    rfl

/-- A whole run, by induction on it, in which the tree never has more than `size` nodes. -/
theorem storeRun_shows (hcmp : TotalPreorder cmp) (h : Shows cmp m t q) {ops : List StoreOp}
    (hops : AllAllowed cmp q ops) {size depth fuel : ℕ}
    (hsize : ∀ pre, pre <+: ops → (sequenceAfter cmp q pre).length ≤ size)
    (hdepth : 2 * Nat.log 2 (size + 1) < depth) (hfuel : size < fuel) :
    ∃ m' t', storeRun cmp depth fuel m ops = .ok (m', answersOf cmp q ops) ∧
      Shows cmp m' t' (sequenceAfter cmp q ops) := by
  induction ops generalizing m t q with
  | nil => exact ⟨m, t, rfl, h⟩
  | cons op ops ih =>
    have hle : q.length ≤ size := hsize [] List.nil_prefix
    have hrest : ∀ pre, pre <+: ops → (sequenceAfter cmp (op.sequence cmp q) pre).length ≤ size :=
      fun pre hpre => hsize (op :: pre) (List.cons_prefix_cons.mpr ⟨rfl, hpre⟩)
    obtain ⟨m₁, t₁, hstep, h₁⟩ := StoreOp.exec_shows hcmp h hops.1 hle hdepth (by omega : _ < fuel)
    obtain ⟨m₂, t₂, hrun, h₂⟩ := ih h₁ hops.2 hrest
    refine ⟨m₂, t₂, ?_, h₂⟩
    rw [storeRun, hstep, ok_bind]
    dsimp only
    rw [hrun]
    rfl

/-- **Every run** from `RB_ROOT` that keeps to the rules answers as the sequence does. If the tree never has
more than `size` nodes, no loop of it takes more turns than twice the logarithm of `size + 1`, and one more,
and in the end the loop that releases every entry releases the nodes of the sequence, each once. -/
theorem store_refines (hcmp : TotalPreorder cmp) (hm : m.rbNode = 0) {ops : List StoreOp}
    (hops : AllAllowed cmp [] ops) {size depth fuel : ℕ}
    (hsize : ∀ pre, pre <+: ops → (sequenceAfter cmp [] pre).length ≤ size)
    (hdepth : 2 * Nat.log 2 (size + 1) < depth) (hfuel : size < fuel) :
    ∃ m' freed, storeRun cmp depth fuel m ops = .ok (m', answersOf cmp [] ops) ∧
      (sequenceAfter cmp [] ops).Nodup ∧
      (sequenceAfter cmp [] ops).Pairwise (fun a b => cmp a b ≤ 0) ∧
      rbtreePostorderForEachEntrySafe fuel m' = .ok freed ∧ freed.Perm (sequenceAfter cmp [] ops) := by
  have hempty : Shows cmp m nil [] :=
    ⟨⟨hm, Owns.zero _⟩, ⟨rfl, 0, rfl⟩, rfl, List.Pairwise.nil⟩
  obtain ⟨m', t', hrun, h⟩ := storeRun_shows hcmp hempty hops hsize hdepth hfuel
  have hlen : t'.toList.length < fuel := by
    rw [h.toList]
    exact lt_of_le_of_lt (hsize ops List.prefix_rfl) hfuel
  refine ⟨m', t'.postorder, hrun, h.nodup, h.sorted, h.represents.freeAll hlen, ?_⟩
  rw [← h.toList]
  exact postorder_perm t'

/-- The order of the addresses by pairs goes along with itself. -/
theorem keyFor_pairCmp (a : NodeRef) : KeyFor pairCmp (pairCmp a) where
  above x y h h0 := by
    simp only [pairCmp] at h h0 ⊢
    omega
  below x y h h0 := by
    simp only [pairCmp] at h h0 ⊢
    omega

/-- Two equal nodes among others, which are asked for after one of them was replaced and one taken out. -/
def someStoreOps : List StoreOp :=
  [.update (.add (nodeRef 3)), .update (.add (nodeRef 2)), .update (.add (nodeRef 1)),
    .ask (.equalRange (pairCmp (nodeRef 1))), .update (.replace (nodeRef 3) (nodeRef 4)),
    .update (.erase (nodeRef 2)), .ask (.next (nodeRef 1)), .ask .backward]

theorem store_refines_some :
    ∃ m' freed, storeRun pairCmp 5 4 (⟨fun _ => ⟨0, 0, 0⟩, 0, ()⟩ : Mem Unit) someStoreOps =
        .ok (m', answersOf pairCmp [] someStoreOps) ∧
      (sequenceAfter pairCmp [] someStoreOps).Nodup ∧
      (sequenceAfter pairCmp [] someStoreOps).Pairwise (fun a b => pairCmp a b ≤ 0) ∧
      rbtreePostorderForEachEntrySafe 4 m' = .ok freed ∧
      freed.Perm (sequenceAfter pairCmp [] someStoreOps) := by
  have hops : AllAllowed pairCmp [] someStoreOps := by
    have hupdates : Op.Allowed pairCmp [] (.add (nodeRef 3)) ∧
        Op.Allowed pairCmp [nodeRef 3] (.add (nodeRef 2)) ∧
        Op.Allowed pairCmp [nodeRef 2, nodeRef 3] (.add (nodeRef 1)) ∧
        Op.Allowed pairCmp [nodeRef 2, nodeRef 1, nodeRef 3] (.replace (nodeRef 3) (nodeRef 4)) ∧
        Op.Allowed pairCmp [nodeRef 2, nodeRef 1, nodeRef 4] (.erase (nodeRef 2)) := by decide
    obtain ⟨h₁, h₂, h₃, h₄, h₅⟩ := hupdates
    have hnext : nodeRef 1 ∈ [nodeRef 1, nodeRef 4] := List.mem_cons_self ..
    exact ⟨h₁, h₂, h₃, keyFor_pairCmp _, h₄, h₅, hnext, trivial, trivial⟩
  have hsize : ∀ pre, pre <+: someStoreOps → (sequenceAfter pairCmp [] pre).length ≤ 3 := by
    have hinits : ∀ pre ∈ someStoreOps.inits, (sequenceAfter pairCmp [] pre).length ≤ 3 := by decide
    exact fun pre hpre => hinits pre ((List.mem_inits ..).mpr hpre)
  exact store_refines pairCmp_totalPreorder rfl hops hsize (by decide) (by decide)

/-- The answers of that run. -/
example : answersOf pairCmp [] someStoreOps = [[], [], [], [24, 16], [], [], [40], [40, 16]] := by decide

end CcUtils.Rbtree
