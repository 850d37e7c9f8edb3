import CcUtils.Lists.Dtq

/-!
# The linked flag of the circular deque

`dtq_node_is_linked` reads the `next` of the node. The removals that end in `_init_node` clear it, and a
node is then taken to be in no list; `dtq_del`, `dta_del_head` and `dtq_del_tail` leave it as it is, and
so does `dtq_init` with the nodes of its list. The flag of such a node stays up, and the next
`dtq_del_and_init_node` or `dtq_move_and_add_tail` of it links its old neighbours to each other, whatever
has come between them.

A run starts with no list made and no node initialised, in any memory.

## What is proved

* `Tracks.exec` — a call that leaves no flag up keeps every flag right.
* `Tracks.flag_left` — a call that leaves one up is such a one at once.
* `linkedFlag_iff` — so in which runs the flags are right and the lists as they should be.
-/

namespace CcUtils.Lists

open CcUtils.Lib

variable {κ ν : Type} [DecidableEq κ] [DecidableEq ν]

/-! ### Runs with removed nodes -/

/-- The nodes that have been through `dtq_init_node` after the call. -/
def DtqOp.known (K : Finset ν) : DtqOp κ ν → Finset ν
  | .initNode n => insert n K
  | _ => K

/-- The call is one of the life of lists and nodes: it names lists that have been made and nodes that have
been initialised, and links in only nodes that are in no list. The node of `dtq_del_and_init_node` and of
`dtq_move_and_add_tail` may have been removed before. -/
def DtqOp.InUse (A : Tracked κ ν) (K : Finset ν) : DtqOp κ ν → Prop
  | .init _ => True
  | .initNode n => A.lists.Free n
  | .addHead l n => A.lists.Made l ∧ A.lists.Free n ∧ n ∈ K
  | .addTail l n => A.lists.Made l ∧ A.lists.Free n ∧ n ∈ K
  | .addAfter p n => A.lists.IsCell p ∧ A.lists.Free n ∧ n ∈ K
  | .addBefore p n => A.lists.IsCell p ∧ A.lists.Free n ∧ n ∈ K
  | .del n => A.lists.Has n
  | .delHead l => A.lists.Made l
  | .delTail l => A.lists.Made l
  | .delAndInitNode n => n ∈ K
  | .delHeadAndInitNode l => A.lists.Made l
  | .append d s => A.lists.Made d ∧ A.lists.Made s ∧ d ≠ s
  | .moveAndAddTail l n => A.lists.Made l ∧ n ∈ K

/-- The nodes that have been through `dtq_init_node` after the calls. -/
def knownAfter : Finset ν → List (DtqOp κ ν) → Finset ν
  | K, [] => K
  | K, op :: ops => knownAfter (op.known K) ops

/-- So are all calls. -/
def DtqInUse : Tracked κ ν → Finset ν → List (DtqOp κ ν) → Prop
  | _, _, [] => True
  | A, K, op :: ops => op.InUse A K ∧ DtqInUse (op.seqs A) (op.known K) ops

/-- The flags are right, and the lists in memory are the sequences. -/
structure FlagsRight (A : Tracked κ ν) (K : Finset ν) (m : Dtq κ ν) : Prop where
  flag : ∀ n ∈ K, dtqNodeIsLinked m (.node n) = true ↔ A.lists.Has n
  walks : ∀ l q, A.lists l = some q → ∀ fuel, q.length < fuel →
    dtqWalk m.next l fuel (.head l) = .ok (q.map .node) ∧
      dtqWalk m.prev l fuel (.head l) = .ok (q.reverse.map .node)

/-- They are so after any number of the calls. -/
def FlagsHold (m : Dtq κ ν) (A : Tracked κ ν) (K : Finset ν) (ops : List (DtqOp κ ν)) : Prop :=
  ∀ pre post, ops = pre ++ post →
    Post (dtqRun m pre) fun u => FlagsRight (dtqSeqs A pre) (knownAfter K pre) u.1

/-- The call takes nodes out of a list and leaves their `next`. -/
def DtqOp.Leaves (A : Tracked κ ν) : DtqOp κ ν → Prop
  | .init l => A.lists.seq l ≠ []
  | .del n => A.lists.Has n
  | .delHead l => A.lists.seq l ≠ []
  | .delTail l => A.lists.seq l ≠ []
  | _ => False

/-! ### One call -/

variable {m : Dtq κ ν} {A : Tracked κ ν} {K : Finset ν} {l : κ} {q r : List ν} {n : ν}

/-- The nodes of the lists are initialised, and every initialised node is in a list or has been cleared. -/
structure Settled (A : Tracked κ ν) (K : Finset ν) : Prop where
  has : ∀ {n}, A.lists.Has n → n ∈ K
  known : ∀ {n}, n ∈ K → A.lists.Has n ∨ n ∈ A.cleared

/-- And the memory holds the lists. -/
structure Tracks (m : Dtq κ ν) (A : Tracked κ ν) (K : Finset ν) : Prop extends Settled A K where
  rep : m.Rep A

theorem Dtq.Rep.linked {κ ν : Type} {m : Dtq κ ν} {A : Tracked κ ν} {n : ν}
    (h : m.Rep A) (hn : A.lists.Has n) : dtqNodeIsLinked m (.node n) = true := by
  obtain ⟨l, q, r, hl⟩ := hn
  have hl1 : A.lists l = some ((q ++ [n]) ++ r) := by rwa [List.append_assoc]
  have hnext := h.next_eq hl1
  rw [lastCell_append, lastCell_cons, lastCell_nil] at hnext
  simp [dtqNodeIsLinked, hnext]

theorem Dtq.Rep.walks (h : m.Rep A) (hl : A.lists l = some q) {fuel : ℕ} (hf : q.length < fuel) :
    dtqWalk m.next l fuel (.head l) = .ok (q.map .node) ∧
      dtqWalk m.prev l fuel (.head l) = .ok (q.reverse.map .node) := by
  have hrev : q.reverse.length < fuel := by rwa [List.length_reverse]
  exact ⟨dtqWalk_follows (h.next l q hl) hf, dtqWalk_follows (h.prev l _ (Family.mirror_eq hl)) hrev⟩

theorem Tracks.flagsRight (h : Tracks m A K) : FlagsRight A K m where
  flag n hn := by
    constructor
    · intro hlinked
      rcases h.known hn with hhas | hcleared
      · exact hhas
      · obtain ⟨-, hnext, -⟩ := h.rep.cleared n hcleared
        simp [dtqNodeIsLinked, hnext] at hlinked
    · exact h.rep.linked
  walks _ _ hl _ hf := h.rep.walks hl hf

/-- Such a call keeps to the rules of the refinement. -/
theorem Tracks.allowed {κ ν : Type} {m : Dtq κ ν} {A : Tracked κ ν} {K : Finset ν}
    {op : DtqOp κ ν} (h : Tracks m A K) (hop : op.InUse A K) : op.Allowed A := by
  cases op with
  | init l => trivial
  | initNode n => exact hop
  | addHead l n => exact ⟨hop.1, hop.2.1⟩
  | addTail l n => exact ⟨hop.1, hop.2.1⟩
  | addAfter p n => exact ⟨hop.1, hop.2.1⟩
  | addBefore p n => exact ⟨hop.1, hop.2.1⟩
  | del n => exact hop
  | delHead l => exact hop
  | delTail l => exact hop
  | delAndInitNode n => exact h.known hop
  | delHeadAndInitNode l => exact hop
  | append d s => exact hop
  | moveAndAddTail l n => exact ⟨hop.1, h.known hop.2⟩

/-- A node is linked in. -/
theorem Settled.insert {κ ν : Type} [DecidableEq ν] {A : Tracked κ ν} {K : Finset ν} {n : ν}
    {B : Family κ ν} (h : Settled A K) (hn : n ∈ K)
    (hB : ∀ k, B.Has k ↔ k = n ∨ A.lists.Has k) : Settled ⟨B, A.cleared.erase n⟩ K where
  has hk := by
    rcases (hB _).mp hk with rfl | hk
    · exact hn
    · exact h.has hk
  known {k} hk := by
    by_cases hkn : k = n
    · exact .inl ((hB k).mpr (.inl hkn))
    · rcases h.known hk with hhas | hcleared
      · exact .inl ((hB k).mpr (.inr hhas))
      · exact .inr (Finset.mem_erase.mpr ⟨hkn, hcleared⟩)

/-- A node is taken out and cleared. -/
theorem Settled.remove {κ ν : Type} [DecidableEq ν] {A : Tracked κ ν} {K : Finset ν} {n : ν}
    {B : Family κ ν} (h : Settled A K)
    (hB : ∀ k, B.Has k ↔ A.lists.Has k ∧ k ≠ n) : Settled ⟨B, Insert.insert n A.cleared⟩ K where
  has hk := h.has ((hB _).mp hk).1
  known {k} hk := by
    by_cases hkn : k = n
    · exact .inr (Finset.mem_insert.mpr (.inl hkn))
    · rcases h.known hk with hhas | hcleared
      · exact .inl ((hB k).mpr ⟨hhas, hkn⟩)
      · exact .inr (Finset.mem_insert_of_mem hcleared)

/-- The same nodes, in other lists. -/
theorem Settled.congr {κ ν : Type} {A : Tracked κ ν} {K : Finset ν}
    {B : Family κ ν} (h : Settled A K) (hB : ∀ k, B.Has k ↔ A.lists.Has k) :
    Settled ⟨B, A.cleared⟩ K where
  has hk := h.has ((hB _).mp hk)
  known hk := (h.known hk).imp_left (hB _).mpr

/-- **A call that leaves no flag up** keeps every initialised node in a list or cleared. -/
theorem Settled.seqs {op : DtqOp κ ν} (h : Settled A K) (hsep : A.lists.Separate)
    (hop : op.InUse A K) (hleaves : ¬ op.Leaves A) : Settled (op.seqs A) (op.known K) := by
  cases op with
  | init l =>
    have hq : A.lists.seq l = [] := not_not.mp hleaves
    refine h.congr fun k => ?_
    exact Family.has_put_nil hq
  | initNode n =>
    refine ⟨fun hk => Finset.mem_insert_of_mem (h.has hk), fun {k} hk => ?_⟩
    rcases Finset.mem_insert.mp hk with rfl | hk
    · exact .inr (Finset.mem_insert_self ..)
    · exact (h.known hk).imp_right Finset.mem_insert_of_mem
  | addHead l n =>
    have hl : A.lists l = some ([] ++ A.lists.seq l) := hop.1.eq
    exact h.insert hop.2.2 fun k => hsep.has_insert hl
  | addTail l n =>
    have hl : A.lists l = some (A.lists.seq l ++ []) := by rw [List.append_nil, hop.1.eq]
    exact h.insert hop.2.2 fun k => hsep.has_insert hl
  | addAfter p n =>
    obtain ⟨l, q, r, hl, -, he⟩ := hsep.addAfter_place hop.1 n
    refine h.insert hop.2.2 fun k => ?_
    rw [he]
    exact hsep.has_insert hl
  | addBefore p n =>
    obtain ⟨l, q, r, hl, -, he⟩ := hsep.addBefore_place hop.1 n
    refine h.insert hop.2.2 fun k => ?_
    rw [he]
    exact hsep.has_insert hl
  | del n => exact absurd hop hleaves
  | delHead l =>
    have hq : A.lists.seq l = [] := not_not.mp hleaves
    refine h.congr fun k => ?_
    rw [hq, List.tail_nil]
    exact Family.has_put_nil hq
  | delTail l =>
    have hq : A.lists.seq l = [] := not_not.mp hleaves
    refine h.congr fun k => ?_
    rw [hq, List.dropLast_nil]
    exact Family.has_put_nil hq
  | delAndInitNode n => exact h.remove fun k => hsep.has_erase
  | delHeadAndInitNode l =>
    have hl : A.lists l = some (A.lists.seq l) := Family.Made.eq hop
    rw [DtqOp.seqs]
    cases hq : A.lists.seq l with
    | nil =>
      rw [hq] at hl
      rw [List.tail_nil, Family.put_of_eq hl]
      exact h
    | cons n t =>
      have hl : A.lists l = some ([] ++ n :: t) := by rw [hl, hq]; rfl
      exact h.remove fun k => hsep.has_remove hl
  | append d s => exact h.congr fun k => Family.has_append hop.2.2
  | moveAndAddTail l n =>
    have hl : A.lists.edit (·.erase n) l = some ((A.lists.edit (·.erase n)).seq l ++ []) := by
      rw [List.append_nil, (hop.1.edit _).eq]
    refine h.insert hop.2 fun k => ?_
    refine ((hsep.erase n).has_insert hl).trans ?_
    rw [hsep.has_erase]
    tauto

theorem Tracks.exec {op : DtqOp κ ν} (h : Tracks m A K) (hop : op.InUse A K)
    (hleaves : ¬ op.Leaves A) : Post (op.exec m) fun u => Tracks u.1 (op.seqs A) (op.known K) := by
  refine (dtqStep_refines h.rep (h.allowed hop)).mono fun u hu => ?_
  exact ⟨h.toSettled.seqs h.rep.separate hop hleaves, hu.2⟩

/-- A member that is free afterwards, with its `next` as it was, has its flag up. -/
theorem Tracks.not_flagsRight {op : DtqOp κ ν} {m' : Dtq κ ν} (h : Tracks m A K) (hn : A.lists.Has n)
    (hK : op.known K = K) (hfree : (op.seqs A).lists.Free n)
    (hnext : m'.next (.node n) = m.next (.node n)) : ¬ FlagsRight (op.seqs A) (op.known K) m' := by
  intro hright
  have hlinked := h.rep.linked hn
  rw [dtqNodeIsLinked, ← hnext] at hlinked
  exact hfree.not_has ((hright.flag n (hK.symm ▸ h.has hn)).mp hlinked)

theorem Dtq.Rep.linkOut_next (h : m.Rep A) (hl : A.lists l = some (q ++ n :: r)) :
    (m.linkOut l q r).next (.node n) = m.next (.node n) := by
  have hne : (.node n : Cell κ ν) ≠ lastCell (.head l) q :=
    (lastCell_ne_node (h.separate.nodup hl) (List.mem_cons_self ..)).symm
  exact Function.update_of_ne hne ..

/-- **A call that leaves a flag up**: a node is in no list then, and its flag is up. -/
theorem Tracks.flag_left {op : DtqOp κ ν} (h : Tracks m A K) (hop : op.InUse A K)
    (hleaves : op.Leaves A) :
    Post (op.exec m) fun u => ¬ FlagsRight (op.seqs A) (op.known K) u.1 := by
  have hsep := h.rep.separate
  cases op with
  | init l =>
    obtain ⟨n, t, hq⟩ := List.exists_cons_of_ne_nil hleaves
    have hl : A.lists l = some (n :: t) := by
      cases hl : A.lists l with
      | none => simp [Family.seq, hl] at hq
      | some q => rw [← hq, Family.seq_eq hl]
    have hne : (.node n : Cell κ ν) ≠ .head l := by
      rintro ⟨⟩
    have hnext : (dtqInit m l).next (.node n) = m.next (.node n) := by
      rw [dtqInit_next, Function.update_of_ne hne]
    exact ⟨_, rfl, h.not_flagsRight ⟨l, [], t, hl⟩ rfl (hsep.free_init hl (List.mem_cons_self ..)) hnext⟩
  | del n =>
    obtain ⟨l, q, r, hl⟩ := hleaves
    have hfree : (A.lists.edit (·.erase n)).Free n := by
      rw [hsep.erase_eq hl]
      exact hsep.free_remove hl
    rw [DtqOp.exec, h.rep.del hl]
    exact ⟨_, rfl, h.not_flagsRight ⟨l, q, r, hl⟩ rfl hfree (h.rep.linkOut_next hl)⟩
  | delHead l =>
    obtain ⟨n, t, hq⟩ := List.exists_cons_of_ne_nil hleaves
    have hl : A.lists l = some ([] ++ n :: t) := (Family.Made.eq hop).trans (congrArg some hq)
    have hfree : (A.lists.put l (A.lists.seq l).tail).Free n := by
      rw [hq]
      exact hsep.free_remove hl
    rw [DtqOp.exec, dtaDelHead, h.rep.first hl, List.nil_append, List.head?_cons, Option.map_some,
      h.rep.delEnd_eq hl (List.mem_cons_self ..), h.rep.del hl]
    exact ⟨_, rfl, h.not_flagsRight ⟨l, [], t, hl⟩ rfl hfree (h.rep.linkOut_next hl)⟩
  | delTail l =>
    obtain ⟨p, n, hq⟩ := (List.eq_nil_or_concat _).resolve_left hleaves
    rw [List.concat_eq_append] at hq
    have hl : A.lists l = some (p ++ n :: []) := (Family.Made.eq hop).trans (congrArg some hq)
    have hfree : (A.lists.put l (A.lists.seq l).dropLast).Free n := by
      rw [hq, List.dropLast_concat, ← List.append_nil p]
      exact hsep.free_remove hl
    rw [DtqOp.exec, dtqDelTail, h.rep.last hl, List.getLast?_concat, Option.map_some,
      h.rep.delEnd_eq hl (by simp), h.rep.del hl]
    exact ⟨_, rfl, h.not_flagsRight ⟨l, p, [], hl⟩ rfl hfree (h.rep.linkOut_next hl)⟩
  | _ => cases hleaves

/-! ### Runs -/

theorem flagsHold_cons {op : DtqOp κ ν} {ops : List (DtqOp κ ν)} :
    FlagsHold m A K (op :: ops) ↔ FlagsRight A K m ∧
      Post (op.exec m) fun u => FlagsHold u.1 (op.seqs A) (op.known K) ops := by
  constructor
  · intro h
    refine ⟨(h [] (op :: ops) rfl).of_ok rfl, ?_⟩
    obtain ⟨v, hv, -⟩ := h [op] ops rfl
    obtain ⟨u, hexec, -⟩ := bind_eq_ok.mp hv
    refine ⟨u, hexec, fun pre post hsplit => ?_⟩
    obtain ⟨w, hw, hright⟩ := h (op :: pre) post (congrArg (op :: ·) hsplit)
    rw [dtqRun, hexec, ok_bind] at hw
    obtain ⟨x, hx, hxw⟩ := bind_eq_ok.mp hw
    obtain rfl := Except.ok.inj hxw
    exact ⟨x, hx, hright⟩
  · rintro ⟨hright, u, hexec, h⟩ pre post hsplit
    cases pre with
    | nil => exact Post.ok hright
    | cons op' pre =>
      obtain ⟨rfl, htail⟩ := List.cons.inj hsplit
      rw [dtqRun, hexec, ok_bind]
      exact (h pre post htail).bind fun x hx => Post.pure hx

/-- **From any point of a run on**, the flags are right exactly when no call leaves one up. -/
theorem flagsHold_iff (h : Tracks m A K) {ops : List (DtqOp κ ν)} (hops : DtqInUse A K ops) :
    FlagsHold m A K ops ↔ ∀ pre op post, ops = pre ++ op :: post → ¬ op.Leaves (dtqSeqs A pre) := by
  induction ops generalizing m A K with
  | nil =>
    refine iff_of_true (fun pre post hsplit => ?_) fun pre op post hsplit => ?_
    · obtain ⟨rfl, rfl⟩ := List.append_eq_nil_iff.mp hsplit.symm
      exact Post.ok h.flagsRight
    · simp at hsplit
  | cons op ops ih =>
    rw [flagsHold_cons, forall_split_cons, and_iff_right h.flagsRight]
    by_cases hleaves : op.Leaves A
    · refine iff_of_false (fun hpost => ?_) fun hall => hall.1 hleaves
      obtain ⟨u, hexec, hhold⟩ := hpost
      have hright := (hhold [] ops rfl).of_ok rfl
      exact (h.flag_left hops.1 hleaves).of_ok hexec hright
    · obtain ⟨u, hexec, hu⟩ := h.exec hops.1 hleaves
      have hpost : Post (op.exec m) (fun u => FlagsHold u.1 (op.seqs A) (op.known K) ops) ↔
          FlagsHold u.1 (op.seqs A) (op.known K) ops :=
        ⟨fun hp => hp.of_ok hexec, fun hp => ⟨u, hexec, hp⟩⟩
      have hnow : ¬ op.Leaves (dtqSeqs A []) := hleaves
      rw [hpost, ih hu hops.2, and_iff_right hnow]
      rfl

/-- **The linked flag is right** in a run, and the lists are as they should be, exactly when no call takes
nodes out of a list and leaves their `next`. -/
theorem linkedFlag_iff (m : Dtq κ ν) {ops : List (DtqOp κ ν)}
    (hops : DtqInUse ⟨fun _ => none, ∅⟩ ∅ ops) :
    FlagsHold m ⟨fun _ => none, ∅⟩ ∅ ops ↔
      ∀ pre op post, ops = pre ++ op :: post → ¬ op.Leaves (dtqSeqs ⟨fun _ => none, ∅⟩ pre) := by
  refine flagsHold_iff ⟨⟨fun hn => ?_, fun hn => ?_⟩, m.rep_none⟩ hops
  · obtain ⟨l, q, r, hl⟩ := hn
    cases hl
  · exact absurd hn (Finset.notMem_empty _)

/-- Three nodes in a list, the second one out by `dtq_del`, a fourth put in its place, and the second
one cleared. -/
def staleDtqOps : List (DtqOp Bool ℕ) :=
  [.init true, .initNode 1, .initNode 2, .initNode 3, .initNode 4, .addTail true 1, .addTail true 2,
    .addTail true 3, .del 2, .addAfter (.node 1) 4, .delAndInitNode 2]

theorem staleDtqOps_inUse : DtqInUse ⟨fun _ => none, ∅⟩ ∅ staleDtqOps :=
  ⟨trivial, Family.free_iff.mpr (by decide), Family.free_iff.mpr (by decide),
    Family.free_iff.mpr (by decide), Family.free_iff.mpr (by decide),
    ⟨rfl, Family.free_iff.mpr (by decide), by decide⟩,
    ⟨rfl, Family.free_iff.mpr (by decide), by decide⟩,
    ⟨rfl, Family.free_iff.mpr (by decide), by decide⟩, ⟨true, [1], [3], rfl⟩,
    ⟨⟨true, [], [3], rfl⟩, Family.free_iff.mpr (by decide), by decide⟩,
    (by decide : (2 : ℕ) ∈ ({4, 3, 2, 1} : Finset ℕ)), trivial⟩

theorem linkedFlag_iff_stale :
    FlagsHold ⟨fun _ => none, fun _ => none⟩ ⟨fun _ => none, ∅⟩ ∅ staleDtqOps ↔
      ∀ pre op post, staleDtqOps = pre ++ op :: post →
        ¬ op.Leaves (dtqSeqs ⟨fun _ => none, ∅⟩ pre) :=
  linkedFlag_iff ⟨fun _ => none, fun _ => none⟩ staleDtqOps_inUse

/-- There the walk meets the first and the third node alone: the fourth is dropped. -/
theorem linkedFlag_stale :
    DtqInUse ⟨fun _ => none, ∅⟩ ∅ staleDtqOps ∧
      ¬ FlagsHold ⟨fun _ => none, fun _ => none⟩ ⟨fun _ => none, ∅⟩ ∅ staleDtqOps := by
  refine ⟨staleDtqOps_inUse, fun h => ?_⟩
  obtain ⟨u, hu, hright⟩ := h staleDtqOps [] rfl
  have hwalk := (hright.walks true [1, 4, 3] rfl 4 (by decide)).1
  have hcode : (dtqRun ⟨fun _ => none, fun _ => none⟩ staleDtqOps >>= fun u =>
      dtqWalk u.1.next true 4 (.head true)) = .ok [.node 1, .node 3] := rfl
  rw [hu, ok_bind, hwalk] at hcode
  exact absurd hcode (by decide)

end CcUtils.Lists
