import Mathlib.Data.Finset.Basic
import Mathlib.Data.List.Nodup
import Mathlib.Logic.Function.Basic

/-!
# Intrusive lists

A library for lists whose links are fields of the nodes themselves. Any number of lists, each with
a header, share one memory; a cell is a header or a node, and a node is in at most one list. What
a field holds is left open (`ptr` says how a pointer to a node is written), and so is what ends a
list: NULL, or the header again.

A place in a list is a splitting of its nodes into those before and those after. The lemmas about
writes say for each edit at a place which fields have to change; everything else must stay.

## What is proved

* `follows_append` — a walk is a walk to any place in the list and a walk on from there.
* `Follows.insert`, `Follows.unlink`, `Follows.move` — the edits of one list.
* `Family.Separate.put` — an edit that takes in only free nodes keeps the lists apart.
* `Family.Linked.insert`, `Family.Linked.remove`, `Family.Linked.move` — the same edits among many
  lists.
-/

namespace CcUtils.Lib

variable {κ ν V : Type}

/-- A cell: the header of a list, or a node. -/
inductive Cell (κ ν : Type) where
  | head (l : κ)
  | node (n : ν)
  deriving DecidableEq

/-! ### One list -/

/-- Following `next` from the cell `a` leads through the nodes of the list, and then to `e`. -/
def Follows (ptr : ν → V) (next : Cell κ ν → V) : Cell κ ν → List ν → V → Prop
  | a, [], e => next a = e
  | a, n :: q, e => next a = ptr n ∧ Follows ptr next (.node n) q e

/-- The last cell of the list from `a`. -/
def lastCell : Cell κ ν → List ν → Cell κ ν
  | a, [] => a
  | _, n :: q => lastCell (.node n) q

/-- The cells of the list from `a`. -/
def cellsOf (a : Cell κ ν) (q : List ν) : List (Cell κ ν) := a :: q.map .node

@[simp] theorem lastCell_nil (a : Cell κ ν) : lastCell a [] = a := rfl

@[simp] theorem lastCell_cons (a : Cell κ ν) (n : ν) (q : List ν) :
    lastCell a (n :: q) = lastCell (.node n) q := rfl

@[simp] theorem lastCell_append (a : Cell κ ν) (q r : List ν) :
    lastCell a (q ++ r) = lastCell (lastCell a q) r := by
  induction q generalizing a with
  | nil => rfl
  | cons n q ih => exact ih (.node n)

@[simp] theorem mem_cellsOf {a x : Cell κ ν} {q : List ν} :
    x ∈ cellsOf a q ↔ x = a ∨ ∃ n ∈ q, .node n = x := by
  rw [cellsOf, List.mem_cons, List.mem_map]

theorem nodup_cellsOf {l : κ} {q : List ν} : (cellsOf (.head l) q).Nodup ↔ q.Nodup := by
  rw [cellsOf, List.nodup_cons, List.nodup_map_iff fun n m h => Cell.node.inj h]
  simp

theorem nodup_cellsOf_node {n : ν} {q : List ν} :
    (cellsOf (.node n : Cell κ ν) q).Nodup ↔ (n :: q).Nodup := by
  rw [cellsOf, ← List.map_cons, List.nodup_map_iff fun n m h => Cell.node.inj h]

theorem lastCell_mem (a : Cell κ ν) (q : List ν) : lastCell a q ∈ cellsOf a q := by
  induction q generalizing a with
  | nil => exact List.mem_singleton_self a
  | cons n q ih => exact List.mem_cons_of_mem a (ih (.node n))

/-- The last cell of a list that is not empty is a node. -/
theorem lastCell_ne_head (n : ν) (t : List ν) (k : κ) :
    lastCell (.node n) t ≠ (.head k : Cell κ ν) := by
  intro he
  rcases mem_cellsOf.mp (lastCell_mem (.node n : Cell κ ν) t) with h0 | ⟨j, -, hj⟩
  · exact nomatch h0.symm.trans he
  · exact nomatch hj.trans he

/-- The last cell is the header, or the last node. -/
theorem lastCell_eq (a : Cell κ ν) (q : List ν) :
    lastCell a q = (q.getLast?.map Cell.node).getD a := by
  rcases List.eq_nil_or_concat q with rfl | ⟨r, n, rfl⟩
  · rfl
  · simp

variable {ptr : ν → V} {f g : Cell κ ν → V} {a b : Cell κ ν} {q r : List ν} {n : ν} {e v : V}

theorem follows_append : Follows ptr f a (q ++ r) e ↔
    Follows ptr f a q (f (lastCell a q)) ∧ Follows ptr f (lastCell a q) r e := by
  induction q generalizing a with
  | nil => simp [Follows]
  | cons n q ih => simp only [List.cons_append, Follows, lastCell_cons, ih, and_assoc]

/-- The field of the last cell holds the end. -/
theorem Follows.last_eq (h : Follows ptr f a q e) : f (lastCell a q) = e := by
  induction q generalizing a with
  | nil => exact h
  | cons n q ih => exact ih h.2

/-- The walk through a node. -/
theorem follows_middle : Follows ptr f a (q ++ n :: r) e ↔
    Follows ptr f a q (ptr n) ∧ Follows ptr f (.node n) r e := by
  rw [follows_append]
  constructor
  · rintro ⟨hq, hn, hr⟩
    exact ⟨hn ▸ hq, hr⟩
  · rintro ⟨hq, hr⟩
    have hn := hq.last_eq
    exact ⟨hn.symm ▸ hq, hn, hr⟩

/-- Where the first step leads. -/
theorem Follows.first_eq (h : Follows ptr f a q e) : f a = (q.head?.map ptr).getD e := by
  cases q with
  | nil => exact h
  | cons n q => exact h.1

/-- Writes to other cells. -/
theorem Follows.congr (h : Follows ptr f a q e) (hg : ∀ x ∈ cellsOf a q, g x = f x) :
    Follows ptr g a q e := by
  induction q generalizing a with
  | nil => exact (hg a (List.mem_singleton_self a)).trans h
  | cons n q ih =>
    refine ⟨(hg a (List.mem_cons_self ..)).trans h.1, ?_⟩
    exact ih h.2 fun x hx => hg x (List.mem_cons_of_mem a hx)

/-- The same list from another cell. -/
theorem Follows.rebase (h : Follows ptr f a q e) (hb : g b = f a)
    (hg : ∀ n ∈ q, g (.node n) = f (.node n)) : Follows ptr g b q e := by
  cases q with
  | nil => exact hb.trans h
  | cons n q =>
    refine ⟨hb.trans h.1, h.2.congr fun x hx => ?_⟩
    rcases mem_cellsOf.mp hx with rfl | ⟨k, hk, rfl⟩
    · exact hg n (List.mem_cons_self ..)
    · exact hg k (List.mem_cons_of_mem n hk)

/-- A write to the last cell gives the list another end. -/
theorem Follows.redirect (h : Follows ptr f a q e) (hq : (cellsOf a q).Nodup)
    (hv : g (lastCell a q) = v) (hg : ∀ x ∈ cellsOf a q, x ≠ lastCell a q → g x = f x) :
    Follows ptr g a q v := by
  induction q generalizing a with
  | nil => exact hv
  | cons n q ih =>
    have hq' : (cellsOf (.node n) q).Nodup := (List.nodup_cons.mp hq).2
    refine ⟨?_, ih h.2 hq' hv fun x hx => hg x (List.mem_cons_of_mem a hx)⟩
    refine (hg a (List.mem_cons_self ..) fun ha => ?_).trans h.1
    exact (List.nodup_cons.mp hq).1 (ha ▸ lastCell_mem (.node n) q)

/-- The cells before and after a place are distinct, when all are. -/
theorem lastCell_ne_node {l : κ} (h : (q ++ r).Nodup) (hn : n ∈ r) :
    lastCell (.head l) q ≠ .node n := by
  intro he
  rcases mem_cellsOf.mp (lastCell_mem (.head l) q) with h0 | ⟨k, hk, hk'⟩
  · exact nomatch he.symm.trans h0
  · cases hk'.trans he
    exact (List.nodup_append.mp h).2.2 n hk n hn rfl

theorem cellsOf_append_left {x : Cell κ ν} (h : x ∈ cellsOf a q) : x ∈ cellsOf a (q ++ r) := by
  rcases mem_cellsOf.mp h with rfl | ⟨n, hn, rfl⟩
  · exact List.mem_cons_self ..
  · exact mem_cellsOf.mpr (.inr ⟨n, List.mem_append_left r hn, rfl⟩)

/-- Linking a node in at a place. -/
theorem Follows.insert {l : κ} (h : Follows ptr f (.head l) (q ++ r) e) (hqr : (q ++ r).Nodup)
    (hn : n ∉ q ++ r) (hlast : g (lastCell (.head l) q) = ptr n)
    (hnode : g (.node n) = f (lastCell (.head l) q))
    (hg : ∀ x, x ≠ lastCell (.head l) q → x ≠ .node n → g x = f x) :
    Follows ptr g (.head l) (q ++ n :: r) e := by
  obtain ⟨hq, hr⟩ := follows_append.mp h
  rw [List.mem_append, not_or] at hn
  refine follows_middle.mpr ⟨?_, ?_⟩
  · refine hq.redirect (nodup_cellsOf.mpr (List.nodup_append.mp hqr).1) hlast fun x hx hne => ?_
    refine hg x hne ?_
    rintro rfl
    rcases mem_cellsOf.mp hx with h0 | ⟨k, hk, hk'⟩
    · exact nomatch h0
    · cases hk'
      exact hn.1 hk
  · refine hr.rebase hnode fun k hk => hg _ (lastCell_ne_node hqr hk).symm ?_
    rintro ⟨⟩
    exact hn.2 hk

/-- Linking a node out. -/
theorem Follows.unlink {l : κ} (h : Follows ptr f (.head l) (q ++ n :: r) e)
    (hqr : (q ++ n :: r).Nodup) (hlast : g (lastCell (.head l) q) = f (.node n))
    (hg : ∀ x, x ≠ lastCell (.head l) q → x ≠ .node n → g x = f x) :
    Follows ptr g (.head l) (q ++ r) e := by
  obtain ⟨hq, hr⟩ := follows_middle.mp h
  obtain ⟨hnq, hnr, hdisj⟩ := List.nodup_append.mp hqr
  refine follows_append.mpr ⟨?_, ?_⟩
  · refine hq.redirect (nodup_cellsOf.mpr hnq) rfl fun x hx hne => hg x hne ?_
    rintro rfl
    rcases mem_cellsOf.mp hx with h0 | ⟨k, hk, hk'⟩
    · exact nomatch h0
    · cases hk'
      exact hdisj n hk n (List.mem_cons_self ..) rfl
  · refine hr.rebase hlast fun k hk => ?_
    refine hg _ (lastCell_ne_node hqr (List.mem_cons_of_mem n hk)).symm ?_
    rintro ⟨⟩
    exact (List.nodup_cons.mp hnr).1 hk

/-- Linking the list `n :: t` of the header `s` in at a place. -/
theorem Follows.move {l s : κ} {t : List ν} (h : Follows ptr f (.head l) (q ++ r) e)
    (ht : Follows ptr f (.head s) (n :: t) v) (hls : l ≠ s) (hd : (q ++ (n :: t ++ r)).Nodup)
    (hlast : g (lastCell (.head l) q) = f (.head s))
    (hend : g (lastCell (.node n) t) = f (lastCell (.head l) q))
    (hg : ∀ x, x ≠ lastCell (.head l) q → x ≠ lastCell (.node n) t → x ≠ .head s → g x = f x) :
    Follows ptr g (.head l) (q ++ (n :: t ++ r)) e := by
  obtain ⟨hq, hr⟩ := follows_append.mp h
  obtain ⟨hnq, hntr, hdisj⟩ := List.nodup_append.mp hd
  obtain ⟨hnt, -, hdisj'⟩ := List.nodup_append.mp hntr
  -- the last cell of the list moved is one of its nodes
  obtain ⟨k, hk, hkt⟩ : ∃ k ∈ n :: t, .node k = lastCell (.node n : Cell κ ν) t := by
    rcases mem_cellsOf.mp (lastCell_mem (.node n : Cell κ ν) t) with h0 | ⟨k, hk, he⟩
    · exact ⟨n, List.mem_cons_self .., h0.symm⟩
    · exact ⟨k, List.mem_cons_of_mem n hk, he⟩
  have hne : ∀ m ∈ n :: t ++ r, .node m ≠ lastCell (.head l) q := fun m hm =>
    (lastCell_ne_node hd hm).symm
  refine follows_middle.mpr ⟨?_, follows_append.mpr ⟨?_, ?_⟩⟩
  · rw [ht.1] at hlast
    refine hq.redirect (nodup_cellsOf.mpr hnq) hlast fun x hx hx' => hg x hx' ?_ ?_
    · rw [← hkt]
      rintro rfl
      rcases mem_cellsOf.mp hx with h0 | ⟨m, hm, hm'⟩
      · exact nomatch h0
      · cases hm'
        exact hdisj k hm k (List.mem_append_left r hk) rfl
    · rintro rfl
      rcases mem_cellsOf.mp hx with h0 | ⟨m, -, hm'⟩
      · exact hls (Cell.head.inj h0).symm
      · exact nomatch hm'
  · refine ht.2.redirect (nodup_cellsOf_node.mpr hnt) rfl fun x hx hx' => ?_
    obtain ⟨m, hm, rfl⟩ : ∃ m ∈ n :: t, .node m = x := by
      rcases mem_cellsOf.mp hx with rfl | ⟨m, hm, rfl⟩
      · exact ⟨n, List.mem_cons_self .., rfl⟩
      · exact ⟨m, List.mem_cons_of_mem n hm, rfl⟩
    exact hg _ (hne m (List.mem_append_left r hm)) hx' nofun
  · refine hr.rebase hend fun m hm => hg _ (hne m (List.mem_append_right _ hm)) ?_ nofun
    rw [← hkt]
    rintro ⟨⟩
    exact hdisj' k hk k hm rfl

/-! ### Many lists -/

/-- The list of each header; none where no list has been made yet. -/
abbrev Family (κ ν : Type) := κ → Option (List ν)

/-- The lists, and the nodes whose fields have been set to NULL and that are in no list since. -/
structure Tracked (κ ν : Type) where
  lists : Family κ ν
  cleared : Finset ν

namespace Family

variable {F : Family κ ν} {l k : κ}

/-- The node is in no list. -/
def Free (F : Family κ ν) (n : ν) : Prop := ∀ l q, F l = some q → n ∉ q

/-- No node is in two lists, or in one list twice. -/
structure Separate (F : Family κ ν) : Prop where
  nodup : ∀ {l q}, F l = some q → q.Nodup
  unique : ∀ {l k q r n}, F l = some q → F k = some r → n ∈ q → n ∈ r → l = k

/-- The lists, each from its end. -/
def mirror (F : Family κ ν) : Family κ ν := fun l => (F l).map List.reverse

theorem mirror_eq (h : F l = some q) : F.mirror l = some q.reverse := by rw [mirror, h]; rfl

theorem mirror_eq_some : F.mirror l = some q ↔ F l = some q.reverse := by
  rw [mirror, Option.map_eq_some_iff]
  constructor
  · rintro ⟨r, hr, rfl⟩
    rw [hr, List.reverse_reverse]
  · intro h
    exact ⟨q.reverse, h, List.reverse_reverse q⟩

theorem Free.mirror (h : F.Free n) : F.mirror.Free n := by
  intro l q hl hn
  exact h l q.reverse (mirror_eq_some.mp hl) (List.mem_reverse.mpr hn)

theorem Separate.mirror (h : F.Separate) : F.mirror.Separate where
  nodup hl := List.nodup_reverse.mp (h.nodup (mirror_eq_some.mp hl))
  unique hl hk hn hm := h.unique (mirror_eq_some.mp hl) (mirror_eq_some.mp hk)
    (List.mem_reverse.mpr hn) (List.mem_reverse.mpr hm)

/-- Following `next` leads through each list. -/
def Linked (ptr : ν → V) (next : Cell κ ν → V) (fin : κ → V) (F : Family κ ν) : Prop :=
  ∀ l q, F l = some q → Follows ptr next (.head l) q (fin l)

/-- Another list has none of the cells of the list `l`, and no free node. -/
theorem Separate.ne_cell (h : F.Separate) (hl : F l = some q) (hk : F k = some r) (hkl : k ≠ l)
    {x y : Cell κ ν} (hx : x ∈ cellsOf (.head k) r) (hy : y ∈ cellsOf (.head l) q) : x ≠ y := by
  rintro rfl
  rcases mem_cellsOf.mp hx with rfl | ⟨m, hm, rfl⟩
  · rcases mem_cellsOf.mp hy with h0 | ⟨k', -, hk'⟩
    · exact hkl (Cell.head.inj h0)
    · exact nomatch hk'
  · rcases mem_cellsOf.mp hy with h0 | ⟨m', hm', he⟩
    · exact nomatch h0
    · cases he
      exact hkl (h.unique hk hl hm hm')

theorem Free.ne_cell (h : F.Free n) (hk : F k = some r) {x : Cell κ ν}
    (hx : x ∈ cellsOf (.head k) r) : x ≠ .node n := by
  rintro rfl
  rcases mem_cellsOf.mp hx with h0 | ⟨m, hm, he⟩
  · exact nomatch h0
  · cases he
    exact h k r hk hm

variable [DecidableEq κ]

/-- Another list for the header `l`. -/
def put (F : Family κ ν) (l : κ) (q : List ν) : Family κ ν := Function.update F l (some q)

@[simp] theorem put_self (F : Family κ ν) (l : κ) (q : List ν) : F.put l q l = some q :=
  Function.update_self ..

theorem put_of_ne (F : Family κ ν) (h : k ≠ l) (q : List ν) : F.put l q k = F k :=
  Function.update_of_ne h ..

theorem put_of_eq (h : F l = some q) : F.put l q = F := by
  rw [put, ← h]
  exact Function.update_eq_self l F

/-- A list after another has changed. -/
theorem of_put (h : F.put l q k = some r) : k = l ∧ r = q ∨ k ≠ l ∧ F k = some r := by
  by_cases hk : k = l
  · subst hk
    rw [put_self] at h
    exact .inl ⟨rfl, (Option.some.inj h).symm⟩
  · rw [put_of_ne F hk] at h
    exact .inr ⟨hk, h⟩

theorem mirror_put (F : Family κ ν) (l : κ) (q : List ν) :
    (F.put l q).mirror = F.mirror.put l q.reverse := by
  funext k
  by_cases hk : k = l
  · subst hk
    rw [put_self]
    exact mirror_eq (put_self ..)
  · rw [put_of_ne _ hk, mirror, put_of_ne _ hk]
    rfl

/-- An edit of one list that takes in only free nodes. -/
theorem Separate.put (h : F.Separate) (hl : F l = some q) (hr : r.Nodup)
    (hsub : ∀ n ∈ r, n ∈ q ∨ F.Free n) : (F.put l r).Separate where
  nodup hk := by
    rcases of_put hk with ⟨-, rfl⟩ | ⟨-, hk⟩
    · exact hr
    · exact h.nodup hk
  unique := by
    -- a node of the edited list is in no other list
    have key : ∀ {k s m}, k ≠ l → F k = some s → m ∈ r → m ∉ s := by
      intro k s m hkl hk hm hs
      rcases hsub m hm with hq | hfree
      · exact hkl (h.unique hk hl hs hq)
      · exact hfree k s hk hs
    intro k k' s s' m hk hk' hm hm'
    rcases of_put hk with ⟨rfl, rfl⟩ | ⟨hkl, hks⟩ <;>
      rcases of_put hk' with ⟨rfl, rfl⟩ | ⟨hkl', hks'⟩
    · rfl
    · exact absurd hm' (key hkl' hks' hm)
    · exact absurd hm (key hkl hks hm')
    · exact h.unique hks hks' hm hm'

theorem Separate.insert (h : F.Separate) (hl : F l = some (q ++ r)) (hn : F.Free n) :
    (F.put l (q ++ n :: r)).Separate := by
  refine h.put hl ?_ fun m hm => ?_
  · rw [List.nodup_middle, List.nodup_cons]
    exact ⟨hn l _ hl, h.nodup hl⟩
  · rw [List.mem_append, List.mem_cons] at hm
    rcases hm with hm | rfl | hm
    · exact .inl (List.mem_append_left r hm)
    · exact .inr hn
    · exact .inl (List.mem_append_right q hm)

/-- A new list in place of an old one, or of none. -/
theorem Separate.init (h : F.Separate) (l : κ) : (F.put l []).Separate where
  nodup hk := by
    rcases of_put hk with ⟨-, rfl⟩ | ⟨-, hk⟩
    · exact List.nodup_nil
    · exact h.nodup hk
  unique hk hk' hm hm' := by
    rcases of_put hk with ⟨-, rfl⟩ | ⟨-, hk⟩
    · exact absurd hm List.not_mem_nil
    · rcases of_put hk' with ⟨-, rfl⟩ | ⟨-, hk'⟩
      · exact absurd hm' List.not_mem_nil
      · exact h.unique hk hk' hm hm'

theorem Separate.remove (h : F.Separate) (hl : F l = some (q ++ n :: r)) :
    (F.put l (q ++ r)).Separate := by
  have hsub : (q ++ r).Sublist (q ++ n :: r) := (List.sublist_cons_self n r).append_left q
  exact h.put hl ((h.nodup hl).sublist hsub) fun m hm => .inl (hsub.subset hm)

/-- A node taken out is free. -/
theorem Separate.free_remove (h : F.Separate) (hl : F l = some (q ++ n :: r)) :
    (F.put l (q ++ r)).Free n := by
  intro k s hk hn
  rcases of_put hk with ⟨rfl, rfl⟩ | ⟨hkl, hk⟩
  · exact (List.nodup_cons.mp (List.nodup_middle.mp (h.nodup hl))).1 hn
  · exact hkl (h.unique hk hl hn (by simp))

theorem Free.put (h : F.Free n) (hn : n ∉ q) (l : κ) : (F.put l q).Free n := by
  intro k s hk
  rcases of_put hk with ⟨-, rfl⟩ | ⟨-, hk⟩
  · exact hn
  · exact h k s hk

/-- The nodes of a list whose header starts anew are free. -/
theorem Separate.free_init (h : F.Separate) (hl : F l = some q) (hn : n ∈ q) :
    (F.put l []).Free n := by
  intro k s hk hs
  rcases of_put hk with ⟨-, rfl⟩ | ⟨hkl, hk⟩
  · exact List.not_mem_nil hs
  · exact hkl (h.unique hk hl hs hn)

theorem Separate.move (h : F.Separate) {s : κ} {t : List ν} (hls : l ≠ s)
    (hl : F l = some (q ++ r)) (hs : F s = some t) :
    ((F.put s []).put l (q ++ (t ++ r))).Separate := by
  have hl' : F.put s [] l = some (q ++ r) := (put_of_ne F hls _).trans hl
  have hp : (q ++ (t ++ r)).Perm (q ++ r ++ t) := by
    rw [List.append_assoc]
    exact List.perm_append_comm.append_left q
  refine (h.init s).put hl' ?_ fun m hm => ?_
  · rw [hp.nodup_iff, List.nodup_append]
    refine ⟨h.nodup hl, h.nodup hs, fun m hm k hk => ?_⟩
    rintro rfl
    exact hls (h.unique hl hs hm hk)
  · rcases List.mem_append.mp (hp.subset hm) with hm | hm
    · exact .inl hm
    · exact .inr (h.free_init hs hm)

/-- The list of a header, as a sequence. -/
def seq (F : Family κ ν) (l : κ) : List ν := (F l).getD []

/-- A list has been made in the header. -/
def Made (F : Family κ ν) (l : κ) : Prop := (F l).isSome

omit [DecidableEq κ] in
theorem Made.eq (h : F.Made l) : F l = some (F.seq l) := by
  obtain ⟨q, hq⟩ := Option.isSome_iff_exists.mp h
  rw [seq, hq]
  rfl

omit [DecidableEq κ] in
theorem seq_eq (h : F l = some q) : F.seq l = q := by rw [seq, h]; rfl

omit [DecidableEq κ] in
theorem free_iff : F.Free n ↔ ∀ l, n ∉ F.seq l := by
  constructor
  · intro h l hn
    cases hl : F l with
    | none => simp [seq, hl] at hn
    | some q => exact h l q hl (seq_eq hl ▸ hn)
  · intro h l q hl hn
    exact h l (seq_eq hl ▸ hn)

/-! ### Writes to one list among many -/

variable {fin : κ → V}

/-- A new list for one header, when the writes touch no other list. -/
theorem Linked.put (h : F.Linked ptr f fin) (hl : Follows ptr g (.head l) q (fin l))
    (hg : ∀ k r, k ≠ l → F k = some r → ∀ x ∈ cellsOf (.head k) r, g x = f x) :
    (F.put l q).Linked ptr g fin := by
  intro k r hk
  rcases of_put hk with ⟨rfl, rfl⟩ | ⟨hkl, hk⟩
  · exact hl
  · exact (h k r hk).congr (hg k r hkl hk)

theorem Linked.init (h : F.Linked ptr f fin) (hl : g (.head l) = fin l)
    (hg : ∀ x, x ≠ .head l → g x = f x) : (F.put l []).Linked ptr g fin := by
  refine h.put (q := []) hl fun k r hkl _ x hx => hg x ?_
  rintro rfl
  rcases mem_cellsOf.mp hx with h0 | ⟨m, -, hm⟩
  · exact hkl (Cell.head.inj h0).symm
  · exact nomatch hm

theorem Linked.insert (h : F.Linked ptr f fin) (hF : F.Separate) (hl : F l = some (q ++ r))
    (hn : F.Free n) (hlast : g (lastCell (.head l) q) = ptr n)
    (hnode : g (.node n) = f (lastCell (.head l) q))
    (hg : ∀ x, x ≠ lastCell (.head l) q → x ≠ .node n → g x = f x) :
    (F.put l (q ++ n :: r)).Linked ptr g fin := by
  refine h.put ((h l _ hl).insert (hF.nodup hl) (hn l _ hl) hlast hnode hg) ?_
  intro k s hkl hk x hx
  refine hg x (hF.ne_cell hl hk hkl hx ?_) (hn.ne_cell hk hx)
  exact cellsOf_append_left (lastCell_mem _ q)

theorem Linked.remove (h : F.Linked ptr f fin) (hF : F.Separate)
    (hl : F l = some (q ++ n :: r)) (hlast : g (lastCell (.head l) q) = f (.node n))
    (hg : ∀ x, x ≠ lastCell (.head l) q → x ≠ .node n → g x = f x) :
    (F.put l (q ++ r)).Linked ptr g fin := by
  refine h.put ((h l _ hl).unlink (hF.nodup hl) hlast hg) ?_
  intro k s hkl hk x hx
  refine hg x (hF.ne_cell hl hk hkl hx ?_) (hF.ne_cell hl hk hkl hx ?_)
  · exact cellsOf_append_left (lastCell_mem _ q)
  · exact mem_cellsOf.mpr (.inr ⟨n, by simp, rfl⟩)

/-- The list of the header `s`, which is not empty, linked in at a place of another list. -/
theorem Linked.move (h : F.Linked ptr f fin) (hF : F.Separate) {s : κ} {t : List ν} (hls : l ≠ s)
    (hl : F l = some (q ++ r)) (hs : F s = some (n :: t))
    (hlast : g (lastCell (.head l) q) = f (.head s))
    (hend : g (lastCell (.node n) t) = f (lastCell (.head l) q)) (hhead : g (.head s) = fin s)
    (hg : ∀ x, x ≠ lastCell (.head l) q → x ≠ lastCell (.node n) t → x ≠ .head s → g x = f x) :
    ((F.put s []).put l (q ++ (n :: t ++ r))).Linked ptr g fin := by
  have hd : (q ++ (n :: t ++ r)).Nodup := (hF.move hls hl hs).nodup (put_self ..)
  intro k p hk
  rcases of_put hk with ⟨rfl, rfl⟩ | ⟨hkl, hk1⟩
  · exact (h _ _ hl).move (h _ _ hs) hls hd hlast hend hg
  · rcases of_put hk1 with ⟨rfl, rfl⟩ | ⟨hks, hk2⟩
    · exact hhead
    · refine (h _ _ hk2).congr fun x hx => hg x ?_ ?_ ?_
      · exact hF.ne_cell hl hk2 hkl hx (cellsOf_append_left (lastCell_mem _ q))
      · exact hF.ne_cell hs hk2 hks hx (lastCell_mem (.head s) (n :: t))
      · exact hF.ne_cell hs hk2 hks hx (List.mem_cons_self ..)

omit [DecidableEq κ] in
/-- The free nodes may hold anything. -/
theorem Linked.congr (h : F.Linked ptr f fin)
    (hg : ∀ l q, F l = some q → ∀ x ∈ cellsOf (.head l) q, g x = f x) : F.Linked ptr g fin :=
  fun l q hl => (h l q hl).congr (hg l q hl)

/-! ### Edits that name a node, not its list -/

/-- The same edit of every list; an edit at a node does nothing to the lists it is not in. -/
def edit (F : Family κ ν) (f : List ν → List ν) : Family κ ν := fun l => (F l).map f

omit [DecidableEq κ] in
theorem edit_of_free {e : List ν → List ν} (h : F.Free n) (he : ∀ q, n ∉ q → e q = q) :
    F.edit e = F := by
  funext l
  cases hl : F l with
  | none => rw [edit, hl]; rfl
  | some q => rw [edit, hl, Option.map_some, he q (h l q hl)]

/-- An edit at a node is an edit of the list the node is in. -/
theorem Separate.edit_eq {e : List ν → List ν} (h : F.Separate) (hl : F l = some q) (hn : n ∈ q)
    (he : ∀ q, n ∉ q → e q = q) : F.edit e = F.put l (e q) := by
  funext k
  by_cases hk : k = l
  · subst hk
    rw [put_self, edit, hl, Option.map_some]
  · rw [put_of_ne F hk, edit]
    cases hr : F k with
    | none => rfl
    | some r => rw [Option.map_some, he r fun hm => hk (h.unique hr hl hm hn)]

/-- A node in some list. -/
def Has (F : Family κ ν) (n : ν) : Prop := ∃ l q r, F l = some (q ++ n :: r)

omit [DecidableEq κ] in
theorem has_iff : F.Has n ↔ ∃ l q, F l = some q ∧ n ∈ q := by
  constructor
  · rintro ⟨l, q, r, hl⟩
    exact ⟨l, _, hl, by simp⟩
  · rintro ⟨l, q, hl, hn⟩
    obtain ⟨q, r, rfl⟩ := List.append_of_mem hn
    exact ⟨l, q, r, hl⟩

omit [DecidableEq κ] in
theorem has_iff_seq : F.Has n ↔ ∃ l, n ∈ F.seq l := by
  rw [has_iff]
  constructor
  · rintro ⟨l, q, hl, hn⟩
    exact ⟨l, by rwa [seq_eq hl]⟩
  · rintro ⟨l, hn⟩
    cases hl : F l with
    | none => simp [seq, hl] at hn
    | some q => exact ⟨l, q, hl, by rwa [seq_eq hl] at hn⟩

theorem seq_put (F : Family κ ν) (l : κ) (q : List ν) (k : κ) :
    (F.put l q).seq k = if k = l then q else F.seq k := by
  unfold seq put
  by_cases hk : k = l
  · rw [hk, Function.update_self, if_pos rfl, Option.getD_some]
  · rw [Function.update_of_ne hk, if_neg hk]

/-- A list without nodes is made empty. -/
theorem has_put_nil (hl : F.seq l = []) : (F.put l []).Has n ↔ F.Has n := by
  rw [has_iff_seq, has_iff_seq]
  refine exists_congr fun k => ?_
  rw [seq_put]
  split
  · rename_i hk
    rw [hk, hl]
  · rfl

/-- The nodes of one list go to the end of another. -/
theorem has_append {s : κ} (hls : l ≠ s) :
    ((F.put s []).put l (F.seq l ++ F.seq s)).Has n ↔ F.Has n := by
  simp only [has_iff_seq, seq_put]
  constructor
  · rintro ⟨k, hn⟩
    split at hn
    · rcases List.mem_append.mp hn with hn | hn
      · exact ⟨l, hn⟩
      · exact ⟨s, hn⟩
    split at hn
    · cases hn
    · exact ⟨k, hn⟩
  · rintro ⟨k, hn⟩
    by_cases hk : k = l ∨ k = s
    · refine ⟨l, ?_⟩
      rw [if_pos rfl, List.mem_append]
      rcases hk with rfl | rfl
      · exact .inl hn
      · exact .inr hn
    · rw [not_or] at hk
      refine ⟨k, ?_⟩
      rwa [if_neg hk.1, if_neg hk.2]

omit [DecidableEq κ] in
theorem Free.not_has (h : F.Free n) : ¬ F.Has n := by
  rw [has_iff]
  rintro ⟨l, q, hl, hn⟩
  exact h l q hl hn

/-- Which nodes are in a list after an edit of one. -/
theorem Separate.has_put (h : F.Separate) (hl : F l = some q) :
    (F.put l r).Has n ↔ n ∈ r ∨ (F.Has n ∧ n ∉ q) := by
  simp only [has_iff]
  constructor
  · rintro ⟨k, s, hk, hn⟩
    rcases of_put hk with ⟨rfl, rfl⟩ | ⟨hkl, hk⟩
    · exact .inl hn
    · exact .inr ⟨⟨k, s, hk, hn⟩, fun hq => hkl (h.unique hk hl hn hq)⟩
  · rintro (hn | ⟨⟨k, s, hk, hn⟩, hq⟩)
    · exact ⟨l, r, put_self .., hn⟩
    · have hkl : k ≠ l := by
        rintro rfl
        rw [hl] at hk
        exact hq (Option.some.inj hk ▸ hn)
      exact ⟨k, s, (put_of_ne F hkl r).trans hk, hn⟩

theorem Separate.has_insert (h : F.Separate) (hl : F l = some (q ++ r)) {k : ν} :
    (F.put l (q ++ n :: r)).Has k ↔ k = n ∨ F.Has k := by
  have hmem : k ∈ q ++ r → F.Has k := fun hk => has_iff.mpr ⟨l, _, hl, hk⟩
  rw [h.has_put hl]
  simp only [List.mem_append, List.mem_cons] at hmem ⊢
  tauto

theorem Separate.has_remove (h : F.Separate) (hl : F l = some (q ++ n :: r)) {k : ν} :
    (F.put l (q ++ r)).Has k ↔ F.Has k ∧ k ≠ n := by
  have hmem : k ∈ q ++ n :: r → F.Has k := fun hk => has_iff.mpr ⟨l, _, hl, hk⟩
  have hn : n ∉ q ++ r := (List.nodup_cons.mp (List.nodup_middle.mp (h.nodup hl))).1
  have hne : k ∈ q ++ r → k ≠ n := fun hk e => hn (e ▸ hk)
  rw [h.has_put hl]
  simp only [List.mem_append, List.mem_cons] at hmem hne ⊢
  tauto

variable [DecidableEq ν]

/-- `n` linked in after `p`. -/
def insertAfter (p n : ν) : List ν → List ν
  | [] => []
  | m :: q => if m = p then m :: n :: q else m :: insertAfter p n q

/-- `n` linked in before `p`. -/
def insertBefore (p n : ν) : List ν → List ν
  | [] => []
  | m :: q => if m = p then n :: m :: q else m :: insertBefore p n q

/-- The node after `p` taken out. -/
def eraseAfter (p : ν) : List ν → List ν
  | [] => []
  | m :: q => if m = p then m :: q.tail else m :: eraseAfter p q

/-- The node after `p`. -/
def nodeAfter (p : ν) : List ν → Option ν
  | [] => none
  | m :: q => if m = p then q.head? else nodeAfter p q

omit [DecidableEq κ] in
theorem eraseAfter_append {p : ν} (h : p ∉ q) :
    eraseAfter p (q ++ p :: r) = q ++ p :: r.tail := by
  induction q with
  | nil => exact if_pos rfl
  | cons m q ih =>
    rw [List.mem_cons, not_or] at h
    rw [List.cons_append, eraseAfter, if_neg (Ne.symm h.1), ih h.2, List.cons_append]

omit [DecidableEq κ] in
theorem nodeAfter_append {p : ν} (h : p ∉ q) : nodeAfter p (q ++ p :: r) = r.head? := by
  induction q with
  | nil => exact if_pos rfl
  | cons m q ih =>
    rw [List.mem_cons, not_or] at h
    rw [List.cons_append, nodeAfter, if_neg (Ne.symm h.1), ih h.2]

omit [DecidableEq κ] in
theorem insertAfter_of_notMem {p : ν} (n : ν) (h : p ∉ q) : insertAfter p n q = q := by
  induction q with
  | nil => rfl
  | cons m q ih =>
    rw [List.mem_cons, not_or] at h
    rw [insertAfter, if_neg (Ne.symm h.1), ih h.2]

omit [DecidableEq κ] in
theorem insertBefore_of_notMem {p : ν} (n : ν) (h : p ∉ q) : insertBefore p n q = q := by
  induction q with
  | nil => rfl
  | cons m q ih =>
    rw [List.mem_cons, not_or] at h
    rw [insertBefore, if_neg (Ne.symm h.1), ih h.2]

omit [DecidableEq κ] in
theorem insertAfter_append {p : ν} (n : ν) (h : p ∉ q) :
    insertAfter p n (q ++ p :: r) = q ++ p :: n :: r := by
  induction q with
  | nil => exact if_pos rfl
  | cons m q ih =>
    rw [List.mem_cons, not_or] at h
    rw [List.cons_append, insertAfter, if_neg (Ne.symm h.1), ih h.2, List.cons_append]

omit [DecidableEq κ] in
theorem insertBefore_append {p : ν} (n : ν) (h : p ∉ q) :
    insertBefore p n (q ++ p :: r) = q ++ n :: p :: r := by
  induction q with
  | nil => exact if_pos rfl
  | cons m q ih =>
    rw [List.mem_cons, not_or] at h
    rw [List.cons_append, insertBefore, if_neg (Ne.symm h.1), ih h.2, List.cons_append]

omit [DecidableEq κ] [DecidableEq ν] in
/-- A node is not among the nodes before it. -/
theorem Separate.notMem_before (h : F.Separate) (hl : F l = some (q ++ n :: r)) : n ∉ q := fun hn =>
  (List.nodup_append.mp (h.nodup hl)).2.2 n hn n (List.mem_cons_self ..) rfl

omit [DecidableEq κ] [DecidableEq ν] in
/-- The place after a member. -/
theorem Made.split_mem (h : F.Made l) (hn : n ∈ F.seq l) : ∃ q r, F.seq l = q ++ n :: r ∧
    F l = some (q ++ n :: r) ∧ F l = some ((q ++ [n]) ++ r) := by
  obtain ⟨q, r, hqr⟩ := List.append_of_mem hn
  refine ⟨q, r, hqr, ?_, ?_⟩
  · rw [h.eq, hqr]
  · rw [h.eq, hqr, List.append_assoc, List.singleton_append]

theorem Separate.erase_eq (h : F.Separate) (hl : F l = some (q ++ n :: r)) :
    F.edit (·.erase n) = F.put l (q ++ r) := by
  rw [h.edit_eq hl (by simp) fun q hn => List.erase_of_not_mem hn,
    List.erase_append_right _ (h.notMem_before hl), List.erase_cons_head]

theorem Separate.erase (h : F.Separate) (n : ν) : (F.edit (·.erase n)).Separate := by
  by_cases hn : F.Has n
  · obtain ⟨l, q, r, hl⟩ := hn
    rw [h.erase_eq hl]
    exact h.remove hl
  · have hfree : F.Free n := fun l q hl hq => hn (has_iff.mpr ⟨l, q, hl, hq⟩)
    rwa [edit_of_free hfree fun q hq => List.erase_of_not_mem hq]

theorem Separate.has_erase (h : F.Separate) {k : ν} :
    (F.edit (·.erase n)).Has k ↔ F.Has k ∧ k ≠ n := by
  by_cases hn : F.Has n
  · obtain ⟨l, q, r, hl⟩ := hn
    rw [h.erase_eq hl]
    exact h.has_remove hl
  · have hfree : F.Free n := fun l q hl hq => hn (has_iff.mpr ⟨l, q, hl, hq⟩)
    rw [edit_of_free hfree fun q hq => List.erase_of_not_mem hq]
    refine ⟨fun hk => ⟨hk, ?_⟩, fun hk => hk.1⟩
    rintro rfl
    exact hn hk

theorem Separate.insertAfter_eq (h : F.Separate) {p : ν} (n : ν) (hl : F l = some (q ++ p :: r)) :
    F.edit (insertAfter p n) = F.put l (q ++ p :: n :: r) := by
  rw [h.edit_eq hl (by simp) fun q hn => insertAfter_of_notMem n hn,
    insertAfter_append n (h.notMem_before hl)]

theorem Separate.insertBefore_eq (h : F.Separate) {p : ν} (n : ν) (hl : F l = some (q ++ p :: r)) :
    F.edit (insertBefore p n) = F.put l (q ++ n :: p :: r) := by
  rw [h.edit_eq hl (by simp) fun q hn => insertBefore_of_notMem n hn,
    insertBefore_append n (h.notMem_before hl)]

omit [DecidableEq κ] [DecidableEq ν] in
theorem Made.edit (h : F.Made k) (e : List ν → List ν) : (F.edit e).Made k := by
  rw [Made, Family.edit, Option.isSome_map]
  exact h

/-- The cell belongs to a list: it is the header of one, or a node in one. -/
def IsCell (F : Family κ ν) : Cell κ ν → Prop
  | .head l => F.Made l
  | .node n => F.Has n

/-- `n` linked in after a cell. -/
def addAfter (F : Family κ ν) (a : Cell κ ν) (n : ν) : Family κ ν :=
  match a with
  | .head l => F.put l (n :: F.seq l)
  | .node p => F.edit (insertAfter p n)

/-- `n` linked in before a cell; before a header is at the end of its list. -/
def addBefore (F : Family κ ν) (a : Cell κ ν) (n : ν) : Family κ ν :=
  match a with
  | .head l => F.put l (F.seq l ++ [n])
  | .node p => F.edit (insertBefore p n)

/-- The place after a cell. -/
theorem Separate.addAfter_place (h : F.Separate) (ha : F.IsCell a) (n : ν) :
    ∃ l q r, F l = some (q ++ r) ∧ lastCell (.head l) q = a ∧
      F.addAfter a n = F.put l (q ++ n :: r) := by
  cases a with
  | head l => exact ⟨l, [], F.seq l, Made.eq ha, rfl, rfl⟩
  | node p =>
    obtain ⟨l, q, r, hl⟩ := ha
    refine ⟨l, q ++ [p], r, ?_, ?_, ?_⟩
    · rw [hl, List.append_assoc]
      rfl
    · rw [lastCell_append]
      rfl
    · rw [addAfter, h.insertAfter_eq n hl, List.append_assoc]
      rfl

/-- The place before a cell. -/
theorem Separate.addBefore_place (h : F.Separate) (ha : F.IsCell a) (n : ν) :
    ∃ l q r, F l = some (q ++ r) ∧ lastCell (.head l) r.reverse = a ∧
      F.addBefore a n = F.put l (q ++ n :: r) := by
  cases a with
  | head l => exact ⟨l, F.seq l, [], by rw [List.append_nil, Made.eq ha], rfl, rfl⟩
  | node p =>
    obtain ⟨l, q, r, hl⟩ := ha
    refine ⟨l, q, p :: r, hl, ?_, ?_⟩
    · rw [List.reverse_cons, lastCell_append]
      rfl
    · rw [addBefore, h.insertBefore_eq n hl]

end Family

end CcUtils.Lib
