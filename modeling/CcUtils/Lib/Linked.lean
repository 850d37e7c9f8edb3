import Mathlib.Data.List.Basic
import Mathlib.Logic.Function.Basic

/-!
# Linked lists from a header

A library for singly linked lists that start in a header cell, as intrusive queues keep them: the
cells are the header and the nodes, and each has one `next` field, `none` for NULL. A list is not
closed by NULL here: where it ends is what `endOf` says, and the field of its last cell is free. So
a write to the last cell extends the list, and a write to a cell whose field is NULL disturbs no
list at all.

## What is proved

* `Linked.concat`, `Linked.push_back` — linking a node to the end extends the list by it.
* `Linked.write_null` — a write to a NULL field keeps every list.
* `Linked.write_end` — so does a write to the last cell, when the nodes are distinct.
-/

namespace CcUtils.Lib

/-- A cell: the header, or a node. -/
inductive Ref (ν : Type) where
  | head
  | node (n : ν)
  deriving DecidableEq

variable {ν : Type}

@[simp] theorem node_ne_head (n : ν) : Ref.node n ≠ .head := nofun

/-- Following `next` from `a` leads through the nodes of the list in order. -/
def Linked (next : Ref ν → Option ν) : Ref ν → List ν → Prop
  | _, [] => True
  | a, n :: q => next a = some n ∧ Linked next (.node n) q

/-- The last cell of the list from `a`. -/
def endOf : Ref ν → List ν → Ref ν
  | a, [] => a
  | _, n :: q => endOf (.node n) q

@[simp] theorem linked_nil (next : Ref ν → Option ν) (a : Ref ν) : Linked next a [] := trivial

@[simp] theorem endOf_nil (a : Ref ν) : endOf a [] = a := rfl

@[simp] theorem endOf_cons (a : Ref ν) (n : ν) (q : List ν) :
    endOf a (n :: q) = endOf (.node n) q := rfl

theorem endOf_append (a : Ref ν) (p q : List ν) : endOf a (p ++ q) = endOf (endOf a p) q := by
  induction p generalizing a with
  | nil => rfl
  | cons n p ih => exact ih (.node n)

@[simp] theorem endOf_concat (a : Ref ν) (p : List ν) (n : ν) : endOf a (p ++ [n]) = .node n := by
  rw [endOf_append]
  rfl

/-- The end of a list that is not empty is one of its nodes. -/
theorem endOf_mem (a : Ref ν) {q : List ν} (h : q ≠ []) : ∃ n ∈ q, endOf a q = .node n := by
  induction q generalizing a with
  | nil => exact absurd rfl h
  | cons n q ih =>
    cases q with
    | nil => exact ⟨n, List.mem_singleton_self n, rfl⟩
    | cons m q =>
      obtain ⟨k, hk, he⟩ := ih (.node n) (List.cons_ne_nil m q)
      exact ⟨k, List.mem_cons_of_mem n hk, he⟩

theorem endOf_ne_head (a : Ref ν) {q : List ν} (h : q ≠ []) : endOf a q ≠ .head := by
  obtain ⟨n, -, he⟩ := endOf_mem a h
  rw [he]
  exact node_ne_head n

/-- Only the empty list ends in the header. -/
theorem endOf_eq_head {q : List ν} : endOf .head q = .head ↔ q = [] := by
  constructor
  · intro h
    by_contra hq
    exact endOf_ne_head .head hq h
  · rintro rfl
    rfl

/-- From the header, the end is the last node. -/
theorem endOf_eq_node {q : List ν} {n : ν} : endOf .head q = .node n ↔ q.getLast? = some n := by
  rcases List.eq_nil_or_concat q with rfl | ⟨p, m, rfl⟩
  · constructor <;> exact nofun
  · rw [List.concat_eq_append, endOf_concat, List.getLast?_concat, Option.some.injEq,
      Ref.node.injEq]

/-- A list of distinct nodes does not come back to its first node. -/
theorem endOf_ne_self {n : ν} {q : List ν} (h : (n :: q).Nodup) (hq : q ≠ []) :
    endOf (.node n) q ≠ .node n := by
  obtain ⟨k, hk, he⟩ := endOf_mem (.node n) hq
  rw [he]
  rintro ⟨⟩
  exact (List.nodup_cons.mp h).1 hk

theorem linked_append {next : Ref ν → Option ν} {a : Ref ν} {p q : List ν} :
    Linked next a (p ++ q) ↔ Linked next a p ∧ Linked next (endOf a p) q := by
  induction p generalizing a with
  | nil => simp
  | cons n p ih => simp only [List.cons_append, Linked, endOf_cons, ih, and_assoc]

/-- The field of a cell that has nodes after it. -/
theorem Linked.next_eq {next : Ref ν → Option ν} {a : Ref ν} {q : List ν} (h : Linked next a q)
    (hq : q ≠ []) : next a = q.head? := by
  cases q with
  | nil => exact absurd rfl hq
  | cons n q => exact h.1

theorem Linked.eq_nil {next : Ref ν → Option ν} {a : Ref ν} {q : List ν} (h : Linked next a q)
    (ha : next a = none) : q = [] := by
  cases q with
  | nil => rfl
  | cons n q => exact absurd (ha.symm.trans h.1) nofun

/-- A list of nodes whose fields are as they were. -/
theorem Linked.congr {next next' : Ref ν → Option ν} {r : ν} {t : List ν}
    (h : Linked next (.node r) t) (hnext : ∀ n ∈ r :: t, next' (.node n) = next (.node n)) :
    Linked next' (.node r) t := by
  induction t generalizing r with
  | nil => trivial
  | cons n t ih =>
    refine ⟨(hnext r List.mem_cons_self).trans h.1, ?_⟩
    exact ih h.2 fun k hk => hnext k (List.mem_cons_of_mem r hk)

/-! ### Writes -/

variable [DecidableEq ν]

/-- A write to a NULL field keeps every list: no list goes through the cell. -/
theorem Linked.write_null {next : Ref ν → Option ν} {a c : Ref ν} {q : List ν}
    (h : Linked next a q) (hc : next c = none) (v : Option ν) :
    Linked (Function.update next c v) a q := by
  induction q generalizing a with
  | nil => trivial
  | cons n q ih =>
    refine ⟨?_, ih h.2⟩
    rw [Function.update_of_ne, h.1]
    rintro rfl
    exact absurd (hc.symm.trans h.1) nofun

/-- A write to the header keeps the lists that start in a node. -/
theorem Linked.write_head {next : Ref ν → Option ν} {n : ν} {q : List ν}
    (h : Linked next (.node n) q) (v : Option ν) :
    Linked (Function.update next .head v) (.node n) q := by
  induction q generalizing n with
  | nil => trivial
  | cons m q ih =>
    refine ⟨?_, ih h.2⟩
    rw [Function.update_of_ne (node_ne_head n), h.1]

/-- A write to a cell outside the list. -/
theorem Linked.write_ne {next : Ref ν → Option ν} {a c : Ref ν} {q : List ν} (h : Linked next a q)
    (ha : c ≠ a) (hq : ∀ n ∈ q, c ≠ .node n) (v : Option ν) :
    Linked (Function.update next c v) a q := by
  induction q generalizing a with
  | nil => trivial
  | cons n q ih =>
    refine ⟨?_, ih h.2 (hq n List.mem_cons_self) fun m hm => hq m (List.mem_cons_of_mem n hm)⟩
    rw [Function.update_of_ne ha.symm, h.1]

/-- A write to the last cell. -/
theorem Linked.write_end {next : Ref ν → Option ν} {q : List ν} (h : Linked next .head q)
    (hq : q.Nodup) (v : Option ν) : Linked (Function.update next (endOf .head q) v) .head q := by
  rcases List.eq_nil_or_concat q with rfl | ⟨p, n, rfl⟩
  · trivial
  · rw [List.concat_eq_append] at *
    obtain ⟨hp, hn⟩ := linked_append.mp h
    have hnp : n ∉ p := fun hm => (List.nodup_append.mp hq).2.2 n hm n (by simp) rfl
    have hne : endOf .head p ≠ .node n := by
      intro he
      by_cases hp0 : p = []
      · subst hp0
        cases he
      · obtain ⟨m, hm, hem⟩ := endOf_mem .head hp0
        rw [hem] at he
        cases he
        exact hnp hm
    rw [endOf_concat]
    refine linked_append.mpr ⟨?_, ?_, trivial⟩
    · refine hp.write_ne (node_ne_head n) ?_ v
      rintro m hm ⟨⟩
      exact hnp hm
    · rw [Function.update_of_ne hne, hn.1]

omit [DecidableEq ν] in
/-- Linking a node to the end. -/
theorem Linked.concat {next : Ref ν → Option ν} {a : Ref ν} {q : List ν} {n : ν}
    (h : Linked next a q) (hn : next (endOf a q) = some n) : Linked next a (q ++ [n]) :=
  linked_append.mpr ⟨h, hn, trivial⟩

/-- A write of the new node to the last cell extends the list. -/
theorem Linked.push_back {next : Ref ν → Option ν} {q : List ν} (h : Linked next .head q)
    (hq : q.Nodup) (n : ν) :
    Linked (Function.update next (endOf .head q) (some n)) .head (q ++ [n]) :=
  (h.write_end hq (some n)).concat (Function.update_self ..)

end CcUtils.Lib
