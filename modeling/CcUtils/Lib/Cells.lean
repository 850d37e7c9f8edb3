import Mathlib.Algebra.Order.Group.Multiset
import CcUtils.Lib.Rules

/-!
# Cells of a memory

A library for code that works on records in memory through pointers. The records in use are a
multiset of cells, each an address with what it holds; a structure built of records is a sum of
such multisets, and since no address is listed twice, a write to one cell changes no other part
of the sum.

## What is proved

* `Owns.write` — a write changes its own cell and nothing else.
-/

namespace CcUtils.Lib

/-! ### Cells -/

variable {A V : Type}

/-- One cell: the address `a` holds `v`. -/
def cell (a : A) (v : V) : Multiset (A × V) := {(a, v)}

/-- The memory holds the cells, and no address is listed twice. -/
structure Owns (m : A → V) (cs : Multiset (A × V)) : Prop where
  nodup : (cs.map Prod.fst).Nodup
  holds : ∀ c ∈ cs, m c.1 = c.2

@[simp] theorem mem_cell {a : A} {v : V} {c : A × V} : c ∈ cell a v ↔ c = (a, v) :=
  Multiset.mem_singleton

@[simp] theorem map_fst_cell (a : A) (v : V) : (cell a v).map Prod.fst = {a} := rfl

theorem Owns.zero (m : A → V) : Owns m 0 := ⟨Multiset.nodup_zero, by simp⟩

/-- A part of the cells. -/
theorem Owns.left {m : A → V} {cs ds : Multiset (A × V)} (h : Owns m (cs + ds)) : Owns m cs :=
  ⟨(Multiset.nodup_add.mp (by simpa using h.nodup)).1,
    fun c hc => h.holds c (Multiset.mem_add.mpr (.inl hc))⟩

/-- Reading a cell. -/
theorem Owns.read {m : A → V} {cs : Multiset (A × V)} {a : A} {v : V} (h : Owns m (cell a v + cs)) :
    m a = v :=
  h.holds (a, v) (by simp)

/-- Two parts share no address. -/
theorem Owns.ne {m : A → V} {cs ds : Multiset (A × V)} (h : Owns m (cs + ds)) {c d : A × V}
    (hc : c ∈ cs) (hd : d ∈ ds) : c.1 ≠ d.1 := by
  have hn := h.nodup
  rw [Multiset.map_add, Multiset.nodup_add] at hn
  exact fun he => Multiset.disjoint_left.mp hn.2.2 (Multiset.mem_map_of_mem _ hc)
    (he ▸ Multiset.mem_map_of_mem _ hd)

theorem Owns.notMem {m : A → V} {cs : Multiset (A × V)} {a : A} {v : V}
    (h : Owns m (cell a v + cs)) {c : A × V} (hc : c ∈ cs) : c.1 ≠ a :=
  fun he => h.ne (mem_cell.mpr rfl) hc he.symm

/-- Writing a cell changes that cell and nothing else. -/
theorem Owns.write [DecidableEq A] {m : A → V} {cs : Multiset (A × V)} {a : A} {v : V}
    (h : Owns m (cell a v + cs)) (w : V) : Owns (Function.update m a w) (cell a w + cs) := by
  refine ⟨by simpa using h.nodup, fun c hc => ?_⟩
  rcases Multiset.mem_add.mp hc with hc | hc
  · obtain rfl := mem_cell.mp hc
    exact Function.update_self ..
  · rw [Function.update_of_ne (h.notMem hc)]
    exact h.holds c (Multiset.mem_add.mpr (.inr hc))

/-- Taking a new address into use. -/
theorem Owns.alloc [DecidableEq A] {m : A → V} {cs : Multiset (A × V)} {a : A} (h : Owns m cs)
    (ha : ∀ c ∈ cs, c.1 ≠ a) (w : V) : Owns (Function.update m a w) (cell a w + cs) := by
  refine ⟨?_, fun c hc => ?_⟩
  · rw [Multiset.map_add, map_fst_cell, Multiset.singleton_add, Multiset.nodup_cons]
    refine ⟨fun hm => ?_, h.nodup⟩
    obtain ⟨c, hc, he⟩ := Multiset.mem_map.mp hm
    exact ha c hc he
  · rcases Multiset.mem_add.mp hc with hc | hc
    · obtain rfl := mem_cell.mp hc
      exact Function.update_self ..
    · rw [Function.update_of_ne (ha c hc)]
      exact h.holds c hc

end CcUtils.Lib
