import CcUtils.Lib.Rules
import Mathlib.Logic.Function.Basic

/-!
# A heap of blocks

A library for code that keeps pointers to what `malloc` gave it. The heap has blocks of cells under
numbers, and a pointer is the number of a block; a block that has been freed, or has never been allocated,
is none.

## What is proved

* `Heap.block_alloc` — a new block is apart from all others.
* `Heap.load_ok`, `Heap.store_ok`, `Heap.free_ok` — accesses to a block that is there, and its end.
-/

namespace CcUtils.Lib

/-- The blocks, and the number of the next one. -/
structure Heap (α : Type) where
  block : ℕ → Option (List α)
  next : ℕ
  fresh : ∀ b, next ≤ b → block b = none

namespace Heap

variable {α : Type}

/-- No blocks. -/
def empty : Heap α := ⟨fun _ => none, 0, fun _ _ => rfl⟩

/-- A block whose contents are `cells`. -/
def alloc (h : Heap α) (cells : List α) : Heap α × ℕ :=
  ({ block := Function.update h.block h.next (some cells)
     next := h.next + 1
     fresh := fun b hb => by
      rw [Function.update_of_ne (by omega)]
      exact h.fresh b (by omega) }, h.next)

/-- Another block in the place of one that is there. -/
def replace (h : Heap α) (b : ℕ) (cells : Option (List α)) (hb : h.block b ≠ none) : Heap α where
  block := Function.update h.block b cells
  next := h.next
  fresh := fun c hc => by
    have hne : c ≠ b := by
      rintro rfl
      exact hb (h.fresh c hc)
    rw [Function.update_of_ne hne]
    exact h.fresh c hc

/-- Read cell `i` of block `b`. -/
def load (h : Heap α) (b i : ℕ) : Exec α :=
  match h.block b with
  | none => .error .outOfBounds
  | some cells =>
    match cells[i]? with
    | none => .error .outOfBounds
    | some a => .ok a

/-- Write cell `i` of block `b`. -/
def store (h : Heap α) (b i : ℕ) (a : α) : Exec (Heap α) :=
  match hb : h.block b with
  | none => .error .outOfBounds
  | some cells =>
    if i < cells.length then .ok (h.replace b (some (cells.set i a)) (by simp [hb]))
    else .error .outOfBounds

/-- `free`. -/
def free (h : Heap α) (b : ℕ) : Exec (Heap α) :=
  if hb : h.block b = none then .error .outOfBounds else .ok (h.replace b none hb)

variable {h : Heap α} {b i : ℕ} {cells : List α} {a : α}

@[simp] theorem block_alloc (h : Heap α) (cells : List α) :
    (h.alloc cells).1.block = Function.update h.block h.next (some cells) := rfl

theorem block_next (h : Heap α) : h.block h.next = none := h.fresh h.next le_rfl

theorem load_ok (hb : h.block b = some cells) (hi : cells[i]? = some a) : h.load b i = .ok a := by
  simp [load, hb, hi]

theorem store_ok (hb : h.block b = some cells) (hi : i < cells.length) (a : α) :
    Post (h.store b i a) fun h' => h'.block = Function.update h.block b (some (cells.set i a)) := by
  unfold store
  split
  · rename_i hnone
    rw [hb] at hnone
    cases hnone
  · rename_i cells' hb'
    obtain rfl := Option.some.inj (hb.symm.trans hb')
    rw [if_pos hi]
    exact Post.ok rfl

theorem free_ok (hb : h.block b = some cells) :
    Post (h.free b) fun h' => h'.block = Function.update h.block b none := by
  unfold free
  rw [dif_neg (by simp [hb])]
  exact Post.ok rfl

end Heap

end CcUtils.Lib
