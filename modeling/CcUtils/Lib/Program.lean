import CcUtils.Lib.Rules

/-!
# Code cut at its accesses to memory

A library for code whose steps may fall between those of other code. A program is a tree: at each node
one access to the shared memory, a load whose value decides how it goes on or a store. Run on its own it
is a function of the memory; cut at its accesses it can be run a step at a time.

## What is proved

* `Prog.run_bind` — the run of a sequence.
* `ReadOnly.bind` — a sequence of programs without stores is one.
-/

namespace CcUtils.Lib

variable {σ α β : Type}

/-- A program over memories `σ` with results in `α`. -/
inductive Prog (σ α : Type) where
  | ret (a : α)
  | load (next : σ → Prog σ α)
  | store (f : σ → σ) (next : Prog σ α)
  | fault (e : Fault)

namespace Prog

/-- The program run on its own. -/
def run : Prog σ α → σ → Exec (σ × α)
  | ret a, m => .ok (m, a)
  | load next, m => (next m).run m
  | store f next, m => next.run (f m)
  | fault e, _ => .error e

/-- One program after another. -/
def bind : Prog σ α → (α → Prog σ β) → Prog σ β
  | ret a, k => k a
  | load next, k => load fun m => (next m).bind k
  | store f next, k => store f (next.bind k)
  | fault e, _ => fault e

instance : Monad (Prog σ) where
  pure := ret
  bind := bind

/-- One load. -/
def read (f : σ → α) : Prog σ α := load fun m => ret (f m)

/-- One store. -/
def write (f : σ → σ) : Prog σ Unit := store f (ret ())

/-- The object a pointer points to, read through by the next access. -/
def deref (p : Option α) : Prog σ α := p.elim (fault .nullDeref) ret

@[simp] theorem run_pure (a : α) (m : σ) : (pure a : Prog σ α).run m = .ok (m, a) := rfl

@[simp] theorem run_read (f : σ → α) (m : σ) : (read f).run m = .ok (m, f m) := rfl

@[simp] theorem run_write (f : σ → σ) (m : σ) : (write f).run m = .ok (f m, ()) := rfl

@[simp] theorem run_fault (e : Fault) (m : σ) : (fault e : Prog σ α).run m = .error e := rfl

@[simp] theorem run_deref_some (a : α) (m : σ) : (deref (some a) : Prog σ α).run m = .ok (m, a) := rfl

@[simp] theorem run_deref_none (m : σ) :
    (deref none : Prog σ α).run m = .error .nullDeref := rfl

/-- The run of a sequence. -/
@[simp] theorem run_bind (p : Prog σ α) (k : α → Prog σ β) (m : σ) :
    (p >>= k).run m = p.run m >>= fun u => (k u.2).run u.1 := by
  change (p.bind k).run m = _
  induction p generalizing m with
  | ret a => rfl
  | load next ih => exact ih m m
  | store f next ih => exact ih (f m)
  | fault e => rfl

/-- The program stores nothing. -/
def ReadOnly : Prog σ α → Prop
  | ret _ => True
  | load next => ∀ m, (next m).ReadOnly
  | store _ _ => False
  | fault _ => True

theorem ReadOnly.bind {p : Prog σ α} {k : α → Prog σ β} (hp : p.ReadOnly)
    (hk : ∀ a, (k a).ReadOnly) : (p >>= k).ReadOnly := by
  change (p.bind k).ReadOnly
  induction p with
  | ret a => exact hk a
  | load next ih => exact fun m => ih m (hp m)
  | store f next => exact hp.elim
  | fault e => trivial

theorem readOnly_read (f : σ → α) : (read f).ReadOnly := fun _ => trivial

end Prog

end CcUtils.Lib
