import Mathlib.Logic.Relation

/-!
# Runs of a step

A library of runs of a step that is a partial function. A run that ends never returns to a state.

## What is proved

* `Ends.not_returns` — a run that ends comes to no state twice.
-/

namespace CcUtils.Lib

variable {α : Type} {step : α → Option α}

/-- A step leads from `a` to `b`. -/
def Steps (step : α → Option α) (a b : α) : Prop := step a = some b

/-- Steps, maybe none, lead from `a` to `b`. -/
def Leads (step : α → Option α) (a b : α) : Prop := Relation.ReflTransGen (Steps step) a b

/-- Some steps lead from `a` back to `a`. -/
def Returns (step : α → Option α) (a : α) : Prop := Relation.TransGen (Steps step) a a

/-- The run from `a` ends. -/
def Ends (step : α → Option α) (a : α) : Prop := Acc (fun b a => Steps step a b) a

theorem Ends.leads {a b : α} (h : Ends step a) (hab : Leads step a b) : Ends step b := by
  induction hab with
  | refl => exact h
  | tail _ hbc ih => exact Acc.inv ih hbc

/-- A run that ends comes to no state twice. -/
theorem Ends.not_returns {a b : α} (h : Ends step a) (hab : Leads step a b) :
    ¬ Returns step b := by
  have hirrefl : ∀ b, Acc (Relation.TransGen fun b a => Steps step a b) b →
      ¬ Relation.TransGen (fun b a => Steps step a b) b b := by
    intro b hb
    induction hb with
    | intro b _ ih => exact fun hbb => ih b hbb hbb
  intro hb
  exact hirrefl b (h.leads hab).transGen (Relation.transGen_swap.mp hb)

end CcUtils.Lib
