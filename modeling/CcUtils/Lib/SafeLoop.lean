import CcUtils.Lib.Rules

/-!
# Loops that look ahead

A library for loops over a changing structure that fetch the next position before the body runs, so that
the body may take the current item out. What the body may not do is disturb the items still to come: that
is the invariant, which speaks of them.

Runs take fuel, and a run yields its result when every large enough amount of fuel gives it.

## What is proved

* `Yields.bind` — the rule of sequence.
* `safeLoop_runs`, `safeLoop_yields` — the loop gives each item to the body once and in order.
-/

namespace CcUtils.Lib

variable {σ π τ ι α β : Type}

/-! ### Enough fuel -/

/-- The run gives `a` once it has enough fuel. -/
def Yields (x : ℕ → Exec α) (a : α) : Prop := ∃ N, ∀ fuel, N ≤ fuel → x fuel = .ok a

theorem Yields.ok (a : α) : Yields (fun _ => .ok a) a := ⟨0, fun _ _ => rfl⟩

/-- The rule of sequence. -/
theorem Yields.bind {x : ℕ → Exec α} {k : ℕ → α → Exec β} {a : α} {b : β} (hx : Yields x a)
    (hk : Yields (fun fuel => k fuel a) b) : Yields (fun fuel => x fuel >>= k fuel) b := by
  obtain ⟨N, hx⟩ := hx
  obtain ⟨M, hk⟩ := hk
  refine ⟨max N M, fun fuel hf => ?_⟩
  change x fuel >>= k fuel = .ok b
  rw [hx fuel (le_trans (le_max_left ..) hf)]
  exact hk fuel (le_trans (le_max_right ..) hf)

/-! ### The loop -/

/-- `for (p = first; at an item && ({next = ...; true;}); p = next) body`: `peek` gives the item at a
position with the position after it, and none at the end. With what the bodies give. -/
def safeLoop (peek : σ → π → Exec (Option (α × π))) (body : α → σ → Exec (σ × β)) :
    ℕ → σ → π → Exec (σ × List β)
  | 0, _, _ => .error .outOfFuel
  | fuel + 1, s, p => do
    let item ← peek s p
    match item with
    | none => return (s, [])
    | some (a, next) => do
      let (s, b) ← body a s
      let (s, bs) ← safeLoop peek body fuel s next
      return (s, b :: bs)

/-- What the bodies give, when each takes a value on. -/
def scan (step : τ → α → τ) (ret : τ → α → β) : τ → List α → List β
  | _, [] => []
  | t, a :: as => ret t a :: scan step ret (step t a) as

/-- Bodies that give their item give the items. -/
theorem scan_id (t : τ) (as : List α) : scan (fun _ _ => t) (fun _ a => a) t as = as := by
  induction as with
  | nil => rfl
  | cons a as ih => exact congrArg (a :: ·) ih

section rule

variable (peek : σ → π → Exec (Option (α × π))) (body : ℕ → α → σ → Exec (σ × β)) (step : τ → α → τ)
  (ret : τ → α → β) (item : ι → α) (Inv : τ → List ι → σ → π → Prop)

/-- The rule of the loop, where `Inv t todo s p` says that the items of `todo` are still to come, of which
the first is at `p`. The fuel of the loop and that of its bodies are counted apart. By induction on the
items. -/
theorem safeLoop_runs (hnil : ∀ {t s p}, Inv t [] s p → peek s p = .ok none)
    (hcons : ∀ {t i todo s p}, Inv t (i :: todo) s p → ∃ next s',
      peek s p = .ok (some (item i, next)) ∧
        Yields (fun fuel => body fuel (item i) s) (s', ret t (item i)) ∧
          Inv (step t (item i)) todo s' next)
    {t : τ} {todo : List ι} {s : σ} {p : π} (h : Inv t todo s p) :
    ∃ s' p' N, (∀ fuel fuel', todo.length < fuel → N ≤ fuel' →
        safeLoop peek (body fuel') fuel s p = .ok (s', scan step ret t (todo.map item))) ∧
      Inv ((todo.map item).foldl step t) [] s' p' := by
  induction todo generalizing t s p with
  | nil =>
    refine ⟨s, p, 0, fun fuel fuel' hf _ => ?_, h⟩
    obtain ⟨fuel, rfl⟩ := Nat.exists_eq_add_of_lt hf
    rw [safeLoop, hnil h]
    rfl
  | cons i todo ih =>
    obtain ⟨next, s₁, hpeek, ⟨M, hbody⟩, h₁⟩ := hcons h
    obtain ⟨s', p', N, hrun, hend⟩ := ih h₁
    refine ⟨s', p', max M N, fun fuel fuel' hf hf' => ?_, hend⟩
    obtain ⟨fuel, rfl⟩ := Nat.exists_eq_add_of_le' (Nat.one_le_of_lt hf)
    have hbody' : body fuel' (item i) s = .ok (s₁, ret t (item i)) :=
      hbody fuel' (le_trans (le_max_left ..) hf')
    have hrun' := hrun fuel fuel' (Nat.lt_of_succ_lt_succ hf) (le_trans (le_max_right ..) hf')
    rw [safeLoop, hpeek, ok_bind]
    simp only [hbody', ok_bind, hrun']
    rfl

theorem safeLoop_yields (hnil : ∀ {t s p}, Inv t [] s p → peek s p = .ok none)
    (hcons : ∀ {t i todo s p}, Inv t (i :: todo) s p → ∃ next s',
      peek s p = .ok (some (item i, next)) ∧
        Yields (fun fuel => body fuel (item i) s) (s', ret t (item i)) ∧
          Inv (step t (item i)) todo s' next)
    {t : τ} {todo : List ι} {s : σ} {p : π} (h : Inv t todo s p) :
    ∃ s' p', Yields (fun fuel => safeLoop peek (body fuel) fuel s p)
        (s', scan step ret t (todo.map item)) ∧
      Inv ((todo.map item).foldl step t) [] s' p' := by
  obtain ⟨s', p', N, hrun, hend⟩ := safeLoop_runs peek body step ret item Inv hnil hcons h
  refine ⟨s', p', ⟨max N (todo.length + 1), fun fuel hf => hrun fuel fuel ?_ ?_⟩, hend⟩
  · exact le_trans (le_max_right ..) hf
  · exact le_trans (le_max_left ..) hf

end rule

/-- The rule for bodies that take no fuel and give their item back. -/
theorem safeLoop_each (peek : σ → π → Exec (Option (α × π))) (body : α → σ → Exec (σ × α))
    (item : ι → α) (Inv : List ι → σ → π → Prop)
    (hnil : ∀ {s p}, Inv [] s p → peek s p = .ok none)
    (hcons : ∀ {i todo s p}, Inv (i :: todo) s p → ∃ next s',
      peek s p = .ok (some (item i, next)) ∧ body (item i) s = .ok (s', item i) ∧ Inv todo s' next)
    {todo : List ι} {s : σ} {p : π} (h : Inv todo s p) :
    ∃ s' p', (∀ fuel, todo.length < fuel →
      safeLoop peek body fuel s p = .ok (s', todo.map item)) ∧ Inv [] s' p' := by
  have hturn : ∀ {t : Unit} {i todo s p}, Inv (i :: todo) s p → ∃ next s',
      peek s p = .ok (some (item i, next)) ∧ Yields (fun _ => body (item i) s) (s', item i) ∧
        Inv todo s' next := by
    intro t i todo s p h
    obtain ⟨next, s', hpeek, hbody, hnext⟩ := hcons h
    exact ⟨next, s', hpeek, ⟨0, fun _ _ => hbody⟩, hnext⟩
  obtain ⟨s', p', N, hrun, hend⟩ := safeLoop_runs peek (fun _ => body) (fun _ _ => ()) (fun _ a => a)
    item (fun _ => Inv) hnil (hturn (t := ())) (t := ()) h
  rw [scan_id] at hrun
  exact ⟨s', p', fun fuel hf => hrun fuel N hf le_rfl, hend⟩

end CcUtils.Lib
