import CcUtils.Lib.Memory

/-!
# Rules for runs of C code

A library of judgments on runs that give a result or end with a fault, each with its rules of sequence.
`Post`: the run succeeds and its result has a property. `Ensures`: so it is if the run succeeds. `Within`:
one fault is ruled out but for a condition, as when only out of bounds matters. `Agrees`: two runs are one,
and do not end with a fault. `Grows`: two runs are one while the first does not leave its memory.

## What is proved

* `Post.bind`, `Ensures.bind`, `Within.bind`, `Agrees.bind`, `Grows.bind` — the rules of sequence.
* `Within.mono`, `Post.mono` — the rules of consequence.
* `Post.forRange` — the rule of a loop with a counter.
* `Post.drain` — the rule of a loop that takes items until there is none.
* `forall_split_cons` — a property of every place in a list, at the first and at the others.
-/

namespace CcUtils.Lib

/-! ### Successful runs -/

/-- The run succeeds with a result for which `Q` holds. -/
def Post {α : Type} (x : Exec α) (Q : α → Prop) : Prop := ∃ a, x = .ok a ∧ Q a

theorem Post.ok {α : Type} {a : α} {Q : α → Prop} (h : Q a) : Post (.ok a) Q := ⟨a, rfl, h⟩

theorem Post.pure {α : Type} {a : α} {Q : α → Prop} (h : Q a) : Post (Pure.pure a) Q := ⟨a, rfl, h⟩

/-- The rule of sequence. -/
theorem Post.bind {α β : Type} {x : Exec α} {f : α → Exec β} {P : α → Prop} {Q : β → Prop}
    (hx : Post x P) (hf : ∀ a, P a → Post (f a) Q) : Post (x >>= f) Q := by
  obtain ⟨a, rfl, ha⟩ := hx
  exact hf a ha

/-- The rule of consequence. -/
theorem Post.mono {α : Type} {x : Exec α} {P Q : α → Prop} (hx : Post x P) (h : ∀ a, P a → Q a) :
    Post x Q := by
  obtain ⟨a, rfl, ha⟩ := hx
  exact ⟨a, rfl, h a ha⟩

/-- What the result is known for. -/
theorem Post.of_ok {α : Type} {x : Exec α} {a : α} {Q : α → Prop} (h : Post x Q) (e : x = .ok a) :
    Q a := by
  obtain ⟨b, rfl, hb⟩ := h
  obtain rfl := Except.ok.inj e
  exact hb

/-- `Q` holds of the result, if the run succeeds. -/
def Ensures {α : Type} (x : Exec α) (Q : α → Prop) : Prop := ∀ a, x = .ok a → Q a

theorem Ensures.ok {α : Type} {a : α} {Q : α → Prop} (h : Q a) : Ensures (.ok a) Q := by
  rintro _ ⟨⟩
  exact h

theorem Ensures.pure {α : Type} {a : α} {Q : α → Prop} (h : Q a) : Ensures (Pure.pure a) Q :=
  Ensures.ok h

theorem Ensures.error {α : Type} (e : Fault) (Q : α → Prop) : Ensures (.error e) Q := nofun

/-- The rule of sequence. -/
theorem Ensures.bind {α β : Type} {x : Exec α} {f : α → Exec β} {P : α → Prop} {Q : β → Prop}
    (hx : Ensures x P) (hf : ∀ a, P a → Ensures (f a) Q) : Ensures (x >>= f) Q := by
  intro b hb
  obtain ⟨a, ha, hb⟩ := bind_eq_ok.mp hb
  exact hf a (hx a ha) b hb

/-- A step whose result does not matter. -/
theorem Ensures.step {α β : Type} {x : Exec α} {f : α → Exec β} {Q : β → Prop}
    (hf : ∀ a, Ensures (f a) Q) : Ensures (x >>= f) Q := by
  intro b hb
  obtain ⟨a, -, hb⟩ := bind_eq_ok.mp hb
  exact hf a b hb

/-- What a run that succeeds ensures, its result has. -/
theorem Post.and_ensures {α : Type} {x : Exec α} {P Q : α → Prop} (hx : Post x P)
    (h : Ensures x Q) : Post x fun a => P a ∧ Q a := by
  obtain ⟨a, rfl, ha⟩ := hx
  exact ⟨a, rfl, ha, h a rfl⟩

/-! ### Runs that may fail in one way -/

/-- The run ends with the fault `e` only if `bad`; `Q` holds of its result, if it succeeds. -/
structure Within {α : Type} (e : Fault) (bad : Prop) (x : Exec α) (Q : α → Prop) : Prop where
  fault : x = .error e → bad
  result : Ensures x Q

section within

variable {α : Type} {e f : Fault} {bad : Prop}

theorem Within.ok {a : α} {Q : α → Prop} (h : Q a) : Within e bad (.ok a) Q := ⟨nofun, .ok h⟩

theorem Within.error (Q : α → Prop) (h : f = e → bad) : Within e bad (.error f) Q :=
  ⟨fun he => h (Except.error.inj he), .error f Q⟩

/-- Another fault. -/
theorem Within.other (Q : α → Prop) (h : f ≠ e) : Within e bad (.error f) Q :=
  .error Q fun he => absurd he h

/-- The rule of sequence. -/
theorem Within.bind {β : Type} {x : Exec α} {g : α → Exec β} {P : α → Prop} {Q : β → Prop}
    (hx : Within e bad x P) (hg : ∀ a, P a → Within e bad (g a) Q) : Within e bad (x >>= g) Q := by
  cases x with
  | error f => exact .error Q fun he => hx.fault (congrArg _ he)
  | ok a => exact hg a (hx.result a rfl)

/-- The rule of consequence. -/
theorem Within.mono {worse : Prop} {x : Exec α} {P Q : α → Prop} (hx : Within e bad x P)
    (hb : bad → worse) (h : ∀ a, P a → Q a) : Within e worse x Q :=
  ⟨fun he => hb (hx.fault he), fun a ha => h a (hx.result a ha)⟩

/-- A run that never ends with the fault. -/
theorem Within.weaken {x : Exec α} {Q : α → Prop} (hx : Within e False x Q) : Within e bad x Q :=
  hx.mono False.elim fun _ h => h

/-- A check that fails with the fault. -/
theorem Within.check {p : Prop} [Decidable p] (h : ¬ p → bad) (f : Fault) :
    Within e bad (check p f) fun _ => p := by
  by_cases hp : p
  · rw [check_true hp]
    exact .ok hp
  · rw [check_false hp]
    exact .error _ fun _ => h hp

/-- A check that fails with another fault. -/
theorem Within.check_other {p : Prop} [Decidable p] (hf : f ≠ e) :
    Within e bad (CcUtils.Lib.check p f) fun _ => p := by
  by_cases hp : p
  · rw [check_true hp]
    exact .ok hp
  · rw [check_false hp]
    exact .other _ hf

/-- A check that fails with another fault, and what comes after it. -/
theorem Within.check_bind {β : Type} {p : Prop} [Decidable p] {g : Unit → Exec β} {Q : β → Prop}
    (hf : f ≠ e) (hg : p → Within e bad (g ()) Q) :
    Within e bad (CcUtils.Lib.check p f >>= g) Q :=
  (Within.check_other hf).bind fun _ hp => hg hp

end within

/-! ### The same run twice -/

/-- The two runs are one, which does not end with the fault `e`; `Q` holds of its result. -/
structure Agrees {α : Type} (e : Fault) (x y : Exec α) (Q : α → Prop) : Prop where
  eq : x = y
  within : Within e False x Q

section agrees

variable {α : Type} {e f : Fault}

theorem Agrees.refl {x : Exec α} {Q : α → Prop} (h : Within e False x Q) : Agrees e x x Q := ⟨rfl, h⟩

/-- The rule of sequence. -/
theorem Agrees.bind {β : Type} {x y : Exec α} {g g' : α → Exec β} {P : α → Prop} {Q : β → Prop}
    (hx : Agrees e x y P) (hg : ∀ a, P a → Agrees e (g a) (g' a) Q) :
    Agrees e (x >>= g) (y >>= g') Q := by
  obtain ⟨rfl, hx⟩ := hx
  cases x with
  | error f => exact .refl (.error Q fun he => hx.fault (congrArg _ he))
  | ok a => exact hg a (hx.result a rfl)

/-- A step of both whose result does not matter. -/
theorem Agrees.step {β : Type} {x : Exec α} {g g' : α → Exec β} {Q : β → Prop}
    (hx : Within e False x fun _ => True) (hg : ∀ a, Agrees e (g a) (g' a) Q) :
    Agrees e (x >>= g) (x >>= g') Q :=
  (Agrees.refl hx).bind fun a _ => hg a

end agrees

/-! ### The same run with more memory -/

/-- `y` is the run of `x` with more memory: it ends as `x` does, with the results taken over by `g`, where `x`
does not leave its memory. -/
def Grows {α : Type} (g : α → α) (x y : Exec α) : Prop := x ≠ .error .outOfBounds → y = x.map g

section grows

variable {α : Type} {g : α → α} {x y : Exec α}

theorem Grows.ok (a : α) : Grows g (.ok a) (.ok (g a)) := fun _ => rfl

theorem Grows.error (e : Fault) : Grows g (.error e) (.error e) := fun _ => rfl

theorem Grows.refl (x : Exec α) : Grows id x x := by
  intro _
  cases x with
  | error e => rfl
  | ok a => rfl

/-- The rule of sequence. -/
theorem Grows.bind {β : Type} {g' : β → β} {f f' : α → Exec β} (hx : Grows g x y)
    (hf : ∀ a, x = .ok a → Grows g' (f a) (f' (g a))) : Grows g' (x >>= f) (y >>= f') := by
  intro hne
  cases x with
  | error e =>
    have he : (Except.error e : Exec α) ≠ .error .outOfBounds := fun he => hne (congrArg _ (Except.error.inj he))
    rw [hx he]
    rfl
  | ok a =>
    rw [hx nofun]
    exact hf a rfl hne

theorem Grows.eq_ok {a : α} (h : Grows g x y) (hx : x = .ok a) : y = .ok (g a) := by
  subst hx
  exact h nofun

end grows

/-! ### Loops with a counter -/

/-- The rule of `for (i = 0; i < n; i++)`, with an invariant that may name `i`. -/
theorem Post.forRange {σ : Type} {f : σ → ℕ → Exec σ} {R : ℕ → σ → Prop} {n : ℕ} {s : σ}
    (hstep : ∀ i < n, ∀ s, R i s → Post (f s i) (R (i + 1))) (h : R 0 s) :
    Post ((List.range n).foldlM f s) (R n) := by
  induction n with
  | zero => exact Post.ok h
  | succ n ih =>
    rw [List.range_succ, List.foldlM_append]
    refine (ih fun i hi => hstep i (Nat.lt_succ_of_lt hi)).bind fun t ht => ?_
    rw [List.foldlM_cons]
    exact (hstep n (Nat.lt_succ_self n) t ht).bind fun u hu => Post.pure hu

/-! ### Calls until there is nothing left -/

section drain

variable {σ α : Type} {pop : σ → Exec (σ × Option α)} {s : σ} {q : List α} {fuel fuel' : ℕ}

/-- What `pop` returns, call after call, until it returns NULL. -/
def drain (pop : σ → Exec (σ × Option α)) : ℕ → σ → Exec (σ × List α)
  | 0, _ => .error .outOfFuel
  | fuel + 1, s => do
    let (s, a) ← pop s
    match a with
    | none => return (s, [])
    | some a => do
      let (s, q) ← drain pop fuel s
      return (s, a :: q)

/-- The rule of the loop, where `R s q` says that `q` is still to come. -/
theorem Post.drain {R : σ → List α → Prop}
    (hnil : ∀ s, R s [] → Post (pop s) fun u => u.2 = none ∧ R u.1 [])
    (hcons : ∀ s a q, R s (a :: q) → Post (pop s) fun u => u.2 = some a ∧ R u.1 q)
    (h : R s q) (hf : q.length < fuel) :
    Post (CcUtils.Lib.drain pop fuel s) fun u => u.2 = q ∧ R u.1 [] := by
  induction q generalizing s fuel with
  | nil =>
    obtain ⟨fuel, rfl⟩ := Nat.exists_eq_add_of_lt hf
    refine (hnil s h).bind ?_
    rintro ⟨s, _⟩ ⟨rfl, hs⟩
    exact Post.pure ⟨rfl, hs⟩
  | cons a q ih =>
    obtain ⟨fuel, rfl⟩ := Nat.exists_eq_add_of_lt hf
    refine (hcons s a q h).bind ?_
    rintro ⟨s, _⟩ ⟨rfl, hs⟩
    have hlen : q.length < (a :: q).length + fuel := by
      rw [List.length_cons]
      omega
    refine (ih hs hlen).bind ?_
    rintro ⟨t, _⟩ ⟨rfl, ht⟩
    exact Post.pure ⟨rfl, ht⟩

/-- More fuel does not change a result. -/
theorem drain_mono {u : σ × List α} (h : drain pop fuel s = .ok u) (hf : fuel ≤ fuel') :
    drain pop fuel' s = .ok u := by
  induction fuel generalizing s fuel' u with
  | zero => cases h
  | succ fuel ih =>
    obtain ⟨fuel', rfl⟩ := Nat.exists_eq_add_of_le' (Nat.one_le_of_lt hf)
    obtain ⟨⟨s, a⟩, hpop, h⟩ := bind_eq_ok.mp h
    rw [drain, hpop, ok_bind]
    cases a with
    | none => exact h
    | some a =>
      obtain ⟨v, hv, h⟩ := bind_eq_ok.mp h
      exact bind_eq_ok.mpr ⟨v, ih hv (Nat.le_of_succ_le_succ hf), h⟩

end drain

/-! ### Runs as lists -/

/-- A property of every place in a list, which may depend on what is before it and after it. -/
theorem forall_split_cons {α : Type} {x : α} {xs : List α} {P : List α → α → List α → Prop} :
    (∀ pre y post, x :: xs = pre ++ y :: post → P pre y post) ↔
      P [] x xs ∧ ∀ pre y post, xs = pre ++ y :: post → P (x :: pre) y post := by
  constructor
  · intro h
    exact ⟨h [] x xs rfl, fun pre y post hsplit => h (x :: pre) y post (congrArg (x :: ·) hsplit)⟩
  · rintro ⟨hfirst, hrest⟩ pre y post hsplit
    cases pre with
    | nil =>
      obtain ⟨rfl, rfl⟩ := List.cons.inj hsplit
      exact hfirst
    | cons z pre =>
      obtain ⟨rfl, htail⟩ := List.cons.inj hsplit
      exact hrest pre y post htail

end CcUtils.Lib
