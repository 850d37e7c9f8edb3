import CcUtils.Fault.Names

/-!
# The window of a fault

A fault that was set with `fault_inject_init` is returned by the hits after `after_times`, as many as
`enable_times`. The hits are counted in an `int32_t` that wraps around: it leaves a window that reaches
beyond its largest value, and comes into every window again.

## What is proved

* `inWindow_iff` — the window as the program tests it.
* `condGet_at` — what one call of `fault_inject_cond_get` does.
* `unwrapped_iff` — when wrapping around makes no difference for the first hits.
* `windowed_iff` — for which settings and how many hits the window is the one that was set.
-/

namespace CcUtils.Fault

open CcUtils.Lib CcUtils.Rbtree

variable {ω : Type}

/-! ### The window -/

/-- The hit `k` is in the window. -/
def InWindow (after times k : ℤ) : Prop := after < k ∧ k ≤ after + times

/-- The counter that stands for `k`. -/
def wrap (k : ℤ) : ℤ := k.bmod (2 ^ 32)

theorem wrap_of_lt {k : ℤ} (h0 : -2 ^ 31 ≤ k) (h : k < 2 ^ 31) : wrap k = k :=
  Int.bmod_eq_of_le h0 h

theorem wrap_of_le {k : ℤ} (h : 2 ^ 31 ≤ k) (h' : k < 2 ^ 31 + 2 ^ 32) : wrap k = k - 2 ^ 32 := by
  rw [wrap, Int.bmod_def]
  split <;> omega

/-- The test of `fault_inject_cond_get`; the difference does not overflow where it matters. -/
theorem inWindow_iff {times after enable : Int32} (ha : 0 ≤ after.toInt) :
    ¬ (times ≤ after ∨ times - after > enable) ↔
      InWindow after.toInt enable.toInt times.toInt := by
  rw [not_or, Int32.not_le, gt_iff_lt, Int32.lt_iff_toInt_lt, Int32.lt_iff_toInt_lt,
    Int32.toInt_sub, InWindow, not_lt]
  refine and_congr_right fun hlt => ?_
  have hmax := times.toInt_lt
  have hdiff : (times.toInt - after.toInt).bmod (2 ^ 32) = times.toInt - after.toInt :=
    Int.bmod_eq_of_le (by omega) (by omega)
  rw [hdiff]
  omega

/-- Up to `n` hits from `hits` on, wrapping around makes no difference: the counter does not leave the
window at its largest value, nor come back into it. -/
def Unwrapped (after times hits : ℤ) (n : ℕ) : Prop :=
  (hits + n < 2 ^ 31 ∨ after + times < 2 ^ 31) ∧ (hits + n ≤ 2 ^ 32 + after ∨ times = 0)

/-- **When wrapping around makes no difference.** -/
theorem unwrapped_iff {after times hits : ℤ} (ha : 0 ≤ after) (ha' : after < 2 ^ 31)
    (ht : 0 ≤ times) (ht' : times < 2 ^ 31) (hh : 0 ≤ hits) (hh' : hits < 2 ^ 31) (n : ℕ) :
    (∀ k : ℕ, k < n → (InWindow after times (wrap (hits + (k + 1))) ↔
      InWindow after times (hits + (k + 1)))) ↔ Unwrapped after times hits n := by
  constructor
  · intro h
    -- a hit of which the program and the integers say something else
    have hdiffer : ∀ c : ℤ, hits < c → c ≤ hits + n →
        (InWindow after times (wrap c) ↔ InWindow after times c) := by
      intro c hlo hhi
      obtain ⟨k, hk⟩ : ∃ k : ℕ, c = hits + (k + 1) := ⟨(c - hits - 1).toNat, by omega⟩
      rw [hk]
      exact h k (by omega)
    refine ⟨?_, ?_⟩
    · by_contra hno
      rw [not_or, not_lt, not_lt] at hno
      have hwrap : wrap (2 ^ 31) = 2 ^ 31 - 2 ^ 32 := wrap_of_le le_rfl (by omega)
      have hfirst := (hdiffer (2 ^ 31) hh' hno.1).mpr ⟨ha', hno.2⟩
      rw [hwrap] at hfirst
      exact absurd hfirst.1 (by omega)
    · by_contra hno
      rw [not_or, not_le] at hno
      obtain ⟨hlong, hne⟩ := hno
      by_cases hlast : after + 1 < 2 ^ 31
      · have hwrap : wrap (2 ^ 32 + (after + 1)) = 2 ^ 32 + (after + 1) - 2 ^ 32 :=
          wrap_of_le (by omega) (by omega)
        have hagain := (hdiffer (2 ^ 32 + (after + 1)) (by omega) (by omega)).mp
          (by rw [hwrap]; exact ⟨by omega, by omega⟩)
        exact absurd hagain.2 (by omega)
      · have hwrap : wrap (2 ^ 31) = 2 ^ 31 - 2 ^ 32 := wrap_of_le le_rfl (by omega)
        have hfirst := (hdiffer (2 ^ 31) hh' (by omega)).mpr ⟨ha', by omega⟩
        rw [hwrap] at hfirst
        exact absurd hfirst.1 (by omega)
  · rintro ⟨hout, hin⟩ k hk
    generalize hc : hits + ((k : ℤ) + 1) = c
    by_cases hsmall : c < 2 ^ 31
    · rw [wrap_of_lt (by omega) hsmall]
    · have hafter : after + times < 2 ^ 31 := hout.resolve_left (by omega)
      refine iff_of_false ?_ fun h => ?_
      · rintro ⟨hlo, hhi⟩
        rcases hin with hin | rfl
        · rw [wrap_of_le (by omega) (by omega)] at hlo
          omega
        · omega
      · exact absurd h.2 (by omega)

instance (after times k : ℤ) : Decidable (InWindow after times k) :=
  inferInstanceAs (Decidable (_ ∧ _))

/-! ### Runs -/

/-- A call on the fault. -/
inductive Step where
  | enable
  | disable
  | condGet (privArg : UInt64)

/-- The registry after the call. -/
def Step.exec (env : Env ω) (fuel : ℕ) (name : CString) (s : Registry ω) :
    Step → Exec (Registry ω)
  | .enable => faultInjectEnable fuel s name
  | .disable => faultInjectDisable fuel s name
  | .condGet arg => (faultInjectCondGet env fuel s name arg).map Prod.fst

/-- The calls one after the other. -/
def runSteps (env : Env ω) (fuel : ℕ) (name : CString) :
    Registry ω → List Step → Exec (Registry ω)
  | s, [] => .ok s
  | s, step :: steps => do
    let s ← step.exec env fuel name s
    runSteps env fuel name s steps

/-- Whether the fault is enabled after the calls. -/
def enabledAfter : Bool → List Step → Bool
  | on, [] => on
  | _, .enable :: steps => enabledAfter true steps
  | _, .disable :: steps => enabledAfter false steps
  | on, .condGet _ :: steps => enabledAfter on steps

/-- How many calls of `fault_inject_cond_get` are made while it is enabled. -/
def hitsOf : Bool → List Step → ℕ
  | _, [] => 0
  | _, .enable :: steps => hitsOf true steps
  | _, .disable :: steps => hitsOf false steps
  | true, .condGet _ :: steps => hitsOf true steps + 1
  | false, .condGet _ :: steps => hitsOf false steps

/-- The window is the one that was set: of the calls of `fault_inject_cond_get` on the fault at `p`, the
`n`-th that is made while it is enabled returns it if and only if `hit_times + n` is in the window, and one
that is made while it is disabled returns `NULL` and counts nothing. -/
def Windowed (env : Env ω) (fuel : ℕ) (name : CString) (p : NodeRef) (new : FaultInject)
    (s : Registry ω) (steps : List Step) : Prop :=
  ∀ pre arg post, steps = pre ++ .condGet arg :: post → ∃ s₁ s₂ r,
    runSteps env fuel name s pre = .ok s₁ ∧
    faultInjectCondGet env fuel s₁ name arg = .ok (s₂, r) ∧
    if enabledAfter new.enable pre then
      r = if InWindow new.afterTimes.toInt new.enableTimes.toInt
        (new.hitTimes.toInt + (hitsOf new.enable pre + 1)) then some p else none
    else r = none ∧ s₂ = s₁

theorem hitsOf_append (on : Bool) (pre steps : List Step) :
    hitsOf on (pre ++ steps) = hitsOf on pre + hitsOf (enabledAfter on pre) steps := by
  induction pre generalizing on with
  | nil => exact (Nat.zero_add _).symm
  | cons step pre ih =>
    cases step with
    | enable => exact ih true
    | disable => exact ih false
    | condGet arg =>
      cases on with
      | false => exact ih false
      | true =>
        have := ih true
        simp only [List.cons_append, hitsOf, enabledAfter]
        omega

/-- Every hit is one of the calls. -/
theorem exists_hit {on : Bool} {steps : List Step} {k : ℕ} (h : k < hitsOf on steps) :
    ∃ pre arg post, steps = pre ++ .condGet arg :: post ∧ enabledAfter on pre = true ∧
      hitsOf on pre = k := by
  induction steps generalizing on k with
  | nil => exact absurd h (Nat.not_lt_zero k)
  | cons step steps ih =>
    have hcons : ∀ {on' : Bool}, k < hitsOf on' steps →
        (∀ pre, enabledAfter on (step :: pre) = enabledAfter on' pre ∧
          hitsOf on (step :: pre) = hitsOf on' pre) →
        ∃ pre arg post, step :: steps = pre ++ .condGet arg :: post ∧ enabledAfter on pre = true ∧
          hitsOf on pre = k := by
      intro on' hk hstep
      obtain ⟨pre, arg, post, hsplit, hon, hhits⟩ := ih hk
      exact ⟨step :: pre, arg, post, by rw [hsplit]; rfl, (hstep pre).1.trans hon,
        (hstep pre).2.trans hhits⟩
    cases step with
    | enable => exact hcons h fun _ => ⟨rfl, rfl⟩
    | disable => exact hcons h fun _ => ⟨rfl, rfl⟩
    | condGet arg =>
      cases on with
      | false => exact hcons h fun _ => ⟨rfl, rfl⟩
      | true =>
        cases k with
        | zero => exact ⟨[], arg, steps, rfl, rfl, rfl⟩
        | succ k =>
          obtain ⟨pre, arg', post, hsplit, hon, hhits⟩ := ih (Nat.lt_of_succ_lt_succ h)
          exact ⟨.condGet arg :: pre, arg', post, by rw [hsplit]; rfl, hon,
            congrArg Nat.succ hhits⟩

/-! ### The fault in a run -/

/-- The fault at `p` after `k` hits. -/
structure Counted (fuel : ℕ) (name : CString) (p : NodeRef) (new : FaultInject) (on : Bool) (k : ℕ)
    (s : Registry ω) : Prop where
  found : faultInjectFind fuel s name = .ok (some p)
  callback : (s.record p).callback = none
  enable : (s.record p).item.enable = on
  afterTimes : (s.record p).item.afterTimes = new.afterTimes
  enableTimes : (s.record p).item.enableTimes = new.enableTimes
  hitTimes : (s.record p).item.hitTimes = Int32.ofInt (new.hitTimes.toInt + k)

/-- Changing the item. -/
theorem counted_modifyItem {fuel : ℕ} {s : Registry ω} {name : CString} {p : NodeRef}
    (hfind : faultInjectFind fuel s name = .ok (some p)) (hcb : (s.record p).callback = none)
    {f : FaultInject → FaultInject} (hname : ∀ i, (f i).name = i.name) {new : FaultInject}
    {on : Bool} {k : ℕ} (henable : (f (s.record p).item).enable = on)
    (hafter : (f (s.record p).item).afterTimes = new.afterTimes)
    (htimes : (f (s.record p).item).enableTimes = new.enableTimes)
    (hhits : (f (s.record p).item).hitTimes = Int32.ofInt (new.hitTimes.toInt + k)) :
    Counted fuel name p new on k (s.modifyItem p f) := by
  have hrec := record_modifyItem s p f
  constructor
  · exact find_modifyItem hfind hname
  · rw [hrec]
    exact hcb
  · rw [hrec]
    exact henable
  · rw [hrec]
    exact hafter
  · rw [hrec]
    exact htimes
  · rw [hrec]
    exact hhits

/-- `fault_inject_init` sets it. -/
theorem counted_init {fuel : ℕ} {s : Registry ω} {name : CString} {p : NodeRef}
    (hfind : faultInjectFind fuel s name = .ok (some p)) (hcb : (s.record p).callback = none)
    (new : FaultInject) :
    Post (faultInjectInit fuel s name new) (Counted fuel name p new new.enable 0) := by
  have hhits : new.hitTimes = Int32.ofInt (new.hitTimes.toInt + (0 : ℕ)) := by
    rw [Nat.cast_zero, Int.add_zero, Int32.ofInt_toInt]
  rw [faultInjectInit, withFault_found hfind]
  refine .ok (counted_modifyItem hfind hcb ?_ rfl rfl rfl hhits)
  exact fun _ => rfl

/-- The hit after `k` of them, as the counter has it. -/
theorem toInt_hitTimes (hits : Int32) (k : ℕ) :
    (Int32.ofInt (hits.toInt + k) + 1).toInt = wrap (hits.toInt + (k + 1)) := by
  have hone : (1 : Int32) = Int32.ofInt 1 := rfl
  rw [hone, ← Int32.ofInt_add, Int32.toInt_ofInt, wrap, Int.add_assoc]
  rfl

/-- Without a callback the fault is returned in the window. -/
theorem fire_none {r : FaultInjectInternal ω} (hcb : r.callback = none)
    (ha : 0 ≤ r.item.afterTimes.toInt) (sleep : Int32 → ω → ω) (arg : UInt64) (w : ω) :
    (fire sleep r arg w).1 = decide (InWindow r.item.afterTimes.toInt r.item.enableTimes.toInt
      r.item.hitTimes.toInt) := by
  have hwin := @inWindow_iff r.item.hitTimes r.item.afterTimes r.item.enableTimes ha
  simp only [fire, hcb, if_true]
  split
  case isTrue hout => exact (decide_eq_false fun h => hwin.mpr h hout).symm
  case isFalse hin => exact (decide_eq_true (hwin.mp hin)).symm

/-- **A call of `fault_inject_cond_get`** counts a hit, and returns the fault if the counter is in the
window, when the fault is enabled; else it does nothing. -/
theorem condGet_at (env : Env ω) {fuel : ℕ} {name : CString} {p : NodeRef} {new : FaultInject}
    {on : Bool} {k : ℕ} {s : Registry ω} (h : Counted fuel name p new on k s)
    (ha : 0 ≤ new.afterTimes.toInt) (arg : UInt64) :
    ∃ s' r, faultInjectCondGet env fuel s name arg = .ok (s', r) ∧
      if on then
        Counted fuel name p new true (k + 1) s' ∧
          r = if InWindow new.afterTimes.toInt new.enableTimes.toInt
            (wrap (new.hitTimes.toInt + (k + 1))) then some p else none
      else r = none ∧ s' = s := by
  obtain ⟨hfound, hcb, henable, hafter, htimes, hhits⟩ := h
  cases on with
  | false => exact ⟨s, none, condGet_off env hfound henable arg, rfl, rfl⟩
  | true =>
    have hcount : (countHit (s.record p).item).hitTimes =
        Int32.ofInt (new.hitTimes.toInt + k) + 1 := congrArg (· + 1) hhits
    have hfire := @fire_none _ { s.record p with item := countHit (s.record p).item } hcb
      (hafter.symm ▸ ha) env.sleep arg s.world
    dsimp only at hfire
    rw [hcount, toInt_hitTimes] at hfire
    have hnext : (countHit (s.record p).item).hitTimes =
        Int32.ofInt (new.hitTimes.toInt + (k + 1 : ℕ)) := by
      rw [hcount, Nat.cast_succ, ← Int.add_assoc, Int32.ofInt_add _ 1]
      rfl
    have hs' := @counted_modifyItem _ fuel s name p hfound hcb countHit (fun _ => rfl) new true (k + 1)
      henable hafter htimes hnext
    refine ⟨_, _, condGet_on env hfound henable arg, ⟨hs'.found, hs'.callback, hs'.enable,
      hs'.afterTimes, hs'.enableTimes, hs'.hitTimes⟩, ?_⟩
    · rw [hfire, ← hafter, ← htimes]
      simp only [decide_eq_true_eq]
      rfl

/-- Enabling and disabling do not touch the counter. -/
theorem counted_setEnable {fuel : ℕ} {name : CString} {p : NodeRef} {new : FaultInject}
    {on : Bool} {k : ℕ} {s : Registry ω} (h : Counted fuel name p new on k s) (on' : Bool) :
    Post (withFault fuel s name fun f => { f with enable := on' })
      (Counted fuel name p new on' k) := by
  rw [withFault_found h.found]
  refine .ok (counted_modifyItem h.found h.callback ?_ rfl h.afterTimes h.enableTimes h.hitTimes)
  exact fun _ => rfl

/-- **A run** leaves the fault enabled or not by the last call that says so, with as many hits as there were
calls while it was enabled. -/
theorem runSteps_counted (env : Env ω) {fuel : ℕ} {name : CString} {p : NodeRef}
    {new : FaultInject} {on : Bool} {k : ℕ} {s : Registry ω} (h : Counted fuel name p new on k s)
    (ha : 0 ≤ new.afterTimes.toInt) (steps : List Step) :
    Post (runSteps env fuel name s steps)
      (Counted fuel name p new (enabledAfter on steps) (k + hitsOf on steps)) := by
  induction steps generalizing on k s with
  | nil => exact .ok h
  | cons step steps ih =>
    cases step with
    | enable => exact (counted_setEnable h true).bind fun s' hs' => ih hs'
    | disable => exact (counted_setEnable h false).bind fun s' hs' => ih hs'
    | condGet arg =>
      obtain ⟨s', r, hget, hs'⟩ := condGet_at env h ha arg
      rw [runSteps, Step.exec, hget]
      cases on with
      | false =>
        obtain ⟨-, rfl⟩ := hs'
        exact ih h
      | true =>
        have := ih hs'.1
        rw [Nat.add_right_comm] at this
        exact this

theorem ite_some_inj {α : Type} {a : α} {P Q : Prop} [Decidable P] [Decidable Q]
    (h : (if P then some a else none) = if Q then some a else none) : P ↔ Q := by
  by_cases hP : P <;> by_cases hQ : Q <;> simp_all

/-- **The window is the one that was set** exactly when the counter, in all the hits of the run, does not
leave it at its largest value nor come back into it. -/
theorem windowed_iff (env : Env ω) {fuel : ℕ} {s : Registry ω} {name : CString} {p : NodeRef}
    (hfind : faultInjectFind fuel s name = .ok (some p)) (hcb : (s.record p).callback = none)
    {new : FaultInject} (ha : 0 ≤ new.afterTimes.toInt) (he : 0 ≤ new.enableTimes.toInt)
    (hh : 0 ≤ new.hitTimes.toInt) (steps : List Step) :
    Post (faultInjectInit fuel s name new) (Windowed env fuel name p new · steps) ↔
      Unwrapped new.afterTimes.toInt new.enableTimes.toInt new.hitTimes.toInt
        (hitsOf new.enable steps) := by
  obtain ⟨s₀, hinit, hs₀⟩ := counted_init hfind hcb new
  rw [← unwrapped_iff ha new.afterTimes.toInt_lt he new.enableTimes.toInt_lt hh
    new.hitTimes.toInt_lt]
  have hstart : Post (faultInjectInit fuel s name new) (Windowed env fuel name p new · steps) ↔
      Windowed env fuel name p new s₀ steps :=
    ⟨fun h => h.of_ok hinit, fun h => ⟨s₀, hinit, h⟩⟩
  rw [hstart]
  constructor
  · intro h k hk
    obtain ⟨pre, arg, post, hsplit, hon, rfl⟩ := exists_hit hk
    obtain ⟨s₁, s₂, r, hrun, hget, hr⟩ := h pre arg post hsplit
    have hs₁ := (runSteps_counted env hs₀ ha pre).of_ok hrun
    rw [hon, Nat.zero_add] at hs₁
    rw [hon, if_pos rfl] at hr
    obtain ⟨s₂', r', hget', -, hr'⟩ := condGet_at env hs₁ ha arg
    obtain ⟨-, rfl⟩ := Prod.mk.inj (Except.ok.inj (hget.symm.trans hget'))
    exact ite_some_inj (hr'.symm.trans hr)
  · intro h pre arg post hsplit
    obtain ⟨s₁, hrun, hs₁⟩ := runSteps_counted env hs₀ ha pre
    rw [Nat.zero_add] at hs₁
    obtain ⟨s₂, r, hget, hr⟩ := condGet_at env hs₁ ha arg
    refine ⟨s₁, s₂, r, hrun, hget, ?_⟩
    cases hon : enabledAfter new.enable pre with
    | false =>
      rw [hon] at hr
      exact hr
    | true =>
      have hlt : hitsOf new.enable pre < hitsOf new.enable steps := by
        rw [hsplit, hitsOf_append, hon]
        exact Nat.lt_add_of_pos_right (Nat.succ_pos _)
      rw [hon] at hr
      obtain ⟨-, rfl⟩ := hr
      simp only [h _ hlt, if_true]

/-- The third to the fifth of ten hits. -/
theorem windowed_iff_ten :
    ∃ s p, faultInjectRegisterPriv junkEnv 2 (emptyRegistry ()) nameA none = .ok s ∧
      (Post (faultInjectInit 2 s nameA
          { junkFault with enable := true, afterTimes := 2, enableTimes := 3 })
          (Windowed junkEnv 2 nameA p
            { junkFault with enable := true, afterTimes := 2, enableTimes := 3 } ·
            (List.replicate 10 (.condGet 0))) ↔
        Unwrapped 2 3 0 10) := by
  obtain ⟨s, hs, p, hfind, hcb, -⟩ := registerPriv_nameA () none
  exact ⟨s, p, hs, windowed_iff junkEnv hfind hcb (by decide) (by decide) (by decide) _⟩

/-- From the hit after the first on, for as many as there can be; the counter is at its largest value. -/
def lastHit : FaultInject :=
  { junkFault with
    enable := true, afterTimes := 1, enableTimes := Int32.maxValue, hitTimes := Int32.maxValue }

/-- The next hit is in the window, and is not returned. -/
theorem not_windowed_lastHit :
    ∃ s p, faultInjectRegisterPriv junkEnv 2 (emptyRegistry ()) nameA none = .ok s ∧
      faultInjectFind 2 s nameA = .ok (some p) ∧ (s.record p).callback = none ∧
      ¬ Post (faultInjectInit 2 s nameA lastHit)
        (Windowed junkEnv 2 nameA p lastHit · [.condGet 0]) := by
  obtain ⟨s, hs, p, hfind, hcb, -⟩ := registerPriv_nameA () none
  refine ⟨s, p, hs, hfind, hcb, fun h => ?_⟩
  obtain ⟨s₀, hinit, hs₀⟩ := counted_init hfind hcb lastHit
  obtain ⟨s₁, s₂, r, hrun, hget, hr⟩ := h.of_ok hinit [] 0 [] rfl
  obtain rfl : s₀ = s₁ := Except.ok.inj hrun
  obtain ⟨s₂', r', hget', -, hr'⟩ := condGet_at junkEnv hs₀ (by decide) 0
  obtain ⟨-, rfl⟩ := Prod.mk.inj (Except.ok.inj (hget.symm.trans hget'))
  have hin := ite_some_inj (hr'.symm.trans hr)
  revert hin
  decide

end CcUtils.Fault
