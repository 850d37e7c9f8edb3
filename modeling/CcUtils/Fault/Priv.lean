import CcUtils.Fault.Names
import CcUtils.Fault.Registry

/-!
# What a callback is given

`fault_inject_init` sets what the calls of `fault_inject_cond_get` after it read of the fault, but for
`priv`, which the callback is called with: that is what was in the memory from `malloc`, or what somebody has
stored there since.

The calls of a callback are written down in the world, behind the state `σ` it keeps for itself.

## What is proved

* `condGets_run` — the calls of `fault_inject_cond_get` do what the fault does as an entry of the map.
* `run_traced` — what the callback is called with, and whether it is.
* `run_quiet` — without a call, `priv` does not matter.
* `determined_iff` — so when `fault_inject_init` determines the calls.
-/

namespace CcUtils.Fault

open CcUtils.Lib CcUtils.Rbtree

variable {ω σ : Type}

/-! ### Calls of `fault_inject_cond_get` -/

/-- The calls with these arguments, one after the other. -/
def condGets (env : Env ω) (fuel : ℕ) (name : CString) :
    Registry ω → List UInt64 → Exec (Registry ω × List (Option NodeRef))
  | s, [] => .ok (s, [])
  | s, arg :: args => do
    let (s, r) ← faultInjectCondGet env fuel s name arg
    let (s, rs) ← condGets env fuel name s args
    .ok (s, r :: rs)

theorem condGets_cons {env : Env ω} {fuel : ℕ} {name : CString} {s s₁ : Registry ω} {arg : UInt64}
    {args : List UInt64} {r : Option NodeRef} {rs : Registry ω × List (Option NodeRef)}
    (h : faultInjectCondGet env fuel s name arg = .ok (s₁, r))
    (hs : condGets env fuel name s₁ args = .ok rs) :
    condGets env fuel name s (arg :: args) = .ok (rs.1, r :: rs.2) := by
  simp only [condGets, h, ok_bind, hs]

/-- The entry over the same calls: whether it is returned, each time, and the world at the end. -/
def Entry.run (sleep : Int32 → ω → ω) : Entry ω → ω → List UInt64 → List Bool × ω
  | _, w, [] => ([], w)
  | e, w, arg :: args =>
    if e.settings.enable then
      let r := e.hit sleep arg w
      let rest := Entry.run sleep { e with hitTimes := e.hitTimes + 1 } r.2 args
      (r.1 :: rest.1, rest.2)
    else
      let rest := Entry.run sleep e w args
      (false :: rest.1, rest.2)

theorem Entry.run_off (sleep : Int32 → ω → ω) {e : Entry ω} (h : e.settings.enable = false) (w : ω)
    (arg : UInt64) (args : List UInt64) :
    e.run sleep w (arg :: args) =
      (false :: (e.run sleep w args).1, (e.run sleep w args).2) := by
  rw [Entry.run, if_neg (by rw [h]; exact Bool.false_ne_true)]

theorem Entry.run_on (sleep : Int32 → ω → ω) {e : Entry ω} (h : e.settings.enable = true) (w : ω)
    (arg : UInt64) (args : List UInt64) :
    e.run sleep w (arg :: args) =
      let rest := Entry.run sleep { e with hitTimes := e.hitTimes + 1 } (e.hit sleep arg w).2 args
      ((e.hit sleep arg w).1 :: rest.1, rest.2) := by
  rw [Entry.run, if_pos h]

/-- The pointer that is returned for a fault. -/
def returnedFor (p : NodeRef) (hit : Bool) : Option NodeRef := if hit then some p else none

/-- **The calls do what the entry does** that the record stands for. -/
theorem condGets_run (env : Env ω) {fuel : ℕ} {s : Registry ω} {name : CString} {p : NodeRef}
    (hfind : faultInjectFind fuel s name = .ok (some p)) (args : List UInt64) :
    Post (condGets env fuel name s args) fun r =>
      r.2 = ((s.record p).entry.run env.sleep s.world args).1.map (returnedFor p) ∧
        r.1.world = ((s.record p).entry.run env.sleep s.world args).2 := by
  induction args generalizing s with
  | nil => exact .ok ⟨rfl, rfl⟩
  | cons arg args ih =>
    cases henable : (s.record p).item.enable with
    | false =>
      have hoff : (s.record p).entry.settings.enable = false := henable
      obtain ⟨r, hr, hrs, hw⟩ := ih hfind
      rw [Entry.run_off env.sleep hoff]
      exact ⟨_, condGets_cons (condGet_off env hfind henable arg) hr, congrArg (none :: ·) hrs, hw⟩
    | true =>
      have hon : (s.record p).entry.settings.enable = true := henable
      have hget := condGet_on env hfind henable arg
      have hfire : fire env.sleep { s.record p with item := countHit (s.record p).item } arg s.world =
          (s.record p).entry.hit env.sleep arg s.world := fire_eq env.sleep (s.record p) arg s.world
      rw [hfire] at hget
      have hentry : ((s.modifyItem p countHit).record p).entry =
          { (s.record p).entry with hitTimes := (s.record p).entry.hitTimes + 1 } := by
        rw [record_modifyItem]
        rfl
      have hfound : faultInjectFind fuel (s.modifyItem p countHit) name = .ok (some p) :=
        find_modifyItem hfind fun _ => rfl
      rw [Entry.run_on env.sleep hon]
      generalize s.modifyItem p countHit = s₁ at hget hentry hfound
      generalize (s.record p).entry.hit env.sleep arg s.world = hit at hget ⊢
      obtain ⟨r, hr, hrs, hw⟩ := @ih { s₁ with world := hit.2 } hfound
      dsimp only at hrs hw
      rw [hentry] at hrs hw
      exact ⟨_, condGets_cons hget hr, congrArg (_ :: ·) hrs, hw⟩

/-! ### Calls of the callback -/

/-- The world with the calls of the callback in it: their arguments, in order. -/
abbrev Traced (σ : Type) := σ × List (UInt64 × UInt64)

/-- The callback, with its calls written down. -/
def traced (cb : PrivCb σ) : PrivCb (Traced σ) := fun arg priv w =>
  ((cb arg priv w.1).1, (cb arg priv w.1).2, w.2 ++ [(arg, priv)])

/-- A `sleep` that leaves them alone. -/
def tracedSleep (sleep : Int32 → σ → σ) : Int32 → Traced σ → Traced σ := fun t w =>
  (sleep t w.1, w.2)

/-- The fault as an entry, with what its callback is given. -/
def faultEntry (cb : Option (PrivCb ω)) (settings : Settings) (hitTimes : Int32) (priv : UInt64) :
    Entry ω := ⟨settings, hitTimes, cb.map fun f arg => f arg priv⟩

/-- The fault is open when the counter has this value. -/
def Settings.Open (settings : Settings) (times : Int32) : Prop :=
  ¬ (times ≤ settings.afterTimes ∨ times - settings.afterTimes > settings.enableTimes)

instance (settings : Settings) (times : Int32) : Decidable (settings.Open times) :=
  inferInstanceAs (Decidable (¬ _))

/-- The callback is not called in the next `n` hits. -/
def Quiet (cb : Option (PrivCb σ)) (settings : Settings) (hitTimes : Int32) (n : ℕ) : Prop :=
  cb = none ∨ settings.enable = false ∨
    ∀ k : ℕ, k < n → ¬ settings.Open (hitTimes + Int32.ofInt (k + 1))

theorem quiet_succ {cb : Option (PrivCb σ)} {settings : Settings} {hitTimes : Int32} {n : ℕ} :
    Quiet cb settings hitTimes (n + 1) ↔
      (cb = none ∨ settings.enable = false ∨ ¬ settings.Open (hitTimes + 1)) ∧
        Quiet cb settings (hitTimes + 1) n := by
  have hshift : ∀ k : ℕ, hitTimes + 1 + Int32.ofInt (k + 1) =
      hitTimes + Int32.ofInt ((k + 1 : ℕ) + 1) := by
    intro k
    have hone : (1 : Int32) = Int32.ofInt 1 := rfl
    rw [hone, Int32.add_assoc, ← Int32.ofInt_add]
    congr 2
    push_cast
    ring
  simp only [Quiet, hshift, Nat.forall_lt_succ_left]
  have hfirst : Int32.ofInt ((0 : ℕ) + 1) = 1 := rfl
  rw [hfirst]
  tauto

/-- The call of the callback in a hit, if there is one. -/
def callAt (cb : Option (PrivCb σ)) (settings : Settings) (hitTimes : Int32) (arg priv : UInt64) :
    List (UInt64 × UInt64) :=
  if cb.isSome ∧ settings.Open (hitTimes + 1) then [(arg, priv)] else []

/-- The calls of the callback. -/
def callsOf (cb : Option (PrivCb σ)) (settings : Settings) (priv : UInt64) :
    Int32 → List UInt64 → List (UInt64 × UInt64)
  | _, [] => []
  | hitTimes, arg :: args =>
    if settings.enable then
      callAt cb settings hitTimes arg priv ++ callsOf cb settings priv (hitTimes + 1) args
    else callsOf cb settings priv hitTimes args

theorem hit_closed {cb : Option (PrivCb ω)} {settings : Settings} {hitTimes : Int32}
    (h : ¬ settings.Open (hitTimes + 1)) (sleep : Int32 → ω → ω) (priv arg : UInt64) (w : ω) :
    (faultEntry cb settings hitTimes priv).hit sleep arg w = (false, w) :=
  if_pos (not_not.mp h)

/-- The end of a hit that the callback has decided. -/
def slept (sleep : Int32 → ω → ω) (settings : Settings) : Bool × ω → Bool × ω
  | (false, w) => (false, w)
  | (true, w) => (true, if settings.sleepTime > 0 then sleep settings.sleepTime w else w)

theorem hit_open {cb : Option (PrivCb ω)} {settings : Settings} {hitTimes : Int32}
    (h : settings.Open (hitTimes + 1)) (sleep : Int32 → ω → ω) (priv arg : UInt64) (w : ω) :
    (faultEntry cb settings hitTimes priv).hit sleep arg w =
      slept sleep settings (cb.elim (true, w) fun f => f arg priv w) := by
  refine (if_neg h).trans ?_
  cases cb with
  | none => rfl
  | some f =>
    simp only [faultEntry, Option.map_some, Option.elim_some]
    generalize f arg priv w = u
    obtain ⟨_ | _, u⟩ := u <;> rfl

/-- A hit writes down the call, and is else what it was. -/
theorem hit_traced (sleep : Int32 → σ → σ) (cb : Option (PrivCb σ)) (settings : Settings)
    (hitTimes : Int32) (priv arg : UInt64) (w : Traced σ) :
    (faultEntry (cb.map traced) settings hitTimes priv).hit (tracedSleep sleep) arg w =
      let r := (faultEntry cb settings hitTimes priv).hit sleep arg w.1
      (r.1, r.2, w.2 ++ callAt cb settings hitTimes arg priv) := by
  by_cases hopen : settings.Open (hitTimes + 1)
  · have hslept : ∀ (hit : Bool) (u : σ) (calls : List (UInt64 × UInt64)),
        slept (tracedSleep sleep) settings (hit, u, calls) =
          ((slept sleep settings (hit, u)).1, (slept sleep settings (hit, u)).2, calls) := by
      intro hit u calls
      cases hit with
      | false => rfl
      | true =>
        simp only [slept, tracedSleep]
        split <;> rfl
    rw [hit_open hopen, hit_open hopen]
    cases cb with
    | none =>
      rw [callAt, if_neg fun h => Bool.false_ne_true h.1, List.append_nil]
      exact hslept true w.1 w.2
    | some f =>
      rw [callAt, if_pos ⟨rfl, hopen⟩]
      exact hslept _ _ _
  · rw [hit_closed hopen, hit_closed hopen, callAt, if_neg fun h => hopen h.2, List.append_nil]

/-- **A run** writes down the calls, and is else what it was. -/
theorem run_traced (sleep : Int32 → σ → σ) (cb : Option (PrivCb σ)) (settings : Settings)
    (hitTimes : Int32) (priv : UInt64) (w : Traced σ) (args : List UInt64) :
    (faultEntry (cb.map traced) settings hitTimes priv).run (tracedSleep sleep) w args =
      let r := (faultEntry cb settings hitTimes priv).run sleep w.1 args
      (r.1, r.2, w.2 ++ callsOf cb settings priv hitTimes args) := by
  induction args generalizing hitTimes w with
  | nil => exact Prod.ext rfl (Prod.ext rfl (List.append_nil _).symm)
  | cons arg args ih =>
    cases henable : settings.enable with
    | false =>
      rw [Entry.run_off _ henable, Entry.run_off _ henable, ih, callsOf,
        if_neg (by rw [henable]; exact Bool.false_ne_true)]
    | true =>
      rw [Entry.run_on _ henable, Entry.run_on _ henable, hit_traced, callsOf, if_pos henable,
        ← List.append_assoc]
      have := ih (hitTimes + 1) ((((faultEntry cb settings hitTimes priv).hit sleep arg w.1).2,
        w.2 ++ callAt cb settings hitTimes arg priv))
      simp only [faultEntry] at this ⊢
      rw [this]

/-- What the callback is called with. -/
theorem snd_of_mem_callsOf {cb : Option (PrivCb σ)} {settings : Settings} {priv : UInt64}
    {hitTimes : Int32} {args : List UInt64} {c : UInt64 × UInt64}
    (h : c ∈ callsOf cb settings priv hitTimes args) : c.2 = priv := by
  induction args generalizing hitTimes with
  | nil => cases h
  | cons arg args ih =>
    rw [callsOf] at h
    split at h
    · rcases List.mem_append.mp h with h | h
      · rw [callAt] at h
        split at h
        · rw [List.mem_singleton.mp h]
        · cases h
      · exact ih h
    · exact ih h

/-- Whether it is called. -/
theorem callsOf_eq_nil {cb : Option (PrivCb σ)} {settings : Settings} {priv : UInt64}
    {hitTimes : Int32} {args : List UInt64} :
    callsOf cb settings priv hitTimes args = [] ↔ Quiet cb settings hitTimes args.length := by
  induction args generalizing hitTimes with
  | nil => exact iff_of_true rfl (Or.inr (Or.inr fun k hk => absurd hk (Nat.not_lt_zero k)))
  | cons arg args ih =>
    rw [List.length_cons, callsOf]
    cases henable : settings.enable with
    | false =>
      rw [if_neg Bool.false_ne_true, ih]
      exact iff_of_true (Or.inr (Or.inl henable)) (Or.inr (Or.inl henable))
    | true =>
      rw [if_pos rfl, List.append_eq_nil_iff, ih, quiet_succ]
      refine and_congr_left fun _ => ?_
      rw [callAt, henable]
      cases cb with
      | none => simp
      | some f => simp

/-- Where the callback is not called, its second argument does not matter. -/
theorem run_quiet (sleep : Int32 → σ → σ) {cb : Option (PrivCb σ)} {settings : Settings}
    {hitTimes : Int32} {args : List UInt64} (h : Quiet cb settings hitTimes args.length)
    (priv priv' : UInt64) (w : σ) :
    (faultEntry cb settings hitTimes priv).run sleep w args =
      (faultEntry cb settings hitTimes priv').run sleep w args := by
  induction args generalizing hitTimes w with
  | nil => rfl
  | cons arg args ih =>
    rw [List.length_cons, quiet_succ] at h
    obtain ⟨hnow, hrest⟩ := h
    cases henable : settings.enable with
    | false =>
      have hoff : Quiet cb settings hitTimes args.length := Or.inr (Or.inl henable)
      rw [Entry.run_off _ henable, Entry.run_off _ henable, ih hoff]
    | true =>
      have hsame : (faultEntry cb settings hitTimes priv).hit sleep arg w =
          (faultEntry cb settings hitTimes priv').hit sleep arg w := by
        rcases hnow with rfl | hoff | hclosed
        · rfl
        · rw [henable] at hoff
          cases hoff
        · rw [hit_closed hclosed, hit_closed hclosed]
      rw [Entry.run_on _ henable, Entry.run_on _ henable, hsame]
      exact congrArg (fun r : List Bool × σ => (_ :: r.1, r.2)) (ih hrest _)

/-! ### What `fault_inject_init` determines -/

/-- The settings of the argument of `fault_inject_init` determine the calls of `fault_inject_cond_get`
after it: the results are those of a fault with these settings, whose callback is given `new.priv`, and
the callback is called with nothing else. -/
def Determined (env : Env (Traced σ)) (sleep : Int32 → σ → σ) (fuel : ℕ) (s : Registry (Traced σ))
    (name : CString) (p : NodeRef) (cb : Option (PrivCb σ)) (new : FaultInject)
    (args : List UInt64) : Prop :=
  ∃ s₁ s₂ rs calls, faultInjectInit fuel s name new = .ok s₁ ∧
    condGets env fuel name s₁ args = .ok (s₂, rs) ∧
    rs = ((faultEntry cb new.settings new.hitTimes new.priv).run sleep s.world.1 args).1.map
      (returnedFor p) ∧
    s₂.world.2 = s.world.2 ++ calls ∧ ∀ c ∈ calls, c.2 = new.priv

/-- What a program does whose callbacks are traced. -/
def tracedEnv (heap : Allocator (Traced σ)) (sleep : Int32 → σ → σ) : Env (Traced σ) :=
  ⟨heap, tracedSleep sleep⟩

/-- **The calls after `fault_inject_init`** are those of a fault with the new settings, whose callback is
given what was in `priv`. -/
theorem condGets_init (heap : Allocator (Traced σ)) (sleep : Int32 → σ → σ) {fuel : ℕ}
    {s : Registry (Traced σ)} {name : CString} {p : NodeRef}
    (hfind : faultInjectFind fuel s name = .ok (some p)) {cb : Option (PrivCb σ)}
    (hcb : (s.record p).callback = cb.map traced) (new : FaultInject) (args : List UInt64) :
    ∃ s₁ s₂, faultInjectInit fuel s name new = .ok s₁ ∧
      condGets (tracedEnv heap sleep) fuel name s₁ args =
        .ok (s₂, ((faultEntry cb new.settings new.hitTimes (s.record p).item.priv).run sleep
          s.world.1 args).1.map (returnedFor p)) ∧
      s₂.world.2 = s.world.2 ++
        callsOf cb new.settings (s.record p).item.priv new.hitTimes args := by
  let set : FaultInject → FaultInject := fun f =>
    { f with sleepTime := new.sleepTime, enableTimes := new.enableTimes,
             afterTimes := new.afterTimes, enable := new.enable, injectErr := new.injectErr,
             hitTimes := new.hitTimes }
  have hinit : faultInjectInit fuel s name new = .ok (s.modifyItem p set) :=
    withFault_found hfind set
  have hfound : faultInjectFind fuel (s.modifyItem p set) name = .ok (some p) :=
    find_modifyItem hfind fun _ => rfl
  have hentry : ((s.modifyItem p set).record p).entry =
      faultEntry (cb.map traced) new.settings new.hitTimes (s.record p).item.priv := by
    rw [record_modifyItem, FaultInjectInternal.entry, hcb]
    rfl
  obtain ⟨⟨s₂, rs⟩, hrun, hrs, hw⟩ := condGets_run (tracedEnv heap sleep) hfound args
  rw [hentry] at hrs hw
  have htraced := run_traced sleep cb new.settings new.hitTimes (s.record p).item.priv s.world args
  have hworld : (s.modifyItem p set).world = s.world := rfl
  rw [hworld] at hrs hw
  change rs = (Entry.run (tracedSleep sleep) _ s.world args).1.map _ at hrs
  change s₂.world = (Entry.run (tracedSleep sleep) _ s.world args).2 at hw
  rw [htraced] at hrs hw
  refine ⟨_, s₂, hinit, hrs ▸ hrun, ?_⟩
  rw [hw]

/-- A callback that is called is given what was in `priv`. -/
theorem Determined.priv_eq {heap : Allocator (Traced σ)} {sleep : Int32 → σ → σ} {fuel : ℕ}
    {s : Registry (Traced σ)} {name : CString} {p : NodeRef} {cb : Option (PrivCb σ)}
    {new : FaultInject} {args : List UInt64}
    (h : Determined (tracedEnv heap sleep) sleep fuel s name p cb new args)
    (hfind : faultInjectFind fuel s name = .ok (some p))
    (hcb : (s.record p).callback = cb.map traced)
    (hcalled : ¬ Quiet cb new.settings new.hitTimes args.length) :
    (s.record p).item.priv = new.priv := by
  obtain ⟨s₁, s₂, rs, calls, hinit, hrun, -, hw, hcalls⟩ := h
  obtain ⟨t₁, t₂, hinit', hrun', hw'⟩ := condGets_init heap sleep hfind hcb new args
  obtain rfl := Except.ok.inj (hinit.symm.trans hinit')
  obtain ⟨rfl, -⟩ := Prod.mk.inj (Except.ok.inj (hrun.symm.trans hrun'))
  have hsame : calls = callsOf cb new.settings (s.record p).item.priv new.hitTimes args :=
    List.append_cancel_left (hw.symm.trans hw')
  rw [← @callsOf_eq_nil _ cb new.settings (s.record p).item.priv, ← hsame] at hcalled
  obtain ⟨c, hc⟩ := List.exists_mem_of_ne_nil calls hcalled
  rw [← hcalls c hc]
  exact (snd_of_mem_callsOf (hsame ▸ hc)).symm

/-- **`fault_inject_init` determines the calls after it** exactly when `priv` was already that of its
argument, or the callback is not called. -/
theorem determined_iff (heap : Allocator (Traced σ)) (sleep : Int32 → σ → σ) {fuel : ℕ}
    {s : Registry (Traced σ)} {name : CString} {p : NodeRef}
    (hfind : faultInjectFind fuel s name = .ok (some p)) {cb : Option (PrivCb σ)}
    (hcb : (s.record p).callback = cb.map traced) (new : FaultInject) (args : List UInt64) :
    Determined (tracedEnv heap sleep) sleep fuel s name p cb new args ↔
      (s.record p).item.priv = new.priv ∨ Quiet cb new.settings new.hitTimes args.length := by
  constructor
  · intro h
    by_cases hquiet : Quiet cb new.settings new.hitTimes args.length
    · exact Or.inr hquiet
    · exact Or.inl (h.priv_eq hfind hcb hquiet)
  · intro h
    obtain ⟨s₁, s₂, hinit, hrun, hw⟩ := condGets_init heap sleep hfind hcb new args
    refine ⟨s₁, s₂, _, _, hinit, hrun, ?_, hw, ?_⟩
    · rcases h with hpriv | hquiet
      · rw [hpriv]
      · rw [run_quiet sleep hquiet (s.record p).item.priv new.priv]
    · intro c hc
      rcases h with hpriv | hquiet
      · rw [snd_of_mem_callsOf hc, hpriv]
      · rw [callsOf_eq_nil.mpr hquiet] at hc
        cases hc

/-- A fault for one hit, with 9 in `priv`. -/
def oneHit : FaultInject := { junkFault with enable := true, enableTimes := 1, priv := 9 }

/-- A callback that agrees when it is given 9. -/
def agreesOnNine : PrivCb Unit := fun _ priv w => (priv == 9, w)

/-- Where there is 7 in `priv`. -/
theorem determined_iff_oneHit :
    ∃ s p, faultInjectRegisterPriv junkEnv 2 (emptyRegistry ((), [])) nameA
        (some (traced agreesOnNine)) = .ok s ∧
      (Determined (tracedEnv junkEnv.heap fun _ w => w) (fun _ w => w) 2 s nameA p
          (some agreesOnNine) oneHit [0] ↔
        (s.record p).item.priv = 9 ∨
          Quiet (some agreesOnNine) oneHit.settings oneHit.hitTimes 1) := by
  obtain ⟨s, hs, p, hfind, hcb, -⟩ := registerPriv_nameA ((), []) (some (traced agreesOnNine))
  exact ⟨s, p, hs,
    @determined_iff Unit junkEnv.heap (fun _ w => w) 2 s nameA p hfind (some agreesOnNine) hcb oneHit [0]⟩

/-- The callback is called with 7. -/
theorem not_determined_oneHit :
    ∃ s p, faultInjectRegisterPriv junkEnv 2 (emptyRegistry ((), [])) nameA
        (some (traced agreesOnNine)) = .ok s ∧
      faultInjectFind 2 s nameA = .ok (some p) ∧
      ¬ Determined (tracedEnv junkEnv.heap fun _ w => w) (fun _ w => w) 2 s nameA p
        (some agreesOnNine) oneHit [0] := by
  obtain ⟨s, hs, p, hfind, hcb, hpriv⟩ := registerPriv_nameA ((), []) (some (traced agreesOnNine))
  refine ⟨s, p, hs, hfind, fun h => ?_⟩
  have hopen : oneHit.settings.Open (oneHit.hitTimes + Int32.ofInt ((0 : ℕ) + 1)) := by decide
  have hcalled : ¬ Quiet (some agreesOnNine) oneHit.settings oneHit.hitTimes 1 := by
    rintro (h | h | h)
    · cases h
    · cases h
    · exact h 0 Nat.one_pos hopen
  have hnine := h.priv_eq hfind hcb hcalled
  rw [hpriv] at hnine
  revert hnine
  decide

end CcUtils.Fault
