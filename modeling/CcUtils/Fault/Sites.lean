import CcUtils.Fault.Registry

/-!
# Code with faults in it

A function guarded by `FAULT_INJECT_BEGIN` and `FAULT_INJECT_END` is called unless the fault is returned, and then
the statement of the macro is run instead. Code with such sites does what it says with the faults fixed as they
were at its start, and each site told how often its fault was hit before: nothing else of the registry matters.

## What is proved

* `site_refines` — a site does what the fault as an entry of the map says.
* `sites_refine` — so does code with any sites, from any registry the program comes to.
* `sites_off` — with all its faults off, it is the code without the sites.
-/

namespace CcUtils.Fault

open CcUtils.Lib CcUtils.Rbtree

variable {ω : Type}

/-! ### Sites -/

/-- What is run instead of the function, with the fault `__fault_inject_item`. -/
inductive Statement where
  /-- `FAULT_STATEMENT_MOD_ERR(ret)`. -/
  | modErr
  /-- `FAULT_STATEMENT_RET_ERR(ret)`. -/
  | retErr
  /-- `FAULT_STATEMENT_ASSERT`. -/
  | assert

/-- Code that calls functions, and goes on with what they return; a function at a site is guarded by
`FAULT_INJECT_BEGIN(name, statement, arg)` and `FAULT_INJECT_END(name)`. -/
inductive Code (ω : Type) where
  | ret (v : Int32)
  | call (f : ω → Int32 × ω) (next : Int32 → Code ω)
  | site (name : Name) (statement : Statement) (arg : UInt64) (f : ω → Int32 × ω) (next : Int32 → Code ω)

/-- The code without the sites. -/
def Code.plain (w : ω) : Code ω → Int32 × ω
  | .ret v => (v, w)
  | .call f next => (next (f w).1).plain (f w).2
  | .site _ _ _ f next => (next (f w).1).plain (f w).2

/-- The statement, where the fault has this `inject_err`; `next` is the code behind the site. -/
def Statement.run {α : Type} (injectErr : Int32) (next done : Int32 → Exec α) : Statement → Exec α
  | .modErr => next injectErr
  | .retErr => done injectErr
  | .assert => .error .assertFail

/-- The code, with the faults in the registry. -/
def Code.exec (env : Env ω) (fuel : ℕ) (s : Registry ω) : Code ω → Exec (Registry ω × Int32)
  | .ret v => .ok (s, v)
  | .call f next => (next (f s.world).1).exec env fuel { s with world := (f s.world).2 }
  | .site name statement arg f next => do
    let (s, fault) ← faultInjectCondGet env fuel s name.val arg
    match fault with
    | none => (next (f s.world).1).exec env fuel { s with world := (f s.world).2 }
    | some a =>
      statement.run (s.record a).item.injectErr (fun v => (next v).exec env fuel s) fun v => .ok (s, v)

/-! ### Faults and counts -/

/-- How often a fault was hit. -/
abbrev Hits := Name → ℕ

/-- The fault after some hits. -/
def Entry.after (e : Entry ω) (k : ℕ) : Entry ω :=
  if e.settings.enable then { e with hitTimes := e.hitTimes + Int32.ofNat k } else e

/-- All faults after their hits. -/
def FaultMap.after (mp : FaultMap ω) (hits : Hits) : FaultMap ω := fun n => (mp n).map (Entry.after · (hits n))

/-- The code, with the faults as they were at its start. -/
def Code.inject (sleep : Int32 → ω → ω) (mp : FaultMap ω) (hits : Hits) (w : ω) :
    Code ω → Exec (Hits × ω × Int32)
  | .ret v => .ok (hits, w, v)
  | .call f next => (next (f w).1).inject sleep mp hits (f w).2
  | .site name statement arg f next =>
    match (mp name).filter fun e => e.settings.enable with
    | none => (next (f w).1).inject sleep mp hits (f w).2
    | some e =>
      let hit := (e.after (hits name)).hit sleep arg w
      let hits := Function.update hits name (hits name + 1)
      if hit.1 then
        statement.run e.settings.injectErr (fun v => (next v).inject sleep mp hits hit.2) fun v =>
          .ok (hits, hit.2, v)
      else (next (f hit.2).1).inject sleep mp hits (f hit.2).2

/-- None of the faults at the sites is on. -/
def Code.Off (mp : FaultMap ω) : Code ω → Prop
  | .ret _ => True
  | .call _ next => ∀ v, (next v).Off mp
  | .site name _ _ _ next => (∀ e, mp name = some e → e.settings.enable = false) ∧ ∀ v, (next v).Off mp

/-! ### A site -/

variable {mp : FaultMap ω} {s : Registry ω} {fuel : ℕ} {hits : Hits}

theorem Entry.after_on {e : Entry ω} (h : e.settings.enable = true) (k : ℕ) :
    e.after k = { e with hitTimes := e.hitTimes + Int32.ofNat k } := if_pos h

theorem Entry.settings_after (e : Entry ω) (k : ℕ) : (e.after k).settings = e.settings := by
  rw [Entry.after]
  split <;> rfl

theorem Entry.after_zero (e : Entry ω) : e.after 0 = e := by
  rw [Entry.after]
  split
  · simp
  · rfl

theorem FaultMap.after_zero (mp : FaultMap ω) : mp.after (fun _ => 0) = mp := by
  funext n
  rw [FaultMap.after]
  cases mp n with
  | none => rfl
  | some e => rw [Option.map_some, Entry.after_zero]

/-- One more hit. -/
theorem FaultMap.after_hit {n : Name} {e : Entry ω} (hn : mp n = some e) (hon : e.settings.enable = true) :
    mp.after (Function.update hits n (hits n + 1)) =
      Function.update (mp.after hits) n
        (some ⟨e.settings, (e.after (hits n)).hitTimes + 1, (e.after (hits n)).callback⟩) := by
  funext m
  by_cases hm : m = n
  · subst hm
    have hsum : Int32.ofNat (hits m + 1) = Int32.ofNat (hits m) + 1 := Int32.ofNat_add ..
    rw [FaultMap.after, Function.update_self, Function.update_self, hn, Option.map_some, Entry.after_on hon,
      Entry.after_on hon, hsum]
    dsimp only
    rw [Int32.add_assoc]
  · rw [FaultMap.after, Function.update_of_ne hm, Function.update_of_ne hm]
    rfl

/-- **A site** gets what the fault says, after its hits. -/
theorem site_refines (env : Env ω) (h : Refines s (mp.after hits)) (n : Name) (arg : UInt64)
    (hfuel : s.live.card < fuel) :
    Post (faultInjectCondGet env fuel s n.val arg) fun r =>
      r.1.live = s.live ∧
      match (mp n).filter fun e => e.settings.enable with
      | none => r.2 = none ∧ r.1.world = s.world ∧ Refines r.1 (mp.after hits)
      | some e => Refines r.1 (mp.after (Function.update hits n (hits n + 1))) ∧
          r.1.world = ((e.after (hits n)).hit env.sleep arg s.world).2 ∧
          if ((e.after (hits n)).hit env.sleep arg s.world).1 then
            ∃ a, r.2 = some a ∧ (r.1.record a).item.injectErr = e.settings.injectErr
          else r.2 = none := by
  refine (faultInjectCondGet_refines env h n arg hfuel 0).mono ?_
  rintro ⟨s', r⟩ ⟨hs', hw, hr, hlive⟩
  refine ⟨hlive, ?_⟩
  have hn : mp.after hits n = (mp n).map (Entry.after · (hits n)) := rfl
  cases he : mp n with
  | none =>
    rw [he, Option.map_none] at hn
    simp only [Op.spec, hn] at hs' hw hr
    refine ⟨?_, hw, hs'⟩
    simpa using hr
  | some e =>
    rw [he, Option.map_some] at hn
    cases hon : e.settings.enable with
    | false =>
      simp only [Op.spec, hn, Entry.settings_after, hon, Bool.false_eq_true, if_false] at hs' hw hr
      rw [Option.filter_some, if_neg (by simp [hon])]
      refine ⟨?_, hw, hs'⟩
      simpa using hr
    | true =>
      simp only [Op.spec, hn, Entry.settings_after, hon, if_true] at hs' hw hr
      rw [Option.filter_some, if_pos hon]
      refine ⟨?_, hw, ?_⟩
      · rw [FaultMap.after_hit he hon]
        exact hs'
      · split at hr
        · rename_i hhit
          rw [if_pos hhit]
          cases r with
          | none => simp at hr
          | some a =>
            have hview : s'.view a = _ := Option.some.inj (Result.fault.inj hr)
            exact ⟨a, rfl, congrArg (fun v => v.settings.injectErr) hview⟩
        · rename_i hhit
          rw [if_neg hhit]
          simpa using hr

/-! ### Code -/

/-- The code does what it says with the faults as they were at its start. -/
def Injected (env : Env ω) (fuel : ℕ) (mp : FaultMap ω) (hits : Hits) (s : Registry ω) (code : Code ω) : Prop :=
  match code.inject env.sleep mp hits s.world with
  | .ok (hits, w, v) => Post (code.exec env fuel s) fun r => Refines r.1 (mp.after hits) ∧ r.1.world = w ∧ r.2 = v
  | .error e => code.exec env fuel s = .error e

theorem Refines.world {w : ω} (h : Refines s mp) : Refines { s with world := w } mp :=
  ⟨h.tree, h.named, h.unique, h.entry⟩

/-- **Code with sites**, with the induction over the code. -/
theorem sites_refine (env : Env ω) (h : Refines s (mp.after hits)) (hfuel : s.live.card < fuel) (code : Code ω) :
    Injected env fuel mp hits s code := by
  induction code generalizing s hits with
  | ret v => exact .ok ⟨h, rfl, rfl⟩
  | call f next ih => exact ih (f s.world).1 h.world hfuel
  | site n statement arg f next ih =>
    obtain ⟨⟨s', r⟩, hget, hlive, hsite⟩ := site_refines env h n arg hfuel
    dsimp only at hlive hsite
    rw [← hlive] at hfuel
    rw [Injected, Code.inject, Code.exec, hget, ok_bind]
    cases hon : (mp n).filter fun e => e.settings.enable with
    | none =>
      rw [hon] at hsite
      obtain ⟨rfl, hw, hs'⟩ := hsite
      dsimp only
      rw [← hw]
      exact ih _ hs'.world hfuel
    | some e =>
      rw [hon] at hsite
      obtain ⟨hs', hw, hr⟩ := hsite
      dsimp only
      rw [← hw]
      split at hr
      · rename_i hhit
        obtain ⟨a, rfl, herr⟩ := hr
        rw [if_pos hhit]
        dsimp only
        rw [herr]
        cases statement with
        | modErr => exact ih _ hs' hfuel
        | retErr => exact .ok ⟨hs', rfl, rfl⟩
        | assert => rfl
      · rename_i hhit
        subst hr
        rw [if_neg hhit]
        exact ih _ hs'.world hfuel

/-- A site whose fault is not on finds nothing, and leaves everything as it is. -/
theorem condGet_quiet (env : Env ω) (h : Refines s mp) {n : Name} (arg : UInt64) (hfuel : s.live.card < fuel)
    (hoff : ∀ e, mp n = some e → e.settings.enable = false) :
    faultInjectCondGet env fuel s n.val arg = .ok (s, none) := by
  obtain ⟨r, hfind, ⟨rfl, -⟩ | ⟨a, ha, rfl, hn⟩⟩ := find_refines h n hfuel
  · rw [faultInjectCondGet, hfind]
    rfl
  · exact condGet_off env hfind (hoff _ (h.mp_eq ha hn)) arg

/-- **Code with its faults off.** -/
theorem exec_plain (env : Env ω) (h : Refines s mp) (hfuel : s.live.card < fuel) {code : Code ω}
    (hoff : code.Off mp) :
    code.exec env fuel s = .ok ({ s with world := (code.plain s.world).2 }, (code.plain s.world).1) := by
  induction code generalizing s with
  | ret v => rfl
  | call f next ih => exact ih _ h.world hfuel (hoff _)
  | site n statement arg f next ih =>
    rw [Code.exec, condGet_quiet env h arg hfuel hoff.1, ok_bind]
    exact ih _ h.world hfuel (hoff.2 _)

/-! ### Programs -/

/-- The program comes to a registry for the faults it has set. -/
theorem run_reaches (env : Env ω) (node : NodeRef → RbNode) (record : NodeRef → FaultInjectInternal ω) (w : ω)
    (ops : List (Op ω)) : ∃ (privs : List UInt64) (s : Registry ω) (rs : List Result),
      privs.length = ops.length ∧ run env (ops.length + 1) (Registry.empty node record w) ops = .ok (s, rs) ∧
      Refines s (runSpec env.sleep privs (fun _ => none) w ops).1 := by
  have hcard : (Registry.empty node record w).live.card = 0 := Finset.card_empty
  obtain ⟨privs, hlen, ⟨s, rs⟩, hrun, hs, -⟩ :=
    run_of_refines env (refines_empty node record w) ops (by omega : _ < ops.length + 1)
  exact ⟨privs, s, rs, hlen, hrun, hs⟩

/-- After any calls of the registry, code with sites does what it says with the faults these calls have set, each
site told only how often its fault was hit before; and the faults are afterwards as they were, but for the hits. -/
theorem sites_inject (env : Env ω) (node : NodeRef → RbNode) (record : NodeRef → FaultInjectInternal ω) (w : ω)
    (ops : List (Op ω)) (code : Code ω) :
    ∃ (privs : List UInt64) (s : Registry ω) (rs : List Result),
      privs.length = ops.length ∧ run env (ops.length + 1) (Registry.empty node record w) ops = .ok (s, rs) ∧
      ∀ fuel, s.live.card < fuel →
        Injected env fuel (runSpec env.sleep privs (fun _ => none) w ops).1 (fun _ => 0) s code := by
  obtain ⟨privs, s, rs, hlen, hrun, hs⟩ := run_reaches env node record w ops
  refine ⟨privs, s, rs, hlen, hrun, fun fuel hfuel => ?_⟩
  apply sites_refine env _ hfuel code
  rw [FaultMap.after_zero]
  exact hs

/-- After any calls of the registry, code none of whose faults is on does what it does without the sites, and
leaves the registry as it is. -/
theorem sites_off (env : Env ω) (node : NodeRef → RbNode) (record : NodeRef → FaultInjectInternal ω) (w : ω)
    (ops : List (Op ω)) :
    ∃ (privs : List UInt64) (s : Registry ω) (rs : List Result),
      privs.length = ops.length ∧ run env (ops.length + 1) (Registry.empty node record w) ops = .ok (s, rs) ∧
      ∀ (code : Code ω) (fuel : ℕ), s.live.card < fuel →
        code.Off (runSpec env.sleep privs (fun _ => none) w ops).1 →
          code.exec env fuel s = .ok ({ s with world := (code.plain s.world).2 }, (code.plain s.world).1) := by
  obtain ⟨privs, s, rs, hlen, hrun, hs⟩ := run_reaches env node record w ops
  exact ⟨privs, s, rs, hlen, hrun, fun code fuel hfuel hoff => exec_plain env hs hfuel hoff⟩

end CcUtils.Fault
