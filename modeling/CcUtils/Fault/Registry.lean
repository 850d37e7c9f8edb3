import CcUtils.Fault.Sound

/-!
# The registry is a finite map

What the registry is for: a map from names to faults. Each operation of `fault_inject.c`, on the
tree of records, gives what the same operation gives on the map, and afterwards the tree again holds
one node for each registered name. The one field the code never writes, `priv`, is the argument a
callback gets besides the caller's; on the map's side it is a number fixed when the fault is
registered.

## What is proved

* `find_refines` — `fault_inject_find` looks the name up.
* `exec_refines` — every operation does what the map's does.
* `run_refines` — so does every run from the empty root.
-/

namespace CcUtils.Fault

open CcUtils.Lib CcUtils.Lib.RedBlack CcUtils.Rbtree

variable {ω : Type}

/-! ### The map -/

/-- A name that the registry stores whole. -/
abbrev Name := { s : CString // s.len ≤ nameSize - 2 }

/-- What callers set of a fault. -/
structure Settings where
  enable : Bool
  sleepTime : Int32
  afterTimes : Int32
  enableTimes : Int32
  injectErr : Int32
  deriving DecidableEq

/-- The settings of a fault just registered. -/
def Settings.default : Settings := ⟨false, 0, 0, Int32.maxValue, 0⟩

/-- A fault of the map; the callback has its second argument already. -/
structure Entry (ω : Type) where
  settings : Settings
  hitTimes : Int32
  callback : Option (UInt64 → ω → Bool × ω)

/-- The faults by their names. -/
abbrev FaultMap (ω : Type) := Name → Option (Entry ω)

/-- What callers see of a fault through the pointer they are given. -/
structure View where
  name : List UInt8
  settings : Settings
  hitTimes : Int32
  deriving DecidableEq

/-- What an operation returns; the status of `fault_inject_register_priv` is not set. -/
inductive Result where
  | void
  | status (v : Int32)
  | fault (f : Option View)
  deriving DecidableEq

/-- An operation of the registry. -/
inductive Op (ω : Type) where
  | register (name : Name)
  | registerPriv (name : Name) (cb : Option (PrivCb ω))
  | unregister (name : Name)
  | enable (name : Name)
  | disable (name : Name)
  | reinit (name : Name)
  | init (name : Name) (new : FaultInject)
  | find (name : Name)
  | condGet (name : Name) (privArg : UInt64)

/-- Change the entry of a name, when there is one. -/
def FaultMap.adjust (mp : FaultMap ω) (n : Name) (f : Entry ω → Entry ω) : FaultMap ω :=
  Function.update mp n ((mp n).map f)

/-- Enter a fault with default settings, when there is none of this name. -/
def FaultMap.enter (mp : FaultMap ω) (n : Name) (cb : Option (UInt64 → ω → Bool × ω)) :
    FaultMap ω :=
  Function.update mp n (some ((mp n).getD ⟨.default, 0, cb⟩))

/-- What a caller is told about a fault. -/
def Entry.view (n : Name) (e : Entry ω) : View := ⟨n.val.val, e.settings, e.hitTimes⟩

/-- A hit on an enabled fault counts; it gets through between the two bounds, if the callback
agrees. -/
def Entry.hit (sleep : Int32 → ω → ω) (e : Entry ω) (arg : UInt64) (w : ω) : Bool × ω :=
  let times := e.hitTimes + 1
  if times ≤ e.settings.afterTimes ∨ times - e.settings.afterTimes > e.settings.enableTimes then
    (false, w)
  else
    match e.callback.elim (true, w) fun cb => cb arg w with
    | (false, w) => (false, w)
    | (true, w) => (true, if e.settings.sleepTime > 0 then sleep e.settings.sleepTime w else w)

/-- The operation on the map: the new map and world, and what it returns. A new callback gets
`priv` as its second argument. -/
def Op.spec (sleep : Int32 → ω → ω) (priv : UInt64) (mp : FaultMap ω) (w : ω) :
    Op ω → FaultMap ω × ω × Result
  | .register n => (mp.enter n none, w, .status 0)
  | .registerPriv n cb => (mp.enter n (cb.map fun f arg => f arg priv), w, .void)
  | .unregister n => (Function.update mp n none, w, .status 0)
  | .enable n => (mp.adjust n fun e => { e with settings.enable := true }, w, .void)
  | .disable n => (mp.adjust n fun e => { e with settings.enable := false }, w, .void)
  | .reinit n => (mp.adjust n fun e => { e with settings := .default, hitTimes := 0 }, w, .void)
  | .init n new =>
    (mp.adjust n fun e =>
      { e with
        settings := ⟨new.enable, new.sleepTime, new.afterTimes, new.enableTimes, new.injectErr⟩
        hitTimes := new.hitTimes }, w, .void)
  | .find n => (mp, w, .fault ((mp n).map (Entry.view n)))
  | .condGet n arg =>
    match mp n with
    | none => (mp, w, .fault none)
    | some e =>
      if e.settings.enable then
        let e' := { e with hitTimes := e.hitTimes + 1 }
        let r := e.hit sleep arg w
        (Function.update mp n (some e'), r.2, .fault (if r.1 then some (e'.view n) else none))
      else (mp, w, .fault none)

/-! ### The program's side of an operation -/

/-- The settings of an item. -/
def FaultInject.settings (f : FaultInject) : Settings :=
  ⟨f.enable, f.sleepTime, f.afterTimes, f.enableTimes, f.injectErr⟩

/-- What the caller sees at the address it is given. -/
def Registry.view (s : Registry ω) (a : NodeRef) : View :=
  ⟨(s.record a).item.name.takeWhile (· ≠ 0), (s.record a).item.settings,
    (s.record a).item.hitTimes⟩

/-- Call the operation. -/
def Op.exec (env : Env ω) (fuel : ℕ) (s : Registry ω) : Op ω → Exec (Registry ω × Result)
  | .register n => do
    let s ← faultInjectRegister env fuel s n.val
    return (s, .status 0)
  | .registerPriv n cb => do
    let s ← faultInjectRegisterPriv env fuel s n.val cb
    return (s, .void)
  | .unregister n => do
    let s ← faultInjectUnregister fuel s n.val
    return (s, .status 0)
  | .enable n => do
    let s ← faultInjectEnable fuel s n.val
    return (s, .void)
  | .disable n => do
    let s ← faultInjectDisable fuel s n.val
    return (s, .void)
  | .reinit n => do
    let s ← faultInjectReinit fuel s n.val
    return (s, .void)
  | .init n new => do
    let s ← faultInjectInit fuel s n.val new
    return (s, .void)
  | .find n => do
    let r ← faultInjectFind fuel s n.val
    return (s, .fault (r.map s.view))
  | .condGet n arg => do
    let (s, r) ← faultInjectCondGet env fuel s n.val arg
    return (s, .fault (r.map s.view))

/-! ### The simulation relation -/

/-- The entry that a record stands for. -/
def FaultInjectInternal.entry (r : FaultInjectInternal ω) : Entry ω :=
  ⟨r.item.settings, r.item.hitTimes, r.callback.map fun f arg => f arg r.item.priv⟩

/-- The record is stored under the name. -/
def FaultInjectInternal.Named (r : FaultInjectInternal ω) (n : Name) : Prop :=
  cstr r.item.name = .ok n.val.val

/-- The tree is well formed, its nodes are the allocated records, no two of one name, and the map
has their entries and no others. -/
structure Refines (s : Registry ω) (mp : FaultMap ω) : Prop where
  tree : ∃ t, WellFormed (cmpNode s.record) s.faults s.live t
  named : ∀ a ∈ s.live, ∃ n, (s.record a).Named n
  unique : ∀ a ∈ s.live, ∀ b ∈ s.live, ∀ n, (s.record a).Named n → (s.record b).Named n → a = b
  entry : ∀ n e, mp n = some e ↔ ∃ a ∈ s.live, (s.record a).Named n ∧ (s.record a).entry = e

theorem FaultInjectInternal.Named.unique {r : FaultInjectInternal ω} {n n' : Name}
    (h : r.Named n) (h' : r.Named n') : n = n' := by
  have e : n.val.val = n'.val.val := by
    unfold FaultInjectInternal.Named at h h'
    rw [h] at h'
    exact Except.ok.inj h'
  exact Subtype.ext (Subtype.ext e)

/-- A record compares equal to its own name only. -/
theorem matches_named {r : FaultInjectInternal ω} {n m : Name} (h : r.Named m) :
    r.Matches n.val ↔ n = m := by
  have hlen : n.val.val.length < nameSize := by
    have := n.2
    simp only [CString.len, nameSize] at this ⊢
    omega
  rw [FaultInjectInternal.Matches, strncmp_of_cstr h, strncmp_eq_zero n.val.2 m.val.2 hlen]
  constructor
  · intro e
    exact Subtype.ext (Subtype.ext e)
  · rintro rfl
    rfl

/-- `fault_inject_find` looks the name up. -/
theorem find_refines {s : Registry ω} {mp : FaultMap ω} (h : Refines s mp) (n : Name) {fuel : ℕ}
    (hfuel : s.live.card < fuel) :
    Post (faultInjectFind fuel s n.val) fun r =>
      (r = none ∧ mp n = none) ∨ ∃ a ∈ s.live, r = some a ∧ (s.record a).Named n := by
  have hsound : Sound s := h.tree
  refine (hsound.find n.val hfuel).mono fun r hr => ?_
  rcases hr with ⟨rfl, hnone⟩ | ⟨a, ha, rfl, hmatch⟩
  · refine .inl ⟨rfl, ?_⟩
    by_contra hne
    obtain ⟨e, he⟩ := Option.ne_none_iff_exists'.mp hne
    obtain ⟨a, ha, hn, -⟩ := (h.entry n e).mp he
    exact hnone a ha ((matches_named hn).mpr rfl)
  · obtain ⟨m, hm⟩ := h.named a ha
    obtain rfl : n = m := (matches_named hm).mp hmatch
    exact .inr ⟨a, ha, rfl, hm⟩

/-! ### The operations -/

theorem Refines.mp_eq {s : Registry ω} {mp : FaultMap ω} (h : Refines s mp) {n : Name}
    {a : NodeRef} (ha : a ∈ s.live) (hn : (s.record a).Named n) :
    mp n = some (s.record a).entry := (h.entry n _).mpr ⟨a, ha, hn, rfl⟩

/-- What the caller sees of a fault is what the map says of it. -/
theorem view_eq {s : Registry ω} {n : Name} {a : NodeRef} (hn : (s.record a).Named n) :
    s.view a = (s.record a).entry.view n := by
  obtain ⟨h0, post, hp⟩ := prefix_of_cstr hn
  have e : (s.record a).item.name.takeWhile (· ≠ 0) = n.val.val := by
    rw [← hp, List.append_assoc, List.takeWhile_append_of_pos (by
      intro b hb
      simpa using fun e : b = 0 => h0 (e ▸ hb))]
    simp
  simp only [Registry.view, Entry.view, FaultInjectInternal.entry, e]

/-- Changing a record, but not its name, changes that entry. -/
theorem Refines.modify {s : Registry ω} {mp : FaultMap ω} (h : Refines s mp) {n : Name}
    {a : NodeRef} (ha : a ∈ s.live) (hn : (s.record a).Named n)
    {f : FaultInjectInternal ω → FaultInjectInternal ω} (hf : ∀ r, (f r).item.name = r.item.name) :
    Refines (s.modify a f) (Function.update mp n (some (f (s.record a)).entry)) := by
  have hname := name_modify s a hf
  have hnamed : ∀ b m, ((s.modify a f).record b).Named m ↔ (s.record b).Named m := by
    intro b m
    rw [FaultInjectInternal.Named, hname]
    rfl
  have hsound : Sound s := h.tree
  constructor
  · exact hsound.modify a hf
  · intro b hb
    obtain ⟨m, hm⟩ := h.named b hb
    exact ⟨m, (hnamed b m).mpr hm⟩
  · intro b hb c hc m hbm hcm
    exact h.unique b hb c hc m ((hnamed b m).mp hbm) ((hnamed c m).mp hcm)
  · intro m e
    by_cases hmn : m = n
    · subst hmn
      rw [Function.update_self]
      constructor
      · intro he
        refine ⟨a, ha, (hnamed a m).mpr hn, ?_⟩
        simpa [Registry.modify] using he
      · rintro ⟨b, hb, hbm, rfl⟩
        obtain rfl : b = a := h.unique b hb a ha m ((hnamed b m).mp hbm) hn
        simp [Registry.modify]
    · rw [Function.update_of_ne hmn, h.entry]
      apply exists_congr
      intro b
      apply and_congr_right
      intro hb
      rw [hnamed]
      apply and_congr_right
      intro hbm
      have hba : b ≠ a := by
        rintro rfl
        exact hmn (hbm.unique hn)
      simp [Registry.modify, hba]

/-- The setters change the entry of the name and nothing else. -/
theorem withFault_refines {s : Registry ω} {mp : FaultMap ω} (h : Refines s mp) (n : Name)
    {fuel : ℕ} (hfuel : s.live.card < fuel) {f : FaultInject → FaultInject}
    {g : Entry ω → Entry ω} (hname : ∀ i, (f i).name = i.name)
    (hfg : ∀ r : FaultInjectInternal ω, FaultInjectInternal.entry { r with item := f r.item } =
      g r.entry) :
    Post (withFault fuel s n.val f) fun s' =>
      Refines s' (mp.adjust n g) ∧ s'.world = s.world ∧ s'.live = s.live := by
  rw [withFault]
  refine (find_refines h n hfuel).bind fun r hr => ?_
  rcases hr with ⟨rfl, hnone⟩ | ⟨a, ha, rfl, hn⟩
  · refine Post.pure ⟨?_, rfl, rfl⟩
    rw [FaultMap.adjust, hnone, Option.map_none, ← hnone, Function.update_eq_self]
    exact h
  · refine Post.pure ⟨?_, rfl, rfl⟩
    rw [FaultMap.adjust, h.mp_eq ha hn, Option.map_some, ← hfg]
    exact h.modify ha hn fun r => hname r.item

/-- What `fault_inject_insert` makes of the record from `malloc`. -/
def newRecord (junk : FaultInjectInternal ω) (n : Name) : FaultInjectInternal ω :=
  ⟨faultInjectReset (junk.item.setName n.val), none⟩

theorem newRecord_named (junk : FaultInjectInternal ω) (n : Name) : (newRecord junk n).Named n := by
  refine cstr_strncpy _ (Nat.lt_of_le_of_lt n.2 ?_)
  decide

/-- A record put at a fresh address enters its name. -/
theorem Refines.enter {s s' : Registry ω} {mp : FaultMap ω} (h : Refines s mp) {n : Name}
    (hnone : mp n = none) {a : NodeRef} (ha : a ∉ s.live) {r : FaultInjectInternal ω}
    (hr : r.Named n) (hs' : Sound s') (hlive : s'.live = insert a s.live)
    (hrecord : s'.record = Function.update s.record a r) :
    Refines s' (Function.update mp n (some r.entry)) := by
  have hself : s'.record a = r := by
    rw [hrecord]
    exact Function.update_self ..
  have hne : ∀ b ∈ s.live, s'.record b = s.record b := by
    intro b hb
    rw [hrecord]
    apply Function.update_of_ne
    rintro rfl
    exact ha hb
  have hold : ∀ b ∈ s.live, ¬ (s.record b).Named n := by
    intro b hb hbn
    rw [h.mp_eq hb hbn] at hnone
    cases hnone
  have hmem : ∀ {b}, b ∈ s'.live ↔ b = a ∨ b ∈ s.live := by
    intro b
    rw [hlive, Finset.mem_insert]
  constructor
  · exact hs'
  · intro b hb
    rcases hmem.mp hb with rfl | hb
    · exact ⟨n, by rwa [hself]⟩
    · rw [hne b hb]
      exact h.named b hb
  · intro b hb c hc i hbi hci
    rcases hmem.mp hb with hb | hb <;> rcases hmem.mp hc with hc | hc
    · exact hb.trans hc.symm
    · rw [hb, hself] at hbi
      rw [hne c hc] at hci
      exact absurd (hbi.unique hr ▸ hci) (hold c hc)
    · rw [hc, hself] at hci
      rw [hne b hb] at hbi
      exact absurd (hci.unique hr ▸ hbi) (hold b hb)
    · rw [hne b hb] at hbi
      rw [hne c hc] at hci
      exact h.unique b hb c hc i hbi hci
  · intro i e
    by_cases hi : i = n
    · subst hi
      rw [Function.update_self]
      constructor
      · intro he
        refine ⟨a, hmem.mpr (.inl rfl), ?_⟩
        rw [hself]
        exact ⟨hr, Option.some.inj he⟩
      · rintro ⟨b, hb, hbn, rfl⟩
        rcases hmem.mp hb with rfl | hb
        · rw [hself]
        · rw [hne b hb] at hbn
          exact absurd hbn (hold b hb)
    · rw [Function.update_of_ne hi, h.entry]
      constructor
      · rintro ⟨b, hb, hbn, rfl⟩
        refine ⟨b, hmem.mpr (.inr hb), ?_⟩
        rw [hne b hb]
        exact ⟨hbn, rfl⟩
      · rintro ⟨b, hb, hbn, rfl⟩
        rcases hmem.mp hb with rfl | hb
        · rw [hself] at hbn
          exact absurd (hbn.unique hr) hi
        · rw [hne b hb] at hbn ⊢
          exact ⟨b, hb, hbn, rfl⟩

/-- `fault_inject_insert` enters a fault with default settings. -/
theorem faultInjectInsert_refines (env : Env ω) {s : Registry ω} {mp : FaultMap ω}
    (h : Refines s mp) {n : Name} (hnone : mp n = none) {fuel : ℕ} (hfuel : s.live.card < fuel) :
    Post (faultInjectInsert env fuel s n.val) fun r =>
      Refines r.1 (Function.update mp n (some ⟨.default, 0, none⟩)) ∧ r.1.world = s.world ∧
        r.1.live = insert r.2 s.live ∧
        r.1.record r.2 = newRecord (env.heap.malloc s.mallocs s.live).2 n := by
  have hsound : Sound s := h.tree
  refine (hsound.link env n.val hfuel).mono fun r hr => ?_
  obtain ⟨hs', hw, hfresh, hlive, hrecord⟩ := hr
  refine ⟨?_, hw, hlive, ?_⟩
  · exact h.enter hnone hfresh (newRecord_named _ n) hs' hlive hrecord
  · rw [hrecord]
    exact Function.update_self ..

/-- `fault_inject_register` enters the name when it is not there. -/
theorem faultInjectRegister_refines (env : Env ω) {s : Registry ω} {mp : FaultMap ω}
    (h : Refines s mp) (n : Name) {fuel : ℕ} (hfuel : s.live.card < fuel) :
    Post (faultInjectRegister env fuel s n.val) fun s' =>
      Refines s' (mp.enter n none) ∧ s'.world = s.world ∧ s'.live.card ≤ s.live.card + 1 := by
  rw [faultInjectRegister]
  refine (find_refines h n hfuel).bind fun r hr => ?_
  rcases hr with ⟨rfl, hnone⟩ | ⟨a, ha, rfl, hn⟩
  · refine (faultInjectInsert_refines env h hnone hfuel).bind fun r hr => ?_
    obtain ⟨hr, hw, hl, -⟩ := hr
    refine Post.pure ⟨?_, hw, ?_⟩
    · rw [FaultMap.enter, hnone]
      exact hr
    · rw [hl]
      exact Finset.card_insert_le ..
  · refine Post.pure ⟨?_, rfl, Nat.le_succ _⟩
    rw [FaultMap.enter, h.mp_eq ha hn, Option.getD_some, ← h.mp_eq ha hn, Function.update_eq_self]
    exact h

/-- `fault_inject_register_priv` also sets the callback of a new fault. -/
theorem faultInjectRegisterPriv_refines (env : Env ω) {s : Registry ω} {mp : FaultMap ω}
    (h : Refines s mp) (n : Name) (cb : Option (PrivCb ω)) {fuel : ℕ}
    (hfuel : s.live.card < fuel) :
    Post (faultInjectRegisterPriv env fuel s n.val cb) fun s' =>
      Refines s' (mp.enter n
        (cb.map fun f arg => f arg (env.heap.malloc s.mallocs s.live).2.item.priv)) ∧
        s'.world = s.world ∧ s'.live.card ≤ s.live.card + 1 := by
  rw [faultInjectRegisterPriv]
  refine (find_refines h n hfuel).bind fun r hr => ?_
  rcases hr with ⟨rfl, hnone⟩ | ⟨a, ha, rfl, hn⟩
  · refine (faultInjectInsert_refines env h hnone hfuel).bind fun r hr => ?_
    obtain ⟨s', a⟩ := r
    obtain ⟨hr, hw, hl, hrec⟩ := hr
    dsimp only at hr hw hl hrec
    have ha : a ∈ s'.live := hl ▸ Finset.mem_insert_self ..
    have hn : (s'.record a).Named n := by
      rw [hrec]
      exact newRecord_named _ n
    have hmod := hr.modify ha hn (f := fun r => { r with callback := cb }) fun _ => rfl
    rw [hrec, Function.update_idem] at hmod
    refine Post.pure ⟨?_, hw, ?_⟩
    · rw [FaultMap.enter, hnone]
      exact hmod
    · exact hl ▸ Finset.card_insert_le ..
  · refine Post.pure ⟨?_, rfl, Nat.le_succ _⟩
    rw [FaultMap.enter, h.mp_eq ha hn, Option.getD_some, ← h.mp_eq ha hn, Function.update_eq_self]
    exact h

/-- The record of a name taken out removes the name. -/
theorem Refines.leave {s s' : Registry ω} {mp : FaultMap ω} (h : Refines s mp) {n : Name}
    {a : NodeRef} (ha : a ∈ s.live) (hn : (s.record a).Named n) (hs' : Sound s')
    (hlive : s'.live = s.live.erase a) (hrecord : s'.record = s.record) :
    Refines s' (Function.update mp n none) := by
  have hmem : ∀ {b}, b ∈ s'.live ↔ b ≠ a ∧ b ∈ s.live := by
    intro b
    rw [hlive, Finset.mem_erase]
  constructor
  · exact hs'
  · intro b hb
    rw [hrecord]
    exact h.named b (hmem.mp hb).2
  · intro b hb c hc
    rw [hrecord]
    exact h.unique b (hmem.mp hb).2 c (hmem.mp hc).2
  · intro i e
    rw [hrecord]
    by_cases hi : i = n
    · subst hi
      rw [Function.update_self]
      refine iff_of_false (fun he => nomatch he) ?_
      rintro ⟨b, hb, hbi, -⟩
      exact (hmem.mp hb).1 (h.unique b (hmem.mp hb).2 a ha i hbi hn)
    · rw [Function.update_of_ne hi, h.entry]
      constructor
      · rintro ⟨b, hb, hbi, he⟩
        refine ⟨b, hmem.mpr ⟨?_, hb⟩, hbi, he⟩
        rintro rfl
        exact hi (hbi.unique hn)
      · rintro ⟨b, hb, hbi, he⟩
        exact ⟨b, (hmem.mp hb).2, hbi, he⟩

/-- `fault_inject_unregister` removes the name and nothing else. -/
theorem faultInjectUnregister_refines {s : Registry ω} {mp : FaultMap ω}
    (h : Refines s mp) (n : Name) {fuel : ℕ} (hfuel : s.live.card < fuel) :
    Post (faultInjectUnregister fuel s n.val) fun s' =>
      Refines s' (Function.update mp n none) ∧ s'.world = s.world ∧
        s'.live.card ≤ s.live.card + 1 := by
  rw [faultInjectUnregister]
  refine (find_refines h n hfuel).bind fun r hr => ?_
  rcases hr with ⟨rfl, hnone⟩ | ⟨a, ha, rfl, hn⟩
  · refine Post.pure ⟨?_, rfl, Nat.le_succ _⟩
    rw [← hnone, Function.update_eq_self]
    exact h
  · obtain ⟨t, ht⟩ := h.tree
    have hh := ht.height_lt
    refine (ht.erase ha (by omega)).bind fun m hm => ?_
    refine Post.pure ⟨?_, rfl, Finset.card_erase_le.trans (Nat.le_succ _)⟩
    exact h.leave ha hn hm rfl rfl

/-- The hit as the program evaluates it is the map's. -/
theorem fire_eq (sleep : Int32 → ω → ω) (r : FaultInjectInternal ω) (arg : UInt64) (w : ω) :
    fire sleep { r with item := { r.item with hitTimes := r.item.hitTimes + 1 } } arg w =
      r.entry.hit sleep arg w := by
  obtain ⟨item, cb⟩ := r
  cases cb with
  | none => rfl
  | some cb =>
    simp only [fire, Entry.hit, FaultInjectInternal.entry, FaultInject.settings, Option.map_some,
      Option.elim_some]
    generalize cb arg item.priv w = u
    obtain ⟨_ | _, u⟩ := u <;> rfl

/-- `fault_inject_cond_get` counts the hit and returns what the map's fault says. -/
theorem faultInjectCondGet_refines (env : Env ω) {s : Registry ω} {mp : FaultMap ω}
    (h : Refines s mp) (n : Name) (arg : UInt64) {fuel : ℕ} (hfuel : s.live.card < fuel)
    (p : UInt64) :
    Post (faultInjectCondGet env fuel s n.val arg) fun r =>
      Refines r.1 ((Op.condGet n arg).spec env.sleep p mp s.world).1 ∧
        r.1.world = ((Op.condGet n arg).spec env.sleep p mp s.world).2.1 ∧
        .fault (r.2.map r.1.view) = ((Op.condGet n arg).spec env.sleep p mp s.world).2.2 ∧
        r.1.live = s.live := by
  obtain ⟨r, hfind, ⟨rfl, hnone⟩ | ⟨a, ha, rfl, hn⟩⟩ := find_refines h n hfuel
  · rw [faultInjectCondGet, hfind, ok_bind]
    simp only [Op.spec, hnone]
    exact Post.pure ⟨h, rfl, rfl, rfl⟩
  · simp only [Op.spec, h.mp_eq ha hn]
    cases hen : (s.record a).item.enable with
    | false =>
      have he : (s.record a).entry.settings.enable = false := hen
      rw [condGet_off env hfind hen, if_neg (by simp [he])]
      exact Post.ok ⟨h, rfl, rfl, rfl⟩
    | true =>
      have he : (s.record a).entry.settings.enable = true := hen
      have hfire : fire env.sleep { s.record a with item := countHit (s.record a).item } arg s.world =
          (s.record a).entry.hit env.sleep arg s.world := fire_eq env.sleep (s.record a) arg s.world
      rw [condGet_on env hfind hen, hfire, if_pos he]
      have hmod : Refines (s.modifyItem a countHit) _ := h.modify ha hn fun _ => rfl
      have hn' : ((s.modifyItem a countHit).record a).Named n := by
        rw [record_modifyItem]
        exact hn
      have hview := view_eq hn'
      rw [record_modifyItem] at hview
      refine Post.ok ⟨⟨hmod.tree, hmod.named, hmod.unique, hmod.entry⟩, rfl, ?_, rfl⟩
      dsimp only
      split
      · exact congrArg (fun v => Result.fault (some v)) hview
      · rfl

/-! ### Runs -/

/-- Every operation does what the map's does. -/
theorem exec_refines (env : Env ω) {s : Registry ω} {mp : FaultMap ω} (h : Refines s mp)
    (op : Op ω) {fuel : ℕ} (hfuel : s.live.card < fuel) :
    ∃ priv, Post (op.exec env fuel s) fun r =>
      Refines r.1 (op.spec env.sleep priv mp s.world).1 ∧
        r.1.world = (op.spec env.sleep priv mp s.world).2.1 ∧
        r.2 = (op.spec env.sleep priv mp s.world).2.2 ∧ r.1.live.card ≤ s.live.card + 1 := by
  refine ⟨(env.heap.malloc s.mallocs s.live).2.item.priv, ?_⟩
  have hset : ∀ (n : Name) (f : FaultInject → FaultInject) (g : Entry ω → Entry ω),
      (∀ i, (f i).name = i.name) →
      (∀ r : FaultInjectInternal ω,
        FaultInjectInternal.entry { r with item := f r.item } = g r.entry) →
      Post (do let s ← withFault fuel s n.val f; return (s, Result.void)) fun r =>
        Refines r.1 (mp.adjust n g) ∧ r.1.world = s.world ∧ r.2 = .void ∧
          r.1.live.card ≤ s.live.card + 1 := by
    intro n f g hname hfg
    refine (withFault_refines h n hfuel hname hfg).bind fun s' hs' => ?_
    obtain ⟨hs', hw, hl⟩ := hs'
    exact Post.pure ⟨hs', hw, rfl, hl ▸ Nat.le_succ _⟩
  cases op with
  | register n =>
    refine (faultInjectRegister_refines env h n hfuel).bind fun s' hs' => ?_
    exact Post.pure ⟨hs'.1, hs'.2.1, rfl, hs'.2.2⟩
  | registerPriv n cb =>
    refine (faultInjectRegisterPriv_refines env h n cb hfuel).bind fun s' hs' => ?_
    exact Post.pure ⟨hs'.1, hs'.2.1, rfl, hs'.2.2⟩
  | unregister n =>
    refine (faultInjectUnregister_refines h n hfuel).bind fun s' hs' => ?_
    exact Post.pure ⟨hs'.1, hs'.2.1, rfl, hs'.2.2⟩
  | enable n => exact hset n _ _ (fun _ => rfl) fun _ => rfl
  | disable n => exact hset n _ _ (fun _ => rfl) fun _ => rfl
  | reinit n => exact hset n _ _ (fun _ => rfl) fun _ => rfl
  | init n new => exact hset n _ _ (fun _ => rfl) fun _ => rfl
  | find n =>
    refine (find_refines h n hfuel).bind fun r hr => ?_
    rcases hr with ⟨rfl, hnone⟩ | ⟨a, ha, rfl, hn⟩
    · refine Post.pure ⟨h, rfl, ?_, Nat.le_succ _⟩
      rw [Op.spec, hnone]
      rfl
    · refine Post.pure ⟨h, rfl, ?_, Nat.le_succ _⟩
      rw [Op.spec, h.mp_eq ha hn, Option.map_some, Option.map_some, view_eq hn]
  | condGet n arg =>
    let p := (env.heap.malloc s.mallocs s.live).2.item.priv
    refine (faultInjectCondGet_refines env h n arg hfuel p).bind fun r hr => ?_
    exact Post.pure ⟨hr.1, hr.2.1, hr.2.2.1, hr.2.2.2 ▸ Nat.le_succ _⟩

/-- Call the operations one after the other. -/
def run (env : Env ω) (fuel : ℕ) : Registry ω → List (Op ω) → Exec (Registry ω × List Result)
  | s, [] => .ok (s, [])
  | s, op :: ops => do
    let (s, r) ← op.exec env fuel s
    let (s, rs) ← run env fuel s ops
    return (s, r :: rs)

/-- The operations on the map; `privs` has the second arguments of the callbacks. -/
def runSpec (sleep : Int32 → ω → ω) :
    List UInt64 → FaultMap ω → ω → List (Op ω) → FaultMap ω × ω × List Result
  | p :: privs, mp, w, op :: ops =>
    let r := op.spec sleep p mp w
    let rs := runSpec sleep privs r.1 r.2.1 ops
    (rs.1, rs.2.1, r.2.2 :: rs.2.2)
  | _, mp, w, _ => (mp, w, [])

/-- A whole run does what the map's does. -/
theorem run_of_refines (env : Env ω) {s : Registry ω} {mp : FaultMap ω} (h : Refines s mp)
    (ops : List (Op ω)) {fuel : ℕ} (hfuel : s.live.card + ops.length < fuel) :
    ∃ privs : List UInt64, privs.length = ops.length ∧ Post (run env fuel s ops) fun r =>
      Refines r.1 (runSpec env.sleep privs mp s.world ops).1 ∧
        r.1.world = (runSpec env.sleep privs mp s.world ops).2.1 ∧
        r.2 = (runSpec env.sleep privs mp s.world ops).2.2 := by
  induction ops generalizing s mp with
  | nil => exact ⟨[], rfl, Post.ok ⟨h, rfl, rfl⟩⟩
  | cons op ops ih =>
    rw [List.length_cons] at hfuel
    have hlt : s.live.card < fuel := by omega
    obtain ⟨p, ⟨s', r⟩, hexec, hs', hw, hr, hcard⟩ := exec_refines env h op hlt
    dsimp only at hs' hw hr hcard
    obtain ⟨privs, hlen, ⟨s'', rs⟩, hrun, hs'', hw', hrs⟩ := ih hs' (by omega)
    dsimp only at hs'' hw' hrs
    rw [hw] at hs'' hw' hrs
    refine ⟨p :: privs, by rw [List.length_cons, List.length_cons, hlen], (s'', r :: rs), ?_, ?_⟩
    · rw [run, hexec, ok_bind]
      dsimp only
      rw [hrun]
      rfl
    · refine ⟨hs'', hw', ?_⟩
      rw [hr, hrs]
      rfl

/-- The empty registry. -/
def Registry.empty (node : NodeRef → RbNode) (record : NodeRef → FaultInjectInternal ω) (w : ω) :
    Registry ω := ⟨⟨node, 0, ()⟩, record, ∅, 0, w⟩

theorem refines_empty (node : NodeRef → RbNode) (record : NodeRef → FaultInjectInternal ω) (w : ω) :
    Refines (Registry.empty node record w) fun _ => none where
  tree := ⟨_, WellFormed.empty rfl⟩
  named a ha := absurd ha (Finset.notMem_empty a)
  unique a ha := absurd ha (Finset.notMem_empty a)
  entry n e := by
    refine iff_of_false (fun h => nomatch h) ?_
    rintro ⟨a, ha, -⟩
    exact absurd ha (Finset.notMem_empty a)

/-- The tree holds exactly one node for each name of the map, and no others. -/
def OneNodePerName (s : Registry ω) (mp : FaultMap ω) : Prop :=
  ∃ t, Represents s.faults t ∧ t.IsRB ∧
    (∀ n, mp n ≠ none ↔ ∃! a, a ∈ t.toList ∧ (s.record a).Named n) ∧
    ∀ a ∈ t.toList, ∃ n, mp n ≠ none ∧ (s.record a).Named n

theorem Refines.oneNodePerName {s : Registry ω} {mp : FaultMap ω} (h : Refines s mp) :
    OneNodePerName s mp := by
  obtain ⟨t, ht⟩ := h.tree
  refine ⟨t, ht.represents, ht.isRB, fun n => ?_, fun a ha => ?_⟩
  · constructor
    · intro hne
      obtain ⟨e, he⟩ := Option.ne_none_iff_exists'.mp hne
      obtain ⟨a, ha, hn, -⟩ := (h.entry n e).mp he
      refine ⟨a, ⟨(ht.mem_iff a).mpr ha, hn⟩, ?_⟩
      rintro b ⟨hb, hbn⟩
      exact h.unique b ((ht.mem_iff b).mp hb) a ha n hbn hn
    · rintro ⟨a, ⟨ha, hn⟩, -⟩
      rw [h.mp_eq ((ht.mem_iff a).mp ha) hn]
      exact Option.some_ne_none _
  · have hal := (ht.mem_iff a).mp ha
    obtain ⟨n, hn⟩ := h.named a hal
    refine ⟨n, ?_, hn⟩
    rw [h.mp_eq hal hn]
    exact Option.some_ne_none _

/-- Every run from the empty root, on every heap, returns what the same operations on the map
return, changes the world in the same way, and leaves a tree with one node for each name of the
map. The fuel is one more than the number of operations, or greater. -/
theorem run_refines (env : Env ω) (node : NodeRef → RbNode)
    (record : NodeRef → FaultInjectInternal ω) (w : ω) (ops : List (Op ω)) (k : ℕ) :
    ∃ (privs : List UInt64) (s : Registry ω) (rs : List Result), privs.length = ops.length ∧
      run env (ops.length + 1 + k) (Registry.empty node record w) ops = .ok (s, rs) ∧
      (runSpec env.sleep privs (fun _ => none) w ops).2 = (s.world, rs) ∧
      OneNodePerName s (runSpec env.sleep privs (fun _ => none) w ops).1 ∧
      ∀ n e, (runSpec env.sleep privs (fun _ => none) w ops).1 n = some e ↔
        ∃ a ∈ s.live, (s.record a).Named n ∧ (s.record a).entry = e := by
  have hfuel : (Registry.empty node record w).live.card + ops.length < ops.length + 1 + k := by
    have : (Registry.empty node record w).live.card = 0 := Finset.card_empty
    omega
  obtain ⟨privs, hlen, ⟨s, rs⟩, hrun, hs, hw, hrs⟩ :=
    run_of_refines env (refines_empty node record w) ops hfuel
  exact ⟨privs, s, rs, hlen, hrun, (Prod.ext hw hrs).symm, hs.oneNodePerName, hs.entry⟩

end CcUtils.Fault
