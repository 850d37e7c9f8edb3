import CcUtils.Fault.Inject

/-!
# Registries with any names

What holds of every registry the program comes to, whatever the names are: the tree is a search tree of the
allocated records, in the order of the bytes in their names. A name that is not stored whole may then
not be found again, or two records may be taken for one; but every operation runs to its end.

## What is proved

* `find_eq` — what `fault_inject_find` returns.
* `find_congr` — it looks at the tree and the names only.
* `condGet_off`, `condGet_on` — what `fault_inject_cond_get` does with a fault that was found.
* `Call.exec_sound` — every operation keeps the tree in order.
* `Reached.sound` — so it is in every run.
-/

namespace CcUtils.Fault

open CcUtils.Lib CcUtils.Lib.RedBlack CcUtils.Rbtree

variable {ω : Type}

/-- The comparison of the records is a total preorder, whatever is in them. -/
theorem cmpNode_totalPreorder (record : NodeRef → FaultInjectInternal ω) :
    TotalPreorder (cmpNode record) where
  swap _ _ := strncmp_swap ..
  trans _ _ _ := strncmp_trans _ _ _ _

theorem strncmp_totalPreorder (n : ℕ) : TotalPreorder (strncmp n) where
  swap := strncmp_swap n
  trans := strncmp_trans n

/-! ### Finding -/

/-- A record that compares equal to the name. -/
def FaultInjectInternal.Matches (r : FaultInjectInternal ω) (name : CString) : Prop :=
  strncmp nameSize name.val r.item.name = 0

instance (r : FaultInjectInternal ω) (name : CString) : Decidable (r.Matches name) :=
  inferInstanceAs (Decidable (_ = _))

/-- `fault_inject_find` returns the first record that compares equal. -/
theorem find_eq {s : Registry ω} {t : RBTree NodeRef}
    (ht : WellFormed (cmpNode s.record) s.faults s.live t) (name : CString) {fuel : ℕ}
    (hfuel : s.live.card < fuel) :
    faultInjectFind fuel s name =
      .ok (t.toList.find? fun a => (s.record a).Matches name) := by
  have hkey : KeyOrdered (cmpKey s.record name) t.toList :=
    (strncmp_totalPreorder nameSize).keyOrdered name.val (fun a => (s.record a).item.name) ht.sorted
  have hh := ht.height_lt
  rw [faultInjectFind, rbFindFirst_spec ht.represents hkey (by omega), ok_bind]
  change _ = Except.ok (t.toList.find? fun a => cmpKey s.record name a = 0)
  cases t.toList.find? (fun a => cmpKey s.record name a = 0) with
  | none => rfl
  | some a =>
    rw [Option.elim_some, if_neg a.ne_zero, deref_ref, ok_bind]
    rfl

/-- What it returns depends on the tree and on the names. -/
theorem find_congr {s s' : Registry ω} (hfaults : s'.faults = s.faults)
    (hname : ∀ a, (s'.record a).item.name = (s.record a).item.name) (fuel : ℕ) (name : CString) :
    faultInjectFind fuel s' name = faultInjectFind fuel s name := by
  have hkey : cmpKey s'.record name = cmpKey s.record name := by
    funext a
    rw [cmpKey, cmpKey, hname]
  rw [faultInjectFind, faultInjectFind, hkey, hfaults]

/-- Changing an item, but not its name. -/
theorem name_modify (s : Registry ω) (a : NodeRef)
    {f : FaultInjectInternal ω → FaultInjectInternal ω} (hf : ∀ r, (f r).item.name = r.item.name)
    (b : NodeRef) : ((s.modify a f).record b).item.name = (s.record b).item.name := by
  by_cases hb : b = a
  · subst hb
    simp [Registry.modify, hf]
  · simp [Registry.modify, hb]

/-! ### Registries in order -/

/-- The tree is a search tree of the allocated records. -/
def Sound (s : Registry ω) : Prop := ∃ t, WellFormed (cmpNode s.record) s.faults s.live t

/-- There is a record of the name, or there is none. -/
theorem Sound.find {s : Registry ω} (h : Sound s) (name : CString) {fuel : ℕ}
    (hfuel : s.live.card < fuel) :
    Post (faultInjectFind fuel s name) fun r =>
      (r = none ∧ ∀ a ∈ s.live, ¬ (s.record a).Matches name) ∨
        ∃ a ∈ s.live, r = some a ∧ (s.record a).Matches name := by
  obtain ⟨t, ht⟩ := h
  rw [find_eq ht name hfuel]
  cases hf : t.toList.find? (fun a => (s.record a).Matches name) with
  | none =>
    refine .ok (.inl ⟨rfl, fun a ha => ?_⟩)
    have := List.find?_eq_none.mp hf a ((ht.mem_iff a).mpr ha)
    simpa using this
  | some a =>
    have ha : a ∈ s.live := (ht.mem_iff a).mp (List.mem_of_find?_eq_some hf)
    exact .ok (.inr ⟨a, ha, rfl, by simpa using List.find?_some hf⟩)

/-- Changing a record, but not its name. -/
theorem Sound.modify {s : Registry ω} (h : Sound s) (a : NodeRef)
    {f : FaultInjectInternal ω → FaultInjectInternal ω} (hf : ∀ r, (f r).item.name = r.item.name) :
    Sound (s.modify a f) := by
  obtain ⟨t, ht⟩ := h
  refine ⟨t, ht.congr fun b _ c _ => ?_⟩
  rw [cmpNode, name_modify s a hf, name_modify s a hf]
  rfl

theorem Sound.withFault {s : Registry ω} (h : Sound s) (name : CString)
    {f : FaultInject → FaultInject} (hf : ∀ i, (f i).name = i.name) {fuel : ℕ}
    (hfuel : s.live.card < fuel) : Post (withFault fuel s name f) Sound := by
  rw [Fault.withFault]
  refine (h.find name hfuel).bind fun r _ => ?_
  cases r with
  | none => exact .pure h
  | some a => exact .pure (h.modify a fun r => hf r.item)

/-- The record of a name is changed by a setter. -/
theorem withFault_found {s : Registry ω} {fuel : ℕ} {name : CString} {a : NodeRef}
    (h : faultInjectFind fuel s name = .ok (some a)) (f : FaultInject → FaultInject) :
    withFault fuel s name f = .ok (s.modifyItem a f) := by
  rw [withFault, h]
  rfl

/-- And it is still the record of the name. -/
theorem find_modifyItem {s : Registry ω} {fuel : ℕ} {name : CString} {a : NodeRef}
    (h : faultInjectFind fuel s name = .ok (some a)) {f : FaultInject → FaultInject}
    (hf : ∀ i, (f i).name = i.name) :
    faultInjectFind fuel (s.modifyItem a f) name = .ok (some a) := by
  have hname : ∀ b, ((s.modifyItem a f).record b).item.name = (s.record b).item.name :=
    name_modify s a fun r => hf r.item
  rw [← h]
  exact @find_congr _ s (s.modifyItem a f) rfl hname fuel name

theorem record_modifyItem (s : Registry ω) (a : NodeRef) (f : FaultInject → FaultInject) :
    (s.modifyItem a f).record a = { s.record a with item := f (s.record a).item } :=
  Function.update_self ..

/-- A hit is counted. -/
def countHit (f : FaultInject) : FaultInject := { f with hitTimes := f.hitTimes + 1 }

/-- `fault_inject_cond_get` of a fault that is disabled. -/
theorem condGet_off (env : Env ω) {s : Registry ω} {fuel : ℕ} {name : CString} {a : NodeRef}
    (h : faultInjectFind fuel s name = .ok (some a)) (henable : (s.record a).item.enable = false)
    (arg : UInt64) : faultInjectCondGet env fuel s name arg = .ok (s, none) := by
  rw [faultInjectCondGet, h, ok_bind]
  simp only [henable, Bool.false_eq_true, if_false]
  rfl

/-- And of one that is enabled. -/
theorem condGet_on (env : Env ω) {s : Registry ω} {fuel : ℕ} {name : CString} {a : NodeRef}
    (h : faultInjectFind fuel s name = .ok (some a)) (henable : (s.record a).item.enable = true)
    (arg : UInt64) :
    faultInjectCondGet env fuel s name arg =
      let r := fire env.sleep { s.record a with item := countHit (s.record a).item } arg s.world
      .ok ({ s.modifyItem a countHit with world := r.2 }, if r.1 then some a else none) := by
  rw [← record_modifyItem s a countHit, faultInjectCondGet, h, ok_bind]
  simp only [henable, if_true]
  rfl

/-- What `fault_inject_insert` makes of the record from `malloc`. -/
def freshRecord (junk : FaultInjectInternal ω) (name : CString) : FaultInjectInternal ω :=
  ⟨faultInjectReset (junk.item.setName name), none⟩

/-- `fault_inject_insert` links one record more. -/
theorem Sound.link (env : Env ω) {s : Registry ω} (h : Sound s) (name : CString) {fuel : ℕ}
    (hfuel : s.live.card < fuel) :
    Post (faultInjectInsert env fuel s name) fun r =>
      Sound r.1 ∧ r.1.world = s.world ∧ r.2 ∉ s.live ∧ r.1.live = insert r.2 s.live ∧
        r.1.record = Function.update s.record r.2
          (freshRecord (env.heap.malloc s.mallocs s.live).2 name) := by
  obtain ⟨t, ht⟩ := h
  have hfresh := env.heap.fresh s.mallocs s.live
  rw [faultInjectInsert]
  generalize env.heap.malloc s.mallocs s.live = r at hfresh ⊢
  obtain ⟨a, junk⟩ := r
  dsimp only at hfresh ⊢
  have hcmp : ∀ b ∈ s.live, ∀ c ∈ s.live,
      cmpNode (Function.update s.record a (freshRecord junk name)) b c = cmpNode s.record b c := by
    intro b hb c hc
    have hba : b ≠ a := fun e => hfresh (e ▸ hb)
    have hca : c ≠ a := fun e => hfresh (e ▸ hc)
    simp [cmpNode, hba, hca]
  have hh : t.height < fuel := lt_of_lt_of_le ht.height_lt hfuel
  refine ((ht.congr hcmp).add (cmpNode_totalPreorder _) hfresh hh).bind fun m hm => ?_
  exact .pure ⟨hm, rfl, hfresh, rfl, rfl⟩

/-- `fault_inject_register`, for a name that is there and for one that is not. -/
theorem Sound.register (env : Env ω) {s : Registry ω} (h : Sound s) (name : CString) {fuel : ℕ}
    (hfuel : s.live.card < fuel) :
    Post (faultInjectRegister env fuel s name) fun s' =>
      (s' = s ∧ ∃ a ∈ s.live, (s.record a).Matches name) ∨
        ((∀ a ∈ s.live, ¬ (s.record a).Matches name) ∧ Sound s' ∧ ∃ a, a ∉ s.live ∧
          s'.live = insert a s.live ∧ s'.record = Function.update s.record a
            (freshRecord (env.heap.malloc s.mallocs s.live).2 name)) := by
  rw [faultInjectRegister]
  refine (h.find name hfuel).bind fun r hr => ?_
  rcases hr with ⟨rfl, hnone⟩ | ⟨a, ha, rfl, hmatch⟩
  · refine (h.link env name hfuel).bind fun r hr => ?_
    obtain ⟨hs', -, hfresh, hlive, hrecord⟩ := hr
    exact .pure (.inr ⟨hnone, hs', r.2, hfresh, hlive, hrecord⟩)
  · exact .pure (.inl ⟨rfl, a, ha, hmatch⟩)

/-- `fault_inject_unregister` takes out one record of the name. -/
theorem Sound.unregister {s : Registry ω} (h : Sound s) (name : CString) {fuel : ℕ}
    (hfuel : s.live.card < fuel) :
    Post (faultInjectUnregister fuel s name) fun s' =>
      Sound s' ∧ s'.world = s.world ∧ s'.record = s.record ∧
        ((s'.live = s.live ∧ ∀ a ∈ s.live, ¬ (s.record a).Matches name) ∨
          ∃ a ∈ s.live, (s.record a).Matches name ∧ s'.live = s.live.erase a) := by
  rw [faultInjectUnregister]
  refine (h.find name hfuel).bind fun r hr => ?_
  rcases hr with ⟨rfl, hnone⟩ | ⟨a, ha, rfl, hmatch⟩
  · exact .pure ⟨h, rfl, rfl, .inl ⟨rfl, hnone⟩⟩
  · obtain ⟨t, ht⟩ := h
    have hh := ht.height_lt
    refine (ht.erase ha (by omega)).bind fun m hm => ?_
    exact .pure ⟨hm, rfl, rfl, .inr ⟨a, ha, hmatch, rfl⟩⟩

/-! ### Runs -/

/-- A call of the program, with any name. -/
inductive Call (ω : Type) where
  | register (name : CString)
  | registerPriv (name : CString) (cb : Option (PrivCb ω))
  | unregister (name : CString)
  | enable (name : CString)
  | disable (name : CString)
  | reinit (name : CString)
  | init (name : CString) (new : FaultInject)
  | condGet (name : CString) (privArg : UInt64)

/-- The registry after the call; `fault_inject_find` does not change it. -/
def Call.exec (env : Env ω) (fuel : ℕ) (s : Registry ω) : Call ω → Exec (Registry ω)
  | .register name => faultInjectRegister env fuel s name
  | .registerPriv name cb => faultInjectRegisterPriv env fuel s name cb
  | .unregister name => faultInjectUnregister fuel s name
  | .enable name => faultInjectEnable fuel s name
  | .disable name => faultInjectDisable fuel s name
  | .reinit name => faultInjectReinit fuel s name
  | .init name new => faultInjectInit fuel s name new
  | .condGet name arg => (faultInjectCondGet env fuel s name arg).map Prod.fst

/-- **Every call** keeps the tree in order, and runs to its end. -/
theorem Call.exec_sound (env : Env ω) {s : Registry ω} (h : Sound s) (call : Call ω) {fuel : ℕ}
    (hfuel : s.live.card < fuel) : Post (call.exec env fuel s) Sound := by
  cases call with
  | register name =>
    refine (h.register env name hfuel).mono fun s' hs' => ?_
    rcases hs' with ⟨rfl, -⟩ | ⟨-, hs', -⟩
    · exact h
    · exact hs'
  | registerPriv name cb =>
    refine (h.find name hfuel).bind fun r _ => ?_
    cases r with
    | none =>
      refine (h.link env name hfuel).bind fun r hr => ?_
      exact .pure (hr.1.modify r.2 fun _ => rfl)
    | some a => exact .pure h
  | unregister name => exact (h.unregister name hfuel).mono fun s' hs' => hs'.1
  | enable name => exact h.withFault name (f := fun i => { i with enable := true }) (fun _ => rfl) hfuel
  | disable name =>
    exact h.withFault name (f := fun i => { i with enable := false }) (fun _ => rfl) hfuel
  | reinit name => exact h.withFault name (f := faultInjectReset) (fun _ => rfl) hfuel
  | init name new =>
    rw [exec, faultInjectInit]
    refine h.withFault name ?_ hfuel
    exact fun _ => rfl
  | condGet name arg =>
    obtain ⟨r, hr, -⟩ := h.find name hfuel
    cases r with
    | none =>
      rw [exec, faultInjectCondGet, hr, ok_bind]
      exact ⟨s, rfl, h⟩
    | some a =>
      cases henable : (s.record a).item.enable with
      | false =>
        rw [exec, condGet_off env hr henable]
        exact ⟨s, rfl, h⟩
      | true =>
        rw [exec, condGet_on env hr henable]
        obtain ⟨t, ht⟩ := h.modify a (f := fun r => { r with item := countHit r.item }) fun _ => rfl
        exact ⟨_, rfl, t, ht⟩

/-- The registries that calls lead to, one after the other, from the empty root. The fuel is more than
there are records. -/
inductive Reached (env : Env ω) : Registry ω → Prop
  | empty (node : NodeRef → RbNode) (record : NodeRef → FaultInjectInternal ω) (w : ω) :
    Reached env ⟨⟨node, 0, ()⟩, record, ∅, 0, w⟩
  | call {s s' : Registry ω} {fuel : ℕ} (call : Call ω) (h : Reached env s)
    (hfuel : s.live.card < fuel) (hexec : call.exec env fuel s = .ok s') : Reached env s'

/-- **In every run** the tree stays in order. -/
theorem Reached.sound {env : Env ω} {s : Registry ω} (h : Reached env s) : Sound s := by
  induction h with
  | empty node record w => exact ⟨_, WellFormed.empty rfl⟩
  | call call _ hfuel hexec ih => exact (call.exec_sound env ih hfuel).of_ok hexec

end CcUtils.Fault
