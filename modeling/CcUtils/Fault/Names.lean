import CcUtils.Fault.Sound
import Mathlib.Data.Finset.Lattice.Fold
import Mathlib.Order.Lattice.Nat

/-!
# Names of any length

`fault_inject_insert` copies 63 bytes of the name into the memory that `malloc` returned and leaves the last
byte of the 64 as it is; `fault_inject_find` compares all 64. A name of 63 bytes or more is found again only
if that byte happens to be right, and else every `fault_inject_register` links one record more.

## What is proved

* `matches_freshRecord` — when a new record is found by its name.
* `register_matching`, `unregister_matching` — how many records of a name there are.
* `keeps_iff` — so when a name is kept as it should be.
-/

namespace CcUtils.Fault

open CcUtils.Lib CcUtils.Rbtree

variable {ω : Type}

/-- The name has room for its NUL, or the byte of memory after the copy is its next one. -/
def StoredWhole (junk : FaultInject) (name : CString) : Prop :=
  name.len ≤ nameSize - 2 ∨ junk.name.getD (nameSize - 1) 0 = name.val.getD (nameSize - 1) 0

instance (junk : FaultInject) (name : CString) : Decidable (StoredWhole junk name) :=
  inferInstanceAs (Decidable (_ ∨ _))

/-- **A new record is found by its name** when the name is stored whole. -/
theorem matches_freshRecord (junk : FaultInjectInternal ω) (name : CString) :
    (freshRecord junk name).Matches name ↔ StoredWhole junk.item name := by
  have hroom : name.len < nameSize - 1 ↔ name.len ≤ nameSize - 2 := by
    rw [nameSize]
    omega
  rw [StoredWhole, ← hroom]
  exact strncmp_strncpy junk.item.name name (nameSize - 1)

/-- The records that compare equal to the name. -/
def matching (s : Registry ω) (name : CString) : Finset NodeRef :=
  s.live.filter fun a => (s.record a).Matches name

theorem mem_matching {s : Registry ω} {name : CString} {a : NodeRef} :
    a ∈ matching s name ↔ a ∈ s.live ∧ (s.record a).Matches name := Finset.mem_filter

theorem matching_eq_empty {s : Registry ω} {name : CString} :
    matching s name = ∅ ↔ ∀ a ∈ s.live, ¬ (s.record a).Matches name := Finset.filter_eq_empty_iff

/-- `fault_inject_find` finds one if there is one. -/
theorem find_matching {s : Registry ω} (h : Sound s) (name : CString) {fuel : ℕ}
    (hfuel : s.live.card < fuel) :
    (matching s name = ∅ ∧ faultInjectFind fuel s name = .ok none) ∨
      (matching s name ≠ ∅ ∧ ∃ a, faultInjectFind fuel s name = .ok (some a)) := by
  obtain ⟨r, hr, ⟨rfl, hnone⟩ | ⟨a, ha, rfl, hmatch⟩⟩ := h.find name hfuel
  · exact Or.inl ⟨matching_eq_empty.mpr hnone, hr⟩
  · refine Or.inr ⟨fun he => matching_eq_empty.mp he a ha hmatch, a, hr⟩

/-- **Registering** changes nothing when there is a record of the name; else there is one more, which is
of the name when that is stored whole. -/
theorem register_matching (env : Env ω) {s : Registry ω} (h : Sound s) (name : CString) {fuel : ℕ}
    (hfuel : s.live.card < fuel) :
    Post (faultInjectRegister env fuel s name) fun s' =>
      Sound s' ∧ s'.live.card ≤ s.live.card + 1 ∧
        ((matching s name ≠ ∅ ∧ s' = s) ∨ (matching s name = ∅ ∧ (matching s' name).card =
          if StoredWhole (env.heap.malloc s.mallocs s.live).2.item name then 1 else 0)) := by
  refine (h.register env name hfuel).mono fun s' hs' => ?_
  rcases hs' with ⟨rfl, a, ha, hmatch⟩ | ⟨hnone, hs', a, ha, hlive, hrecord⟩
  · exact ⟨h, Nat.le_succ _, Or.inl ⟨fun he => matching_eq_empty.mp he a ha hmatch, rfl⟩⟩
  · refine ⟨hs', hlive ▸ Finset.card_insert_le .., Or.inr ⟨matching_eq_empty.mpr hnone, ?_⟩⟩
    have hold : ∀ b ∈ s.live, ¬ (s'.record b).Matches name := by
      intro b hb
      have hba : b ≠ a := fun e => ha (e ▸ hb)
      rw [hrecord, Function.update_of_ne hba]
      exact hnone b hb
    have hnew : (s'.record a).Matches name ↔
        StoredWhole (env.heap.malloc s.mallocs s.live).2.item name := by
      rw [hrecord, Function.update_self]
      exact matches_freshRecord _ name
    rw [matching, hlive, Finset.filter_insert, Finset.filter_eq_empty_iff.mpr hold]
    by_cases hwhole : StoredWhole (env.heap.malloc s.mallocs s.live).2.item name
    · rw [if_pos hwhole, if_pos (hnew.mpr hwhole)]
      rfl
    · rw [if_neg hwhole, if_neg (hnew.not.mpr hwhole)]
      rfl

/-- **Unregistering** takes out one record of the name. -/
theorem unregister_matching {s : Registry ω} (h : Sound s) (name : CString) {fuel : ℕ}
    (hfuel : s.live.card < fuel) :
    Post (faultInjectUnregister fuel s name) fun s' =>
      Sound s' ∧ s'.live.card ≤ s.live.card ∧
        (matching s' name).card = (matching s name).card - 1 := by
  refine (h.unregister name hfuel).mono fun s' hs' => ?_
  obtain ⟨hs', -, hrecord, ⟨hlive, hnone⟩ | ⟨a, ha, hmatch, hlive⟩⟩ := hs'
  · have hempty : matching s name = ∅ := matching_eq_empty.mpr hnone
    have hsame : matching s' name = matching s name := by rw [matching, matching, hlive, hrecord]
    exact ⟨hs', hlive ▸ le_rfl, by rw [hsame, hempty]; rfl⟩
  · have herase : matching s' name = (matching s name).erase a := by
      rw [matching, matching, hlive, hrecord, Finset.filter_erase]
    refine ⟨hs', hlive ▸ Finset.card_erase_le, ?_⟩
    rw [herase, Finset.card_erase_of_mem (mem_matching.mpr ⟨ha, hmatch⟩)]

/-! ### Keeping a name -/

/-- After `fault_inject_register` a node is found by the name, registering it again links no second one,
and after `fault_inject_unregister` none is found. -/
def Keeps (env : Env ω) (fuel : ℕ) (s : Registry ω) (name : CString) : Prop :=
  ∃ s₁ a s₂ s₃, faultInjectRegister env fuel s name = .ok s₁ ∧
    faultInjectFind fuel s₁ name = .ok (some a) ∧
    faultInjectRegister env fuel s₁ name = .ok s₂ ∧ s₂.live = s₁.live ∧
    faultInjectUnregister fuel s₂ name = .ok s₃ ∧ faultInjectFind fuel s₃ name = .ok none

/-- A name is kept when there is one record of it once it is registered. -/
theorem keeps_of_sound {env : Env ω} {s : Registry ω} (h : Sound s) (name : CString) {fuel : ℕ}
    (hfuel : s.live.card + 1 < fuel) :
    Keeps env fuel s name ↔ (matching s name).card = 1 ∨ (matching s name = ∅ ∧
      StoredWhole (env.heap.malloc s.mallocs s.live).2.item name) := by
  have hfuel₀ : s.live.card < fuel := by omega
  obtain ⟨s₁, hreg, hs₁, hcard, hcases⟩ := register_matching env h name hfuel₀
  have hone : (matching s₁ name).card = 1 ↔ (matching s name).card = 1 ∨ (matching s name = ∅ ∧
      StoredWhole (env.heap.malloc s.mallocs s.live).2.item name) := by
    rcases hcases with ⟨hne, rfl⟩ | ⟨hempty, hcount⟩
    · simp [hne]
    · rw [hcount, hempty]
      simp
  rw [← hone]
  have hfuel₁ : s₁.live.card < fuel := by omega
  obtain ⟨s₂, hreg₂, -, -, hcases₂⟩ := register_matching env hs₁ name hfuel₁
  have hsame : matching s₁ name ≠ ∅ → s₂ = s₁ := by
    intro hne
    exact (hcases₂.resolve_right fun h => hne h.1).2
  obtain ⟨s₃, hunreg, hs₃, hcard₃, hcount₃⟩ := unregister_matching hs₁ name hfuel₁
  have hfind₃ := find_matching hs₃ name (lt_of_le_of_lt hcard₃ hfuel₁)
  constructor
  · rintro ⟨t₁, a, t₂, t₃, h₁, hfind, h₂, -, h₃, hnone⟩
    obtain rfl := Except.ok.inj (hreg.symm.trans h₁)
    have hne : matching s₁ name ≠ ∅ := by
      rcases find_matching hs₁ name hfuel₁ with ⟨-, hf⟩ | ⟨hne, -⟩
      · rw [hf] at hfind
        cases hfind
      · exact hne
    obtain rfl := Except.ok.inj (hreg₂.symm.trans h₂)
    rw [hsame hne] at h₃
    obtain rfl := Except.ok.inj (hunreg.symm.trans h₃)
    have hempty : matching s₃ name = ∅ := by
      rcases hfind₃ with ⟨hempty, -⟩ | ⟨-, b, hf⟩
      · exact hempty
      · rw [hf] at hnone
        cases hnone
    rw [hempty, Finset.card_empty] at hcount₃
    have hpos := Finset.card_pos.mpr (Finset.nonempty_iff_ne_empty.mpr hne)
    omega
  · intro hcount
    have hne : matching s₁ name ≠ ∅ := by
      intro he
      rw [he, Finset.card_empty] at hcount
      cases hcount
    rcases find_matching hs₁ name hfuel₁ with ⟨he, -⟩ | ⟨-, a, hfind⟩
    · exact absurd he hne
    · obtain rfl := hsame hne
      rcases hfind₃ with ⟨-, hnone⟩ | ⟨hne₃, -⟩
      · exact ⟨s₂, a, s₂, s₃, hreg, hfind, hreg₂, rfl, hunreg, hnone⟩
      · rw [hcount] at hcount₃
        exact absurd (Finset.card_eq_zero.mp hcount₃) hne₃

/-- **A name is kept** in a run, on every heap, exactly when there is one record of it before, or none and
the name is stored whole. -/
theorem keeps_iff {env : Env ω} {s : Registry ω} (h : Reached env s) (name : CString) {fuel : ℕ}
    (hfuel : s.live.card + 1 < fuel) :
    Keeps env fuel s name ↔ (matching s name).card = 1 ∨ (matching s name = ∅ ∧
      StoredWhole (env.heap.malloc s.mallocs s.live).2.item name) :=
  keeps_of_sound h.sound name hfuel

/-- A new name that is stored whole is found, with its callback and what was in the memory. -/
theorem registerPriv_found (env : Env ω) {s : Registry ω} (h : Sound s) {name : CString}
    (hnone : matching s name = ∅)
    (hwhole : StoredWhole (env.heap.malloc s.mallocs s.live).2.item name)
    (cb : Option (PrivCb ω)) {fuel : ℕ} (hfuel : s.live.card + 1 < fuel) :
    Post (faultInjectRegisterPriv env fuel s name cb) fun s' => ∃ a,
      faultInjectFind fuel s' name = .ok (some a) ∧ s'.record a =
        { freshRecord (env.heap.malloc s.mallocs s.live).2 name with callback := cb } := by
  have hfuel₀ : s.live.card < fuel := by omega
  have hfind : faultInjectFind fuel s name = .ok none :=
    ((find_matching h name hfuel₀).resolve_right fun hne => hne.1 hnone).2
  rw [faultInjectRegisterPriv, hfind, ok_bind]
  refine (h.link env name hfuel₀).bind fun r hr => ?_
  obtain ⟨s₁, a⟩ := r
  obtain ⟨hs₁, -, ha, hlive, hrecord⟩ := hr
  dsimp only at hs₁ ha hlive hrecord
  let setCallback : FaultInjectInternal ω → FaultInjectInternal ω := fun r => { r with callback := cb }
  have hs₂ : Sound (s₁.modify a setCallback) := hs₁.modify a fun _ => rfl
  have hrec : (s₁.modify a setCallback).record a = setCallback (s₁.record a) := Function.update_self ..
  have hnew : s₁.record a = freshRecord (env.heap.malloc s.mallocs s.live).2 name := by
    rw [hrecord, Function.update_self]
  have hmatch : ((s₁.modify a setCallback).record a).Matches name := by
    rw [hrec, hnew]
    exact (matches_freshRecord _ name).mpr hwhole
  have hold : ∀ b ∈ s.live, ¬ ((s₁.modify a setCallback).record b).Matches name := by
    intro b hb
    have hba : b ≠ a := fun e => ha (e ▸ hb)
    have hsame : (s₁.modify a setCallback).record b = s.record b := by
      change Function.update s₁.record a _ b = s.record b
      rw [Function.update_of_ne hba, hrecord, Function.update_of_ne hba]
    rw [hsame]
    exact matching_eq_empty.mp hnone b hb
  have hcard : (s₁.modify a setCallback).live.card < fuel := by
    have : s₁.live.card ≤ s.live.card + 1 := hlive ▸ Finset.card_insert_le ..
    exact lt_of_le_of_lt this hfuel
  refine .pure ⟨a, ?_, by rw [hrec, hnew]⟩
  have hmem : a ∈ s₁.live := hlive ▸ Finset.mem_insert_self ..
  obtain ⟨r, hr, ⟨-, hnot⟩ | ⟨b, hb, rfl, hb'⟩⟩ := hs₂.find name hcard
  · exact absurd hmatch (hnot a hmem)
  · have hcases : b = a ∨ b ∈ s.live := Finset.mem_insert.mp (hlive ▸ hb)
    rcases hcases with rfl | hb
    · exact hr
    · exact absurd hb' (hold b hb)

/-! ### A heap -/

/-- A fault whose name has only bytes 255. -/
def junkFault : FaultInject where
  name := List.replicate nameSize 255
  length_name := List.length_replicate ..
  enable := false
  sleepTime := 0
  afterTimes := 0
  enableTimes := 0
  injectErr := 0
  hitTimes := 0
  priv := 7

/-- The address after all that are allocated. -/
def nextAddress (live : Finset NodeRef) : NodeRef :=
  ⟨8 * (live.sup Subtype.val + 1), by omega, Nat.dvd_mul_right ..⟩

theorem nextAddress_notMem (live : Finset NodeRef) : nextAddress live ∉ live := by
  intro h
  have hle : (nextAddress live).val ≤ live.sup Subtype.val := Finset.le_sup h
  rw [nextAddress] at hle
  dsimp only at hle
  omega

/-- A program whose heap returns such faults, and whose `sleep` does nothing. -/
def junkEnv : Env ω where
  heap := ⟨fun _ live => (nextAddress live, ⟨junkFault, none⟩), fun _ live => nextAddress_notMem live⟩
  sleep _ w := w

/-- The empty root. -/
def emptyRegistry (w : ω) : Registry ω :=
  ⟨⟨fun _ => ⟨0, 0, 0⟩, 0, ()⟩, fun _ => ⟨junkFault, none⟩, ∅, 0, w⟩

/-- The name `a`. -/
def nameA : CString := ⟨[97], nul_notMem_a⟩

/-- It is found after it was registered with a callback. -/
theorem registerPriv_nameA (w : ω) (cb : Option (PrivCb ω)) :
    Post (faultInjectRegisterPriv junkEnv 2 (emptyRegistry w) nameA cb) fun s => ∃ a,
      faultInjectFind 2 s nameA = .ok (some a) ∧ (s.record a).callback = cb ∧
        (s.record a).item.priv = 7 := by
  have hsound : Sound (emptyRegistry w) := ⟨_, WellFormed.empty rfl⟩
  refine (registerPriv_found junkEnv hsound (Finset.filter_empty _) (Or.inl (by decide)) cb
    (Nat.lt_succ_self 1)).mono fun s hs => ?_
  obtain ⟨a, hfind, hrec⟩ := hs
  exact ⟨a, hfind, by rw [hrec], by rw [hrec]; rfl⟩

theorem keeps_iff_nameA :
    Keeps junkEnv 2 (emptyRegistry ()) nameA ↔
      (matching (emptyRegistry ()) nameA).card = 1 ∨
        (matching (emptyRegistry ()) nameA = ∅ ∧ StoredWhole junkFault nameA) :=
  @keeps_iff Unit junkEnv (emptyRegistry ()) (.empty ..) nameA 2 (by decide)

/-- A name of 63 bytes. -/
def longName : CString := ⟨List.replicate 63 97, by decide⟩

/-- It is not found after it was registered. -/
theorem not_keeps_longName : ¬ Keeps junkEnv 2 (emptyRegistry ()) longName := by
  have hsound : Sound (emptyRegistry ()) := @Reached.sound Unit junkEnv _ (.empty ..)
  rw [keeps_of_sound hsound longName (by decide)]
  have hempty : matching (emptyRegistry ()) longName = ∅ := Finset.filter_empty _
  rw [hempty]
  rintro (h | ⟨-, h⟩)
  · cases h
  · revert h
    decide

end CcUtils.Fault
