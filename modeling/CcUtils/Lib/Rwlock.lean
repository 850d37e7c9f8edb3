import CcUtils.Lib.Program
import Mathlib.Data.Finset.Card

/-!
# Critical sections under a reader-writer lock

A library for threads that share a memory and enter it only under one reader-writer lock. Each thread
makes calls one after another, the next one chosen by what the calls before it returned; a call waits
for the lock, or gives up when it is not free, and its body is a program cut at its accesses. Threads
take turns in any order, one access a turn.

The log has the calls in the order in which they let the lock go. That a run is serial says that the
calls of the log, run whole and one after another, return what the threads got.

## What is proved

* `Serial.enter`, `Serial.giveUp`, `Serial.load`, `Serial.store`, `Serial.leave` — what each kind of
  turn keeps.
* `run_serial` — every run is serial, and meets no fault that a call run whole does not.
* `Serial.writer_alone` — a thread inside for writing is the only one inside.
* `Serial.leaves`, `Serial.returns` — a thread inside can always go on until it leaves, and so every
  call can still return.
-/

namespace CcUtils.Lib

variable {ι σ κ ρ : Type} [DecidableEq ι]

/-! ### The system -/

/-- A reader-writer lock: who holds it for writing, and who for reading. -/
structure Rwlock (ι : Type) where
  writer : Option ι
  readers : Finset ι

/-- The lock after it is granted to the thread, exclusively or shared; `none` if it is not granted. -/
def Rwlock.acquire (lock : Rwlock ι) (exclusive : Bool) (i : ι) : Option (Rwlock ι) :=
  if exclusive then
    if lock.writer = none ∧ lock.readers = ∅ then some ⟨some i, ∅⟩ else none
  else
    if lock.writer = none then some ⟨none, insert i lock.readers⟩ else none

/-- The lock after the thread has let it go. -/
def Rwlock.release (lock : Rwlock ι) (i : ι) : Rwlock ι :=
  if lock.writer = some i then ⟨none, lock.readers⟩ else ⟨lock.writer, lock.readers.erase i⟩

/-- The code of a call: how it asks for the lock, and what it does under it. -/
structure Locked (σ ρ : Type) where
  exclusive : Bool
  /-- A call that does not wait gives up when the lock is not granted. -/
  waits : Bool
  body : Prog σ ρ

/-- The shared memory, the lock, the threads, and the calls that are over. -/
structure Threads (ι σ κ ρ : Type) where
  mem : σ
  lock : Rwlock ι
  /-- The call a thread is inside of, and what is left of its body. -/
  inside : ι → Option (κ × Prog σ ρ)
  /-- What a thread's calls returned; `none` when the call gave up. -/
  past : ι → List (κ × Option ρ)
  /-- The calls in the order in which they let the lock go or gave up. -/
  log : List (ι × κ × Option ρ)

/-- The call of the thread returns. -/
def Threads.returned (s : Threads ι σ κ ρ) (i : ι) (c : κ) (r : Option ρ) : Threads ι σ κ ρ :=
  { s with past := Function.update s.past i (s.past i ++ [(c, r)]), log := s.log ++ [(i, c, r)] }

/-- What the thread has still to do in its call. -/
def Threads.goOn (s : Threads ι σ κ ρ) (i : ι) (c : κ) (p : Prog σ ρ) : Threads ι σ κ ρ :=
  { s with inside := Function.update s.inside i (some (c, p)) }

/-- The thread lets the lock go. -/
def Threads.leave (s : Threads ι σ κ ρ) (i : ι) : Threads ι σ κ ρ :=
  { s with lock := s.lock.release i, inside := Function.update s.inside i none }

/-- No thread has made a call. -/
def Threads.start (m : σ) : Threads ι σ κ ρ := ⟨m, ⟨none, ∅⟩, fun _ => none, fun _ => [], []⟩

section

variable (code : κ → Locked σ ρ) (client : ι → List (κ × Option ρ) → Option κ)

/-- A turn of a thread. -/
def Threads.turn (s : Threads ι σ κ ρ) (i : ι) : Exec (Threads ι σ κ ρ) :=
  match s.inside i with
  | none =>
    match client i (s.past i) with
    | none => .ok s
    | some c =>
      match s.lock.acquire (code c).exclusive i with
      | some lock => .ok ({ s with lock }.goOn i c (code c).body)
      | none => .ok (if (code c).waits then s else s.returned i c none)
  | some (c, .ret r) => .ok ((s.leave i).returned i c (some r))
  | some (c, .load next) => .ok (s.goOn i c (next s.mem))
  | some (c, .store f next) => .ok ({ s with mem := f s.mem }.goOn i c next)
  | some (_, .fault e) => .error e

/-- A run under a schedule. -/
def Threads.run (s : Threads ι σ κ ρ) (sched : List ι) : Exec (Threads ι σ κ ρ) :=
  sched.foldlM (Threads.turn code client) s

/-- The calls of the log, run whole and one after another, return what the log says. -/
def Replays : σ → List (ι × κ × Option ρ) → σ → Prop
  | m, [], m' => m = m'
  | m, (_, _, none) :: log, m' => Replays m log m'
  | m, (_, c, some r) :: log, m' => ∃ u, (code c).body.run m = .ok (u, r) ∧ Replays u log m'

end

/-- The calls of one thread in the log. -/
def callsOf (i : ι) (log : List (ι × κ × Option ρ)) : List (κ × Option ρ) :=
  log.filterMap fun e => if e.1 = i then some e.2 else none

@[simp] theorem callsOf_concat_self (i : ι) (log : List (ι × κ × Option ρ)) (e : κ × Option ρ) :
    callsOf i (log ++ [(i, e)]) = callsOf i log ++ [e] := by
  simp [callsOf]

theorem callsOf_concat_of_ne {i j : ι} (h : i ≠ j) (log : List (ι × κ × Option ρ))
    (e : κ × Option ρ) : callsOf j (log ++ [(i, e)]) = callsOf j log := by
  simp [callsOf, h]

variable {code : κ → Locked σ ρ} {client : ι → List (κ × Option ρ) → Option κ}

omit [DecidableEq ι] in
/-- One more call at the end. -/
theorem Replays.concat {m u v : σ} {log : List (ι × κ × Option ρ)} {i : ι} {c : κ} {r : ρ}
    (h : Replays code m log u) (hc : (code c).body.run u = .ok (v, r)) :
    Replays code m (log ++ [(i, c, some r)]) v := by
  induction log generalizing m with
  | nil =>
    obtain rfl : m = u := h
    exact ⟨v, hc, rfl⟩
  | cons e log ih =>
    obtain ⟨j, d, _ | r⟩ := e
    · exact ih h
    · obtain ⟨w, hw, h⟩ := h
      exact ⟨w, hw, ih h⟩

omit [DecidableEq ι] in
/-- A call that gives up does nothing. -/
theorem Replays.concat_none {m u : σ} {log : List (ι × κ × Option ρ)} (i : ι) (c : κ)
    (h : Replays code m log u) : Replays code m (log ++ [(i, c, none)]) u := by
  induction log generalizing m with
  | nil => exact h
  | cons e log ih =>
    obtain ⟨j, d, _ | r⟩ := e
    · exact ih h
    · obtain ⟨w, hw, h⟩ := h
      exact ⟨w, hw, ih h⟩

/-! ### The lock -/

section lock

variable {lock lock' : Rwlock ι} {i j : ι}

theorem Rwlock.acquire_exclusive (h : lock.acquire true i = some lock') :
    lock.writer = none ∧ lock.readers = ∅ ∧ lock' = ⟨some i, ∅⟩ := by
  unfold Rwlock.acquire at h
  rw [if_pos rfl] at h
  by_cases hfree : lock.writer = none ∧ lock.readers = ∅
  · rw [if_pos hfree] at h
    exact ⟨hfree.1, hfree.2, (Option.some.inj h).symm⟩
  · rw [if_neg hfree] at h
    cases h

theorem Rwlock.acquire_shared (h : lock.acquire false i = some lock') :
    lock.writer = none ∧ lock' = ⟨none, insert i lock.readers⟩ := by
  unfold Rwlock.acquire at h
  rw [if_neg Bool.false_ne_true] at h
  by_cases hfree : lock.writer = none
  · rw [if_pos hfree] at h
    exact ⟨hfree, (Option.some.inj h).symm⟩
  · rw [if_neg hfree] at h
    cases h

/-- A free lock is granted. -/
theorem Rwlock.acquire_free (hw : lock.writer = none) (hr : lock.readers = ∅) (exclusive : Bool)
    (i : ι) : ∃ lock', lock.acquire exclusive i = some lock' := by
  unfold Rwlock.acquire
  cases exclusive
  · simp [hw]
  · simp [hw, hr]

end lock

/-! ### Serial runs -/

/-- The calls, run whole, keep `Good`, which may speak of the calls made so far; of at most `bound` of
them, where the bodies are given for so many only. Calls that share the lock store nothing. -/
structure Disciplined (code : κ → Locked σ ρ) (client : ι → List (κ × Option ρ) → Option κ)
    (bound : ℕ) (Good : List (ι × κ × Option ρ) → σ → Prop) : Prop where
  shared : ∀ c, (code c).exclusive = false → (code c).body.ReadOnly
  call : ∀ {log m i c}, log.length < bound → Good log m → client i (callsOf i log) = some c →
    Post ((code c).body.run m) fun u => Good (log ++ [(i, c, some u.2)]) u.1
  giveUp : ∀ {log m i c}, Good log m → client i (callsOf i log) = some c →
    (code c).waits = false → Good (log ++ [(i, c, none)]) m

/-- The thread is inside the call `c` with `p` left of its body, and holds the lock as the call needs
it. Run to its end now, `p` does what the whole body does to `base`. -/
structure Inside (code : κ → Locked σ ρ) (lock : Rwlock ι) (m base : σ) (i : ι) (c : κ)
    (p : Prog σ ρ) : Prop where
  run : p.run m = (code c).body.run base
  writing : (code c).exclusive = true → lock.writer = some i
  reading : (code c).exclusive = false → i ∈ lock.readers ∧ p.ReadOnly

/-- The state comes from the calls of the log, run whole and one after another, which leave the memory
`base`; and from those that are now inside. -/
structure Serial (code : κ → Locked σ ρ) (client : ι → List (κ × Option ρ) → Option κ) (m₀ : σ)
    (Good : List (ι × κ × Option ρ) → σ → Prop) (s : Threads ι σ κ ρ) (base : σ) : Prop where
  past : ∀ i, s.past i = callsOf i s.log
  replays : Replays code m₀ s.log base
  good : Good s.log base
  quiet : s.lock.writer = none → s.mem = base
  alone : s.lock.writer ≠ none → s.lock.readers = ∅
  called : ∀ {i c p}, s.inside i = some (c, p) → client i (s.past i) = some c
  inside : ∀ {i c p}, s.inside i = some (c, p) → Inside code s.lock s.mem base i c p
  outside : ∀ {i}, s.inside i = none → s.lock.writer ≠ some i ∧ i ∉ s.lock.readers

variable {bound : ℕ} {Good : List (ι × κ × Option ρ) → σ → Prop} {m₀ base : σ}
  {s : Threads ι σ κ ρ} {i j : ι} {c d : κ} {p : Prog σ ρ}

theorem Serial.start (m : σ) (h : Good [] m) :
    Serial code client m Good (Threads.start m) m where
  past _ := rfl
  replays := rfl
  good := h
  quiet _ := rfl
  alone _ := rfl
  called := nofun
  inside := nofun
  outside _ := ⟨nofun, Finset.notMem_empty _⟩

/-- A thread that holds the lock for writing is alone inside. -/
theorem Serial.writer_alone (h : Serial code client m₀ Good s base) (hi : s.lock.writer = some i)
    (hj : s.inside j = some (c, p)) : j = i := by
  have hin := h.inside hj
  cases hc : (code c).exclusive with
  | true => exact (Option.some.inj (hi.symm.trans (hin.writing hc))).symm
  | false =>
    have hr := (hin.reading hc).1
    rw [h.alone (by rw [hi]; simp)] at hr
    exact absurd hr (Finset.notMem_empty j)

/-- No one is inside when the lock is free. -/
theorem Serial.nobody (h : Serial code client m₀ Good s base) (hw : s.lock.writer = none)
    (hr : s.lock.readers = ∅) (i : ι) : s.inside i = none := by
  cases hi : s.inside i with
  | none => rfl
  | some u =>
    obtain ⟨c, p⟩ := u
    have hin := h.inside hi
    cases hc : (code c).exclusive with
    | true => exact absurd ((hin.writing hc).symm.trans hw) (by simp)
    | false =>
      have hmem := (hin.reading hc).1
      rw [hr] at hmem
      exact absurd hmem (Finset.notMem_empty i)

/-- The thread gets the lock. -/
theorem Serial.enter (hd : Disciplined code client bound Good) (h : Serial code client m₀ Good s base)
    (hi : s.inside i = none) (hc : client i (s.past i) = some c) {lock : Rwlock ι}
    (hlock : s.lock.acquire (code c).exclusive i = some lock) :
    Serial code client m₀ Good ({ s with lock }.goOn i c (code c).body) base := by
  have hwriter : s.lock.writer = none := by
    cases hx : (code c).exclusive with
    | true =>
      rw [hx] at hlock
      exact (Rwlock.acquire_exclusive hlock).1
    | false =>
      rw [hx] at hlock
      exact (Rwlock.acquire_shared hlock).1
  have hmem := h.quiet hwriter
  have hcase : (code c).exclusive = true ∧ s.lock.readers = ∅ ∧ lock = ⟨some i, ∅⟩ ∨
      (code c).exclusive = false ∧ lock = ⟨none, insert i s.lock.readers⟩ := by
    cases hx : (code c).exclusive with
    | true =>
      rw [hx] at hlock
      exact .inl ⟨rfl, (Rwlock.acquire_exclusive hlock).2⟩
    | false =>
      rw [hx] at hlock
      exact .inr ⟨rfl, (Rwlock.acquire_shared hlock).2⟩
  -- what the lock is after this for the threads, this one and the others
  have hself : Inside code lock s.mem base i c (code c).body := by
    refine ⟨by rw [hmem], fun hx => ?_, fun hx => ?_⟩ <;>
      rcases hcase with ⟨hx', -, rfl⟩ | ⟨hx', rfl⟩
    · rfl
    · rw [hx] at hx'
      cases hx'
    · rw [hx] at hx'
      cases hx'
    · exact ⟨Finset.mem_insert_self .., hd.shared c hx⟩
  have hother : ∀ {j d q}, j ≠ i → s.inside j = some (d, q) → Inside code lock s.mem base j d q := by
    intro j d q hji hj
    rcases hcase with ⟨-, hr, rfl⟩ | ⟨-, rfl⟩
    · rw [h.nobody hwriter hr] at hj
      cases hj
    · have hin := h.inside hj
      refine ⟨hin.run, fun hx => ?_, fun hx => ?_⟩
      · have hw := hin.writing hx
        rw [hwriter] at hw
        cases hw
      · exact ⟨Finset.mem_insert_of_mem (hin.reading hx).1, (hin.reading hx).2⟩
  refine ⟨h.past, h.replays, h.good, fun _ => hmem, fun hw => ?_, fun {j d q} hj => ?_,
    fun {j d q} hj => ?_, fun {j} hj => ?_⟩
  · rcases hcase with ⟨-, -, rfl⟩ | ⟨-, rfl⟩
    · rfl
    · exact absurd rfl hw
  · by_cases hji : j = i
    · subst hji
      simp only [Threads.goOn, Function.update_self] at hj
      obtain ⟨rfl, rfl⟩ := Prod.mk.inj (Option.some.inj hj)
      exact hc
    · simp only [Threads.goOn, Function.update_of_ne hji] at hj
      exact h.called hj
  · by_cases hji : j = i
    · subst hji
      simp only [Threads.goOn, Function.update_self] at hj
      obtain ⟨rfl, rfl⟩ := Prod.mk.inj (Option.some.inj hj)
      exact hself
    · simp only [Threads.goOn, Function.update_of_ne hji] at hj
      exact hother hji hj
  · by_cases hji : j = i
    · subst hji
      simp [Threads.goOn] at hj
    · simp only [Threads.goOn, Function.update_of_ne hji] at hj
      obtain ⟨-, hr⟩ := h.outside hj
      rcases hcase with ⟨-, -, rfl⟩ | ⟨-, rfl⟩
      · exact ⟨fun he => hji (Option.some.inj he).symm, Finset.notMem_empty j⟩
      · refine ⟨nofun, fun hmem => ?_⟩
        rcases Finset.mem_insert.mp hmem with he | he
        · exact hji he
        · exact hr he

/-- The call gives up. -/
theorem Serial.giveUp (hd : Disciplined code client bound Good)
    (h : Serial code client m₀ Good s base) (hi : s.inside i = none)
    (hc : client i (s.past i) = some c) (hw : (code c).waits = false) :
    Serial code client m₀ Good (s.returned i c none) base where
  past j := by
    by_cases hji : j = i
    · subst hji
      simp [Threads.returned, h.past j]
    · simp only [Threads.returned, Function.update_of_ne hji]
      rw [callsOf_concat_of_ne (Ne.symm hji), h.past j]
  replays := h.replays.concat_none i c
  good := hd.giveUp h.good (h.past i ▸ hc) hw
  quiet := h.quiet
  alone := h.alone
  called {j d p} hj := by
    have hji : j ≠ i := by
      rintro rfl
      cases hi.symm.trans hj
    simp only [Threads.returned, Function.update_of_ne hji]
    exact h.called hj
  inside := h.inside
  outside := h.outside

/-- A turn inside a call that leaves the thread inside: the lock stays as it is, and so does what the
others have to do. -/
theorem Serial.goOn (h : Serial code client m₀ Good s base) (hi : s.inside i = some (c, p))
    {q : Prog σ ρ} {m : σ} (hq : q.run m = p.run s.mem)
    (hread : (code c).exclusive = false → q.ReadOnly ∧ m = s.mem) :
    Serial code client m₀ Good ({ s with mem := m }.goOn i c q) base := by
  have hin := h.inside hi
  have hself : Inside code s.lock m base i c q :=
    ⟨hq.trans hin.run, hin.writing, fun hx => ⟨(hin.reading hx).1, (hread hx).1⟩⟩
  -- the others are readers, if there are any, and then the memory is as it was
  have hsame : ∀ {j d r}, j ≠ i → s.inside j = some (d, r) → m = s.mem := by
    intro j d r hji hj
    cases hx : (code c).exclusive with
    | true => exact absurd (h.writer_alone (hin.writing hx) hj) hji
    | false => exact (hread hx).2
  refine ⟨h.past, h.replays, h.good, fun hw => ?_, h.alone, fun {j d r} hj => ?_,
    fun {j d r} hj => ?_, fun {j} hj => ?_⟩
  · cases hx : (code c).exclusive with
    | true => exact absurd (hin.writing hx) (by rw [show s.lock.writer = none from hw]; simp)
    | false => exact (hread hx).2.trans (h.quiet hw)
  all_goals by_cases hji : j = i
  · subst hji
    simp only [Threads.goOn, Function.update_self] at hj
    obtain ⟨rfl, rfl⟩ := Prod.mk.inj (Option.some.inj hj)
    exact h.called hi
  · simp only [Threads.goOn, Function.update_of_ne hji] at hj
    exact h.called hj
  · subst hji
    simp only [Threads.goOn, Function.update_self] at hj
    obtain ⟨rfl, rfl⟩ := Prod.mk.inj (Option.some.inj hj)
    exact hself
  · simp only [Threads.goOn, Function.update_of_ne hji] at hj
    have hother := h.inside hj
    exact ⟨by rw [← hother.run, ← hsame hji hj]; rfl, hother.writing, hother.reading⟩
  · subst hji
    simp [Threads.goOn] at hj
  · simp only [Threads.goOn, Function.update_of_ne hji] at hj
    exact h.outside hj

theorem Serial.load (h : Serial code client m₀ Good s base) {next : σ → Prog σ ρ}
    (hi : s.inside i = some (c, .load next)) :
    Serial code client m₀ Good (s.goOn i c (next s.mem)) base :=
  h.goOn (m := s.mem) hi rfl fun hx => ⟨((h.inside hi).reading hx).2 s.mem, rfl⟩

theorem Serial.store (h : Serial code client m₀ Good s base) {f : σ → σ} {next : Prog σ ρ}
    (hi : s.inside i = some (c, .store f next)) :
    Serial code client m₀ Good ({ s with mem := f s.mem }.goOn i c next) base :=
  h.goOn hi rfl fun hx => ((h.inside hi).reading hx).2.elim

/-- The thread leaves, and its call returns what the body run whole returns. -/
theorem Serial.leave (hd : Disciplined code client bound Good)
    (h : Serial code client m₀ Good s base) (hlen : s.log.length < bound) {r : ρ}
    (hi : s.inside i = some (c, .ret r)) :
    Serial code client m₀ Good ((s.leave i).returned i c (some r)) s.mem := by
  have hin := h.inside hi
  have hrun : (code c).body.run base = .ok (s.mem, r) := hin.run.symm
  have hgood : Good (s.log ++ [(i, c, some r)]) s.mem :=
    (hd.call hlen h.good (h.past i ▸ h.called hi)).of_ok hrun
  have hpast : ∀ j, ((s.leave i).returned i c (some r)).past j =
      callsOf j (s.log ++ [(i, c, some r)]) := by
    intro j
    by_cases hji : j = i
    · subst hji
      simp [Threads.returned, Threads.leave, h.past j]
    · simp only [Threads.returned, Threads.leave, Function.update_of_ne hji]
      rw [callsOf_concat_of_ne (Ne.symm hji), h.past j]
  -- the thread that leaves, and the others
  have hother : ∀ {j d p}, ((s.leave i).returned i c (some r)).inside j = some (d, p) →
      j ≠ i ∧ s.inside j = some (d, p) := by
    intro j d p hj
    by_cases hji : j = i
    · subst hji
      simp [Threads.returned, Threads.leave] at hj
    · simp only [Threads.returned, Threads.leave, Function.update_of_ne hji] at hj
      exact ⟨hji, hj⟩
  have hlock : s.lock.writer = some i ∧ s.lock.release i = ⟨none, ∅⟩ ∨
      s.lock.writer = none ∧ s.mem = base ∧
        s.lock.release i = ⟨none, s.lock.readers.erase i⟩ := by
    unfold Rwlock.release
    cases hx : (code c).exclusive with
    | true =>
      have hw := hin.writing hx
      refine .inl ⟨hw, ?_⟩
      rw [if_pos hw, h.alone (by rw [hw]; simp)]
    | false =>
      have hw : s.lock.writer = none := by
        by_contra hw
        have hr := (hin.reading hx).1
        rw [h.alone hw] at hr
        exact absurd hr (Finset.notMem_empty i)
      refine .inr ⟨hw, h.quiet hw, ?_⟩
      rw [hw, if_neg (by simp)]
  refine ⟨hpast, h.replays.concat hrun, hgood, fun _ => rfl, fun hw => ?_, fun {j d p} hj => ?_,
    fun {j d p} hj => ?_, fun {j} hj => ?_⟩
  · rcases hlock with ⟨-, he⟩ | ⟨-, -, he⟩
    · change (s.lock.release i).writer ≠ none at hw
      rw [he] at hw
      exact absurd rfl hw
    · change (s.lock.release i).writer ≠ none at hw
      rw [he] at hw
      exact absurd rfl hw
  · obtain ⟨hji, hj⟩ := hother hj
    simp only [Threads.returned, Threads.leave, Function.update_of_ne hji]
    exact h.called hj
  · obtain ⟨hji, hj⟩ := hother hj
    have hold := h.inside hj
    rcases hlock with ⟨hw, -⟩ | ⟨hw, hm, he⟩
    · exact absurd (h.writer_alone hw hj) hji
    · refine ⟨?_, fun hx => ?_, fun hx => ?_⟩
      · change p.run s.mem = (code d).body.run s.mem
        rw [hold.run, hm]
      · exact absurd ((hold.writing hx).symm.trans hw) (by simp)
      · change j ∈ (s.lock.release i).readers ∧ p.ReadOnly
        rw [he]
        exact ⟨Finset.mem_erase.mpr ⟨hji, (hold.reading hx).1⟩, (hold.reading hx).2⟩
  · change (s.lock.release i).writer ≠ some j ∧ j ∉ (s.lock.release i).readers
    by_cases hji : j = i
    · subst hji
      rcases hlock with ⟨-, he⟩ | ⟨-, -, he⟩ <;> rw [he]
      · exact ⟨nofun, Finset.notMem_empty j⟩
      · exact ⟨nofun, Finset.notMem_erase j _⟩
    · simp only [Threads.returned, Threads.leave, Function.update_of_ne hji] at hj
      rcases hlock with ⟨-, he⟩ | ⟨-, -, he⟩ <;> rw [he]
      · exact ⟨nofun, Finset.notMem_empty j⟩
      · exact ⟨nofun, fun hmem => (h.outside hj).2 (Finset.mem_of_mem_erase hmem)⟩

/-- The calls that are over, and the readers inside. -/
def Threads.weight (s : Threads ι σ κ ρ) : ℕ := s.log.length + s.lock.readers.card

theorem Threads.weight_enter {lock : Rwlock ι} {exclusive : Bool} (c : κ) (p : Prog σ ρ)
    (h : s.lock.acquire exclusive i = some lock) :
    ({ s with lock }.goOn i c p).weight ≤ s.weight + 1 := by
  change s.log.length + lock.readers.card ≤ s.log.length + s.lock.readers.card + 1
  cases exclusive with
  | true =>
    obtain ⟨-, -, rfl⟩ := Rwlock.acquire_exclusive h
    simp only [Finset.card_empty]
    omega
  | false =>
    obtain ⟨-, rfl⟩ := Rwlock.acquire_shared h
    have hcard := Finset.card_insert_le i s.lock.readers
    simp only
    omega

theorem Threads.weight_leave (c : κ) (r : Option ρ) :
    ((s.leave i).returned i c r).weight ≤ s.weight + 1 := by
  have hcard : (s.lock.release i).readers.card ≤ s.lock.readers.card := by
    unfold Rwlock.release
    split
    · rfl
    · exact Finset.card_le_card (Finset.erase_subset i _)
  change (s.log ++ [(i, c, r)]).length + (s.lock.release i).readers.card ≤
    s.log.length + s.lock.readers.card + 1
  simp only [List.length_append, List.length_singleton]
  omega

theorem Threads.weight_returned (c : κ) (r : Option ρ) :
    (s.returned i c r).weight ≤ s.weight + 1 := by
  change (s.log ++ [(i, c, r)]).length + s.lock.readers.card ≤ _
  simp only [List.length_append, List.length_singleton, Threads.weight]
  omega

/-- A turn keeps the run serial, and meets no fault. -/
theorem Serial.turn (hd : Disciplined code client bound Good)
    (h : Serial code client m₀ Good s base) (hlen : s.log.length < bound) (i : ι) :
    Post (s.turn code client i) fun t =>
      (∃ base, Serial code client m₀ Good t base) ∧ t.weight ≤ s.weight + 1 := by
  unfold Threads.turn
  cases hi : s.inside i with
  | none =>
    simp only
    cases hc : client i (s.past i) with
    | none => exact Post.ok ⟨⟨base, h⟩, Nat.le_succ _⟩
    | some c =>
      simp only
      cases hlock : s.lock.acquire (code c).exclusive i with
      | some lock =>
        exact Post.ok ⟨⟨base, h.enter hd hi hc hlock⟩, Threads.weight_enter c _ hlock⟩
      | none =>
        by_cases hw : (code c).waits = true
        · simp only [if_pos hw]
          exact Post.ok ⟨⟨base, h⟩, Nat.le_succ _⟩
        · simp only [if_neg hw]
          refine Post.ok ⟨⟨base, h.giveUp hd hi hc (Bool.eq_false_iff.mpr hw)⟩, ?_⟩
          exact Threads.weight_returned c none
  | some u =>
    obtain ⟨c, p⟩ := u
    cases p with
    | ret r => exact Post.ok ⟨⟨s.mem, h.leave hd hlen hi⟩, Threads.weight_leave c (some r)⟩
    | load next => exact Post.ok ⟨⟨base, h.load hi⟩, Nat.le_succ _⟩
    | store f next => exact Post.ok ⟨⟨base, h.store hi⟩, Nat.le_succ _⟩
    | fault e =>
      -- the body run whole would meet the fault too
      have hrun : .error e = (code c).body.run base := (h.inside hi).run
      obtain ⟨u, hu, -⟩ := hd.call hlen h.good (h.past i ▸ h.called hi)
      rw [← hrun] at hu
      cases hu

/-- **Every run is serial.** By induction on the schedule. -/
theorem run_serial (hd : Disciplined code client bound Good)
    (h : Serial code client m₀ Good s base) {sched : List ι}
    (hlen : s.weight + sched.length ≤ bound) :
    Post (s.run code client sched) fun t =>
      (∃ base, Serial code client m₀ Good t base) ∧ t.weight ≤ s.weight + sched.length := by
  induction sched generalizing s base with
  | nil => exact Post.ok ⟨⟨base, h⟩, le_rfl⟩
  | cons i sched ih =>
    rw [List.length_cons] at hlen ⊢
    have hlog : s.log.length ≤ s.weight := Nat.le_add_right ..
    rw [Threads.run, List.foldlM_cons]
    refine (h.turn hd (by omega) i).bind fun t ht => ?_
    obtain ⟨⟨base', ht⟩, hw⟩ := ht
    exact (ih ht (by omega)).mono fun u hu => ⟨hu.1, by omega⟩

/-! ### Every call can return -/

theorem Threads.run_append (s : Threads ι σ κ ρ) (sched sched' : List ι) :
    s.run code client (sched ++ sched') =
      s.run code client sched >>= fun t => t.run code client sched' := by
  unfold Threads.run
  rw [List.foldlM_append]

theorem Threads.run_cons_ok {t u : Threads ι σ κ ρ} {sched : List ι}
    (h : s.turn code client i = .ok t) (hu : t.run code client sched = .ok u) :
    s.run code client (i :: sched) = .ok u := by
  rw [Threads.run, List.foldlM_cons, h]
  exact hu

/-- The thread has left its call `c`: it is outside, the others are where they were. -/
structure Left (s t : Threads ι σ κ ρ) (i : ι) (c : κ) : Prop where
  lock : t.lock = s.lock.release i
  out : t.inside i = none
  others : ∀ j, j ≠ i → t.inside j = s.inside j ∧ t.past j = s.past j
  past : ∃ r, t.past i = s.past i ++ [(c, some r)]
  log : t.log.length = s.log.length + 1

theorem Left.of_goOn {t : Threads ι σ κ ρ} {m : σ} {q : Prog σ ρ}
    (h : Left ({ s with mem := m }.goOn i c q) t i c) : Left s t i c where
  lock := h.lock
  out := h.out
  others j hj := by
    obtain ⟨hin, hpast⟩ := h.others j hj
    exact ⟨hin.trans (Function.update_of_ne hj ..), hpast⟩
  past := h.past
  log := h.log

/-- **A thread inside can go on until it leaves**, whatever the others do. By induction on what is left
of its body. -/
theorem Serial.leaves (hd : Disciplined code client bound Good)
    (h : Serial code client m₀ Good s base) (hlen : s.log.length < bound)
    (hi : s.inside i = some (c, p)) :
    ∃ sched t base', s.run code client sched = .ok t ∧ Serial code client m₀ Good t base' ∧
      Left s t i c := by
  induction p generalizing s with
  | ret r =>
    refine ⟨[i], _, s.mem, Threads.run_cons_ok ?_ rfl, h.leave hd hlen hi, ?_⟩
    · unfold Threads.turn
      rw [hi]
    · refine ⟨rfl, ?_, fun j hj => ⟨?_, ?_⟩, ⟨r, ?_⟩, ?_⟩
      · exact Function.update_self ..
      · exact Function.update_of_ne hj ..
      · exact Function.update_of_ne hj ..
      · exact Function.update_self ..
      · simp [Threads.returned, Threads.leave]
  | load next ih =>
    obtain ⟨sched, t, base', hrun, ht, hleft⟩ :=
      ih s.mem (h.load hi) hlen (Function.update_self ..)
    refine ⟨i :: sched, t, base', Threads.run_cons_ok ?_ hrun, ht, hleft.of_goOn⟩
    unfold Threads.turn
    rw [hi]
  | store f next ih =>
    obtain ⟨sched, t, base', hrun, ht, hleft⟩ := ih (h.store hi) hlen (Function.update_self ..)
    refine ⟨i :: sched, t, base', Threads.run_cons_ok ?_ hrun, ht, hleft.of_goOn⟩
    unfold Threads.turn
    rw [hi]
  | fault e =>
    have hrun : .error e = (code c).body.run base := (h.inside hi).run
    obtain ⟨u, hu, -⟩ := hd.call hlen h.good (h.past i ▸ h.called hi)
    rw [← hrun] at hu
    cases hu

/-- The readers inside can leave, one after another. -/
theorem Serial.readers_leave (hd : Disciplined code client bound Good)
    (h : Serial code client m₀ Good s base) (hlen : s.weight < bound)
    (hw : s.lock.writer = none) (hi : s.inside i = none) :
    ∃ sched t base', s.run code client sched = .ok t ∧ Serial code client m₀ Good t base' ∧
      t.lock = ⟨none, ∅⟩ ∧ t.inside i = none ∧ t.past i = s.past i ∧ t.log.length < bound := by
  induction hn : s.lock.readers.card generalizing s base with
  | zero =>
    have hr : s.lock.readers = ∅ := Finset.card_eq_zero.mp hn
    refine ⟨[], s, base, rfl, h, ?_, hi, rfl, lt_of_le_of_lt (Nat.le_add_right ..) hlen⟩
    rw [← hw, ← hr]
  | succ n ih =>
    obtain ⟨j, hj⟩ := Finset.card_pos.mp (by omega : 0 < s.lock.readers.card)
    have hji : j ≠ i := by
      rintro rfl
      exact (h.outside hi).2 hj
    cases hin : s.inside j with
    | none => exact absurd hj (h.outside hin).2
    | some u =>
      obtain ⟨c, p⟩ := u
      have hlog : s.log.length < bound := lt_of_le_of_lt (Nat.le_add_right ..) hlen
      obtain ⟨sched, t, base', hrun, ht, hleft⟩ := h.leaves hd hlog hin
      have hlock : t.lock = ⟨none, s.lock.readers.erase j⟩ := by
        rw [hleft.lock, Rwlock.release, hw, if_neg (by simp)]
      have hcard : t.lock.readers.card = n := by
        rw [hlock, Finset.card_erase_of_mem hj, hn, Nat.add_sub_cancel]
      have hweight : t.weight = s.weight := by
        unfold Threads.weight
        rw [hleft.log, hcard, hn]
        omega
      obtain ⟨hout, hpast⟩ := hleft.others i (Ne.symm hji)
      obtain ⟨sched', u, base'', hrun', hu, hfree, hiu, hpu, hlu⟩ :=
        ih ht (hweight ▸ hlen) (by rw [hlock]) (hout.trans hi) hcard
      refine ⟨sched ++ sched', u, base'', ?_, hu, hfree, hiu, hpu.trans hpast, hlu⟩
      rw [Threads.run_append, hrun]
      exact hrun'

/-- **Every call can return**: the threads inside leave, and then the thread gets the lock. -/
theorem Serial.returns (hd : Disciplined code client bound Good)
    (h : Serial code client m₀ Good s base) (hlen : s.weight + 1 < bound)
    (hc : client i (s.past i) = some c) :
    ∃ sched t r, s.run code client sched = .ok t ∧ t.past i = s.past i ++ [(c, some r)] := by
  have hlog : s.log.length < bound := by
    have := Nat.le_add_right s.log.length s.lock.readers.card
    unfold Threads.weight at hlen
    omega
  cases hi : s.inside i with
  | some u =>
    obtain ⟨d, p⟩ := u
    obtain rfl : d = c := Option.some.inj ((h.called hi).symm.trans hc)
    obtain ⟨sched, t, -, hrun, -, hleft⟩ := h.leaves hd hlog hi
    obtain ⟨r, hr⟩ := hleft.past
    exact ⟨sched, t, r, hrun, hr⟩
  | none =>
    -- first the others leave
    obtain ⟨sched, t, base', hrun, ht, hfree, hit, hpt, hlt⟩ : ∃ sched t base',
        s.run code client sched = .ok t ∧ Serial code client m₀ Good t base' ∧
          t.lock = ⟨none, ∅⟩ ∧ t.inside i = none ∧ t.past i = s.past i ∧ t.log.length < bound := by
      cases hw : s.lock.writer with
      | none => exact h.readers_leave hd (by omega) hw hi
      | some j =>
        have hji : j ≠ i := by
          rintro rfl
          exact (h.outside hi).1 hw
        cases hin : s.inside j with
        | none => exact absurd hw (h.outside hin).1
        | some u =>
          obtain ⟨d, p⟩ := u
          obtain ⟨sched, t, base', hrun, ht, hleft⟩ := h.leaves hd hlog hin
          obtain ⟨hout, hpast⟩ := hleft.others i (Ne.symm hji)
          refine ⟨sched, t, base', hrun, ht, ?_, hout.trans hi, hpast, ?_⟩
          · rw [hleft.lock, Rwlock.release, if_pos hw, h.alone (by rw [hw]; simp)]
          · rw [hleft.log]
            unfold Threads.weight at hlen
            omega
    -- then the thread gets the lock and goes on until it leaves
    have hnone : t.lock.writer = none := by rw [hfree]
    have hempty : t.lock.readers = ∅ := by rw [hfree]
    obtain ⟨lock, hlock⟩ := Rwlock.acquire_free hnone hempty (code c).exclusive i
    have hct : client i (t.past i) = some c := by rw [hpt, hc]
    have henter := ht.enter hd hit hct hlock
    obtain ⟨sched', u, -, hrun', -, hleft⟩ := henter.leaves hd hlt (Function.update_self ..)
    obtain ⟨r, hr⟩ := hleft.past
    refine ⟨sched ++ i :: sched', u, r, ?_, hr.trans ?_⟩
    · rw [Threads.run_append, hrun]
      refine Threads.run_cons_ok ?_ hrun'
      unfold Threads.turn
      rw [hit]
      simp only [hct, hlock]
    · change t.past i ++ _ = _
      rw [hpt]

end CcUtils.Lib
