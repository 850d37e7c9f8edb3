import CcUtils.Lib.Linear

/-!
# The spinlock of `spin.h`

`spinlock_acquire` sets the flag until it finds it clear, and while it is set it only looks at it;
`spinlock_try_acquire` sets it once and returns what was there; `spinlock_release` clears it. Threads enter
their sections by one of the first two and leave by the third, an access a turn.

## What is proved

* `Spins.turn_follows` — a turn is a turn of the threads under an abstract lock, or none.
* `spin_linearizable` — sections under the spinlock that do what their calls are for are linearizable, and at
  most one thread is inside.
-/

namespace CcUtils.Queue

open CcUtils.Lib

variable {ι σ κ ρ α : Type} [DecidableEq ι]

/-! ### The system -/

/-- Where a thread is: in no call, in the outer or the inner loop of `spinlock_acquire`, or in its
section. -/
inductive SpinAt (σ κ ρ : Type) where
  | out
  /-- About to set the flag. -/
  | set (c : κ)
  /-- About to look at the flag. -/
  | look (c : κ)
  | body (c : κ) (p : Prog σ ρ)

/-- The shared memory, the flag of the lock and the threads, with the calls that are over. -/
structure Spins (ι σ κ ρ : Type) where
  mem : σ
  val : Bool
  thread : ι → SpinAt σ κ ρ
  past : ι → List (κ × Option ρ)
  log : List (ι × κ × Option ρ)

/-- The thread goes to another point. -/
def Spins.goto (s : Spins ι σ κ ρ) (i : ι) (t : SpinAt σ κ ρ) : Spins ι σ κ ρ :=
  { s with thread := Function.update s.thread i t }

/-- The call of the thread returns. -/
def Spins.returned (s : Spins ι σ κ ρ) (i : ι) (c : κ) (r : Option ρ) : Spins ι σ κ ρ :=
  { s.goto i .out with
    past := Function.update s.past i (s.past i ++ [(c, r)])
    log := s.log ++ [(i, c, r)] }

/-- `atomic_flag_test_and_set_explicit`: the flag is set, and was `s.val`. -/
def Spins.testAndSet (s : Spins ι σ κ ρ) : Spins ι σ κ ρ × Bool := ({ s with val := true }, s.val)

/-- No thread has made a call. -/
def Spins.start (m : σ) : Spins ι σ κ ρ := ⟨m, false, fun _ => .out, fun _ => [], []⟩

section

variable (code : κ → Locked σ ρ) (client : ι → List (κ × Option ρ) → Option κ)

/-- The flag is set for the call `c`. A call that waits does so by `spinlock_acquire`; one that does not
calls `spinlock_try_acquire`, and gives up if that returns true. -/
def Spins.enter (s : Spins ι σ κ ρ) (i : ι) (c : κ) : Spins ι σ κ ρ :=
  match s.testAndSet with
  | (s, false) => s.goto i (.body c (code c).body)
  | (s, true) => if (code c).waits then s.goto i (.look c) else s.returned i c none

/-- A turn of a thread. -/
def Spins.turn (s : Spins ι σ κ ρ) (i : ι) : Exec (Spins ι σ κ ρ) :=
  match s.thread i with
  | .out =>
    match client i (s.past i) with
    | none => .ok s
    | some c => .ok (s.enter code i c)
  | .set c => .ok (s.enter code i c)
  | .look c => .ok (if s.val then s else s.goto i (.set c))
  | .body c (.ret r) => .ok ({ s with val := false }.returned i c (some r))
  | .body c (.load next) => .ok (s.goto i (.body c (next s.mem)))
  | .body c (.store f next) => .ok ({ s with mem := f s.mem }.goto i (.body c next))
  | .body _ (.fault e) => .error e

/-- A run under a schedule. -/
def Spins.run (s : Spins ι σ κ ρ) (sched : List ι) : Exec (Spins ι σ κ ρ) :=
  sched.foldlM (Spins.turn code client) s

end

/-! ### The lock it is -/

/-- The section a thread is in. -/
def SpinAt.section : SpinAt σ κ ρ → Option (κ × Prog σ ρ)
  | .body c p => some (c, p)
  | _ => none

/-- The call a thread waits in. -/
def SpinAt.waiting : SpinAt σ κ ρ → Option κ
  | .set c => some c
  | .look c => some c
  | _ => none

/-- The threads under the abstract lock: the flag is set when a thread has it, and the loops wait in calls
that wait. -/
structure Follows (code : κ → Locked σ ρ) (client : ι → List (κ × Option ρ) → Option κ)
    (s : Spins ι σ κ ρ) (t : Threads ι σ κ ρ) : Prop where
  mem : s.mem = t.mem
  past : s.past = t.past
  log : s.log = t.log
  inside : ∀ i, (s.thread i).section = t.inside i
  flag : s.val = t.lock.writer.isSome
  readers : t.lock.readers = ∅
  owner : ∀ i, t.inside i ≠ none → t.lock.writer = some i
  waiting : ∀ i c, (s.thread i).waiting = some c →
    client i (s.past i) = some c ∧ (code c).waits = true

variable {code : κ → Locked σ ρ} {client : ι → List (κ × Option ρ) → Option κ}
  {s : Spins ι σ κ ρ} {t : Threads ι σ κ ρ} {i : ι} {c : κ}

/-- A move that the abstract threads do not see. -/
theorem Follows.goto (h : Follows code client s t) {u : SpinAt σ κ ρ}
    (hu : u.section = (s.thread i).section)
    (hwait : ∀ c, u.waiting = some c → client i (s.past i) = some c ∧ (code c).waits = true) :
    Follows code client (s.goto i u) t := by
  refine { h with inside := fun j => ?_, waiting := fun j c hj => ?_ }
  · by_cases hji : j = i
    · subst hji
      simp only [Spins.goto, Function.update_self, hu, h.inside]
    · simp only [Spins.goto, Function.update_of_ne hji, h.inside]
  · by_cases hji : j = i
    · subst hji
      simp only [Spins.goto, Function.update_self] at hj
      exact hwait c hj
    · simp only [Spins.goto, Function.update_of_ne hji] at hj
      exact h.waiting j c hj

/-- A move inside the section. -/
theorem Follows.move (h : Follows code client s t) (hi : t.inside i ≠ none) (m : σ) (c : κ)
    (p : Prog σ ρ) : Follows code client ({ s with mem := m }.goto i (.body c p))
      ({ t with mem := m }.goOn i c p) := by
  refine { h with mem := rfl, inside := fun j => ?_, owner := fun j hj => ?_,
                  waiting := fun j d hj => ?_ }
  · by_cases hji : j = i
    · subst hji
      simp [Spins.goto, Threads.goOn, SpinAt.section]
    · simp only [Spins.goto, Threads.goOn, Function.update_of_ne hji, h.inside]
  · by_cases hji : j = i
    · subst hji
      exact h.owner j hi
    · simp only [Threads.goOn, Function.update_of_ne hji] at hj
      exact h.owner j hj
  · by_cases hji : j = i
    · subst hji
      simp [Spins.goto, SpinAt.waiting] at hj
    · simp only [Spins.goto, Function.update_of_ne hji] at hj
      exact h.waiting j d hj

/-- The lock is free and the thread gets it. -/
theorem Follows.enter (h : Follows code client s t) (hfree : t.lock.writer = none) (c : κ)
    (p : Prog σ ρ) : Follows code client ({ s with val := true }.goto i (.body c p))
      ({ t with lock := ⟨some i, ∅⟩ }.goOn i c p) := by
  refine { h with inside := fun j => ?_, flag := rfl, readers := rfl, owner := fun j hj => ?_,
                  waiting := fun j d hj => ?_ }
  · by_cases hji : j = i
    · subst hji
      simp [Spins.goto, Threads.goOn, SpinAt.section]
    · simp only [Spins.goto, Threads.goOn, Function.update_of_ne hji, h.inside]
  · by_cases hji : j = i
    · rw [hji]
      rfl
    · simp only [Threads.goOn, Function.update_of_ne hji] at hj
      have hw := h.owner j hj
      rw [hfree] at hw
      cases hw
  · by_cases hji : j = i
    · subst hji
      simp [Spins.goto, SpinAt.waiting] at hj
    · simp only [Spins.goto, Function.update_of_ne hji] at hj
      exact h.waiting j d hj

/-- The call of a thread is over that is not inside any more, or gives up. -/
theorem Follows.returned (h : Follows code client s t) (hi : t.inside i = none) (c : κ)
    (r : Option ρ) : Follows code client (s.returned i c r) (t.returned i c r) := by
  refine { h with past := ?_, log := ?_, inside := fun j => ?_, waiting := fun j d hj => ?_ }
  · change Function.update s.past i _ = Function.update t.past i _
    rw [h.past]
  · change s.log ++ _ = t.log ++ _
    rw [h.log]
  · by_cases hji : j = i
    · subst hji
      simp [Spins.returned, Spins.goto, Threads.returned, SpinAt.section, hi]
    · simp only [Spins.returned, Spins.goto, Threads.returned, Function.update_of_ne hji, h.inside]
  · by_cases hji : j = i
    · subst hji
      simp [Spins.returned, Spins.goto, SpinAt.waiting] at hj
    · simp only [Spins.returned, Spins.goto, Function.update_of_ne hji] at hj ⊢
      exact h.waiting j d hj

/-- The thread lets the lock go. -/
theorem Follows.leave (h : Follows code client s t) (hi : t.inside i ≠ none) :
    Follows code client ({ s with val := false }.goto i .out) (t.leave i) := by
  have hw := h.owner i hi
  have hlock : t.lock.release i = ⟨none, ∅⟩ := by
    rw [Rwlock.release, if_pos hw, h.readers]
  refine { h with inside := fun j => ?_, flag := ?_, readers := ?_, owner := fun j hj => ?_,
                  waiting := fun j d hj => ?_ }
  · by_cases hji : j = i
    · subst hji
      simp [Spins.goto, Threads.leave, SpinAt.section]
    · simp only [Spins.goto, Threads.leave, Function.update_of_ne hji, h.inside]
  · change false = (t.lock.release i).writer.isSome
    rw [hlock]
    rfl
  · change (t.lock.release i).readers = ∅
    rw [hlock]
  · by_cases hji : j = i
    · subst hji
      simp [Threads.leave] at hj
    · simp only [Threads.leave, Function.update_of_ne hji] at hj
      exact absurd (Option.some.inj (hw.symm.trans (h.owner j hj))).symm hji
  · by_cases hji : j = i
    · subst hji
      simp [Spins.goto, SpinAt.waiting] at hj
    · simp only [Spins.goto, Function.update_of_ne hji] at hj
      exact h.waiting j d hj

/-- One run leads to a state that follows the other's, or both end with the same fault. -/
def RunsWith (code : κ → Locked σ ρ) (client : ι → List (κ × Option ρ) → Option κ) :
    Exec (Spins ι σ κ ρ) → Exec (Threads ι σ κ ρ) → Prop
  | .ok s, .ok t => Follows code client s t
  | .error e, .error e' => e = e'
  | _, _ => False

/-- A thread outside sets the flag for its call. -/
theorem Follows.enters (h : Follows code client s t) (hexcl : ∀ c, (code c).exclusive = true)
    (hi : t.inside i = none) (hc : client i (s.past i) = some c) :
    ∃ sched, sched.length ≤ 1 ∧
      RunsWith code client (.ok (s.enter code i c)) (t.run code client sched) := by
  have hct : client i (t.past i) = some c := by rw [← h.past, hc]
  have hsection : (s.thread i).section = none := (h.inside i).trans hi
  cases hval : s.val with
  | false =>
    -- the lock is free
    have hfree : t.lock.writer = none := by
      have hflag := h.flag
      rw [hval] at hflag
      exact Option.not_isSome_iff_eq_none.mp (by simp [← hflag])
    have hacquire : t.lock.acquire (code c).exclusive i = some ⟨some i, ∅⟩ := by
      rw [hexcl, Rwlock.acquire, if_pos rfl, if_pos ⟨hfree, h.readers⟩]
    have hturn : t.run code client [i] =
        .ok ({ t with lock := ⟨some i, ∅⟩ }.goOn i c (code c).body) := by
      refine Threads.run_cons_ok ?_ rfl
      unfold Threads.turn
      simp only [hi, hct, hacquire]
    refine ⟨[i], le_rfl, ?_⟩
    rw [hturn, Spins.enter, Spins.testAndSet, hval]
    exact h.enter hfree c (code c).body
  | true =>
    have hset : s.testAndSet = (s, true) := by
      rw [Spins.testAndSet, hval, ← hval]
    cases hw : (code c).waits with
    | true =>
      refine ⟨[], Nat.zero_le 1, ?_⟩
      rw [Spins.enter, hset]
      simp only [hw, if_true]
      refine h.goto hsection.symm fun d hd => ?_
      obtain rfl := Option.some.inj hd
      exact ⟨hc, hw⟩
    | false =>
      obtain ⟨j, hj⟩ : ∃ j, t.lock.writer = some j := by
        rw [← Option.isSome_iff_exists, ← h.flag, hval]
      have hacquire : t.lock.acquire (code c).exclusive i = none := by
        rw [hexcl, Rwlock.acquire, if_pos rfl, if_neg (by simp [hj])]
      have hturn : t.run code client [i] = .ok (t.returned i c none) := by
        refine Threads.run_cons_ok ?_ rfl
        unfold Threads.turn
        simp only [hi, hct, hacquire, hw, Bool.false_eq_true, if_false]
      refine ⟨[i], le_rfl, ?_⟩
      rw [hturn, Spins.enter, hset]
      simp only [hw, Bool.false_eq_true, if_false]
      exact h.returned hi c none

/-- **A turn** is a turn of the threads under the abstract lock, or none. -/
theorem Spins.turn_follows (h : Follows code client s t) (hexcl : ∀ c, (code c).exclusive = true)
    (i : ι) : ∃ sched, sched.length ≤ 1 ∧
      RunsWith code client (s.turn code client i) (t.run code client sched) := by
  have hin := h.inside i
  unfold Spins.turn
  cases hi : s.thread i with
  | out =>
    rw [hi] at hin
    simp only
    cases hc : client i (s.past i) with
    | none => exact ⟨[], Nat.zero_le 1, h⟩
    | some c => exact h.enters hexcl hin.symm hc
  | set c =>
    rw [hi] at hin
    obtain ⟨hc, -⟩ := h.waiting i c (by rw [hi]; rfl)
    exact h.enters hexcl hin.symm hc
  | look c =>
    rw [hi] at hin
    refine ⟨[], Nat.zero_le 1, ?_⟩
    cases hval : s.val with
    | true => exact h
    | false =>
      refine h.goto (by rw [hi]; rfl) fun d hd => h.waiting i d ?_
      rw [hi]
      exact hd
  | body c p =>
    rw [hi] at hin
    have hsome : t.inside i ≠ none := by
      rw [← hin]
      simp [SpinAt.section]
    cases p with
    | ret r =>
      have hturn : t.run code client [i] = .ok ((t.leave i).returned i c (some r)) := by
        refine Threads.run_cons_ok ?_ rfl
        unfold Threads.turn
        rw [← hin]
        rfl
      refine ⟨[i], le_rfl, ?_⟩
      rw [hturn]
      have hleft := (h.leave hsome).returned (i := i) (Function.update_self ..) c (some r)
      have hgoto : ({ s with val := false }.goto i .out).returned i c (some r) =
          { s with val := false }.returned i c (some r) := by
        simp [Spins.returned, Spins.goto]
      rw [hgoto] at hleft
      exact hleft
    | load next =>
      have hturn : t.run code client [i] = .ok (t.goOn i c (next t.mem)) := by
        refine Threads.run_cons_ok ?_ rfl
        unfold Threads.turn
        rw [← hin]
        rfl
      refine ⟨[i], le_rfl, ?_⟩
      rw [hturn, ← h.mem]
      have hmove := h.move hsome s.mem c (next s.mem)
      rw [show ({ t with mem := s.mem } : Threads ι σ κ ρ) = t by rw [h.mem]] at hmove
      exact hmove
    | store f next =>
      have hturn : t.run code client [i] = .ok ({ t with mem := f t.mem }.goOn i c next) := by
        refine Threads.run_cons_ok ?_ rfl
        unfold Threads.turn
        rw [← hin]
        rfl
      refine ⟨[i], le_rfl, ?_⟩
      rw [hturn, ← h.mem]
      exact h.move hsome (f s.mem) c next
    | fault e =>
      have hturn : t.run code client [i] = .error e := by
        rw [Threads.run, List.foldlM_cons]
        unfold Threads.turn
        rw [← hin]
        rfl
      refine ⟨[i], le_rfl, ?_⟩
      rw [hturn]
      rfl

/-- A run, by induction on the schedule. -/
theorem Spins.run_follows (h : Follows code client s t) (hexcl : ∀ c, (code c).exclusive = true)
    (sched : List ι) : ∃ sched', sched'.length ≤ sched.length ∧
      RunsWith code client (s.run code client sched) (t.run code client sched') := by
  induction sched generalizing s t with
  | nil => exact ⟨[], le_rfl, h⟩
  | cons i sched ih =>
    obtain ⟨one, hone, hturn⟩ := Spins.turn_follows h hexcl i
    rw [Spins.run, List.foldlM_cons]
    cases hs : s.turn code client i with
    | error e =>
      rw [hs] at hturn
      cases ht : t.run code client one with
      | ok t' =>
        rw [ht] at hturn
        exact hturn.elim
      | error e' =>
        rw [ht] at hturn
        obtain rfl : e = e' := hturn
        refine ⟨one, hone.trans (by simp), ?_⟩
        rw [ht]
        rfl
    | ok s' =>
      rw [hs] at hturn
      cases ht : t.run code client one with
      | error e' =>
        rw [ht] at hturn
        exact hturn.elim
      | ok t' =>
        rw [ht] at hturn
        obtain ⟨sched', hlen, hrun⟩ := ih hturn
        refine ⟨one ++ sched', ?_, ?_⟩
        · rw [List.length_append, List.length_cons]
          omega
        · rw [Threads.run_append, ht]
          exact hrun

theorem Follows.start {ι σ κ ρ : Type}
    (code : κ → Locked σ ρ) (client : ι → List (κ × Option ρ) → Option κ) (m : σ) :
    Follows code client (Spins.start m) (Threads.start m) where
  mem := rfl
  past := rfl
  log := rfl
  inside _ := rfl
  flag := rfl
  readers := rfl
  owner _ hi := absurd rfl hi
  waiting _ _ hw := nomatch hw

/-! ### Sections under the spinlock -/

/-- What the threads see is a history of whole calls, and at most one of them is in its section. -/
structure SpinLinearized (code : κ → Locked σ ρ) (client : ι → List (κ × Option ρ) → Option κ)
    (D : DataType κ α ρ) (Rep : σ → α → Prop) (s : Spins ι σ κ ρ) (a : α) : Prop where
  history : History code client D s.log a
  threads : ∀ i, s.past i = callsOf i s.log
  alone : ∀ i j, (s.thread i).section ≠ none → (s.thread j).section ≠ none → i = j
  quiet : s.val = false → Rep s.mem a

/-- **Sections under the spinlock are linearizable**, if run whole they do what their calls are for. -/
theorem spin_linearizable {D : DataType κ α ρ} {Rep : σ → α → Prop} {size : α → ℕ} {bound : ℕ}
    (himp : Implements code D Rep size bound) (hexcl : ∀ c, (code c).exclusive = true)
    (hrules : KeepsRules code client D) {m : σ} (hm : Rep m D.init) {sched : List ι}
    (hlen : sched.length + 1 < bound) :
    Post ((Spins.start m).run code client sched) fun s =>
      ∃ a, SpinLinearized code client D Rep s a := by
  obtain ⟨sched', hlen', hrun⟩ := Spins.run_follows (Follows.start code client m) hexcl sched
  have hbound : sched'.length + 1 < bound := by omega
  obtain ⟨t, ht, a, hlin⟩ := linearizable himp hrules hm hbound
  rw [ht] at hrun
  cases hs : (Spins.start m).run code client sched with
  | error e =>
    rw [hs] at hrun
    exact hrun.elim
  | ok s =>
    rw [hs] at hrun
    have hf : Follows code client s t := hrun
    refine Post.ok ⟨a, ?_, fun i => ?_, fun i j hi hj => ?_, fun hval => ?_⟩
    · rw [hf.log]
      exact hlin.history
    · rw [hf.past, hf.log]
      exact hlin.threads i
    · rw [hf.inside] at hi hj
      exact Option.some.inj ((hf.owner i hi).symm.trans (hf.owner j hj))
    · rw [hf.mem]
      refine hlin.quiet ?_
      have hflag := hf.flag
      rw [hval] at hflag
      exact Option.not_isSome_iff_eq_none.mp (by simp [← hflag])

/-- A counter that is read and then stored to: by calls that wait for the lock, and by calls that do not. -/
def counterCode (waits : Bool) : Locked ℕ ℕ where
  exclusive := true
  waits
  body := do
    let n ← .read fun m => m
    .write fun _ => n + 1
    return n

/-- The calls count. -/
def counter : DataType Bool ℕ ℕ where
  init := 0
  after n _ := n + 1
  ret n _ := n
  Allowed _ _ := True

theorem counter_implements (bound : ℕ) :
    Implements counterCode counter (fun m n => m = n) (fun n => n) bound where
  shared _ h := nomatch h
  init := rfl
  grows _ _ := le_rfl
  call := by
    rintro m _ c rfl - -
    exact Post.ok ⟨rfl, rfl⟩

/-- Two threads count: one waits for the lock, the other finds it taken and gives up. -/
theorem spin_linearizable_counter :
    Post ((Spins.start 0).run counterCode (fun i : Bool => fun past => if past = [] then some i else none)
      [true, true, false, true, true, false, true]) fun s =>
        ∃ a, SpinLinearized counterCode (fun i => fun past => if past = [] then some i else none) counter
          (fun m n => m = n) s a :=
  spin_linearizable (counter_implements 9) (fun _ => rfl) (fun _ _ _ _ _ _ => trivial) rfl (by decide)

end CcUtils.Queue
