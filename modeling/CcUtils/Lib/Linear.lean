import CcUtils.Lib.Rwlock

/-!
# Locked data types are linearizable

A library: an abstract data type with the rules for its calls, and an implementation whose calls run under
one reader-writer lock. The threads' calls may be chosen by what earlier ones returned. That the threads
keep to the rules is asked for histories of whole calls only, where nothing is interleaved.

## What is proved

* `Implements.disciplined` — a correct implementation keeps its representation, call after call.
* `linearizable` — under every schedule the calls return what one history of whole calls returns, and
  every call can still return.
-/

namespace CcUtils.Lib

variable {ι σ κ ρ α : Type} [DecidableEq ι]

/-- An abstract data type: what a call does to its value and what it returns, and which calls the rules
allow. -/
structure DataType (κ α ρ : Type) where
  init : α
  after : α → κ → α
  ret : α → κ → ρ
  Allowed : α → κ → Prop

/-- The threads' calls made whole, one after another, from the first value. -/
inductive History (code : κ → Locked σ ρ) (client : ι → List (κ × Option ρ) → Option κ)
    (D : DataType κ α ρ) : List (ι × κ × Option ρ) → α → Prop
  | init : History code client D [] D.init
  | call {log a i c} : History code client D log a → client i (callsOf i log) = some c →
      History code client D (log ++ [(i, c, some (D.ret a c))]) (D.after a c)
  | giveUp {log a i c} : History code client D log a → client i (callsOf i log) = some c →
      (code c).waits = false → History code client D (log ++ [(i, c, none)]) a

/-- In histories of whole calls the threads keep to the rules. -/
def KeepsRules (code : κ → Locked σ ρ) (client : ι → List (κ × Option ρ) → Option κ)
    (D : DataType κ α ρ) : Prop :=
  ∀ log a i c, History code client D log a → client i (callsOf i log) = some c → D.Allowed a c

/-- The bodies, run whole, do what the calls are for, on values of a size below the bound. -/
structure Implements (code : κ → Locked σ ρ) (D : DataType κ α ρ) (Rep : σ → α → Prop)
    (size : α → ℕ) (bound : ℕ) : Prop where
  shared : ∀ c, (code c).exclusive = false → (code c).body.ReadOnly
  init : size D.init = 0
  grows : ∀ a c, size (D.after a c) ≤ size a + 1
  call : ∀ {m a c}, Rep m a → D.Allowed a c → size a < bound →
    Post ((code c).body.run m) fun u => u.2 = D.ret a c ∧ Rep u.1 (D.after a c)

variable {code : κ → Locked σ ρ} {client : ι → List (κ × Option ρ) → Option κ}
  {D : DataType κ α ρ} {Rep : σ → α → Prop} {size : α → ℕ} {bound : ℕ}

/-- A history can make the value only so large. -/
theorem History.size_le (himp : Implements code D Rep size bound) {log : List (ι × κ × Option ρ)}
    {a : α} (h : History code client D log a) : size a ≤ log.length := by
  induction h with
  | init => exact himp.init.le
  | call h hc ih =>
    rw [List.length_append, List.length_singleton]
    exact (himp.grows _ _).trans (Nat.succ_le_succ ih)
  | giveUp h hc hw ih =>
    rw [List.length_append, List.length_singleton]
    exact ih.trans (Nat.le_succ _)

/-- A correct implementation keeps its representation. -/
theorem Implements.disciplined (himp : Implements code D Rep size bound)
    (hrules : KeepsRules code client D) :
    Disciplined code client bound fun log m => ∃ a, History code client D log a ∧ Rep m a where
  shared := himp.shared
  call := by
    rintro log m i c hlen ⟨a, hlog, hm⟩ hc
    have hsize : size a < bound := lt_of_le_of_lt (hlog.size_le himp) hlen
    refine (himp.call hm (hrules log a i c hlog hc) hsize).mono fun u hu => ?_
    rw [hu.1]
    exact ⟨_, hlog.call hc, hu.2⟩
  giveUp := by
    rintro log m i c ⟨a, hlog, hm⟩ hc hw
    exact ⟨a, hlog.giveUp hc hw, hm⟩

/-- What the threads see is a history of whole calls. -/
structure Linearized (code : κ → Locked σ ρ) (client : ι → List (κ × Option ρ) → Option κ)
    (D : DataType κ α ρ) (Rep : σ → α → Prop) (s : Threads ι σ κ ρ) (a : α) : Prop where
  /-- The calls, in the order in which they let the lock go, are such a history, -/
  history : History code client D s.log a
  /-- of which each thread got its own part. -/
  threads : ∀ i, s.past i = callsOf i s.log
  /-- A thread inside exclusively is alone inside. -/
  alone : ∀ i j c d p q, s.inside i = some (c, p) → (code c).exclusive = true →
    s.inside j = some (d, q) → j = i
  /-- When none is inside exclusively, the memory holds the value. -/
  quiet : s.lock.writer = none → Rep s.mem a
  /-- Every call can still return. -/
  returns : ∀ i c, client i (s.past i) = some c → ∃ sched t r,
    s.run code client sched = .ok t ∧ t.past i = s.past i ++ [(c, some r)]

/-- **A locked implementation is linearizable.** -/
theorem linearizable (himp : Implements code D Rep size bound) (hrules : KeepsRules code client D)
    {m : σ} (hm : Rep m D.init) {sched : List ι} (hlen : sched.length + 1 < bound) :
    Post ((Threads.start m).run code client sched) fun s =>
      ∃ a, Linearized code client D Rep s a := by
  have hd := himp.disciplined hrules
  have hstart : Serial code client m (fun log m => ∃ a, History code client D log a ∧ Rep m a)
      (Threads.start m) m := Serial.start m ⟨D.init, .init, hm⟩
  have hzero : (Threads.start m : Threads ι σ κ ρ).weight = 0 := rfl
  have hbound : (Threads.start m : Threads ι σ κ ρ).weight + sched.length ≤ bound := by omega
  refine (run_serial hd hstart hbound).mono fun s hs => ?_
  obtain ⟨⟨base, hs⟩, hweight⟩ := hs
  obtain ⟨a, hlog, hbase⟩ := hs.good
  refine ⟨a, hlog, hs.past, fun i j c d p q hi hx hj => ?_, fun hw => ?_, fun i c hc => ?_⟩
  · exact hs.writer_alone ((hs.inside hi).writing hx) hj
  · rw [hs.quiet hw]
    exact hbase
  · exact hs.returns hd (by omega) hc

end CcUtils.Lib
