import CcUtils.Rbtree.Run

/-!
# The fault registry

`fault_inject.c`: named faults kept in a red-black tree sorted by name. A fault is switched on for
the callers that pass its name to `fault_inject_cond_get`, from one hit count up to another.

What the callbacks and `sleep` do outside the registry is a change of a world `ω`. An `int32_t` is
an `Int32` and wraps around. The heap is an oracle that says which record `malloc` returns and what
is in it.
-/

namespace CcUtils.Fault

open CcUtils.Lib CcUtils.Rbtree

variable {ω : Type}

/-- `FAULT_INJECT_NAME_SIZE`. -/
def nameSize : ℕ := 64

/-- `fault_inject_t`. -/
structure FaultInject where
  name : List UInt8
  length_name : name.length = nameSize
  enable : Bool
  sleepTime : Int32
  afterTimes : Int32
  enableTimes : Int32
  injectErr : Int32
  hitTimes : Int32
  priv : UInt64

/-- `priv_cb`, with what it changes in the world. -/
abbrev PrivCb (ω : Type) := UInt64 → UInt64 → ω → Bool × ω

/-- `fault_inject_internal_t`; the tree's node in it is known by its address. -/
structure FaultInjectInternal (ω : Type) where
  item : FaultInject
  callback : Option (PrivCb ω)

/-- The program's state: the tree in `faults`, the records by the addresses of their nodes, which of
them are allocated, how many were allocated so far, and the world. -/
structure Registry (ω : Type) where
  faults : Mem Unit
  record : NodeRef → FaultInjectInternal ω
  live : Finset NodeRef
  mallocs : ℕ
  world : ω

/-- The heap: the record that the `k`-th `malloc` returns when `live` is allocated, with the contents
it happens to have. -/
structure Allocator (ω : Type) where
  malloc : ℕ → Finset NodeRef → NodeRef × FaultInjectInternal ω
  fresh : ∀ k live, (malloc k live).1 ∉ live

/-- What the program calls: the heap and `sleep`. -/
structure Env (ω : Type) where
  heap : Allocator ω
  sleep : Int32 → ω → ω

/-! ### Finding a fault -/

/-- `cmp_node`. -/
def cmpNode (record : NodeRef → FaultInjectInternal ω) (a b : NodeRef) : ℤ :=
  strncmp nameSize (record a).item.name (record b).item.name

/-- `cmp_key`. -/
def cmpKey (record : NodeRef → FaultInjectInternal ω) (key : CString) (a : NodeRef) : ℤ :=
  strncmp nameSize key.val (record a).item.name

/-- `fault_inject_find`. -/
def faultInjectFind (fuel : ℕ) (s : Registry ω) (name : CString) : Exec (Option NodeRef) := do
  let node ← rbFindFirst (cmpKey s.record name) fuel s.faults
  if node = 0 then return none
  else do
    let a ← deref node
    return some a

/-- Change the record at an address. -/
def Registry.modify (s : Registry ω) (a : NodeRef)
    (f : FaultInjectInternal ω → FaultInjectInternal ω) : Registry ω :=
  { s with record := Function.update s.record a (f (s.record a)) }

/-- Change the item of a record. -/
def Registry.modifyItem (s : Registry ω) (a : NodeRef) (f : FaultInject → FaultInject) :
    Registry ω := s.modify a fun r => { r with item := f r.item }

/-! ### Changing a fault -/

/-- `fault_inject_reset`; `enable_times` is `INT_MAX`. -/
def faultInjectReset (f : FaultInject) : FaultInject :=
  { f with sleepTime := 0, enableTimes := Int32.maxValue, afterTimes := 0, enable := false,
           injectErr := 0, hitTimes := 0 }

/-- The body that the setters share: change the fault when there is one of this name. -/
def withFault (fuel : ℕ) (s : Registry ω) (name : CString) (f : FaultInject → FaultInject) :
    Exec (Registry ω) := do
  let fault ← faultInjectFind fuel s name
  match fault with
  | none => return s
  | some a => return s.modifyItem a f

/-- `fault_inject_disable`. -/
def faultInjectDisable (fuel : ℕ) (s : Registry ω) (name : CString) : Exec (Registry ω) :=
  withFault fuel s name fun f => { f with enable := false }

/-- `fault_inject_enable`. -/
def faultInjectEnable (fuel : ℕ) (s : Registry ω) (name : CString) : Exec (Registry ω) :=
  withFault fuel s name fun f => { f with enable := true }

/-- `fault_inject_reinit`. -/
def faultInjectReinit (fuel : ℕ) (s : Registry ω) (name : CString) : Exec (Registry ω) :=
  withFault fuel s name faultInjectReset

/-- `fault_inject_init`; it copies neither the name nor `priv`. -/
def faultInjectInit (fuel : ℕ) (s : Registry ω) (name : CString) (new : FaultInject) :
    Exec (Registry ω) :=
  withFault fuel s name fun f =>
    { f with sleepTime := new.sleepTime, enableTimes := new.enableTimes,
             afterTimes := new.afterTimes, enable := new.enable, injectErr := new.injectErr,
             hitTimes := new.hitTimes }

/-! ### Registering a fault -/

/-- The item with the name copied in. -/
def FaultInject.setName (f : FaultInject) (name : CString) : FaultInject :=
  { f with
    name := strncpy f.name name (nameSize - 1)
    length_name := by
      rw [length_strncpy name (by rw [f.length_name]; exact Nat.sub_le _ _), f.length_name] }

/-- `fault_inject_insert`. -/
def faultInjectInsert (env : Env ω) (fuel : ℕ) (s : Registry ω) (name : CString) :
    Exec (Registry ω × NodeRef) := do
  let (a, junk) := env.heap.malloc s.mallocs s.live
  let f : FaultInjectInternal ω := ⟨faultInjectReset (junk.item.setName name), none⟩
  let record := Function.update s.record a f
  let m ← rbAdd (cmpNode record) fuel s.faults a
  return (⟨m, record, insert a s.live, s.mallocs + 1, s.world⟩, a)

/-- `fault_inject_register`. -/
def faultInjectRegister (env : Env ω) (fuel : ℕ) (s : Registry ω) (name : CString) :
    Exec (Registry ω) := do
  let fault ← faultInjectFind fuel s name
  match fault with
  | none => do
    let (s, _) ← faultInjectInsert env fuel s name
    return s
  | some _ => return s

/-- `fault_inject_register_priv`. -/
def faultInjectRegisterPriv (env : Env ω) (fuel : ℕ) (s : Registry ω) (name : CString)
    (cb : Option (PrivCb ω)) : Exec (Registry ω) := do
  let fault ← faultInjectFind fuel s name
  match fault with
  | none => do
    let (s, a) ← faultInjectInsert env fuel s name
    return s.modify a fun r => { r with callback := cb }
  | some _ => return s

/-- `fault_inject_unregister`, with `fault_inject_del`. -/
def faultInjectUnregister (fuel : ℕ) (s : Registry ω) (name : CString) : Exec (Registry ω) := do
  let fault ← faultInjectFind fuel s name
  match fault with
  | none => return s
  | some a => do
    let m ← rbErase fuel s.faults a
    return { s with faults := m, live := s.live.erase a }

/-! ### Hitting a fault -/

/-- The end of `fault_inject_cond_get`, once the hit is counted: whether the fault is returned, and
the world after the callback and `sleep`. -/
def fire (sleep : Int32 → ω → ω) (r : FaultInjectInternal ω) (privArg : UInt64) (w : ω) :
    Bool × ω :=
  let f := r.item
  let times := f.hitTimes
  if times ≤ f.afterTimes ∨ times - f.afterTimes > f.enableTimes then (false, w)
  else
    let (hit, w) :=
      match r.callback with
      | none => (true, w)
      | some cb => cb privArg f.priv w
    if hit then (true, if f.sleepTime > 0 then sleep f.sleepTime w else w) else (false, w)

/-- `fault_inject_cond_get`. -/
def faultInjectCondGet (env : Env ω) (fuel : ℕ) (s : Registry ω) (name : CString)
    (privArg : UInt64) : Exec (Registry ω × Option NodeRef) := do
  let fault ← faultInjectFind fuel s name
  match fault with
  | none => return (s, none)
  | some a =>
    if (s.record a).item.enable then
      let s := s.modifyItem a fun f => { f with hitTimes := f.hitTimes + 1 }
      let (hit, w) := fire env.sleep (s.record a) privArg s.world
      return ({ s with world := w }, if hit then some a else none)
    else return (s, none)

end CcUtils.Fault
