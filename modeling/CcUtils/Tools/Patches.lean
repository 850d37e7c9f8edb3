import CcUtils.Tools.Mock

/-!
# Many functions that are patched

A test has several mocks and sets and resets them, each on any function, in any order, and the system may refuse
any of the changes. What comes of it is said by where the calls of each function go, and by what each mock has
saved: a `mock_set` saves where they went, and a `mock_reset` brings that back.

## What is proved

* `CodeHolds.rewritten` — the first bytes of a function can be replaced, and nothing else changes.
* `mockSet_rewritten`, `mockReset_rewritten` — which both functions do.
* `mockRun_refines` — so every run leaves the code as where the calls go says.
* `mockRun_nested` — and after a run of nested patches it is as before.
-/

namespace CcUtils.Tools

open CcUtils.Lib

/-! ### Runs -/

/-- A call on one of the mocks. -/
inductive MockOp (ι : Type) where
  /-- `mock_set`. -/
  | set (i : ι) (fn mockFn : BitVec 64)
  /-- `mock_reset`. -/
  | reset (i : ι)

/-- The mocks, and the code. -/
structure Tested (ι : Type) where
  mocks : ι → Mock mockLen
  code : Paged

section runs

variable {ι : Type} [DecidableEq ι]

/-- The call, and what it returns. -/
def MockOp.exec (s : Tested ι) : MockOp ι → Exec (Tested ι × Int32)
  | .set i fn mockFn => do
    let (ret, m, code) ← mockSet (s.mocks i) s.code fn mockFn
    .ok (⟨Function.update s.mocks i m, code⟩, ret)
  | .reset i => do
    let (ret, code) ← mockReset (s.mocks i) s.code
    .ok (⟨s.mocks, code⟩, ret)

/-- The calls, one after the other. -/
def mockRun : Tested ι → List (MockOp ι) → Exec (Tested ι × List Int32)
  | s, [] => .ok (s, [])
  | s, op :: ops => do
    let (s, ret) ← op.exec s
    let (s, rets) ← mockRun s ops
    .ok (s, ret :: rets)

/-! ### Where calls go -/

/-- Where the calls of a function go if it is patched, and what each mock has saved, of which function. -/
structure Redirects (ι : Type) where
  target : BitVec 64 → Option (BitVec 64)
  saved : ι → Option (BitVec 64 × Option (BitVec 64))

/-- Nothing is patched yet. -/
def Redirects.empty : Redirects ι := ⟨fun _ => none, fun _ => none⟩

/-- What a call changes if the system lets it write. -/
def MockOp.apply (r : Redirects ι) : MockOp ι → Redirects ι
  | .set i fn mockFn =>
    ⟨Function.update r.target fn (some mockFn), Function.update r.saved i (some (fn, r.target fn))⟩
  | .reset i =>
    match r.saved i with
    | some (fn, target) => ⟨Function.update r.target fn target, r.saved⟩
    | none => r

/-- The calls with the answers of the system: where the calls of the functions go, and what is returned. -/
def runSpec : (ℕ → Int32) → Redirects ι → List (MockOp ι) → Redirects ι × List Int32
  | _, r, [] => (r, [])
  | answers, r, op :: ops =>
    if answers 0 = 0 then
      let (r, rets) := runSpec (fun i => answers (i + 2)) (op.apply r) ops
      (r, answers 1 :: rets)
    else
      let (r, rets) := runSpec (fun i => answers (i + 1)) r ops
      (r, answers 0 :: rets)

/-- Functions whose first five bytes are in one page, and apart from those of the others. -/
structure Functions where
  entries : Set (BitVec 64)
  inPage : ∀ fn ∈ entries, ¬ Crosses fn
  apart : ∀ fn ∈ entries, ∀ fn' ∈ entries, fn ≠ fn' → ∀ i < 5, ∀ j < 5,
    fn + BitVec.ofNat 64 i ≠ fn' + BitVec.ofNat 64 j

/-- One of the functions is patched, or a mock is reset that has saved something. -/
def MockOp.Usable (fs : Functions) (r : Redirects ι) : MockOp ι → Prop
  | .set _ fn _ => fn ∈ fs.entries
  | .reset i => r.saved i ≠ none

/-- So it is with all calls of a run. -/
def UsableRun (fs : Functions) : (ℕ → Int32) → Redirects ι → List (MockOp ι) → Prop
  | _, _, [] => True
  | answers, r, op :: ops => op.Usable fs r ∧
    if answers 0 = 0 then UsableRun fs (fun i => answers (i + 2)) (op.apply r) ops
    else UsableRun fs (fun i => answers (i + 1)) r ops

end runs

/-! ### The code -/

/-- The first bytes of a function with its calls going somewhere. -/
def entryBytes (mem : BitVec 64 → UInt8) (fn : BitVec 64) : Option (BitVec 64) → List UInt8
  | none => (List.range 5).map fun i => mem (fn + BitVec.ofNat 64 i)
  | some mockFn => jmpBytes fn mockFn

/-- Memory is what it was, but for the jumps; what is patched can be run, and every byte was written to a page
that was open. -/
structure CodeHolds (fs : Functions) (mem : BitVec 64 → UInt8) (target : BitVec 64 → Option (BitVec 64))
    (c : Paged) : Prop where
  entry : ∀ fn ∈ fs.entries, c.Holds fn (entryBytes mem fn (target fn))
  elsewhere : ∀ x, (∀ fn ∈ fs.entries, ∀ i < 5, x ≠ fn + BitVec.ofNat 64 i) → c.mem x = mem x
  exec : ∀ fn ∈ fs.entries, target fn ≠ none → (c.prot (pageOf fn)).exec = true
  owned : Owned c.log

/-- The first bytes of a function are replaced, and then the page is closed if the system does as it is told. -/
def rewritten (c : Paged) (fn : BitVec 64) (bs : List UInt8) : Paged × Int32 :=
  ((openedFor c fn).put fn bs).mprotect (pageOf fn) mprotectRx

section code

variable {fs : Functions} {mem : BitVec 64 → UInt8} {target : BitVec 64 → Option (BitVec 64)} {c : Paged}
  {fn : BitVec 64} {bs : List UInt8}

@[simp] theorem length_entryBytes (mem : BitVec 64 → UInt8) (fn : BitVec 64) (t : Option (BitVec 64)) :
    (entryBytes mem fn t).length = 5 := by
  cases t <;> simp [entryBytes]

theorem mem_rewritten (c : Paged) (fn : BitVec 64) (bs : List UInt8) :
    (rewritten c fn bs).1.mem = (c.put fn bs).mem := by
  have hput : ∀ (c c' : Paged) (a : BitVec 64), c.mem = c'.mem → (c.put a bs).mem = (c'.put a bs).mem := by
    induction bs with
    | nil => exact fun _ _ _ h => h
    | cons b bs ih =>
      intro c c' a h
      apply ih
      rw [Paged.mem_put1, Paged.mem_put1, h]
  rw [rewritten, Paged.mem_mprotect]
  exact hput _ _ _ rfl

theorem rewritten_ret (c : Paged) (fn : BitVec 64) (bs : List UInt8) : (rewritten c fn bs).2 = c.answers 1 := by
  rw [rewritten, Paged.mprotect, Paged.answers_put]
  rfl

theorem answers_rewritten (c : Paged) (fn : BitVec 64) (bs : List UInt8) :
    (rewritten c fn bs).1.answers = fun i => c.answers (i + 2) := by
  funext i
  rw [rewritten, Paged.mprotect]
  split <;> simp [Paged.shift, Paged.grant, openedFor]

theorem exec_rewritten {page : BitVec 64} (h : page = pageOf fn ∨ (c.prot page).exec = true) :
    ((rewritten c fn bs).1.prot page).exec = true := by
  have hprot : ∀ (c : Paged) (a : BitVec 64), (c.put a bs).prot = c.prot := by
    induction bs with
    | nil => exact fun _ _ => rfl
    | cons b bs ih => exact fun _ _ => ih _ _
  have hopen : ((openedFor c fn).prot page).exec = true := by
    rw [openedFor, Paged.prot_grant]
    by_cases hpage : page = pageOf fn
    · rw [hpage, Function.update_self]
      rfl
    · rw [Function.update_of_ne hpage]
      exact h.resolve_left hpage
  rw [rewritten, Paged.mprotect]
  dsimp only
  split
  · rw [Paged.prot_grant]
    by_cases hpage : page = pageOf fn
    · rw [hpage, Function.update_self]
      rfl
    · rw [Function.update_of_ne hpage]
      exact (hprot _ _).symm ▸ hopen
  · exact (hprot _ _).symm ▸ hopen

theorem owned_rewritten (hpage : ¬ Crosses fn) (hlen : bs.length = 5) (h : Owned c.log) :
    Owned (rewritten c fn bs).1.log := by
  have hput : Owned ((openedFor c fn).put fn bs).log := by
    rw [Paged.owned_put, hlen]
    refine ⟨h, fun i hi => ?_⟩
    rw [pageOf_byte hpage hi]
    exact if_pos rfl
  rw [rewritten, Paged.mprotect]
  dsimp only
  split
  · exact hput
  · exact hput

/-- **Replacing the first bytes** of one function leaves the others as they are. -/
theorem CodeHolds.rewritten (h : CodeHolds fs mem target c) (hfn : fn ∈ fs.entries) (t : Option (BitVec 64)) :
    CodeHolds fs mem (Function.update target fn t) (rewritten c fn (entryBytes mem fn t)).1 := by
  have hlen := length_entryBytes mem fn t
  refine ⟨?_, ?_, ?_, owned_rewritten (fs.inPage fn hfn) hlen h.owned⟩
  · intro fn' hfn' i b hb
    rw [mem_rewritten]
    by_cases hsame : fn' = fn
    · subst hsame
      rw [Function.update_self] at hb
      exact Paged.put_get (by omega) i b hb
    · rw [Function.update_of_ne hsame] at hb
      have hi : i < 5 := by
        rw [← length_entryBytes mem fn' (target fn')]
        exact (List.getElem?_eq_some_iff.mp hb).1
      rw [Paged.put_off fun j hj => fs.apart fn' hfn' fn hfn hsame i hi j (hlen ▸ hj)]
      exact h.entry fn' hfn' i b hb
  · intro x hx
    rw [mem_rewritten, Paged.put_off fun i hi => hx fn hfn i (hlen ▸ hi)]
    exact h.elsewhere x hx
  · intro fn' hfn' ht
    apply exec_rewritten
    by_cases hsame : fn' = fn
    · exact .inl (congrArg pageOf hsame)
    · rw [Function.update_of_ne hsame] at ht
      exact .inr (h.exec fn' hfn' ht)

/-- **The calls** of a function that is patched go to the other one, if it is near. -/
theorem CodeHolds.jumpTarget_eq (h : CodeHolds fs mem target c) (hfn : fn ∈ fs.entries) {mockFn : BitVec 64}
    (ht : target fn = some mockFn) (hnear : Near fn mockFn) : jumpTarget c fn = some mockFn := by
  have hbytes := h.entry fn hfn
  rw [ht] at hbytes
  apply (jumpTarget_put _ hbytes).mpr hnear
  intro i hi
  rw [pageOf_byte (fs.inPage fn hfn) hi]
  exact h.exec fn hfn (by simp [ht])

/-- What `mock_set` does if it may write. -/
theorem mockSet_rewritten {m : Mock mockLen} {mockFn : BitVec 64} (hpage : ¬ Crosses fn)
    (h0 : c.answers 0 = 0) :
    mockSet m c fn mockFn = .ok ((rewritten c fn (jmpBytes fn mockFn)).2,
      ⟨fn, .ofFn fun i => c.mem (fn + BitVec.ofNat 64 i)⟩, (rewritten c fn (jmpBytes fn mockFn)).1) := by
  apply mockSet_eq h0
  · exact (allows_grant rfl).mpr fun hcross => absurd hcross hpage
  · exact (allows_grant rfl).mpr fun hcross => absurd hcross hpage

/-- What `mock_reset` does if it may write. -/
theorem mockReset_rewritten {m : Mock mockLen} (hpage : ¬ Crosses m.fn) (h0 : c.answers 0 = 0) :
    mockReset m c = .ok ((rewritten c m.fn m.mock.toList).2, (rewritten c m.fn m.mock.toList).1) := by
  have hlen : m.mock.toList.length = 5 := m.mock.length_toList
  have hwrite : (openedFor c m.fn).Allows Prot.write m.fn m.mock.toList.length := by
    rw [hlen]
    exact (allows_grant rfl).mpr fun hcross => absurd hcross hpage
  rw [mockReset, mprotectWrite_zero h0]
  simp only [ne_eq, not_true_eq_false, if_false]
  rw [Paged.writeAll_eq hwrite, ok_bind, mprotectRecovery, pageOf_alignpage]
  rfl

/-- A refusal ends it. -/
theorem mockReset_refused {len : ℕ} {m : Mock len} (h0 : c.answers 0 ≠ 0) :
    mockReset m c = .ok (c.answers 0, c.shift) := by
  rw [mockReset, mprotectWrite_ne h0]
  exact if_pos h0

end code

/-! ### A call -/

section refinement

variable {ι : Type} [DecidableEq ι] {fs : Functions} {mem : BitVec 64 → UInt8} {r : Redirects ι} {s : Tested ι}
  {c : Paged} {op : MockOp ι} {ops : List (MockOp ι)}

/-- The code is as where the calls go says, and the mocks have what they have saved. -/
structure Patched (fs : Functions) (mem : BitVec 64 → UInt8) (r : Redirects ι) (s : Tested ι) : Prop where
  code : CodeHolds fs mem r.target s.code
  saved : ∀ i fn t, r.saved i = some (fn, t) → fn ∈ fs.entries ∧ (s.mocks i).fn = fn ∧
    (s.mocks i).mock.toList = entryBytes mem fn t

/-- What is read is what is there. -/
theorem ofFn_holds {fn : BitVec 64} {bs : List UInt8} (h : c.Holds fn bs) (hlen : bs.length = 5) :
    (Vector.ofFn fun i : Fin mockLen => c.mem (fn + BitVec.ofNat 64 i)).toList = bs := by
  apply List.ext_getElem
  · rw [Vector.length_toList, hlen]
    rfl
  · intro i _ hi
    rw [Vector.getElem_toList, Vector.getElem_ofFn]
    exact h i _ (List.getElem?_eq_getElem hi)

/-- A call that the system refuses. -/
theorem MockOp.exec_refused (op : MockOp ι) (h : Patched fs mem r s) (h0 : s.code.answers 0 ≠ 0) :
    ∃ s', op.exec s = .ok (s', s.code.answers 0) ∧ s'.code.answers = (fun i => s.code.answers (i + 1)) ∧
      Patched fs mem r s' := by
  have hshift : CodeHolds fs mem r.target s.code.shift :=
    ⟨h.code.entry, h.code.elsewhere, h.code.exec, h.code.owned⟩
  cases op with
  | set i fn mockFn =>
    refine ⟨⟨s.mocks, s.code.shift⟩, ?_, rfl, hshift, h.saved⟩
    rw [MockOp.exec, mockSet_refused h0, ok_bind]
    dsimp only
    rw [Function.update_eq_self]
  | reset i =>
    refine ⟨⟨s.mocks, s.code.shift⟩, ?_, rfl, hshift, h.saved⟩
    rw [MockOp.exec, mockReset_refused h0]
    rfl

/-- **A call** that it does not. -/
theorem MockOp.exec_granted (h : Patched fs mem r s) (hop : op.Usable fs r) (h0 : s.code.answers 0 = 0) :
    ∃ s', op.exec s = .ok (s', s.code.answers 1) ∧ s'.code.answers = (fun i => s.code.answers (i + 2)) ∧
      Patched fs mem (op.apply r) s' := by
  cases op with
  | set i fn mockFn =>
    have hcode := h.code.rewritten hop (some mockFn)
    refine ⟨⟨Function.update s.mocks i ⟨fn, .ofFn fun i => s.code.mem (fn + BitVec.ofNat 64 i)⟩,
      (rewritten s.code fn (jmpBytes fn mockFn)).1⟩, ?_, ?_, hcode, ?_⟩
    · rw [MockOp.exec, mockSet_rewritten (fs.inPage fn hop) h0, ok_bind, rewritten_ret]
    · exact answers_rewritten _ _ _
    · intro j fn' t hsaved
      dsimp only [MockOp.apply] at hsaved ⊢
      by_cases hsame : j = i
      · subst hsame
        rw [Function.update_self] at hsaved ⊢
        obtain ⟨rfl, rfl⟩ := Prod.mk.inj (Option.some.inj hsaved)
        exact ⟨hop, rfl, ofFn_holds (h.code.entry fn hop) (length_entryBytes _ _ _)⟩
      · rw [Function.update_of_ne hsame] at hsaved ⊢
        exact h.saved j fn' t hsaved
  | reset i =>
    cases hsaved : r.saved i with
    | none => exact absurd hsaved hop
    | some saved =>
      obtain ⟨fn, t⟩ := saved
      obtain ⟨hfn, rfl, hbytes⟩ := h.saved i fn t hsaved
      have hcode := h.code.rewritten hfn t
      rw [← hbytes] at hcode
      refine ⟨⟨s.mocks, (rewritten s.code (s.mocks i).fn (s.mocks i).mock.toList).1⟩, ?_, ?_, ?_, ?_⟩
      · rw [MockOp.exec, mockReset_rewritten (fs.inPage _ hfn) h0, ok_bind, rewritten_ret]
      · exact answers_rewritten _ _ _
      · rw [MockOp.apply, hsaved]
        exact hcode
      · rw [MockOp.apply, hsaved]
        exact h.saved

/-! ### A run -/

theorem mockRun_patched (h : Patched fs mem r s) (hops : UsableRun fs s.code.answers r ops) :
    ∃ s', mockRun s ops = .ok (s', (runSpec s.code.answers r ops).2) ∧
      Patched fs mem (runSpec s.code.answers r ops).1 s' := by
  induction ops generalizing r s with
  | nil => exact ⟨s, rfl, h⟩
  | cons op ops ih =>
    obtain ⟨hop, hops⟩ := hops
    rw [mockRun, runSpec]
    by_cases h0 : s.code.answers 0 = 0
    · rw [if_pos h0] at hops ⊢
      obtain ⟨s₁, hexec, hanswers, h₁⟩ := MockOp.exec_granted h hop h0
      rw [← hanswers] at hops ⊢
      obtain ⟨s₂, hrun, h₂⟩ := ih h₁ hops
      refine ⟨s₂, ?_, h₂⟩
      rw [hexec, ok_bind]
      dsimp only
      rw [hrun]
      rfl
    · rw [if_neg h0] at hops ⊢
      obtain ⟨s₁, hexec, hanswers, h₁⟩ := MockOp.exec_refused op h h0
      rw [← hanswers] at hops ⊢
      obtain ⟨s₂, hrun, h₂⟩ := ih h₁ hops
      refine ⟨s₂, ?_, h₂⟩
      rw [hexec, ok_bind]
      dsimp only
      rw [hrun]
      rfl

omit [DecidableEq ι] in
/-- Before the first call. -/
theorem patched_empty (mocks : ι → Mock mockLen) (hlog : c.log = []) :
    Patched fs c.mem .empty ⟨mocks, c⟩ := by
  refine ⟨⟨?_, fun _ _ => rfl, fun _ _ h => absurd rfl h, hlog ▸ trivial⟩, fun _ _ _ h => nomatch h⟩
  intro fn _ i b hb
  rw [show (Redirects.empty : Redirects ι).target fn = none from rfl, entryBytes, List.getElem?_map] at hb
  obtain ⟨j, hj, rfl⟩ := Option.map_eq_some_iff.mp hb
  obtain ⟨hlt, hj⟩ := List.getElem?_eq_some_iff.mp hj
  rw [List.getElem_range] at hj
  rw [hj]

/-- In a run of calls on functions that are apart, in which no mock is reset that has saved nothing, each call
returns what the system answers; afterwards the calls of every function go where they should, all other memory is
what it was, and every byte was written to a page that was open. -/
theorem mockRun_refines (fs : Functions) (mocks : ι → Mock mockLen) {c : Paged} (hlog : c.log = [])
    {ops : List (MockOp ι)} (hops : UsableRun fs c.answers .empty ops) :
    ∃ s, mockRun ⟨mocks, c⟩ ops = .ok (s, (runSpec c.answers .empty ops).2) ∧
      CodeHolds fs c.mem (runSpec c.answers .empty ops).1.target s.code ∧
      ∀ fn ∈ fs.entries, ∀ mockFn, (runSpec c.answers .empty ops).1.target fn = some mockFn → Near fn mockFn →
        jumpTarget s.code fn = some mockFn := by
  obtain ⟨s, hrun, h⟩ := mockRun_patched (patched_empty mocks hlog) hops
  exact ⟨s, hrun, h.code, fun fn hfn mockFn ht hnear => h.code.jumpTarget_eq hfn ht hnear⟩

/-- Two functions of a page. -/
def twoFunctions : Functions where
  entries := {0x401000, 0x401010}
  inPage := by
    simp only [Set.mem_insert_iff, Set.mem_singleton_iff, forall_eq_or_imp, forall_eq]
    decide
  apart := by
    simp only [Set.mem_insert_iff, Set.mem_singleton_iff, forall_eq_or_imp, forall_eq]
    decide

/-- Their code. -/
def twoCode : Paged := ⟨fun _ => 0x90, fun _ => mprotectRx, fun _ => 0, []⟩

/-- Two mocks of one function, reset in the wrong order: its calls go to the first other one again. -/
theorem mockRun_refines_two :
    ∃ s, mockRun ⟨fun _ : Bool => mockInit mockLen, twoCode⟩
        [.set true 0x401000 0x402000, .set false 0x401000 0x403000, .reset true, .reset false] =
          .ok (s, [0, 0, 0, 0]) ∧
      CodeHolds twoFunctions twoCode.mem (Function.update (Function.update (Function.update (Function.update
        (fun _ => none) 0x401000 (some 0x402000)) 0x401000 (some 0x403000)) 0x401000 none) 0x401000
          (some 0x402000)) s.code ∧
      ∀ fn ∈ twoFunctions.entries, ∀ mockFn, (Function.update (Function.update (Function.update (Function.update
        (fun _ => none) 0x401000 (some 0x402000)) 0x401000 (some 0x403000)) 0x401000 none) 0x401000
          (some 0x402000)) fn = some mockFn → Near fn mockFn → jumpTarget s.code fn = some mockFn :=
  mockRun_refines twoFunctions _ rfl ⟨Or.inl rfl, Or.inl rfl, by simp [MockOp.Usable, MockOp.apply], by
    simp [MockOp.Usable, MockOp.apply], trivial⟩

/-! ### Nested patches -/

/-- Each mock is set, and reset after what is done in between, which leaves it alone. -/
inductive Nested (fs : Functions) : List (MockOp ι) → Prop where
  /-- Nothing is patched. -/
  | nil : Nested fs []
  /-- One patch after the other. -/
  | append {ops ops' : List (MockOp ι)} (h : Nested fs ops) (h' : Nested fs ops') : Nested fs (ops ++ ops')
  /-- Patches while another one is there. -/
  | wrap {i : ι} {fn : BitVec 64} {ops : List (MockOp ι)} (mockFn : BitVec 64) (hfn : fn ∈ fs.entries)
      (h : Nested fs ops) (hi : ∀ fn' mockFn', .set i fn' mockFn' ∉ ops) :
      Nested fs (.set i fn mockFn :: ops ++ [.reset i])

/-- What the calls change if the system lets them write. -/
def applyAll (r : Redirects ι) (ops : List (MockOp ι)) : Redirects ι := ops.foldl MockOp.apply r

theorem applyAll_append (r : Redirects ι) (ops ops' : List (MockOp ι)) :
    applyAll r (ops ++ ops') = applyAll (applyAll r ops) ops' := List.foldl_append ..

/-- What a run does if nothing is refused. -/
theorem runSpec_granted (r : Redirects ι) (ops : List (MockOp ι)) :
    runSpec (fun _ => 0) r ops = (applyAll r ops, List.replicate ops.length 0) := by
  induction ops generalizing r with
  | nil => rfl
  | cons op ops ih =>
    rw [runSpec, if_pos rfl, ih]
    rfl

theorem usableRun_append {ops' : List (MockOp ι)} (h : UsableRun fs (fun _ => 0) r ops)
    (h' : UsableRun fs (fun _ => 0) (applyAll r ops) ops') : UsableRun fs (fun _ => 0) r (ops ++ ops') := by
  induction ops generalizing r with
  | nil => exact h'
  | cons op ops ih =>
    obtain ⟨hop, h⟩ := h
    rw [if_pos rfl] at h
    refine ⟨hop, ?_⟩
    rw [if_pos rfl]
    exact ih h h'

theorem usableRun_cons (hop : op.Usable fs r) (h : UsableRun fs (fun _ => 0) (op.apply r) ops) :
    UsableRun fs (fun _ => 0) r (op :: ops) := by
  refine ⟨hop, ?_⟩
  rw [if_pos rfl]
  exact h

/-- A mock that is not set keeps what it has saved. -/
theorem saved_applyAll {i : ι} (hi : ∀ fn mockFn, .set i fn mockFn ∉ ops) :
    (applyAll r ops).saved i = r.saved i := by
  induction ops generalizing r with
  | nil => rfl
  | cons op ops ih =>
    have hops : ∀ fn mockFn, .set i fn mockFn ∉ ops := fun fn mockFn h => hi fn mockFn (List.mem_cons_of_mem _ h)
    refine (ih hops).trans ?_
    cases op with
    | set j fn mockFn =>
      apply Function.update_of_ne
      rintro rfl
      exact hi fn mockFn List.mem_cons_self
    | reset j =>
      rw [MockOp.apply]
      split <;> rfl

theorem apply_reset {i : ι} {fn : BitVec 64} {t : Option (BitVec 64)} (h : r.saved i = some (fn, t)) :
    (MockOp.apply r (.reset i)).target = Function.update r.target fn t := by
  rw [MockOp.apply, h]

/-- **Nested patches** can all be made, and leave the calls going where they went. -/
theorem Nested.applyAll_target (h : Nested fs ops) (r : Redirects ι) :
    (applyAll r ops).target = r.target ∧ UsableRun fs (fun _ => 0) r ops := by
  induction h generalizing r with
  | nil => exact ⟨rfl, trivial⟩
  | append _ _ ih ih' =>
    obtain ⟨ht, hops⟩ := ih r
    obtain ⟨ht', hops'⟩ := ih' (applyAll r _)
    rw [applyAll_append]
    exact ⟨ht'.trans ht, usableRun_append hops hops'⟩
  | @wrap i fn ops mockFn hfn _ hi ih =>
    obtain ⟨ht, hops⟩ := ih (MockOp.apply r (.set i fn mockFn))
    -- what the mock has saved is still there
    have hsaved : (applyAll (MockOp.apply r (.set i fn mockFn)) ops).saved i = some (fn, r.target fn) := by
      rw [saved_applyAll hi]
      exact Function.update_self ..
    constructor
    · rw [List.cons_append, ← List.singleton_append, applyAll_append, applyAll_append]
      refine (apply_reset hsaved).trans ?_
      rw [ht]
      show Function.update (Function.update r.target fn (some mockFn)) fn (r.target fn) = r.target
      rw [Function.update_idem, Function.update_eq_self]
    · apply usableRun_cons (show MockOp.Usable fs r (.set i fn mockFn) from hfn)
      apply usableRun_append hops
      refine usableRun_cons ?_ trivial
      rw [MockOp.Usable, hsaved]
      simp

/-- If the system refuses nothing, nested patches of functions that are apart all return 0, and leave memory as it
was. -/
theorem mockRun_nested (fs : Functions) (mocks : ι → Mock mockLen) {c : Paged} (hlog : c.log = [])
    (hgranted : ∀ i, c.answers i = 0) {ops : List (MockOp ι)} (h : Nested fs ops) :
    ∃ s, mockRun ⟨mocks, c⟩ ops = .ok (s, List.replicate ops.length 0) ∧ s.code.mem = c.mem := by
  have hanswers : c.answers = fun _ => 0 := funext hgranted
  obtain ⟨ht, hops⟩ := h.applyAll_target .empty
  obtain ⟨s, hrun, hpatched⟩ := mockRun_patched (patched_empty mocks hlog) (hanswers.symm ▸ hops)
  rw [hanswers, runSpec_granted] at hrun hpatched
  refine ⟨s, hrun, funext fun x => ?_⟩
  by_cases hx : ∀ fn ∈ fs.entries, ∀ i < 5, x ≠ fn + BitVec.ofNat 64 i
  · exact hpatched.code.elsewhere x hx
  · push Not at hx
    obtain ⟨fn, hfn, i, hi, rfl⟩ := hx
    apply hpatched.code.entry fn hfn
    rw [ht, show (Redirects.empty : Redirects ι).target fn = none from rfl, entryBytes, List.getElem?_map,
      List.getElem?_range hi]
    rfl

/-- Both mocks, the second one inside the first, on the other function and then on the same. -/
def twoPatches : List (MockOp Bool) :=
  .set true 0x401000 0x402000 :: ([.set false 0x401010 0x403000, .reset false] ++
    [.set false 0x401000 0x404000, .reset false]) ++ [.reset true]

theorem twoPatches_nested : Nested twoFunctions twoPatches := by
  have hone : ∀ fn ∈ twoFunctions.entries, ∀ mockFn, Nested twoFunctions
      ([.set false fn mockFn, .reset false] : List (MockOp Bool)) :=
    fun fn hfn mockFn => .wrap mockFn hfn .nil (by simp)
  apply Nested.wrap _ (Or.inl rfl)
  · exact .append (hone _ (Or.inr rfl) _) (hone _ (Or.inl rfl) _)
  · simp

/-- Its memory is as it was. -/
theorem mockRun_nested_two : ∃ s, mockRun ⟨fun _ => mockInit mockLen, twoCode⟩ twoPatches =
    .ok (s, List.replicate twoPatches.length 0) ∧ s.code.mem = twoCode.mem :=
  mockRun_nested twoFunctions _ rfl (fun _ => rfl) twoPatches_nested

end refinement

end CcUtils.Tools
