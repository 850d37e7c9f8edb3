import CcUtils.Binlog.Grammar

/-!
# What `do_valog` appends

`do_valog` on the text of a format. After a double percent sign and after a star as precision its
pointer is not where it should be: it takes the second percent sign for the start of a specification,
and it skips a character. It gets through when the text that follows happens to absorb this, and then
it appends what it should; and only then.

## What is proved

* `Ran` — what a run of any part of `do_valog` does to its variables.
* `loop_values` — on a format that encodes well, the values are appended at their places.
* `encodesWell_of_loop` — when they are, the format encodes well.
-/

namespace CcUtils.Binlog

open CcUtils.Lib

variable {σ : Type}

/-! ### Runs -/

/-- Append values in order. -/
def putAll (put : Sink σ) : σ → List Value → Exec (σ × ℕ)
  | x, [] => .ok (x, 0)
  | x, v :: vs => do
    let (x, result) ← put x v
    let (x, total) ← putAll put x vs
    .ok (x, result + total)

/-- From `s` to `s'` the values of `new` were taken off the argument list and appended, at places
not before `ptr`. -/
structure Ran (put : Sink σ) (s s' : Valog σ) (new : List (ℕ × Value)) : Prop where
  log : s'.log = s.log ++ new
  args : s.ap = new.map Prod.snd ++ s'.ap
  sink : ∃ n, putAll put s.sink (new.map Prod.snd) = .ok (s'.sink, n) ∧
    s'.totalPrinted = s.totalPrinted + n
  places : ∀ e ∈ new, e.1 ≤ s.ptr.length
  shrinks : s'.ptr.length ≤ s.ptr.length

theorem putAll_append {put : Sink σ} {x y z : σ} {vs ws : List Value} {m n : ℕ}
    (hv : putAll put x vs = .ok (y, m)) (hw : putAll put y ws = .ok (z, n)) :
    putAll put x (vs ++ ws) = .ok (z, m + n) := by
  induction vs generalizing x m with
  | nil =>
    cases hv
    rw [List.nil_append, hw, Nat.zero_add]
  | cons v vs ih =>
    obtain ⟨⟨x', r⟩, hput, hv⟩ := bind_eq_ok.mp hv
    obtain ⟨⟨y', m'⟩, hrest, hv⟩ := bind_eq_ok.mp hv
    cases hv
    simp only [List.cons_append, putAll, hput, ih hrest, ok_bind, Nat.add_assoc]

theorem putAll_split {put : Sink σ} {x z : σ} {vs ws : List Value} {n : ℕ}
    (h : putAll put x (vs ++ ws) = .ok (z, n)) :
    ∃ y m n', putAll put x vs = .ok (y, m) ∧ putAll put y ws = .ok (z, n') ∧ n = m + n' := by
  induction vs generalizing x n with
  | nil => exact ⟨x, 0, n, rfl, h, (Nat.zero_add n).symm⟩
  | cons v vs ih =>
    obtain ⟨⟨x', r⟩, hput, h⟩ := bind_eq_ok.mp h
    obtain ⟨⟨z', n''⟩, hrest, h⟩ := bind_eq_ok.mp h
    cases h
    obtain ⟨y, m, n', hv, hw, rfl⟩ := ih hrest
    refine ⟨y, r + m, n', ?_, hw, (Nat.add_assoc r m n').symm⟩
    simp only [putAll, hput, hv, ok_bind]

/-- `ptr` moved on. -/
theorem Ran.move {put : Sink σ} (s : Valog σ) {ptr : List UInt8}
    (h : ptr.length ≤ s.ptr.length) : Ran put s { s with ptr := ptr } [] where
  log := (List.append_nil s.log).symm
  args := rfl
  sink := ⟨0, rfl, rfl⟩
  places := nofun
  shrinks := h

theorem Ran.trans {put : Sink σ} {s s' s'' : Valog σ} {new new' : List (ℕ × Value)}
    (h : Ran put s s' new) (h' : Ran put s' s'' new') : Ran put s s'' (new ++ new') := by
  obtain ⟨m, hm, htm⟩ := h.sink
  obtain ⟨n, hn, htn⟩ := h'.sink
  refine ⟨?_, ?_, ⟨m + n, ?_, ?_⟩, ?_, le_trans h'.shrinks h.shrinks⟩
  · rw [h'.log, h.log, List.append_assoc]
  · rw [h.args, h'.args, List.map_append, List.append_assoc]
  · rw [List.map_append]
    exact putAll_append hm hn
  · rw [htn, htm, Nat.add_assoc]
  · intro e he
    rcases List.mem_append.mp he with he | he
    · exact h.places e he
    · exact le_trans (h'.places e he) h.shrinks

theorem printBintype_ran {put : Sink σ} {k : Kind} {s s' : Valog σ}
    (h : s.printBintype put k = .ok s') :
    ∃ v, v.kind = k ∧ s'.ptr = s.ptr.tail ∧ Ran put s s' [(s.ptr.length, v)] := by
  unfold Valog.printBintype at h
  split at h
  · cases h
  · rename_i v ap hap
    obtain ⟨_, hk, h⟩ := bind_eq_ok.mp h
    obtain ⟨⟨x, r⟩, hput, h⟩ := bind_eq_ok.mp h
    cases h
    refine ⟨v, check_eq_ok.mp hk, rfl, rfl, hap, ⟨r, ?_, rfl⟩, ?_, ?_⟩
    · simp only [List.map_cons, List.map_nil, putAll, hput, ok_bind, Nat.add_zero]
    · intro e he
      rw [List.mem_singleton.mp he]
    · simp only [List.length_tail]
      omega

theorem scan_length_le {p : UInt8 → Bool} {m passed ptr : List UInt8}
    (h : scan p m = .ok (passed, ptr)) : ptr.length ≤ m.length := by
  obtain ⟨rfl, -⟩ := scan_inv h
  rw [List.length_append]
  omega

theorem width_ran {put : Sink σ} {s s' : Valog σ} (h : s.width put = .ok s') :
    ∃ new, Ran put s s' new := by
  obtain ⟨c, -, h⟩ := bind_eq_ok.mp h
  split at h
  · obtain ⟨v, -, -, hr⟩ := printBintype_ran h
    exact ⟨_, hr⟩
  · obtain ⟨⟨passed, ptr⟩, hs, h⟩ := bind_eq_ok.mp h
    cases h
    exact ⟨[], .move s (scan_length_le hs)⟩

theorem precision_ran {put : Sink σ} {s s' : Valog σ} (h : s.precision put = .ok s') :
    ∃ new, Ran put s s' new := by
  have htail : s.ptr.tail.length ≤ s.ptr.length := by simp
  obtain ⟨c, -, h⟩ := bind_eq_ok.mp h
  split at h
  · obtain ⟨c', -, h⟩ := bind_eq_ok.mp h
    split at h
    · obtain ⟨s₁, h₁, h⟩ := bind_eq_ok.mp h
      cases h
      obtain ⟨v, -, -, hr⟩ := printBintype_ran h₁
      have hlast : s₁.ptr.tail.length ≤ s₁.ptr.length := by simp
      exact ⟨_, ((Ran.move s htail).trans hr).trans (.move s₁ hlast)⟩
    · obtain ⟨⟨passed, ptr⟩, hs, h⟩ := bind_eq_ok.mp h
      cases h
      exact ⟨[], .move s (le_trans (scan_length_le hs) htail)⟩
  · cases h
    exact ⟨[], .move s le_rfl⟩

theorem conversion_ran {put : Sink σ} {s s' : Valog σ} (h : s.conversion put = .ok s') :
    ∃ new, Ran put s s' new := by
  obtain ⟨⟨lens, ptr⟩, hs, h⟩ := bind_eq_ok.mp h
  obtain ⟨c, -, h⟩ := bind_eq_ok.mp h
  obtain ⟨k, -, h⟩ := bind_eq_ok.mp h
  have hptr : ptr.length ≤ s.ptr.length := by
    obtain ⟨he, -⟩ := scanLengths_inv hs
    rw [he, List.length_append]
    omega
  cases k with
  | none =>
    cases h
    exact ⟨[], .move s hptr⟩
  | some k =>
    obtain ⟨v, -, -, hr⟩ := printBintype_ran h
    exact ⟨_, (Ran.move s hptr).trans hr⟩

theorem specification_ran {put : Sink σ} {s s' : Valog σ} (h : s.specification put = .ok s') :
    ∃ new, Ran put s s' new := by
  obtain ⟨⟨flags, ptr⟩, hs, h⟩ := bind_eq_ok.mp h
  obtain ⟨s₁, h₁, h⟩ := bind_eq_ok.mp h
  obtain ⟨s₂, h₂, h⟩ := bind_eq_ok.mp h
  obtain ⟨new₁, hr₁⟩ := width_ran h₁
  obtain ⟨new₂, hr₂⟩ := precision_ran h₂
  obtain ⟨new₃, hr₃⟩ := conversion_ran h
  exact ⟨_, (((Ran.move s (scan_length_le hs)).trans hr₁).trans hr₂).trans hr₃⟩

/-- Any run of the loop only appends. -/
theorem loop_ran {put : Sink σ} {fuel : ℕ} {s s' : Valog σ} (h : Valog.loop put fuel s = .ok s') :
    ∃ new, Ran put s s' new := by
  induction fuel generalizing s with
  | zero => cases h
  | succ fuel ih =>
    have htail : s.ptr.tail.length ≤ s.ptr.length := by simp
    obtain ⟨c, -, h⟩ := bind_eq_ok.mp h
    split at h
    · cases h
      exact ⟨[], .move _ le_rfl⟩
    · split at h
      · obtain ⟨new, hr⟩ := ih h
        exact ⟨_, (Ran.move s htail).trans hr⟩
      · obtain ⟨s₁, h₁, h⟩ := bind_eq_ok.mp h
        obtain ⟨new₁, hr₁⟩ := specification_ran h₁
        obtain ⟨new, hr⟩ := ih h
        exact ⟨_, ((Ran.move s htail).trans hr₁).trans hr⟩

/-! ### The parts of a specification -/

/-- `PRINT_BINTYPE` takes the next argument, if its type is right. -/
theorem printBintype_eq {put : Sink σ} {k : Kind} {ptr : List UInt8} {v : Value}
    (hk : v.kind = k) {ap : List Value} {x y : σ} {r : ℕ} (hput : put x v = .ok (y, r)) (t : ℕ)
    (log : List (ℕ × Value)) :
    Valog.printBintype put k ⟨ptr, v :: ap, x, t, log⟩ =
      .ok ⟨ptr.tail, ap, y, t + r, log ++ [(ptr.length, v)]⟩ := by
  simp only [Valog.printBintype, check_true hk, hput, ok_bind]

/-- The flags, and digits as width. -/
theorem flags_width_digits (put : Sink σ) {s : Valog σ} {fl ds : List UInt8} {y : UInt8}
    {t : List UInt8} (hs : s.ptr = fl ++ (ds ++ y :: t)) (hfl : ∀ c ∈ fl, c ∈ flagChars)
    (hds : ∀ c ∈ ds, isDigit c) (hy : AfterWidth y) :
    s.specification put =
      Valog.precision put { s with ptr := y :: t } >>= Valog.conversion put := by
  obtain ⟨a, b, -, hscan, hdig, c, hpeek, hc⟩ := scan_flags_digits hfl hds hy t
  simp only [Valog.specification, hs, hscan, ok_bind, Valog.width, hpeek, if_neg hc, hdig]

/-- The flags, and a star as width. -/
theorem flags_width_star (put : Sink σ) {s : Valog σ} {fl t : List UInt8}
    (hs : s.ptr = fl ++ star :: t) (hfl : ∀ c ∈ fl, c ∈ flagChars) :
    s.specification put =
      Valog.printBintype put .int { s with ptr := star :: t } >>= fun s =>
        s.precision put >>= Valog.conversion put := by
  simp only [Valog.specification, hs, scan_flags_star hfl t, ok_bind, Valog.width, peek_cons,
    if_true]

theorem precision_none (put : Sink σ) {s : Valog σ} {y : UInt8} {t : List UInt8}
    (hs : s.ptr = y :: t) (hy : y ≠ dot) : s.precision put = .ok s := by
  simp only [Valog.precision, hs, peek_cons, ok_bind, if_neg hy]

theorem precision_digits (put : Sink σ) {s : Valog σ} {ds : List UInt8} {y : UInt8}
    {t : List UInt8} (hs : s.ptr = dot :: (ds ++ y :: t)) (hds : ∀ c ∈ ds, isDigit c)
    (hy : AfterWidth y) : s.precision put = .ok { s with ptr := y :: t } := by
  obtain ⟨hdig, c, hpeek, hc⟩ := scan_digits hds hy t
  simp only [Valog.precision, hs, peek_cons, ok_bind, if_true, List.tail_cons, hpeek, if_neg hc,
    hdig]

theorem precision_star (put : Sink σ) {s : Valog σ} {t : List UInt8}
    (hs : s.ptr = dot :: star :: t) :
    s.precision put = Valog.printBintype put .int { s with ptr := star :: t } >>= fun s =>
      .ok { s with ptr := s.ptr.tail } := by
  simp only [Valog.precision, hs, peek_cons, ok_bind, if_true, List.tail_cons]

theorem conversion_eq (put : Sink σ) {s : Valog σ} {lens : List UInt8} {c : UInt8} {t : List UInt8}
    (hs : s.ptr = lens ++ c :: t) (hl : ∀ d ∈ lens, d ∈ lengthChars) (hc : Stops c) :
    s.conversion put = convKind lens c >>= fun k =>
      match k with
      | none => .ok { s with ptr := c :: t }
      | some k => Valog.printBintype put k { s with ptr := c :: t } := by
  have hscan := scanLengths_append hl hc.length t
  rw [← hs] at hscan
  rw [Valog.conversion, hscan]
  rfl

/-- Text that fills up to a percent sign is passed without a value. -/
theorem specification_filler (put : Sink σ) {s : Valog σ} {flags width prec lens rest : List UInt8}
    (hs : s.ptr = flags ++ (width ++ (prec ++ (lens ++ percent :: rest))))
    (hf : ∀ c ∈ flags, c ∈ flagChars) (hw : ∀ c ∈ width, isDigit c)
    (hp : prec = [] ∨ ∃ ds, prec = dot :: ds ∧ ∀ c ∈ ds, isDigit c)
    (hl : ∀ c ∈ lens, c ∈ lengthChars) :
    s.specification put = .ok { s with ptr := percent :: rest } := by
  obtain ⟨y, t, he, hy⟩ := head_precision hp hl percent_stops rest
  rw [he] at hs
  rw [flags_width_digits put hs hf hw hy, ← he]
  obtain ⟨y', t', he', hy', hdot⟩ := head_lengths hl percent_stops rest
  have hconv : ∀ s : Valog σ, s.ptr = lens ++ percent :: rest →
      s.conversion put = .ok { s with ptr := percent :: rest } := by
    intro s hs
    rw [conversion_eq put hs hl percent_stops, convKind_percent]
    rfl
  rcases hp with rfl | ⟨ds, rfl, hd⟩
  · rw [List.nil_append, precision_none put (s := { s with ptr := lens ++ percent :: rest }) he' hdot,
      ok_bind, hconv _ rfl]
  · rw [he', List.cons_append, precision_digits put (s := { s with ptr := dot :: (ds ++ y' :: t') }) rfl hd hy',
      ok_bind, hconv _ he'.symm]

/-! ### Specifications -/

theorem putAll_cons {put : Sink σ} {x y : σ} {v : Value} {vs : List Value} {n : ℕ}
    (h : putAll put x (v :: vs) = .ok (y, n)) :
    ∃ x' r n', put x v = .ok (x', r) ∧ putAll put x' vs = .ok (y, n') ∧ n = r + n' := by
  obtain ⟨⟨x', r⟩, hput, h⟩ := bind_eq_ok.mp h
  obtain ⟨⟨y', n'⟩, hrest, h⟩ := bind_eq_ok.mp h
  cases h
  exact ⟨x', r, n', hput, hrest, rfl⟩

/-- A precision that is not a star is passed. -/
theorem precision_text (put : Sink σ) {prec : Option Field} (hp : prec ≠ some .star)
    (lens : List Length) (conv : Conv) (X : List UInt8) {s : Valog σ}
    (hs : s.ptr = precText prec ++ (lens.map Length.char ++ conv.char :: X)) :
    s.precision put = .ok { s with ptr := lens.map Length.char ++ conv.char :: X } := by
  obtain ⟨y, t, he, hy, hdot⟩ := Spec.head_lens lens conv X
  cases prec with
  | none =>
    rw [precision_none put (hs.trans he) hdot, ← hs.trans (List.nil_append _)]
  | some f =>
    cases f with
    | star => exact absurd rfl hp
    | digits ds =>
      rw [he] at hs ⊢
      exact precision_digits put hs (Field.text_digits ds) hy

/-- The conversion takes its value. -/
theorem conversion_value {put : Sink σ} {lens : List Length} {conv : Conv} {v : Value}
    (hk : v.kind = conv.kind lens) {x y : σ} {r : ℕ} (hput : put x v = .ok (y, r))
    (X : List UInt8) (ap : List Value) (t : ℕ) (log : List (ℕ × Value)) :
    Valog.conversion put ⟨lens.map Length.char ++ conv.char :: X, v :: ap, x, t, log⟩ =
      .ok ⟨X, ap, y, t + r, log ++ [(X.length + 1, v)]⟩ := by
  rw [conversion_eq put rfl (lens_mem lens) conv.stops, convKind_char, ok_bind]
  exact printBintype_eq hk hput t log

/-- A star as precision takes its value, and the pointer skips one character more. -/
theorem precision_star_value {put : Sink σ} {v : Value} (hv : v.kind = .int) {x y : σ} {r : ℕ}
    (hput : put x v = .ok (y, r)) (lens : List Length) (conv : Conv) (X : List UInt8)
    (ap : List Value) (t : ℕ) (log : List (ℕ × Value)) :
    Valog.precision put ⟨precText (some .star) ++ (lens.map Length.char ++ conv.char :: X), v :: ap,
        x, t, log⟩ =
      .ok ⟨(lens.map Length.char ++ conv.char :: X).tail, ap, y, t + r,
        log ++ [(X.length + 1 + lens.length + 1, v)]⟩ := by
  have hlen : (star :: (lens.map Length.char ++ conv.char :: X)).length =
      X.length + 1 + lens.length + 1 := by
    simp only [List.length_cons, List.length_append, List.length_map]
    omega
  have hptr := precision_star put (s := ⟨precText (some .star) ++
    (lens.map Length.char ++ conv.char :: X), v :: ap, x, t, log⟩)
    (t := lens.map Length.char ++ conv.char :: X) rfl
  rw [hptr]
  simp only [printBintype_eq hv hput, ok_bind]
  rw [← hlen]
  rfl

/-- The precision and the conversion take their values. -/
theorem precision_conversion_values {put : Sink σ} {sp : Spec} (he : sp.EncodesWell)
    {vs : List Value} (hk : vs.map Value.kind = precKinds sp.prec ++ [sp.conv.kind sp.lens])
    {x y : σ} {n : ℕ} (hput : putAll put x vs = .ok (y, n)) (X : List UInt8) (ap : List Value)
    (t : ℕ) (log : List (ℕ × Value)) :
    Valog.precision put ⟨precText sp.prec ++ (sp.lens.map Length.char ++ sp.conv.char :: X),
        vs ++ ap, x, t, log⟩ >>= Valog.conversion put =
      .ok ⟨X, ap, y, t + n, log ++ (((precKinds sp.prec).map fun _ =>
        X.length + 1 + sp.lens.length + 1) ++ [X.length + 1]).zip vs⟩ := by
  obtain ⟨flags, width, prec, lens, conv⟩ := sp
  simp only at hk ⊢
  by_cases hstar : prec = some .star
  · subst hstar
    cases lens with
    | nil => exact he.elim
    | cons len lens =>
      obtain ⟨v, vs', rfl, hv, hk'⟩ := List.map_eq_cons_iff.mp hk
      obtain ⟨w, vs'', rfl, hw, hk''⟩ := List.map_eq_cons_iff.mp hk'
      obtain rfl := List.map_eq_nil_iff.mp hk''
      obtain ⟨x₁, r₁, n₁, hput₁, hrest, rfl⟩ := putAll_cons hput
      obtain ⟨x₂, r₂, n₂, hput₂, hnil, rfl⟩ := putAll_cons hrest
      cases hnil
      have hkind : w.kind = conv.kind lens := hw.trans he.symm
      -- the extra step drops the first length modifier
      have hprec := precision_star_value hv hput₁ (len :: lens) conv X (w :: ap) t log
      rw [List.map_cons, List.cons_append, List.tail_cons] at hprec
      rw [List.map_cons, List.cons_append, List.cons_append, List.cons_append, List.nil_append, hprec,
        ok_bind, conversion_value hkind hput₂]
      simp only [precKinds, Field.kinds, List.map_cons, List.map_nil, List.cons_append,
        List.nil_append, List.zip_cons_cons, List.zip_nil_right, List.append_assoc, Nat.add_assoc,
        Nat.add_zero]
  · have hnone : precKinds prec = [] := by
      cases prec with
      | none => rfl
      | some f =>
        cases f with
        | digits ds => rfl
        | star => exact absurd rfl hstar
    rw [hnone] at hk ⊢
    obtain ⟨w, vs', rfl, hw, hk'⟩ := List.map_eq_cons_iff.mp hk
    obtain rfl := List.map_eq_nil_iff.mp hk'
    obtain ⟨x₂, r₂, n₂, hput₂, hnil, rfl⟩ := putAll_cons hput
    cases hnil
    rw [precision_text put hstar lens conv X rfl, ok_bind]
    exact conversion_value hw hput₂ X ap t log

/-- A specification takes its values, at their places. -/
theorem specification_values {put : Sink σ} {sp : Spec} (he : sp.EncodesWell) {vs : List Value}
    (hk : vs.map Value.kind = sp.kinds) {x y : σ} {n : ℕ} (hput : putAll put x vs = .ok (y, n))
    (X : List UInt8) (ap : List Value) (t : ℕ) (log : List (ℕ × Value)) :
    Valog.specification put ⟨sp.text ++ X, vs ++ ap, x, t, log⟩ =
      .ok ⟨X, ap, y, t + n, log ++ (sp.places X.length).zip vs⟩ := by
  have htext : sp.text ++ X = sp.flags.map Flag.char ++ (sp.width.text ++ (precText sp.prec ++
      (sp.lens.map Length.char ++ sp.conv.char :: X))) := by
    simp only [Spec.text, List.append_assoc, List.singleton_append]
  rw [htext]
  cases hw : sp.width with
  | digits ds =>
    have hk' : vs.map Value.kind = precKinds sp.prec ++ [sp.conv.kind sp.lens] := by
      rw [hk, Spec.kinds, hw]
      rfl
    obtain ⟨c, u, hu, hc⟩ := sp.afterWidth X
    have hflags := flags_width_digits put
      (s := ⟨sp.flags.map Flag.char ++ ((Field.digits ds).text ++ c :: u), vs ++ ap, x, t, log⟩) rfl
      sp.flags_mem (Field.text_digits ds) hc
    rw [hu, hflags, ← hu, precision_conversion_values he hk' hput X ap t log]
    simp only [Spec.places, hw, Field.kinds, List.map_nil, List.nil_append]
  | star =>
    have hk' : vs.map Value.kind = .int :: (precKinds sp.prec ++ [sp.conv.kind sp.lens]) := by
      rw [hk, Spec.kinds, hw]
      rfl
    obtain ⟨v, vs', rfl, hv, hk''⟩ := List.map_eq_cons_iff.mp hk'
    obtain ⟨x₁, r₁, n₁, hput₁, hrest, rfl⟩ := putAll_cons hput
    generalize hY : precText sp.prec ++ (sp.lens.map Length.char ++ sp.conv.char :: X) = Y
    have hlen : Y.length + 1 =
        X.length + 1 + sp.lens.length + (precText sp.prec).length + 1 := by
      rw [← hY]
      simp only [List.length_append, List.length_map, List.length_cons]
      omega
    have hflags := flags_width_star put
      (s := ⟨sp.flags.map Flag.char ++ (Field.star.text ++ Y), v :: vs' ++ ap, x, t, log⟩)
      (t := Y) rfl sp.flags_mem
    rw [hflags]
    have hplaces : sp.places X.length = (Y.length + 1) :: (((precKinds sp.prec).map fun _ =>
        X.length + 1 + sp.lens.length + 1) ++ [X.length + 1]) := by
      rw [Spec.places, hw, hlen]
      rfl
    simp only [List.cons_append, printBintype_eq hv hput₁, ok_bind, List.tail_cons]
    rw [← hY, precision_conversion_values he hk'' hrest X ap (t + r₁), hY, hplaces,
      List.zip_cons_cons, List.length_cons, List.append_assoc, Nat.add_assoc]
    rfl

/-! ### Whole formats -/

/-- A literal is passed. -/
theorem loop_literal (put : Sink σ) (fuel : ℕ) (c : Literal) (ptr : List UInt8) (ap : List Value)
    (x : σ) (t : ℕ) (log : List (ℕ × Value)) :
    Valog.loop put (fuel + 1) ⟨c.val :: ptr, ap, x, t, log⟩ =
      Valog.loop put fuel ⟨ptr, ap, x, t, log⟩ := by
  simp only [Valog.loop, peek_cons, ok_bind, if_neg c.property.1, if_pos c.property.2,
    List.tail_cons]

/-- A percent sign begins a specification. -/
theorem loop_percent (put : Sink σ) (fuel : ℕ) (ptr : List UInt8) (ap : List Value) (x : σ) (t : ℕ)
    (log : List (ℕ × Value)) :
    Valog.loop put (fuel + 1) ⟨percent :: ptr, ap, x, t, log⟩ =
      Valog.specification put ⟨ptr, ap, x, t, log⟩ >>= Valog.loop put fuel := by
  have h0 : percent ≠ 0 := by decide
  simp only [Valog.loop, peek_cons, ok_bind, if_neg h0, ne_eq, not_true_eq_false, if_false,
    List.tail_cons]

/-- A percent sign right behind one takes no value, and the pointer stays there. -/
theorem specification_percent (put : Sink σ) (ptr : List UInt8) (ap : List Value) (x : σ) (t : ℕ)
    (log : List (ℕ × Value)) :
    Valog.specification put ⟨percent :: ptr, ap, x, t, log⟩ =
      .ok ⟨percent :: ptr, ap, x, t, log⟩ := by
  have hnone : ∀ c ∈ ([] : List UInt8), isDigit c := nofun
  exact specification_filler put (s := ⟨[] ++ ([] ++ ([] ++ ([] ++ percent :: ptr))), ap, x, t, log⟩)
    rfl nofun hnone (.inl rfl) nofun

/-- At the second of two percent signs nothing is done, and the pointer stays there. -/
theorem loop_percents (put : Sink σ) (fuel : ℕ) (ptr : List UInt8) (ap : List Value) (x : σ)
    (t : ℕ) (log : List (ℕ × Value)) :
    Valog.loop put (fuel + 2) ⟨percent :: percent :: ptr, ap, x, t, log⟩ =
      Valog.specification put ⟨ptr, ap, x, t, log⟩ >>= Valog.loop put fuel := by
  rw [loop_percent, specification_percent, ok_bind, loop_percent]

theorem length_textOf_append (items items' : List Item) :
    (textOf items').length ≤ (textOf (items ++ items')).length := by
  rw [textOf, textOf, List.flatMap_append, List.length_append]
  exact Nat.le_add_left _ _

/-- On a format that encodes well the values are appended, each at its place. The induction is on
the number of items: filler text is passed with the double percent sign before it. -/
theorem loop_values {put : Sink σ} {items : List Item} (he : EncodesWell items) {args : List Value}
    (hk : args.map Value.kind = kindsOf items) {x y : σ} {n : ℕ}
    (hput : putAll put x args = .ok (y, n)) {fuel : ℕ} (hf : (textOf items).length < fuel) (t : ℕ)
    (log : List (ℕ × Value)) :
    Valog.loop put fuel ⟨textOf items ++ [0], args, x, t, log⟩ =
      .ok ⟨[0], [], y, t + n, log ++ valuesOf items args⟩ := by
  induction hm : items.length using Nat.strong_induction_on generalizing items args x n fuel t log with
  | _ m ih =>
    subst hm
    obtain ⟨fuel, rfl⟩ : ∃ k, fuel = k + 1 := ⟨fuel - 1, by omega⟩
    cases items with
    | nil =>
      obtain rfl := List.map_eq_nil_iff.mp hk
      cases hput
      simp [Valog.loop, textOf, peek_cons, valuesOf]
    | cons i items =>
      rw [textOf_cons, List.length_append] at hf
      cases i with
      | literal c =>
        have hfuel : (textOf items).length < fuel := by
          simp only [Item.text, List.length_singleton] at hf
          omega
        have he' : EncodesWell items := he
        have hrest := ih items.length (Nat.lt_succ_self _) he' hk hput hfuel t log rfl
        rw [textOf_cons, List.append_assoc, Item.text, List.singleton_append, loop_literal, hrest]
        rfl
      | percents =>
        obtain ⟨⟨flags, width, prec, lens, rest, htext, hfl, hw, hp, hl⟩, he⟩ := he
        simp only [Item.text, List.length_cons, List.length_nil] at hf
        obtain ⟨fuel, rfl⟩ : ∃ k, fuel = k + 1 := ⟨fuel - 1, by omega⟩
        have htext' : textOf items = flags ++ (width ++ (prec ++ lens)) ++ percent :: rest := by
          rw [htext]
          simp only [List.append_assoc]
        obtain ⟨lits, items', rfl, hnext⟩ :=
          split_literals htext' (Filler.percent_notMem hfl hw hp hl)
        obtain ⟨hkinds, hplaces, hwell⟩ := literals_append lits items'
        have hvalues : valuesOf (.percents :: (lits.map Item.literal ++ items')) args =
            valuesOf items' args := congrArg (List.zip · args) hplaces
        have hlen := length_textOf_append (lits.map Item.literal) items'
        have hm : items'.length < (Item.percents :: (lits.map Item.literal ++ items')).length := by
          rw [List.length_cons, List.length_append]
          omega
        have hfuel : (textOf items').length < fuel := by omega
        have hrest := ih items'.length hm (hwell.mp he) (hk.trans hkinds) hput hfuel t log rfl
        have hptr : textOf (lits.map Item.literal ++ items') ++ [0] =
            flags ++ (width ++ (prec ++ (lens ++ percent :: (rest ++ [0])))) := by
          rw [htext]
          simp only [List.append_assoc, List.cons_append]
        have hfill := specification_filler put
          (s := ⟨textOf (lits.map Item.literal ++ items') ++ [0], args, x, t, log⟩) hptr hfl hw hp hl
        rw [textOf_cons, List.append_assoc, Item.text, List.cons_append, List.cons_append,
          List.nil_append, loop_percents, hfill, ok_bind]
        rw [hnext, List.cons_append] at hrest
        rw [hrest, hvalues]
      | spec sp =>
        obtain ⟨hsp, he⟩ := he
        obtain ⟨vs, ws, rfl, hvs, hws⟩ := split_spec hk
        obtain ⟨x₁, m, n', hput₁, hput₂, rfl⟩ := putAll_split hput
        have hfuel : (textOf items).length < fuel := by
          simp only [Item.text, List.length_cons] at hf
          omega
        have hspec := specification_values hsp hvs hput₁ (textOf items ++ [0]) ws t log
        have hrest := ih items.length (Nat.lt_succ_self _) he hws hput₂ hfuel (t + m)
          (log ++ (sp.places (textOf items ++ [0]).length).zip vs) rfl
        rw [textOf_cons, List.append_assoc, Item.text, List.cons_append, loop_percent, hspec, ok_bind,
          hrest, valuesOf_spec hvs, List.append_assoc, Nat.add_assoc, List.length_append]
        rfl

/-! ### When it goes wrong -/

/-- The memory up to the terminator holds no other NUL. -/
theorem zero_notMem_of_append {u a t : List UInt8} {c : UInt8} (h : u ++ [0] = a ++ c :: t)
    (h0 : (0 : UInt8) ∉ u) : (0 : UInt8) ∉ a := by
  intro ha
  rcases List.eq_nil_or_concat t with rfl | ⟨t, d, rfl⟩
  · have he := List.append_inj_left' h rfl
    exact h0 (he ▸ ha)
  · rw [List.concat_eq_append, ← List.cons_append, ← List.append_assoc] at h
    have he := List.append_inj_left' h rfl
    exact h0 (he ▸ List.mem_append_left _ ha)

/-- The width takes a value for a star, or is passed. -/
theorem width_cases {put : Sink σ} {s s' : Valog σ} (h : s.width put = .ok s') :
    (∃ t v, s.ptr = star :: t ∧ s'.log = s.log ++ [((star :: t).length, v)]) ∨
    (∃ ds ptr, s.ptr = ds ++ ptr ∧ (∀ c ∈ ds, isDigit c) ∧ s' = { s with ptr := ptr }) := by
  obtain ⟨c, hpeek, h⟩ := bind_eq_ok.mp h
  split at h
  case isTrue hstar =>
    obtain ⟨v, -, -, hr⟩ := printBintype_ran h
    cases hptr : s.ptr with
    | nil =>
      rw [hptr] at hpeek
      cases hpeek
    | cons b t =>
      rw [hptr] at hpeek
      cases hpeek
      subst hstar
      exact .inl ⟨t, v, rfl, hptr ▸ hr.log⟩
  case isFalse hstar =>
    obtain ⟨⟨ds, ptr⟩, hdig, h⟩ := bind_eq_ok.mp h
    cases h
    obtain ⟨hm, hd, -⟩ := scan_inv hdig
    exact .inr ⟨ds, ptr, hm, hd, rfl⟩

/-- So does the precision. -/
theorem precision_cases {put : Sink σ} {s s' : Valog σ} (h : s.precision put = .ok s') :
    (∃ t v, s.ptr = dot :: star :: t ∧ s'.log = s.log ++ [((star :: t).length, v)]) ∨
    (∃ prec ptr, s.ptr = prec ++ ptr ∧
      (prec = [] ∨ ∃ ds, prec = dot :: ds ∧ ∀ c ∈ ds, isDigit c) ∧ s' = { s with ptr := ptr }) := by
  cases hptr : s.ptr with
  | nil =>
    rw [Valog.precision, hptr] at h
    cases h
  | cons b m =>
    simp only [Valog.precision, hptr, peek_cons, ok_bind, List.tail_cons] at h
    split at h
    case isTrue hdot =>
      subst hdot
      obtain ⟨c, hpeek, h⟩ := bind_eq_ok.mp h
      split at h
      case isTrue hstar =>
        obtain ⟨s₁, h₁, h⟩ := bind_eq_ok.mp h
        cases h
        obtain ⟨v, -, -, hr⟩ := printBintype_ran h₁
        cases m with
        | nil => cases hpeek
        | cons d t =>
          cases hpeek
          subst hstar
          exact .inl ⟨t, v, rfl, hr.log⟩
      case isFalse hstar =>
        obtain ⟨⟨ds, ptr⟩, hdig, h⟩ := bind_eq_ok.mp h
        cases h
        obtain ⟨rfl, hd, -⟩ := scan_inv hdig
        exact .inr ⟨dot :: ds, ptr, rfl, .inr ⟨ds, rfl, hd⟩, rfl⟩
    case isFalse hdot =>
      cases h
      exact .inr ⟨[], b :: m, rfl, .inl rfl, by rw [← hptr]⟩

/-- The conversion takes a value, unless it is a percent sign. -/
theorem conversion_cases {put : Sink σ} {s s' : Valog σ} (h : s.conversion put = .ok s') :
    ∃ lens c t, s.ptr = lens ++ c :: t ∧ (∀ c ∈ lens, c ∈ lengthChars) ∧
      ((c ≠ percent ∧ ∃ v, s'.log = s.log ++ [((c :: t).length, v)]) ∨
        (c = percent ∧ s' = { s with ptr := c :: t })) := by
  obtain ⟨⟨lens, ptr⟩, hscan, h⟩ := bind_eq_ok.mp h
  obtain ⟨hm, hl, c, t, rfl, -⟩ := scanLengths_inv hscan
  obtain ⟨_, hpeek, h⟩ := bind_eq_ok.mp h
  cases hpeek
  obtain ⟨k, hkind, h⟩ := bind_eq_ok.mp h
  refine ⟨lens, c, t, hm, hl, ?_⟩
  cases k with
  | none =>
    cases h
    exact .inr ⟨convKind_eq_none hkind, rfl⟩
  | some k =>
    obtain ⟨v, -, -, hr⟩ := printBintype_ran h
    refine .inl ⟨?_, v, hr.log⟩
    rintro rfl
    rw [convKind_percent] at hkind
    cases hkind

/-- What can happen behind a percent sign: a value is taken before the next percent sign, or the text
up to it is passed. -/
theorem specification_cases {put : Sink σ} {s s' : Valog σ} {u : List UInt8}
    (hs : s.ptr = u ++ [0]) (h0 : (0 : UInt8) ∉ u) (h : s.specification put = .ok s') :
    (∃ a c t v new, s.ptr = a ++ c :: t ∧ percent ∉ a ∧ c ≠ percent ∧
      s'.log = s.log ++ ((c :: t).length, v) :: new) ∨
    (∃ flags width prec lens rest, s.ptr = flags ++ (width ++ (prec ++ (lens ++ percent :: rest))) ∧
      (∀ c ∈ flags, c ∈ flagChars) ∧ (∀ c ∈ width, isDigit c) ∧
      (prec = [] ∨ ∃ ds, prec = dot :: ds ∧ ∀ c ∈ ds, isDigit c) ∧ (∀ c ∈ lens, c ∈ lengthChars) ∧
      s' = { s with ptr := percent :: rest }) := by
  obtain ⟨⟨flags, ptr₀⟩, hscan, h⟩ := bind_eq_ok.mp h
  obtain ⟨s₁, hwidth, h⟩ := bind_eq_ok.mp h
  obtain ⟨s₂, hprec, h⟩ := bind_eq_ok.mp h
  obtain ⟨new₂, hr₂⟩ := precision_ran hprec
  obtain ⟨new₃, hr₃⟩ := conversion_ran h
  obtain ⟨hm, hfl, c₀, t₀, hptr₀, -⟩ := scan_inv hscan
  have h0fl : (0 : UInt8) ∉ flags := zero_notMem_of_append (hptr₀ ▸ hs.symm.trans hm) h0
  have hflags : ∀ c ∈ flags, c ∈ flagChars := by
    intro c hc
    rcases of_decide_eq_true (hfl c hc) with hc' | rfl
    · exact hc'
    · exact absurd hc h0fl
  have hnone : ∀ c ∈ ([] : List UInt8), c ∈ lengthChars := nofun
  rcases width_cases hwidth with ⟨t, v, hp, hlog⟩ | ⟨width, ptr₁, hp, hw, rfl⟩
  · refine .inl ⟨flags, star, t, v, new₂ ++ new₃, ?_, ?_, by decide, ?_⟩
    · rw [hm]
      exact congrArg (flags ++ ·) hp
    · have hnodigit : ∀ c ∈ ([] : List UInt8), isDigit c := nofun
      simpa using Filler.percent_notMem hflags hnodigit (.inl rfl) hnone
    · rw [hr₃.log, hr₂.log, hlog]
      simp only [List.append_assoc, List.cons_append, List.nil_append]
  · simp only at hp
    subst hp
    rcases precision_cases hprec with ⟨t, v, hp, hlog⟩ | ⟨prec, ptr₂, hp, hprec', rfl⟩
    · simp only at hp
      subst hp
      refine .inl ⟨flags ++ (width ++ [dot]), star, t, v, new₃, ?_, ?_, by decide, ?_⟩
      · rw [hm]
        simp only [List.append_assoc, List.cons_append, List.nil_append]
      · have hdot : [dot] = [] ∨ ∃ ds, [dot] = dot :: ds ∧ ∀ c ∈ ds, isDigit c :=
          .inr ⟨[], rfl, nofun⟩
        simpa using Filler.percent_notMem hflags hw hdot hnone
      · rw [hr₃.log, hlog]
        simp only [List.append_assoc, List.cons_append, List.nil_append]
    · simp only at hp
      subst hp
      obtain ⟨lens, c, t, hp, hl, hc⟩ := conversion_cases h
      simp only at hp
      subst hp
      rcases hc with ⟨hc, v, hlog⟩ | ⟨rfl, rfl⟩
      · refine .inl ⟨flags ++ (width ++ (prec ++ lens)), c, t, v, [], ?_,
          Filler.percent_notMem hflags hw hprec' hl, hc, hlog⟩
        rw [hm]
        simp only [List.append_assoc]
      · exact .inr ⟨flags, width, prec, lens, t, hm, hflags, hw, hprec', hl, rfl⟩

/-- A skipped conversion does not come back. -/
theorem conversion_skipped {put : Sink σ} {fuel : ℕ} {s s' : Valog σ} {w : Value}
    {more : List (ℕ × Value)} (h : s.conversion put >>= Valog.loop put fuel = .ok s')
    (hlog : s'.log = s.log ++ (s.ptr.length + 1, w) :: more) : False := by
  obtain ⟨s₁, h₁, h₂⟩ := bind_eq_ok.mp h
  obtain ⟨new₁, hr₁⟩ := conversion_ran h₁
  obtain ⟨new₂, hr₂⟩ := loop_ran h₂
  have hr := hr₁.trans hr₂
  have he := List.append_cancel_left (hr.log.symm.trans hlog)
  have hle := hr.places (s.ptr.length + 1, w) (he ▸ List.mem_cons_self)
  exact absurd hle (Nat.not_succ_le_self _)

/-- A star as precision, when it is read well. -/
theorem precision_star_well {put : Sink σ} (htotal : ∀ x v, ∃ r, put x v = .ok r)
    {lens : List Length} {conv : Conv} {v w : Value} (hv : v.kind = .int)
    (hw : w.kind = conv.kind lens) {X : List UInt8} {ap : List Value} {x : σ} {t fuel : ℕ}
    {log more : List (ℕ × Value)} {s' : Valog σ}
    (h : (Valog.precision put ⟨precText (some .star) ++ (lens.map Length.char ++ conv.char :: X),
      v :: w :: ap, x, t, log⟩ >>= Valog.conversion put) >>= Valog.loop put fuel = .ok s')
    (hlog : s'.log = log ++ (X.length + 1 + lens.length + 1, v) :: (X.length + 1, w) :: more) :
    ∃ len ls, lens = len :: ls ∧ conv.kind ls = conv.kind lens := by
  obtain ⟨⟨y, r⟩, hput⟩ := htotal x v
  rw [precision_star_value hv hput lens conv X (w :: ap) t log, ok_bind] at h
  cases lens with
  | nil =>
    have hlog' : s'.log = (log ++ [(X.length + 1 + ([] : List Length).length + 1, v)]) ++
        (X.length + 1, w) :: more := by
      rw [hlog, List.append_assoc]
      rfl
    exact (conversion_skipped h hlog').elim
  | cons len ls =>
    refine ⟨len, ls, rfl, ?_⟩
    obtain ⟨s₁, h₁, -⟩ := bind_eq_ok.mp h
    rw [List.map_cons, List.cons_append, List.tail_cons, conversion_eq put rfl (lens_mem ls) conv.stops,
      convKind_char, ok_bind] at h₁
    obtain ⟨v', hk', -, hr⟩ := printBintype_ran h₁
    have hargs := hr.args
    simp only [List.map_cons, List.map_nil, List.cons_append, List.cons.injEq] at hargs
    rw [← hk', ← hargs.1, hw]

/-- A specification whose values are taken at their places is read well. -/
theorem specification_well {put : Sink σ} (htotal : ∀ x v, ∃ r, put x v = .ok r) {sp : Spec}
    {vs ws : List Value} (hk : vs.map Value.kind = sp.kinds) {X : List UInt8} {x : σ} {t fuel : ℕ}
    {log more : List (ℕ × Value)} {s' : Valog σ}
    (h : Valog.specification put ⟨sp.text ++ X, vs ++ ws, x, t, log⟩ >>= Valog.loop put fuel =
      .ok s') (hlog : s'.log = log ++ ((sp.places X.length).zip vs ++ more)) : sp.EncodesWell := by
  by_cases hp : sp.prec = some .star
  swap
  · unfold Spec.EncodesWell
    split
    · rename_i he _
      exact absurd he hp
    · rename_i he _
      exact absurd he hp
    · trivial
  suffices hwell : ∃ len ls, sp.lens = len :: ls ∧ sp.conv.kind ls = sp.conv.kind sp.lens by
    obtain ⟨len, ls, hl, hkind⟩ := hwell
    rw [Spec.EncodesWell, hp, hl]
    rw [hl] at hkind
    exact hkind
  have htext : sp.text ++ X = sp.flags.map Flag.char ++ (sp.width.text ++ (precText (some .star) ++
      (sp.lens.map Length.char ++ sp.conv.char :: X))) := by
    rw [← hp]
    simp only [Spec.text, List.append_assoc, List.singleton_append]
  rw [htext] at h
  cases hwidth : sp.width with
  | digits ds =>
    have hk' : vs.map Value.kind = [.int, sp.conv.kind sp.lens] := by
      rw [hk, Spec.kinds, hwidth, hp]
      rfl
    obtain ⟨v, vs', rfl, hv, hk''⟩ := List.map_eq_cons_iff.mp hk'
    obtain ⟨w, vs'', rfl, hw, hnil⟩ := List.map_eq_cons_iff.mp hk''
    obtain rfl := List.map_eq_nil_iff.mp hnil
    have hflags := flags_width_digits put (s := ⟨sp.flags.map Flag.char ++ ((Field.digits ds).text ++
      (precText (some .star) ++ (sp.lens.map Length.char ++ sp.conv.char :: X))), v :: w :: ws, x, t,
      log⟩) rfl sp.flags_mem (Field.text_digits ds) dot_afterWidth
    rw [hwidth, List.cons_append, List.cons_append, List.nil_append, hflags] at h
    have hlog' : s'.log = log ++
        (X.length + 1 + sp.lens.length + 1, v) :: (X.length + 1, w) :: more := by
      rw [hlog, Spec.places, hwidth, hp]
      rfl
    exact precision_star_well htotal hv hw h hlog'
  | star =>
    have hk' : vs.map Value.kind = [.int, .int, sp.conv.kind sp.lens] := by
      rw [hk, Spec.kinds, hwidth, hp]
      rfl
    obtain ⟨u, us, rfl, hu, hk''⟩ := List.map_eq_cons_iff.mp hk'
    obtain ⟨v, vs', rfl, hv, hk'''⟩ := List.map_eq_cons_iff.mp hk''
    obtain ⟨w, vs'', rfl, hw, hnil⟩ := List.map_eq_cons_iff.mp hk'''
    obtain rfl := List.map_eq_nil_iff.mp hnil
    obtain ⟨⟨y, r⟩, hput⟩ := htotal x u
    generalize hY : precText (some .star) ++ (sp.lens.map Length.char ++ sp.conv.char :: X) = Y at h
    have hlen : Y.length + 1 = X.length + 1 + sp.lens.length + (precText sp.prec).length + 1 := by
      rw [← hY, hp]
      simp only [List.length_append, List.length_map, List.length_cons]
      omega
    have hflags := flags_width_star put (s := ⟨sp.flags.map Flag.char ++ (Field.star.text ++ Y),
      u :: (v :: w :: ws), x, t, log⟩) (t := Y) rfl sp.flags_mem
    have hlog' : s'.log = (log ++ [(Y.length + 1, u)]) ++
        (X.length + 1 + sp.lens.length + 1, v) :: (X.length + 1, w) :: more := by
      rw [hlog, Spec.places, hwidth, List.append_assoc log, hlen, hp]
      rfl
    rw [hwidth, List.cons_append, List.cons_append, List.cons_append, List.nil_append, hflags] at h
    simp only [printBintype_eq hu hput, ok_bind, List.tail_cons, List.length_cons] at h
    subst hY
    exact precision_star_well htotal hv hw h hlog'

theorem putAll_total {put : Sink σ} (htotal : ∀ x v, ∃ r, put x v = .ok r) (x : σ)
    (vs : List Value) : ∃ y n, putAll put x vs = .ok (y, n) := by
  induction vs generalizing x with
  | nil => exact ⟨x, 0, rfl⟩
  | cons v vs ih =>
    obtain ⟨⟨x', r⟩, hput⟩ := htotal x v
    obtain ⟨y, n, hrest⟩ := ih x'
    refine ⟨y, r + n, ?_⟩
    simp only [putAll, hput, hrest, ok_bind]

/-- Text that the second of two percent signs absorbs ends at the next percent sign of the format. -/
theorem filler_of_append {items : List Item} {flags width prec lens rest : List UInt8}
    (h : textOf items ++ [0] = flags ++ (width ++ (prec ++ (lens ++ percent :: rest)))) :
    ∃ rest', rest = rest' ++ [0] ∧
      textOf items = flags ++ (width ++ (prec ++ (lens ++ percent :: rest'))) := by
  have h' : textOf items ++ [0] = flags ++ (width ++ (prec ++ lens)) ++ percent :: rest := by
    rw [h]
    simp only [List.append_assoc]
  rcases List.eq_nil_or_concat rest with rfl | ⟨rest', d, rfl⟩
  · have hlast := List.append_inj_right' h' rfl
    cases hlast
  · rw [List.concat_eq_append, ← List.cons_append, ← List.append_assoc] at h'
    have hd := List.append_inj_right' h' rfl
    have htext := List.append_inj_left' h' rfl
    cases hd
    refine ⟨rest', List.concat_eq_append, ?_⟩
    rw [htext]
    simp only [List.append_assoc]

/-- When the values are taken at their places, the format encodes well. The induction is on the
number of items, as before. -/
theorem encodesWell_of_loop {put : Sink σ} (htotal : ∀ x v, ∃ r, put x v = .ok r)
    {items : List Item} {args : List Value} (hk : args.map Value.kind = kindsOf items) {x : σ}
    {fuel t : ℕ} {log : List (ℕ × Value)} {s' : Valog σ}
    (h : Valog.loop put fuel ⟨textOf items ++ [0], args, x, t, log⟩ = .ok s')
    (hlog : s'.log = log ++ valuesOf items args) : EncodesWell items := by
  induction hm : items.length using Nat.strong_induction_on generalizing items args x fuel t log with
  | _ m ih =>
    subst hm
    cases fuel with
    | zero => cases h
    | succ fuel =>
    cases items with
    | nil => trivial
    | cons i items =>
      cases i with
      | literal c =>
        rw [textOf_cons, List.append_assoc, Item.text, List.singleton_append, loop_literal] at h
        have he : EncodesWell items := ih items.length (Nat.lt_succ_self _) hk h hlog rfl
        exact he
      | percents =>
        rw [textOf_cons, List.append_assoc, Item.text, List.cons_append, List.cons_append,
          List.nil_append] at h
        cases fuel with
        | zero =>
          rw [loop_percent, specification_percent, ok_bind] at h
          cases h
        | succ fuel =>
        rw [loop_percents] at h
        obtain ⟨s₁, h₁, h₂⟩ := bind_eq_ok.mp h
        rcases specification_cases rfl (zero_notMem_textOf items) h₁ with
          ⟨a, c, u, v, new, hm, ha, hc, hlog₁⟩ | ⟨flags, width, prec, lens, rest, hm, hfl, hw, hp, hl, rfl⟩
        · obtain ⟨new', hr⟩ := loop_ran h₂
          have hvalues : valuesOf items args = ((c :: u).length, v) :: (new ++ new') := by
            have happend : log ++ valuesOf items args =
                log ++ ((c :: u).length, v) :: (new ++ new') := by
              rw [← List.cons_append, ← List.append_assoc, ← hlog₁, ← hr.log]
              exact hlog.symm
            exact List.append_cancel_left happend
          have hmem : (c :: u).length ∈ placesOf items :=
            (List.of_mem_zip (hvalues ▸ List.mem_cons_self : ((c :: u).length, v) ∈ _)).1
          have hm' : textOf items ++ [0] = (a ++ [c]) ++ u := by
            rw [List.append_assoc, List.singleton_append]
            exact hm
          have ha' : percent ∉ a ++ [c] := by
            rw [List.mem_append, List.mem_singleton, not_or]
            exact ⟨ha, hc.symm⟩
          exact absurd (places_le hm' ha' _ hmem) (Nat.not_succ_le_self _)
        · obtain ⟨rest', rfl, htext⟩ := filler_of_append hm
          have htext' : textOf items = flags ++ (width ++ (prec ++ lens)) ++ percent :: rest' := by
            rw [htext]
            simp only [List.append_assoc]
          obtain ⟨lits, items', rfl, hnext⟩ :=
            split_literals htext' (Filler.percent_notMem hfl hw hp hl)
          obtain ⟨hkinds, hplaces, hwell⟩ := literals_append lits items'
          have hlen : items'.length <
              (Item.percents :: (lits.map Item.literal ++ items')).length := by
            rw [List.length_cons, List.length_append]
            omega
          have hvalues : valuesOf (.percents :: (lits.map Item.literal ++ items')) args =
              valuesOf items' args := congrArg (List.zip · args) hplaces
          rw [hvalues] at hlog
          rw [← List.cons_append, ← hnext] at h₂
          have hrest := ih items'.length hlen (hk.trans hkinds) h₂ hlog rfl
          exact ⟨⟨flags, width, prec, lens, rest', htext, hfl, hw, hp, hl⟩, hwell.mpr hrest⟩
      | spec sp =>
        obtain ⟨vs, ws, rfl, hvs, hws⟩ := split_spec hk
        rw [textOf_cons, List.append_assoc, Item.text, List.cons_append, loop_percent] at h
        rw [valuesOf_spec hvs] at hlog
        have hX : (textOf items ++ [0]).length = (textOf items).length + 1 := List.length_append
        have hsp := specification_well htotal hvs h (hX ▸ hlog)
        obtain ⟨y, n, hput⟩ := putAll_total htotal x vs
        rw [specification_values hsp hvs hput, ok_bind, hX] at h
        rw [← List.append_assoc] at hlog
        exact ⟨hsp, ih items.length (Nat.lt_succ_self _) hws h hlog rfl⟩

end CcUtils.Binlog
