import CcUtils.Binlog.Parser
import CcUtils.Binlog.Printf

/-!
# What `print_format` prints

For each specification `print_format` builds one without stars and gives it to `fprintf`. Put together,
the texts are to be what `printf` writes for the whole format with the same arguments. They are not
where a star has lost its sign: `COPY_VA_INT` takes the absolute value, and so a negative width loses
the `-` flag that it stands for, and a negative precision, which is none, becomes one.

## What is proved

* `values_of_loop` — a format that is accepted finds the values it takes in the record.
* `Spec.meaning_filled` — what the specification without stars means.
* `rendersAsPrintf_iff` — the text is that of `printf` exactly where no sign is lost.
-/

namespace CcUtils.Binlog

open CcUtils.Lib

/-! ### What is in the record -/

theorem VaList.Ahead.load_head {vl : VaList} {b : UInt8} {bs : List UInt8} (h : vl.Ahead (b :: bs)) :
    load vl.buf vl.off 1 = .ok [b] := by
  obtain ⟨pre, post, hbuf, hoff, -⟩ := h
  rw [hbuf]
  exact load_append pre [b] (bs ++ post) hoff rfl

theorem getWord_tag {w n : ℕ} {vl vl' : VaList} {tag : UInt8} {v : BitVec w}
    (h : getWord w n vl tag = .ok (v, vl')) : load vl.buf vl.off 1 = .ok [tag] := by
  obtain ⟨_, -, h⟩ := bind_eq_ok.mp h
  obtain ⟨t, htag, h⟩ := bind_eq_ok.mp h
  obtain ⟨_, ht, -⟩ := bind_eq_ok.mp h
  rw [htag, check_eq_ok.mp ht]

/-- Where a value is read there is its tag. -/
theorem getValue_tag {vl vl' : VaList} {k : Kind} {v : Value} (h : getValue vl k = .ok (v, vl')) :
    load vl.buf vl.off 1 = .ok [k.tag] := by
  cases k with
  | int =>
    obtain ⟨⟨w, vl₁⟩, hw, -⟩ := bind_eq_ok.mp h
    exact getWord_tag hw
  | long =>
    obtain ⟨⟨w, vl₁⟩, hw, -⟩ := bind_eq_ok.mp h
    exact getWord_tag hw
  | double =>
    obtain ⟨⟨w, vl₁⟩, hw, -⟩ := bind_eq_ok.mp h
    exact getWord_tag hw
  | string =>
    obtain ⟨⟨s, vl₁⟩, hs, -⟩ := bind_eq_ok.mp h
    obtain ⟨_, -, hs⟩ := bind_eq_ok.mp hs
    obtain ⟨_, -, hs⟩ := bind_eq_ok.mp hs
    obtain ⟨t, htag, hs⟩ := bind_eq_ok.mp hs
    obtain ⟨_, ht, -⟩ := bind_eq_ok.mp hs
    rw [htag, check_eq_ok.mp ht]
  | pointer =>
    obtain ⟨⟨w, vl₁⟩, hw, -⟩ := bind_eq_ok.mp h
    exact getWord_tag hw

theorem Kind.tag_inj {k k' : Kind} (h : k.tag = k'.tag) : k = k' := by
  revert h
  cases k <;> cases k' <;> decide

/-- The value read is the next one of the record. -/
theorem getValue_ahead {vl vl' : VaList} {args : List Value} {rest : List UInt8}
    (hvl : vl.Ahead (bytesOf args ++ blogEnd :: rest)) {k : Kind} {v : Value}
    (h : getValue vl k = .ok (v, vl')) : ∃ ws, args = v :: ws ∧ v.kind = k := by
  have htag := getValue_tag h
  cases args with
  | nil =>
    rw [VaList.Ahead.load_head hvl] at htag
    have hend : blogEnd = k.tag := (List.cons.inj (Except.ok.inj htag)).1
    exact absurd hend (by cases k <;> decide)
  | cons a args =>
    rw [bytesOf_cons, List.append_assoc] at hvl
    rw [VaList.Ahead.load_head hvl] at htag
    have hkind : a.kind = k := Kind.tag_inj (List.cons.inj (Except.ok.inj htag)).1
    have hget := hvl.getValue
    rw [hkind, h] at hget
    cases hget
    exact ⟨args, rfl, hkind⟩

/-- A width, or a precision behind its dot, finds the value that it takes. -/
theorem values_of_width {f : Field} {s : Printing} {t : List UInt8} (hs : s.ptr = f.text ++ t)
    {args : List Value} {rest : List UInt8} (hvl : s.vl.Ahead (bytesOf args ++ blogEnd :: rest))
    {specifier : List UInt8} {r : Printing × List UInt8} (h : s.width specifier = .ok r) :
    ∃ us ws, args = us ++ ws ∧ us.map Value.kind = f.kinds := by
  cases f with
  | digits ds => exact ⟨[], args, rfl, rfl⟩
  | star =>
    rw [width_star_eq hs] at h
    obtain ⟨⟨value, vl⟩, hget, -⟩ := bind_eq_ok.mp h
    have hget' : getValue s.vl .int = .ok (.int value, vl) := by
      simp only [getValue, hget, ok_bind]
    obtain ⟨ws, rfl, -⟩ := getValue_ahead hvl hget'
    exact ⟨[.int value], ws, rfl, rfl⟩

/-- So does a precision. -/
theorem values_of_precision {prec : Option Field} {s : Printing} {t : List UInt8}
    (hs : s.ptr = precText prec ++ t) {args : List Value} {rest : List UInt8}
    (hvl : s.vl.Ahead (bytesOf args ++ blogEnd :: rest)) {specifier : List UInt8}
    {r : Printing × List UInt8} (h : s.precision specifier = .ok r) :
    ∃ ps ws, args = ps ++ ws ∧ ps.map Value.kind = precKinds prec := by
  cases prec with
  | none => exact ⟨[], args, rfl, rfl⟩
  | some f =>
    have hs' : s.ptr = dot :: (f.text ++ t) := hs
    simp only [Printing.precision, hs', peek_cons, ok_bind, if_true, List.tail_cons] at h
    obtain ⟨specifier', -, h⟩ := bind_eq_ok.mp h
    exact values_of_width (s := { s with ptr := f.text ++ t }) rfl hvl h

/-- And so does the conversion. -/
theorem values_of_conversion {fprintf : Fprintf} {lens : List Length} {conv : Conv} {s s' : Printing}
    {X : List UInt8} (hs : s.ptr = lens.map Length.char ++ conv.char :: X) {args : List Value}
    {rest : List UInt8} (hvl : s.vl.Ahead (bytesOf args ++ blogEnd :: rest)) {specifier : List UInt8}
    (h : s.conversion fprintf specifier = .ok s') :
    ∃ v ws, args = v :: ws ∧ v.kind = conv.kind lens := by
  simp only [Printing.conversion, hs, takeWhile_lengths (lens_mem lens) conv.stops.length X,
    scanLengths_append (lens_mem lens) conv.stops.length X, ok_bind,
    peek_cons, convKind_char, Printing.printType] at h
  obtain ⟨specifier', -, h⟩ := bind_eq_ok.mp h
  obtain ⟨⟨v, vl⟩, hget, -⟩ := bind_eq_ok.mp h
  obtain ⟨ws, rfl, hk⟩ := getValue_ahead hvl hget
  exact ⟨v, ws, rfl, hk⟩

/-- A specification that is read finds the values it takes. -/
theorem values_of_specification {fprintf : Fprintf} {sp : Spec} {s s' : Printing} {X : List UInt8}
    (hs : s.ptr = sp.text ++ X) {args : List Value} {rest : List UInt8}
    (hvl : s.vl.Ahead (bytesOf args ++ blogEnd :: rest)) (h : s.specification fprintf = .ok s') :
    ∃ vs ws, args = vs ++ ws ∧ vs.map Value.kind = sp.kinds := by
  obtain ⟨y, t, hy, hafter⟩ := sp.afterWidth X
  obtain ⟨y', t', hy', hafter', hdot⟩ := Spec.head_lens sp.lens sp.conv X
  have hs₀ : s.ptr = sp.flags.map Flag.char ++ (sp.width.text ++ y :: t) := by
    rw [hs, ← hy]
    simp only [Spec.text, List.append_assoc, List.singleton_append]
  have hwidth : ∃ us ws, args = us ++ ws ∧ us.map Value.kind = sp.width.kinds := by
    cases hw : sp.width with
    | digits ds => exact ⟨[], args, rfl, rfl⟩
    | star =>
      rw [hw] at hs₀
      have hscan := scan_flags_star sp.flags_mem (y :: t)
      have hs₁ : s.ptr = sp.flags.map Flag.char ++ star :: (y :: t) := hs₀
      simp only [Printing.specification, hs₁, hscan, ok_bind] at h
      obtain ⟨specifier, -, h⟩ := bind_eq_ok.mp h
      obtain ⟨r, hr, -⟩ := bind_eq_ok.mp h
      exact @values_of_width .star { s with ptr := star :: y :: t } (y :: t) rfl args rest hvl _ _ hr
  obtain ⟨us, args, rfl, hus⟩ := hwidth
  rw [bytesOf_append, List.append_assoc] at hvl
  have hvl₁ := hvl.skip
  rw [← List.append_assoc, ← bytesOf_append] at hvl
  obtain ⟨⟨-, hfit⟩, h⟩ :=
    (specification_width_iff fprintf hus hs₀ sp.flags_mem hafter hvl).mp h
  obtain ⟨r, hr, h⟩ := bind_eq_ok.mp h
  have hptr := hy.symm.trans (congrArg (precText sp.prec ++ ·) hy')
  obtain ⟨ps, args, rfl, hps⟩ := values_of_precision hptr hvl₁ hr
  have hle : (percent :: (sp.flags.map Flag.char ++
      sp.width.rebuilt (us ++ (ps ++ args)))).length ≤ specifierSize := by
    rw [List.length_cons, List.length_append]
    omega
  obtain ⟨-, rfl⟩ := (precision_iff hps hptr hafter' hdot hvl₁ hle).mp hr
  rw [bytesOf_append, List.append_assoc] at hvl₁
  obtain ⟨v, ws, rfl, hv⟩ := values_of_conversion hy'.symm hvl₁.skip h
  refine ⟨us ++ (ps ++ [v]), ws, ?_, ?_⟩
  · simp only [List.append_assoc, List.singleton_append]
  · simp only [List.map_append, hus, hps, List.map_cons, hv, List.map_nil, Spec.kinds]

/-- `fprintf` does not fail. -/
def Total (fprintf : Fprintf) : Prop := ∀ specifier v, fprintf specifier v ≠ none

/-- A format that is accepted finds the values it takes, and is read well. -/
theorem values_of_loop {fprintf : Fprintf} (htotal : Total fprintf) {items : List Item}
    {args : List Value} {fuel : ℕ} {s s' : Printing} (hs : s.ptr = textOf items ++ [0])
    {rest : List UInt8} (hvl : s.vl.Ahead (bytesOf args ++ blogEnd :: rest))
    (hfail : s.failed = false) (h : Printing.loop fprintf fuel s = .ok s') :
    DecodesWell fprintf items args ∧
      ∃ vs ws, args = vs ++ ws ∧ vs.map Value.kind = kindsOf items := by
  induction items generalizing args fuel s with
  | nil => exact ⟨trivial, [], args, rfl, rfl⟩
  | cons i items ih =>
    rw [textOf_cons, List.append_assoc] at hs
    cases fuel with
    | zero => cases h
    | succ fuel =>
    cases i with
    | literal c =>
      rw [printing_literal fprintf fuel c (textOf items ++ [0]) s hs] at h
      exact ih (s := ⟨textOf items ++ [0], s.vl, s.out ++ [c.val], s.totalPrinted + 1, s.failed, s.got⟩)
        rfl hvl hfail h
    | percents =>
      rw [printing_percents fprintf fuel (textOf items ++ [0]) s hs hfail] at h
      exact ih (s := ⟨textOf items ++ [0], s.vl, s.out ++ [percent], s.totalPrinted + 1, false, s.got⟩)
        rfl hvl rfl h
    | spec sp =>
      rw [Item.text, List.cons_append] at hs
      rw [printing_percent fprintf fuel (sp.text ++ (textOf items ++ [0])) s hs] at h
      obtain ⟨s₁, hspec, h⟩ := bind_eq_ok.mp h
      obtain ⟨us, args, rfl, hus⟩ := values_of_specification
        (s := { s with ptr := sp.text ++ (textOf items ++ [0]) }) rfl hvl hspec
      obtain ⟨hsp, rfl⟩ := (specification_iff fprintf hus
        (s := { s with ptr := sp.text ++ (textOf items ++ [0]) }) rfl hvl).mp hspec
      have hvl' : (s.vl.skip (bytesOf us).length).Ahead (bytesOf args ++ blogEnd :: rest) := by
        rw [bytesOf_append, List.append_assoc] at hvl
        exact hvl.skip
      cases hp : sp.printed fprintf (us ++ args) with
      | none =>
        -- there is a last value, and with it `fprintf` does not fail
        obtain ⟨us', v, rfl, -⟩ := Spec.exists_last hus
        rw [Spec.printed, Spec.getLast?_take hus args] at hp
        exact absurd hp (htotal _ v)
      | some text =>
        rw [hp] at h
        simp only [Printing.after, hfail, Bool.false_eq_true, if_false] at h
        obtain ⟨hd, vs, ws, rfl, hvs⟩ := ih rfl hvl' rfl h
        refine ⟨⟨hsp, ?_, ?_⟩, us ++ vs, ws, ?_, ?_⟩
        · intro _
          rw [hp]
          exact fun h => by cases h
        · rw [drop_kinds hus]
          exact hd
        · rw [List.append_assoc]
        · rw [List.map_append, hus, hvs]
          rfl

/-! ### Specifications without stars -/

/-- A star is replaced by the digits of the next value. -/
def Field.filled : Field → List Value → Field
  | .star, .int v :: _ => .digits (fieldDigits (decimal v.toInt.natAbs))
  | f, _ => f

/-- So it is in a precision. -/
def precFilled : Option Field → List Value → Option Field
  | none, _ => none
  | some f, args => some (f.filled args)

/-- The specification that `print_format` builds. -/
def Spec.filled (s : Spec) (args : List Value) : Spec :=
  { s with
    width := s.width.filled args
    prec := precFilled s.prec (args.drop s.width.kinds.length) }

theorem Field.text_filled (f : Field) (args : List Value) : (f.filled args).text = f.rebuilt args := by
  cases f with
  | digits ds => rfl
  | star =>
    rcases args with _ | ⟨v, args⟩
    · rfl
    · cases v with
      | int v => exact text_fieldDigits (decimal_isDigit _)
      | long v => rfl
      | double v => rfl
      | string s => rfl
      | pointer v => rfl

theorem Spec.rebuilt_eq (s : Spec) (args : List Value) :
    s.rebuilt args = percent :: (s.filled args).text := by
  have hprec : precText (precFilled s.prec (args.drop s.width.kinds.length)) =
      precRebuilt s.prec (args.drop s.width.kinds.length) := by
    cases s.prec with
    | none => rfl
    | some f => exact congrArg (dot :: ·) (f.text_filled _)
  rw [Spec.rebuilt, Spec.text, Spec.filled, Field.text_filled, hprec]

/-- A star that has its value becomes digits, and these denote the absolute value. -/
theorem Field.filled_eq {f : Field} {us : List Value} (hk : us.map Value.kind = f.kinds)
    (ws : List Value) : ∃ ds, f.filled (us ++ ws) = .digits ds ∧
      numberOf (Field.digits ds).text = (f.value (us ++ ws)).natAbs := by
  cases f with
  | digits ds =>
    refine ⟨ds, rfl, ?_⟩
    rw [Field.value_digits, Int.natAbs_natCast]
  | star =>
    obtain ⟨v, rfl⟩ := Field.star_values hk
    refine ⟨fieldDigits (decimal v.toInt.natAbs), rfl, ?_⟩
    rw [text_fieldDigits (decimal_isDigit _), numberOf_decimal]
    rfl

theorem Field.value_filled {f : Field} {us : List Value} (hk : us.map Value.kind = f.kinds)
    (ws args : List Value) :
    (f.filled (us ++ ws)).value args = (f.value (us ++ ws)).natAbs := by
  obtain ⟨ds, hf, hvalue⟩ := Field.filled_eq hk ws
  rw [hf, Field.value_digits, hvalue]

theorem Field.kinds_filled {f : Field} {us : List Value} (hk : us.map Value.kind = f.kinds)
    (ws : List Value) : (f.filled (us ++ ws)).kinds = [] := by
  obtain ⟨ds, hf, -⟩ := Field.filled_eq hk ws
  rw [hf]
  rfl

/-- The zero of a width that is zero is read as a flag; otherwise the flags stay. -/
theorem Spec.flagText_filled {sp : Spec} {us : List Value} (hk : us.map Value.kind = sp.width.kinds)
    (ws : List Value) : (sp.filled (us ++ ws)).flagText = sp.flagText ∨
      sp.width.value (us ++ ws) = 0 ∧ (sp.filled (us ++ ws)).flagText = sp.flagText ++ [48] := by
  simp only [Spec.flagText, Spec.filled, Field.text_filled, List.takeWhile_append_of_pos sp.flags_isFlag]
  cases hw : sp.width with
  | digits ds => exact .inl rfl
  | star =>
    rw [hw] at hk
    obtain ⟨v, rfl⟩ := Field.star_values hk
    have hstar : Field.star.text.takeWhile isFlag = [] := rfl
    have hdigits : Field.star.rebuilt ([.int v] ++ ws) = decimal v.toInt.natAbs := rfl
    rw [hstar, hdigits, List.append_nil]
    by_cases h0 : v.toInt.natAbs = 0
    · refine .inr ⟨Int.natAbs_eq_zero.mp h0, ?_⟩
      rw [h0]
      rfl
    · rw [takeWhile_decimal h0, List.append_nil]
      exact .inl rfl

/-- With the absolute values instead of the numbers, a meaning differs in its `-` flag and its
precision. -/
theorem meaningOf_natAbs {flags flags' : List UInt8} {width : ℤ} (prec : Option ℤ)
    (lens : List UInt8) (conv : UInt8)
    (h : flags' = flags ∨ width = 0 ∧ flags' = flags ++ [48]) :
    meaningOf flags' width.natAbs (prec.map fun p => (p.natAbs : ℤ)) lens conv =
      { meaningOf flags width prec lens conv with
        left := decide (45 ∈ flags)
        prec := prec.map Int.natAbs } := by
  have hflag : ∀ c : UInt8, c ≠ 48 → (c ∈ flags' ↔ c ∈ flags) := by
    intro c hc
    rcases h with rfl | ⟨-, rfl⟩
    · rfl
    · simp [hc]
  have hzero : 48 ∈ flags' ∧ (width.natAbs : ℤ) ≠ 0 ↔ 48 ∈ flags ∧ width ≠ 0 := by
    rcases h with rfl | ⟨rfl, -⟩
    · simp
    · simp
  have hwidth : ¬ (width.natAbs : ℤ) < 0 := by omega
  have hprec : (prec.map fun p => (p.natAbs : ℤ)).bind
      (fun p => if p < 0 then none else some p.natAbs) = prec.map Int.natAbs := by
    cases prec with
    | none => rfl
    | some p =>
      have hp : ¬ (p.natAbs : ℤ) < 0 := by omega
      simp only [Option.map_some, Option.bind_some, if_neg hp, Int.natAbs_natCast]
  simp only [meaningOf, hflag 45 (by decide), hflag 43 (by decide), hflag 32 (by decide),
    hflag 35 (by decide), hzero, hwidth, or_false, hprec, Int.natAbs_natCast]

/-- What the specification without stars means. -/
theorem Spec.meaning_filled {sp : Spec} {vs : List Value} (hk : vs.map Value.kind = sp.kinds)
    (ws args : List Value) : (sp.filled (vs ++ ws)).meaning args =
      { sp.meaning (vs ++ ws) with
        left := decide (45 ∈ sp.flagText)
        prec := (precValue sp.prec ((vs ++ ws).drop sp.width.kinds.length)).map Int.natAbs } := by
  obtain ⟨us, ps, v, rfl, hus, hps, -⟩ := Spec.split_values hk
  have hargs : us ++ (ps ++ [v]) ++ ws = us ++ (ps ++ ([v] ++ ws)) := by
    simp only [List.append_assoc]
  have hprec : ∀ args, precValue (precFilled sp.prec (ps ++ ([v] ++ ws))) args =
      (precValue sp.prec (ps ++ ([v] ++ ws))).map fun p => (p.natAbs : ℤ) := by
    intro args
    cases hp : sp.prec with
    | none => rfl
    | some f =>
      rw [hp] at hps
      exact congrArg some (Field.value_filled hps ([v] ++ ws) args)
  have hflags := Spec.flagText_filled hus (ps ++ ([v] ++ ws))
  rw [hargs, Spec.meaning, Spec.meaning, drop_kinds hus, ← meaningOf_natAbs _ _ _ hflags,
    ← Field.value_filled hus _ args]
  simp only [Spec.filled, drop_kinds hus, hprec]

/-! ### Signs -/

/-- No sign is lost: with a negative width there is a `-` flag, and no precision is negative. -/
def Spec.KeepsSigns (s : Spec) (args : List Value) : Prop :=
  (s.width.value args < 0 → .minus ∈ s.flags) ∧
    ∀ p ∈ precValue s.prec (args.drop s.width.kinds.length), 0 ≤ p

theorem Spec.minus_mem (s : Spec) : 45 ∈ s.flagText ↔ .minus ∈ s.flags := by
  have hwidth : 45 ∉ s.width.text.takeWhile isFlag := by
    intro h
    have hmem := List.takeWhile_subset _ h
    cases hw : s.width with
    | digits ds =>
      rw [hw] at hmem
      exact absurd (Field.text_digits ds 45 hmem) (by decide)
    | star =>
      rw [hw] at hmem
      exact absurd hmem (by decide)
  rw [Spec.flagText, List.takeWhile_append_of_pos s.flags_isFlag, List.mem_append,
    or_iff_left hwidth, List.mem_map]
  constructor
  · rintro ⟨f, hf, he⟩
    cases f with
    | minus => exact hf
    | plus => cases he
    | space => cases he
    | hash => cases he
    | zero => cases he
  · intro h
    exact ⟨.minus, h, rfl⟩

/-- Where no sign is lost a specification means the same without its stars. -/
theorem Spec.KeepsSigns.meaning_eq {sp : Spec} {vs ws : List Value} (h : sp.KeepsSigns (vs ++ ws))
    (hk : vs.map Value.kind = sp.kinds) (args : List Value) :
    (sp.filled (vs ++ ws)).meaning args = sp.meaning (vs ++ ws) := by
  obtain ⟨hwidth, hprec⟩ := h
  rw [← sp.minus_mem] at hwidth
  have hleft : decide (45 ∈ sp.flagText) = (sp.meaning (vs ++ ws)).left :=
    decide_eq_decide.mpr (or_iff_left_of_imp hwidth).symm
  have hprec' : (precValue sp.prec ((vs ++ ws).drop sp.width.kinds.length)).map Int.natAbs =
      (sp.meaning (vs ++ ws)).prec := by
    rw [Spec.meaning, meaningOf]
    cases hp : precValue sp.prec ((vs ++ ws).drop sp.width.kinds.length) with
    | none => rfl
    | some p =>
      have hpos := hprec p hp
      simp only [Option.map_some, Option.bind_some, if_neg (not_lt.mpr hpos)]
  rw [Spec.meaning_filled hk, hleft, hprec']

/-- Where a sign is lost the meaning has lost its `-` flag or has got a precision. -/
theorem Spec.keepsSigns_of_meaning {sp : Spec} {vs ws : List Value}
    (hk : vs.map Value.kind = sp.kinds) {args : List Value}
    (hleft : ((sp.filled (vs ++ ws)).meaning args).left = (sp.meaning (vs ++ ws)).left)
    (hprec : ((sp.filled (vs ++ ws)).meaning args).prec.isNone =
      (sp.meaning (vs ++ ws)).prec.isNone) : sp.KeepsSigns (vs ++ ws) := by
  rw [Spec.meaning_filled hk] at hleft hprec
  constructor
  · intro hneg
    exact sp.minus_mem.mp ((decide_eq_decide.mp hleft).mpr (.inr hneg))
  · intro p hp
    by_contra hneg
    have hp' : precValue sp.prec ((vs ++ ws).drop sp.width.kinds.length) = some p := hp
    simp only [Spec.meaning, meaningOf, hp', Option.map_some, Option.bind_some,
      if_pos (not_le.mp hneg)] at hprec
    cases hprec

/-! ### Whole formats -/

/-- A property of each specification of a format, with the arguments from its values on. -/
def EverySpec (P : Spec → List Value → Prop) : List Item → List Value → Prop
  | [], _ => True
  | .spec sp :: items, args => P sp args ∧ EverySpec P items (args.drop sp.kinds.length)
  | _ :: items, args => EverySpec P items args

/-- No sign is lost in a format. -/
def KeepsSigns : List Item → List Value → Prop := EverySpec Spec.KeepsSigns

theorem EverySpec.mono {P Q : Spec → List Value → Prop} {items : List Item} {vs ws : List Value}
    (hk : vs.map Value.kind = kindsOf items)
    (hPQ : ∀ sp us ws, us.map Value.kind = sp.kinds → P sp (us ++ ws) → Q sp (us ++ ws))
    (h : EverySpec P items (vs ++ ws)) : EverySpec Q items (vs ++ ws) := by
  induction items generalizing vs with
  | nil => trivial
  | cons i items ih =>
    cases i with
    | literal c => exact ih hk h
    | percents => exact ih hk h
    | spec sp =>
      obtain ⟨us, vs', rfl, hus, hvs'⟩ := split_spec hk
      rw [List.append_assoc] at h ⊢
      obtain ⟨hsp, hitems⟩ := h
      refine ⟨hPQ sp us _ hus hsp, ?_⟩
      rw [drop_kinds hus] at hitems ⊢
      exact ih hvs' hitems

theorem writtenBy_congr {write write' : Spec → List Value → List UInt8} {items : List Item}
    {args : List Value} (h : EverySpec (fun sp args => write sp args = write' sp args) items args) :
    writtenBy write items args = writtenBy write' items args := by
  induction items generalizing args with
  | nil => rfl
  | cons i items ih =>
    cases i with
    | literal c => exact congrArg (c.val :: ·) (ih h)
    | percents => exact congrArg (percent :: ·) (ih h)
    | spec sp =>
      obtain ⟨hsp, hitems⟩ := h
      rw [writtenBy, writtenBy, hsp, ih hitems]

/-- Texts of equal lengths can be told apart in what they are part of. -/
theorem writtenBy_inj {write write' : Spec → List Value → List UInt8}
    (hlen : ∀ sp args, (write sp args).length = (write' sp args).length) {items : List Item}
    {args : List Value} (h : writtenBy write items args = writtenBy write' items args) :
    EverySpec (fun sp args => write sp args = write' sp args) items args := by
  induction items generalizing args with
  | nil => trivial
  | cons i items ih =>
    cases i with
    | literal c => exact ih (List.cons.inj h).2
    | percents => exact ih (List.cons.inj h).2
    | spec sp =>
      obtain ⟨hsp, hitems⟩ := List.append_inj h (hlen sp args)
      exact ⟨hsp, ih hitems⟩

/-! ### What `print_format` makes of it -/

/-- The text of a specification without its stars. -/
def Spec.reprinted (render : Renderer) (s : Spec) (args : List Value) : List UInt8 :=
  ((args.take s.kinds.length).getLast?.map (render ((s.filled args).meaning []))).getD []

/-- Without its stars a specification takes one value. -/
theorem Spec.kinds_filled {sp : Spec} {vs : List Value} (hk : vs.map Value.kind = sp.kinds)
    (ws : List Value) : (sp.filled (vs ++ ws)).kinds = [sp.conv.kind sp.lens] := by
  obtain ⟨us, ps, v, rfl, hus, hps, -⟩ := Spec.split_values hk
  have hprec : precKinds (precFilled sp.prec (ps ++ ([v] ++ ws))) = [] := by
    cases hp : sp.prec with
    | none => rfl
    | some f =>
      rw [hp] at hps
      exact Field.kinds_filled hps ([v] ++ ws)
  simp only [List.append_assoc, Spec.kinds, Spec.filled, drop_kinds hus, hprec,
    Field.kinds_filled hus, List.nil_append]

/-- What `fprintf` prints is the rendering of the specification without stars. -/
theorem Spec.printed_fprintfOf (render : Renderer) {sp : Spec} {vs : List Value}
    (hk : vs.map Value.kind = sp.kinds) (ws : List Value) :
    sp.printed (fprintfOf render) (vs ++ ws) = some (sp.reprinted render (vs ++ ws)) := by
  have hfilled := Spec.kinds_filled hk ws
  have hmeaning : ∀ args, (sp.filled (vs ++ ws)).meaning args = (sp.filled (vs ++ ws)).meaning [] :=
    fun args => (Spec.meaning_filled hk ws args).trans (Spec.meaning_filled hk ws []).symm
  obtain ⟨us, v, rfl, hv⟩ := Spec.exists_last hk
  have hlast := Spec.getLast?_take hk ws
  have hkinds : [v].map Value.kind = kindsOf [.spec (sp.filled (us ++ [v] ++ ws))] := by
    rw [kindsOf_spec, hfilled]
    exact congrArg (· :: []) hv
  have htext : textOf [.spec (sp.filled (us ++ [v] ++ ws))] = sp.rebuilt (us ++ [v] ++ ws) := by
    rw [Spec.rebuilt_eq, textOf_cons, Item.text]
    exact List.append_nil _
  have hprintf := printf_textOf render hkinds []
  rw [htext, List.append_nil, writtenBy, Spec.rendered, hfilled, hmeaning] at hprintf
  rw [Spec.printed, hlast, Option.bind_some, Spec.reprinted, hlast, fprintfOf, hprintf]
  exact congrArg some (List.append_nil _)

/-- With the `printf` of C as its `fprintf`, `print_format` puts together what it makes of the
specifications. -/
theorem printedOf_fprintfOf (render : Renderer) {items : List Item} {vs : List Value}
    (hk : vs.map Value.kind = kindsOf items) (ws : List Value) :
    printedOf (fprintfOf render) items (vs ++ ws) =
      writtenBy (Spec.reprinted render) items (vs ++ ws) := by
  induction items generalizing vs with
  | nil => rfl
  | cons i items ih =>
    cases i with
    | literal c => exact congrArg (c.val :: ·) (ih hk)
    | percents => exact congrArg (percent :: ·) (ih hk)
    | spec sp =>
      obtain ⟨us, vs', rfl, hus, hvs'⟩ := split_spec hk
      rw [List.append_assoc, printedOf, Spec.printed_fprintfOf render hus, writtenBy, drop_kinds hus]
      exact congrArg (_ ++ ·) (ih hvs')

/-- It does not matter to the reading what `fprintf` prints, if it does not fail. -/
theorem decodesWell_fprintfOf {fprintf : Fprintf} (render : Renderer) {items : List Item}
    {vs ws : List Value} (hk : vs.map Value.kind = kindsOf items)
    (hd : DecodesWell fprintf items (vs ++ ws)) :
    DecodesWell (fprintfOf render) items (vs ++ ws) := by
  induction items generalizing vs with
  | nil => trivial
  | cons i items ih =>
    cases i with
    | literal c => exact ih hk hd
    | percents => exact ih hk hd
    | spec sp =>
      obtain ⟨us, vs', rfl, hus, hvs'⟩ := split_spec hk
      obtain ⟨hsp, -, hd⟩ := hd
      rw [List.append_assoc] at hsp hd ⊢
      rw [drop_kinds hus] at hd
      refine ⟨hsp, fun _ => ?_, ?_⟩
      · rw [Spec.printed_fprintfOf render hus]
        exact nofun
      · rw [drop_kinds hus]
        exact ih hvs' hd

/-! ### Rendering -/

/-- The reader on the first of the values of a record, and behind them the end mark. -/
def readerOf (pre : List UInt8) (args : List Value) (post : List UInt8) : VaList :=
  ⟨((pre ++ bytesOf args).length + 1 : ℕ), pre.length, pre ++ (bytesOf args ++ ([blogEnd] ++ post))⟩

/-- `print_format` accepts a format with the arguments of a call. -/
def Accepts (format : CString) (args : List Value) : Prop :=
  ∃ s, printFormat (fun _ _ => some []) format (readerOf [] args []) = .ok s

/-- Wherever the record lies in memory and however values are rendered: what `print_format` prints is
what `printf` writes, if that is defined. -/
def RendersAsPrintf (format : CString) (args : List Value) : Prop :=
  ∀ render pre post text, printf render format.val args = some text →
    ∃ s, printFormat (fprintfOf render) format (readerOf pre args post) = .ok s ∧ s.out = text

/-- A rendering that shows only whether there is a `-` flag and whether there is no precision. -/
def mark : Renderer := fun m _ => [if m.left then 1 else 0, if m.prec.isNone then 1 else 0]

/-- What the marks show. -/
theorem mark_inj {m m' : Meaning} (v : Value) (h : mark m v = mark m' v) :
    m.left = m'.left ∧ m.prec.isNone = m'.prec.isNone := by
  have hbit : ∀ b b' : Bool, (if b then (1 : UInt8) else 0) = (if b' then 1 else 0) → b = b' := by
    decide
  obtain ⟨hleft, hprec⟩ := List.cons.inj h
  exact ⟨hbit _ _ hleft, hbit _ _ (List.cons.inj hprec).1⟩

/-- The two texts of a format of items that is accepted. -/
theorem texts_of_accepts {items : List Item} {args : List Value} (ha : Accepts (formatOf items) args) :
    ∃ vs ws, args = vs ++ ws ∧ vs.map Value.kind = kindsOf items ∧
      ∀ render, printf render (textOf items) args =
          some (writtenBy (Spec.rendered render) items args) ∧
        ∀ pre post, ∃ s, printFormat (fprintfOf render) (formatOf items) (readerOf pre args post) =
          .ok s ∧ s.out = writtenBy (Spec.reprinted render) items args := by
  obtain ⟨s, hs⟩ := ha
  have htotal : Total fun _ _ => some [] := fun _ _ => nofun
  obtain ⟨hd, vs, ws, rfl, hk⟩ := values_of_loop htotal rfl (ahead_end [] [] args) rfl hs
  refine ⟨vs, ws, rfl, hk, fun render => ⟨printf_textOf render hk ws, fun pre post => ?_⟩⟩
  obtain ⟨s, hok, -, -, hout⟩ :=
    printFormat_prints (decodesWell_fprintfOf render hk hd) hk (ahead_end pre post (vs ++ ws))
  exact ⟨s, hok, hout.trans (printedOf_fprintfOf render hk ws)⟩

/-- For a format of items: the text is that of `printf` exactly where no sign is lost. -/
theorem renders_iff_keepsSigns {items : List Item} {args : List Value}
    (ha : Accepts (formatOf items) args) :
    RendersAsPrintf (formatOf items) args ↔ KeepsSigns items args := by
  obtain ⟨vs, ws, rfl, hk, htexts⟩ := texts_of_accepts ha
  constructor
  · intro h
    obtain ⟨hprintf, hprint⟩ := htexts mark
    obtain ⟨s, hs, hout⟩ := h mark [] [] _ hprintf
    obtain ⟨s', hs', hout'⟩ := hprint [] []
    obtain rfl := Except.ok.inj (hs.symm.trans hs')
    have hlen : ∀ (sp : Spec) args,
        (sp.reprinted mark args).length = (sp.rendered mark args).length := by
      intro sp args
      rw [Spec.reprinted, Spec.rendered]
      cases (args.take sp.kinds.length).getLast? <;> rfl
    -- the marks of one specification are as long as those of another
    refine EverySpec.mono hk ?_ (writtenBy_inj hlen (hout'.symm.trans hout))
    intro sp us ws hus heq
    obtain ⟨us, v, rfl, -⟩ := Spec.exists_last hus
    rw [Spec.reprinted, Spec.rendered, Spec.getLast?_take hus] at heq
    obtain ⟨hleft, hprec⟩ := mark_inj v heq
    exact Spec.keepsSigns_of_meaning hus hleft hprec
  · intro h render pre post text htext
    obtain ⟨hprintf, hprint⟩ := htexts render
    obtain ⟨s, hs, hout⟩ := hprint pre post
    obtain rfl := Option.some.inj (hprintf.symm.trans htext)
    refine ⟨s, hs, hout.trans (writtenBy_congr (EverySpec.mono hk ?_ h))⟩
    intro sp us ws hus hsigns
    rw [Spec.reprinted, Spec.rendered, hsigns.meaning_eq hus]

/-- It does not matter how the text of a format is taken apart. -/
theorem keepsSigns_congr {items items' : List Item} (he : formatOf items = formatOf items')
    {args : List Value} (ha : Accepts (formatOf items) args) :
    KeepsSigns items args ↔ KeepsSigns items' args := by
  have h := renders_iff_keepsSigns ha
  rw [he] at h ha
  exact h.symm.trans (renders_iff_keepsSigns ha)

/-- The text that `print_format` prints for a format that it accepts is what `printf` writes, exactly
where no star loses its sign. -/
theorem rendersAsPrintf_iff (format : CString) (args : List Value) (ha : Accepts format args) :
    RendersAsPrintf format args ↔ ∀ items, formatOf items = format → KeepsSigns items args := by
  constructor
  · rintro h items rfl
    exact (renders_iff_keepsSigns ha).mp h
  · intro h render pre post text htext
    obtain ⟨items, rfl⟩ := items_of_printf htext
    exact (renders_iff_keepsSigns ha).mpr (h items rfl) render pre post text htext

/-- `"%-*d"` with the width -5: the `-` flag is there. -/
theorem rendersAsPrintf_minus :
    RendersAsPrintf (formatOf [.spec ⟨[.minus], .star, none, [], .d⟩]) [.int (-5), .int 42] := by
  have ha : Accepts (formatOf [.spec ⟨[.minus], .star, none, [], .d⟩]) [.int (-5), .int 42] :=
    ⟨_, rfl⟩
  refine (rendersAsPrintf_iff _ _ ha).mpr fun items he => ?_
  refine (keepsSigns_congr he.symm ha).mp ⟨⟨fun _ => List.mem_cons_self, nofun⟩, trivial⟩

/-- A rendering of `int`s with `%d` that knows of the width and the `-` flag. -/
def padded : Renderer := fun m v =>
  match v with
  | .int v =>
    let text := signedDecimal v.toInt
    let fill := List.replicate (m.width - text.length) 32
    if m.left then text ++ fill else fill ++ text
  | _ => []

/-- `"%*d"` with the width -5: the number is to stand at the left of five characters, and stands at
the right. -/
theorem printFormat_loses_sign :
    (∃ s, doValog collect (formatOf [.spec ⟨[], .star, none, [], .d⟩]) [.int (-5), .int 42] [] =
      .ok s ∧ s.sink = [.int (-5), .int 42]) ∧
    Accepts (formatOf [.spec ⟨[], .star, none, [], .d⟩]) [.int (-5), .int 42] ∧
    printf padded (textOf [.spec ⟨[], .star, none, [], .d⟩]) [.int (-5), .int 42] =
      some (ascii "42   ") ∧
    ¬ RendersAsPrintf (formatOf [.spec ⟨[], .star, none, [], .d⟩]) [.int (-5), .int 42] := by
  have hprintf : printf padded (textOf [.spec ⟨[], .star, none, [], .d⟩]) [.int (-5), .int 42] =
      some (ascii "42   ") := by decide
  refine ⟨⟨_, rfl, rfl⟩, ⟨_, rfl⟩, hprintf, ?_⟩
  intro h
  obtain ⟨s, hs, hout⟩ := h padded [] [] _ hprintf
  have hright : printFormat (fprintfOf padded) (formatOf [.spec ⟨[], .star, none, [], .d⟩])
      (readerOf [] [.int (-5), .int 42] []) >>= (fun s => .ok s.out) = .ok (ascii "   42") := by
    decide
  rw [hs, ok_bind, hout] at hright
  exact absurd (Except.ok.inj hright) (by decide)

end CcUtils.Binlog
