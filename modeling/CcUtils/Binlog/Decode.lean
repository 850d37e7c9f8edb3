import CcUtils.Binlog.Grammar

/-!
# What `print_format` reads

`print_format` on the text of a format, with the values of its arguments ahead of the reader. Its
pointer is always where it should be, so each value is read at its place; what can go wrong is the
array `specifier`, the absolute value of a star, and `fprintf`.

## What is proved

* `specification_iff` — when a specification is read, and what is read for it.
* `loop_reads` — on a format that decodes well, the values are read at their places.
* `decodesWell_of_loop` — when they are, the format decodes well.
-/

namespace CcUtils.Binlog

open CcUtils.Lib

/-! ### The specifier -/

theorem copyTo_eq_ok {specifier chars r : List UInt8} :
    copyTo specifier chars = .ok r ↔
      specifier.length + chars.length ≤ specifierSize ∧ r = specifier ++ chars := by
  constructor
  · intro h
    obtain ⟨_, hc, h⟩ := bind_eq_ok.mp h
    cases h
    exact ⟨check_eq_ok.mp hc, rfl⟩
  · rintro ⟨hc, rfl⟩
    simp only [copyTo, check_true hc, ok_bind]

/-- Copying, and what comes after it. -/
theorem copyTo_bind_iff {β : Type} {specifier chars : List UInt8} {f : List UInt8 → Exec β} {b : β} :
    (copyTo specifier chars >>= f) = .ok b ↔
      specifier.length + chars.length ≤ specifierSize ∧ f (specifier ++ chars) = .ok b :=
  bind_eq_ok_iff fun _ => copyTo_eq_ok

/-- A star: the next value is read, and its digits go to the specifier with a NUL. -/
theorem copyVaInt_iff {s : Printing} {v : BitVec 32} {rest specifier : List UInt8}
    (hvl : s.vl.Ahead ((Value.int v).bytes ++ rest)) {r : Printing × List UInt8} :
    s.copyVaInt specifier = .ok r ↔ (v ≠ BitVec.intMin 32 ∧
      specifier.length + (decimal v.toInt.natAbs).length + 1 ≤ specifierSize) ∧
      r = (⟨s.ptr.tail, s.vl.skip (Value.int v).bytes.length, s.out, s.totalPrinted, s.failed,
        s.got ++ [(s.ptr.length, .int v)]⟩, specifier ++ decimal v.toInt.natAbs) := by
  have hget : getInt s.vl = .ok (v, s.vl.skip (1 + 4)) := VaList.Ahead.getWord hvl (by decide)
  have hlen : (Value.int v).bytes.length = 1 + 4 := rfl
  rw [hlen]
  constructor
  · intro h
    rw [Printing.copyVaInt_eq, hget, ok_bind] at h
    obtain ⟨_, hmin, h⟩ := bind_eq_ok.mp h
    obtain ⟨_, hfit, h⟩ := bind_eq_ok.mp h
    cases h
    exact ⟨⟨check_eq_ok.mp hmin, check_eq_ok.mp hfit⟩, rfl⟩
  · rintro ⟨⟨hmin, hfit⟩, rfl⟩
    simp only [Printing.copyVaInt_eq, hget, ok_bind, check_true hmin, check_true hfit]

/-- Digits go to the specifier as they are. -/
theorem width_digits_iff {s : Printing} {ds t specifier : List UInt8} {y : UInt8}
    (hs : s.ptr = ds ++ y :: t) (hds : ∀ c ∈ ds, isDigit c) (hy : AfterWidth y)
    {r : Printing × List UInt8} :
    s.width specifier = .ok r ↔ specifier.length + ds.length ≤ specifierSize ∧
      r = ({ s with ptr := y :: t }, specifier ++ ds) := by
  obtain ⟨hdig, c, hpeek, hc⟩ := scan_digits hds hy t
  simp only [Printing.width, hs, hpeek, ok_bind, if_neg hc, hdig]
  rw [copyTo_bind_iff, Except.ok.injEq, eq_comm]

theorem width_star_eq {s : Printing} {t : List UInt8} (hs : s.ptr = star :: t)
    (specifier : List UInt8) : s.width specifier = s.copyVaInt specifier := by
  simp only [Printing.width, hs, peek_cons, ok_bind, if_true]

/-- A width, or a precision behind its dot. -/
theorem width_iff {f : Field} {vs : List Value} (hk : vs.map Value.kind = f.kinds) {s : Printing}
    {y : UInt8} {t : List UInt8} (hs : s.ptr = f.text ++ y :: t) (hy : AfterWidth y)
    {more : List Value} {rest : List UInt8} (hvl : s.vl.Ahead (bytesOf (vs ++ more) ++ rest))
    {specifier : List UInt8} {r : Printing × List UInt8} :
    s.width specifier = .ok r ↔ (f.HasAbs (vs ++ more) ∧
      specifier.length + (f.rebuilt (vs ++ more)).length + f.kinds.length ≤ specifierSize) ∧
      r = (⟨y :: t, s.vl.skip (bytesOf vs).length, s.out, s.totalPrinted, s.failed,
        s.got ++ (f.kinds.map fun _ => (y :: t).length + 1).zip vs⟩,
        specifier ++ f.rebuilt (vs ++ more)) := by
  cases f with
  | digits ds =>
    obtain rfl := List.map_eq_nil_iff.mp hk
    have habs : (Field.digits ds).HasAbs ([] ++ more) := fun h => absurd rfl h
    have hgot : s.got ++ ((Field.digits ds).kinds.map fun _ => (y :: t).length + 1).zip [] = s.got := by
      rw [List.zip_nil_right, List.append_nil]
    rw [width_digits_iff hs (Field.text_digits ds) hy, hgot]
    exact ⟨fun ⟨hfit, hr⟩ => ⟨⟨habs, hfit⟩, hr⟩, fun ⟨⟨_, hfit⟩, hr⟩ => ⟨hfit, hr⟩⟩
  | star =>
    obtain ⟨v, rfl⟩ := Field.star_values hk
    have hvl' : s.vl.Ahead ((Value.int v).bytes ++ (bytesOf more ++ rest)) := by
      rw [← List.append_assoc]
      exact hvl
    have hlen : bytesOf [Value.int v] = (Value.int v).bytes := List.append_nil _
    have habs : Field.star.HasAbs ([.int v] ++ more) ↔ v ≠ BitVec.intMin 32 := by
      simp [Field.HasAbs, Field.kinds]
    rw [width_star_eq hs, copyVaInt_iff hvl', habs, hlen, hs]
    rfl

/-- The flags and the width. -/
theorem specification_width_iff (fprintf : Fprintf) {f : Field} {vs : List Value}
    (hk : vs.map Value.kind = f.kinds) {s : Printing} {fl t : List UInt8} {y : UInt8}
    (hs : s.ptr = fl ++ (f.text ++ y :: t)) (hfl : ∀ c ∈ fl, c ∈ flagChars) (hy : AfterWidth y)
    {more : List Value} {rest : List UInt8} (hvl : s.vl.Ahead (bytesOf (vs ++ more) ++ rest))
    {s' : Printing} :
    s.specification fprintf = .ok s' ↔ (f.HasAbs (vs ++ more) ∧
      1 + fl.length + (f.rebuilt (vs ++ more)).length + f.kinds.length ≤ specifierSize) ∧
      (Printing.precision ⟨y :: t, s.vl.skip (bytesOf vs).length, s.out, s.totalPrinted, s.failed,
        s.got ++ (f.kinds.map fun _ => (y :: t).length + 1).zip vs⟩
        (percent :: (fl ++ f.rebuilt (vs ++ more))) >>= fun p => p.1.conversion fprintf p.2) =
        .ok s' := by
  cases f with
  | digits ds =>
    obtain rfl := List.map_eq_nil_iff.mp hk
    obtain ⟨a, b, hab, hscan, -⟩ := scan_flags_digits hfl (Field.text_digits ds) hy t
    have hb : ∀ c ∈ b, isDigit c := by
      intro c hc
      apply Field.text_digits ds c
      rw [hab]
      exact List.mem_append_right a hc
    have hlen : ((Field.digits ds).rebuilt ([] ++ more)).length = a.length + b.length := by
      rw [← List.length_append, ← hab]
      rfl
    have hsplit : percent :: (fl ++ (Field.digits ds).rebuilt ([] ++ more)) =
        [percent] ++ (fl ++ a) ++ b := by
      rw [List.append_assoc, List.append_assoc, ← hab]
      rfl
    have hgot : s.got ++ ((Field.digits ds).kinds.map fun _ => (y :: t).length + 1).zip [] = s.got := by
      rw [List.zip_nil_right, List.append_nil]
    have habs : (Field.digits ds).HasAbs ([] ++ more) := fun h => absurd rfl h
    have hw {specifier} {r} := @width_digits_iff { s with ptr := b ++ y :: t } b t specifier y rfl hb hy r
    simp only [Printing.specification, hs, hscan, ok_bind]
    rw [hgot, hsplit, hlen, copyTo_bind_iff, bind_eq_ok_iff fun _ => hw]
    simp only [List.length_append, List.length_singleton]
    constructor
    · rintro ⟨-, hfit, h⟩
      refine ⟨⟨habs, ?_⟩, h⟩
      change 1 + fl.length + (a.length + b.length) + 0 ≤ specifierSize
      omega
    · rintro ⟨⟨-, hfit⟩, h⟩
      change 1 + fl.length + (a.length + b.length) + 0 ≤ specifierSize at hfit
      exact ⟨by omega, by omega, h⟩
  | star =>
    have hw {specifier} {r} := @width_iff .star vs hk { s with ptr := Field.star.text ++ y :: t } y t rfl
      hy more rest hvl specifier r
    have hscan : scan (strchr flagChars) (fl ++ (Field.star.text ++ y :: t)) =
        .ok (fl, Field.star.text ++ y :: t) := scan_flags_star hfl (y :: t)
    simp only [Printing.specification, hs, hscan, ok_bind]
    rw [copyTo_bind_iff, bind_eq_ok_iff fun _ => hw]
    simp only [List.length_append, List.length_singleton]
    constructor
    · rintro ⟨-, hfit, h⟩
      exact ⟨hfit, h⟩
    · rintro ⟨⟨habs, hfit⟩, h⟩
      exact ⟨by omega, ⟨habs, hfit⟩, h⟩

/-- The precision. -/
theorem precision_iff {prec : Option Field} {vs : List Value}
    (hk : vs.map Value.kind = precKinds prec) {s : Printing} {y : UInt8} {t : List UInt8}
    (hs : s.ptr = precText prec ++ y :: t) (hy : AfterWidth y) (hdot : y ≠ dot)
    {more : List Value} {rest : List UInt8} (hvl : s.vl.Ahead (bytesOf (vs ++ more) ++ rest))
    {specifier : List UInt8} (hle : specifier.length ≤ specifierSize) {r : Printing × List UInt8} :
    s.precision specifier = .ok r ↔ (precHasAbs prec (vs ++ more) ∧
      specifier.length + (precRebuilt prec (vs ++ more)).length + (precKinds prec).length ≤
        specifierSize) ∧
      r = (⟨y :: t, s.vl.skip (bytesOf vs).length, s.out, s.totalPrinted, s.failed,
        s.got ++ ((precKinds prec).map fun _ => (y :: t).length + 1).zip vs⟩,
        specifier ++ precRebuilt prec (vs ++ more)) := by
  cases prec with
  | none =>
    obtain rfl := List.map_eq_nil_iff.mp hk
    have hs' : s.ptr = y :: t := hs
    have hsame : (⟨y :: t, s.vl.skip (bytesOf []).length, s.out, s.totalPrinted, s.failed,
        s.got ++ ((precKinds none).map fun _ => (y :: t).length + 1).zip []⟩ : Printing) = s := by
      rw [List.zip_nil_right, List.append_nil, ← hs']
      rfl
    rw [hsame]
    have habs : precHasAbs none ([] ++ more) := fun h => absurd rfl h
    have hprec : s.precision specifier = .ok (s, specifier ++ precRebuilt none ([] ++ more)) := by
      rw [precRebuilt, List.append_nil]
      simp only [Printing.precision, hs', peek_cons, ok_bind, if_neg hdot]
    rw [hprec]
    constructor
    · intro h
      exact ⟨⟨habs, hle⟩, (Except.ok.inj h).symm⟩
    · rintro ⟨-, rfl⟩
      rfl
  | some f =>
    have hs' : s.ptr = dot :: (f.text ++ y :: t) := hs
    have hw {r} := @width_iff f vs hk { s with ptr := f.text ++ y :: t } y t rfl hy more rest hvl
      (specifier ++ [dot]) r
    have hlen : (specifier ++ [dot]).length + (f.rebuilt (vs ++ more)).length + f.kinds.length =
        specifier.length + (precRebuilt (some f) (vs ++ more)).length +
          (precKinds (some f)).length := by
      simp only [precRebuilt, precKinds, List.length_append, List.length_cons, List.length_nil]
      omega
    have hsplit : specifier ++ [dot] ++ f.rebuilt (vs ++ more) =
        specifier ++ precRebuilt (some f) (vs ++ more) := by
      rw [List.append_assoc]
      rfl
    rw [hlen, hsplit] at hw
    have hroom : specifier.length + (precRebuilt (some f) (vs ++ more)).length +
        (precKinds (some f)).length ≤ specifierSize → specifier.length + [dot].length ≤ specifierSize := by
      simp only [precRebuilt, List.length_cons, List.length_nil]
      omega
    simp only [Printing.precision, hs', peek_cons, ok_bind, if_true, List.tail_cons]
    rw [copyTo_bind_iff, hw]
    exact ⟨fun h => h.2, fun h => ⟨hroom h.1.2, h⟩⟩

/-- Behind a specification: what `fprintf` made of it is printed, or it failed. -/
def Printing.after (s : Printing) (ptr : List UInt8) (vl : VaList) (got : List (ℕ × Value)) :
    Option (List UInt8) → Printing
  | none => ⟨ptr, vl, s.out, s.totalPrinted, true, s.got ++ got⟩
  | some text => ⟨ptr, vl, s.out ++ text, s.totalPrinted + text.length, s.failed, s.got ++ got⟩

/-- The length modifiers and the conversion. -/
theorem conversion_iff (fprintf : Fprintf) {lens : List Length} {conv : Conv} {v : Value}
    (hk : v.kind = conv.kind lens) {s : Printing} {X : List UInt8}
    (hs : s.ptr = lens.map Length.char ++ conv.char :: X) {rest : List UInt8}
    (hvl : s.vl.Ahead (v.bytes ++ rest)) {specifier : List UInt8} {s' : Printing} :
    s.conversion fprintf specifier = .ok s' ↔
      specifier.length + lens.length + 2 ≤ specifierSize ∧
      s' = s.after X (s.vl.skip v.bytes.length) [(X.length + 1, v)]
        (fprintf (specifier ++ (lens.map Length.char ++ [conv.char])) v) := by
  have hcopy {q} : copyTo specifier (lens.map Length.char) = .ok q ↔
      specifier.length + lens.length ≤ specifierSize ∧ q = specifier ++ lens.map Length.char := by
    rw [copyTo_eq_ok, List.length_map]
  have hsplit : specifier ++ lens.map Length.char ++ [conv.char] =
      specifier ++ (lens.map Length.char ++ [conv.char]) := List.append_assoc _ _ _
  have hget := hvl.getValue
  rw [hk] at hget
  simp only [Printing.conversion, hs, takeWhile_lengths (lens_mem lens) conv.stops.length X,
    scanLengths_append (lens_mem lens) conv.stops.length X, ok_bind,
    peek_cons, convKind_char, Printing.printType, hget, List.tail_cons, List.length_cons]
  constructor
  · intro h
    obtain ⟨specifier', hc, h⟩ := bind_eq_ok.mp h
    obtain ⟨-, rfl⟩ := hcopy.mp hc
    obtain ⟨_, hfit, h⟩ := bind_eq_ok.mp h
    have hfit' := check_eq_ok.mp hfit
    rw [List.length_append, List.length_map] at hfit'
    refine ⟨hfit', ?_⟩
    rw [hsplit] at h
    generalize fprintf (specifier ++ (lens.map Length.char ++ [conv.char])) v = text at h ⊢
    cases text with
    | none => exact (Except.ok.inj h).symm
    | some text => exact (Except.ok.inj h).symm
  · rintro ⟨hfit, rfl⟩
    have hfit' : (specifier ++ lens.map Length.char).length + 2 ≤ specifierSize := by
      rw [List.length_append, List.length_map]
      exact hfit
    rw [hcopy.mpr ⟨by omega, rfl⟩, ok_bind, check_true hfit', ok_bind, hsplit]
    generalize fprintf (specifier ++ (lens.map Length.char ++ [conv.char])) v = text
    cases text with
    | none => rfl
    | some text => rfl

/-- Two parts that read values, one after another. -/
theorem Printing.after_after (s : Printing) (ptr ptr' : List UInt8) (vl vl' : VaList)
    (got got' : List (ℕ × Value)) (text : Option (List UInt8)) :
    Printing.after ⟨ptr', vl', s.out, s.totalPrinted, s.failed, s.got ++ got'⟩ ptr vl got text =
      s.after ptr vl (got' ++ got) text := by
  cases text with
  | none => simp only [Printing.after, List.append_assoc]
  | some text => simp only [Printing.after, List.append_assoc]

/-- What `fprintf` gets: the parts of the specifier together, and the last value. -/
theorem Spec.printed_values (fprintf : Fprintf) {sp : Spec} {us ps ws : List Value} {v : Value}
    (hus : us.map Value.kind = sp.width.kinds) (hps : ps.map Value.kind = precKinds sp.prec)
    (hv : v.kind = sp.conv.kind sp.lens) : sp.printed fprintf (us ++ (ps ++ ([v] ++ ws))) =
      fprintf (percent :: (sp.flags.map Flag.char ++ sp.width.rebuilt (us ++ (ps ++ ([v] ++ ws)))) ++
        precRebuilt sp.prec (ps ++ ([v] ++ ws)) ++ (sp.lens.map Length.char ++ [sp.conv.char])) v := by
  have hk : (us ++ ps ++ [v]).map Value.kind = sp.kinds := by
    simp only [List.map_append, hus, hps, List.map_cons, hv, List.map_nil, Spec.kinds,
      List.append_assoc]
  have hlast := Spec.getLast?_take hk ws
  simp only [List.append_assoc] at hlast
  rw [Spec.printed, hlast, Option.bind_some, Spec.rebuilt, drop_kinds hus]
  simp only [List.append_assoc, List.cons_append]

/-- The places of the values, with what is left of the text at each of them. -/
theorem Spec.places_values {sp : Spec} {X P L : List UInt8}
    (hL : sp.lens.map Length.char ++ sp.conv.char :: X = L) (hP : precText sp.prec ++ L = P)
    {us ps : List Value} {v : Value} (hus : us.map Value.kind = sp.width.kinds)
    (hps : ps.map Value.kind = precKinds sp.prec) :
    (sp.places X.length).zip (us ++ (ps ++ [v])) =
      (sp.width.kinds.map fun _ => P.length + 1).zip us ++
        (((precKinds sp.prec).map fun _ => L.length + 1).zip ps ++ [(X.length + 1, v)]) := by
  have hlenL : L.length = X.length + 1 + sp.lens.length := by
    rw [← hL]
    simp only [List.length_append, List.length_map, List.length_cons]
    omega
  have hlenP : P.length = X.length + 1 + sp.lens.length + (precText sp.prec).length := by
    rw [← hP, List.length_append, hlenL]
    omega
  rw [hlenL, hlenP, Spec.places, List.append_assoc,
    List.zip_append (by rw [List.length_map, ← hus, List.length_map]),
    List.zip_append (by rw [List.length_map, ← hps, List.length_map])]
  rfl

/-- A star takes at most one value. -/
theorem Field.length_kinds_le (f : Field) : f.kinds.length ≤ 1 := by
  cases f with
  | digits ds => exact Nat.zero_le _
  | star => exact le_rfl

theorem length_precKinds_le (prec : Option Field) : (precKinds prec).length ≤ 1 := by
  cases prec with
  | none => exact Nat.zero_le _
  | some f => exact f.length_kinds_le

/-- A specification is read when it decodes well, and then its values are read at their places. -/
theorem specification_iff (fprintf : Fprintf) {sp : Spec} {vs ws : List Value}
    (hk : vs.map Value.kind = sp.kinds) {s : Printing} {X : List UInt8} (hs : s.ptr = sp.text ++ X)
    {rest : List UInt8} (hvl : s.vl.Ahead (bytesOf (vs ++ ws) ++ rest)) {s' : Printing} :
    s.specification fprintf = .ok s' ↔ sp.DecodesWell (vs ++ ws) ∧
      s' = s.after X (s.vl.skip (bytesOf vs).length) ((sp.places X.length).zip vs)
        (sp.printed fprintf (vs ++ ws)) := by
  obtain ⟨us, ps, v, rfl, hus, hps, hv⟩ := Spec.split_values hk
  obtain ⟨y, t, hy, hafter⟩ := sp.afterWidth X
  obtain ⟨y', t', hy', hafter', hdot⟩ := Spec.head_lens sp.lens sp.conv X
  have hargs : us ++ (ps ++ [v]) ++ ws = us ++ (ps ++ ([v] ++ ws)) := by
    simp only [List.append_assoc]
  have hprinted := @Spec.printed_values fprintf sp us ps ws v hus hps hv
  have hs₀ : s.ptr = sp.flags.map Flag.char ++ (sp.width.text ++ y :: t) := by
    rw [hs, ← hy]
    simp only [Spec.text, List.append_assoc, List.singleton_append]
  rw [hy'] at hy
  have hplaces := Spec.places_values hy' hy (v := v) hus hps
  rw [hargs] at hvl ⊢
  have hvl₁ : (s.vl.skip (bytesOf us).length).Ahead (bytesOf (ps ++ ([v] ++ ws)) ++ rest) := by
    rw [bytesOf_append, List.append_assoc] at hvl
    exact hvl.skip
  have hvl₂ : ((s.vl.skip (bytesOf us).length).skip (bytesOf ps).length).Ahead
      (v.bytes ++ (bytesOf ws ++ rest)) := by
    rw [bytesOf_append, List.append_assoc] at hvl₁
    have hskip := hvl₁.skip
    rwa [bytesOf_append, bytesOf_cons, bytesOf_nil, List.append_nil, List.append_assoc] at hskip
  -- the specifier after the flags and the width, and after the precision
  generalize hwidth : sp.width.rebuilt (us ++ (ps ++ ([v] ++ ws))) = width at hprinted
  generalize hprecision : precRebuilt sp.prec (ps ++ ([v] ++ ws)) = precision at hprinted
  have hlen : (sp.rebuilt (us ++ (ps ++ ([v] ++ ws)))).length =
      1 + (sp.flags.map Flag.char).length + width.length + precision.length + sp.lens.length + 1 := by
    rw [Spec.rebuilt, drop_kinds hus, hwidth, hprecision]
    simp only [List.length_append, List.length_cons, List.length_map, List.length_nil]
    omega
  have hw : s.specification fprintf = .ok s' ↔ _ :=
    specification_width_iff fprintf hus hs₀ sp.flags_mem hafter hvl
  have hp hle {r} := @precision_iff sp.prec ps hps ⟨y :: t, s.vl.skip (bytesOf us).length, s.out,
    s.totalPrinted, s.failed, s.got ++ (sp.width.kinds.map fun _ => (y :: t).length + 1).zip us⟩
    y' t' hy.symm hafter' hdot ([v] ++ ws) rest hvl₁
    (percent :: (sp.flags.map Flag.char ++ width)) hle r
  have hc := @conversion_iff fprintf sp.lens sp.conv v hv ⟨y' :: t',
    (s.vl.skip (bytesOf us).length).skip (bytesOf ps).length, s.out, s.totalPrinted, s.failed,
    s.got ++ (sp.width.kinds.map fun _ => (y :: t).length + 1).zip us ++
      ((precKinds sp.prec).map fun _ => (y' :: t').length + 1).zip ps⟩ X hy'.symm (bytesOf ws ++ rest)
    hvl₂ (percent :: (sp.flags.map Flag.char ++ width) ++ precision) s'
  rw [hwidth] at hw
  rw [hprecision] at hp
  have hskip : (bytesOf us).length + ((bytesOf ps).length + v.bytes.length) =
      (bytesOf (us ++ (ps ++ [v]))).length := by
    simp only [bytesOf_append, bytesOf_cons, bytesOf_nil, List.append_nil, List.length_append]
  -- the state behind all three parts
  have hbehind : Printing.after ⟨y' :: t', (s.vl.skip (bytesOf us).length).skip (bytesOf ps).length,
      s.out, s.totalPrinted, s.failed, s.got ++ (sp.width.kinds.map fun _ => (y :: t).length + 1).zip us ++
        ((precKinds sp.prec).map fun _ => (y' :: t').length + 1).zip ps⟩ X
      (((s.vl.skip (bytesOf us).length).skip (bytesOf ps).length).skip v.bytes.length)
      [(X.length + 1, v)] (sp.printed fprintf (us ++ (ps ++ ([v] ++ ws)))) =
      s.after X (s.vl.skip (bytesOf (us ++ (ps ++ [v]))).length)
        ((sp.places X.length).zip (us ++ (ps ++ [v]))) (sp.printed fprintf (us ++ (ps ++ ([v] ++ ws)))) := by
    rw [List.append_assoc s.got, Printing.after_after, VaList.skip_skip, VaList.skip_skip, hskip,
      List.append_assoc, ← hplaces]
  rw [← hprinted, hbehind] at hc
  have hspecifier : (percent :: (sp.flags.map Flag.char ++ width)).length =
      1 + (sp.flags.map Flag.char).length + width.length := by
    rw [List.length_cons, List.length_append]
    omega
  constructor
  · intro h
    obtain ⟨⟨hwabs, hwfit⟩, h⟩ := hw.mp h
    obtain ⟨r, hprec, h⟩ := bind_eq_ok.mp h
    obtain ⟨⟨hpabs, -⟩, rfl⟩ := (hp (by omega)).mp hprec
    obtain ⟨hfit, rfl⟩ := hc.mp h
    rw [List.length_append, hspecifier] at hfit
    refine ⟨⟨by omega, hwabs, ?_⟩, rfl⟩
    rw [drop_kinds hus]
    exact hpabs
  · rintro ⟨⟨hfit, hwabs, hpabs⟩, hs'⟩
    rw [drop_kinds hus] at hpabs
    have hkinds := sp.width.length_kinds_le
    have hpkinds := length_precKinds_le sp.prec
    have hprec := (hp (by omega)).mpr ⟨⟨hpabs, by omega⟩, rfl⟩
    refine hw.mpr ⟨⟨hwabs, by omega⟩, ?_⟩
    rw [hprec, ok_bind]
    refine hc.mpr ⟨?_, hs'⟩
    rw [List.length_append, hspecifier]
    omega

/-! ### Whole formats -/

/-- A literal is printed. -/
theorem printing_literal (fprintf : Fprintf) (fuel : ℕ) (c : Literal) (ptr : List UInt8)
    (s : Printing) (hs : s.ptr = c.val :: ptr) :
    Printing.loop fprintf (fuel + 1) s =
      Printing.loop fprintf fuel
        ⟨ptr, s.vl, s.out ++ [c.val], s.totalPrinted + 1, s.failed, s.got⟩ := by
  simp only [Printing.loop, hs, peek_cons, ok_bind, if_neg c.property.1, if_pos c.property.2,
    Printing.printChar, List.tail_cons]

/-- A percent sign begins a specification. -/
theorem printing_percent (fprintf : Fprintf) (fuel : ℕ) (ptr : List UInt8) (s : Printing)
    (hs : s.ptr = percent :: ptr) :
    Printing.loop fprintf (fuel + 1) s =
      Printing.specification fprintf { s with ptr := ptr } >>= fun s =>
        if s.failed then .ok s else Printing.loop fprintf fuel s := by
  have h0 : percent ≠ 0 := by decide
  simp only [Printing.loop, hs, peek_cons, ok_bind, if_neg h0, ne_eq, not_true_eq_false, if_false,
    List.tail_cons]

/-- Of two percent signs one is printed. -/
theorem specification_printChar (fprintf : Fprintf) (ptr : List UInt8) (s : Printing)
    (hs : s.ptr = percent :: ptr) :
    s.specification fprintf = .ok ⟨ptr, s.vl, s.out ++ [percent], s.totalPrinted + 1, s.failed, s.got⟩ := by
  have hflags : scan (strchr flagChars) (percent :: ptr) = .ok ([], percent :: ptr) := rfl
  have hdigits : scan isDigit (percent :: ptr) = .ok ([], percent :: ptr) := rfl
  have hlens : scanLengths (percent :: ptr) = .ok ([], percent :: ptr) := rfl
  have htake : (percent :: ptr).takeWhile (· ∈ lengthChars) = [] := rfl
  have hcopy : copyTo [percent] [] = .ok [percent] := rfl
  have hstar : percent ≠ star := by decide
  have hdot : percent ≠ dot := by decide
  simp only [Printing.specification, hs, hflags, ok_bind, hcopy, Printing.width, peek_cons, if_neg hstar,
    hdigits, Printing.precision, if_neg hdot, Printing.conversion, htake, hlens, convKind_percent,
    Printing.printChar, List.tail_cons]

theorem printing_percents (fprintf : Fprintf) (fuel : ℕ) (ptr : List UInt8) (s : Printing)
    (hs : s.ptr = percent :: percent :: ptr) (hfail : s.failed = false) :
    Printing.loop fprintf (fuel + 1) s =
      Printing.loop fprintf fuel
        ⟨ptr, s.vl, s.out ++ [percent], s.totalPrinted + 1, false, s.got⟩ := by
  rw [printing_percent fprintf fuel (percent :: ptr) s hs, specification_printChar fprintf ptr _ rfl,
    ok_bind]
  simp only [hfail, Bool.false_eq_true, if_false]

/-- Without values there is nothing to read. -/
theorem decodesWell_of_kinds (fprintf : Fprintf) {items : List Item} (h : kindsOf items = [])
    (args : List Value) : DecodesWell fprintf items args := by
  induction items with
  | nil => trivial
  | cons i items ih =>
    cases i with
    | literal c => exact ih h
    | percents => exact ih h
    | spec sp => exact absurd h (by simp [kindsOf, Item.kinds, Spec.kinds])

theorem length_placesOf (items : List Item) : (placesOf items).length = (kindsOf items).length := by
  induction items with
  | nil => rfl
  | cons i items ih =>
    cases i with
    | literal c => exact ih
    | percents => exact ih
    | spec sp =>
      rw [placesOf, kindsOf_spec, List.length_append, List.length_append, ih]
      simp [Spec.places, Spec.kinds]

/-- The text that `print_format` prints, up to where `fprintf` fails. -/
def printedOf (fprintf : Fprintf) : List Item → List Value → List UInt8
  | [], _ => []
  | .literal c :: items, args => c.val :: printedOf fprintf items args
  | .percents :: items, args => percent :: printedOf fprintf items args
  | .spec sp :: items, args =>
    match sp.printed fprintf args with
    | none => []
    | some text => text ++ printedOf fprintf items (args.drop sp.kinds.length)

/-- A format that decodes well is read to its end, or up to where `fprintf` fails at its last value,
and the values are read at their places; there may be further ones behind them. -/
theorem loop_reads {fprintf : Fprintf} {items : List Item} {vs ws : List Value}
    (hd : DecodesWell fprintf items (vs ++ ws)) (hk : vs.map Value.kind = kindsOf items) {fuel : ℕ}
    (hf : (textOf items).length < fuel) {s : Printing} (hs : s.ptr = textOf items ++ [0])
    {rest : List UInt8} (hvl : s.vl.Ahead (bytesOf (vs ++ ws) ++ rest)) (hfail : s.failed = false) :
    ∃ s', Printing.loop fprintf fuel s = .ok s' ∧ s'.got = s.got ++ valuesOf items vs ∧
      s'.vl = s.vl.skip (bytesOf vs).length ∧
      s'.out = s.out ++ printedOf fprintf items (vs ++ ws) := by
  induction items generalizing vs fuel s with
  | nil =>
    obtain rfl := List.map_eq_nil_iff.mp hk
    obtain ⟨fuel, rfl⟩ : ∃ k, fuel = k + 1 := ⟨fuel - 1, by omega⟩
    refine ⟨s, ?_, (List.append_nil _).symm, rfl, (List.append_nil _).symm⟩
    have hs' : s.ptr = [0] := hs
    simp only [Printing.loop, hs', peek_cons, ok_bind, if_true]
  | cons i items ih =>
    obtain ⟨fuel, rfl⟩ : ∃ k, fuel = k + 1 := ⟨fuel - 1, by omega⟩
    rw [textOf_cons, List.length_append] at hf
    rw [textOf_cons, List.append_assoc] at hs
    cases i with
    | literal c =>
      have hfuel : (textOf items).length < fuel := by
        simp only [Item.text, List.length_singleton] at hf
        omega
      rw [printing_literal fprintf fuel c (textOf items ++ [0]) s hs]
      obtain ⟨s', hok, hgot, hvl', hout⟩ := ih hd hk hfuel
        (s := ⟨textOf items ++ [0], s.vl, s.out ++ [c.val], s.totalPrinted + 1, s.failed, s.got⟩)
        rfl hvl hfail
      exact ⟨s', hok, hgot, hvl', hout.trans (List.append_assoc _ _ _)⟩
    | percents =>
      have hfuel : (textOf items).length < fuel := by
        simp only [Item.text, List.length_cons, List.length_nil] at hf
        omega
      rw [printing_percents fprintf fuel (textOf items ++ [0]) s hs hfail]
      obtain ⟨s', hok, hgot, hvl', hout⟩ := ih hd hk hfuel
        (s := ⟨textOf items ++ [0], s.vl, s.out ++ [percent], s.totalPrinted + 1, false, s.got⟩)
        rfl hvl rfl
      exact ⟨s', hok, hgot, hvl', hout.trans (List.append_assoc _ _ _)⟩
    | spec sp =>
      obtain ⟨hsp, hprint, hd⟩ := hd
      rw [Item.text, List.cons_append] at hs
      obtain ⟨us, vs', rfl, hus, hvs'⟩ := split_spec hk
      rw [List.append_assoc] at hsp hprint hd hvl ⊢
      rw [drop_kinds hus] at hd
      have hfuel : (textOf items).length < fuel := by
        simp only [Item.text, List.length_cons] at hf
        omega
      have hX : (textOf items ++ [0]).length = (textOf items).length + 1 := List.length_append
      have hspec := (specification_iff fprintf hus (s := { s with ptr := sp.text ++ (textOf items ++ [0]) })
        rfl hvl).mpr ⟨hsp, rfl⟩
      rw [printing_percent fprintf fuel (sp.text ++ (textOf items ++ [0])) s hs, hspec, ok_bind, hX]
      have hvl' : (s.vl.skip (bytesOf us).length).Ahead (bytesOf (vs' ++ ws) ++ rest) := by
        rw [bytesOf_append, List.append_assoc] at hvl
        exact hvl.skip
      rw [valuesOf_spec hus, bytesOf_append, List.length_append, printedOf]
      cases hp : sp.printed fprintf (us ++ (vs' ++ ws)) with
      | none =>
        have hnone : kindsOf items = [] := by
          by_contra hne
          exact hprint hne hp
        rw [hnone] at hvs'
        obtain rfl := List.map_eq_nil_iff.mp hvs'
        refine ⟨_, rfl, ?_, rfl, (List.append_nil _).symm⟩
        simp only [Printing.after, valuesOf, List.zip_nil_right, List.append_nil]
      | some text =>
        obtain ⟨s', hok, hgot, hvl'', hout⟩ := ih hd hvs' hfuel (s := Printing.after
          { s with ptr := sp.text ++ (textOf items ++ [0]) } (textOf items ++ [0])
          (s.vl.skip (bytesOf us).length) ((sp.places ((textOf items).length + 1)).zip us) (some text))
          rfl hvl' hfail
        refine ⟨s', ?_, ?_, ?_, ?_⟩
        · rw [if_neg (by rw [Printing.after, hfail]; exact Bool.false_ne_true), hok]
        · rw [hgot, Printing.after, List.append_assoc]
        · rw [hvl'', Printing.after, VaList.skip_skip]
        · rw [hout, Printing.after, drop_kinds hus, List.append_assoc]

/-- What `print_format` reads and prints, with the values of the format ahead of the reader. -/
theorem printFormat_prints {fprintf : Fprintf} {items : List Item} {vs ws : List Value}
    (hd : DecodesWell fprintf items (vs ++ ws)) (hk : vs.map Value.kind = kindsOf items)
    {vl : VaList} {rest : List UInt8} (hvl : vl.Ahead (bytesOf (vs ++ ws) ++ rest)) :
    ∃ s, printFormat fprintf (formatOf items) vl = .ok s ∧ s.got = valuesOf items vs ∧
      s.vl.off = vl.off + (bytesOf vs).length ∧ s.out = printedOf fprintf items (vs ++ ws) := by
  obtain ⟨s, hok, hgot, hs, hout⟩ := loop_reads hd hk (Nat.lt_succ_self _)
    (s := ⟨textOf items ++ [0], vl, [], 0, false, []⟩) rfl hvl rfl
  exact ⟨s, hok, hgot, congrArg VaList.off hs, hout⟩

/-- When the values are read at their places, the format decodes well. -/
theorem decodesWell_of_loop {fprintf : Fprintf} {items : List Item} {args : List Value}
    (hk : args.map Value.kind = kindsOf items) {fuel : ℕ} {s s' : Printing}
    (hs : s.ptr = textOf items ++ [0]) {rest : List UInt8}
    (hvl : s.vl.Ahead (bytesOf args ++ rest)) (hfail : s.failed = false)
    (h : Printing.loop fprintf fuel s = .ok s') (hgot : s'.got = s.got ++ valuesOf items args) :
    DecodesWell fprintf items args := by
  induction items generalizing args fuel s with
  | nil => trivial
  | cons i items ih =>
    rw [textOf_cons, List.append_assoc] at hs
    cases fuel with
    | zero => cases h
    | succ fuel =>
    cases i with
    | literal c =>
      rw [printing_literal fprintf fuel c (textOf items ++ [0]) s hs] at h
      exact ih (s := ⟨textOf items ++ [0], s.vl, s.out ++ [c.val], s.totalPrinted + 1, s.failed, s.got⟩)
        hk rfl hvl hfail h hgot
    | percents =>
      rw [printing_percents fprintf fuel (textOf items ++ [0]) s hs hfail] at h
      exact ih (s := ⟨textOf items ++ [0], s.vl, s.out ++ [percent], s.totalPrinted + 1, false, s.got⟩)
        hk rfl hvl rfl h hgot
    | spec sp =>
      rw [Item.text, List.cons_append] at hs
      obtain ⟨vs, ws, rfl, hvs, hws⟩ := split_spec hk
      have hX : (textOf items ++ [0]).length = (textOf items).length + 1 := List.length_append
      rw [printing_percent fprintf fuel (sp.text ++ (textOf items ++ [0])) s hs] at h
      obtain ⟨s₁, hspec, h⟩ := bind_eq_ok.mp h
      obtain ⟨hsp, rfl⟩ := (specification_iff fprintf hvs
        (s := { s with ptr := sp.text ++ (textOf items ++ [0]) }) rfl hvl).mp hspec
      have hvl' : (s.vl.skip (bytesOf vs).length).Ahead (bytesOf ws ++ rest) := by
        rw [bytesOf_append, List.append_assoc] at hvl
        exact hvl.skip
      rw [valuesOf_spec hvs, ← List.append_assoc] at hgot
      rw [hX] at h
      -- where `fprintf` fails, there are no values left
      have hnone : sp.printed fprintf (vs ++ ws) = none → kindsOf items = [] := by
        intro hp
        rw [hp] at h
        obtain rfl := Except.ok.inj h
        have hnil : valuesOf items ws = [] :=
          List.append_cancel_left (hgot.symm.trans (List.append_nil _).symm)
        have hzip : (valuesOf items ws).length = (kindsOf items).length := by
          rw [valuesOf, List.length_zip, length_placesOf, ← hws, List.length_map, min_self]
        rw [hnil] at hzip
        exact List.length_eq_zero_iff.mp hzip.symm
      refine ⟨hsp, fun hne hp => hne (hnone hp), ?_⟩
      rw [drop_kinds hvs]
      cases hp : sp.printed fprintf (vs ++ ws) with
      | none => exact decodesWell_of_kinds fprintf (hnone hp) ws
      | some text =>
        rw [hp] at h
        simp only [Printing.after, hfail, Bool.false_eq_true, if_false] at h
        exact ih hws rfl hvl' rfl h hgot

end CcUtils.Binlog
