import Mathlib.Data.List.TakeWhile
import CcUtils.Binlog.Grammar

/-!
# The `printf` of C

What C's `printf` writes for a whole format. It reads the format by itself: literal characters, double
percent signs, and conversion specifications, whose stars take their numbers from the arguments. A
specification so read has a meaning: its flags, the width and the precision as numbers, its length
modifiers and its conversion. How a value is rendered by a meaning is a parameter.

Where a format has no behaviour that C defines, there is no text: a specification that breaks off, that
finds no argument, or whose conversion is another than the scanners know. So it is with a percent sign
that ends a specification which has flags, a width, a precision or length modifiers.

## What is proved

* `numberOf_decimal` — the digits of a number denote it.
* `printf_textOf` — what `printf` writes for a format of items.
* `items_of_printf` — `printf` writes a text for no other formats.
-/

namespace CcUtils.Binlog

open CcUtils.Lib

/-! ### Meanings -/

/-- What a conversion specification asks for. -/
structure Meaning where
  left : Bool
  plus : Bool
  space : Bool
  alt : Bool
  zero : Bool
  width : ℕ
  prec : Option ℕ
  lens : List UInt8
  conv : UInt8

/-- The text of a value. -/
abbrev Renderer := Meaning → Value → List UInt8

/-- The number that digits denote; without a digit it is zero. -/
def numberOf (digits : List UInt8) : ℕ := digits.foldl (fun n c => 10 * n + (c.toNat - 48)) 0

/-- A negative width is a `-` flag with the absolute width, a negative precision is no precision. The
flag `0` fills a width up, and has nothing to do where there is none. -/
def meaningOf (flags : List UInt8) (width : ℤ) (prec : Option ℤ) (lens : List UInt8) (conv : UInt8) :
    Meaning where
  left := decide (45 ∈ flags ∨ width < 0)
  plus := decide (43 ∈ flags)
  space := decide (32 ∈ flags)
  alt := decide (35 ∈ flags)
  zero := decide (48 ∈ flags ∧ width ≠ 0)
  width := width.natAbs
  prec := prec.bind fun p => if p < 0 then none else some p.natAbs
  lens := lens
  conv := conv

/-! ### Reading a format -/

/-- A character of `flagChars`. -/
def isFlag (c : UInt8) : Bool := decide (c ∈ flagChars)

/-- A length modifier. -/
def isLength (c : UInt8) : Bool := decide (c ∈ lengthChars)

/-- The conversions with a value. -/
def convChars : List UInt8 := integerConvs ++ doubleConvs ++ [115, 112]

/-- A number in a specification: a star takes the next argument, an `int`. -/
def readNumber (text : List UInt8) (args : List Value) : Option (ℤ × List UInt8 × List Value) :=
  if text.head? = some star then
    match args with
    | .int v :: args => some (v.toInt, text.tail, args)
    | _ => none
  else some (numberOf (text.takeWhile isDigit), text.dropWhile isDigit, args)

/-- A precision. -/
def readPrec (text : List UInt8) (args : List Value) : Option (Option ℤ × List UInt8 × List Value) :=
  if text.head? = some dot then
    (readNumber text.tail args).map fun (p, text, args) => (some p, text, args)
  else some (none, text, args)

/-- What follows a percent sign: the text written, the rest of the format, the other arguments. -/
def printfSpec (render : Renderer) (text : List UInt8) (args : List Value) :
    Option (List UInt8 × List UInt8 × List Value) := do
  let flags := text.takeWhile isFlag
  let (width, text, args) ← readNumber (text.dropWhile isFlag) args
  let (prec, text, args) ← readPrec text args
  let lens := text.takeWhile isLength
  match text.dropWhile isLength, args with
  | c :: text, v :: args =>
    if c ∈ convChars then some (render (meaningOf flags width prec lens c) v, text, args) else none
  | _, _ => none

/-- The format from one character on, with fuel for its length. -/
def printfLoop (render : Renderer) : ℕ → List UInt8 → List Value → Option (List UInt8)
  | 0, _, _ => none
  | _ + 1, [], _ => some []
  | fuel + 1, c :: text, args =>
    if c ≠ percent then do
      let more ← printfLoop render fuel text args
      some (c :: more)
    -- a double percent sign has nothing in between
    else if text.head? = some percent then do
      let more ← printfLoop render fuel text.tail args
      some (percent :: more)
    else do
      let (out, text, args) ← printfSpec render text args
      let more ← printfLoop render fuel text args
      some (out ++ more)

/-- `printf`; arguments that are left over are ignored. -/
def printf (render : Renderer) (text : List UInt8) (args : List Value) : Option (List UInt8) :=
  printfLoop render (text.length + 1) text args

/-- `fprintf` of one specification with one value. -/
def fprintfOf (render : Renderer) : Fprintf := fun specifier v => printf render specifier [v]

/-! ### Numbers -/

theorem numberOf_zero (ds : List UInt8) : numberOf (48 :: ds) = numberOf ds := rfl

/-- The only digit among the flags is the zero. -/
theorem eq_zero_of_isFlag {c : UInt8} (hd : isDigit c = true) (hf : isFlag c = true) : c = 48 := by
  have hmem : c ∈ flagChars := of_decide_eq_true hf
  simp only [flagChars, List.mem_cons, List.not_mem_nil, or_false] at hmem
  rcases hmem with rfl | rfl | rfl | rfl | rfl
  · cases hd
  · cases hd
  · cases hd
  · cases hd
  · rfl

/-- Leading zeros do not count. -/
theorem numberOf_dropWhile {ds : List UInt8} (hds : ∀ c ∈ ds, isDigit c) :
    numberOf (ds.dropWhile isFlag) = numberOf ds := by
  induction ds with
  | nil => rfl
  | cons c ds ih =>
    have hrest := ih fun d hd => hds d (List.mem_cons_of_mem c hd)
    cases hf : isFlag c with
    | false => rw [List.dropWhile_cons_of_neg (by simp [hf])]
    | true =>
      rw [List.dropWhile_cons_of_pos hf, hrest, eq_zero_of_isFlag (hds c List.mem_cons_self) hf,
        numberOf_zero]

theorem toNat_ofNat_char {c : Char} (hc : c.isDigit = true) :
    (UInt8.ofNat c.toNat).toNat = c.toNat ∧ 48 ≤ c.toNat ∧ c.toNat ≤ 57 := by
  have hrange : 48 ≤ c.toNat ∧ c.toNat ≤ 57 := by
    simpa [Char.isDigit, UInt32.le_iff_toNat_le] using hc
  refine ⟨?_, hrange⟩
  rw [UInt8.toNat_ofNat']
  omega

theorem decimal_isDigit (n : ℕ) : ∀ c ∈ decimal n, isDigit c := by
  intro c hc
  obtain ⟨d, hd, rfl⟩ := List.mem_map.mp hc
  obtain ⟨he, hlo, hhi⟩ := toNat_ofNat_char (Nat.isDigit_of_mem_toDigits (by decide) (by decide) hd)
  rw [isDigit, decide_eq_true_iff, UInt8.le_iff_toNat_le, UInt8.le_iff_toNat_le, he]
  exact ⟨hlo, hhi⟩

/-- The digits of a number denote it. -/
theorem numberOf_decimal (n : ℕ) : numberOf (decimal n) = n := by
  have hfold : ∀ (l : List Char) (i : ℕ), (∀ c ∈ l, c.isDigit = true) →
      (l.map fun c => UInt8.ofNat c.toNat).foldl (fun n c => 10 * n + (c.toNat - 48)) i =
        Nat.ofDigitChars 10 l i := by
    intro l
    induction l with
    | nil => exact fun i _ => rfl
    | cons c l ih =>
      intro i hl
      have hc := toNat_ofNat_char (hl c List.mem_cons_self)
      rw [List.map_cons, List.foldl_cons, hc.1, Nat.ofDigitChars_cons]
      exact ih _ fun d hd => hl d (List.mem_cons_of_mem c hd)
  have hdigits : ∀ c ∈ Nat.toDigits 10 n, c.isDigit = true :=
    fun c hc => Nat.isDigit_of_mem_toDigits (by decide) (by decide) hc
  exact (hfold _ 0 hdigits).trans Nat.ofDigitChars_ten_toDigits

/-- A number other than zero does not begin with a zero. -/
theorem takeWhile_decimal {n : ℕ} (hn : n ≠ 0) : (decimal n).takeWhile isFlag = [] := by
  induction n using Nat.strongRecOn with
  | _ n ih =>
    rcases Nat.lt_or_ge n 10 with hlt | hge
    · have hsmall : ∀ n < 10, n ≠ 0 → (decimal n).takeWhile isFlag = [] := by decide
      exact hsmall n hlt hn
    · have hdiv := ih (n / 10) (by omega) (by omega)
      rw [decimal, Nat.toDigits_of_base_le (by decide) hge, List.map_append]
      cases hd : decimal (n / 10) with
      | nil => exact absurd (List.map_eq_nil_iff.mp hd) Nat.toDigits_ne_nil
      | cons c l =>
        rw [hd] at hdiv
        have hc : isFlag c = false := by
          cases hf : isFlag c with
          | false => rfl
          | true =>
            rw [List.takeWhile_cons_of_pos hf] at hdiv
            cases hdiv
        rw [decimal] at hd
        rw [hd, List.cons_append, List.takeWhile_cons_of_neg (by simp [hc])]

/-! ### Specifications -/

/-- The number of a width or of a precision. -/
def Field.value : Field → List Value → ℤ
  | .star, .int v :: _ => v.toInt
  | f, _ => numberOf f.text

/-- The number of a precision, if there is one. -/
def precValue : Option Field → List Value → Option ℤ
  | none, _ => none
  | some f, args => some (f.value args)

/-- The flags and the zeros that a width in digits begins with. -/
def Spec.flagText (s : Spec) : List UInt8 := (s.flags.map Flag.char ++ s.width.text).takeWhile isFlag

/-- The meaning of a specification, with the values taken. -/
def Spec.meaning (s : Spec) (args : List Value) : Meaning :=
  meaningOf s.flagText (s.width.value args) (precValue s.prec (args.drop s.width.kinds.length))
    (s.lens.map Length.char) s.conv.char

/-- The text of a specification whose values come first among the arguments. -/
def Spec.rendered (render : Renderer) (s : Spec) (args : List Value) : List UInt8 :=
  ((args.take s.kinds.length).getLast?.map (render (s.meaning args))).getD []

theorem Field.value_digits (ds : List (Fin 10)) (args : List Value) :
    (Field.digits ds).value args = numberOf (Field.digits ds).text := by
  rw [Field.value]
  exact nofun

theorem Conv.mem_convChars (conv : Conv) : conv.char ∈ convChars := by
  cases conv <;> decide

theorem Spec.flags_isFlag (s : Spec) : ∀ c ∈ s.flags.map Flag.char, isFlag c = true :=
  fun c hc => decide_eq_true (s.flags_mem c hc)

theorem AfterWidth.isFlag {c : UInt8} (h : AfterWidth c) : isFlag c = false := by
  cases hf : Binlog.isFlag c with
  | false => rfl
  | true =>
    have hs : strchr flagChars c = true := decide_eq_true (.inl (of_decide_eq_true hf))
    rw [h.flag] at hs
    cases hs

/-- What is passed, and what is not, up to a character that is not passed. -/
theorem span_stop {p : UInt8 → Bool} (a : List UInt8) {c : UInt8} (t : List UInt8)
    (hc : p c = false) : (a ++ c :: t).takeWhile p = a.takeWhile p ∧
      (a ++ c :: t).dropWhile p = a.dropWhile p ++ c :: t := by
  induction a with
  | nil => simp [hc]
  | cons b a ih =>
    cases hb : p b with
    | true => simp [hb, ih]
    | false => simp [hb]

theorem span_pass {p : UInt8 → Bool} {a : List UInt8} (ha : ∀ c ∈ a, p c) {c : UInt8}
    (t : List UInt8) (hc : p c = false) :
    (a ++ c :: t).takeWhile p = a ∧ (a ++ c :: t).dropWhile p = c :: t := by
  rw [List.takeWhile_append_of_pos ha, List.dropWhile_append_of_pos ha]
  simp [hc]

/-- A number in digits. -/
theorem readNumber_digits {ds : List UInt8} (hds : ∀ c ∈ ds, isDigit c) {y : UInt8}
    (hy : AfterWidth y) (t : List UInt8) (args : List Value) :
    readNumber (ds ++ y :: t) args = some (↑(numberOf ds), y :: t, args) := by
  obtain ⟨htake, hdrop⟩ := span_pass hds t hy.digit
  have hhead : (ds ++ y :: t).head? ≠ some star := by
    cases ds with
    | nil => exact fun h => hy.star (Option.some.inj h)
    | cons c ds =>
      have hc := hds c List.mem_cons_self
      exact fun h => ne_of_isDigit hc (by decide) (Option.some.inj h)
  unfold readNumber
  rw [if_neg hhead, htake, hdrop]

/-- The number of a field whose zeros at the front may have been taken for flags. -/
theorem readNumber_field {f : Field} {vs : List Value} (hk : vs.map Value.kind = f.kinds) {y : UInt8}
    (hy : AfterWidth y) (t : List UInt8) (ws : List Value) :
    readNumber (f.text.dropWhile isFlag ++ y :: t) (vs ++ ws) =
        some (f.value (vs ++ ws), y :: t, ws) ∧
      readNumber (f.text ++ y :: t) (vs ++ ws) = some (f.value (vs ++ ws), y :: t, ws) := by
  cases f with
  | digits ds =>
    obtain rfl := List.map_eq_nil_iff.mp hk
    have hds := Field.text_digits ds
    rw [List.nil_append, Field.value_digits]
    constructor
    · rw [readNumber_digits (fun c hc => hds c (List.dropWhile_subset _ hc)) hy,
        numberOf_dropWhile hds]
    · exact readNumber_digits hds hy t ws
  | star =>
    obtain ⟨v, rfl⟩ := Field.star_values hk
    exact ⟨rfl, rfl⟩

theorem readPrec_text {prec : Option Field} {vs : List Value}
    (hk : vs.map Value.kind = precKinds prec) {y : UInt8} (hy : AfterWidth y) (hdot : y ≠ dot)
    (t : List UInt8) (ws : List Value) :
    readPrec (precText prec ++ y :: t) (vs ++ ws) = some (precValue prec (vs ++ ws), y :: t, ws) := by
  cases prec with
  | none =>
    obtain rfl := List.map_eq_nil_iff.mp hk
    have hhead : (y :: t).head? ≠ some dot := fun h => hdot (Option.some.inj h)
    exact if_neg hhead
  | some f =>
    have hread := (readNumber_field (f := f) hk hy t ws).2
    have hhead : (dot :: (f.text ++ y :: t)).head? = some dot := rfl
    change readPrec (dot :: (f.text ++ y :: t)) (vs ++ ws) = _
    rw [readPrec, if_pos hhead, List.tail_cons, hread]
    rfl

/-- A specification is read to its end, with its values. -/
theorem printfSpec_text (render : Renderer) {sp : Spec} {vs : List Value}
    (hk : vs.map Value.kind = sp.kinds) (X : List UInt8) (ws : List Value) :
    printfSpec render (sp.text ++ X) (vs ++ ws) = some (sp.rendered render (vs ++ ws), X, ws) := by
  obtain ⟨us, ps, v, rfl, hus, hps, -⟩ := Spec.split_values hk
  obtain ⟨y, t, hy, hafter⟩ := sp.afterWidth X
  obtain ⟨y', t', hy', hafter', hdot⟩ := Spec.head_lens sp.lens sp.conv X
  have htext : sp.text ++ X = sp.flags.map Flag.char ++ sp.width.text ++ y :: t := by
    rw [← hy]
    simp only [Spec.text, List.append_assoc, List.singleton_append]
  have hargs : us ++ (ps ++ [v]) ++ ws = us ++ (ps ++ (v :: ws)) := by
    simp only [List.append_assoc, List.singleton_append]
  have hlast : sp.rendered render (us ++ (ps ++ [v]) ++ ws) =
      render (sp.meaning (us ++ (ps ++ [v]) ++ ws)) v := by
    rw [← List.append_assoc] at hk ⊢
    rw [Spec.rendered, Spec.getLast?_take hk ws]
    rfl
  obtain ⟨htake, hrest⟩ := span_stop (sp.flags.map Flag.char ++ sp.width.text) t hafter.isFlag
  have hwidth := (readNumber_field hus hafter t (ps ++ (v :: ws))).1
  have hprec : readPrec (y :: t) (ps ++ (v :: ws)) =
      some (precValue sp.prec (ps ++ (v :: ws)), y' :: t', v :: ws) := by
    rw [← hy, hy']
    exact readPrec_text hps hafter' hdot t' (v :: ws)
  have hlens : ∀ c ∈ sp.lens.map Length.char, isLength c = true :=
    fun c hc => decide_eq_true (lens_mem sp.lens c hc)
  have hconv : isLength sp.conv.char = false := by
    cases sp.conv <;> rfl
  obtain ⟨hltake, hldrop⟩ := span_pass hlens X hconv
  rw [hlast, htext, hargs, printfSpec, htake, hrest, List.dropWhile_append_of_pos sp.flags_isFlag,
    hwidth]
  simp only [Option.bind_eq_bind, Option.bind_some, hprec, ← hy', hltake, hldrop,
    if_pos sp.conv.mem_convChars, Spec.meaning, drop_kinds hus, Spec.flagText]

/-! ### Formats -/

/-- A format with each specification written in its way. -/
def writtenBy (write : Spec → List Value → List UInt8) : List Item → List Value → List UInt8
  | [], _ => []
  | .literal c :: items, args => c.val :: writtenBy write items args
  | .percents :: items, args => percent :: writtenBy write items args
  | .spec sp :: items, args =>
    write sp args ++ writtenBy write items (args.drop sp.kinds.length)

/-- No specification begins with a percent sign. -/
theorem Spec.head_text (sp : Spec) (X : List UInt8) : (sp.text ++ X).head? ≠ some percent := by
  intro h
  have hne : sp.text ≠ [] := by
    intro hnil
    have hlen := sp.length_text
    rw [hnil] at hlen
    cases hlen
  obtain ⟨c, t, hc⟩ := List.exists_cons_of_ne_nil hne
  rw [hc] at h
  have hmem : percent ∈ sp.text := by
    rw [hc]
    exact Option.some.inj h ▸ List.mem_cons_self
  exact (Spec.ne_of_mem_text hmem).2 rfl

/-- What `printf` writes for a format of items. -/
theorem printfLoop_textOf (render : Renderer) {items : List Item} {vs : List Value}
    (hk : vs.map Value.kind = kindsOf items) {fuel : ℕ} (hf : (textOf items).length < fuel)
    (ws : List Value) : printfLoop render fuel (textOf items) (vs ++ ws) =
      some (writtenBy (Spec.rendered render) items (vs ++ ws)) := by
  induction items generalizing vs fuel with
  | nil =>
    obtain ⟨fuel, rfl⟩ : ∃ k, fuel = k + 1 := ⟨fuel - 1, by omega⟩
    rfl
  | cons i items ih =>
    obtain ⟨fuel, rfl⟩ : ∃ k, fuel = k + 1 := ⟨fuel - 1, by omega⟩
    rw [textOf_cons, List.length_append] at hf
    rw [textOf_cons]
    cases i with
    | literal c =>
      have hfuel : (textOf items).length < fuel := by
        simp only [Item.text, List.length_singleton] at hf
        omega
      have hrest := ih hk hfuel
      simp only [Item.text, List.singleton_append, printfLoop, if_pos c.property.2, hrest,
        writtenBy, Option.bind_eq_bind, Option.bind_some]
    | percents =>
      have hfuel : (textOf items).length < fuel := by
        simp only [Item.text, List.length_cons, List.length_nil] at hf
        omega
      have hrest := ih hk hfuel
      simp only [Item.text, List.cons_append, List.nil_append, printfLoop, ne_eq, not_true_eq_false,
        if_false, List.head?_cons, if_true, List.tail_cons, hrest, writtenBy, Option.bind_eq_bind,
        Option.bind_some]
    | spec sp =>
      have hfuel : (textOf items).length < fuel := by
        simp only [Item.text, List.length_cons] at hf
        omega
      obtain ⟨us, vs', rfl, hus, hvs'⟩ := split_spec hk
      have hspec := printfSpec_text render hus (textOf items) (vs' ++ ws)
      have hrest := ih hvs' hfuel
      rw [List.append_assoc]
      simp only [Item.text, List.cons_append, printfLoop, ne_eq, not_true_eq_false, if_false,
        if_neg (sp.head_text (textOf items)), hspec, hrest, writtenBy, drop_kinds hus,
        Option.bind_eq_bind, Option.bind_some]

/-- What `printf` writes for a format of items; further arguments are ignored. -/
theorem printf_textOf (render : Renderer) {items : List Item} {vs : List Value}
    (hk : vs.map Value.kind = kindsOf items) (ws : List Value) :
    printf render (textOf items) (vs ++ ws) =
      some (writtenBy (Spec.rendered render) items (vs ++ ws)) :=
  printfLoop_textOf render hk (Nat.lt_succ_self _) ws

/-! ### No other formats -/

/-- The digits that characters stand for. -/
def fieldDigits (text : List UInt8) : List (Fin 10) := text.map fun c => Fin.ofNat 10 (c.toNat - 48)

theorem text_fieldDigits {text : List UInt8} (h : ∀ c ∈ text, isDigit c) :
    (Field.digits (fieldDigits text)).text = text := by
  have hchar : ∀ c : UInt8, isDigit c = true → digitChar (Fin.ofNat 10 (c.toNat - 48)) = c := by
    intro c hc
    obtain ⟨hlo, hhi⟩ := of_decide_eq_true hc
    rw [UInt8.le_iff_toNat_le] at hlo hhi
    change 48 ≤ c.toNat at hlo
    change c.toNat ≤ 57 at hhi
    apply UInt8.toNat_inj.mp
    rw [digitChar, UInt8.toNat_ofNat', Fin.val_ofNat]
    omega
  rw [Field.text, fieldDigits, List.map_map]
  exact (List.map_congr_left fun c hc => hchar c (h c hc)).trans (List.map_id _)

/-- Characters of a class, each of which stands for something. -/
theorem exists_map {α : Type} {char : α → UInt8} {text : List UInt8}
    (h : ∀ c ∈ text, ∃ a, char a = c) : ∃ as : List α, as.map char = text := by
  induction text with
  | nil => exact ⟨[], rfl⟩
  | cons c text ih =>
    obtain ⟨a, rfl⟩ := h c List.mem_cons_self
    obtain ⟨as, rfl⟩ := ih fun d hd => h d (List.mem_cons_of_mem _ hd)
    exact ⟨a :: as, rfl⟩

theorem exists_flag {c : UInt8} (h : isFlag c = true) : ∃ f : Flag, f.char = c := by
  have hmem : c ∈ flagChars := of_decide_eq_true h
  simp only [flagChars, List.mem_cons, List.not_mem_nil, or_false] at hmem
  rcases hmem with rfl | rfl | rfl | rfl | rfl
  · exact ⟨.minus, rfl⟩
  · exact ⟨.plus, rfl⟩
  · exact ⟨.space, rfl⟩
  · exact ⟨.hash, rfl⟩
  · exact ⟨.zero, rfl⟩

theorem exists_length {c : UInt8} (h : isLength c = true) : ∃ len : Length, len.char = c := by
  have hmem : c ∈ lengthChars := of_decide_eq_true h
  simp only [lengthChars, List.mem_cons, List.not_mem_nil, or_false] at hmem
  rcases hmem with rfl | rfl | rfl
  · exact ⟨.h, rfl⟩
  · exact ⟨.l, rfl⟩
  · exact ⟨.L, rfl⟩

theorem exists_conv {c : UInt8} (h : c ∈ convChars) : ∃ conv : Conv, conv.char = c := by
  simp only [convChars, integerConvs, doubleConvs, List.cons_append, List.nil_append, List.mem_cons,
    List.not_mem_nil, or_false] at h
  rcases h with rfl | rfl | rfl | rfl | rfl | rfl | rfl | rfl | rfl | rfl | rfl | rfl | rfl | rfl
  · exact ⟨.d, rfl⟩
  · exact ⟨.i, rfl⟩
  · exact ⟨.o, rfl⟩
  · exact ⟨.u, rfl⟩
  · exact ⟨.x, rfl⟩
  · exact ⟨.X, rfl⟩
  · exact ⟨.c, rfl⟩
  · exact ⟨.f, rfl⟩
  · exact ⟨.e, rfl⟩
  · exact ⟨.E, rfl⟩
  · exact ⟨.g, rfl⟩
  · exact ⟨.G, rfl⟩
  · exact ⟨.s, rfl⟩
  · exact ⟨.p, rfl⟩

theorem readNumber_inv {text rest : List UInt8} {args ws : List Value} {n : ℤ}
    (h : readNumber text args = some (n, rest, ws)) : ∃ f : Field, text = f.text ++ rest := by
  unfold readNumber at h
  split at h
  case isTrue hstar =>
    obtain ⟨t, rfl⟩ : ∃ t, text = star :: t := by
      cases text with
      | nil => cases hstar
      | cons c t => exact ⟨t, by rw [Option.some.inj hstar]⟩
    cases args with
    | nil => cases h
    | cons v args =>
      cases v with
      | int v =>
        cases h
        exact ⟨.star, rfl⟩
      | long v => cases h
      | double v => cases h
      | string v => cases h
      | pointer v => cases h
  case isFalse hstar =>
    cases h
    refine ⟨.digits (fieldDigits (text.takeWhile isDigit)), ?_⟩
    rw [text_fieldDigits fun c hc => List.mem_takeWhile_imp hc, List.takeWhile_append_dropWhile]

theorem readPrec_inv {text rest : List UInt8} {args ws : List Value} {p : Option ℤ}
    (h : readPrec text args = some (p, rest, ws)) :
    ∃ prec : Option Field, text = precText prec ++ rest := by
  rw [readPrec] at h
  split at h
  case isTrue hdot =>
    obtain ⟨t, rfl⟩ : ∃ t, text = dot :: t := by
      cases text with
      | nil => cases hdot
      | cons c t => exact ⟨t, by rw [Option.some.inj hdot]⟩
    obtain ⟨⟨n, rest', ws'⟩, hread, he⟩ := Option.map_eq_some_iff.mp h
    cases he
    obtain ⟨f, rfl⟩ := readNumber_inv hread
    exact ⟨some f, rfl⟩
  case isFalse hdot =>
    cases h
    exact ⟨none, rfl⟩

/-- What is read for a specification is the text of one. -/
theorem printfSpec_inv {render : Renderer} {text out rest : List UInt8} {args ws : List Value}
    (h : printfSpec render text args = some (out, rest, ws)) :
    ∃ sp : Spec, text = sp.text ++ rest := by
  rw [printfSpec] at h
  obtain ⟨⟨w, text₁, args₁⟩, hwidth, h⟩ := Option.bind_eq_some_iff.mp h
  obtain ⟨⟨p, text₂, args₂⟩, hprec, h⟩ := Option.bind_eq_some_iff.mp h
  obtain ⟨flags, hflags⟩ := exists_map fun c (hc : c ∈ text.takeWhile isFlag) =>
    exists_flag (List.mem_takeWhile_imp hc)
  obtain ⟨width, hw⟩ := readNumber_inv hwidth
  obtain ⟨prec, hp⟩ := readPrec_inv hprec
  obtain ⟨lens, hlens⟩ := exists_map fun c (hc : c ∈ text₂.takeWhile isLength) =>
    exists_length (List.mem_takeWhile_imp hc)
  cases hdrop : text₂.dropWhile isLength with
  | nil => simp only [hdrop, reduceCtorEq] at h
  | cons c text₃ =>
    cases args₂ with
    | nil => simp only [hdrop, reduceCtorEq] at h
    | cons v args₂ =>
      simp only [hdrop] at h
      split at h
      case isTrue hc =>
        cases h
        obtain ⟨conv, rfl⟩ := exists_conv hc
        refine ⟨⟨flags, width, prec, lens, conv⟩, ?_⟩
        calc text
          _ = text.takeWhile isFlag ++ text.dropWhile isFlag := List.takeWhile_append_dropWhile.symm
          _ = flags.map Flag.char ++ (width.text ++ (precText prec ++ text₂)) := by
            rw [hflags, hw, hp]
          _ = flags.map Flag.char ++ (width.text ++ (precText prec ++
                (lens.map Length.char ++ conv.char :: rest))) := by
            rw [hlens, ← hdrop, List.takeWhile_append_dropWhile]
          _ = Spec.text ⟨flags, width, prec, lens, conv⟩ ++ rest := by
            simp only [Spec.text, List.append_assoc, List.singleton_append]
      case isFalse hc => cases h

/-- By induction on the fuel: each turn of the loop passes the text of an item. -/
theorem items_of_printfLoop {render : Renderer} {fuel : ℕ} {text out : List UInt8}
    {args : List Value} (h0 : 0 ∉ text) (h : printfLoop render fuel text args = some out) :
    ∃ items, textOf items = text := by
  induction fuel generalizing text out args with
  | zero => cases h
  | succ fuel ih =>
    cases text with
    | nil => exact ⟨[], rfl⟩
    | cons c text =>
      have hc0 : c ≠ 0 := fun he => h0 (he ▸ List.mem_cons_self)
      have h0' : 0 ∉ text := fun hm => h0 (List.mem_cons_of_mem c hm)
      rw [printfLoop] at h
      split at h
      case isTrue hc =>
        obtain ⟨more, hmore, -⟩ := Option.bind_eq_some_iff.mp h
        obtain ⟨items, rfl⟩ := ih h0' hmore
        exact ⟨.literal ⟨c, hc0, hc⟩ :: items, rfl⟩
      case isFalse hc =>
        obtain rfl := Classical.not_not.mp hc
        split at h
        case isTrue hhead =>
          obtain ⟨t, rfl⟩ : ∃ t, text = percent :: t := by
            cases text with
            | nil => cases hhead
            | cons c t => exact ⟨t, by rw [Option.some.inj hhead]⟩
          obtain ⟨more, hmore, -⟩ := Option.bind_eq_some_iff.mp h
          obtain ⟨items, rfl⟩ := ih (fun hm => h0' (List.mem_cons_of_mem _ hm)) hmore
          exact ⟨.percents :: items, rfl⟩
        case isFalse hhead =>
          obtain ⟨⟨out', rest, ws⟩, hspec, h⟩ := Option.bind_eq_some_iff.mp h
          obtain ⟨more, hmore, -⟩ := Option.bind_eq_some_iff.mp h
          obtain ⟨sp, rfl⟩ := printfSpec_inv hspec
          obtain ⟨items, rfl⟩ := ih (fun hm => h0' (List.mem_append_right _ hm)) hmore
          exact ⟨.spec sp :: items, rfl⟩

/-- So a format for which `printf` writes a text is one of items. -/
theorem items_of_printf {render : Renderer} {format : CString} {out : List UInt8}
    {args : List Value} (h : printf render format.val args = some out) :
    ∃ items, formatOf items = format := by
  obtain ⟨items, he⟩ := items_of_printfLoop format.property h
  exact ⟨items, Subtype.ext he⟩

end CcUtils.Binlog
