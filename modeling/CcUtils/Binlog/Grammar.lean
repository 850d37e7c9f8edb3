import CcUtils.Binlog.Format

/-!
# The grammar of formats

Formats as a programmer writes them: literal characters, double percent signs, and specifications of
flags, width, precision, length modifiers and a conversion that both scanners know. A format here is a
list of such items; its text is what the scanners see. An item says which values it takes and at
which places; a list of arguments matches a format when its types are those of the values taken.

`EncodesWell` and `DecodesWell` are the conditions under which `do_valog` and `print_format` read a
format as it is meant.

## What is proved

* `scan_append`, `scan_inv` — what a scanning loop passes.
* `scan_flags_digits`, `scan_flags_star` — the flags and the width of a specification.
* `places_le` — a value's place comes after a percent sign.
-/

namespace CcUtils.Binlog

open CcUtils.Lib

/-! ### Items -/

/-- The flags. -/
inductive Flag where
  | minus
  | plus
  | space
  | hash
  | zero

def Flag.char : Flag → UInt8
  | .minus => 45
  | .plus => 43
  | .space => 32
  | .hash => 35
  | .zero => 48

/-- The length modifiers. -/
inductive Length where
  | h
  | l
  | L
  deriving DecidableEq

def Length.char : Length → UInt8
  | .h => 104
  | .l => 108
  | .L => 76

/-- The conversions. -/
inductive Conv where
  | d
  | i
  | o
  | u
  | x
  | X
  | c
  | f
  | e
  | E
  | g
  | G
  | s
  | p

def Conv.char : Conv → UInt8
  | .d => 100
  | .i => 105
  | .o => 111
  | .u => 117
  | .x => 120
  | .X => 88
  | .c => 99
  | .f => 102
  | .e => 101
  | .E => 69
  | .g => 103
  | .G => 71
  | .s => 115
  | .p => 112

/-- The type of value a conversion takes; any `h` makes it an `int`, else any `l` or `L` a `long`. -/
def Conv.kind (lens : List Length) : Conv → Kind
  | .f | .e | .E | .g | .G => .double
  | .s => .string
  | .p => .pointer
  | _ => if .h ∈ lens ∨ lens = [] then .int else .long

/-- A width, or a precision behind its dot: digits, maybe none, or a star. -/
inductive Field where
  | digits (ds : List (Fin 10))
  | star

def digitChar (d : Fin 10) : UInt8 := UInt8.ofNat (48 + d)

def Field.text : Field → List UInt8
  | .digits ds => ds.map digitChar
  | .star => [Binlog.star]

/-- A star takes an `int`. -/
def Field.kinds : Field → List Kind
  | .digits _ => []
  | .star => [.int]

/-- What follows a percent sign. -/
structure Spec where
  flags : List Flag
  width : Field
  prec : Option Field
  lens : List Length
  conv : Conv

/-- The text of a precision with its dot. -/
def precText : Option Field → List UInt8
  | none => []
  | some f => dot :: f.text

def precKinds : Option Field → List Kind
  | none => []
  | some f => f.kinds

/-- The text after the percent sign. -/
def Spec.text (s : Spec) : List UInt8 :=
  s.flags.map Flag.char ++ (s.width.text ++ (precText s.prec ++
    (s.lens.map Length.char ++ [s.conv.char])))

/-- The types of the values taken. -/
def Spec.kinds (s : Spec) : List Kind :=
  s.width.kinds ++ (precKinds s.prec ++ [s.conv.kind s.lens])

/-- The places of the values, with `n` characters left after the specification. -/
def Spec.places (s : Spec) (n : ℕ) : List ℕ :=
  (s.width.kinds.map fun _ => n + 1 + s.lens.length + (precText s.prec).length + 1) ++
    ((precKinds s.prec).map fun _ => n + 1 + s.lens.length + 1) ++ [n + 1]

/-- A character that is printed as it stands. -/
abbrev Literal := { c : UInt8 // c ≠ 0 ∧ c ≠ percent }

/-- A part of a format. -/
inductive Item where
  | literal (c : Literal)
  | percents
  | spec (s : Spec)

def Item.text : Item → List UInt8
  | .literal c => [c.val]
  | .percents => [percent, percent]
  | .spec s => percent :: s.text

def Item.kinds : Item → List Kind
  | .spec s => s.kinds
  | _ => []

/-- The text of a format. -/
def textOf (items : List Item) : List UInt8 := items.flatMap Item.text

/-- The types of the values that a format takes. -/
def kindsOf (items : List Item) : List Kind := items.flatMap Item.kinds

/-- The places of the values; the terminator counts as a character. -/
def placesOf : List Item → List ℕ
  | [] => []
  | .spec s :: items => s.places ((textOf items).length + 1) ++ placesOf items
  | _ :: items => placesOf items

/-- The values with their places. -/
def valuesOf (items : List Item) (args : List Value) : List (ℕ × Value) := (placesOf items).zip args

/-! ### When the encoder reads a format well -/

/-- The text begins like a specification without stars whose conversion is a percent sign. -/
def Filler (text : List UInt8) : Prop :=
  ∃ flags width prec lens rest, text = flags ++ (width ++ (prec ++ (lens ++ percent :: rest))) ∧
    (∀ c ∈ flags, c ∈ flagChars) ∧ (∀ c ∈ width, isDigit c) ∧
    (prec = [] ∨ ∃ ds, prec = dot :: ds ∧ ∀ c ∈ ds, isDigit c) ∧ ∀ c ∈ lens, c ∈ lengthChars

/-- After a star as precision the next character is skipped: it must be a length modifier without
which the type stays the same. -/
def Spec.EncodesWell (s : Spec) : Prop :=
  match s.prec, s.lens with
  | some .star, [] => False
  | some .star, _ :: lens => s.conv.kind lens = s.conv.kind s.lens
  | _, _ => True

/-- `do_valog` takes the second of two percent signs for the first character of a specification. -/
def EncodesWell : List Item → Prop
  | [] => True
  | .literal _ :: items => EncodesWell items
  | .percents :: items => Filler (textOf items) ∧ EncodesWell items
  | .spec s :: items => s.EncodesWell ∧ EncodesWell items

/-! ### When the decoder reads a format well -/

/-- A width or a precision in the specifier: for a star the digits of the next value. -/
def Field.rebuilt : Field → List Value → List UInt8
  | .star, .int v :: _ => decimal v.toInt.natAbs
  | f, _ => f.text

def precRebuilt : Option Field → List Value → List UInt8
  | none, _ => []
  | some f, args => dot :: f.rebuilt args

/-- The specifier that `print_format` builds, for the values taken. -/
def Spec.rebuilt (s : Spec) (args : List Value) : List UInt8 :=
  percent :: (s.flags.map Flag.char ++ (s.width.rebuilt args ++
    (precRebuilt s.prec (args.drop s.width.kinds.length) ++
      (s.lens.map Length.char ++ [s.conv.char]))))

/-- A star has an absolute value. -/
def Field.HasAbs (f : Field) (args : List Value) : Prop :=
  f.kinds ≠ [] → args.head? ≠ some (.int (BitVec.intMin 32))

def precHasAbs (prec : Option Field) (args : List Value) : Prop :=
  precKinds prec ≠ [] → args.head? ≠ some (.int (BitVec.intMin 32))

/-- The specifier fits its array, and its stars have absolute values. -/
structure Spec.DecodesWell (s : Spec) (args : List Value) : Prop where
  fits : (s.rebuilt args).length + 1 ≤ specifierSize
  width : s.width.HasAbs args
  prec : precHasAbs s.prec (args.drop s.width.kinds.length)

/-- What `fprintf` makes of a specification: it gets the specifier and the last of the values
taken. -/
def Spec.printed (fprintf : Fprintf) (s : Spec) (args : List Value) : Option (List UInt8) :=
  (args.take s.kinds.length).getLast?.bind (fprintf (s.rebuilt args))

/-- All specifications are read, and `fprintf` fails for none that has values after it: its failure
ends `print_format`. -/
def DecodesWell (fprintf : Fprintf) : List Item → List Value → Prop
  | [], _ => True
  | .spec s :: items, args => s.DecodesWell args ∧
      (kindsOf items ≠ [] → s.printed fprintf args ≠ none) ∧
      DecodesWell fprintf items (args.drop s.kinds.length)
  | _ :: items, args => DecodesWell fprintf items args

/-! ### Scanning -/

theorem peek_cons (c : UInt8) (t : List UInt8) : peek (c :: t) = .ok c := rfl

/-- A loop passes what satisfies its condition, as long as something in memory does not. -/
theorem scan_append {p : UInt8 → Bool} (a : List UInt8) {c : UInt8} (t : List UInt8)
    (hc : p c = false) : scan p (a ++ c :: t) = .ok (a.takeWhile p, a.dropWhile p ++ c :: t) := by
  induction a with
  | nil => simp [scan, hc]
  | cons b a ih =>
    cases hb : p b with
    | true => simp [scan, hb, ih]
    | false => simp [scan, hb]

theorem scan_pass {p : UInt8 → Bool} {a : List UInt8} (ha : ∀ c ∈ a, p c) {c : UInt8}
    (t : List UInt8) (hc : p c = false) : scan p (a ++ c :: t) = .ok (a, c :: t) := by
  induction a with
  | nil => simp [scan, hc]
  | cons b a ih =>
    have hrest := ih fun d hd => ha d (List.mem_cons_of_mem b hd)
    simp only [List.cons_append, scan, ha b List.mem_cons_self, if_true, hrest, ok_bind]

/-- What a loop passed, and where it stopped. -/
theorem scan_inv {p : UInt8 → Bool} {m passed ptr : List UInt8}
    (h : scan p m = .ok (passed, ptr)) :
    m = passed ++ ptr ∧ (∀ c ∈ passed, p c) ∧ ∃ c t, ptr = c :: t ∧ p c = false := by
  induction m generalizing passed ptr with
  | nil => cases h
  | cons b m ih =>
    rw [scan] at h
    cases hb : p b with
    | false =>
      rw [hb] at h
      cases h
      exact ⟨rfl, nofun, b, m, rfl, hb⟩
    | true =>
      rw [hb, if_pos rfl] at h
      obtain ⟨⟨passed', ptr'⟩, hs, h⟩ := bind_eq_ok.mp h
      cases h
      obtain ⟨rfl, hp, hstop⟩ := ih hs
      refine ⟨rfl, ?_, hstop⟩
      intro c hc
      rcases List.mem_cons.mp hc with rfl | hc
      · exact hb
      · exact hp c hc

theorem scanLengths_append {a : List UInt8} (ha : ∀ c ∈ a, c ∈ lengthChars) {c : UInt8}
    (hc : strchr lengthChars c = false) (t : List UInt8) :
    scanLengths (a ++ c :: t) = .ok (a, c :: t) := by
  induction a with
  | nil => simp [scanLengths, hc]
  | cons b a ih =>
    have hb := ha b List.mem_cons_self
    have hs : strchr lengthChars b = true := decide_eq_true (.inl hb)
    have ht := ih fun d hd => ha d (List.mem_cons_of_mem b hd)
    simp only [List.cons_append, scanLengths, hs, if_true, check_true hb, ok_bind, ht]

/-- The length modifiers that the loop passes. -/
theorem takeWhile_lengths {a : List UInt8} (ha : ∀ c ∈ a, c ∈ lengthChars) {c : UInt8}
    (hc : strchr lengthChars c = false) (t : List UInt8) :
    (a ++ c :: t).takeWhile (· ∈ lengthChars) = a := by
  have hc' : c ∉ lengthChars := fun h => of_decide_eq_false hc (.inl h)
  induction a with
  | nil => simp [hc']
  | cons b a ih =>
    have hrest := ih fun d hd => ha d (List.mem_cons_of_mem b hd)
    simp [ha b List.mem_cons_self, hrest]

theorem scanLengths_inv {m passed ptr : List UInt8} (h : scanLengths m = .ok (passed, ptr)) :
    m = passed ++ ptr ∧ (∀ c ∈ passed, c ∈ lengthChars) ∧
      ∃ c t, ptr = c :: t ∧ strchr lengthChars c = false := by
  induction m generalizing passed ptr with
  | nil => cases h
  | cons b m ih =>
    rw [scanLengths] at h
    cases hb : strchr lengthChars b with
    | false =>
      rw [hb] at h
      cases h
      exact ⟨rfl, nofun, b, m, rfl, hb⟩
    | true =>
      rw [hb, if_pos rfl] at h
      obtain ⟨_, hmem, h⟩ := bind_eq_ok.mp h
      obtain ⟨⟨passed', ptr'⟩, hs, h⟩ := bind_eq_ok.mp h
      cases h
      obtain ⟨rfl, hp, hstop⟩ := ih hs
      refine ⟨rfl, ?_, hstop⟩
      intro c hc
      rcases List.mem_cons.mp hc with rfl | hc
      · exact check_eq_ok.mp hmem
      · exact hp c hc

/-! ### Characters of a specification -/

/-- A character at which the flags, the digits, the precision and the length modifiers of a
specification are over. -/
structure Stops (c : UInt8) : Prop where
  flag : strchr flagChars c = false
  digit : isDigit c = false
  star : c ≠ star
  dot : c ≠ dot
  length : strchr lengthChars c = false

theorem Conv.stops (conv : Conv) : Stops conv.char := by
  cases conv <;> constructor <;> decide

theorem percent_stops : Stops percent := by
  constructor <;> decide

theorem Flag.char_mem (f : Flag) : f.char ∈ flagChars := by
  cases f <;> decide

theorem Length.char_mem (len : Length) : len.char ∈ lengthChars := by
  cases len <;> decide

theorem isDigit_digitChar (d : Fin 10) : isDigit (digitChar d) = true := by
  revert d
  decide

theorem ne_of_isDigit {c d : UInt8} (hc : isDigit c = true) (hd : isDigit d = false) : c ≠ d := by
  rintro rfl
  rw [hc] at hd
  cases hd

/-- A length modifier ends the flags and the digits, and is no star and no dot. -/
theorem of_mem_lengthChars {c : UInt8} (h : c ∈ lengthChars) :
    strchr flagChars c = false ∧ isDigit c = false ∧ c ≠ star ∧ c ≠ dot ∧ c ≠ 0 ∧ c ≠ percent := by
  simp only [lengthChars, List.mem_cons, List.not_mem_nil, or_false] at h
  rcases h with rfl | rfl | rfl
  · decide
  · decide
  · decide

/-- What may come after the width: not a flag, not a digit, not a star. -/
structure AfterWidth (c : UInt8) : Prop where
  flag : strchr flagChars c = false
  digit : isDigit c = false
  star : c ≠ star

theorem dot_afterWidth : AfterWidth dot := by
  constructor <;> decide

/-- After the precision come length modifiers and a character that stops them. -/
theorem head_lengths {a : List UInt8} (ha : ∀ c ∈ a, c ∈ lengthChars) {c : UInt8} (hc : Stops c)
    (t : List UInt8) : ∃ y t', a ++ c :: t = y :: t' ∧ AfterWidth y ∧ y ≠ dot := by
  cases a with
  | nil => exact ⟨c, t, rfl, ⟨hc.flag, hc.digit, hc.star⟩, hc.dot⟩
  | cons b a =>
    obtain ⟨h1, h2, h3, h4, -, -⟩ := of_mem_lengthChars (ha b List.mem_cons_self)
    exact ⟨b, a ++ c :: t, rfl, ⟨h1, h2, h3⟩, h4⟩

theorem head_precision {prec a : List UInt8}
    (hp : prec = [] ∨ ∃ ds, prec = dot :: ds ∧ ∀ c ∈ ds, isDigit c)
    (ha : ∀ c ∈ a, c ∈ lengthChars) {c : UInt8} (hc : Stops c) (t : List UInt8) :
    ∃ y t', prec ++ (a ++ c :: t) = y :: t' ∧ AfterWidth y := by
  rcases hp with rfl | ⟨ds, rfl, -⟩
  · obtain ⟨y, t', he, hy, -⟩ := head_lengths ha hc t
    exact ⟨y, t', he, hy⟩
  · exact ⟨dot, ds ++ (a ++ c :: t), rfl, dot_afterWidth⟩

/-- The loop over the flags takes leading zeros of the width too; the loop over the digits takes
the others. -/
theorem scan_flags_digits {fl ds : List UInt8} (hfl : ∀ c ∈ fl, c ∈ flagChars)
    (hds : ∀ c ∈ ds, isDigit c) {x : UInt8} (hx : AfterWidth x) (t : List UInt8) :
    ∃ a b, ds = a ++ b ∧
      scan (strchr flagChars) (fl ++ (ds ++ x :: t)) = .ok (fl ++ a, b ++ x :: t) ∧
      scan isDigit (b ++ x :: t) = .ok (b, x :: t) ∧
      ∃ c, peek (b ++ x :: t) = .ok c ∧ c ≠ star := by
  have hfl' : ∀ c ∈ fl, strchr flagChars c = true := fun c hc => decide_eq_true (.inl (hfl c hc))
  refine ⟨ds.takeWhile (strchr flagChars), ds.dropWhile (strchr flagChars),
    List.takeWhile_append_dropWhile.symm, ?_, ?_, ?_⟩
  · rw [← List.append_assoc, scan_append (fl ++ ds) t hx.flag, List.takeWhile_append_of_pos hfl',
      List.dropWhile_append_of_pos hfl']
  · have hb : ∀ c ∈ ds.dropWhile (strchr flagChars), isDigit c = true :=
      fun c hc => hds c (List.dropWhile_subset _ hc)
    exact scan_pass hb t hx.digit
  · cases hb : ds.dropWhile (strchr flagChars) with
    | nil => exact ⟨x, rfl, hx.star⟩
    | cons c b =>
      have hmem : c ∈ ds.dropWhile (strchr flagChars) := hb ▸ List.mem_cons_self
      exact ⟨c, rfl, ne_of_isDigit (hds c (List.dropWhile_subset _ hmem)) (by decide)⟩

theorem scan_flags_star {fl : List UInt8} (hfl : ∀ c ∈ fl, c ∈ flagChars) (t : List UInt8) :
    scan (strchr flagChars) (fl ++ star :: t) = .ok (fl, star :: t) := by
  have hfl' : ∀ c ∈ fl, strchr flagChars c = true := fun c hc => decide_eq_true (.inl (hfl c hc))
  exact scan_pass hfl' t (by decide)

/-- The digits of a precision. -/
theorem scan_digits {ds : List UInt8} (hds : ∀ c ∈ ds, isDigit c) {x : UInt8} (hx : AfterWidth x)
    (t : List UInt8) :
    scan isDigit (ds ++ x :: t) = .ok (ds, x :: t) ∧
      ∃ c, peek (ds ++ x :: t) = .ok c ∧ c ≠ star := by
  constructor
  · exact scan_pass hds t hx.digit
  · cases ds with
    | nil => exact ⟨x, rfl, hx.star⟩
    | cons c b => exact ⟨c, rfl, ne_of_isDigit (hds c List.mem_cons_self) (by decide)⟩

/-! ### Types -/

theorem shortWidth_char (lens : List Length) :
    shortWidth (lens.map Length.char) = true ↔ .h ∈ lens := by
  rw [shortWidth, decide_eq_true_iff, List.mem_map]
  constructor
  · rintro ⟨len, hlen, he⟩
    cases len with
    | h => exact hlen
    | l => cases he
    | L => cases he
  · intro h
    exact ⟨.h, h, rfl⟩

/-- Without an `h`, any length modifier makes the width positive. -/
theorem wideWidth_pos {lens : List Length} (h : .h ∉ lens) (hne : lens ≠ []) :
    wideWidth (lens.map Length.char) ≠ 0 := by
  have hpos : ∀ (lens : List Length) (w : ℕ), .h ∉ lens → (0 < w ∨ lens ≠ []) →
      0 < (lens.map Length.char).foldl
        (fun wide c => if c = 108 then wide + 1 else if c = 76 then 2 else wide) w := by
    intro lens
    induction lens with
    | nil =>
      intro w _ hw
      exact hw.resolve_right fun hn => hn rfl
    | cons len lens ih =>
      intro w hh _
      have hh' : .h ∉ lens := fun hm => hh (List.mem_cons_of_mem len hm)
      cases len with
      | h => exact absurd List.mem_cons_self hh
      | l => exact ih (w + 1) hh' (.inl (Nat.succ_pos w))
      | L => exact ih 2 hh' (.inl (Nat.succ_pos 1))
  exact (hpos lens 0 h (.inr hne)).ne'

/-- The type that the length modifiers give an integer. -/
theorem integerKind_char (lens : List Length) :
    (if shortWidth (lens.map Length.char) then Kind.int
      else if wideWidth (lens.map Length.char) = 0 then .int else .long) =
      if .h ∈ lens ∨ lens = [] then .int else .long := by
  by_cases hh : .h ∈ lens
  · rw [if_pos ((shortWidth_char lens).mpr hh), if_pos (.inl hh)]
  · rw [if_neg (fun h => hh ((shortWidth_char lens).mp h))]
    by_cases hn : lens = []
    · subst hn
      rfl
    · rw [if_neg (wideWidth_pos hh hn), if_neg (not_or.mpr ⟨hh, hn⟩)]

/-- The two `switch`es take the type of the conversion. -/
theorem convKind_char (lens : List Length) (conv : Conv) :
    convKind (lens.map Length.char) conv.char = .ok (some (conv.kind lens)) := by
  cases conv with
  | f => rfl
  | e => rfl
  | E => rfl
  | g => rfl
  | G => rfl
  | s => rfl
  | p => rfl
  | _ => exact congrArg (Except.ok ∘ some) (integerKind_char lens)

theorem convKind_percent (lens : List UInt8) : convKind lens percent = .ok none := rfl

/-- Only a percent sign takes no value. -/
theorem convKind_eq_none {lens : List UInt8} {c : UInt8} (h : convKind lens c = .ok none) :
    c = percent := by
  unfold convKind at h
  split at h
  · cases h
  · split at h
    · cases h
    · split at h
      · cases h
      · split at h
        · cases h
        · split at h
          · assumption
          · cases h

/-! ### Texts -/

theorem Field.text_digits (ds : List (Fin 10)) : ∀ c ∈ (Field.digits ds).text, isDigit c := by
  intro c hc
  obtain ⟨d, -, rfl⟩ := List.mem_map.mp hc
  exact isDigit_digitChar d

theorem Spec.flags_mem (s : Spec) : ∀ c ∈ s.flags.map Flag.char, c ∈ flagChars := by
  intro c hc
  obtain ⟨f, -, rfl⟩ := List.mem_map.mp hc
  exact f.char_mem

theorem lens_mem (lens : List Length) : ∀ c ∈ lens.map Length.char, c ∈ lengthChars := by
  intro c hc
  obtain ⟨len, -, rfl⟩ := List.mem_map.mp hc
  exact len.char_mem

/-- Where the text goes on after the precision. -/
theorem Spec.head_lens (lens : List Length) (conv : Conv) (X : List UInt8) :
    ∃ y t, lens.map Length.char ++ conv.char :: X = y :: t ∧ AfterWidth y ∧ y ≠ dot :=
  head_lengths (lens_mem lens) conv.stops X

/-- Where the text goes on after the width. -/
theorem Spec.afterWidth (sp : Spec) (X : List UInt8) :
    ∃ y t, precText sp.prec ++ (sp.lens.map Length.char ++ sp.conv.char :: X) = y :: t ∧
      AfterWidth y := by
  cases sp.prec with
  | none =>
    obtain ⟨y, t, he, hy, -⟩ := Spec.head_lens sp.lens sp.conv X
    exact ⟨y, t, he, hy⟩
  | some f => exact ⟨dot, _, rfl, dot_afterWidth⟩

/-- The characters that a specification is made of. -/
theorem Spec.mem_text {s : Spec} {c : UInt8} (h : c ∈ s.text) :
    c ∈ flagChars ∨ isDigit c ∨ c = Binlog.star ∨ c = Binlog.dot ∨ c ∈ lengthChars ∨
      c = s.conv.char := by
  have hfield : ∀ {f : Field}, c ∈ f.text → isDigit c ∨ c = Binlog.star := by
    intro f hf
    cases f with
    | digits ds => exact .inl (Field.text_digits ds c hf)
    | star => exact .inr (List.mem_singleton.mp hf)
  simp only [text, List.mem_append, List.mem_singleton] at h
  rcases h with h | h | h | h | h
  · exact .inl (s.flags_mem c h)
  · rcases hfield h with h | h
    · exact .inr (.inl h)
    · exact .inr (.inr (.inl h))
  · cases hp : s.prec with
    | none =>
      rw [hp] at h
      cases h
    | some f =>
      rw [hp] at h
      rcases List.mem_cons.mp h with h | h
      · exact .inr (.inr (.inr (.inl h)))
      · rcases hfield h with h | h
        · exact .inr (.inl h)
        · exact .inr (.inr (.inl h))
  · exact .inr (.inr (.inr (.inr (.inl (lens_mem s.lens c h)))))
  · exact .inr (.inr (.inr (.inr (.inr h))))

/-- A specification has neither a NUL nor a percent sign in it. -/
theorem Spec.ne_of_mem_text {s : Spec} {c : UInt8} (h : c ∈ s.text) : c ≠ 0 ∧ c ≠ percent := by
  rcases s.mem_text h with h | h | rfl | rfl | h | rfl
  · simp only [flagChars, List.mem_cons, List.not_mem_nil, or_false] at h
    rcases h with rfl | rfl | rfl | rfl | rfl
    · decide
    · decide
    · decide
    · decide
    · decide
  · exact ⟨ne_of_isDigit h (by decide), ne_of_isDigit h (by decide)⟩
  · decide
  · decide
  · exact (of_mem_lengthChars h).2.2.2.2
  · cases s.conv <;> decide

theorem zero_notMem_text (i : Item) : (0 : UInt8) ∉ i.text := by
  cases i with
  | literal c => exact fun h => c.property.1 (List.mem_singleton.mp h).symm
  | percents => decide
  | spec s =>
    rw [Item.text, List.mem_cons, not_or]
    exact ⟨by decide, fun h => (Spec.ne_of_mem_text h).1 rfl⟩

/-- A format has no NUL in it. -/
theorem zero_notMem_textOf (items : List Item) : (0 : UInt8) ∉ textOf items := by
  intro h
  obtain ⟨i, -, hi⟩ := List.mem_flatMap.mp h
  exact zero_notMem_text i hi

/-- The format as a string. -/
def formatOf (items : List Item) : CString := ⟨textOf items, zero_notMem_textOf items⟩

theorem textOf_cons (i : Item) (items : List Item) : textOf (i :: items) = i.text ++ textOf items :=
  rfl

theorem kindsOf_spec (sp : Spec) (items : List Item) :
    kindsOf (.spec sp :: items) = sp.kinds ++ kindsOf items := rfl

/-- The values of a format that begins with a specification. -/
theorem split_spec {sp : Spec} {items : List Item} {vs : List Value}
    (hk : vs.map Value.kind = kindsOf (.spec sp :: items)) :
    ∃ us ws, vs = us ++ ws ∧ us.map Value.kind = sp.kinds ∧ ws.map Value.kind = kindsOf items := by
  rw [kindsOf_spec] at hk
  exact List.map_eq_append_iff.mp hk

theorem valuesOf_spec {sp : Spec} {items : List Item} {vs ws : List Value}
    (hk : vs.map Value.kind = sp.kinds) :
    valuesOf (.spec sp :: items) (vs ++ ws) =
      (sp.places ((textOf items).length + 1)).zip vs ++ valuesOf items ws := by
  have hlen : (sp.places ((textOf items).length + 1)).length = vs.length := by
    have hvs : vs.length = sp.kinds.length := by rw [← hk, List.length_map]
    rw [hvs]
    simp only [Spec.places, Spec.kinds, List.length_append, List.length_map, List.length_singleton]
    omega
  rw [valuesOf, placesOf, List.zip_append hlen]
  rfl

/-- A star takes one `int`. -/
theorem Field.star_values {vs : List Value} (hk : vs.map Value.kind = Field.star.kinds) :
    ∃ v, vs = [.int v] := by
  obtain ⟨v, vs', rfl, hv, hnil⟩ := List.map_eq_cons_iff.mp hk
  obtain rfl := List.map_eq_nil_iff.mp hnil
  cases v with
  | int v => exact ⟨v, rfl⟩
  | long v => cases hv
  | double v => cases hv
  | string s => cases hv
  | pointer v => cases hv

/-- The values of a specification: those of its width, those of its precision, and one more. -/
theorem Spec.split_values {sp : Spec} {vs : List Value} (hk : vs.map Value.kind = sp.kinds) :
    ∃ us ps v, vs = us ++ (ps ++ [v]) ∧ us.map Value.kind = sp.width.kinds ∧
      ps.map Value.kind = precKinds sp.prec ∧ v.kind = sp.conv.kind sp.lens := by
  obtain ⟨us, vs', rfl, hus, hk'⟩ := List.map_eq_append_iff.mp hk
  obtain ⟨ps, cs, rfl, hps, hcs⟩ := List.map_eq_append_iff.mp hk'
  obtain ⟨v, cs', rfl, hv, hnil⟩ := List.map_eq_cons_iff.mp hcs
  obtain rfl := List.map_eq_nil_iff.mp hnil
  exact ⟨us, ps, v, rfl, hus, hps, hv⟩

theorem Spec.exists_last {sp : Spec} {vs : List Value} (hk : vs.map Value.kind = sp.kinds) :
    ∃ us v, vs = us ++ [v] ∧ v.kind = sp.conv.kind sp.lens := by
  obtain ⟨us, ps, v, rfl, -, -, hv⟩ := Spec.split_values hk
  exact ⟨us ++ ps, v, (List.append_assoc us ps [v]).symm, hv⟩

/-- What is left of the arguments after values of the given types. -/
theorem drop_kinds {us : List Value} {ks : List Kind} (hk : us.map Value.kind = ks)
    (ws : List Value) : (us ++ ws).drop ks.length = ws := by
  rw [← hk, List.length_map, List.drop_left]

/-- The last value taken. -/
theorem Spec.getLast?_take {sp : Spec} {us : List Value} {v : Value}
    (hk : (us ++ [v]).map Value.kind = sp.kinds) (ws : List Value) :
    ((us ++ [v] ++ ws).take sp.kinds.length).getLast? = some v := by
  rw [← hk, List.length_map, List.take_left, List.getLast?_concat]

theorem Spec.length_text (s : Spec) : s.text.length =
    s.flags.length + s.width.text.length + (precText s.prec).length + s.lens.length + 1 := by
  simp only [text, List.length_append, List.length_map, List.length_singleton]
  omega

theorem Field.length_kinds (f : Field) : f.kinds.length ≤ f.text.length := by
  cases f with
  | digits ds => exact Nat.zero_le _
  | star => exact le_rfl

/-- The places of a specification's values lie in it. -/
theorem Spec.places_le (s : Spec) (n : ℕ) : ∀ k ∈ s.places n, k ≤ n + s.text.length := by
  intro k hk
  rw [s.length_text]
  simp only [places, List.mem_append, List.mem_map, List.mem_singleton] at hk
  rcases hk with (⟨_, hm, rfl⟩ | ⟨_, _, rfl⟩) | rfl
  · have hpos : 0 < s.width.kinds.length := List.length_pos_of_mem hm
    have hle := s.width.length_kinds
    omega
  · have hpos : 0 < (precText s.prec).length := by
      cases hp : s.prec with
      | none =>
        rename_i hm
        rw [hp] at hm
        cases hm
      | some f => exact Nat.succ_pos _
    omega
  · omega

theorem places_le_length (items : List Item) :
    ∀ n ∈ placesOf items, n ≤ (textOf items).length := by
  induction items with
  | nil => exact nofun
  | cons i items ih =>
    intro n hn
    rw [textOf_cons, List.length_append]
    cases i with
    | literal c => exact le_trans (ih n hn) (Nat.le_add_left _ _)
    | percents => exact le_trans (ih n hn) (Nat.le_add_left _ _)
    | spec s =>
      rcases List.mem_append.mp hn with hn | hn
      · have hle := s.places_le _ n hn
        rw [Item.text, List.length_cons]
        omega
      · exact le_trans (ih n hn) (Nat.le_add_left _ _)

/-- A value's place comes after a percent sign. -/
theorem places_le {items : List Item} {a t : List UInt8} (h : textOf items ++ [0] = a ++ t)
    (ha : percent ∉ a) : ∀ n ∈ placesOf items, n ≤ t.length := by
  induction items generalizing a with
  | nil => exact nofun
  | cons i items ih =>
    intro n hn
    cases a with
    | nil =>
      rw [List.nil_append] at h
      rw [← h, List.length_append]
      exact le_trans (places_le_length _ n hn) (Nat.le_add_right _ _)
    | cons b a =>
      cases i with
      | literal c =>
        refine ih ?_ (fun hm => ha (List.mem_cons_of_mem b hm)) n hn
        exact (List.cons.inj h).2
      | percents => exact absurd ((List.cons.inj h).1 ▸ List.mem_cons_self) ha
      | spec s => exact absurd ((List.cons.inj h).1 ▸ List.mem_cons_self) ha

/-- Where a percent sign comes first in the text, an item begins, and before it are literals. -/
theorem split_literals {items : List Item} {a t : List UInt8}
    (h : textOf items = a ++ percent :: t) (ha : percent ∉ a) :
    ∃ (lits : List Literal) (items' : List Item), items = lits.map Item.literal ++ items' ∧
      textOf items' = percent :: t := by
  induction items generalizing a with
  | nil => cases a <;> cases h
  | cons i items ih =>
    cases a with
    | nil => exact ⟨[], i :: items, rfl, h⟩
    | cons b a =>
      cases i with
      | literal c =>
        obtain ⟨lits, items', rfl, ht⟩ :=
          ih (List.cons.inj h).2 fun hm => ha (List.mem_cons_of_mem b hm)
        exact ⟨c :: lits, items', rfl, ht⟩
      | percents => exact absurd ((List.cons.inj h).1 ▸ List.mem_cons_self) ha
      | spec s => exact absurd ((List.cons.inj h).1 ▸ List.mem_cons_self) ha

/-- Literals take no values, and are read well. -/
theorem literals_append (lits : List Literal) (items : List Item) :
    kindsOf (lits.map Item.literal ++ items) = kindsOf items ∧
      placesOf (lits.map Item.literal ++ items) = placesOf items ∧
      (EncodesWell (lits.map Item.literal ++ items) ↔ EncodesWell items) := by
  induction lits with
  | nil => exact ⟨rfl, rfl, Iff.rfl⟩
  | cons c lits ih => exact ih

theorem Filler.percent_notMem {flags width prec lens : List UInt8}
    (hf : ∀ c ∈ flags, c ∈ flagChars) (hw : ∀ c ∈ width, isDigit c)
    (hp : prec = [] ∨ ∃ ds, prec = dot :: ds ∧ ∀ c ∈ ds, isDigit c)
    (hl : ∀ c ∈ lens, c ∈ lengthChars) : percent ∉ flags ++ (width ++ (prec ++ lens)) := by
  have hdigit : isDigit percent = false := by decide
  simp only [List.mem_append, not_or]
  refine ⟨fun h => absurd (hf _ h) (by decide), fun h => ne_of_isDigit (hw _ h) hdigit rfl, ?_,
    fun h => absurd (hl _ h) (by decide)⟩
  rcases hp with rfl | ⟨ds, rfl, hd⟩
  · exact List.not_mem_nil
  · rw [List.mem_cons, not_or]
    exact ⟨by decide, fun h => ne_of_isDigit (hd _ h) hdigit rfl⟩

end CcUtils.Binlog
