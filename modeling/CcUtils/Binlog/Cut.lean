import Mathlib.Data.List.TakeWhile
import CcUtils.Lib.Rules
import CcUtils.Binlog.Decode
import CcUtils.Binlog.Encode

/-!
# Specifications that are cut

What the scanners see of a specification is a matter of its text alone: the flags, a width, a precision,
length modifiers, a conversion, each as far as it goes. `strchr` finds the terminator of its set, so
the loop over the flags moves past the end of a format that ends in its flags. `do_valog` moves on twice
after a star as precision, past the end when nothing follows, and takes the second of two percent signs
for the start of a specification.

## What is proved

* `Scanner.next_suffix` — behind a specification a scanner goes on in the format.
* `valog_loop_within` — `do_valog` leaves the format only where it comes to a specification that is cut.
* `valog_strays` — where it comes to one, there are arguments with which it does.
-/

namespace CcUtils.Binlog

open CcUtils.Lib

/-! ### The text of a specification -/

/-- The character takes a value. -/
def isConv (c : UInt8) : Prop := c ∈ integerConvs ∨ c ∈ doubleConvs ∨ c = 115 ∨ c = 112

instance : DecidablePred isConv := fun c =>
  inferInstanceAs (Decidable (c ∈ integerConvs ∨ c ∈ doubleConvs ∨ c = 115 ∨ c = 112))

/-- A width, or a precision behind its dot, at the start of a text: a star, or the digits there. -/
def fieldText : List UInt8 → List UInt8
  | [] => []
  | c :: t => if c = star then [star] else (c :: t).takeWhile isDigit

/-- A precision at the start of a text, with its dot. -/
def precisionText : List UInt8 → List UInt8
  | [] => []
  | c :: t => if c = dot then dot :: fieldText t else []

/-- The parts of a specification up to its precision, and what is behind them. -/
structure Parts where
  flags : List UInt8
  width : List UInt8
  prec : List UInt8
  behind : List UInt8

/-- The parts of the text behind a percent sign. -/
def partsOf (u : List UInt8) : Parts :=
  let flags := u.takeWhile (· ∈ flagChars)
  let u := u.dropWhile (· ∈ flagChars)
  let width := fieldText u
  let u := u.drop width.length
  let prec := precisionText u
  ⟨flags, width, prec, u.drop prec.length⟩

/-- The two scanners. -/
inductive Scanner where
  | doValog
  | printFormat
  deriving DecidableEq

/-- Where the scanner looks for the length modifiers: `do_valog` skips a character after a star as
precision. -/
def Scanner.behind (sc : Scanner) (p : Parts) : List UInt8 :=
  if sc = .doValog ∧ p.prec = [dot, star] then p.behind.tail else p.behind

theorem Scanner.behind_printFormat (p : Parts) : Scanner.printFormat.behind p = p.behind := by
  rw [Scanner.behind, if_neg]
  rintro ⟨⟨⟩, -⟩

/-- Where a scanner goes on behind the text of a specification: nowhere if its conversion is missing or
unknown. Of two percent signs `do_valog` stays at the second. -/
def Scanner.next (sc : Scanner) (u : List UInt8) : Option (List UInt8) :=
  match (sc.behind (partsOf u)).dropWhile (· ∈ lengthChars) with
  | [] => none
  | c :: t =>
    if c = percent then some (if sc = .doValog then c :: t else t)
    else if isConv c then some t
    else none

/-- In the first text, the scanner comes to a percent sign with the second text behind it. -/
inductive Comes (sc : Scanner) : List UInt8 → List UInt8 → Prop where
  | here (u : List UInt8) : Comes sc (percent :: u) u
  | literal {c : UInt8} {t u : List UInt8} : c ≠ percent → Comes sc t u → Comes sc (c :: t) u
  | behind {v t u : List UInt8} : sc.next v = some t → Comes sc t u → Comes sc (percent :: v) u

section comes

variable {sc : Scanner} {bad : List UInt8 → Prop} {c : UInt8} {v t : List UInt8}

/-- A bad text that it comes to behind a character. -/
theorem exists_comes_literal (hc : c ≠ percent) (h : ∃ u, Comes sc t u ∧ bad u) :
    ∃ u, Comes sc (c :: t) u ∧ bad u := by
  obtain ⟨u, hu, hbad⟩ := h
  exact ⟨u, .literal hc hu, hbad⟩

/-- And behind a specification. -/
theorem exists_comes_behind (hnext : sc.next v = some t) (h : ∃ u, Comes sc t u ∧ bad u) :
    ∃ u, Comes sc (percent :: v) u ∧ bad u := by
  obtain ⟨u, hu, hbad⟩ := h
  exact ⟨u, .behind hnext hu, hbad⟩

end comes

/-- The text ends in its flags. -/
def CutInFlags (u : List UInt8) : Prop := ∀ c ∈ u, c ∈ flagChars

/-- The text ends behind a star as precision. -/
def CutAfterStar (u : List UInt8) : Prop :=
  (partsOf u).prec = [dot, star] ∧ (partsOf u).behind = []

/-! ### What the loops pass -/

theorem drop_takeWhile (p : UInt8 → Bool) (r : List UInt8) :
    r.drop (r.takeWhile p).length = r.dropWhile p := by
  have h : (r.takeWhile p ++ r.dropWhile p).drop (r.takeWhile p).length = r.dropWhile p :=
    List.drop_left
  rwa [List.takeWhile_append_dropWhile] at h

/-- A field is a star, or the digits up to something else. -/
theorem fieldText_cases (r : List UInt8) :
    (∃ t, r = star :: t ∧ fieldText r = [star] ∧ r.drop (fieldText r).length = t) ∨
      r.head? ≠ some star ∧ fieldText r ≠ [star] ∧ fieldText r = r.takeWhile isDigit ∧
        r.drop (fieldText r).length = r.dropWhile isDigit := by
  cases r with
  | nil => exact .inr ⟨nofun, nofun, rfl, rfl⟩
  | cons c t =>
    by_cases hc : c = star
    · subst hc
      exact .inl ⟨t, rfl, rfl, rfl⟩
    · have htext : fieldText (c :: t) = (c :: t).takeWhile isDigit := if_neg hc
      refine .inr ⟨fun h => hc (Option.some.inj h), ?_, htext, ?_⟩
      · rw [htext]
        intro h
        have hd := List.mem_takeWhile_imp (h ▸ List.mem_cons_self : star ∈ _)
        exact absurd hd (by decide)
      · rw [htext, drop_takeWhile]

/-- A precision begins with a dot. -/
theorem precisionText_ne_nil {b : List UInt8} (h : precisionText b ≠ []) : ∃ t, b = dot :: t := by
  cases b with
  | nil => exact absurd rfl h
  | cons c t =>
    by_cases hc : c = dot
    · exact ⟨t, congrArg (· :: t) hc⟩
    · exact absurd (if_neg hc) h

theorem precisionText_star {b : List UInt8} (h : precisionText b = [dot, star]) :
    ∃ t, b = dot :: star :: t := by
  cases b with
  | nil => cases h
  | cons c t =>
    by_cases hc : c = dot
    · subst hc
      rw [precisionText, if_pos rfl] at h
      rcases fieldText_cases t with ⟨t', rfl, -, -⟩ | ⟨-, hne, -, -⟩
      · exact ⟨t', rfl⟩
      · exact absurd (List.cons.inj h).2 hne
    · rw [precisionText, if_neg hc] at h
      cases h

theorem peek_end {r : List UInt8} (h : r.head? ≠ some star) :
    ∃ c, peek (r ++ [0]) = .ok c ∧ c ≠ star := by
  cases r with
  | nil => exact ⟨0, rfl, by decide⟩
  | cons c t => exact ⟨c, rfl, fun hc => h (congrArg some hc)⟩

/-- What is behind the precision is the end of the text. -/
theorem behind_suffix (u : List UInt8) : (partsOf u).behind <:+ u :=
  (List.drop_suffix _ _).trans ((List.drop_suffix _ _).trans (List.dropWhile_suffix _))

theorem Scanner.behind_suffix (sc : Scanner) (u : List UInt8) : sc.behind (partsOf u) <:+ u := by
  rw [Scanner.behind]
  split
  · exact (List.tail_suffix _).trans (Binlog.behind_suffix u)
  · exact Binlog.behind_suffix u

/-- So is where the scanner goes on. -/
theorem Scanner.next_suffix {sc : Scanner} {u t : List UInt8} (h : sc.next u = some t) :
    t <:+ u := by
  rw [next] at h
  have hd := (List.dropWhile_suffix (l := sc.behind (partsOf u)) (· ∈ lengthChars)).trans
    (sc.behind_suffix u)
  split at h
  · cases h
  · rename_i c t' hconv
    rw [hconv] at hd
    have ht : t' <:+ u := (List.suffix_cons c t').trans hd
    split at h
    · split at h
      · exact Option.some.inj h ▸ hd
      · exact Option.some.inj h ▸ ht
    · split at h
      · exact Option.some.inj h ▸ ht
      · cases h

/-- The loop over the flags does not stop at the terminator. -/
theorem scan_flags {u : List UInt8} (h0 : (0 : UInt8) ∉ u) :
    (CutInFlags u → scan (strchr flagChars) (u ++ [0]) = .error .outOfBounds) ∧
      (¬ CutInFlags u → scan (strchr flagChars) (u ++ [0]) =
        .ok (u.takeWhile (· ∈ flagChars), u.dropWhile (· ∈ flagChars) ++ [0])) := by
  induction u with
  | nil => exact ⟨fun _ => rfl, fun h => absurd (fun c hc => absurd hc List.not_mem_nil) h⟩
  | cons c u ih =>
    obtain ⟨hcut, hnot⟩ := ih fun h => h0 (List.mem_cons_of_mem c h)
    have hc0 : c ≠ 0 := fun h => h0 (h ▸ List.mem_cons_self)
    by_cases hc : c ∈ flagChars
    · have hs : strchr flagChars c = true := decide_eq_true (.inl hc)
      constructor
      · intro h
        rw [List.cons_append, scan, if_pos hs, hcut fun d hd => h d (List.mem_cons_of_mem c hd)]
        rfl
      · intro h
        have hu : ¬ CutInFlags u := fun h' => h fun d hd => by
          rcases List.mem_cons.mp hd with rfl | hd
          · exact hc
          · exact h' d hd
        rw [List.cons_append, scan, if_pos hs, hnot hu]
        simp [hc]
    · have hs : strchr flagChars c = false := decide_eq_false fun h => h.elim hc hc0
      constructor
      · exact fun h => absurd (h c List.mem_cons_self) hc
      · intro _
        simp [scan, hs, hc]

/-- The loop over the length modifiers aborts at the terminator. -/
theorem scanLengths_end {b : List UInt8} (h0 : (0 : UInt8) ∉ b) :
    scanLengths (b ++ [0]) =
      if b.dropWhile (· ∈ lengthChars) = [] then .error .abort
      else .ok (b.takeWhile (· ∈ lengthChars), b.dropWhile (· ∈ lengthChars) ++ [0]) := by
  induction b with
  | nil => rfl
  | cons c b ih =>
    have hb := ih fun h => h0 (List.mem_cons_of_mem c h)
    have hc0 : c ≠ 0 := fun h => h0 (h ▸ List.mem_cons_self)
    by_cases hc : c ∈ lengthChars
    · have hs : strchr lengthChars c = true := decide_eq_true (.inl hc)
      have hdrop : (c :: b).dropWhile (· ∈ lengthChars) = b.dropWhile (· ∈ lengthChars) := by
        simp [hc]
      rw [List.cons_append, scanLengths, if_pos hs, check_true hc, ok_bind, hb, hdrop]
      split
      · rfl
      · simp [hc]
    · have hs : strchr lengthChars c = false := decide_eq_false fun h => h.elim hc hc0
      simp [scanLengths, hs, hc]

theorem convKind_of_isConv (lens : List UInt8) {c : UInt8} (h : isConv c) :
    ∃ k, convKind lens c = .ok (some k) := by
  unfold convKind
  split
  · exact ⟨_, rfl⟩
  · split
    · exact ⟨_, rfl⟩
    · rename_i h1 h2
      rcases (h.resolve_left h1).resolve_left h2 with rfl | rfl
      · exact ⟨_, rfl⟩
      · exact ⟨_, rfl⟩

theorem convKind_unknown (lens : List UInt8) {c : UInt8} (h : ¬ isConv c) (hp : c ≠ percent) :
    convKind lens c = .error .abort := by
  simp only [isConv, not_or] at h
  rw [convKind, if_neg h.1, if_neg h.2.1, if_neg h.2.2.1, if_neg h.2.2.2, if_neg hp]

/-! ### Other faults than a scanner has -/

section faults

variable {e : Fault}

theorem peek_within (he : e ≠ .outOfBounds) (ptr : List UInt8) :
    Within e False (peek ptr) fun _ => True := by
  cases ptr with
  | nil => exact .error _ fun h => he h.symm
  | cons c ptr => exact .ok True.intro

theorem scan_within (he : e ≠ .outOfBounds) (p : UInt8 → Bool) (ptr : List UInt8) :
    Within e False (scan p ptr) fun _ => True := by
  induction ptr with
  | nil => exact .error _ fun h => he h.symm
  | cons c ptr ih =>
    rw [scan]
    split
    · exact ih.bind fun _ _ => .ok True.intro
    · exact .ok True.intro

theorem scanLengths_within (he : e ≠ .outOfBounds) (ha : e ≠ .abort) (ptr : List UInt8) :
    Within e False (scanLengths ptr) fun _ => True := by
  induction ptr with
  | nil => exact .error _ fun h => he h.symm
  | cons c ptr ih =>
    rw [scanLengths]
    split
    · refine Within.check_bind ha.symm fun _ => ?_
      exact ih.bind fun _ _ => .ok True.intro
    · exact .ok True.intro

theorem convKind_within (ha : e ≠ .abort) (lens : List UInt8) (c : UInt8) :
    Within e False (convKind lens c) fun k => k = none → c = percent := by
  by_cases hc : isConv c
  · obtain ⟨k, hk⟩ := convKind_of_isConv lens hc
    rw [hk]
    exact .ok nofun
  · by_cases hp : c = percent
    · rw [hp, convKind_percent]
      exact .ok fun _ => rfl
    · rw [convKind_unknown lens hc hp]
      exact .error _ fun h => ha h.symm

end faults

/-! ### `do_valog` -/

section valog

variable {σ : Type} {put : Sink σ}

theorem valog_width_eq {s : Valog σ} {r : List UInt8} (hs : s.ptr = r ++ [0]) :
    s.width put =
      if fieldText r = [star] then s.printBintype put .int
      else .ok { s with ptr := r.drop (fieldText r).length ++ [0] } := by
  rcases fieldText_cases r with ⟨t, rfl, htext, -⟩ | ⟨hhead, hne, htext, hdrop⟩
  · rw [htext, if_pos rfl, Valog.width, hs]
    rfl
  · have hscan := scan_append r [] (show isDigit 0 = false by decide)
    obtain ⟨c, hpeek, hc⟩ := peek_end hhead
    rw [if_neg hne, hdrop, Valog.width, hs, hpeek, ok_bind, if_neg hc, hscan]
    rfl

theorem valog_precision_eq {s : Valog σ} {r : List UInt8} (hs : s.ptr = r ++ [0]) :
    s.precision put =
      if precisionText r = [dot, star] then do
        let s ← Valog.printBintype put .int { s with ptr := r.tail ++ [0] }
        .ok { s with ptr := s.ptr.tail }
      else .ok { s with ptr := r.drop (precisionText r).length ++ [0] } := by
  cases r with
  | nil =>
    rw [Valog.precision, hs]
    exact congrArg Except.ok (by cases s; cases hs; rfl)
  | cons c t =>
    rw [Valog.precision, hs, List.cons_append, peek_cons, ok_bind, List.tail_cons, List.tail_cons]
    by_cases hc : c = dot
    · subst hc
      have htext : precisionText (dot :: t) = dot :: fieldText t := by
        rw [precisionText, if_pos rfl]
      have hiff : dot :: fieldText t = [dot, star] ↔ fieldText t = [star] := by
        rw [List.cons.injEq]
        exact and_iff_right rfl
      have hwidth : Valog.width put { s with ptr := t ++ [0] } = _ := valog_width_eq rfl
      rw [if_pos rfl, htext]
      rcases fieldText_cases t with ⟨t', rfl, hstar, -⟩ | ⟨hhead, hne, -, -⟩
      · rw [if_pos (hiff.mpr hstar)]
        rfl
      · rw [if_neg (mt hiff.mp hne)]
        rw [if_neg hne] at hwidth
        obtain ⟨c, hpeek, hc⟩ := peek_end hhead
        rw [Valog.width, hpeek, ok_bind, if_neg hc] at hwidth
        rw [hpeek, ok_bind, if_neg hc]
        exact hwidth
    · have htext : precisionText (c :: t) = [] := if_neg hc
      rw [if_neg hc, htext]
      exact congrArg Except.ok (by cases s; cases hs; rfl)

theorem valog_conversion_eq {s : Valog σ} {b : List UInt8} (hs : s.ptr = b ++ [0])
    (h0 : (0 : UInt8) ∉ b) :
    s.conversion put = match b.dropWhile (· ∈ lengthChars) with
      | [] => .error .abort
      | c :: t => convKind (b.takeWhile (· ∈ lengthChars)) c >>= fun k => match k with
        | none => .ok { s with ptr := c :: t ++ [0] }
        | some k => Valog.printBintype put k { s with ptr := c :: t ++ [0] } := by
  rw [Valog.conversion, hs, scanLengths_end h0]
  cases b.dropWhile (· ∈ lengthChars) with
  | nil => rfl
  | cons c t => rfl

theorem printBintype_within (hput : ∀ x v, put x v ≠ .error .outOfBounds) (k : Kind)
    (s : Valog σ) : Within .outOfBounds False (s.printBintype put k) fun s' => s'.ptr = s.ptr.tail := by
  unfold Valog.printBintype
  split
  · exact .error _ nofun
  · rename_i v ap _
    refine Within.check_bind nofun fun _ => ?_
    have hv : Within .outOfBounds False (put s.sink v) fun _ => True := ⟨hput s.sink v, fun _ _ => True.intro⟩
    exact hv.bind fun _ _ => .ok rfl

theorem valog_width_within (hput : ∀ x v, put x v ≠ .error .outOfBounds) {s : Valog σ}
    {r : List UInt8} (hs : s.ptr = r ++ [0]) :
    Within .outOfBounds False (s.width put) fun s' => s'.ptr = r.drop (fieldText r).length ++ [0] := by
  rw [valog_width_eq hs]
  rcases fieldText_cases r with ⟨t, rfl, htext, hdrop⟩ | ⟨-, hne, -, -⟩
  · rw [if_pos htext, hdrop]
    have htail : s.ptr.tail = t ++ [0] := congrArg List.tail hs
    rw [← htail]
    exact printBintype_within hput .int s
  · rw [if_neg hne]
    exact .ok rfl

/-- After a star as precision one character more is skipped, be it the terminator. -/
theorem valog_precision_within (hput : ∀ x v, put x v ≠ .error .outOfBounds) {s : Valog σ}
    {b : List UInt8} (hs : s.ptr = b ++ [0]) :
    Within .outOfBounds False (s.precision put) fun s' => s'.ptr =
      if precisionText b = [dot, star] then (b.drop (precisionText b).length ++ [0]).tail
      else b.drop (precisionText b).length ++ [0] := by
  rw [valog_precision_eq hs]
  by_cases hstar : precisionText b = [dot, star]
  · obtain ⟨t, rfl⟩ := precisionText_star hstar
    rw [if_pos hstar, if_pos hstar, hstar]
    refine (printBintype_within hput _ _).bind fun s' hs' => .ok ?_
    exact congrArg List.tail hs'
  · rw [if_neg hstar, if_neg hstar]
    exact .ok rfl

/-- Where `do_valog` looks for the length modifiers, if it did not skip the terminator. -/
theorem valog_behind_eq {u : List UInt8} (hu : ¬ CutAfterStar u) :
    (if (partsOf u).prec = [dot, star] then ((partsOf u).behind ++ [0]).tail
      else (partsOf u).behind ++ [0]) = Scanner.doValog.behind (partsOf u) ++ [0] := by
  rw [Scanner.behind]
  by_cases hstar : (partsOf u).prec = [dot, star]
  · rw [if_pos hstar, if_pos ⟨rfl, hstar⟩]
    exact List.tail_append_of_ne_nil fun hb => hu ⟨hstar, hb⟩
  · rw [if_neg hstar, if_neg fun h => hstar h.2]

theorem valog_conversion_within (hput : ∀ x v, put x v ≠ .error .outOfBounds) {s : Valog σ}
    {u : List UInt8} (h0 : (0 : UInt8) ∉ u)
    (hs : s.ptr = Scanner.doValog.behind (partsOf u) ++ [0]) :
    Within .outOfBounds False (s.conversion put) fun s' =>
      ∃ t, Scanner.doValog.next u = some t ∧ s'.ptr = t ++ [0] := by
  have h0b : (0 : UInt8) ∉ Scanner.doValog.behind (partsOf u) :=
    fun h => h0 ((Scanner.behind_suffix _ u).subset h)
  rw [valog_conversion_eq hs h0b, Scanner.next]
  cases hconv : (Scanner.doValog.behind (partsOf u)).dropWhile (· ∈ lengthChars) with
  | nil => exact .error _ nofun
  | cons c t =>
    dsimp only
    by_cases hp : c = percent
    · subst hp
      exact .ok ⟨percent :: t, rfl, rfl⟩
    · rw [if_neg hp]
      by_cases hc : isConv c
      · obtain ⟨k, hk⟩ := convKind_of_isConv ((Scanner.doValog.behind (partsOf u)).takeWhile
          (· ∈ lengthChars)) hc
        rw [hk, ok_bind, if_pos hc]
        exact (printBintype_within hput _ _).mono id fun s' h => ⟨t, rfl, h⟩
      · rw [convKind_unknown _ hc hp]
        exact .error _ nofun

/-- What follows a percent sign: `do_valog` leaves the format only where it is cut, and else goes on
behind the specification. -/
theorem valog_specification_within (hput : ∀ x v, put x v ≠ .error .outOfBounds) {s : Valog σ}
    {u : List UInt8} (hs : s.ptr = u ++ [0]) (h0 : (0 : UInt8) ∉ u) :
    Within .outOfBounds (CutInFlags u ∨ CutAfterStar u) (s.specification put) fun s' =>
      ∃ t, Scanner.doValog.next u = some t ∧ s'.ptr = t ++ [0] := by
  obtain ⟨hcut, hflags⟩ := scan_flags h0
  rw [Valog.specification, hs]
  by_cases hu : CutInFlags u
  · rw [hcut hu]
    exact .error _ fun _ => .inl hu
  rw [hflags hu, ok_bind]
  refine Within.bind (valog_width_within hput rfl).weaken fun s hs => ?_
  refine (valog_precision_within hput hs).weaken.bind fun s hs => ?_
  by_cases hstar : CutAfterStar u
  · have hnone : s.ptr = [] := by
      refine hs.trans ((if_pos hstar.1).trans ?_)
      exact congrArg (fun b => List.tail (b ++ [0])) hstar.2
    rw [Valog.conversion, hnone]
    exact .error _ fun _ => .inr hstar
  · exact (valog_conversion_within hput h0 (hs.trans (valog_behind_eq hstar))).weaken

/-- `do_valog` leaves the format only where it comes to a specification that is cut. -/
theorem valog_loop_within (hput : ∀ x v, put x v ≠ .error .outOfBounds) {fuel : ℕ} {s : Valog σ}
    {t : List UInt8} (hs : s.ptr = t ++ [0]) (h0 : (0 : UInt8) ∉ t) :
    Within .outOfBounds (∃ u, Comes .doValog t u ∧ (CutInFlags u ∨ CutAfterStar u)) (Valog.loop put fuel s)
      fun _ => True := by
  induction fuel generalizing s t with
  | zero => exact .other _ (by decide)
  | succ fuel ih =>
    rw [Valog.loop, hs]
    cases t with
    | nil => exact .ok True.intro
    | cons c t =>
      have hc : c ≠ 0 := fun h => h0 (h ▸ List.mem_cons_self)
      have h0t : (0 : UInt8) ∉ t := fun h => h0 (List.mem_cons_of_mem c h)
      rw [List.cons_append, peek_cons, ok_bind, if_neg hc]
      by_cases hp : c = percent
      · subst hp
        rw [if_neg fun h => h rfl]
        refine Within.bind ((valog_specification_within hput (s := { s with ptr := t ++ [0] }) rfl
          h0t).mono (fun h => ⟨t, .here t, h⟩) fun _ h => h) fun s' hs' => ?_
        obtain ⟨t', hnext, hs'⟩ := hs'
        have h0' : (0 : UInt8) ∉ t' := fun h => h0t ((Scanner.next_suffix hnext).subset h)
        exact (ih hs' h0').mono (exists_comes_behind hnext) fun _ h => h
      · rw [if_pos hp]
        exact (ih rfl h0t).mono (exists_comes_literal hp) fun _ h => h

end valog

/-! ### Arguments with which `do_valog` gets anywhere -/

/-- A value of each type; the `int` has ten digits. -/
def Kind.wide : Kind → Value
  | .int => .int (BitVec.intMax 32)
  | .long => .long 0
  | .double => .double 0
  | .string => .string ⟨[], nul_notMem_nil⟩
  | .pointer => .pointer 0

@[simp] theorem Kind.kind_wide (k : Kind) : k.wide.kind = k := by cases k <;> rfl

/-- The sink that takes everything. -/
def swallow : Sink Unit := fun x _ => .ok (x, 0)

/-- With some values as the next arguments, the part of `do_valog` gets from `a` to `b`. -/
def Takes (f : Valog Unit → Exec (Valog Unit)) (a b : List UInt8) : Prop :=
  ∃ vs, ∀ (s : Valog Unit) (more : List Value), s.ptr = a → s.ap = vs ++ more →
    Post (f s) fun s' => s'.ptr = b ∧ s'.ap = more

theorem Takes.trans {f g : Valog Unit → Exec (Valog Unit)} {a b c : List UInt8} (hf : Takes f a b)
    (hg : Takes g b c) : Takes (fun s => f s >>= g) a c := by
  obtain ⟨vs, hf⟩ := hf
  obtain ⟨ws, hg⟩ := hg
  refine ⟨vs ++ ws, fun s more hs hap => ?_⟩
  rw [List.append_assoc] at hap
  exact (hf s (ws ++ more) hs hap).bind fun s' h => hg s' more h.1 h.2

theorem printBintype_takes (k : Kind) (c : UInt8) (t : List UInt8) :
    Takes (Valog.printBintype swallow k) (c :: t) t := by
  refine ⟨[k.wide], ?_⟩
  rintro ⟨ptr, ap, x, n, log⟩ more rfl rfl
  exact ⟨_, printBintype_eq k.kind_wide rfl n log, rfl, rfl⟩

theorem valog_width_takes (r : List UInt8) :
    Takes (Valog.width swallow) (r ++ [0]) (r.drop (fieldText r).length ++ [0]) := by
  rcases fieldText_cases r with ⟨t, rfl, htext, hdrop⟩ | ⟨-, hne, -, -⟩
  · obtain ⟨vs, hvs⟩ := printBintype_takes .int star (t ++ [0])
    refine ⟨vs, fun s more hs hap => ?_⟩
    rw [valog_width_eq hs, if_pos htext, hdrop]
    exact hvs s more hs hap
  · refine ⟨[], fun s more hs hap => ?_⟩
    rw [valog_width_eq hs, if_neg hne]
    exact .ok ⟨rfl, hap⟩

theorem valog_precision_takes (b : List UInt8) :
    Takes (Valog.precision swallow) (b ++ [0])
      (if precisionText b = [dot, star] then (b.drop (precisionText b).length ++ [0]).tail
        else b.drop (precisionText b).length ++ [0]) := by
  by_cases hstar : precisionText b = [dot, star]
  · obtain ⟨t, rfl⟩ := precisionText_star hstar
    obtain ⟨vs, hvs⟩ := printBintype_takes .int star (t ++ [0])
    refine ⟨vs, fun s more hs hap => ?_⟩
    rw [valog_precision_eq hs, if_pos hstar, if_pos hstar, hstar]
    refine (hvs { s with ptr := star :: t ++ [0] } more rfl hap).bind fun s' h => .ok ⟨?_, h.2⟩
    exact congrArg List.tail h.1
  · refine ⟨[], fun s more hs hap => ?_⟩
    rw [valog_precision_eq hs, if_neg hstar, if_neg hstar]
    exact .ok ⟨rfl, hap⟩

/-- The arguments that the width and the precision take. -/
theorem valog_fields_takes (u : List UInt8) :
    Takes (fun s => s.width swallow >>= Valog.precision swallow)
      (u.dropWhile (· ∈ flagChars) ++ [0])
      (if (partsOf u).prec = [dot, star] then ((partsOf u).behind ++ [0]).tail
        else (partsOf u).behind ++ [0]) :=
  (valog_width_takes _).trans (valog_precision_takes _)

theorem valog_conversion_takes {u t : List UInt8} (h0 : (0 : UInt8) ∉ u)
    (h : Scanner.doValog.next u = some t) :
    Takes (Valog.conversion swallow) (Scanner.doValog.behind (partsOf u) ++ [0]) (t ++ [0]) := by
  have h0b : (0 : UInt8) ∉ Scanner.doValog.behind (partsOf u) :=
    fun h' => h0 ((Scanner.behind_suffix _ u).subset h')
  rw [Scanner.next] at h
  cases hconv : (Scanner.doValog.behind (partsOf u)).dropWhile (· ∈ lengthChars) with
  | nil =>
    rw [hconv] at h
    cases h
  | cons c t' =>
    rw [hconv] at h
    dsimp only at h
    by_cases hp : c = percent
    · subst hp
      rw [if_pos rfl, if_pos rfl] at h
      obtain rfl := Option.some.inj h
      refine ⟨[], fun s more hs hap => ?_⟩
      rw [valog_conversion_eq hs h0b, hconv]
      exact .ok ⟨rfl, hap⟩
    · rw [if_neg hp] at h
      by_cases hc : isConv c
      · rw [if_pos hc] at h
        obtain rfl := Option.some.inj h
        obtain ⟨k, hk⟩ := convKind_of_isConv ((Scanner.doValog.behind (partsOf u)).takeWhile
          (· ∈ lengthChars)) hc
        obtain ⟨vs, hvs⟩ := printBintype_takes k c (t' ++ [0])
        refine ⟨vs, fun s more hs hap => ?_⟩
        rw [valog_conversion_eq hs h0b, hconv]
        dsimp only
        rw [hk, ok_bind]
        exact hvs { s with ptr := c :: t' ++ [0] } more rfl hap
      · rw [if_neg hc] at h
        cases h

/-- The arguments that a specification takes. -/
theorem valog_specification_takes {u t : List UInt8} (h0 : (0 : UInt8) ∉ u)
    (hu : ¬ (CutInFlags u ∨ CutAfterStar u)) (h : Scanner.doValog.next u = some t) :
    Takes (Valog.specification swallow) (u ++ [0]) (t ++ [0]) := by
  have hbehind := valog_behind_eq fun h => hu (.inr h)
  obtain ⟨vs, hvs⟩ := (valog_fields_takes u).trans (hbehind ▸ valog_conversion_takes h0 h)
  refine ⟨vs, fun s more hs hap => ?_⟩
  have hspec := hvs { s with ptr := u.dropWhile (· ∈ flagChars) ++ [0] } more rfl hap
  rw [Valog.specification, hs, (scan_flags h0).2 fun h => hu (.inl h), ok_bind]
  dsimp only at hspec
  rwa [bind_assoc] at hspec

/-- With some arguments, `do_valog` leaves the format from `a` on, whatever the fuel, if it is enough
for the text. -/
def Strays (a : List UInt8) : Prop :=
  ∃ vs, ∀ (s : Valog Unit) (more : List Value) (fuel : ℕ), s.ptr = a → s.ap = vs ++ more →
    a.length ≤ fuel → Valog.loop swallow fuel s = .error .outOfBounds

/-- A specification that is cut leads out of the format. -/
theorem valog_strays_cut {u : List UInt8} (h0 : (0 : UInt8) ∉ u)
    (h : CutInFlags u ∨ CutAfterStar u) : Strays (percent :: u ++ [0]) := by
  have hfuel : ∀ fuel, (percent :: u ++ [0]).length ≤ fuel → ∃ k, fuel = k + 1 := by
    intro fuel hf
    rw [List.length_append, List.length_cons] at hf
    exact ⟨fuel - 1, by omega⟩
  have hloop : ∀ (s : Valog Unit) fuel, s.ptr = percent :: u ++ [0] →
      Valog.specification swallow { s with ptr := u ++ [0] } = .error .outOfBounds →
        Valog.loop swallow (fuel + 1) s = .error .outOfBounds := by
    intro s fuel hs hspec
    rw [Valog.loop, hs, List.cons_append, peek_cons, ok_bind, if_neg (by decide),
      if_neg fun h => h rfl, List.tail_cons, hspec]
    rfl
  by_cases hu : CutInFlags u
  · refine ⟨[], fun s more fuel hs hap hf => ?_⟩
    obtain ⟨fuel, rfl⟩ := hfuel fuel hf
    refine hloop s fuel hs ?_
    rw [Valog.specification]
    dsimp only
    rw [(scan_flags h0).1 hu]
    rfl
  · obtain ⟨hstar, hb⟩ := h.resolve_left hu
    obtain ⟨vs, hvs⟩ := valog_fields_takes u
    refine ⟨vs, fun s more fuel hs hap hf => ?_⟩
    obtain ⟨fuel, rfl⟩ := hfuel fuel hf
    refine hloop s fuel hs ?_
    obtain ⟨s', hfields, hs', -⟩ := hvs { s with ptr := u.dropWhile (· ∈ flagChars) ++ [0] } more rfl hap
    rw [if_pos hstar, hb] at hs'
    rw [Valog.specification]
    dsimp only at hfields ⊢
    rw [(scan_flags h0).2 hu, ok_bind, ← bind_assoc]
    dsimp only
    rw [hfields, ok_bind, Valog.conversion, hs']
    rfl

theorem valog_strays {t u : List UInt8} (h0 : (0 : UInt8) ∉ t) (hu : Comes .doValog t u)
    (hbad : CutInFlags u ∨ CutAfterStar u) : Strays (t ++ [0]) := by
  induction hu with
  | here u => exact valog_strays_cut (fun h => h0 (List.mem_cons_of_mem _ h)) hbad
  | @literal c t u hp _ ih =>
    obtain ⟨vs, hvs⟩ := ih (fun h => h0 (List.mem_cons_of_mem _ h)) hbad
    refine ⟨vs, fun s more fuel hs hap hf => ?_⟩
    rw [List.cons_append, List.length_cons] at hf
    obtain ⟨fuel, rfl⟩ : ∃ k, fuel = k + 1 := ⟨fuel - 1, by omega⟩
    have hc : c ≠ 0 := fun h => h0 (h ▸ List.mem_cons_self)
    rw [Valog.loop, hs, List.cons_append, peek_cons, ok_bind, if_neg hc, if_pos hp]
    exact hvs _ more fuel rfl hap (by omega)
  | @behind v t u hnext _ ih =>
    have h0v : (0 : UInt8) ∉ v := fun h => h0 (List.mem_cons_of_mem _ h)
    have hsuffix := Scanner.next_suffix hnext
    by_cases hv : CutInFlags v ∨ CutAfterStar v
    · exact valog_strays_cut h0v hv
    obtain ⟨ws, hws⟩ := ih (fun h => h0v (hsuffix.subset h)) hbad
    obtain ⟨vs, hvs⟩ := valog_specification_takes h0v hv hnext
    refine ⟨vs ++ ws, fun s more fuel hs hap hf => ?_⟩
    have hlen := hsuffix.length_le
    simp only [List.length_append, List.length_cons, List.length_nil] at hf
    obtain ⟨fuel, rfl⟩ : ∃ k, fuel = k + 1 := ⟨fuel - 1, by omega⟩
    rw [List.append_assoc] at hap
    obtain ⟨s', hspec, hs', hap'⟩ := hvs { s with ptr := v ++ [0] } (ws ++ more) rfl hap
    rw [Valog.loop, hs, List.cons_append, peek_cons, ok_bind, if_neg (by decide),
      if_neg fun h => h rfl, List.tail_cons, hspec, ok_bind]
    refine hws s' more fuel hs' hap' ?_
    rw [List.length_append, List.length_singleton]
    omega

end CcUtils.Binlog
