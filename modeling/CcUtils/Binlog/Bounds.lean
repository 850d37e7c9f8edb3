import CcUtils.Binlog.Cut

/-!
# Staying in bounds of a format

`print_format` copies each specification to an array of 128 bytes without asking whether it fits, and
the digits of a value for a star with it. Like `do_valog` it moves past the end of a format that ends in
its flags.

## What is proved

* `printing_loop_within`, `printing_strays` — `print_format` leaves the format or its array exactly where
  it comes to a specification that ends in its flags, or that does not fit with eleven characters for a star.
* `scansInBounds_iff` — when both scanners stay in bounds.
-/

namespace CcUtils.Binlog

open CcUtils.Lib

/-! ### Staying in bounds -/

/-- A record that lies well inside its memory, which ends with a NUL: reading a value of it finds its
bytes, whatever they are. -/
structure VaList.Readable (vl : VaList) : Prop where
  len : sizeT vl.len + 1 < vl.buf.length
  off : vl.off + 1 < vl.buf.length
  last : vl.buf.getLast? = some 0

/-- Neither scanner leaves the format or, `print_format`, its specifier, whatever `abs` makes of the least
`int`. So that a fault is one of the scanner, the sink of `do_valog` must have none, and the record of
`print_format` must be readable. -/
def ScansInBounds (format : CString) : Prop :=
  (∀ (σ : Type) (put : Sink σ) (args : List Value) (sink : σ),
    (∀ x v, put x v ≠ .error .outOfBounds) → doValog put format args sink ≠ .error .outOfBounds) ∧
  ∀ (fprintf : Fprintf) (absMin : Option (BitVec 32)) (vl : VaList), vl.Readable →
    printFormat fprintf format vl absMin ≠ .error .outOfBounds

/-! ### The specifier -/

/-- The length of a width or precision in the specifier, with eleven characters for a star: the sign and
the digits of the least `int`, which a machine has as its own `abs`. -/
def fieldRoom (f : List UInt8) : ℕ := if f = [star] then 11 else f.length

/-- The room it takes while it is copied: the characters of a star are copied with a NUL. -/
def fieldPeak (f : List UInt8) : ℕ := if f = [star] then 12 else f.length

/-- The room taken before the precision, before its field, and before the length modifiers. -/
def widthRoom (u : List UInt8) : ℕ :=
  1 + (partsOf u).flags.length + fieldRoom (partsOf u).width

def dotRoom (u : List UInt8) : ℕ := widthRoom u + ((partsOf u).prec.take 1).length

def precisionRoom (u : List UInt8) : ℕ := dotRoom u + fieldRoom (partsOf u).prec.tail

/-- The room taken for the length modifiers and a conversion that takes a value, with a NUL. -/
def conversionRoom (b : List UInt8) : ℕ :=
  (b.takeWhile (· ∈ lengthChars)).length + match b.dropWhile (· ∈ lengthChars) with
    | [] => 0
    | c :: _ => if isConv c then 2 else 0

/-- The room that `print_format` takes of the specifier for the text behind a percent sign. -/
def specifierRoom (u : List UInt8) : ℕ :=
  max (1 + (partsOf u).flags.length + fieldPeak (partsOf u).width)
    (max (dotRoom u + fieldPeak (partsOf u).prec.tail)
      (precisionRoom u + conversionRoom (partsOf u).behind))

/-! ### What the parts of `print_format` do -/

variable {absMin : Option (BitVec 32)}

theorem printing_width_eq {s : Printing} {r specifier : List UInt8} (hs : s.ptr = r ++ [0]) :
    s.width specifier absMin =
      if fieldText r = [star] then s.copyVaInt specifier absMin
      else copyTo specifier (fieldText r) >>= fun specifier =>
        .ok ({ s with ptr := r.drop (fieldText r).length ++ [0] }, specifier) := by
  rcases fieldText_cases r with ⟨t, rfl, htext, -⟩ | ⟨hhead, hne, htext, hdrop⟩
  · rw [htext, if_pos rfl, Printing.width, hs]
    rfl
  · have hscan := scan_append r [] (show isDigit 0 = false by decide)
    obtain ⟨c, hpeek, hc⟩ := peek_end hhead
    rw [if_neg hne, hdrop, htext, Printing.width, hs, hpeek, ok_bind, if_neg hc, hscan]
    rfl

theorem printing_precision_eq {s : Printing} {r specifier : List UInt8} (hs : s.ptr = r ++ [0]) :
    s.precision specifier absMin =
      if precisionText r = [] then .ok (s, specifier)
      else copyTo specifier [dot] >>= fun specifier =>
        Printing.width { s with ptr := r.tail ++ [0] } specifier absMin := by
  cases r with
  | nil =>
    rw [Printing.precision, hs]
    rfl
  | cons c t =>
    rw [Printing.precision, hs, List.cons_append, peek_cons, ok_bind, List.tail_cons, List.tail_cons,
      precisionText]
    by_cases hc : c = dot
    · subst hc
      rw [if_pos rfl, if_pos rfl, if_neg (List.cons_ne_nil _ _)]
    · rw [if_neg hc, if_neg hc, if_pos rfl]

theorem printing_conversion_eq {fprintf : Fprintf} {s : Printing} {b specifier : List UInt8}
    (hs : s.ptr = b ++ [0]) (h0 : (0 : UInt8) ∉ b) :
    s.conversion fprintf specifier =
      copyTo specifier (b.takeWhile (· ∈ lengthChars)) >>= fun specifier =>
        match b.dropWhile (· ∈ lengthChars) with
        | [] => .error .abort
        | c :: t => convKind (b.takeWhile (· ∈ lengthChars)) c >>= fun k => match k with
          | none => .ok (Printing.printChar percent { s with ptr := c :: t ++ [0] })
          | some k => Printing.printType fprintf c k { s with ptr := c :: t ++ [0] } specifier := by
  have htake : (b ++ [0]).takeWhile (· ∈ lengthChars) = b.takeWhile (· ∈ lengthChars) := by
    rw [List.takeWhile_append]
    split
    · rename_i h
      rw [(List.takeWhile_prefix _).eq_of_length h]
      exact List.append_nil b
    · rfl
  rw [Printing.conversion, hs, htake]
  refine bind_congr fun specifier => ?_
  rw [scanLengths_end h0]
  cases b.dropWhile (· ∈ lengthChars) with
  | nil => rfl
  | cons c t => rfl

/-! ### Reading values of a readable record -/

theorem load_within {buf : List UInt8} {off n : ℕ} (h : off + n ≤ buf.length) :
    Within .outOfBounds False (load buf off n) fun _ => True := by
  rw [load, if_pos h]
  exact .ok True.intro

theorem getWord_within {w n : ℕ} {vl : VaList} {tag : UInt8} (h : vl.Readable) :
    Within .outOfBounds False (getWord w n vl tag) fun r => r.2.Readable := by
  have hlen := h.len
  refine Within.check_bind nofun fun hend => ?_
  refine (load_within (by omega)).bind fun _ _ => ?_
  refine Within.check_bind nofun fun _ => ?_
  refine (load_within (by omega)).bind fun _ _ => ?_
  exact .ok ⟨hlen, by dsimp only; omega, h.last⟩

theorem getString_within {vl : VaList} (h : vl.Readable) :
    Within .outOfBounds False (getString vl) fun r => r.2.Readable := by
  obtain ⟨hlen, hoff, hlast⟩ := h
  have hstring : ∃ s, cstring (vl.buf.drop (vl.off + 1)) = .ok s := by
    obtain ⟨w, hw⟩ : ∃ w, vl.buf.drop (vl.off + 1) = w ++ 0 :: [] := by
      have hd : (vl.buf.drop (vl.off + 1)).getLast? = some 0 := by
        rw [List.getLast?_drop, if_neg (by omega), hlast]
      exact List.getLast?_eq_some_iff.mp hd
    have hs := cstr_takeWhile w []
    rw [← hw] at hs
    exact ⟨⟨_, (prefix_of_cstr hs).1⟩, cstring_eq_ok.mpr hs⟩
  obtain ⟨s, hs⟩ := hstring
  rw [getString, hs, ok_bind]
  refine Within.check_bind (by decide) fun hend => ?_
  refine (load_within (by omega)).bind fun _ _ => ?_
  refine Within.check_bind (by decide) fun _ => .ok ⟨hlen, ?_, hlast⟩
  have hsize : vl.off + 1 + s.len + 1 ≤ sizeT vl.len := sizeT_ofNat (by exact_mod_cast hend)
  dsimp only
  omega

/-- Reading a value of a readable record stays in its memory. -/
theorem getValue_within {vl : VaList} (h : vl.Readable) (k : Kind) :
    Within .outOfBounds False (getValue vl k) fun r => r.2.Readable := by
  cases k with
  | int => exact (getWord_within h).bind fun _ h => .ok h
  | long => exact (getWord_within h).bind fun _ h => .ok h
  | double => exact (getWord_within h).bind fun _ h => .ok h
  | string => exact (getString_within h).bind fun _ h => .ok h
  | pointer => exact (getWord_within h).bind fun _ h => .ok h

/-! ### `print_format` leaves its objects only where it must -/

/-- An `int` is printed in eleven characters at most. -/
theorem length_decimalInt_le (v : BitVec 32) : (decimalInt v).length ≤ 11 := by
  have hdigits : (decimal v.toInt.natAbs).length ≤ 10 := by
    rw [decimal, List.length_map, Nat.length_toDigits_le_iff (by decide) (by decide)]
    have h1 := BitVec.toInt_lt (x := v)
    have h2 := BitVec.le_toInt (x := v)
    omega
  unfold decimalInt
  split
  · exact Nat.succ_le_succ hdigits
  · exact le_trans hdigits (by decide)

theorem absInt_within (p : Prop) (v : BitVec 32) :
    Within .outOfBounds p (absInt absMin v) fun _ => True := by
  unfold absInt
  split
  · cases absMin with
    | none => exact .other _ (by decide)
    | some r => exact .ok True.intro
  · exact .ok True.intro

theorem copyTo_within (specifier chars : List UInt8) :
    Within .outOfBounds (specifierSize < specifier.length + chars.length) (copyTo specifier chars)
      fun r => r.length = specifier.length + chars.length := by
  refine (Within.check (fun h => by omega) _).bind fun _ _ => .ok ?_
  exact List.length_append

theorem copyVaInt_within {s : Printing} {specifier : List UInt8} (h : s.vl.Readable) :
    Within .outOfBounds (specifierSize < specifier.length + 12) (s.copyVaInt specifier absMin) fun r =>
      r.1.ptr = s.ptr.tail ∧ r.1.vl.Readable ∧ r.2.length ≤ specifier.length + 11 := by
  have hget : Within .outOfBounds (specifierSize < specifier.length + 12) (getInt s.vl) fun r => r.2.Readable :=
    (getWord_within h).weaken
  refine hget.bind fun r hr => ?_
  refine (absInt_within _ r.1).bind fun value _ => ?_
  have hdigits := length_decimalInt_le value
  refine (Within.check (fun h => by omega) _).bind fun _ _ => .ok ⟨rfl, hr, ?_⟩
  rw [List.length_append]
  omega

theorem printing_width_within {s : Printing} {r specifier : List UInt8} (hs : s.ptr = r ++ [0])
    (h : s.vl.Readable) :
    Within .outOfBounds (specifierSize < specifier.length + fieldPeak (fieldText r)) (s.width specifier absMin)
      fun p => p.1.ptr = r.drop (fieldText r).length ++ [0] ∧ p.1.vl.Readable ∧
        p.2.length ≤ specifier.length + fieldRoom (fieldText r) := by
  rw [printing_width_eq hs]
  rcases fieldText_cases r with ⟨t, rfl, htext, hdrop⟩ | ⟨-, hne, -, -⟩
  · rw [if_pos htext, hdrop, htext]
    refine (copyVaInt_within h).mono (fun h => h) fun p hp => ?_
    rw [hs] at hp
    exact hp
  · rw [if_neg hne, fieldPeak, if_neg hne, fieldRoom, if_neg hne]
    exact (copyTo_within _ _).bind fun _ hl => .ok ⟨rfl, h, hl.le⟩

theorem printing_precision_within {s : Printing} {r specifier : List UInt8}
    (hs : s.ptr = r ++ [0]) (h : s.vl.Readable) :
    Within .outOfBounds (specifierSize < specifier.length + ((precisionText r).take 1).length +
        fieldPeak (precisionText r).tail) (s.precision specifier absMin)
      fun p => p.1.ptr = r.drop (precisionText r).length ++ [0] ∧ p.1.vl.Readable ∧
        p.2.length ≤ specifier.length + ((precisionText r).take 1).length +
          fieldRoom (precisionText r).tail := by
  rw [printing_precision_eq hs]
  by_cases hp : precisionText r = []
  · rw [if_pos hp, hp]
    exact .ok ⟨hs, h, le_rfl⟩
  · rw [if_neg hp]
    obtain ⟨t, rfl⟩ := precisionText_ne_nil hp
    have htext : precisionText (dot :: t) = dot :: fieldText t := by
      rw [precisionText, if_pos rfl]
    rw [htext]
    refine ((copyTo_within specifier [dot]).mono (fun h => ?_) fun _ h => h).bind fun sp hsp => ?_
    · exact lt_of_lt_of_le h (Nat.le_add_right _ _)
    · have hlen : sp.length = specifier.length + ((dot :: fieldText t).take 1).length := hsp
      rw [← hlen]
      exact printing_width_within (s := { s with ptr := t ++ [0] }) rfl h

theorem printType_within {fprintf : Fprintf} {c : UInt8} {k : Kind} {s : Printing}
    {specifier : List UInt8} (h : s.vl.Readable) :
    Within .outOfBounds (specifierSize < specifier.length + 2) (Printing.printType fprintf c k s specifier)
      fun s' => s'.ptr = s.ptr.tail ∧ s'.vl.Readable := by
  have hget : Within .outOfBounds (specifierSize < specifier.length + 2) (getValue s.vl k) fun r => r.2.Readable :=
    (getValue_within h k).weaken
  refine hget.bind fun r hr => ?_
  refine (Within.check (fun h => by omega) _).bind fun _ _ => ?_
  dsimp only
  split
  · exact .ok ⟨rfl, hr⟩
  · exact .ok ⟨rfl, hr⟩

theorem printing_conversion_within {fprintf : Fprintf} {s : Printing} {u specifier : List UInt8}
    (h0 : (0 : UInt8) ∉ u) (hs : s.ptr = (partsOf u).behind ++ [0]) (h : s.vl.Readable) :
    Within .outOfBounds (specifierSize < specifier.length + conversionRoom (partsOf u).behind)
      (s.conversion fprintf specifier) fun s' =>
        ∃ t, Scanner.printFormat.next u = some t ∧ s'.ptr = t ++ [0] ∧ s'.vl.Readable := by
  have h0b : (0 : UInt8) ∉ (partsOf u).behind := fun h => h0 ((behind_suffix u).subset h)
  rw [printing_conversion_eq hs h0b, Scanner.next, Scanner.behind_printFormat, conversionRoom]
  refine Within.bind ((copyTo_within _ _).mono (fun h => ?_) fun _ h => h) fun sp hsp => ?_
  · exact lt_of_lt_of_le h (by omega)
  cases (partsOf u).behind.dropWhile (· ∈ lengthChars) with
  | nil => exact .other _ (by decide)
  | cons c t =>
    dsimp only
    by_cases hp : c = percent
    · subst hp
      exact .ok ⟨t, rfl, rfl, h⟩
    · rw [if_neg hp]
      by_cases hc : isConv c
      · obtain ⟨k, hk⟩ := convKind_of_isConv ((partsOf u).behind.takeWhile (· ∈ lengthChars)) hc
        rw [hk, ok_bind, if_pos hc, if_pos hc, ← Nat.add_assoc, ← hsp]
        dsimp only
        exact (printType_within (s := { s with ptr := c :: t ++ [0] }) h).mono (fun h => h)
          fun s' h => ⟨t, rfl, h⟩
      · rw [convKind_unknown _ hc hp]
        exact .other _ (by decide)

/-- What follows a percent sign: `print_format` leaves its objects only where the text ends in its flags
or does not fit, and else goes on behind the specification. -/
theorem printing_specification_within {fprintf : Fprintf} {s : Printing} {u : List UInt8}
    (hs : s.ptr = u ++ [0]) (h0 : (0 : UInt8) ∉ u) (h : s.vl.Readable) :
    Within .outOfBounds (CutInFlags u ∨ specifierSize < specifierRoom u) (s.specification fprintf absMin) fun s' =>
      ∃ t, Scanner.printFormat.next u = some t ∧ s'.ptr = t ++ [0] ∧ s'.vl.Readable := by
  have hroom : ∀ {n}, n ≤ specifierRoom u → specifierSize < n →
      CutInFlags u ∨ specifierSize < specifierRoom u := fun hn hlt => .inr (lt_of_lt_of_le hlt hn)
  have hpeak : ∀ f : List UInt8, f.length ≤ fieldPeak f := by
    intro f
    rw [fieldPeak]
    split
    · rename_i hf
      rw [hf]
      decide
    · exact le_rfl
  obtain ⟨hcut, hflags⟩ := scan_flags h0
  rw [Printing.specification, hs]
  by_cases hu : CutInFlags u
  · rw [hcut hu]
    exact .error _ fun _ => .inl hu
  rw [hflags hu, ok_bind]
  dsimp only
  refine Within.bind ((copyTo_within _ _).mono (hroom ?_) fun _ h => h) fun sp hsp => ?_
  · exact le_max_of_le_left (Nat.le_add_right _ _)
  refine Within.bind ((printing_width_within (s := { s with ptr := _ ++ [0] }) rfl h).mono (hroom ?_)
    fun _ h => h) fun p hp => ?_
  · rw [hsp]
    exact le_max_left _ _
  obtain ⟨hs1, h1, hl1⟩ := hp
  rw [hsp] at hl1
  have hl1' : p.2.length ≤ widthRoom u := hl1
  refine Within.bind ((printing_precision_within hs1 h1).mono (hroom ?_) fun _ h => h) fun p hp => ?_
  · refine le_trans (Nat.add_le_add_right (Nat.add_le_add_right hl1' _) _) ?_
    exact le_max_of_le_right (le_max_left _ _)
  obtain ⟨hs2, h2, hl2⟩ := hp
  refine (printing_conversion_within h0 hs2 h2).mono (hroom ?_) fun _ h => h
  have hl2' : p.2.length ≤ precisionRoom u :=
    le_trans hl2 (Nat.add_le_add_right (Nat.add_le_add_right hl1' _) _)
  exact le_trans (Nat.add_le_add_right hl2' _) (le_max_of_le_right (le_max_right _ _))

/-- `print_format` leaves its objects only where it comes to a specification that ends in its flags or
does not fit. -/
theorem printing_loop_within {fprintf : Fprintf} {fuel : ℕ} {s : Printing} {t : List UInt8}
    (hs : s.ptr = t ++ [0]) (h0 : (0 : UInt8) ∉ t) (h : s.vl.Readable) :
    Within .outOfBounds (∃ u, Comes .printFormat t u ∧ (CutInFlags u ∨ specifierSize < specifierRoom u))
      (Printing.loop fprintf fuel s absMin) fun _ => True := by
  induction fuel generalizing s t with
  | zero => exact .other _ (by decide)
  | succ fuel ih =>
    rw [Printing.loop, hs]
    cases t with
    | nil => exact .ok True.intro
    | cons c t =>
      have hc : c ≠ 0 := fun h => h0 (h ▸ List.mem_cons_self)
      have h0t : (0 : UInt8) ∉ t := fun h => h0 (List.mem_cons_of_mem c h)
      rw [List.cons_append, peek_cons, ok_bind, if_neg hc]
      by_cases hp : c = percent
      · subst hp
        rw [if_neg fun h => h rfl]
        refine Within.bind ((printing_specification_within (s := { s with ptr := t ++ [0] }) rfl h0t
          h).mono (fun h => ⟨t, .here t, h⟩) fun _ h => h) fun s' hs' => ?_
        obtain ⟨t', hnext, hs', h'⟩ := hs'
        have h0' : (0 : UInt8) ∉ t' := fun h => h0t ((Scanner.next_suffix hnext).subset h)
        split
        · exact .ok True.intro
        · exact (ih hs' h0' h').mono (exists_comes_behind hnext) fun _ h => h
      · rw [if_pos hp]
        have hptr : (s.printChar c).ptr = t ++ [0] := by
          rw [Printing.printChar, hs]
          rfl
        exact (ih hptr h0t h).mono (exists_comes_literal hp) fun _ h => h

/-! ### Records with which `print_format` gets anywhere -/

/-- The run needs some room of the specifier: with it, it succeeds if it is `live`, and `Q` holds of its
result; without it, it leaves the array. -/
structure Fits {α : Type} (live : Prop) (x : Exec α) (room : ℕ) (Q : α → Prop) : Prop where
  fits : live → room ≤ specifierSize → Post x Q
  leaves : specifierSize < room → x = .error .outOfBounds

theorem Fits.bind {α β : Type} {live : Prop} {x : Exec α} {f : α → Exec β} {m n : ℕ}
    {P : α → Prop} {Q : β → Prop} (hx : Fits True x m P) (hf : ∀ a, P a → Fits live (f a) n Q) :
    Fits live (x >>= f) (max m n) Q where
  fits hl h := (hx.fits True.intro (le_trans (le_max_left m n) h)).bind fun a ha =>
    (hf a ha).fits hl (le_trans (le_max_right m n) h)
  leaves h := by
    by_cases hm : m ≤ specifierSize
    · obtain ⟨a, rfl, ha⟩ := hx.fits True.intro hm
      exact (hf a ha).leaves ((lt_max_iff.mp h).resolve_left (not_lt.mpr hm))
    · rw [hx.leaves (not_le.mp hm)]
      rfl

/-- The same room, written otherwise. -/
theorem Fits.room {α : Type} {live : Prop} {x : Exec α} {m n : ℕ} {Q : α → Prop}
    (h : Fits live x m Q) (e : m = n) : Fits live x n Q := e ▸ h

/-- `fprintf` that prints nothing. -/
def silent : Fprintf := fun _ _ => some []

theorem copyTo_fits (specifier chars : List UInt8) :
    Fits True (copyTo specifier chars) (specifier.length + chars.length)
      fun r => r.length = specifier.length + chars.length where
  fits _ h := ⟨_, copyTo_eq_ok.mpr ⟨h, rfl⟩, List.length_append⟩
  leaves h := by
    rw [copyTo, check_false (not_le.mpr h)]
    rfl

/-- `abs` as machines have it: the least `int` is its own. -/
def machineAbs : Option (BitVec 32) := some (BitVec.intMin 32)

theorem copyVaInt_fits {s : Printing} (specifier : List UInt8) {rest : List UInt8}
    (h : s.vl.Ahead ((Value.int (BitVec.intMin 32)).bytes ++ rest)) :
    Fits True (s.copyVaInt specifier machineAbs) (specifier.length + 12) fun r =>
      r.1.ptr = s.ptr.tail ∧ r.1.vl.Ahead rest ∧ r.1.failed = s.failed ∧
        r.2.length ≤ specifierSize ∧ r.2.length = specifier.length + 11 := by
  have hget : getInt s.vl = .ok (BitVec.intMin 32, s.vl.skip (1 + 4)) :=
    VaList.Ahead.getWord h (by decide)
  have habs : absInt machineAbs (BitVec.intMin 32) = .ok (BitVec.intMin 32) := if_pos rfl
  have heleven : (decimalInt (BitVec.intMin 32)).length = 11 := by decide
  rw [Printing.copyVaInt, hget, ok_bind]
  dsimp only
  rw [habs, ok_bind, heleven]
  refine ⟨fun _ hr => ?_, fun hr => ?_⟩
  · rw [check_true hr]
    have hlen : (specifier ++ decimalInt (BitVec.intMin 32)).length = specifier.length + 11 := by
      rw [List.length_append, heleven]
    exact .ok ⟨rfl, h.skip, rfl, hlen.trans_le (by omega), hlen⟩
  · rw [check_false (not_le.mpr hr)]
    rfl

theorem printing_width_fits (r : List UInt8) :
    ∃ vs, ∀ (s : Printing) (specifier rest : List UInt8), s.ptr = r ++ [0] →
      s.vl.Ahead (bytesOf vs ++ rest) →
      Fits True (s.width specifier machineAbs) (specifier.length + fieldPeak (fieldText r)) fun p =>
        p.1.ptr = r.drop (fieldText r).length ++ [0] ∧ p.1.vl.Ahead rest ∧
          p.1.failed = s.failed ∧ p.2.length ≤ specifierSize ∧
            p.2.length = specifier.length + fieldRoom (fieldText r) := by
  rcases fieldText_cases r with ⟨t, rfl, htext, hdrop⟩ | ⟨-, hne, -, -⟩
  · refine ⟨[.int (BitVec.intMin 32)], fun s specifier rest hs h => ?_⟩
    rw [bytesOf_cons, bytesOf_nil, List.append_nil] at h
    have hfits := copyVaInt_fits specifier h
    rw [hs] at hfits
    rw [printing_width_eq hs, if_pos htext, hdrop, htext]
    exact hfits
  · refine ⟨[], fun s specifier rest hs h => ?_⟩
    rw [printing_width_eq hs, if_neg hne, fieldPeak, if_neg hne, fieldRoom, if_neg hne]
    have hcopy := copyTo_fits specifier (fieldText r)
    refine ⟨fun _ hr => ?_, fun hr => ?_⟩
    · exact (hcopy.fits True.intro hr).bind fun sp hsp =>
        .ok ⟨rfl, h, rfl, hsp.trans_le hr, hsp⟩
    · rw [hcopy.leaves hr]
      rfl

theorem printing_precision_fits (r : List UInt8) :
    ∃ vs, ∀ (s : Printing) (specifier rest : List UInt8), s.ptr = r ++ [0] →
      s.vl.Ahead (bytesOf vs ++ rest) → specifier.length ≤ specifierSize →
      Fits True (s.precision specifier machineAbs)
        (specifier.length + ((precisionText r).take 1).length + fieldPeak (precisionText r).tail)
        fun p => p.1.ptr = r.drop (precisionText r).length ++ [0] ∧ p.1.vl.Ahead rest ∧
          p.1.failed = s.failed ∧ p.2.length ≤ specifierSize ∧ p.2.length = specifier.length +
            ((precisionText r).take 1).length + fieldRoom (precisionText r).tail := by
  by_cases hp : precisionText r = []
  · refine ⟨[], fun s specifier rest hs h hl => ?_⟩
    rw [printing_precision_eq hs, if_pos hp, hp]
    exact ⟨fun _ _ => .ok ⟨hs, h, rfl, hl, rfl⟩, fun hr => absurd hl (not_le.mpr hr)⟩
  · obtain ⟨t, rfl⟩ := precisionText_ne_nil hp
    have htext : precisionText (dot :: t) = dot :: fieldText t := by
      rw [precisionText, if_pos rfl]
    obtain ⟨vs, hvs⟩ := printing_width_fits t
    refine ⟨vs, fun s specifier rest hs h _ => ?_⟩
    rw [printing_precision_eq hs, if_neg hp, htext]
    have hfits := (copyTo_fits specifier [dot]).bind fun sp hsp => by
      have hw := hvs { s with ptr := t ++ [0] } sp rest rfl h
      rw [hsp] at hw
      exact hw
    rwa [max_eq_right (Nat.le_add_right _ _)] at hfits

theorem printType_fits (live : Prop) (c : UInt8) {k : Kind} {s : Printing}
    (specifier : List UInt8) {rest : List UInt8} (h : s.vl.Ahead (k.wide.bytes ++ rest)) :
    Fits live (Printing.printType silent c k s specifier) (specifier.length + 2) fun s' =>
      s'.ptr = s.ptr.tail ∧ s'.vl.Ahead rest ∧ s'.failed = s.failed := by
  have hget := h.getValue
  rw [k.kind_wide] at hget
  rw [Printing.printType, hget, ok_bind]
  dsimp only
  refine ⟨fun _ hr => ?_, fun hr => ?_⟩
  · rw [check_true hr, ok_bind]
    exact .ok ⟨rfl, h.skip, rfl⟩
  · rw [check_false (not_le.mpr hr)]
    rfl

theorem printing_conversion_fits {u : List UInt8} (h0 : (0 : UInt8) ∉ u) :
    ∃ vs, ∀ (t : List UInt8) (s : Printing) (specifier rest : List UInt8),
      s.ptr = (partsOf u).behind ++ [0] → s.vl.Ahead (bytesOf vs ++ rest) →
      Fits (Scanner.printFormat.next u = some t) (s.conversion silent specifier)
        (specifier.length + conversionRoom (partsOf u).behind) fun s' =>
          s'.ptr = t ++ [0] ∧ s'.vl.Ahead rest ∧ s'.failed = s.failed := by
  have h0b : (0 : UInt8) ∉ (partsOf u).behind := fun h => h0 ((behind_suffix u).subset h)
  rw [Scanner.next, Scanner.behind_printFormat, conversionRoom]
  generalize hl : (partsOf u).behind.takeWhile (· ∈ lengthChars) = lens
  cases hconv : (partsOf u).behind.dropWhile (· ∈ lengthChars) with
  | nil =>
    refine ⟨[], fun t s specifier rest hs h => ?_⟩
    rw [printing_conversion_eq hs h0b, hl, hconv]
    refine ⟨fun ht => ?_, fun hr => ?_⟩
    · cases ht
    · rw [(copyTo_fits _ _).leaves hr]
      rfl
  | cons c t' =>
    dsimp only
    by_cases hc : isConv c
    · have hp : c ≠ percent := by
        rintro rfl
        exact absurd hc (by decide)
      obtain ⟨k, hk⟩ := convKind_of_isConv lens hc
      refine ⟨[k.wide], fun t s specifier rest hs h => ?_⟩
      rw [bytesOf_cons, bytesOf_nil, List.append_nil] at h
      rw [printing_conversion_eq hs h0b, hl, hconv, if_neg hp, if_pos hc, if_pos hc]
      simp only [hk, ok_bind]
      have hfits := (copyTo_fits specifier lens).bind fun sp hsp =>
        (printType_fits (some t' = some t) c (s := { s with ptr := c :: t' ++ [0] }) sp h).room
          (congrArg (· + 2) hsp)
      rw [max_eq_right (Nat.le_add_right _ _)] at hfits
      refine ⟨fun ht hr => (hfits.fits ht hr).mono fun s' h' => ?_, hfits.leaves⟩
      rwa [Option.some.inj ht] at h'
    · refine ⟨[], fun t s specifier rest hs h => ?_⟩
      rw [printing_conversion_eq hs h0b, hl, hconv, if_neg hc, if_neg hc]
      refine ⟨fun ht hr => ?_, fun hr => ?_⟩
      · by_cases hp : c = percent
        · subst hp
          rw [if_pos rfl, if_neg (by decide)] at ht
          obtain rfl := Option.some.inj ht
          obtain ⟨sp, hsp, -⟩ := (copyTo_fits specifier lens).fits True.intro hr
          rw [hsp, ok_bind]
          exact .ok ⟨rfl, h, rfl⟩
        · rw [if_neg hp] at ht
          cases ht
      · rw [(copyTo_fits _ _).leaves hr]
        rfl

/-- The values that a specification takes of the record, and the room of the specifier. -/
theorem printing_specification_fits {u : List UInt8} (h0 : (0 : UInt8) ∉ u)
    (hu : ¬ CutInFlags u) :
    ∃ vs, ∀ (t : List UInt8) (s : Printing) (rest : List UInt8), s.ptr = u ++ [0] →
      s.vl.Ahead (bytesOf vs ++ rest) →
      Fits (Scanner.printFormat.next u = some t) (s.specification silent machineAbs) (specifierRoom u) fun s' =>
        s'.ptr = t ++ [0] ∧ s'.vl.Ahead rest ∧ s'.failed = s.failed := by
  obtain ⟨vs, hwidth⟩ := printing_width_fits (u.dropWhile (· ∈ flagChars))
  obtain ⟨ws, hprec⟩ := printing_precision_fits
    ((u.dropWhile (· ∈ flagChars)).drop (partsOf u).width.length)
  obtain ⟨xs, hconv⟩ := printing_conversion_fits h0
  refine ⟨vs ++ (ws ++ xs), fun t s rest hs h => ?_⟩
  rw [bytesOf_append, bytesOf_append, List.append_assoc, List.append_assoc] at h
  have hroom : max ([percent].length + (partsOf u).flags.length) (specifierRoom u) =
      specifierRoom u :=
    max_eq_right (le_max_of_le_left (Nat.le_add_right _ _))
  rw [Printing.specification, hs, (scan_flags h0).2 hu, ok_bind, ← hroom]
  refine (copyTo_fits _ _).bind fun sp hsp => ?_
  refine ((hwidth { s with ptr := u.dropWhile (· ∈ flagChars) ++ [0] } sp _ rfl h).room
    (congrArg (· + _) hsp)).bind fun p hp => ?_
  obtain ⟨hs1, h1, hf1, hle1, hl1⟩ := hp
  have hl1' : p.2.length = widthRoom u := hl1.trans (congrArg (· + _) hsp)
  refine ((hprec p.1 p.2 _ hs1 h1 hle1).room
    (congrArg (· + _ + _) hl1')).bind fun q hq => ?_
  obtain ⟨hs2, h2, hf2, -, hl2⟩ := hq
  have hl2' : q.2.length = precisionRoom u := hl2.trans (congrArg (· + _ + _) hl1')
  have hlast := (hconv t q.1 q.2 rest hs2 h2).room (congrArg (· + _) hl2')
  refine ⟨fun ht hr => (hlast.fits ht hr).mono fun s' h' => ?_, hlast.leaves⟩
  exact ⟨h'.1, h'.2.1, h'.2.2.trans (hf2.trans hf1)⟩

/-- With some values in the record, `print_format` leaves its objects from `a` on. -/
def PrintStrays (a : List UInt8) : Prop :=
  ∃ vs, ∀ (s : Printing) (rest : List UInt8) (fuel : ℕ), s.ptr = a →
    s.vl.Ahead (bytesOf vs ++ rest) → s.failed = false → a.length ≤ fuel →
      Printing.loop silent fuel s machineAbs = .error .outOfBounds

/-- A specification that ends in its flags or does not fit leads out. -/
theorem printStrays_bad {u : List UInt8} (h0 : (0 : UInt8) ∉ u)
    (h : CutInFlags u ∨ specifierSize < specifierRoom u) : PrintStrays (percent :: u ++ [0]) := by
  have hloop : ∀ (s : Printing) fuel, s.ptr = percent :: u ++ [0] →
      (percent :: u ++ [0]).length ≤ fuel →
      Printing.specification silent { s with ptr := u ++ [0] } machineAbs = .error .outOfBounds →
        Printing.loop silent fuel s machineAbs = .error .outOfBounds := by
    intro s fuel hs hf hspec
    rw [List.length_append, List.length_cons] at hf
    obtain ⟨fuel, rfl⟩ : ∃ k, fuel = k + 1 := ⟨fuel - 1, by omega⟩
    rw [Printing.loop, hs, List.cons_append, peek_cons, ok_bind, if_neg (by decide),
      if_neg fun h => h rfl, List.tail_cons, hspec]
    rfl
  by_cases hu : CutInFlags u
  · refine ⟨[], fun s rest fuel hs _ _ hf => hloop s fuel hs hf ?_⟩
    rw [Printing.specification]
    dsimp only
    rw [(scan_flags h0).1 hu]
    rfl
  · obtain ⟨vs, hvs⟩ := printing_specification_fits h0 hu
    refine ⟨vs, fun s rest fuel hs hvl _ hf => hloop s fuel hs hf ?_⟩
    exact (hvs [] { s with ptr := u ++ [0] } rest rfl hvl).leaves (h.resolve_left hu)

theorem printing_strays {t u : List UInt8} (h0 : (0 : UInt8) ∉ t) (hu : Comes .printFormat t u)
    (hbad : CutInFlags u ∨ specifierSize < specifierRoom u) : PrintStrays (t ++ [0]) := by
  induction hu with
  | here u => exact printStrays_bad (fun h => h0 (List.mem_cons_of_mem _ h)) hbad
  | @literal c t u hp _ ih =>
    obtain ⟨vs, hvs⟩ := ih (fun h => h0 (List.mem_cons_of_mem _ h)) hbad
    refine ⟨vs, fun s rest fuel hs hvl hfail hf => ?_⟩
    rw [List.cons_append, List.length_cons] at hf
    obtain ⟨fuel, rfl⟩ : ∃ k, fuel = k + 1 := ⟨fuel - 1, by omega⟩
    have hc : c ≠ 0 := fun h => h0 (h ▸ List.mem_cons_self)
    rw [Printing.loop, hs, List.cons_append, peek_cons, ok_bind, if_neg hc, if_pos hp]
    refine hvs (s.printChar c) rest fuel ?_ hvl hfail (by omega)
    rw [Printing.printChar, hs]
    rfl
  | @behind v t u hnext _ ih =>
    have h0v : (0 : UInt8) ∉ v := fun h => h0 (List.mem_cons_of_mem _ h)
    have hsuffix := Scanner.next_suffix hnext
    by_cases hv : CutInFlags v ∨ specifierSize < specifierRoom v
    · exact printStrays_bad h0v hv
    rw [not_or, not_lt] at hv
    obtain ⟨ws, hws⟩ := ih (fun h => h0v (hsuffix.subset h)) hbad
    obtain ⟨vs, hvs⟩ := printing_specification_fits h0v hv.1
    refine ⟨vs ++ ws, fun s rest fuel hs hvl hfail hf => ?_⟩
    have hlen := hsuffix.length_le
    simp only [List.length_append, List.length_cons, List.length_nil] at hf
    obtain ⟨fuel, rfl⟩ : ∃ k, fuel = k + 1 := ⟨fuel - 1, by omega⟩
    rw [bytesOf_append, List.append_assoc] at hvl
    obtain ⟨s', hspec, hs', hvl', hfail'⟩ :=
      (hvs t { s with ptr := v ++ [0] } _ rfl hvl).fits hnext hv.2
    rw [Printing.loop, hs, List.cons_append, peek_cons, ok_bind, if_neg (by decide),
      if_neg fun h => h rfl, List.tail_cons, hspec, ok_bind, hfail', hfail, if_neg Bool.false_ne_true]
    refine hws s' rest fuel hs' hvl' (hfail'.trans hfail) ?_
    rw [List.length_append, List.length_singleton]
    omega

/-! ### Both scanners -/

/-- Both scanners stay in bounds of a format exactly when none of the specifications that they come to
ends in its flags, or for `do_valog` behind a star as precision, and each that `print_format` comes to
fits the specifier with eleven characters for a star. -/
theorem scansInBounds_iff (format : CString) :
    ScansInBounds format ↔
      (∀ u, Comes .doValog format.val u → ¬ CutInFlags u ∧ ¬ CutAfterStar u) ∧
      ∀ u, Comes .printFormat format.val u → ¬ CutInFlags u ∧ specifierRoom u ≤ specifierSize := by
  obtain ⟨text, h0⟩ := format
  have hlen : ∀ c : CString, (c.val ++ [0]).length ≤ c.len + 1 := fun c =>
    (List.length_append).le
  constructor
  · rintro ⟨hvalog, hprint⟩
    refine ⟨fun u hu => ?_, fun u hu => ?_⟩
    · rw [← not_or]
      intro hbad
      obtain ⟨vs, hvs⟩ := valog_strays h0 hu hbad
      refine hvalog Unit swallow vs () (fun _ _ => nofun) ?_
      exact hvs _ [] _ rfl (List.append_nil vs).symm (hlen ⟨text, h0⟩)
    · rw [← not_lt, ← not_or]
      intro hbad
      obtain ⟨vs, hvs⟩ := printing_strays h0 hu hbad
      have hread : VaList.Readable ⟨((bytesOf vs).length : ℕ), 0, bytesOf vs ++ [0, 0]⟩ := by
        refine ⟨?_, ?_, ?_⟩
        · rw [sizeT, if_pos (Int.natCast_nonneg _), Int.toNat_natCast, List.length_append]
          exact Nat.lt_succ_self _
        · rw [List.length_append]
          exact Nat.succ_lt_succ (Nat.succ_pos _)
        · rw [List.getLast?_append]
          rfl
      refine hprint silent machineAbs _ hread ?_
      refine hvs ⟨text ++ [0], _, [], 0, false, []⟩ [] _ rfl ⟨[], [0, 0], ?_, rfl, ?_⟩ rfl
        (hlen ⟨text, h0⟩)
      · rw [List.append_nil]
        rfl
      · rw [List.append_nil, Nat.zero_add]
  · rintro ⟨hvalog, hprint⟩
    refine ⟨fun σ put args sink hput h => ?_, fun fprintf absMin vl hread h => ?_⟩
    · obtain ⟨u, hu, hbad⟩ := (valog_loop_within hput rfl h0).fault h
      exact hbad.elim (hvalog u hu).1 (hvalog u hu).2
    · obtain ⟨u, hu, hbad⟩ :=
        (printing_loop_within (s := ⟨text ++ [0], vl, [], 0, false, []⟩) rfl h0 hread).fault h
      exact hbad.elim (hprint u hu).1 (not_lt.mpr (hprint u hu).2)

/-- `"%%"`: `do_valog` takes the second percent sign for the start of a specification that ends in its
flags. -/
theorem not_scansInBounds_percents : ¬ ScansInBounds ⟨[percent, percent], by decide⟩ := by
  intro h
  exact h.1 Unit swallow [] () (fun _ _ => nofun) rfl

end CcUtils.Binlog
