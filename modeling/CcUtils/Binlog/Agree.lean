import CcUtils.Binlog.Decode
import CcUtils.Binlog.Encode

/-!
# Encoder and decoder on one format

`do_valog` appends the values of a format's arguments to the record, `print_format` reads them back by
the same format. The two agree on a format and its arguments when each value is appended for its star
or conversion, none for a double percent sign, and is read back for it, and the reader then stands on
the end mark.

## What is proved

* `doValogRecord_values` — what a format that encodes well appends to the buffer.
* `formatAgrees_iff` — the two agree exactly where both read the format well.
-/

namespace CcUtils.Binlog

open CcUtils.Lib

/-- The sink that keeps the values. -/
def collect : Sink (List Value) := fun vs v => .ok (vs ++ [v], v.bytes.length)

/-- `do_valog` and `print_format` agree on a format and the arguments of a call. -/
structure FormatAgrees (fprintf : Fprintf) (items : List Item) (args : List Value) : Prop where
  /-- All arguments are appended, at their places. -/
  encodes : ∃ s, doValog collect (formatOf items) args [] = .ok s ∧ s.ap = [] ∧ s.sink = args ∧
    s.log = valuesOf items args
  /-- Wherever the arguments lie in memory before an end mark, they are read at their places, up to
  the mark. -/
  decodes : ∀ pre post, ∃ s, printFormat fprintf (formatOf items)
      ⟨((pre ++ bytesOf args).length + 1 : ℕ), pre.length, pre ++ (bytesOf args ++ ([blogEnd] ++ post))⟩ =
      .ok s ∧ s.got = valuesOf items args ∧ s.vl.off = (pre ++ bytesOf args).length
  /-- So it is with the record that `binlog_print` writes. -/
  record : ∀ heap stack c post, 1 + c.size ≤ binlogStackSize → (recordBytes c args).length < 2 ^ 30 →
    ∃ bs s, binlogPrint heap stack c (doValogRecord heap (formatOf items) args) = .ok bs ∧
      printFormat fprintf (formatOf items) ⟨bs.length, c.valuesAt, bs ++ post⟩ = .ok s ∧
      s.got = valuesOf items args ∧ s.vl.off + 1 = bs.length ∧ bs[s.vl.off]? = some blogEnd

/-! ### Encoding -/

theorem putAll_collect (vs ws : List Value) :
    putAll collect ws vs = .ok (ws ++ vs, (bytesOf vs).length) := by
  induction vs generalizing ws with
  | nil => simp only [putAll, List.append_nil, bytesOf_nil, List.length_nil]
  | cons v vs ih =>
    simp only [putAll, collect, ok_bind, bytesOf_cons, List.length_append]
    rw [ih, ok_bind, List.append_assoc, List.singleton_append]

theorem putAll_printValue (heap : Heap) (tb : TsdBinlog) (vs : List Value) :
    putAll (printValue heap) tb vs = printAll heap tb vs := by
  induction vs generalizing tb with
  | nil => rfl
  | cons v vs ih => simp only [putAll, printAll, ih]

/-- What `do_valog` has appended to the buffer of the record, whatever the format. -/
theorem TsdBinlog.Holds.of_doValog {heap : Heap} {format : CString} {args : List Value}
    {tb : TsdBinlog} {w : List UInt8} (h : tb.Holds w) {s : Valog TsdBinlog}
    (hs : doValog (Binlog.printValue heap) format args tb = .ok s) :
    ∃ vs, s.sink.Holds (w ++ bytesOf vs) ∧ s.totalPrinted = (bytesOf vs).length := by
  obtain ⟨new, hr⟩ := loop_ran hs
  obtain ⟨n, hput, htotal⟩ := hr.sink
  rw [putAll_printValue] at hput
  obtain ⟨h', rfl⟩ := h.of_printAll hput
  exact ⟨_, h', htotal.trans (Nat.zero_add _)⟩

/-- A format that encodes well appends its arguments to the buffer of the record. -/
theorem doValogRecord_values {items : List Item} (he : EncodesWell items) {args : List Value}
    (hk : args.map Value.kind = kindsOf items) (heap : Heap) {tb : TsdBinlog} {w : List UInt8}
    (h : tb.Holds w) (hn : w.length + (bytesOf args).length ≤ 2 ^ 30) :
    ∃ tb', doValogRecord heap (formatOf items) args tb = .ok (tb', (bytesOf args).length) ∧
      tb'.Holds (w ++ bytesOf args) := by
  obtain ⟨tb', hput, h'⟩ := h.printAll heap args hn
  rw [← putAll_printValue] at hput
  have hloop := loop_values he hk hput (Nat.lt_succ_self _) 0 []
  refine ⟨tb', ?_, h'⟩
  rw [doValogRecord, doValog]
  change Valog.loop (printValue heap) ((textOf items).length + 1) ⟨textOf items ++ [0], args, tb, 0, []⟩ >>=
    _ = _
  rw [hloop, ok_bind, Nat.zero_add]

/-! ### Agreement -/

/-- A format that decodes well is read from memory up to the end mark. -/
theorem printFormat_reads {fprintf : Fprintf} {items : List Item} {args : List Value}
    (hd : DecodesWell fprintf items args) (hk : args.map Value.kind = kindsOf items) {vl : VaList}
    {rest : List UInt8} (hvl : vl.Ahead (bytesOf args ++ rest)) :
    ∃ s, printFormat fprintf (formatOf items) vl = .ok s ∧ s.got = valuesOf items args ∧
      s.vl.off = vl.off + (bytesOf args).length := by
  rw [← List.append_nil args] at hd hvl
  obtain ⟨s, hok, hgot, hoff, -⟩ := printFormat_prints hd hk hvl
  exact ⟨s, hok, hgot, hoff⟩

theorem ahead_end (pre post : List UInt8) (args : List Value) :
    (⟨((pre ++ bytesOf args).length + 1 : ℕ), pre.length,
      pre ++ (bytesOf args ++ ([blogEnd] ++ post))⟩ : VaList).Ahead (bytesOf args ++ [blogEnd]) := by
  refine ⟨pre, post, ?_, rfl, ?_⟩
  · simp only [List.append_assoc]
  · simp only [List.length_append, List.length_singleton, Nat.add_assoc, le_refl]

/-- The encoder and the decoder agree exactly where both read the format well. -/
theorem formatAgrees_iff (fprintf : Fprintf) (items : List Item) (args : List Value)
    (hk : args.map Value.kind = kindsOf items) :
    FormatAgrees fprintf items args ↔ EncodesWell items ∧ DecodesWell fprintf items args := by
  constructor
  · rintro ⟨⟨s, hs, -, -, hlog⟩, hdec, -⟩
    have htotal : ∀ vs v, ∃ r, collect vs v = .ok r := fun vs v => ⟨_, rfl⟩
    obtain ⟨s', hs', hgot, -⟩ := hdec [] []
    have hd := decodesWell_of_loop hk rfl (ahead_end [] [] args) rfl hs' hgot
    exact ⟨encodesWell_of_loop htotal hk hs hlog, hd⟩
  · rintro ⟨he, hd⟩
    refine ⟨?_, ?_, ?_⟩
    · have hloop := loop_values he hk (putAll_collect args []) (Nat.lt_succ_self _) 0 []
      exact ⟨_, hloop, rfl, rfl, rfl⟩
    · intro pre post
      obtain ⟨s, hs, hgot, hoff⟩ := printFormat_reads hd hk (ahead_end pre post args)
      refine ⟨s, hs, hgot, ?_⟩
      rw [hoff, List.length_append]
    · intro heap stack c post hfit hlen
      have hprint := binlogPrint_bytes heap stack c hfit hlen
        fun tb w h hn => doValogRecord_values he hk heap h hn
      obtain ⟨s, hs, hgot, hoff⟩ := printFormat_reads hd hk (ahead_record c args post)
      have hend : s.vl.off + 1 = (recordBytes c args).length := by
        rw [hoff, length_recordBytes]
        change c.size + 1 + (bytesOf args).length + 1 = _
        omega
      refine ⟨recordBytes c args, s, hprint, hs, hgot, hend, ?_⟩
      have hlast : (recordBytes c args).getLast? = some blogEnd := by
        rw [recordBytes, ← List.append_assoc, ← List.append_assoc, ← List.cons_append,
          List.getLast?_concat]
      rw [List.getLast?_eq_getElem?, ← hend, Nat.add_sub_cancel] at hlast
      exact hlast

/-- `"%d%% %s"` with a number and a string: the double percent sign is passed with the space behind
it. -/
theorem formatAgrees_iff_percents :
    FormatAgrees
      (fun _ v => match v with
        | .int v => some (decimal v.toInt.natAbs)
        | .string s => some s.val
        | _ => none)
      [.spec ⟨[], .digits [], none, [], .d⟩, .percents, .literal ⟨32, by decide⟩,
        .spec ⟨[], .digits [], none, [], .s⟩]
      [.int 5, .string ⟨[104, 105], by decide⟩] := by
  refine (formatAgrees_iff _ _ _ rfl).mpr ⟨⟨trivial, ⟨?_, trivial, trivial⟩⟩, ?_⟩
  · have hspace : ∀ c ∈ [(32 : UInt8)], c ∈ flagChars := by
      intro c hc
      rw [List.mem_singleton.mp hc]
      decide
    exact ⟨[32], [], [], [], [115], rfl, hspace, nofun, .inl rfl, nofun⟩
  · exact ⟨⟨by decide, nofun, nofun⟩, fun _ => nofun, ⟨by decide, nofun, nofun⟩,
      fun h => absurd rfl h, trivial⟩

/-- `"%.*f"` with a precision and a number: the encoder skips the conversion and aborts at the end of
the format. -/
theorem doValog_precision_abort :
    [Value.int 2, .double 0].map Value.kind =
      kindsOf [.spec ⟨[], .digits [], some .star, [], .f⟩] ∧
    doValog collect (formatOf [.spec ⟨[], .digits [], some .star, [], .f⟩]) [.int 2, .double 0] [] =
      .error .abort ∧
    ¬ FormatAgrees (fun _ _ => some []) [.spec ⟨[], .digits [], some .star, [], .f⟩]
      [.int 2, .double 0] := by
  have habort : doValog collect (formatOf [.spec ⟨[], .digits [], some .star, [], .f⟩])
      [.int 2, .double 0] [] = .error .abort := rfl
  refine ⟨rfl, habort, ?_⟩
  rintro ⟨⟨s, hs, -⟩, -, -⟩
  rw [habort] at hs
  cases hs

end CcUtils.Binlog
