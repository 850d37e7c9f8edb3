import CcUtils.Binlog.Render
import CcUtils.Binlog.Stream
import CcUtils.Lib.Rules

/-!
# A log from its calls to its text

What the log is for: a call of `binlog_print` costs no formatting, and the parser prints later what a logger
would have printed at once. Several threads log to one file. Each fills its own `tbinlog`, and hands its
record to one `write`, which appends it; between the two the other threads may write theirs.

## What is proved

* `LogCall.Fits.print`, `LogCall.Good.decode` — the record of one call, and what the parser makes of it.
* `Logging.Inv.turn` — the file is the records of the calls that were written, whoever's turn it is.
* `logging_prints` — under every schedule the parser prints the lines of a logger that prints at once.
-/

namespace CcUtils.Binlog

open CcUtils.Lib

/-! ### One call -/

/-- A call of `binlog_print`, with the items of its format. -/
structure LogCall where
  call : Call
  items : List Item
  args : List Value

/-- Its record. -/
def LogCall.record (c : LogCall) : List UInt8 := recordBytes c.call c.args

/-- Make the call, up to the `write`. -/
def LogCall.print (c : LogCall) (heap : Heap) (stack : ℕ → UInt8) : Exec (List UInt8) :=
  binlogPrint heap stack c.call (doValogRecord heap (formatOf c.items) c.args)

/-- The line of a logger that prints at once: what `printf` writes for the format and the arguments, between
the fields of the call. -/
def LogCall.line (env : ParserEnv) (render : Renderer) (c : LogCall) : List UInt8 :=
  env.timeFmt c.call.now ++ ascii " " ++ binlogLevelName (UInt8.ofNat c.call.level.toNat) ++ ascii " " ++
    env.threadFmt c.call.thread ++ ascii " " ++
    (printf render (formatOf c.items).val c.args).getD [] ++ ascii " [" ++ c.call.func.val ++ ascii ":" ++
    signedDecimal c.call.line.toInt ++ ascii "]\n"

/-- The call keeps to what writer and parser can do: its arguments are those of its format, which both
scanners read, no star loses its sign, the header fits the buffer on the stack and the record that of the
parser. -/
structure LogCall.Fits (fprintf : Fprintf) (c : LogCall) : Prop where
  kinds : c.args.map Value.kind = kindsOf c.items
  encodes : EncodesWell c.items
  decodes : DecodesWell fprintf c.items c.args
  signs : KeepsSigns c.items c.args
  header : 1 + c.call.size ≤ binlogStackSize
  fits : c.record.length ≤ parserBufSize

/-- And the parser's table has its format. -/
structure LogCall.Good (env : ParserEnv) (c : LogCall) : Prop extends c.Fits env.fprintf where
  known : formatFetch env.jsonArr c.call.func c.call.line = some (formatOf c.items)

variable {env : ParserEnv} {render : Renderer} {c : LogCall}

/-- The call hands its record to `write`, wherever its buffer was moved. -/
theorem LogCall.Fits.print {fprintf : Fprintf} (h : c.Fits fprintf) (heap : Heap) (stack : ℕ → UInt8) :
    c.print heap stack = .ok c.record := by
  have hsmall : c.record.length < 2 ^ 30 := by
    refine lt_of_le_of_lt h.fits ?_
    rw [parserBufSize]
    exact Nat.pow_lt_pow_right (by decide) (by decide)
  exact binlogPrint_bytes heap stack c.call h.header hsmall
    fun tb w hw hn => doValogRecord_values h.encodes h.kinds heap hw hn

theorem LogCall.Fits.written {fprintf : Fprintf} (h : c.Fits fprintf) : Written c.record :=
  ⟨fun _ _ => 0, fun _ => 0, c.call, formatOf c.items, c.args, h.print _ _⟩

/-- The text that `print_format` puts together is that of `printf`. -/
theorem LogCall.Good.printed (h : c.Good env) (henv : env.fprintf = fprintfOf render) :
    printf render (formatOf c.items).val c.args = some (printedOf env.fprintf c.items c.args) := by
  have hprintf := printf_textOf render h.kinds []
  have hprinted := printedOf_fprintfOf render h.kinds []
  have hsigns : EverySpec Spec.KeepsSigns c.items (c.args ++ []) := by
    rw [List.append_nil]
    exact h.signs
  have hsame : writtenBy (Spec.reprinted render) c.items (c.args ++ []) =
      writtenBy (Spec.rendered render) c.items (c.args ++ []) := by
    refine writtenBy_congr (EverySpec.mono h.kinds ?_ hsigns)
    intro sp us ws hus hkeeps
    rw [Spec.reprinted, Spec.rendered, hkeeps.meaning_eq hus]
  rw [hsame] at hprinted
  rw [← hprinted, List.append_nil] at hprintf
  rw [henv]
  exact hprintf

/-- The parser makes the line of its record. -/
theorem LogCall.Good.decode (h : c.Good env) (henv : env.fprintf = fprintfOf render) :
    ∃ d, decodeRecord env c.record.length c.record = .ok d ∧ d.text = c.line env render := by
  have hheader := readHeader_record c.call c.args []
  have hahead := ahead_record c.call c.args []
  have hdecodes := h.decodes
  rw [List.append_nil] at hheader hahead
  rw [← List.append_nil c.args] at hdecodes
  obtain ⟨s, hs, -, -, hout⟩ := printFormat_prints hdecodes h.kinds
    (by rwa [List.append_nil] : VaList.Ahead _ (bytesOf (c.args ++ []) ++ [blogEnd]))
  rw [List.append_nil] at hout
  rw [LogCall.record, decodeRecord, hheader, ok_bind]
  simp only [h.known, hs, ok_bind]
  refine ⟨_, rfl, ?_⟩
  dsimp only
  rw [LogCall.line, h.printed henv, hout, Option.getD_some]

/-! ### Threads -/

variable {ι : Type} [DecidableEq ι]

/-- Threads that log to one file: the calls each has still to make, the record it is about to write, the file,
and the calls written so far. -/
structure Logging (ι : Type) where
  todo : ι → List LogCall
  about : ι → Option (LogCall × List UInt8)
  file : List UInt8
  written : List (ι × LogCall)

/-- One turn of a thread: the `write` it is about to do, or else its next call up to there. What the stack
and the heap hold is arbitrary each time. -/
def Logging.turn (s : Logging ι) (i : ι) (heap : Heap) (stack : ℕ → UInt8) : Exec (Logging ι) :=
  match s.about i with
  | some (c, bs) => .ok { s with
      about := Function.update s.about i none
      file := s.file ++ bs
      written := s.written ++ [(i, c)] }
  | none =>
    match s.todo i with
    | [] => .ok s
    | c :: cs => do
      let bs ← c.print heap stack
      .ok { s with
        todo := Function.update s.todo i cs
        about := Function.update s.about i (some (c, bs)) }

/-- Turns in any order. -/
def Logging.run (s : Logging ι) (sched : List (ι × Heap × (ℕ → UInt8))) : Exec (Logging ι) :=
  sched.foldlM (fun s turn => s.turn turn.1 turn.2.1 turn.2.2) s

/-- Before the first call, with an empty file. -/
def Logging.start (todo : ι → List LogCall) : Logging ι := ⟨todo, fun _ => none, [], []⟩

/-- The calls of a thread that were written, in order. -/
def Logging.writtenBy (s : Logging ι) (i : ι) : List LogCall :=
  (s.written.filter fun w => w.1 = i).map Prod.snd

/-- The file is the records of the calls written, each thread's calls are written in its order, and none
twice. -/
structure Logging.Inv (calls : ι → List LogCall) (s : Logging ι) : Prop where
  file : s.file = (s.written.map fun w => w.2.record).flatten
  about : ∀ i c bs, s.about i = some (c, bs) → bs = c.record
  order : ∀ i, calls i = s.writtenBy i ++ (((s.about i).map Prod.fst).toList ++ s.todo i)

theorem Logging.Inv.start (calls : ι → List LogCall) : (Logging.start calls).Inv calls where
  file := rfl
  about i c bs h := by cases h
  order i := rfl

/-- A call that is still to be made, or about to be written, is one of the thread's. -/
theorem Logging.Inv.mem {calls : ι → List LogCall} {s : Logging ι} (h : s.Inv calls) {w : ι × LogCall}
    (hw : w ∈ s.written) : w.2 ∈ calls w.1 := by
  rw [h.order]
  refine List.mem_append_left _ (List.mem_map.mpr ⟨w, List.mem_filter.mpr ⟨hw, ?_⟩, rfl⟩)
  exact decide_eq_true rfl

theorem Logging.writtenBy_append (s : Logging ι) (i j : ι) (c : LogCall) (file : List UInt8)
    (about : ι → Option (LogCall × List UInt8)) :
    Logging.writtenBy ⟨s.todo, about, file, s.written ++ [(i, c)]⟩ j =
      s.writtenBy j ++ if i = j then [c] else [] := by
  rw [Logging.writtenBy, Logging.writtenBy, List.filter_append, List.map_append]
  by_cases hij : i = j
  · simp [hij]
  · simp [hij]

/-- **A turn** keeps the invariant. -/
theorem Logging.Inv.turn {calls : ι → List LogCall} {s : Logging ι} (h : s.Inv calls)
    {fprintf : Fprintf} (hfits : ∀ i, ∀ c ∈ calls i, c.Fits fprintf) (i : ι) (heap : Heap) (stack : ℕ → UInt8) :
    Post (s.turn i heap stack) (Logging.Inv calls) := by
  rw [Logging.turn]
  cases habout : s.about i with
  | some r =>
    obtain ⟨c, bs⟩ := r
    refine Post.ok ⟨?_, fun j c' bs' hj => ?_, fun j => ?_⟩
    · dsimp only
      rw [h.file, h.about i c bs habout, List.map_append, List.flatten_append]
      simp
    · change Function.update s.about i none j = _ at hj
      by_cases hji : j = i
      · subst hji
        rw [Function.update_self] at hj
        cases hj
      · rw [Function.update_of_ne hji] at hj
        exact h.about j c' bs' hj
    · rw [Logging.writtenBy_append, h.order j]
      by_cases hji : j = i
      · subst hji
        simp [habout]
      · simp [hji, Ne.symm hji]
  | none =>
    dsimp only
    cases htodo : s.todo i with
    | nil => exact Post.ok h
    | cons c cs =>
      have hmem : c ∈ calls i := by
        rw [h.order i, htodo]
        exact List.mem_append_right _ (List.mem_append_right _ List.mem_cons_self)
      dsimp only
      rw [(hfits i c hmem).print, ok_bind]
      refine Post.ok ⟨h.file, fun j c' bs' hj => ?_, fun j => ?_⟩
      · change Function.update s.about i (some (c, c.record)) j = _ at hj
        by_cases hji : j = i
        · subst hji
          rw [Function.update_self] at hj
          cases hj
          rfl
        · rw [Function.update_of_ne hji] at hj
          exact h.about j c' bs' hj
      · have hsame : calls j = s.writtenBy j ++ (((s.about j).map Prod.fst).toList ++ s.todo j) := h.order j
        by_cases hji : j = i
        · subst hji
          rw [hsame, habout, htodo]
          simp [Logging.writtenBy]
        · rw [hsame]
          simp [Logging.writtenBy, hji]

/-- So does a run, by induction on the schedule. -/
theorem Logging.Inv.run {calls : ι → List LogCall} {s : Logging ι} (h : s.Inv calls)
    {fprintf : Fprintf} (hfits : ∀ i, ∀ c ∈ calls i, c.Fits fprintf) (sched : List (ι × Heap × (ℕ → UInt8))) :
    Post (s.run sched) (Logging.Inv calls) := by
  induction sched generalizing s with
  | nil => exact Post.pure h
  | cons turn sched ih =>
    rw [Logging.run, List.foldlM_cons]
    exact (h.turn hfits turn.1 turn.2.1 turn.2.2).bind fun s' h' => ih h'

/-! ### Reading the file -/

/-- What the parser makes of each record. -/
theorem decodeAll (henv : env.fprintf = fprintfOf render) {cs : List LogCall}
    (hgood : ∀ c ∈ cs, c.Good env) :
    ∃ ds, List.Forall₂ (fun bs d => decodeRecord env bs.length bs = .ok d) (cs.map LogCall.record) ds ∧
      ds.map Decoded.text = cs.map (LogCall.line env render) := by
  induction cs with
  | nil => exact ⟨[], .nil, rfl⟩
  | cons c cs ih =>
    obtain ⟨d, hd, htext⟩ := (hgood c List.mem_cons_self).decode henv
    obtain ⟨ds, hds, htexts⟩ := ih fun c' hc' => hgood c' (List.mem_cons_of_mem _ hc')
    refine ⟨d :: ds, .cons hd hds, ?_⟩
    rw [List.map_cons, List.map_cons, htext, htexts]

/-- The parser prints the lines of the calls whose records are in a file. -/
theorem parseFile_lines (henv : env.fprintf = fprintfOf render) {cs : List LogCall} (hne : cs ≠ [])
    (hgood : ∀ c ∈ cs, c.Good env) (hsmall : (cs.map LogCall.record).flatten.length < 2 ^ 31)
    (hcuts : CutsOk parserBufSize 0 (cs.map fun c => c.record.length)) (junk : ℕ → UInt8) (extent : Extent) :
    ∃ fuel ds, parseFile env (cs.map LogCall.record).flatten junk extent fuel = .ok ds ∧
      ds.map Decoded.text = cs.map (LogCall.line env render) := by
  obtain ⟨ds, hds, htexts⟩ := decodeAll henv hgood
  have hwritten : ∀ bs ∈ cs.map LogCall.record, Written bs := by
    intro bs hbs
    obtain ⟨c, hc, rfl⟩ := List.mem_map.mp hbs
    exact (hgood c hc).toFits.written
  have hfits : ∀ bs ∈ cs.map LogCall.record, bs.length ≤ parserBufSize := by
    intro bs hbs
    obtain ⟨c, hc, rfl⟩ := List.mem_map.mp hbs
    exact (hgood c hc).fits
  let log : Log env := ⟨cs.map LogCall.record, by simpa using hne, hwritten, hfits, hsmall, ds, hds⟩
  have hcuts' : CutsOk parserBufSize 0 (log.records.map List.length) := by
    rw [List.map_map]
    exact hcuts
  obtain ⟨fuel, hok⟩ := log.decoded_of_cutsOk hcuts' junk extent
  exact ⟨fuel, ds, hok, htexts⟩

/-- The parser prints the lines of the calls written so far. -/
theorem Logging.Inv.prints (henv : env.fprintf = fprintfOf render) {calls : ι → List LogCall}
    (hgood : ∀ i, ∀ c ∈ calls i, c.Good env) {s : Logging ι} (h : s.Inv calls) (hne : s.written ≠ [])
    (hsmall : s.file.length < 2 ^ 31) (hcuts : CutsOk parserBufSize 0 (s.written.map fun w => w.2.record.length))
    (junk : ℕ → UInt8) (extent : Extent) :
    ∃ fuel ds, parseFile env s.file junk extent fuel = .ok ds ∧
      ds.map Decoded.text = s.written.map fun w => w.2.line env render := by
  have hfile : s.file = ((s.written.map Prod.snd).map LogCall.record).flatten := by
    rw [h.file, List.map_map]
    rfl
  have hgood' : ∀ c ∈ s.written.map Prod.snd, c.Good env := by
    intro c hc
    obtain ⟨w, hw, rfl⟩ := List.mem_map.mp hc
    exact hgood w.1 w.2 (h.mem hw)
  rw [hfile] at hsmall ⊢
  have hcuts' : CutsOk parserBufSize 0 ((s.written.map Prod.snd).map fun c => c.record.length) := by
    rw [List.map_map]
    exact hcuts
  obtain ⟨fuel, ds, hok, htexts⟩ := parseFile_lines henv (by simpa using hne) hgood' hsmall hcuts' junk extent
  refine ⟨fuel, ds, hok, ?_⟩
  rw [htexts, List.map_map]
  rfl

/-- **The log is faithful.** However the threads take turns, each thread's calls reach the file in its order,
none is lost or mixed with another, and the parser, at any time, prints for the calls written the lines that a
logger would have printed at once, in the order of the writes: if the file is not empty, not too large for an
`int32_t`, and cut by the parser's buffer only where the parser can go on. -/
theorem logging_prints (henv : env.fprintf = fprintfOf render) {calls : ι → List LogCall}
    (hgood : ∀ i, ∀ c ∈ calls i, c.Good env) (sched : List (ι × Heap × (ℕ → UInt8))) :
    Post ((Logging.start calls).run sched) fun s =>
      s.file = (s.written.map fun w => w.2.record).flatten ∧
        (∀ i, calls i = s.writtenBy i ++ (((s.about i).map Prod.fst).toList ++ s.todo i)) ∧
        (s.written ≠ [] → s.file.length < 2 ^ 31 →
          CutsOk parserBufSize 0 (s.written.map fun w => w.2.record.length) →
          ∀ junk extent, ∃ fuel ds, parseFile env s.file junk extent fuel = .ok ds ∧
            ds.map Decoded.text = s.written.map fun w => w.2.line env render) :=
  ((Logging.Inv.start calls).run (fun i c hc => (hgood i c hc).toFits) sched).mono fun _ h =>
    ⟨h.file, h.order, h.prints henv hgood⟩

/-- A call with the format `"hi"`, and one with `"%d"` from another line. -/
def hiCall : LogCall := ⟨tickCall, tickItems, []⟩

def numberCall : LogCall :=
  ⟨{ tickCall with line := 8, thread := 1 }, [.spec ⟨[], .digits [], none, [], .d⟩], [.int 5]⟩

/-- The table has both formats, and values are rendered by their marks. -/
def twoEnv : ParserEnv where
  jsonArr := [⟨hiCall.call.func, 7, formatOf hiCall.items⟩, ⟨hiCall.call.func, 8, formatOf numberCall.items⟩]
  timeFmt _ := []
  threadFmt _ := []
  fprintf := fprintfOf mark

theorem hiCall_good : hiCall.Good twoEnv where
  kinds := rfl
  encodes := trivial
  decodes := trivial
  signs := trivial
  header := by decide
  fits := by
    rw [parserBufSize]
    decide
  known := rfl

theorem numberCall_good : numberCall.Good twoEnv where
  kinds := rfl
  encodes := ⟨trivial, trivial⟩
  decodes := ⟨⟨by decide, fun h => absurd rfl h, fun h => absurd rfl h⟩, fun h => absurd rfl h, trivial⟩
  signs := by
    refine ⟨⟨fun h => absurd h (by decide), fun p hp => ?_⟩, trivial⟩
    cases hp
  header := by decide
  fits := by
    rw [parserBufSize]
    decide
  known := rfl

/-- Each of two threads makes one call, and the second writes first. -/
theorem logging_prints_two :
    Post ((Logging.start fun i : Bool => if i then [numberCall] else [hiCall]).run
      [(false, fun _ _ => 0, fun _ => 0), (true, fun _ _ => 1, fun _ => 1),
        (true, fun _ _ => 0, fun _ => 0), (false, fun _ _ => 0, fun _ => 0)]) fun s =>
      s.file = (s.written.map fun w => w.2.record).flatten ∧
        (∀ i, (if i then [numberCall] else [hiCall]) =
        s.writtenBy i ++ (((s.about i).map Prod.fst).toList ++ s.todo i)) ∧
        (s.written ≠ [] → s.file.length < 2 ^ 31 →
          CutsOk parserBufSize 0 (s.written.map fun w => w.2.record.length) →
          ∀ junk extent, ∃ fuel ds, parseFile twoEnv s.file junk extent fuel = .ok ds ∧
            ds.map Decoded.text = s.written.map fun w => w.2.line twoEnv mark) := by
  have hgood : ∀ i : Bool, ∀ c ∈ (if i then [numberCall] else [hiCall]), c.Good twoEnv := by
    intro i c hc
    cases i with
    | true =>
      rw [List.mem_singleton.mp hc]
      exact numberCall_good
    | false =>
      rw [List.mem_singleton.mp hc]
      exact hiCall_good
  exact logging_prints rfl hgood _

end CcUtils.Binlog
