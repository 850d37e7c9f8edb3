import CcUtils.Cli.Message
import CcUtils.Cli.Transfer

/-!
# Command line replies

The reply buffer of the command server, `cmdprint_t` with `cdp_init`, `cdp_reinit`, `cdp_print`
and `cdp_output`, and the rest of `do_accept`: the request read and decoded, the command found
and executed, the reply written, the buffer made ready for the next request.

A handler is known by the calls of `cdp_print` it makes, which may be any function of the request and of
the table of commands. What `malloc` and `realloc` leave in fresh memory, and what the stack holds in `cmd`
behind the request, is arbitrary and given with each call, and so is what the calls of `read` and `write` on
the connection do.

## What is proved

* `cdpPrint_holds` — one call appends its text, or leaves the buffer alone; one doubling makes
  room (`Holds` is the invariant: the buffer's first `pos` bytes are what was printed).
* `printAll_holds` — so do any number of calls.
* `acceptLoop_eq` — the reading loop of `do_accept` on interrupted reads.
* `doAccept_reply` — what is given to `safe_write` is made of the request's own prints alone.
* `serve_replies_iff` — so over any history of requests, served from a fresh buffer, the replies are
  right exactly when `safe_write` delivers them.
-/

namespace CcUtils.Cli

open CcUtils.Lib

/-! ### The buffer -/

/-- `cmdprint_t`. One thread serves all requests, so its mutex is left out. -/
structure Cmdprint where
  /-- The block `buf` points to, or `NULL`. -/
  buf : Option (List UInt8)
  /-- `buf_size`. -/
  bufSize : ℕ
  /-- `pos`. -/
  pos : ℕ

/-- A call of `cdp_print`. -/
structure Print where
  /-- What the format and its arguments render to; none if `vsnprintf` fails on them. -/
  text : Option (List UInt8)
  /-- The contents of the memory `realloc` adds, should it be called. -/
  junk : ℕ → UInt8

/-- The size of the local `buffer` of `cdp_print`. -/
def printSize : ℕ := 1024

/-- `vsnprintf`: the length of the whole text, or `-1`, and what it puts in the buffer. -/
def vsnprintf (size : ℕ) : Option (List UInt8) → ℤ × List UInt8
  | none => (-1, [])
  | some text => (if text.length < 2 ^ 31 then text.length else -1, text.take (size - 1) ++ [0])

/-- `cdp_init`. -/
def cdpInit (junk : ℕ → UInt8) : Cmdprint := ⟨some (malloc junk 4096), 4096, 0⟩

/-- `cdp_reinit`. -/
def cdpReinit (junk : ℕ → UInt8) (cdp : Cmdprint) : Cmdprint :=
  match cdp.buf with
  | none => cdp
  | some _ =>
    let cdp := if 10240 < cdp.bufSize then ⟨some (malloc junk 4096), 4096, cdp.pos⟩ else cdp
    { cdp with pos := 0 }

/-- The memory `cdp_output` points to. -/
def cdpOutput (cdp : Cmdprint) : Exec (List UInt8) :=
  if 0 < cdp.pos then
    match cdp.buf with
    | none => .error .nullDeref
    | some buf => .ok buf
  else .ok ([115, 117, 99, 99, 101, 115, 115] ++ [0]) -- "success"

/-- The part of `cdp_print` that makes room for `off` more bytes. -/
def cdpGrow (cdp : Cmdprint) (off : ℕ) (junk : ℕ → UInt8) : Exec Cmdprint :=
  if cdp.bufSize ≤ off + cdp.pos then do
    check (cdp.bufSize * 2 < 2 ^ 31) .overflow
    .ok { cdp with buf := some (realloc junk (cdp.buf.getD []) (cdp.bufSize * 2)),
                   bufSize := cdp.bufSize * 2 }
  else .ok cdp

/-- `cdp_print`. -/
def cdpPrint (cdp : Cmdprint) (p : Print) : Exec Cmdprint :=
  let (off, buffer) := vsnprintf printSize p.text
  if off ≤ 0 ∨ (printSize : ℤ) < off + 1 then .ok cdp
  else do
    let off := off.toNat
    check (off + cdp.pos < 2 ^ 31) .overflow
    let cdp ← cdpGrow cdp off p.junk
    match cdp.buf with
    | none => .error .nullDeref
    | some buf =>
      let src ← load buffer 0 off
      let buf ← store buf cdp.pos src
      let pos := cdp.pos + off
      let buf ← store buf pos [0]
      .ok ⟨some buf, cdp.bufSize, pos⟩

/-- The calls of `cdp_print` a handler makes, in order. -/
def printAll (cdp : Cmdprint) (ps : List Print) : Exec Cmdprint := ps.foldlM cdpPrint cdp

/-! ### Serving a request -/

/-- What a handler prints, given the names and helps in the table, the memory its arguments are in, and the
pointers to them. -/
abbrev Handler := List (Option (List UInt8) × List UInt8) → List UInt8 → List ℕ → List Print

/-- `command_t`. -/
structure Command where
  /-- The name, or `NULL` in a free slot. -/
  subcommand : Option (List UInt8)
  /-- The help text. -/
  help : List UInt8
  /-- The handler, or `NULL` in a free slot. -/
  execute : Option Handler

/-- The names and the helps in the slots that have a handler. -/
def entries (commands : List Command) : List (Option (List UInt8) × List UInt8) :=
  (commands.filter fun c => c.execute.isSome).map fun c => (c.subcommand, c.help)

/-- `command_find`. -/
def commandFind : List Command → List UInt8 → Option Command
  | [], _ => none
  | c :: commands, subcommand =>
    match c.subcommand with
    | none => none
    | some name =>
      if strncmp commandMaxLen name subcommand = 0 then some c
      else commandFind commands subcommand

/-- The calls of `cdp_print` made by `command_execute`. -/
def commandExecute (commands : List Command) (cmd : List UInt8) (subcommand : ℕ)
    (argv : List ℕ) : Exec (List Print) :=
  match commandFind commands (cmd.drop subcommand) with
  | none => .ok []
  | some c =>
    match c.execute with
    | none => .error .nullDeref
    | some execute => .ok (execute (entries commands) cmd argv)

/-- The reading loop of `do_accept`, with `room` bytes left in `cmd`: the request, if it comes to one. -/
def acceptLoop : ℕ → List UInt8 → List ReadResult → Option (List UInt8)
  | 0, _, _ => none
  | room + 1, cmd, conn =>
    match safeRead conn with
    | (_, none, _) => none
    | (_, some b, conn) =>
      if 0 < cmd.length ∧ b = lf ∧ cmd.getLast? = some cr then some (cmd ++ [b])
      else acceptLoop room (cmd ++ [b]) conn

/-- The request that was read. -/
def Framed.request : Framed → Option (List UInt8)
  | .frame cmd _ => some cmd
  | .closed => none
  | .tooLong => none

/-- **The reading loop** takes the request from the bytes, however the reads were interrupted. -/
theorem acceptLoop_eq {room : ℕ} {cmd : List UInt8} (hroom : cmd.length + room = cmdSize) (hpos : 0 < room)
    (conn : List ReadResult) : acceptLoop room cmd conn = (readRequest cmd (received conn)).request := by
  induction room generalizing cmd conn with
  | zero => cases hpos
  | succ room ih =>
    rw [acceptLoop]
    rcases safeRead_received conn with ⟨hend, ret, conn', hread⟩ | ⟨b, conn', hbytes, hread⟩
    · rw [hread, hend]
      rfl
    · rw [hread, hbytes, readRequest]
      simp only
      split
      · rfl
      · split
        · rename_i hfull
          obtain rfl : room = 0 := by omega
          rfl
        · rename_i hfull
          have hroom' : (cmd ++ [b]).length + room = cmdSize := by
            rw [List.length_append, List.length_singleton]
            omega
          exact ih hroom' (by omega) conn'

/-- What `do_accept` meets: the commands registered, what its calls on the connection do, and the contents of
memory that is not its own. -/
structure Request where
  /-- The table of commands. -/
  commands : List Command
  /-- What the calls of `read` do. -/
  conn : List ReadResult
  /-- What `cmd` holds beforehand. -/
  stack : ℕ → UInt8
  /-- What the calls of `write` do. -/
  writes : List WriteResult
  /-- The memory around the output, counted from its first byte. -/
  around : ℤ → UInt8
  /-- The contents of the block `cdp_reinit` may allocate. -/
  fresh : ℕ → UInt8

/-- What the request makes the server print: nothing at all, if it is not a whole request. -/
def Request.prints (r : Request) : Exec (Option (List Print)) :=
  match acceptLoop cmdSize [] r.conn with
  | none => .ok none
  | some frame => do
    let cmd := frame ++ (malloc r.stack cmdSize).drop frame.length
    let d ← msgDecode cmd
    let ps ← commandExecute r.commands cmd d.subCommand d.argv
    .ok (some ps)

/-- A reply as it was written. -/
structure Reply where
  /-- The memory, counted from the pointer that `safe_write` was given. -/
  mem : ℤ → UInt8
  /-- What `safe_write` did. -/
  run : WriteRun

/-- `do_accept`: the buffer afterwards, and the reply, if it gets so far. What `safe_write` returns is only
logged. -/
def doAccept (cdp : Cmdprint) (r : Request) : Exec (Cmdprint × Option Reply) := do
  match ← r.prints with
  | none => .ok (cdp, none)
  | some ps =>
    let cdp ← printAll cdp ps
    let output ← cdpOutput cdp
    let text ← cstr output
    let run := safeWrite 0 text.length r.writes
    let _ ← run.ret
    .ok (cdpReinit r.fresh cdp, some ⟨bytesAt output r.around, run⟩)

/-- Requests served one after the other: the buffer at the end, and each one's reply. -/
def serve : Cmdprint → List Request → Exec (Cmdprint × List (Option Reply))
  | cdp, [] => .ok (cdp, [])
  | cdp, r :: rs => do
    let (cdp, reply) ← doAccept cdp r
    let (cdp, replies) ← serve cdp rs
    .ok (cdp, reply :: replies)

/-! ### What a reply should be -/

/-- What a call of `cdp_print` adds to the reply: its text, if of 1 to 1023 bytes. -/
def Print.accepted (p : Print) : List UInt8 :=
  match p.text with
  | none => []
  | some text => if text.length + 1 ≤ printSize then text else []

/-- What a sequence of calls adds to the reply. -/
def printed (ps : List Print) : List UInt8 := ps.flatMap Print.accepted

/-- The reply a request with these prints should get. -/
def replyOf (ps : List Print) : List UInt8 :=
  if printed ps = [] then [115, 117, 99, 99, 101, 115, 115] -- "success"
  else (printed ps).takeWhile (· ≠ 0)

/-! ### The invariant -/

/-- The buffer is usable, and `w` is what is in it. -/
structure Holds (cdp : Cmdprint) (buf : List UInt8) (w : List UInt8) : Prop where
  /-- `buf` points to a block. -/
  block : cdp.buf = some buf
  /-- The block has `buf_size` bytes. -/
  size : buf.length = cdp.bufSize
  /-- It is never smaller than at first. -/
  large : 4096 ≤ cdp.bufSize
  /-- The write position is inside it. -/
  inside : cdp.pos < cdp.bufSize
  /-- The write position counts what was printed. -/
  pos : cdp.pos = w.length
  /-- What was printed is at the start of the block, followed by a NUL if it is anything. -/
  wrote : 0 < cdp.pos → Wrote buf (w ++ [0])

theorem Holds.wrote_text {cdp : Cmdprint} {buf w : List UInt8} (h : Holds cdp buf w) :
    Wrote buf w := by
  cases w with
  | nil => exact List.nil_prefix
  | cons b w => exact (List.prefix_append _ _).trans (h.wrote (by simp [h.pos]))

/-- Once something was printed, there is a NUL at the write position. -/
theorem Holds.nul {cdp : Cmdprint} {buf w : List UInt8} (h : Holds cdp buf w)
    (hpos : 0 < cdp.pos) : buf[cdp.pos]? = some 0 := by
  obtain ⟨post, hp⟩ := h.wrote hpos
  rw [← hp, h.pos]
  simp

theorem holds_cdpInit (junk : ℕ → UInt8) : Holds (cdpInit junk) (malloc junk 4096) [] :=
  ⟨rfl, length_malloc _ _, le_rfl, by simp [cdpInit], rfl, fun h => absurd h (Nat.lt_irrefl 0)⟩

/-- Growing keeps what is in the buffer and makes room for any text `cdp_print` accepts. -/
theorem cdpGrow_holds {cdp : Cmdprint} {buf w : List UInt8} (h : Holds cdp buf w) (off : ℕ)
    (hoff : off < printSize) (hsmall : off + cdp.pos < 2 ^ 30) (junk : ℕ → UInt8) :
    ∃ cdp' buf', cdpGrow cdp off junk = .ok cdp' ∧ Holds cdp' buf' w ∧ cdp'.pos = cdp.pos ∧
      cdp.pos + off < cdp'.bufSize := by
  have hlarge := h.large
  have hin := h.inside
  unfold printSize at hoff
  by_cases hfull : cdp.bufSize ≤ off + cdp.pos
  · -- one doubling is enough: the position is inside and the text shorter than the block
    have hsize : buf.length ≤ cdp.bufSize * 2 := by rw [h.size]; omega
    refine ⟨⟨some (realloc junk buf (cdp.bufSize * 2)), cdp.bufSize * 2, cdp.pos⟩,
      realloc junk buf (cdp.bufSize * 2), ?_, ⟨rfl, by simp, ?_, ?_, h.pos, ?_⟩, rfl, ?_⟩
    · rw [cdpGrow, if_pos hfull, check_true (by omega), h.block]
      rfl
    · simp only; omega
    · simp only; omega
    · exact fun hpos => (h.wrote hpos).realloc junk hsize
    · simp only; omega
  · exact ⟨cdp, buf, by rw [cdpGrow, if_neg hfull], h, rfl, by omega⟩

/-- **A call of `cdp_print`** appends its text to what is in the buffer, or changes nothing. -/
theorem cdpPrint_holds {cdp : Cmdprint} {buf w : List UInt8} (h : Holds cdp buf w) (p : Print)
    (hsmall : (w ++ p.accepted).length < 2 ^ 30) :
    ∃ cdp' buf', cdpPrint cdp p = .ok cdp' ∧ Holds cdp' buf' (w ++ p.accepted) := by
  obtain ⟨text, junk⟩ := p
  cases text with
  | none => exact ⟨cdp, buf, by simp [cdpPrint, vsnprintf], by simpa [Print.accepted] using h⟩
  | some text =>
    by_cases hacc : 0 < text.length ∧ text.length + 1 ≤ printSize
    · obtain ⟨hpos, hshort⟩ := hacc
      have haccepted : Print.accepted ⟨some text, junk⟩ = text := by
        simp [Print.accepted, hshort]
      rw [haccepted] at hsmall ⊢
      have hlen : text.length < 2 ^ 31 := by unfold printSize at hshort; omega
      have hroom : text.length + cdp.pos < 2 ^ 30 := by rw [h.pos]; simpa [Nat.add_comm] using hsmall
      obtain ⟨cdp₁, buf₁, hg, h₁, hp₁, hfit⟩ := cdpGrow_holds h text.length hshort hroom junk
      obtain ⟨buf₂, hs₂, l₂, w₂⟩ := h₁.wrote_text.store cdp₁.pos text h₁.pos
        (by rw [h₁.size, hp₁]; omega)
      obtain ⟨buf₃, hs₃, l₃, w₃⟩ := w₂.store (cdp₁.pos + text.length) [0]
        (by simp [h₁.pos]) (by rw [l₂, h₁.size, hp₁, List.length_singleton]; omega)
      have hload : load (text.take (printSize - 1) ++ [0]) 0 text.length = .ok text := by
        rw [List.take_of_length_le (by omega)]
        exact load_append [] _ _ rfl rfl
      refine ⟨⟨some buf₃, cdp₁.bufSize, cdp₁.pos + text.length⟩, buf₃, ?_,
        ⟨rfl, by rw [l₃, l₂, h₁.size], h₁.large, by rw [hp₁]; exact hfit, by simp [h₁.pos],
          fun _ => w₃⟩⟩
      have hcond : ¬ ((text.length : ℤ) ≤ 0 ∨ (printSize : ℤ) < text.length + 1) := by omega
      simp only [cdpPrint, vsnprintf, hlen, if_true, hcond, if_false, Int.toNat_natCast, hg, ok_bind,
        check_true (show text.length + cdp.pos < 2 ^ 31 by omega), h₁.block, hload, hs₂, hs₃]
    · -- an empty text or one that fills the local buffer is dropped
      have haccepted : Print.accepted ⟨some text, junk⟩ = [] := by
        simp only [Print.accepted]
        split
        · exact List.length_eq_zero_iff.mp (by omega)
        · rfl
      refine ⟨cdp, buf, ?_, by rw [haccepted, List.append_nil]; exact h⟩
      have hdrop : (if text.length < 2 ^ 31 then (text.length : ℤ) else -1) ≤ 0 ∨
          (printSize : ℤ) < (if text.length < 2 ^ 31 then (text.length : ℤ) else -1) + 1 := by
        split <;> omega
      exact if_pos hdrop

theorem printAll_holds {cdp : Cmdprint} {buf w : List UInt8} (h : Holds cdp buf w)
    (ps : List Print) (hsmall : (w ++ printed ps).length < 2 ^ 30) :
    ∃ cdp' buf', printAll cdp ps = .ok cdp' ∧ Holds cdp' buf' (w ++ printed ps) := by
  induction ps generalizing cdp buf w with
  | nil => exact ⟨cdp, buf, rfl, by simpa [printed] using h⟩
  | cons p ps ih =>
    have hcons : w ++ printed (p :: ps) = (w ++ p.accepted) ++ printed ps := by simp [printed]
    rw [hcons] at hsmall ⊢
    obtain ⟨cdp₁, buf₁, h₁, hh₁⟩ := cdpPrint_holds h p (by
      rw [List.length_append] at hsmall
      omega)
    obtain ⟨cdp₂, buf₂, h₂, hh₂⟩ := ih hh₁ hsmall
    exact ⟨cdp₂, buf₂, by simp only [printAll, List.foldlM_cons, h₁, ok_bind]; exact h₂, hh₂⟩

/-- After `cdp_reinit` the buffer is empty, and large enough. -/
theorem holds_cdpReinit {cdp : Cmdprint} {buf w : List UInt8} (h : Holds cdp buf w)
    (junk : ℕ → UInt8) : ∃ buf', Holds (cdpReinit junk cdp) buf' [] := by
  have hlarge := h.large
  simp only [cdpReinit, h.block]
  by_cases hbig : 10240 < cdp.bufSize
  · rw [if_pos hbig]
    exact ⟨_, rfl, length_malloc _ _, le_rfl, by simp, rfl, fun h => absurd h (Nat.lt_irrefl 0)⟩
  · rw [if_neg hbig]
    exact ⟨buf, h.block, h.size, hlarge, by simp only; omega, rfl,
      fun h => absurd h (Nat.lt_irrefl 0)⟩

/-- What is to be written to the client is the text printed, up to its first NUL. -/
theorem reply_of_holds {cdp : Cmdprint} {buf : List UInt8} {ps : List Print}
    (h : Holds cdp buf (printed ps)) : (cdpOutput cdp >>= cstr) = .ok (replyOf ps) := by
  by_cases hpos : 0 < cdp.pos
  · have hne : printed ps ≠ [] := by
      intro he
      rw [h.pos, he] at hpos
      exact absurd hpos (Nat.lt_irrefl 0)
    obtain ⟨post, hp⟩ := h.wrote hpos
    rw [cdpOutput, if_pos hpos, h.block, replyOf, if_neg hne]
    simp only [ok_bind]
    rw [← hp, List.append_assoc]
    exact cstr_takeWhile _ _
  · have he : printed ps = [] := List.length_eq_zero_iff.mp (by rw [← h.pos]; omega)
    rw [cdpOutput, if_neg hpos, replyOf, if_pos he]
    exact cstr_append ⟨[115, 117, 99, 99, 101, 115, 115], by decide⟩ []

/-- It is short enough for `safe_write`. -/
theorem length_replyOf_le {ps : List Print} (h : (printed ps).length < 2 ^ 30) :
    ((replyOf ps).length : ℤ) ≤ intMax := by
  have hle : (replyOf ps).length ≤ 2 ^ 30 := by
    unfold replyOf
    split
    · decide
    · exact (List.takeWhile_prefix _).length_le.trans h.le
  rw [intMax]
  omega

/-! ### Any history of requests -/

/-- The reply the request should get, if it is decoded and its command runs. -/
def Request.reply (r : Request) : Option (List UInt8) :=
  match r.prints with
  | .ok (some ps) => some (replyOf ps)
  | _ => none

/-- The request does not stop the server, and prints less than 2^30 bytes. -/
def Request.Served (r : Request) : Prop :=
  ∃ ps, r.prints = .ok ps ∧ (printed (ps.getD [])).length < 2 ^ 30

/-- The calls of `write` for its reply do not wait for ever. -/
def Request.Written (r : Request) : Prop :=
  ∀ text, r.reply = some text → (safeWrite 0 text.length r.writes).exit ≠ none

/-- And `safe_write` comes to its end. -/
def Request.Sent (r : Request) : Prop :=
  ∀ text, r.reply = some text → ∃ ret, (safeWrite 0 text.length r.writes).ret = .ok ret

/-- None of them is interrupted before the reply is written. -/
def Request.Undisturbed (r : Request) : Prop :=
  ∀ text, r.reply = some text → CcUtils.Cli.Undisturbed text.length r.writes

/-- The reply is this text: it is in memory, and the calls of `write` deliver it. -/
structure Reply.Brings (reply : Reply) (text : List UInt8) : Prop where
  stored : span reply.mem 0 text.length = text
  delivers : Delivers reply.mem text.length reply.run

/-- The request gets the reply it should get. -/
def Request.Answered (r : Request) : Option Reply → Prop
  | none => r.reply = none
  | some reply => ∃ text, r.reply = some text ∧ reply.Brings text

theorem doAccept_none (cdp : Cmdprint) {r : Request} (h : r.prints = .ok none) :
    r.reply = none ∧ doAccept cdp r = .ok (cdp, none) :=
  ⟨by simp [Request.reply, h], by simp [doAccept, h]⟩

/-- **One request**: the text it should get is written, and the buffer is empty again. -/
theorem doAccept_reply {cdp : Cmdprint} {buf : List UInt8} (h : Holds cdp buf []) {r : Request}
    {ps : List Print} (hps : r.prints = .ok (some ps)) (hsmall : (printed ps).length < 2 ^ 30) :
    r.reply = some (replyOf ps) ∧
      ∃ output cdp' buf', replyOf ps <+: output ∧ Holds cdp' buf' [] ∧
        doAccept cdp r = (safeWrite 0 (replyOf ps).length r.writes).ret.bind fun _ =>
          .ok (cdp', some ⟨bytesAt output r.around, safeWrite 0 (replyOf ps).length r.writes⟩) := by
  obtain ⟨cdp₁, buf₁, h₁, hh₁⟩ := printAll_holds h ps hsmall
  obtain ⟨buf₂, hh₂⟩ := holds_cdpReinit hh₁ r.fresh
  obtain ⟨output, ho, hc⟩ := bind_eq_ok.mp (reply_of_holds hh₁)
  obtain ⟨-, hprefix⟩ := prefix_of_cstr hc
  refine ⟨by simp [Request.reply, hps], output, _, buf₂, (List.prefix_append _ _).trans hprefix, hh₂, ?_⟩
  rw [doAccept, hps, ok_bind]
  simp only [h₁, ho, hc, ok_bind]
  rfl

/-- Whatever the reply, the buffer is empty again when it was sent. -/
theorem doAccept_holds {cdp : Cmdprint} {buf : List UInt8} (h : Holds cdp buf []) {r : Request}
    (hr : r.Served) (hs : r.Sent) :
    ∃ cdp' buf' reply, doAccept cdp r = .ok (cdp', reply) ∧ Holds cdp' buf' [] := by
  obtain ⟨ps, hps, hsmall⟩ := hr
  cases ps with
  | none => exact ⟨cdp, buf, none, (doAccept_none cdp hps).2, h⟩
  | some ps =>
    obtain ⟨hreply, output, cdp₁, buf₁, -, h₁, haccept⟩ := doAccept_reply h hps hsmall
    obtain ⟨ret, hret⟩ := hs _ hreply
    rw [hret] at haccept
    exact ⟨cdp₁, buf₁, _, haccept, h₁⟩

/-- The calls of `write` deliver a text exactly when none is interrupted before the end. -/
theorem brings_iff {output text : List UInt8} (htext : text <+: output) (hlen : (text.length : ℤ) ≤ intMax)
    (around : ℤ → UInt8) (writes : List WriteResult) :
    Reply.Brings ⟨bytesAt output around, safeWrite 0 text.length writes⟩ text ↔
      CcUtils.Cli.Undisturbed text.length writes := by
  have hmem : span (bytesAt output around) 0 text.length = text := by
    rw [span_bytesAt _ htext.length_le, ← List.prefix_iff_eq_take.mp htext]
  rw [← good_safeWrite_iff (Nat.zero_add text.length) hlen, Nat.cast_zero,
    ← delivers_iff_good (bytesAt output around)]
  exact ⟨Reply.Brings.delivers, fun h => ⟨hmem, h⟩⟩

/-- So `do_accept` gives the right reply, if nothing interrupts that. -/
theorem doAccept_answers {cdp : Cmdprint} {buf : List UInt8} (h : Holds cdp buf []) {r : Request}
    (hr : r.Served) (hw : r.Written) (hu : r.Undisturbed) :
    ∃ cdp' buf' reply, doAccept cdp r = .ok (cdp', reply) ∧ r.Answered reply ∧ Holds cdp' buf' [] := by
  obtain ⟨ps, hps, hsmall⟩ := hr
  cases ps with
  | none =>
    obtain ⟨hreply, haccept⟩ := doAccept_none cdp hps
    exact ⟨cdp, buf, none, haccept, hreply, h⟩
  | some ps =>
    obtain ⟨hreply, output, cdp₁, buf₁, htext, h₁, haccept⟩ := doAccept_reply h hps hsmall
    have hbrings := (brings_iff htext (length_replyOf_le hsmall) r.around r.writes).mpr (hu _ hreply)
    cases hexit : (safeWrite 0 (replyOf ps).length r.writes).exit with
    | none => exact absurd hexit (hw _ hreply)
    | some ret =>
      cases ret with
      | error e => exact absurd hexit (hbrings.delivers.noFault e)
      | ok ret =>
        refine ⟨cdp₁, buf₁, some ⟨bytesAt output r.around, _⟩, ?_, ⟨_, hreply, hbrings⟩, h₁⟩
        rw [haccept, WriteRun.ret, hexit]
        rfl

/-- And only then. -/
theorem undisturbed_of_answered {cdp : Cmdprint} {buf : List UInt8} (h : Holds cdp buf []) {r : Request}
    (hr : r.Served) {cdp' : Cmdprint} {reply : Option Reply} (haccept : doAccept cdp r = .ok (cdp', reply)) :
    (∃ buf', Holds cdp' buf' []) ∧ (r.Answered reply → r.Undisturbed) := by
  obtain ⟨ps, hps, hsmall⟩ := hr
  cases ps with
  | none =>
    obtain ⟨hreply, haccept'⟩ := doAccept_none cdp hps
    cases haccept'.symm.trans haccept
    refine ⟨⟨buf, h⟩, fun _ text htext => ?_⟩
    cases hreply.symm.trans htext
  | some ps =>
    obtain ⟨hreply, output, cdp₁, buf₁, hprefix, h₁, haccept'⟩ := doAccept_reply h hps hsmall
    obtain ⟨ret, -, hsame⟩ := bind_eq_ok.mp (haccept'.symm.trans haccept)
    cases hsame
    refine ⟨⟨buf₁, h₁⟩, ?_⟩
    rintro ⟨text, htext, hbrings⟩ text' htext'
    obtain rfl := Option.some.inj (hreply.symm.trans htext)
    obtain rfl := Option.some.inj (hreply.symm.trans htext')
    exact (brings_iff hprefix (length_replyOf_le hsmall) r.around r.writes).mp hbrings

/-- **Any history**, if nothing interrupts a reply. -/
theorem serve_answers {cdp : Cmdprint} {buf : List UInt8} (h : Holds cdp buf []) {rs : List Request}
    (hrs : ∀ r ∈ rs, r.Served ∧ r.Written) (hu : ∀ r ∈ rs, r.Undisturbed) :
    ∃ cdp' buf' replies, serve cdp rs = .ok (cdp', replies) ∧ List.Forall₂ Request.Answered rs replies ∧
      Holds cdp' buf' [] := by
  induction rs generalizing cdp buf with
  | nil => exact ⟨cdp, buf, [], rfl, .nil, h⟩
  | cons r rs ih =>
    obtain ⟨⟨hr, hw⟩, hrs⟩ := List.forall_mem_cons.mp hrs
    obtain ⟨hu, hus⟩ := List.forall_mem_cons.mp hu
    obtain ⟨cdp₁, buf₁, reply, haccept, hanswer, h₁⟩ := doAccept_answers h hr hw hu
    obtain ⟨cdp₂, buf₂, replies, hserve, hanswers, h₂⟩ := ih h₁ hrs hus
    exact ⟨cdp₂, buf₂, reply :: replies, by simp [serve, haccept, hserve], .cons hanswer hanswers, h₂⟩

theorem undisturbed_of_serve {cdp : Cmdprint} {buf : List UInt8} (h : Holds cdp buf []) {rs : List Request}
    (hrs : ∀ r ∈ rs, r.Served) {cdp' : Cmdprint} {replies : List (Option Reply)}
    (hserve : serve cdp rs = .ok (cdp', replies)) (hanswered : List.Forall₂ Request.Answered rs replies) :
    ∀ r ∈ rs, r.Undisturbed := by
  induction rs generalizing cdp buf cdp' replies with
  | nil => simp
  | cons r rs ih =>
    obtain ⟨hr, hrs⟩ := List.forall_mem_cons.mp hrs
    rw [serve] at hserve
    obtain ⟨⟨cdp₁, reply⟩, haccept, hrest⟩ := bind_eq_ok.mp hserve
    obtain ⟨⟨cdp₂, replies'⟩, hserves, hsame⟩ := bind_eq_ok.mp hrest
    cases hsame
    obtain ⟨hanswer, hanswers⟩ := List.forall₂_cons.mp hanswered
    obtain ⟨⟨buf₁, h₁⟩, hundisturbed⟩ := undisturbed_of_answered h hr haccept
    exact List.forall_mem_cons.mpr ⟨hundisturbed hanswer, ih h₁ hrs hserves hanswers⟩

/-- **Replies do not mix**: of the requests served from a fresh buffer each gets the reply made of its own
prints alone. And at every point, after any prints of the request being served next, the write position is
inside the buffer and, once something was printed, there is a NUL at it; that the prints succeed says that
every copy lies inside the buffer. -/
def RepliesRight (junk : ℕ → UInt8) (rs : List Request) : Prop :=
  ∃ cdp replies, serve (cdpInit junk) rs = .ok (cdp, replies) ∧ List.Forall₂ Request.Answered rs replies ∧
    ∀ ps, (printed ps).length < 2 ^ 30 →
      ∃ cdp' buf, printAll cdp ps = .ok cdp' ∧ cdp'.buf = some buf ∧
        buf.length = cdp'.bufSize ∧ cdp'.pos < cdp'.bufSize ∧
        (0 < cdp'.pos → buf[cdp'.pos]? = some 0)

/-- So they do exactly when no reply is interrupted before it is written. -/
theorem serve_replies_iff (junk : ℕ → UInt8) {rs : List Request} (hrs : ∀ r ∈ rs, r.Served ∧ r.Written) :
    RepliesRight junk rs ↔ ∀ r ∈ rs, r.Undisturbed := by
  constructor
  · rintro ⟨cdp, replies, hserve, hanswered, -⟩
    exact undisturbed_of_serve (holds_cdpInit junk) (fun r hr => (hrs r hr).1) hserve hanswered
  · intro hu
    obtain ⟨cdp, buf, replies, hserve, hanswered, h⟩ := serve_answers (holds_cdpInit junk) hrs hu
    refine ⟨cdp, replies, hserve, hanswered, fun ps hps => ?_⟩
    obtain ⟨cdp', buf', hprint, h'⟩ := printAll_holds h ps hps
    exact ⟨cdp', buf', hprint, h'.block, h'.size, h'.inside, h'.nul⟩

/-! ### From the client to the handler -/

theorem commandFind_of_cstr {mem s : List UInt8} (h : cstr mem = .ok s) (commands : List Command) :
    commandFind commands mem = commandFind commands s := by
  induction commands with
  | nil => rfl
  | cons c commands ih =>
    simp only [commandFind, strncmp_of_cstr h, ih]

/-- A request as the client encodes it, with no CR LF in its strings, reaches the handler found
under its sub-command, with pointers to its arguments. -/
theorem prints_of_encoding {r : Request} (subCommand : CString) (argv : List CString)
    (hsub : Short subCommand) (hargc : argv.length ≤ commandMaxArgc) (hs : ∀ a ∈ argv, Short a)
    (hfit : (encoding subCommand argv).length ≤ cmdSize)
    (hcrlf : ∀ s ∈ subCommand :: argv, ¬ [cr, lf] <:+: s.val)
    (hconn : received r.conn = encoding subCommand argv) :
    ∃ cmd ps, ps.map (stringAt cmd) = argv.map (fun a => Except.ok a.val) ∧
      r.prints = match commandFind r.commands subCommand.val with
        | none => .ok (some [])
        | some c => match c.execute with
          | none => .error .nullDeref
          | some execute => .ok (some (execute (entries r.commands) cmd ps)) := by
  have hframe := (readRequest_encoding_iff hsub hargc hs hfit).mpr hcrlf
  have hloop : acceptLoop cmdSize [] r.conn = some (encoding subCommand argv) := by
    rw [acceptLoop_eq (Nat.zero_add cmdSize) (by decide), hconn, hframe]
    rfl
  obtain ⟨d, hd, hstr, -, hargs, -⟩ := msgDecode_encoding hsub hargc hs
    ((malloc r.stack cmdSize).drop (encoding subCommand argv).length)
  refine ⟨_, d.argv, hargs, ?_⟩
  rw [Request.prints, hloop]
  simp only [hd, ok_bind, commandExecute, commandFind_of_cstr hstr]
  cases commandFind r.commands subCommand.val with
  | none => rfl
  | some c =>
    dsimp only
    cases c.execute with
    | none => rfl
    | some execute => rfl

/-- A server with the one command `hi`, which prints `ok` whatever it is given. -/
def hiRequest : Request where
  commands := [⟨some [104, 105], [], some fun _ _ _ => [⟨some [111, 107], fun _ => 0⟩]⟩]
  conn := (encoding ⟨[104, 105], by decide⟩ []).map .byte
  stack := fun _ => 0xcc
  writes := [.takes 1, .takes 1]
  around := fun _ => 33
  fresh := fun _ => 0xcc

theorem hiRequest_prints :
    hiRequest.prints = .ok (some [⟨some [111, 107], fun _ => 0⟩]) := by
  obtain ⟨cmd, ps, -, h⟩ := prints_of_encoding (r := hiRequest) ⟨[104, 105], by decide⟩ []
    (by decide) (by decide) (by simp) (by decide) (by decide) (received_map_byte _)
  exact h

/-- The same request, but the first call of `write` is interrupted. -/
def interruptedRequest : Request := { hiRequest with writes := [.fails eIntr, .takes 3] }

/-- Each of the two should get `ok`. -/
theorem hiRequest_reply : hiRequest.reply = some [111, 107] ∧ interruptedRequest.reply = some [111, 107] := by
  have hprints : interruptedRequest.prints = .ok (some [⟨some [111, 107], fun _ => 0⟩]) := hiRequest_prints
  constructor
  · rw [Request.reply, hiRequest_prints]
    rfl
  · rw [Request.reply, hprints]
    rfl

theorem hiRequest_served : hiRequest.Served ∧ hiRequest.Written := by
  refine ⟨⟨_, hiRequest_prints, by decide⟩, fun text htext => ?_⟩
  cases hiRequest_reply.1.symm.trans htext
  decide

/-- Two requests for `hi`, each reply written a byte at a time. -/
theorem serve_replies_iff_hi : RepliesRight (fun _ => 0xcc) [hiRequest, hiRequest] := by
  rw [serve_replies_iff]
  · intro r hr text htext
    obtain rfl : r = hiRequest := by simpa using hr
    cases hiRequest_reply.1.symm.trans htext
    exact undisturbed_takes.mpr (.inr (undisturbed_takes.mpr (.inl (le_refl 1))))
  · intro r hr
    obtain rfl : r = hiRequest := by simpa using hr
    exact hiRequest_served

/-- Interrupted once, the reply has the byte before the output in front of it. -/
theorem not_repliesRight_interrupted :
    (∃ cdp reply, serve (cdpInit fun _ => 0xcc) [interruptedRequest] = .ok (cdp, [some reply]) ∧
      reply.run.exit = some (.ok 0) ∧ accepted reply.mem reply.run.calls = [33, 111, 107]) ∧
    ¬ RepliesRight (fun _ => 0xcc) [interruptedRequest] := by
  have hprints : interruptedRequest.prints = .ok (some [⟨some [111, 107], fun _ => 0⟩]) := hiRequest_prints
  have hserved : interruptedRequest.Served := ⟨_, hprints, by decide⟩
  obtain ⟨-, output, cdp, buf, htext, -, haccept⟩ :=
    doAccept_reply (holds_cdpInit fun _ => 0xcc) hprints (by decide)
  have hrun : doAccept (cdpInit fun _ => 0xcc) interruptedRequest =
      .ok (cdp, some ⟨bytesAt output fun _ => 33, safeWrite 0 2 interruptedRequest.writes⟩) := haccept
  refine ⟨⟨cdp, ⟨bytesAt output fun _ => 33, safeWrite 0 2 interruptedRequest.writes⟩, ?_, by rfl, ?_⟩, ?_⟩
  · rw [serve, hrun]
    rfl
  · obtain ⟨rest, rfl⟩ := htext
    rfl
  · rintro ⟨cdp', replies, hserve, hanswered, -⟩
    have hall : ∀ r ∈ [interruptedRequest], r.Undisturbed :=
      undisturbed_of_serve (holds_cdpInit fun _ => 0xcc) (by simpa using hserved) hserve hanswered
    have hu := hall interruptedRequest (by simp) _ hiRequest_reply.2
    exact (undisturbed_fails.mp hu) rfl

end CcUtils.Cli
