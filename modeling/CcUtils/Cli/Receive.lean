import CcUtils.Cli.Message
import CcUtils.Cli.Transfer

/-!
# The client's answer

The loop in the client's `main` that takes the answer off the connection a byte at a time and prints
it when `buffer` is full or the server has closed the connection.

When `pos` has reached the size of `buffer`, the loop ends the text with a NUL at `buffer[pos]`. At the
end of the file it stops only if there is something to print; else it counts a byte that it has not
read. What is in `buffer` before is the request.

## What is proved

* `receive_prints` — an answer that leaves room for its NUL is printed.
* `not_receives_full` — a longer one ends with an access outside `buffer`.
* `printed_of_empty` — for none, the first byte of the request is printed.
* `receive_prints_iff` — so which answers are printed as they are.
-/

namespace CcUtils.Cli

open CcUtils.Lib

/-! ### The loop -/

/-- What the loop prints. -/
inductive Line
  /-- "error reading request code", with what `safe_read` returned. -/
  | error (ret : ℤ)
  /-- A piece of the answer. -/
  | text (s : List UInt8)
  deriving DecidableEq

/-- The variables of the loop, and what it has printed. -/
structure Receiver where
  /-- `buffer`. -/
  buffer : List UInt8
  /-- `pos`. -/
  pos : ℕ
  /-- What the calls of `read` on `sock_fd` will do. -/
  conn : List ReadResult
  /-- The lines printed so far. -/
  printed : List Line

/-- `buffer[pos] = '\\0'; PRINT("%s", buffer)`. -/
def Receiver.print (c : Receiver) : Exec Receiver := do
  let buffer ← store c.buffer c.pos [0]
  let s ← cstr buffer
  .ok { c with buffer := buffer, printed := c.printed ++ [.text s] }

/-- `safe_read(sock_fd, &buffer[pos], 1)`, and the message when it fails. -/
def Receiver.read (c : Receiver) : Exec (ℤ × Receiver) := do
  let (ret, b, conn) := safeRead c.conn
  let buffer ← store c.buffer c.pos b.toList
  let printed := if ret < 0 then c.printed ++ [.error ret] else c.printed
  .ok (ret, { c with buffer := buffer, conn := conn, printed := printed })

/-- The loop. -/
def receive : ℕ → Receiver → Exec Receiver
  | 0, _ => .error .outOfFuel
  | fuel + 1, c => do
    let (ret, c) ← c.read
    if ret ≤ 0 ∧ c.pos ≠ 0 then c.print
    else
      let c := { c with pos := c.pos + 1 }
      if cmdSize ≤ c.pos then do
        let c ← c.print
        receive fuel { c with pos := 0 }
      else receive fuel c

/-! ### What it prints -/

/-- The loop ends, and what it prints is the answer `r`, in one or more pieces. -/
def Receives (c : Receiver) (r : List UInt8) : Prop :=
  ∃ (fuel : ℕ) (c' : Receiver) (pieces : List (List UInt8)), receive fuel c = .ok c' ∧
    c'.printed = pieces.map Line.text ∧ pieces.flatten = r

/-- The bytes `w` are in the buffer, and the bytes `r` are still to come. -/
structure Held (c : Receiver) (w r : List UInt8) : Prop where
  length : c.buffer.length = cmdSize
  pos : c.pos = w.length
  wrote : Wrote c.buffer w
  serves : Serves c.conn r

theorem store_nil {buf : List UInt8} {off : ℕ} (h : off ≤ buf.length) :
    store buf off [] = .ok buf := by
  rw [store, if_pos (by simpa using h)]
  simp

theorem Held.pos_le {c : Receiver} {w r : List UInt8} (h : Held c w r) : c.pos ≤ cmdSize := by
  rw [h.pos, ← h.length]
  exact h.wrote.length_le

/-- At the end of the file nothing changes. -/
theorem Held.read_end {c : Receiver} {w : List UInt8} (h : Held c w []) :
    ∃ c', c.read = .ok (0, c') ∧ Held c' w [] ∧ c'.buffer = c.buffer ∧ c'.printed = c.printed := by
  have hstore : store c.buffer c.pos [] = .ok c.buffer := store_nil (h.length ▸ h.pos_le)
  refine ⟨{ c with conn := [] }, ?_, ⟨h.length, h.pos, h.wrote, .nil⟩, rfl, rfl⟩
  simp [Receiver.read, h.serves.safeRead_nil rfl, hstore]

/-- The next byte comes after those in the buffer. -/
theorem Held.read_byte {c : Receiver} {w r : List UInt8} {b : UInt8} (h : Held c w (b :: r))
    (hroom : w.length < cmdSize) :
    ∃ c', c.read = .ok (1, c') ∧ Held { c' with pos := c'.pos + 1 } (w ++ [b]) r ∧
      c'.pos = c.pos ∧ c'.printed = c.printed := by
  obtain ⟨conn, hread, hserves⟩ := h.serves.safeRead_cons rfl
  obtain ⟨buffer, hstore, hlen, hw⟩ := h.wrote.store c.pos [b] h.pos (by
    rw [h.pos, h.length]
    exact hroom)
  refine ⟨{ c with buffer := buffer, conn := conn }, ?_, ⟨hlen.trans h.length, ?_, hw, hserves⟩,
    rfl, rfl⟩
  · simp [Receiver.read, hread, hstore]
  · simp [h.pos]

/-- The buffer is printed when it has room for the NUL. -/
theorem Held.print {c : Receiver} {w r : List UInt8} (h : Held c w r) (hroom : w.length < cmdSize)
    (hw : (0 : UInt8) ∉ w) :
    ∃ c', c.print = .ok c' ∧ c'.printed = c.printed ++ [.text w] := by
  obtain ⟨buffer, hstore, -, post, hpost⟩ := h.wrote.store c.pos [0] h.pos (by
    rw [h.pos, h.length]
    exact hroom)
  have hstr : cstr buffer = .ok w := by
    rw [← hpost]
    exact cstr_append ⟨w, hw⟩ post
  exact ⟨{ c with buffer := buffer, printed := c.printed ++ [.text w] },
    by simp [Receiver.print, hstore, hstr], rfl⟩

/-- A full buffer has no room for it. -/
theorem Held.print_full {c : Receiver} {w r : List UInt8} (h : Held c w r)
    (hfull : w.length = cmdSize) : c.print = .error .outOfBounds := by
  have hstore : store c.buffer c.pos [0] = .error .outOfBounds := by
    rw [store, if_neg (by rw [h.pos, h.length, hfull]; simp)]
  simp [Receiver.print, hstore]

/-- **An answer that leaves room for its NUL** is printed in one piece. -/
theorem receive_prints {c : Receiver} {w r : List UInt8} (h : Held c w r)
    (hroom : w.length + r.length < cmdSize) (hne : w ++ r ≠ []) (h0 : (0 : UInt8) ∉ w ++ r) :
    ∃ fuel c', receive fuel c = .ok c' ∧ c'.printed = c.printed ++ [.text (w ++ r)] := by
  induction r generalizing c w with
  | nil =>
    rw [List.append_nil] at hne h0 ⊢
    obtain ⟨c₁, hread, h₁, -, hp₁⟩ := h.read_end
    obtain ⟨c₂, hprint, hp₂⟩ := h₁.print hroom h0
    have hpos : c₁.pos ≠ 0 := by
      rw [h₁.pos]
      exact fun h => hne (List.length_eq_zero_iff.mp h)
    refine ⟨1, c₂, ?_, by rw [hp₂, hp₁]⟩
    simp [receive, hread, hpos, hprint]
  | cons b r ih =>
    rw [List.length_cons] at hroom
    obtain ⟨c₁, hread, h₁, hpos, hp₁⟩ := h.read_byte (by omega)
    have hassoc : w ++ b :: r = w ++ [b] ++ r := by simp
    rw [hassoc] at hne h0 ⊢
    obtain ⟨fuel, c₂, hrun, hp₂⟩ := ih h₁ (by simp; omega) hne h0
    have hfits : ¬ cmdSize ≤ c₁.pos + 1 := by
      rw [hpos, h.pos]
      omega
    refine ⟨fuel + 1, c₂, ?_, by rw [hp₂, hp₁]⟩
    simp [receive, hread, hfits, hrun]

/-- **A longer answer** never comes to its end: the NUL of the first full buffer falls outside. -/
theorem not_receives_full {c : Receiver} {w r : List UInt8} (h : Held c w r)
    (hw : w.length < cmdSize) (hlong : cmdSize ≤ w.length + r.length) (fuel : ℕ) (c' : Receiver) :
    receive fuel c ≠ .ok c' := by
  induction fuel generalizing c w r with
  | zero => exact nofun
  | succ fuel ih =>
    cases r with
    | nil =>
      rw [List.length_nil] at hlong
      omega
    | cons b r =>
      obtain ⟨c₁, hread, h₁, hpos, -⟩ := h.read_byte hw
      have hstep : receive (fuel + 1) c = if cmdSize ≤ c₁.pos + 1 then
          (do let c ← { c₁ with pos := c₁.pos + 1 }.print
              receive fuel { c with pos := 0 })
          else receive fuel { c₁ with pos := c₁.pos + 1 } := by
        simp [receive, hread]
      rw [hstep]
      by_cases hfull : cmdSize ≤ c₁.pos + 1
      · have hlen : (w ++ [b]).length = cmdSize := by
          rw [hpos, h.pos] at hfull
          simp
          omega
        rw [if_pos hfull, h₁.print_full hlen]
        exact nofun
      · rw [if_neg hfull]
        rw [hpos, h.pos] at hfull
        rw [List.length_cons] at hlong
        exact ih h₁ (by simp; omega) (by simp; omega)

/-- **For no answer at all** the loop prints a byte that was in the buffer. -/
theorem printed_of_empty {c c' : Receiver} {x : UInt8} {fuel : ℕ} (h : Held c [] [])
    (hx : Wrote c.buffer [x]) (h0 : x ≠ 0) (hrun : receive fuel c = .ok c') :
    c'.printed = c.printed ++ [.text [x]] := by
  obtain ⟨c₁, hread, h₁, hb₁, hp₁⟩ := h.read_end
  have hone : Held { c₁ with pos := c₁.pos + 1 } [x] [] :=
    ⟨h₁.length, by simp [h₁.pos], hb₁ ▸ hx, h₁.serves⟩
  obtain ⟨c₂, hread₂, h₂, -, hp₂⟩ := hone.read_end
  obtain ⟨c₃, hprint, hp₃⟩ := h₂.print (by simp [cmdSize]) (by simpa using Ne.symm h0)
  have hpos₁ : c₁.pos = 0 := h₁.pos
  have hpos₂ : c₂.pos = 1 := h₂.pos
  cases fuel with
  | zero => cases hrun
  | succ fuel =>
    simp only [receive, hread, ok_bind, hpos₁, ne_eq, not_true_eq_false, and_false, if_false,
      Nat.zero_add, if_neg (show ¬ cmdSize ≤ 1 by decide)] at hrun
    cases fuel with
    | zero => cases hrun
    | succ fuel =>
      rw [hpos₁] at hread₂
      simp only [receive, hread₂, ok_bind, hpos₂] at hrun
      rw [if_pos ⟨le_refl 0, Nat.one_ne_zero⟩, hprint] at hrun
      obtain rfl := Except.ok.inj hrun
      rw [hp₃, hp₂, hp₁]

theorem not_receives_of_empty {c : Receiver} {x : UInt8} (h : Held c [] [])
    (hx : Wrote c.buffer [x]) (h0 : x ≠ 0) (hc : c.printed = []) : ¬ Receives c [] := by
  rintro ⟨fuel, c', pieces, hrun, hprinted, hflat⟩
  rw [printed_of_empty h hx h0 hrun, hc] at hprinted
  have hpieces : pieces = [[x]] := by
    refine List.map_injective_iff.mpr (fun _ _ => Line.text.inj) ?_
    exact hprinted.symm
  rw [hpieces] at hflat
  exact absurd hflat (by simp)

/-! ### Which answers are printed -/

/-- Before the answer the buffer has the request, which begins with the length of the sub-command. -/
theorem exists_wrote_of_msgEncode {buffer buffer' : List UInt8} {subCommand : CString}
    {argv : List CString} {n : ℕ} (hsub : Short subCommand)
    (henc : msgEncode buffer subCommand argv = .ok (buffer', n)) :
    ∃ x, Wrote buffer' [x] ∧ x ≠ 0 := by
  obtain ⟨hw, -, -⟩ := msgEncode_wrote henc
  refine ⟨UInt8.ofNat (subCommand.len + 1), List.IsPrefix.trans ?_ hw, fun h => ?_⟩
  · simp [encoding, body, field, le]
  · have hval := congrArg UInt8.toNat h
    have hlt : subCommand.len + 1 ≤ 32 := hsub
    rw [UInt8.toNat_ofNat', UInt8.toNat_zero] at hval
    omega

/-- **The client prints the answer** exactly when there is one and it leaves room for its NUL in the
buffer. -/
theorem receive_prints_iff {buffer buffer' : List UInt8} (prog procName : CString)
    {subCommand : CString} {argv : List CString} {n : ℕ} {conn : List ReadResult} {r : List UInt8}
    (hbuf : buffer.length = cmdSize)
    (hacc : mainAccepts (prog :: procName :: subCommand :: argv) = true)
    (henc : msgEncode buffer subCommand argv = .ok (buffer', n)) (hconn : Serves conn r)
    (h0 : (0 : UInt8) ∉ r) :
    Receives ⟨buffer', 0, conn, []⟩ r ↔ 0 < r.length ∧ r.length < cmdSize := by
  obtain ⟨hsub, -, -⟩ := short_of_mainAccepts hacc
  obtain ⟨-, -, hlen⟩ := msgEncode_wrote henc
  have h : Held ⟨buffer', 0, conn, []⟩ [] r :=
    ⟨hlen.trans hbuf, rfl, List.nil_prefix, hconn⟩
  constructor
  · intro hrec
    refine ⟨?_, ?_⟩
    · by_contra hpos
      obtain rfl : r = [] := List.length_eq_zero_iff.mp (by omega)
      obtain ⟨x, hx, hx0⟩ := exists_wrote_of_msgEncode hsub henc
      exact not_receives_of_empty h hx hx0 rfl hrec
    · by_contra hlong
      obtain ⟨fuel, c', -, hrun, -⟩ := hrec
      exact not_receives_full h (by decide) (by simpa using hlong) fuel c' hrun
  · rintro ⟨hpos, hroom⟩
    obtain ⟨fuel, c', hrun, hprinted⟩ := receive_prints h (by simpa using hroom)
      (by simpa using List.length_pos_iff.mp hpos) h0
    exact ⟨fuel, c', [r], hrun, hprinted, by simp⟩

/-- The answer `ok`, interrupted once. -/
theorem receive_prints_iff_ok :
    ∃ buffer' n, msgEncode (List.replicate cmdSize 0) ⟨[116, 101, 115, 116], by decide⟩ [] =
        .ok (buffer', n) ∧
      (Receives ⟨buffer', 0, [.byte 111, .fails eIntr, .byte 107], []⟩ [111, 107] ↔
        0 < [111, 107].length ∧ [111, 107].length < cmdSize) := by
  obtain ⟨buffer', n, henc⟩ := msgEncode_spec (List.replicate cmdSize 0)
    ⟨[116, 101, 115, 116], by decide⟩ [] (by rw [List.length_replicate]; decide)
  exact ⟨buffer', n, henc, receive_prints_iff ⟨[119], by decide⟩ ⟨[112], by decide⟩
    (List.length_replicate ..) (by decide) henc (.byte _ (.interrupted (.byte _ .nil))) (by decide)⟩

/-- The empty answer to the request `test`: the client prints a byte of its own. -/
theorem not_receives_empty :
    ∃ buffer' n, msgEncode (List.replicate cmdSize 0) ⟨[116, 101, 115, 116], by decide⟩ [] =
        .ok (buffer', n) ∧
      ¬ Receives ⟨buffer', 0, [], []⟩ [] := by
  obtain ⟨buffer', n, henc⟩ := msgEncode_spec (List.replicate cmdSize 0)
    ⟨[116, 101, 115, 116], by decide⟩ [] (by rw [List.length_replicate]; decide)
  obtain ⟨x, hx, hx0⟩ := exists_wrote_of_msgEncode (by decide) henc
  obtain ⟨-, -, hlen⟩ := msgEncode_wrote henc
  exact ⟨buffer', n, henc, not_receives_of_empty
    ⟨hlen.trans (List.length_replicate ..), rfl, List.nil_prefix, .nil⟩ hx hx0 rfl⟩

end CcUtils.Cli
