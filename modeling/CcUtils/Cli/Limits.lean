import CcUtils.Cli.Message
import CcUtils.Lib.Rules
import Mathlib.Algebra.BigOperators.Group.List.Basic

/-!
# The limits of a request

What the bounds of the command line protocol come to. The client's `main` bounds the number of the
arguments and the length of each, the buffer bounds their sum. `msg_decode` bounds every length it
reads, and asserts it; that the field lies in the bytes received, and the string has an end there,
nobody looks at.

`msg_decode` is run here on the bytes received as an object of their own, so a run that succeeds has
read no others.

## What is proved

* `msgEncode_fits_iff` — which requests fit the buffers.
* `msgDecode_sound_iff` — on which bytes `msg_decode` does what it should: those of `IsRequest`.
-/

namespace CcUtils.Cli

open CcUtils.Lib

/-! ### What fits -/

theorem length_fields (argv : List CString) :
    (fields argv).length = 5 * argv.length + (argv.map CString.len).sum := by
  induction argv with
  | nil => rfl
  | cons a argv ih =>
    rw [fields_cons, List.length_append, length_field, ih, List.map_cons, List.sum_cons,
      List.length_cons]
    omega

theorem length_encoding (subCommand : CString) (argv : List CString) :
    (encoding subCommand argv).length =
      11 + subCommand.len + 5 * argv.length + (argv.map CString.len).sum := by
  simp only [encoding, body, List.length_append, length_field, length_le, length_fields,
    List.length_cons, List.length_nil]
  omega

/-- `msg_encode` returns exactly when there is room for the message. -/
theorem msgEncode_returns_iff {buffer : List UInt8} {subCommand : CString} {argv : List CString} :
    (∃ buffer' n, msgEncode buffer subCommand argv = .ok (buffer', n)) ↔
      (encoding subCommand argv).length ≤ buffer.length := by
  constructor
  · rintro ⟨buffer', n, h⟩
    obtain ⟨hw, -, hlen⟩ := msgEncode_wrote h
    rw [← hlen]
    exact hw.length_le
  · exact msgEncode_spec buffer subCommand argv

/-- **A request fits the buffers** exactly when its strings have at most 1013 bytes, five of them taken off
for each argument. -/
theorem msgEncode_fits_iff {buffer : List UInt8} {subCommand : CString} {argv : List CString}
    (hbuf : buffer.length = cmdSize) :
    (∃ buffer' n, msgEncode buffer subCommand argv = .ok (buffer', n) ∧ n ≤ cmdSize) ↔
      subCommand.len + (argv.map CString.len).sum + 5 * argv.length ≤ 1013 := by
  have hsize : (encoding subCommand argv).length ≤ cmdSize ↔
      subCommand.len + (argv.map CString.len).sum + 5 * argv.length ≤ 1013 := by
    rw [length_encoding, cmdSize]
    omega
  rw [← hsize]
  constructor
  · rintro ⟨buffer', n, h, -⟩
    rw [← hbuf]
    exact msgEncode_returns_iff.mp ⟨buffer', n, h⟩
  · intro hfit
    obtain ⟨buffer', n, h⟩ := msgEncode_returns_iff.mpr (hbuf ▸ hfit)
    obtain ⟨-, hn, -⟩ := msgEncode_wrote h
    exact ⟨buffer', n, h, hn ▸ hfit⟩

/-- The request `test` with the arguments `ab` and `c`. -/
theorem msgEncode_fits_iff_test :
    (∃ buffer' n, msgEncode (List.replicate cmdSize 0) ⟨[116, 101, 115, 116], by decide⟩
        [⟨[97, 98], by decide⟩, ⟨[99], by decide⟩] = .ok (buffer', n) ∧ n ≤ cmdSize) ↔
      4 + (([⟨[97, 98], by decide⟩, ⟨[99], by decide⟩] : List CString).map CString.len).sum + 5 * 2 ≤ 1013 :=
  @msgEncode_fits_iff _ ⟨[116, 101, 115, 116], by decide⟩ [⟨[97, 98], by decide⟩, ⟨[99], by decide⟩]
    (List.length_replicate ..)

/-- Thirty-one letters, the longest argument the client accepts. -/
def longest : CString := ⟨List.replicate 31 97, by decide⟩

/-- Thirty-two of them are accepted and do not fit. -/
theorem msgEncode_overruns :
    mainAccepts (⟨[119], by decide⟩ :: longest :: longest :: List.replicate 32 longest) = true ∧
      ¬ ∃ buffer' n, msgEncode (List.replicate cmdSize 0) longest (List.replicate 32 longest) =
        .ok (buffer', n) ∧ n ≤ cmdSize := by
  refine ⟨by decide, ?_⟩
  rintro ⟨buffer', n, h, -⟩
  have hfit := msgEncode_returns_iff.mp ⟨buffer', n, h⟩
  have hlen : longest.len = 31 := by decide
  rw [length_encoding, List.map_replicate, List.sum_replicate, hlen, List.length_replicate,
    List.length_replicate, show 32 • 31 = 992 by decide, cmdSize] at hfit
  omega

/-! ### What is decoded -/

/-- A length that is read lies in the bytes. -/
theorem loadU32_eq_ok {buf : List UInt8} {offset v : ℕ} :
    loadU32 buf offset = .ok v ↔ v < 2 ^ 32 ∧ ∃ bs, buf.drop offset = le 4 v ++ bs := by
  constructor
  · intro h
    cases hl : load buf offset 4 with
    | error e => rw [loadU32, hl] at h; cases h
    | ok word =>
      rw [loadU32, hl] at h
      obtain rfl : ofLe word = v := Except.ok.inj h
      obtain ⟨hle, hw⟩ := load_eq_ok.mp hl
      have hlen : word.length = 4 := by
        rw [← hw, List.length_take, List.length_drop]
        omega
      refine ⟨?_, (buf.drop offset).drop 4, ?_⟩
      · have := ofLe_lt word
        rwa [hlen] at this
      · rw [← hlen, le_ofLe, hlen, ← hw, List.take_append_drop]
  · rintro ⟨hv, bs, h⟩
    have hoff : offset ≤ buf.length := by
      by_contra hgt
      rw [List.drop_eq_nil_of_le (by omega)] at h
      simp [le] at h
    have hbuf : buf = buf.take offset ++ (le 4 v ++ bs) := by
      rw [← h, List.take_append_drop]
    rw [hbuf]
    exact loadU32_append _ _ (by rw [List.length_take]; omega) hv

/-- What is asked of `msg_decode`: at most 32 arguments, and every pointer it sets is to a string inside
the bytes received. -/
structure Decodes (cmd : List UInt8) (d : Decoded) : Prop where
  argc : d.argc ≤ commandMaxArgc
  argv_length : d.argv.length = d.argc
  subCommand : ∃ s, stringAt cmd d.subCommand = .ok s
  argv : ∀ p ∈ d.argv, ∃ s, stringAt cmd p = .ok s

/-- There are `n` arguments at the front of the bytes: each has a length of at most 32, and a NUL
somewhere after it. -/
def AreArgs : ℕ → List UInt8 → Prop
  | 0, _ => True
  | n + 1, mem => ∃ len bs, mem = le 4 len ++ bs ∧ len ≤ commandMaxLen ∧ 0 ∈ bs ∧
      AreArgs n (bs.drop len)

/-- The bytes are a request: a sub-command with a length of at most 32, a count of at most 32, and as
many arguments. The count has the NUL that the sub-command needs. -/
def IsRequest (cmd : List UInt8) : Prop :=
  ∃ len bs argc args, cmd = le 4 len ++ bs ∧ len ≤ commandMaxLen ∧
    bs.drop len = le 4 argc ++ args ∧ argc ≤ commandMaxLen ∧ AreArgs argc args

/-- A pointer past a length. -/
theorem exists_stringAt {cmd bs : List UInt8} {offset len : ℕ}
    (h : cmd.drop offset = le 4 len ++ bs) :
    (∃ s, stringAt cmd (offset + 4) = .ok s) ↔ 0 ∈ bs := by
  rw [stringAt, ← List.drop_drop, h, List.drop_left' (length_le 4 len)]
  exact exists_cstr

theorem drop_field {cmd bs : List UInt8} {offset v : ℕ} (h : cmd.drop offset = le 4 v ++ bs)
    (n : ℕ) : cmd.drop (offset + 4 + n) = bs.drop n := by
  rw [← List.drop_drop, ← List.drop_drop, h, List.drop_left' (length_le 4 v)]

/-- A small number has a NUL among its bytes. -/
theorem zero_mem_le4 {n : ℕ} (hn : n ≤ commandMaxLen) : (0 : UInt8) ∈ le 4 n := by
  have hhigh : n / 256 = 0 := Nat.div_eq_of_lt (lt_of_le_of_lt hn (by decide))
  simp [le, hhigh]

/-- What the loop over the arguments should come to. -/
def ArgsDecoded (cmd : List UInt8) (n : ℕ) (r : List ℕ × ℕ) : Prop :=
  r.1.length = n ∧ ∀ p ∈ r.1, ∃ s, stringAt cmd p = .ok s

/-- The loop does what it should exactly where there are arguments. -/
theorem msgDecodeArgs_sound_iff {cmd : List UInt8} {n offset : ℕ} :
    Post (msgDecodeArgs cmd n offset) (ArgsDecoded cmd n) ↔ AreArgs n (cmd.drop offset) := by
  induction n generalizing offset with
  | zero => exact iff_of_true (.ok ⟨rfl, nofun⟩) trivial
  | succ n ih =>
    constructor
    · rintro ⟨r, h, hr⟩
      simp only [msgDecodeArgs, bind_eq_ok, Prod.exists, check_eq_ok] at h
      obtain ⟨len, hload, -, hlen, ps, stop, hrest, ⟨⟩⟩ := h
      obtain ⟨-, bs, hbs⟩ := loadU32_eq_ok.mp hload
      obtain ⟨hcount, hstr⟩ := hr
      refine ⟨len, bs, hbs, hlen, ?_, ?_⟩
      · exact (exists_stringAt hbs).mp (hstr _ (List.mem_cons_self ..))
      · rw [← drop_field hbs]
        exact ih.mp ⟨_, hrest, Nat.succ.inj hcount, fun p hp =>
          hstr p (List.mem_cons_of_mem _ hp)⟩
    · rintro ⟨len, bs, hbs, hlen, hnul, hargs⟩
      have hload : loadU32 cmd offset = .ok len :=
        loadU32_eq_ok.mpr ⟨lt_of_le_of_lt hlen (by decide), bs, hbs⟩
      rw [← drop_field hbs] at hargs
      obtain ⟨⟨ps, stop⟩, hrest, hcount, hstr⟩ := ih.mpr hargs
      refine ⟨((offset + 4) :: ps, stop), ?_, by simpa using hcount, ?_⟩
      · simp only [msgDecodeArgs, hload, ok_bind, check_true hlen, hrest]
      · intro p hp
        rcases List.mem_cons.mp hp with rfl | hp
        · exact (exists_stringAt hbs).mpr hnul
        · exact hstr p hp

/-- **`msg_decode` does what it should** exactly on the requests: on these bytes it reads no others, fails
no assertion and gives back strings that end among them. -/
theorem msgDecode_sound_iff (cmd : List UInt8) :
    Post (msgDecode cmd) (Decodes cmd) ↔ IsRequest cmd := by
  constructor
  · rintro ⟨d, h, hd⟩
    simp only [msgDecode, bind_eq_ok, Prod.exists, check_eq_ok] at h
    obtain ⟨len, hload, -, hlen, argc, hcount, -, hargc, ps, stop, hargs, ⟨⟩⟩ := h
    obtain ⟨-, bs, hbs⟩ := loadU32_eq_ok.mp hload
    obtain ⟨-, args, hrest⟩ := loadU32_eq_ok.mp hcount
    refine ⟨len, bs, argc, args, hbs, hlen, ?_, hargc, ?_⟩
    · rw [← hrest]
      exact (drop_field hbs len).symm
    · have := msgDecodeArgs_sound_iff.mp ⟨_, hargs, hd.argv_length, hd.argv⟩
      rwa [← Nat.add_zero (4 + len + 4), drop_field hrest 0] at this
  · rintro ⟨len, bs, argc, args, rfl, hlen, hrest, hargc, hargs⟩
    have hlt : ∀ n, n ≤ commandMaxLen → n < 2 ^ 32 := fun n hn => lt_of_le_of_lt hn (by decide)
    have hbs : (le 4 len ++ bs).drop 0 = le 4 len ++ bs := rfl
    have hcnt : (le 4 len ++ bs).drop (4 + len) = le 4 argc ++ args := by
      rw [← hrest, ← drop_field hbs len, Nat.zero_add]
    have hload : loadU32 (le 4 len ++ bs) 0 = .ok len := loadU32_eq_ok.mpr ⟨hlt _ hlen, bs, hbs⟩
    have hcount : loadU32 (le 4 len ++ bs) (4 + len) = .ok argc :=
      loadU32_eq_ok.mpr ⟨hlt _ hargc, args, hcnt⟩
    have hdrop : (le 4 len ++ bs).drop (4 + len + 4) = args := by
      simpa using drop_field hcnt 0
    obtain ⟨⟨ps, stop⟩, hps, hlength, hstr⟩ :=
      msgDecodeArgs_sound_iff.mpr (hdrop.symm ▸ hargs)
    -- the count is small, so one of its bytes is the NUL that ends the sub-command
    have hnul : (0 : UInt8) ∈ bs := by
      refine List.mem_of_mem_drop (?_ : (0 : UInt8) ∈ bs.drop len)
      rw [hrest]
      exact List.mem_append_left _ (zero_mem_le4 hargc)
    refine ⟨⟨4, argc, ps, stop⟩, ?_, hargc, hlength, (exists_stringAt hbs).mpr hnul, hstr⟩
    simp only [msgDecode, hload, ok_bind, check_true hlen, hcount, check_true hargc, hps]

/-- A sub-command that claims 33 bytes is received, and ends the server. -/
theorem msgDecode_aborts :
    readRequest [] [33, 0, 0, 0, 13, 10] = .frame [33, 0, 0, 0, 13, 10] [] ∧
      msgDecode [33, 0, 0, 0, 13, 10] = .error .assertFail ∧
      ¬ Post (msgDecode [33, 0, 0, 0, 13, 10]) (Decodes [33, 0, 0, 0, 13, 10]) := by
  have h : msgDecode [33, 0, 0, 0, 13, 10] = .error .assertFail := rfl
  refine ⟨by decide, h, ?_⟩
  rintro ⟨d, hd, -⟩
  rw [h] at hd
  cases hd

end CcUtils.Cli
