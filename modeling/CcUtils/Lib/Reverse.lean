import CcUtils.Lib.Rules

/-!
# Reversing a text in place

A library for the loop that swaps the bytes of a text in a buffer, the first with the last one and so on
inwards, until half of them have had their turn.

## What is proved

* `swapBytes_append` — one swap.
* `reverseBytes_append` — the loop reverses the text and leaves what is behind it.
-/

namespace CcUtils.Lib

/-- Swap the bytes at `a` and `b`. -/
def swapBytes (buf : List UInt8) (a b : ℕ) : Exec (List UInt8) := do
  let x ← load buf a 1
  let y ← load buf b 1
  let buf ← store buf a y
  store buf b x

/-- Swap the bytes of a text of `n` bytes, from both ends to the middle. -/
def reverseBytes (buf : List UInt8) (n : ℕ) : Exec (List UInt8) :=
  (List.range (n / 2)).foldlM (fun buf i => swapBytes buf i (n - 1 - i)) buf

theorem swapBytes_append (pre mid post : List UInt8) (x y : UInt8) {a b : ℕ} (ha : a = pre.length)
    (hb : b = pre.length + 1 + mid.length) :
    swapBytes (pre ++ ([x] ++ (mid ++ ([y] ++ post)))) a b =
      .ok (pre ++ ([y] ++ (mid ++ ([x] ++ post)))) := by
  have hsplit : ∀ z w : UInt8, pre ++ ([z] ++ (mid ++ ([w] ++ post))) =
      (pre ++ [z] ++ mid) ++ ([w] ++ post) := by simp
  have hlen : b = (pre ++ [y] ++ mid).length := by
    rw [hb]
    simp only [List.length_append, List.length_singleton]
  have hlen' : b = (pre ++ [x] ++ mid).length := by
    rw [hb]
    simp only [List.length_append, List.length_singleton]
  have hy : load (pre ++ ([x] ++ (mid ++ ([y] ++ post)))) b 1 = .ok [y] := by
    rw [hsplit]
    exact load_append _ _ _ hlen' rfl
  have hfirst : store (pre ++ ([x] ++ (mid ++ ([y] ++ post)))) a [y] =
      .ok (pre ++ ([y] ++ (mid ++ ([y] ++ post)))) := store_append ha rfl
  have hsecond : store (pre ++ ([y] ++ (mid ++ ([y] ++ post)))) b [x] =
      .ok (pre ++ ([y] ++ (mid ++ ([x] ++ post)))) := by
    rw [hsplit y y, hsplit y x]
    exact store_append hlen rfl
  have hx : load (pre ++ ([x] ++ (mid ++ ([y] ++ post)))) a 1 = .ok [x] := load_append _ _ _ ha rfl
  rw [swapBytes, hx, ok_bind, hy, ok_bind, hfirst, ok_bind, hsecond]

/-- The first and the last `k` bytes of the text are in their places, and the others as they were. -/
def Swapped (w post : List UInt8) (k : ℕ) (buf : List UInt8) : Prop :=
  ∃ pre mid last, w = pre ++ mid ++ last ∧ pre.length = k ∧ last.length = k ∧
    buf = last.reverse ++ (mid ++ (pre.reverse ++ post))

variable {w post buf : List UInt8} {k : ℕ}

/-- One turn of the loop. -/
theorem Swapped.turn (h : Swapped w post k buf) (hk : k < w.length / 2) :
    Post (swapBytes buf k (w.length - 1 - k)) (Swapped w post (k + 1)) := by
  obtain ⟨pre, mid, last, hw, hpre, hlast, rfl⟩ := h
  have hlen : w.length = k + mid.length + k := by
    rw [hw, List.length_append, List.length_append, hpre, hlast]
  obtain ⟨x, mid, rfl⟩ := List.exists_cons_of_length_pos (l := mid) (by omega)
  obtain ⟨mid, y, rfl⟩ := (List.eq_nil_or_concat mid).resolve_left fun hnil => by
    rw [hnil, List.length_singleton] at hlen
    omega
  rw [List.concat_eq_append] at hw hlen ⊢
  have hswap := swapBytes_append last.reverse mid (pre.reverse ++ post) x y (a := k)
    (b := w.length - 1 - k) (by rw [List.length_reverse, hlast]) ?_
  · refine ⟨_, ?_, pre ++ [x], mid, y :: last, ?_, ?_, ?_, rfl⟩
    · simpa using hswap
    · rw [hw]
      simp
    · rw [List.length_append, hpre]
      rfl
    · rw [List.length_cons, hlast]
  · rw [List.length_reverse, hlast, hlen]
    simp only [List.length_cons, List.length_append, List.length_nil]
    omega

/-- Half-way all is in its place. -/
theorem Swapped.half (h : Swapped w post (w.length / 2) buf) : buf = w.reverse ++ post := by
  obtain ⟨pre, mid, last, hw, hpre, hlast, rfl⟩ := h
  have hlen : w.length = w.length / 2 + mid.length + w.length / 2 := by
    conv_lhs => rw [hw, List.length_append, List.length_append, hpre, hlast]
  have hmid : mid.reverse = mid := by
    match mid with
    | [] => rfl
    | [x] => rfl
    | x :: y :: mid =>
      simp only [List.length_cons] at hlen
      omega
  conv_rhs => rw [hw, List.reverse_append, List.reverse_append, hmid]
  simp

/-- **The loop** reverses the text. -/
theorem reverseBytes_append (w post : List UInt8) :
    reverseBytes (w ++ post) w.length = .ok (w.reverse ++ post) := by
  have hstart : Swapped w post 0 (w ++ post) := ⟨[], w, [], by simp, rfl, rfl, rfl⟩
  obtain ⟨buf, hrun, hbuf⟩ := Post.forRange (fun k hk _ h => h.turn hk) hstart
  rw [reverseBytes, hrun, hbuf.half]

end CcUtils.Lib
