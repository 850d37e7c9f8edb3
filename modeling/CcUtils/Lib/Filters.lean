import Mathlib.Data.List.Perm.Subperm
import Mathlib.Order.Lattice

/-!
# Lines through filters

A library for pipelines of text: `grep` for words that follow each other, `grep -B`, which prints some
lines before each match too, and the fields of `awk`. What `grep -B` prints between lines that are not
next to each other is `none` here.

## What is proved

* `grepMatch_cons` — what a pattern of words matches.
* `filter_grepBefore`, `kept_range'` — what a filter lets through of what `grep -B` prints.
* `awkField_one`, `awkField_two` — fields where a separator is.
* `splitOn_unlines` — lines that are written are read back.
* `take_eq_iff`, `zip3_eq_iff` — when lists in order begin with others, and are put together as they are.
-/

namespace CcUtils.Lib

/-! ### Patterns -/

/-- The text behind the first place where `w` is. -/
def after (w : List Char) : List Char → Option (List Char)
  | [] => if w = [] then some [] else none
  | c :: cs => if w <+: c :: cs then some ((c :: cs).drop w.length) else after w cs

/-- Whether a line matches the words, with `.*` between each of them and the next. -/
def grepMatch : List (List Char) → List Char → Bool
  | [], _ => true
  | w :: ws, line =>
    match after w line with
    | some rest => grepMatch ws rest
    | none => false

variable {w line rest pre : List Char} {ws : List (List Char)}

theorem after_sound (h : after w line = some rest) : ∃ pre, line = pre ++ (w ++ rest) := by
  induction line with
  | nil =>
    unfold after at h
    split at h
    · rename_i hw
      obtain rfl := Option.some.inj h
      exact ⟨[], by rw [hw]; rfl⟩
    · cases h
  | cons c cs ih =>
    unfold after at h
    split at h
    · rename_i hw
      obtain ⟨rest', hrest⟩ := hw
      rw [← hrest, List.drop_left] at h
      obtain rfl := Option.some.inj h
      exact ⟨[], hrest.symm⟩
    · obtain ⟨pre, rfl⟩ := ih h
      exact ⟨c :: pre, rfl⟩

/-- The first place is the one with the most behind it. -/
theorem after_first (h : line = pre ++ (w ++ rest)) :
    ∃ rest', after w line = some rest' ∧ rest <:+ rest' := by
  induction line generalizing pre with
  | nil =>
    obtain ⟨-, h⟩ := List.append_eq_nil_iff.mp h.symm
    obtain ⟨rfl, rfl⟩ := List.append_eq_nil_iff.mp h
    exact ⟨[], rfl, List.suffix_rfl⟩
  | cons c cs ih =>
    unfold after
    split
    · refine ⟨_, rfl, ?_⟩
      rw [h, ← List.append_assoc]
      have hrest : rest = (pre ++ w ++ rest).drop (pre ++ w).length := by rw [List.drop_left]
      nth_rewrite 1 [hrest]
      rw [List.length_append, Nat.add_comm, ← List.drop_drop]
      exact List.drop_suffix _ _
    · rename_i hw
      cases pre with
      | nil => exact absurd ⟨rest, h.symm⟩ hw
      | cons d pre => exact ih (List.cons.inj h).2

/-- What stands before a match does not matter. -/
theorem grepMatch_append (pre : List Char) (h : grepMatch ws line = true) :
    grepMatch ws (pre ++ line) = true := by
  induction ws generalizing line pre with
  | nil => rfl
  | cons w ws ih =>
    unfold grepMatch at h ⊢
    cases hafter : after w line with
    | none => simp [hafter] at h
    | some rest =>
      simp only [hafter] at h
      obtain ⟨pre', rfl⟩ := after_sound hafter
      obtain ⟨rest', hrest, more, rfl⟩ := after_first (List.append_assoc pre pre' (w ++ rest)).symm
      rw [hrest]
      exact ih more h

theorem grepMatch_cons : grepMatch (w :: ws) line = true ↔
    ∃ pre rest, line = pre ++ (w ++ rest) ∧ grepMatch ws rest = true := by
  constructor
  · intro h
    unfold grepMatch at h
    cases hafter : after w line with
    | none => simp [hafter] at h
    | some rest =>
      simp only [hafter] at h
      obtain ⟨pre, hline⟩ := after_sound hafter
      exact ⟨pre, rest, hline, h⟩
  · rintro ⟨pre, rest, hline, h⟩
    obtain ⟨rest', hrest, more, rfl⟩ := after_first hline
    unfold grepMatch
    rw [hrest]
    exact grepMatch_append more h

/-! ### Context -/

section context

variable {α β : Type}

/-- What `grep -B n` prints, where `started` says that something was printed before, and `sep` that the
line before the next was not printed then. -/
def grepBefore (n : ℕ) (p : α → Bool) (started sep : Bool) : List α → List (Option α)
  | [] => []
  | a :: as =>
    if ((a :: as).take (n + 1)).any p then
      (if sep then [none] else []) ++ some a :: grepBefore n p true false as
    else grepBefore n p started started as

/-- The lines of it. -/
def kept (n : ℕ) (p : α → Bool) : List α → List α
  | [] => []
  | a :: as => if ((a :: as).take (n + 1)).any p then a :: kept n p as else kept n p as

/-- A filter that does not let the separators through. -/
theorem filter_grepBefore {n : ℕ} {p : α → Bool} {q : Option α → Bool} (hq : q none = false)
    (started sep : Bool) (as : List α) :
    (grepBefore n p started sep as).filter q = ((kept n p as).filter (q ∘ some)).map some := by
  induction as generalizing started sep with
  | nil => rfl
  | cons a as ih =>
    unfold grepBefore kept
    split
    · have hsep : (if sep = true then [none] else []).filter q = [] := by cases sep <;> simp [hq]
      rw [List.filter_append, hsep, List.nil_append, List.filter_cons, List.filter_cons, ih]
      simp only [Function.comp_apply]
      split <;> rfl
    · exact ih _ _

/-- Lines under other names. -/
theorem grepBefore_map (f : β → α) (n : ℕ) (p : α → Bool) (started sep : Bool) (bs : List β) :
    grepBefore n p started sep (bs.map f) =
      (grepBefore n (p ∘ f) started sep bs).map (Option.map f) := by
  induction bs generalizing started sep with
  | nil => rfl
  | cons b bs ih =>
    have hany : (((b :: bs).map f).take (n + 1)).any p = ((b :: bs).take (n + 1)).any (p ∘ f) := by
      rw [← List.map_take, List.any_map]
    rw [List.map_cons] at hany ⊢
    unfold grepBefore
    rw [hany]
    split
    · rw [ih, List.map_append, List.map_cons]
      cases sep <;> rfl
    · exact ih _ _

/-- Which lines are printed, by their numbers. -/
theorem kept_range' {n k m : ℕ} {p : ℕ → Bool} (hp : ∀ i, k + m ≤ i → p i = false) :
    kept n p (List.range' k m) =
      (List.range' k m).filter fun i => (List.range' i (n + 1)).any p := by
  induction m generalizing k with
  | zero => rfl
  | succ m ih =>
    have htake : (List.range' k (m + 1)).take (n + 1) = List.range' k (min (n + 1) (m + 1)) := by
      rcases Nat.le_total (n + 1) (m + 1) with hle | hle
      · rw [Nat.min_eq_left hle, List.take_range'_of_length_ge hle]
      · rw [Nat.min_eq_right hle, List.take_range'_of_length_le hle]
    have hany : ((List.range' k (m + 1)).take (n + 1)).any p = (List.range' k (n + 1)).any p := by
      rw [Bool.eq_iff_iff, List.any_eq_true, List.any_eq_true, htake]
      constructor
      · rintro ⟨i, hi, hpi⟩
        rw [List.mem_range'_1] at hi
        exact ⟨i, List.mem_range'_1.mpr (by omega), hpi⟩
      · rintro ⟨i, hi, hpi⟩
        rw [List.mem_range'_1] at hi
        have hlt : i < k + (m + 1) := by
          by_contra hge
          rw [hp i (by omega)] at hpi
          cases hpi
        exact ⟨i, List.mem_range'_1.mpr (by omega), hpi⟩
    rw [List.range'_succ] at hany ⊢
    rw [kept, hany, ih fun i hi => hp i (by omega), List.filter_cons]

end context

/-! ### Fields and lines -/

/-- `awk -Fsep '{print $n}'` for a line. -/
def awkField (sep : Char) (n : ℕ) (line : List Char) : List Char := ((line.splitOn sep)[n - 1]?).getD []

/-- Lines, each with its end. -/
def unlines (lines : List (List Char)) : List Char := lines.flatMap (· ++ ['\n'])

theorem awkField_one {sep : Char} (h : sep ∉ pre) : awkField sep 1 (pre ++ sep :: rest) = pre := by
  rw [awkField, List.splitOn_append_cons_self_of_not_mem h]
  rfl

theorem awkField_two {sep : Char} (h : sep ∉ pre) (hrest : sep ∉ rest) :
    awkField sep 2 (pre ++ sep :: rest) = rest := by
  rw [awkField, List.splitOn_append_cons_self_of_not_mem h, List.splitOn_eq_singleton hrest]
  rfl

theorem mem_of_mem_splitOn {sep : Char} {field : List Char} (h : field ∈ line.splitOn sep) {c : Char}
    (hc : c ∈ field) : c ∈ line := by
  induction line generalizing field with
  | nil =>
    rw [List.splitOn_nil, List.mem_singleton] at h
    rwa [h] at hc
  | cons d line ih =>
    rw [List.splitOn_cons_eq_if_modifyHead] at h
    split at h
    · rcases List.mem_cons.mp h with rfl | h
      · cases hc
      · exact List.mem_cons_of_mem d (ih h hc)
    · obtain ⟨first, fields, hsplit⟩ := List.exists_cons_of_ne_nil (List.splitOn_ne_nil sep line)
      rw [hsplit, List.modifyHead_cons] at h
      rcases List.mem_cons.mp h with rfl | h
      · rcases List.mem_cons.mp hc with rfl | hc
        · exact List.mem_cons_self
        · exact List.mem_cons_of_mem d (ih (hsplit ▸ List.mem_cons_self) hc)
      · exact List.mem_cons_of_mem d (ih (hsplit ▸ List.mem_cons_of_mem first h) hc)

/-- A field is of characters of its line. -/
theorem mem_of_mem_awkField {sep : Char} {n : ℕ} {c : Char} (hc : c ∈ awkField sep n line) :
    c ∈ line := by
  unfold awkField at hc
  cases hfield : (line.splitOn sep)[n - 1]? with
  | none =>
    rw [hfield] at hc
    cases hc
  | some field =>
    rw [hfield] at hc
    exact mem_of_mem_splitOn (List.mem_of_getElem? hfield) hc

theorem splitOn_unlines {lines : List (List Char)} (h : ∀ line ∈ lines, '\n' ∉ line) :
    (unlines lines).splitOn '\n' = lines ++ [[]] := by
  induction lines with
  | nil => rfl
  | cons line lines ih =>
    obtain ⟨hline, hlines⟩ := List.forall_mem_cons.mp h
    have hcons : unlines (line :: lines) = line ++ '\n' :: unlines lines := by
      rw [unlines, List.flatMap_cons, List.append_assoc]
      rfl
    rw [hcons, List.splitOn_append_cons_self_of_not_mem hline, ih hlines]
    rfl

/-! ### Lists put together -/

section zip

variable {α β γ : Type} {m : ℕ}

/-- A list in order has as many items as a part of it only if it has no others. -/
theorem length_eq_iff {p l : List α} (hp : p.Nodup) (hl : l.Nodup) (hsub : l ⊆ p) :
    p.length = l.length ↔ ∀ s ∈ p, s ∈ l := by
  constructor
  · intro hlen s hs
    exact ((List.subperm_of_subset hl hsub).perm_of_length_le (Nat.le_of_eq hlen)).symm.subset hs
  · intro hall
    exact Nat.le_antisymm (List.subperm_of_subset hp hall).length_le
      (List.subperm_of_subset hl hsub).length_le

/-- It begins with the part if the others come after it. -/
theorem take_eq_iff [LinearOrder α] {p l : List α} (hp : p.Pairwise (· < ·)) (hl : l.Pairwise (· < ·))
    (hsub : l ⊆ p) : p.take l.length = l ↔ ∀ s ∈ p, s ∉ l → ∀ i ∈ l, i < s := by
  constructor
  · intro htake s hs hnot i hi
    rw [← List.take_append_drop l.length p, htake] at hs hp
    have hdrop := (List.mem_append.mp hs).resolve_left hnot
    exact (List.pairwise_append.mp hp).2.2 i hi s hdrop
  · intro hafter
    induction p generalizing l with
    | nil => rw [List.subset_nil.mp hsub, List.take_nil]
    | cons a p ih =>
      cases l with
      | nil => rfl
      | cons b l =>
        obtain ⟨ha, hp'⟩ := List.pairwise_cons.mp hp
        obtain ⟨hb, hl'⟩ := List.pairwise_cons.mp hl
        rcases List.mem_cons.mp (hsub List.mem_cons_self) with rfl | hmem
        · rw [List.length_cons, List.take_succ_cons, ih hp' hl']
          · intro i hi
            have hne := (hb i hi).ne'
            exact (List.mem_cons.mp (hsub (List.mem_cons_of_mem b hi))).resolve_left hne
          · intro s hs hnot i hi
            have hne := (ha s hs).ne'
            have hnot' : s ∉ b :: l := fun h => (List.mem_cons.mp h).elim hne hnot
            exact hafter s (List.mem_cons_of_mem b hs) hnot' i (List.mem_cons_of_mem b hi)
        · -- the first item is before the part, so it does not come after it
          have hlt := ha b hmem
          have hnot : a ∉ b :: l := by
            intro h
            rcases List.mem_cons.mp h with rfl | h
            · exact absurd hlt (lt_irrefl a)
            · exact absurd (hlt.trans (hb a h)) (lt_irrefl a)
          exact absurd (hlt.trans (hafter a List.mem_cons_self hnot b List.mem_cons_self)) (lt_irrefl a)

theorem zip_inj {a a' : List α} {b b' : List β} (h : a.length = b.length) (h' : a'.length = b'.length)
    (hzip : a.zip b = a'.zip b') : a = a' ∧ b = b' := by
  have hunzip := congrArg List.unzip hzip
  rw [List.unzip_zip h, List.unzip_zip h'] at hunzip
  exact Prod.mk.inj hunzip

theorem take_zip (m : ℕ) (a : List α) (b : List β) : (a.zip b).take m = (a.take m).zip (b.take m) := by
  unfold List.zip
  exact List.take_zipWith

/-- Three lists put together are as others that are as long as each other if they begin with these, and
one of them has no more. -/
theorem zip3_eq_iff {a a' : List α} {b b' : List β} {c c' : List γ} (ha : m ≤ a.length)
    (hb : m ≤ b.length) (hc : m ≤ c.length) (ha' : a'.length = m) (hb' : b'.length = m)
    (hc' : c'.length = m) : a.zip (b.zip c) = a'.zip (b'.zip c') ↔
      (a.take m = a' ∧ b.take m = b' ∧ c.take m = c') ∧
        (a.length = m ∨ b.length = m ∨ c.length = m) := by
  have hcut : (a.zip (b.zip c)).take m = (a.take m).zip ((b.take m).zip (c.take m)) := by
    rw [take_zip, take_zip]
  have hlen : (a'.zip (b'.zip c')).length = m := by
    rw [List.length_zip, List.length_zip]
    omega
  constructor
  · intro hzip
    have hmin : min a.length (min b.length c.length) = m := by
      rw [← hlen, ← hzip, List.length_zip, List.length_zip]
    have htake := congrArg (List.take m) hzip
    rw [hcut, List.take_of_length_le (Nat.le_of_eq hlen)] at htake
    have hin : ((b.take m).zip (c.take m)).length = m := by
      rw [List.length_zip, List.length_take_of_le hb, List.length_take_of_le hc, Nat.min_self]
    have hin' : (b'.zip c').length = m := by rw [List.length_zip, hb', hc', Nat.min_self]
    obtain ⟨htakea, hrest⟩ := zip_inj ((List.length_take_of_le ha).trans hin.symm)
      (ha'.trans hin'.symm) htake
    have hsame : (b.take m).length = (c.take m).length := by
      rw [List.length_take_of_le hb, List.length_take_of_le hc]
    obtain ⟨htakeb, htakec⟩ := zip_inj hsame (hb'.trans hc'.symm) hrest
    exact ⟨⟨htakea, htakeb, htakec⟩, by omega⟩
  · rintro ⟨⟨rfl, rfl, rfl⟩, hone⟩
    rw [← hcut, List.take_of_length_le]
    rw [List.length_zip, List.length_zip]
    omega

end zip

end CcUtils.Lib
