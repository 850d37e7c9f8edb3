import CcUtils.Lib.Blocks
import CcUtils.Lib.Chunks
import Mathlib.Data.List.Nodup

/-!
# The array of pointers

An array that is kept as rows of 1000 cells, the last one shorter, behind a table of pointers to them.

## What is proved

* `rowNum_eq`, `colNum_eq` — how many rows there are, and how long each is.
* `createPointArray_rep` — the rows that are created hold a flat array.
* `Rep.set`, `Rep.get` — an index leads to its cell of the flat array.
* `pointArray_flat` — so runs of calls do what they would do to the flat array.
-/

namespace CcUtils.Tools

open CcUtils.Lib

/-! ### The functions -/

/-- What a cell holds: a pointer to a block, or a number. -/
inductive Word where
  | ptr (b : ℕ)
  | num (w : UInt64)

/-- `max_col_num`. -/
def maxColNum : UInt32 := 8000 / 8

/-- `row_num`. -/
def rowNum (size : Int32) : UInt32 := (size.toUInt32 + maxColNum - 1) / maxColNum

/-- `colNum` of row `i`. -/
def colNum (size : Int32) (i : UInt32) : UInt32 :=
  if i = rowNum size - 1 then size.toUInt32 - maxColNum * i else maxColNum

/-- `malloc` of so many bytes, which hold junk. -/
def mallocWords (junk : ℕ → ℕ → UInt64) (h : Heap Word) (bytes : ℕ) : Heap Word × ℕ :=
  h.alloc ((List.range (bytes / 8)).map fun i => .num (junk h.next i))

/-- A turn of the loop of `create_point_array`. -/
def createRow (junk : ℕ → ℕ → UInt64) (size : Int32) (rowPtr : ℕ) (h : Heap Word) (i : ℕ) :
    Exec (Heap Word) :=
  let (h, row) := mallocWords junk h ((colNum size (UInt32.ofNat i)).toNat * 8)
  h.store rowPtr i (.ptr row)

/-- `create_point_array`. -/
def createPointArray (junk : ℕ → ℕ → UInt64) (h : Heap Word) (size : Int32) : Exec (Heap Word × ℕ) := do
  let (h, rowPtr) := mallocWords junk h ((rowNum size).toNat * 8)
  let h ← (List.range (rowNum size).toNat).foldlM (createRow junk size rowPtr) h
  return (h, rowPtr)

/-- The row that a pointer of the table points to. -/
def rowAt (h : Heap Word) (rowPtr i : ℕ) : Exec ℕ := do
  let row ← h.load rowPtr i
  match row with
  | .ptr b => return b
  | .num _ => .error .outOfBounds

/-- `free_point_array`. -/
def freePointArray (h : Heap Word) (ptr : ℕ) (size : Int32) : Exec (Heap Word) := do
  let h ← (List.range (rowNum size).toNat).foldlM (fun h i => rowAt h ptr i >>= h.free) h
  h.free ptr

/-- The cell `row_ptr[index / max_col_num][index % max_col_num]`. -/
def pointCell (h : Heap Word) (rowPtr : ℕ) (index : UInt32) : Exec (ℕ × ℕ) := do
  let row ← rowAt h rowPtr (index / maxColNum).toNat
  return (row, (index % maxColNum).toNat)

/-- `set_point_value`. -/
def setPointValue (h : Heap Word) (rowPtr : ℕ) (index : UInt32) (value : Word) : Exec (Heap Word) := do
  let cell ← pointCell h rowPtr index
  h.store cell.1 cell.2 value

/-- `get_point_value`. -/
def getPointValue (h : Heap Word) (rowPtr : ℕ) (index : UInt32) : Exec Word := do
  let cell ← pointCell h rowPtr index
  h.load cell.1 cell.2

/-! ### Runs -/

/-- A call. -/
inductive PointOp where
  | set (index : UInt32) (value : Word)
  | get (index : UInt32)

/-- The index of a call. -/
def PointOp.index : PointOp → UInt32
  | .set index _ => index
  | .get index => index

/-- A call, and what it returns. -/
def PointOp.exec (h : Heap Word) (rowPtr : ℕ) : PointOp → Exec (Heap Word × Option Word)
  | .set index value => do
    let h ← setPointValue h rowPtr index value
    return (h, none)
  | .get index => do
    let value ← getPointValue h rowPtr index
    return (h, some value)

/-- Calls one after the other. -/
def pointRun (h : Heap Word) (rowPtr : ℕ) : List PointOp → Exec (Heap Word × List (Option Word))
  | [] => .ok (h, [])
  | op :: ops => do
    let (h, ret) ← op.exec h rowPtr
    let (h, rets) ← pointRun h rowPtr ops
    return (h, ret :: rets)

/-- What a call does to a flat array. -/
def PointOp.flat (a : List Word) : PointOp → List Word
  | .set index value => a.set index.toNat value
  | .get _ => a

/-- What it returns for a flat array. -/
def PointOp.flatRet (a : List Word) : PointOp → Option Word
  | .set _ _ => none
  | .get index => a[index.toNat]?

/-- What calls return for a flat array. -/
def flatRets : List Word → List PointOp → List (Option Word)
  | _, [] => []
  | a, op :: ops => op.flatRet a :: flatRets (op.flat a) ops

/-! ### Rows and columns -/

section sizes

variable {size : Int32} (h0 : 0 ≤ size.toInt)
include h0

theorem size_toNat : size.toUInt32.toNat = size.toInt.toNat := by
  have h : 0 ≤ size := by
    rw [Int32.le_iff_toInt_le]
    exact h0
  rw [Int32.toNat_toInt]
  exact Int32.toNat_toUInt32_of_le h

theorem rowNum_eq : (rowNum size).toNat = (size.toInt.toNat + 999) / 1000 := by
  have hlt := size.toInt_lt
  have hsize := size_toNat h0
  have hcol : maxColNum.toNat = 1000 := rfl
  unfold rowNum
  rw [UInt32.toNat_div, UInt32.toNat_sub, UInt32.toNat_add, hsize, hcol, UInt32.toNat_one]
  omega

theorem colNum_eq {i : ℕ} (hi : i < (rowNum size).toNat) :
    (colNum size (UInt32.ofNat i)).toNat = min 1000 (size.toInt.toNat - 1000 * i) := by
  have hlt := size.toInt_lt
  have hsize := size_toNat h0
  have hcol : maxColNum.toNat = 1000 := rfl
  have hrow := rowNum_eq h0
  have hofNat : (UInt32.ofNat i).toNat = i := by
    rw [UInt32.toNat_ofNat']
    omega
  have hlast : (rowNum size - 1).toNat = (rowNum size).toNat - 1 := by
    rw [UInt32.toNat_sub, UInt32.toNat_one]
    omega
  unfold colNum
  split
  · rename_i h
    have hi := congrArg UInt32.toNat h
    rw [hofNat, hlast] at hi
    rw [UInt32.toNat_sub, UInt32.toNat_mul, hsize, hcol, hofNat]
    omega
  · rename_i h
    have hi : i ≠ (rowNum size).toNat - 1 := by
      rintro hi
      exact h (UInt32.toNat_inj.mp (by rw [hofNat, hlast, hi]))
    rw [hcol]
    omega

end sizes

/-! ### The rows of a flat array -/

/-- Besides what `h0` has, the heap has the table at `p`, with the pointers to the chunks of a flat array
and `rest` after them. -/
structure Rep (h0 h : Heap Word) (p : ℕ) (rows : List ℕ) (rest a : List Word) : Prop where
  table : h.block p = some (rows.map .ptr ++ rest)
  chunks : ∀ i b, rows[i]? = some b → h.block b = some (chunk 1000 i a)
  nodup : (p :: rows).Nodup
  new : ∀ b ∈ p :: rows, h0.block b = none
  frame : ∀ b, b ∉ p :: rows → h.block b = h0.block b

section rep

variable {h0 h : Heap Word} {p : ℕ} {rows : List ℕ} {rest a : List Word}

/-- The table is apart from the rows. -/
theorem Rep.table_ne (r : Rep h0 h p rows rest a) {i b : ℕ} (hb : rows[i]? = some b) : b ≠ p := by
  rintro rfl
  exact (List.nodup_cons.mp r.nodup).1 (List.mem_of_getElem? hb)

/-- The rows are apart from each other. -/
theorem Rep.row_inj (r : Rep h0 h p rows rest a) {i j b : ℕ} (hi : rows[i]? = some b)
    (hj : rows[j]? = some b) : i = j := by
  have hnodup := (List.nodup_cons.mp r.nodup).2
  obtain ⟨hlt, -⟩ := List.getElem?_eq_some_iff.mp hi
  exact (List.getElem?_inj hlt hnodup).mp (hi.trans hj.symm)

/-- A new block is none of them. -/
theorem Rep.next_notMem (r : Rep h0 h p rows rest a) : h.next ∉ p :: rows := by
  have hnone := h.block_next
  intro hmem
  rcases List.mem_cons.mp hmem with heq | hmem
  · rw [heq, r.table] at hnone
    cases hnone
  · obtain ⟨i, hi⟩ := List.mem_iff_getElem?.mp hmem
    rw [r.chunks i _ hi] at hnone
    cases hnone

/-- A table without rows. -/
theorem Rep.nil (h0 : Heap Word) (cells : List Word) :
    Rep h0 (h0.alloc cells).1 h0.next [] cells [] where
  table := by
    rw [Heap.block_alloc, Function.update_self]
    rfl
  chunks := nofun
  nodup := List.nodup_singleton _
  new := by
    intro b hb
    obtain rfl := List.mem_singleton.mp hb
    exact h0.block_next
  frame := by
    intro b hb
    rw [Heap.block_alloc, Function.update_of_ne (List.ne_of_not_mem_cons hb)]

/-- A row that is appended. -/
theorem Rep.append {x : Word} {cells : List Word} (r : Rep h0 h p rows (x :: rest) a)
    (ha : a.length = 1000 * rows.length) (hcells : cells.length ≤ 1000) :
    Post ((h.alloc cells).1.store p rows.length (.ptr h.next))
      fun h' => Rep h0 h' p (rows ++ [h.next]) rest (a ++ cells) := by
  have hnext := r.next_notMem
  obtain ⟨hp, hrows⟩ := List.ne_and_not_mem_of_not_mem_cons hnext
  have htable : (h.alloc cells).1.block p = some (rows.map .ptr ++ x :: rest) := by
    rw [Heap.block_alloc, Function.update_of_ne (Ne.symm hp), r.table]
  have hlt : rows.length < (rows.map Word.ptr ++ x :: rest).length := by
    rw [List.length_append, List.length_map, List.length_cons]
    omega
  refine (Heap.store_ok htable hlt _).mono fun h' hblock => ?_
  rw [Heap.block_alloc] at hblock
  constructor
  case table =>
    rw [hblock, Function.update_self, List.set_append_right _ _ (by rw [List.length_map])]
    simp
  case chunks =>
    intro i b hb
    rcases Nat.lt_trichotomy i rows.length with hi | rfl | hi
    · rw [List.getElem?_append_left hi] at hb
      have hne : b ≠ h.next := by
        rintro rfl
        exact hrows (List.mem_of_getElem? hb)
      rw [hblock, Function.update_of_ne (r.table_ne hb), Function.update_of_ne hne, r.chunks i b hb,
        chunk_append_ne]
      omega
    · obtain rfl : h.next = b := by simpa using hb
      rw [hblock, Function.update_of_ne hp, Function.update_self, chunk_append ha hcells]
    · rw [List.getElem?_eq_none] at hb
      · cases hb
      · rw [List.length_append, List.length_singleton]
        omega
  case nodup =>
    rw [← List.cons_append, List.nodup_append_comm]
    exact List.nodup_cons.mpr ⟨hnext, r.nodup⟩
  case new =>
    intro b hb
    rw [← List.cons_append, List.mem_append, List.mem_singleton] at hb
    rcases hb with hb | rfl
    · exact r.new b hb
    · rw [← r.frame _ hnext, h.block_next]
  case frame =>
    intro b hb
    rw [← List.cons_append, List.mem_append, List.mem_singleton, not_or] at hb
    obtain ⟨hb, hne⟩ := hb
    rw [hblock, Function.update_of_ne (List.ne_of_not_mem_cons hb), Function.update_of_ne hne, r.frame b hb]

/-- The row of a table that is full. -/
theorem rowAt_ok (htable : h.block p = some (rows.map .ptr ++ [])) {i b : ℕ}
    (hb : rows[i]? = some b) : rowAt h p i = .ok b := by
  have hptr : (rows.map Word.ptr ++ [])[i]? = some (.ptr b) := by
    rw [List.append_nil, List.getElem?_map, hb]
    rfl
  unfold rowAt
  rw [Heap.load_ok htable hptr, ok_bind]
  rfl

/-- What `rowAt` can be. -/
theorem Rep.of_rowAt (r : Rep h0 h p rows [] a) {i b : ℕ} (h : rowAt h p i = .ok b) :
    rows[i]? = some b := by
  cases hb : rows[i]? with
  | some c =>
    rw [rowAt_ok r.table hb] at h
    exact congrArg some (Except.ok.inj h)
  | none =>
    have hnone : (rows.map Word.ptr ++ [])[i]? = none := by
      rw [List.append_nil, List.getElem?_map, hb]
      rfl
    unfold rowAt Heap.load at h
    simp only [r.table, hnone] at h
    cases h

/-- The cell of an index is item `index % 1000` of row `index / 1000`. -/
theorem Rep.pointCell (r : Rep h0 h p rows [] a) {index : UInt32} {b : ℕ}
    (hb : rows[index.toNat / 1000]? = some b) :
    pointCell h p index = .ok (b, index.toNat % 1000) := by
  have hdiv : (index / maxColNum).toNat = index.toNat / 1000 := UInt32.toNat_div index maxColNum
  have hmod : (index % maxColNum).toNat = index.toNat % 1000 := UInt32.toNat_mod index maxColNum
  unfold CcUtils.Tools.pointCell
  rw [hdiv, hmod, rowAt_ok r.table hb, ok_bind]
  rfl

/-- No two indices have one cell. -/
theorem Rep.pointCell_inj (r : Rep h0 h p rows [] a) {i j : UInt32} {cell : ℕ × ℕ}
    (hi : CcUtils.Tools.pointCell h p i = .ok cell) (hj : CcUtils.Tools.pointCell h p j = .ok cell) :
    i = j := by
  obtain ⟨b, hb, hi⟩ := bind_eq_ok.mp hi
  obtain ⟨c, hc, hj⟩ := bind_eq_ok.mp hj
  obtain rfl := Except.ok.inj hi
  obtain ⟨rfl, hmod⟩ := Prod.mk.inj (Except.ok.inj hj)
  have hdiv := r.row_inj (r.of_rowAt hb) (r.of_rowAt hc)
  have hcol : maxColNum.toNat = 1000 := rfl
  rw [UInt32.toNat_div, UInt32.toNat_div, hcol] at hdiv
  rw [UInt32.toNat_mod, UInt32.toNat_mod, hcol] at hmod
  apply UInt32.toNat_inj.mp
  omega

end rep

/-! ### The calls -/

section calls

variable {h0 h : Heap Word} {p : ℕ} {rows : List ℕ} {a : List Word}

/-- Every index of the flat array has a row. -/
theorem exists_row (hrows : rows.length = (a.length + 999) / 1000) {index : UInt32}
    (hi : index.toNat < a.length) : ∃ b, rows[index.toNat / 1000]? = some b := by
  have hlt : index.toNat / 1000 < rows.length := by
    rw [hrows]
    omega
  exact ⟨_, List.getElem?_eq_getElem hlt⟩

theorem Rep.set (r : Rep h0 h p rows [] a) (hrows : rows.length = (a.length + 999) / 1000)
    {index : UInt32} (hi : index.toNat < a.length) (value : Word) :
    Post (setPointValue h p index value) fun h' => Rep h0 h' p rows [] (a.set index.toNat value) := by
  obtain ⟨b, hb⟩ := exists_row hrows hi
  have hsplit := Nat.div_add_mod index.toNat 1000
  have hmod : index.toNat % 1000 < 1000 := Nat.mod_lt _ (by decide)
  have hcol : index.toNat % 1000 < (chunk 1000 (index.toNat / 1000) a).length := by
    rw [length_chunk]
    omega
  unfold setPointValue
  rw [r.pointCell hb, ok_bind]
  refine (Heap.store_ok (r.chunks _ b hb) hcol value).mono fun h' hblock => ?_
  constructor
  case table => rw [hblock, Function.update_of_ne (r.table_ne hb).symm, r.table]
  case chunks =>
    intro i c hc
    rw [hblock]
    by_cases hi : i = index.toNat / 1000
    · subst hi
      obtain rfl := Option.some.inj (hb.symm.trans hc)
      rw [Function.update_self, chunk_set (by decide)]
    · have hne : c ≠ b := by
        rintro rfl
        exact hi (r.row_inj hc hb)
      rw [Function.update_of_ne hne, r.chunks i c hc, chunk_set_ne (by decide) hi]
  case nodup => exact r.nodup
  case new => exact r.new
  case frame =>
    intro c hc
    have hne : c ≠ b := by
      rintro rfl
      exact hc (List.mem_cons_of_mem p (List.mem_of_getElem? hb))
    rw [hblock, Function.update_of_ne hne, r.frame c hc]

theorem Rep.get (r : Rep h0 h p rows [] a) (hrows : rows.length = (a.length + 999) / 1000)
    {index : UInt32} (hi : index.toNat < a.length) :
    Post (getPointValue h p index) fun value => a[index.toNat]? = some value := by
  obtain ⟨b, hb⟩ := exists_row hrows hi
  have hget := List.getElem?_eq_getElem hi
  have hcell := getElem?_chunk_div (a := a) (n := 1000) (j := index.toNat) (by decide)
  unfold getPointValue
  rw [r.pointCell hb, ok_bind, Heap.load_ok (r.chunks _ b hb) (hcell.trans hget)]
  exact Post.ok hget

theorem PointOp.length_flat (op : PointOp) (a : List Word) : (op.flat a).length = a.length := by
  cases op with
  | set index value => exact List.length_set
  | get index => rfl

/-- A call does what it would do to the flat array. -/
theorem Rep.exec (r : Rep h0 h p rows [] a) (hrows : rows.length = (a.length + 999) / 1000)
    {op : PointOp} (hi : op.index.toNat < a.length) :
    Post (op.exec h p) fun u => Rep h0 u.1 p rows [] (op.flat a) ∧ u.2 = op.flatRet a := by
  cases op with
  | set index value =>
    unfold PointOp.exec
    exact (r.set hrows hi value).bind fun h' hr => Post.pure ⟨hr, rfl⟩
  | get index =>
    unfold PointOp.exec
    exact (r.get hrows hi).bind fun value hvalue => Post.pure ⟨r, hvalue.symm⟩

/-- So do calls, one after the other. -/
theorem Rep.run (r : Rep h0 h p rows [] a) (hrows : rows.length = (a.length + 999) / 1000)
    {ops : List PointOp} (hi : ∀ op ∈ ops, op.index.toNat < a.length) :
    Post (pointRun h p ops) fun v => v.2 = flatRets a ops ∧ ∃ a', Rep h0 v.1 p rows [] a' := by
  induction ops generalizing h a with
  | nil => exact Post.ok ⟨rfl, a, r⟩
  | cons op ops ih =>
    unfold pointRun
    refine (r.exec hrows (hi op List.mem_cons_self)).bind ?_
    rintro ⟨h, ret⟩ ⟨hr, rfl⟩
    have hlength := op.length_flat a
    rw [← hlength] at hrows
    have hrest : ∀ op' ∈ ops, op'.index.toNat < (op.flat a).length := by
      intro op' hop
      rw [hlength]
      exact hi op' (List.mem_cons_of_mem op hop)
    refine (ih hr hrows hrest).bind ?_
    rintro ⟨h, rets⟩ ⟨rfl, hrep⟩
    exact Post.pure ⟨rfl, hrep⟩

end calls

/-! ### The beginning and the end -/

/-- After `i` turns of the loop of `create_point_array`, `i` rows have their cells. -/
structure Created (h0 : Heap Word) (p : ℕ) (size : Int32) (i : ℕ) (h : Heap Word) (rows : List ℕ)
    (rest a : List Word) : Prop where
  rep : Rep h0 h p rows rest a
  rows : rows.length = i
  rest : rest.length = (rowNum size).toNat - i
  cells : a.length = min (1000 * i) size.toInt.toNat

theorem mallocWords_length (junk : ℕ → ℕ → UInt64) (h : Heap Word) (n : ℕ) :
    ∃ cells : List Word, cells.length = n ∧ mallocWords junk h (n * 8) = h.alloc cells := by
  refine ⟨_, ?_, rfl⟩
  rw [List.length_map, List.length_range]
  exact Nat.mul_div_cancel n (by decide)

theorem Created.turn {junk : ℕ → ℕ → UInt64} {h0 h : Heap Word} {p i : ℕ} {size : Int32}
    {rows : List ℕ} {rest a : List Word} (hsize : 0 ≤ size.toInt) (hi : i < (rowNum size).toNat)
    (c : Created h0 p size i h rows rest a) :
    Post (createRow junk size p h i) fun h' =>
      ∃ rows rest a, Created h0 p size (i + 1) h' rows rest a := by
  have hrowNum := rowNum_eq hsize
  have hrest := c.rest
  obtain ⟨x, rest, rfl⟩ : ∃ x rest', rest = x :: rest' := by
    apply List.exists_cons_of_length_pos
    omega
  obtain ⟨cells, hcells, hmalloc⟩ := mallocWords_length junk h (colNum size (UInt32.ofNat i)).toNat
  rw [colNum_eq hsize hi] at hcells
  have ha := c.cells
  -- the rows before are full, since this one has an item
  have hfull : a.length = 1000 * rows.length := by
    rw [c.rows]
    omega
  have hshort : cells.length ≤ 1000 := by omega
  unfold createRow
  rw [hmalloc]
  have happend := c.rep.append hfull hshort
  rw [c.rows] at happend
  refine happend.mono fun h' hr => ⟨_, _, _, hr, ?_, ?_, ?_⟩
  · rw [List.length_append, c.rows, List.length_singleton]
  · rw [List.length_cons] at hrest
    omega
  · rw [List.length_append, hcells]
    omega

theorem createPointArray_rep (junk : ℕ → ℕ → UInt64) (h0 : Heap Word) {size : Int32}
    (hsize : 0 ≤ size.toInt) :
    Post (createPointArray junk h0 size) fun u =>
      ∃ rows a, Created h0 u.2 size (rowNum size).toNat u.1 rows [] a := by
  obtain ⟨table, htable, hmalloc⟩ := mallocWords_length junk h0 (rowNum size).toNat
  have hstart : Created h0 h0.next size 0 (h0.alloc table).1 [] table [] :=
    ⟨Rep.nil h0 table, rfl, htable, rfl⟩
  unfold createPointArray
  rw [hmalloc]
  have hloop := Post.forRange (f := createRow junk size h0.next) (n := (rowNum size).toNat)
    (R := fun i h => ∃ rows rest a, Created h0 h0.next size i h rows rest a)
    (fun i hi h ⟨_, _, _, c⟩ => c.turn hsize hi) ⟨_, _, _, hstart⟩
  refine hloop.bind ?_
  rintro h ⟨rows, rest, a, c⟩
  have hnil : rest = [] := by
    rw [← List.length_eq_zero_iff, c.rest, Nat.sub_self]
  subst hnil
  exact Post.pure ⟨rows, a, c⟩

/-- After `i` turns of the loop of `free_point_array`, `i` rows are gone, and nothing else. -/
def Freed (h : Heap Word) (rows : List ℕ) (i : ℕ) (h' : Heap Word) : Prop :=
  ∀ b, h'.block b = if b ∈ rows.take i then none else h.block b

section free

variable {h0 h h' : Heap Word} {p i : ℕ} {rows : List ℕ} {a : List Word}

/-- The table is still there. -/
theorem Freed.table (r : Rep h0 h p rows [] a) (f : Freed h rows i h') :
    h'.block p = some (rows.map .ptr ++ []) := by
  have hp : p ∉ rows.take i := fun hmem => (List.nodup_cons.mp r.nodup).1 (List.mem_of_mem_take hmem)
  rw [f, if_neg hp, r.table]

theorem Freed.turn (r : Rep h0 h p rows [] a) (hi : i < rows.length) (f : Freed h rows i h') :
    Post (rowAt h' p i >>= h'.free) (Freed h rows (i + 1)) := by
  have hb := List.getElem?_eq_getElem hi
  have hnew : rows[i] ∉ rows.take i := by
    intro hmem
    obtain ⟨j, hj⟩ := List.mem_iff_getElem?.mp hmem
    rw [List.getElem?_take] at hj
    split at hj
    · rename_i hlt
      have heq := r.row_inj hj hb
      omega
    · cases hj
  have hrow : h'.block rows[i] = some (chunk 1000 i a) := by
    rw [f, if_neg hnew, r.chunks i _ hb]
  rw [rowAt_ok (f.table r) hb, ok_bind]
  refine (Heap.free_ok hrow).mono fun h'' hfree b => ?_
  simp only [hfree, List.take_add_one, hb, Option.toList_some, List.mem_append, List.mem_singleton]
  by_cases heq : b = rows[i]
  · subst heq
    rw [Function.update_self, if_pos (Or.inr rfl)]
  · rw [Function.update_of_ne heq, f]
    simp only [heq, or_false]

/-- `free_point_array` frees the rows and the table. -/
theorem Rep.free {size : Int32} (r : Rep h0 h p rows [] a) (hrows : rows.length = (rowNum size).toNat) :
    Post (freePointArray h p size) fun h' => h'.block = h0.block := by
  have hstart : Freed h rows 0 h := fun b => by simp
  unfold freePointArray
  rw [← hrows]
  refine (Post.forRange (fun i hi h' f => Freed.turn r hi f) hstart).bind fun h' f => ?_
  refine (Heap.free_ok (f.table r)).mono fun h'' hfree => funext fun b => ?_
  rw [hfree]
  by_cases hb : b = p
  · subst hb
    rw [Function.update_self, r.new b List.mem_cons_self]
  · rw [Function.update_of_ne hb, f, List.take_length]
    split
    · rename_i hmem
      rw [r.new b (List.mem_cons_of_mem p hmem)]
    · rename_i hmem
      exact r.frame b (by simp [hb, hmem])

end free

/-- Whatever calls there are with indices below `size`, they do what they would do to a flat array of
`size` items, no two indices have one cell, and the rows are freed at the end. -/
theorem pointArray_flat (junk : ℕ → ℕ → UInt64) (h : Heap Word) (size : Int32) (h0 : 0 ≤ size.toInt) :
    Post (createPointArray junk h size) fun u => ∃ a : List Word, a.length = size.toInt.toNat ∧
      ∀ ops : List PointOp, (∀ op ∈ ops, op.index.toNat < size.toInt.toNat) →
        Post (pointRun u.1 u.2 ops) fun v => v.2 = flatRets a ops ∧
          (∀ i j cell, pointCell v.1 u.2 i = .ok cell → pointCell v.1 u.2 j = .ok cell → i = j) ∧
          Post (freePointArray v.1 u.2 size) fun h' => h'.block = h.block := by
  have hrowNum := rowNum_eq h0
  refine (createPointArray_rep junk h h0).mono ?_
  rintro ⟨h', p⟩ ⟨rows, a, c⟩
  have ha : a.length = size.toInt.toNat := by
    have hcells := c.cells
    omega
  have hrows : rows.length = (a.length + 999) / 1000 := by
    rw [c.rows, hrowNum, ha]
  refine ⟨a, ha, fun ops hops => ?_⟩
  rw [← ha] at hops
  refine (c.rep.run hrows hops).mono ?_
  rintro ⟨h'', rets⟩ ⟨rfl, a', r⟩
  exact ⟨rfl, fun i j cell hi hj => r.pointCell_inj hi hj, r.free c.rows⟩

/-- An item of the last row, which has 500. -/
theorem pointArray_1500 :
    Post (createPointArray (fun _ _ => 0) Heap.empty 1500) fun u =>
      Post (pointRun u.1 u.2 [.set 1234 (.num 7), .set 234 (.num 8), .get 1234]) fun v =>
        v.2 = [none, none, some (.num 7)] := by
  refine (pointArray_flat (fun _ _ => 0) Heap.empty 1500 (by decide)).mono ?_
  rintro u ⟨a, ha, hrun⟩
  have hlt : 1234 < a.length := by
    rw [ha]
    decide
  refine (hrun _ (by decide)).mono ?_
  rintro v ⟨hret, -⟩
  rw [hret]
  simp [flatRets, PointOp.flat, PointOp.flatRet, hlt]

end CcUtils.Tools
