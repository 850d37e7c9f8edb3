import CcUtils.Lib.Writes

/-!
# `json_object_helper`

A table of descriptors says which item of a JSON object goes to which field of a struct. The loop over the
table looks an item up and fills its field before it comes to the next descriptor. So where a key that must
be there is missing, the fields before it have been written; and where one that need not be there is, the
item is read through NULL.

How cJSON finds an item is left to the object, and how it codes a floating-point number to `Floats`.

## What is proved

* `jsonLoop_eq` — the loop fills the fields before the first key that must be there and is missing.
* `jsonFill_iff` — when that succeeds.
* `jsonAtomic_iff` — so when the call leaves the struct alone if it fails.
-/

namespace CcUtils.Tools

open CcUtils.Lib

/-! ### The data -/

/-- `cJSON`: what is read of an item. -/
structure CJson where
  valueint : Int32
  valuedouble : ℚ
  valuestring : Option CString

/-- A JSON value, and what `cJSON_GetObjectItem` finds in it. -/
structure JsonObject where
  isObject : Bool
  getObjectItem : CString → Option CJson

/-- `json2struct_t`. -/
structure Json2Struct where
  name : CString
  type : UInt8
  offset : UInt32
  length : UInt32
  must : Bool

/-- The bits of the `float` and of the `double` of a number. -/
structure Floats where
  float : ℚ → BitVec 32
  double : ℚ → BitVec 64

/-- `CH_TYPE_INT`. -/
def chTypeInt : UInt8 := 1

/-- `CH_TYPE_FLOAT`. -/
def chTypeFloat : UInt8 := 2

/-- `CH_TYPE_STRING`. -/
def chTypeString : UInt8 := 3

/-! ### The function -/

/-- What a pointer points to. -/
def deref {α : Type} (p : Option α) : Exec α :=
  match p with
  | some a => .ok a
  | none => .error .nullDeref

/-- How many bytes are written for an integer. -/
def intWidth (length : UInt32) : ℕ :=
  if length = 1 then 1 else if length = 2 then 2 else if length = 4 then 4 else 8

/-- The bytes of an integer: its low ones, or more with its sign. -/
def intBytes (length : UInt32) (valueint : Int32) : List UInt8 :=
  le (intWidth length) (valueint.toInt % 2 ^ (8 * intWidth length)).toNat

/-- The bytes of a floating-point number. -/
def floatBytes (F : Floats) (length : UInt32) (valuedouble : ℚ) : List UInt8 :=
  if length = 4 then leBv 4 (F.float valuedouble) else leBv 8 (F.double valuedouble)

/-- The `switch` of the loop: the write of `item` to the field of the descriptor. -/
def jsonWrite (F : Floats) (mem : List UInt8) (d : Json2Struct) (item : Option CJson) :
    Exec (List UInt8) :=
  if d.type = chTypeInt then do
    let item ← deref item
    store mem d.offset.toNat (intBytes d.length item.valueint)
  else if d.type = chTypeFloat then do
    let item ← deref item
    store mem d.offset.toNat (floatBytes F d.length item.valuedouble)
  else if d.type = chTypeString then do
    let item ← deref item
    let valuestring ← deref item.valuestring
    store mem d.offset.toNat (strncpy [] valuestring d.length.toNat)
  else .ok mem

/-- The descriptor's key must be there, and is not. -/
def Missing (obj : JsonObject) (d : Json2Struct) : Prop := obj.getObjectItem d.name = none ∧ d.must = true

instance (obj : JsonObject) (d : Json2Struct) : Decidable (Missing obj d) :=
  inferInstanceAs (Decidable (_ = none ∧ _))

/-- The loop over the table. -/
def jsonLoop (F : Floats) (obj : JsonObject) : List Json2Struct → List UInt8 → Exec (List UInt8 × ℤ)
  | [], mem => .ok (mem, 0)
  | d :: ds, mem =>
    if Missing obj d then .ok (mem, -2)
    else do
      let mem ← jsonWrite F mem d (obj.getObjectItem d.name)
      jsonLoop F obj ds mem

/-- `json_object_helper`: the struct after it, and what it returns. -/
def jsonObjectHelper (F : Floats) (mem : List UInt8) (obj : JsonObject) (table : List Json2Struct) :
    Exec (List UInt8 × ℤ) := do
  check (obj.isObject = true) .assertFail
  jsonLoop F obj table mem

/-! ### What it is given -/

/-- The item is a number as cJSON holds one: `valueint` is cut to the range of `int`. -/
def CJson.Number (item : CJson) : Prop :=
  item.valueint.toInt = max (-2 ^ 31) (min (2 ^ 31 - 1) (item.valuedouble.num.tdiv item.valuedouble.den))

/-- The item is of the descriptor's kind. -/
structure CJson.OfKind (item : CJson) (d : Json2Struct) : Prop where
  number : d.type = chTypeInt ∨ d.type = chTypeFloat → item.Number
  string : d.type = chTypeString → item.valuestring ≠ none

/-- So are all items that the table finds. -/
def Kinds (obj : JsonObject) (table : List Json2Struct) : Prop :=
  ∀ d ∈ table, ∀ item, obj.getObjectItem d.name = some item → item.OfKind d

/-- The descriptor has one of the types that are written. -/
def Json2Struct.Known (d : Json2Struct) : Prop :=
  d.type = chTypeInt ∨ d.type = chTypeFloat ∨ d.type = chTypeString

/-- What is written for an item. -/
def Json2Struct.writes (F : Floats) (d : Json2Struct) (item : CJson) : List Write :=
  if d.type = chTypeInt then [(d.offset.toNat, intBytes d.length item.valueint)]
  else if d.type = chTypeFloat then [(d.offset.toNat, floatBytes F d.length item.valuedouble)]
  else if d.type = chTypeString then
    (item.valuestring.map fun s => (d.offset.toNat, strncpy [] s d.length.toNat)).toList
  else []

/-- What is written for the items that the table finds. -/
def writesOf (F : Floats) (obj : JsonObject) (table : List Json2Struct) : List Write :=
  table.flatMap fun d => (obj.getObjectItem d.name).elim [] (d.writes F)

/-- The descriptors before the first one whose key must be there and is missing. -/
def before (obj : JsonObject) (table : List Json2Struct) : List Json2Struct :=
  table.takeWhile fun d => ¬ Missing obj d

/-- The call returns -2 exactly when a key that must be there is missing, and leaves the struct as it was
when it does. -/
structure Atomic (F : Floats) (mem : List UInt8) (obj : JsonObject) (table : List Json2Struct) :
    Prop where
  missing : (∃ mem', jsonObjectHelper F mem obj table = .ok (mem', -2)) ↔ ∃ d ∈ table, Missing obj d
  same : ∀ mem', jsonObjectHelper F mem obj table = .ok (mem', -2) → mem' = mem

/-- Up to the first missing key that must be there, no item is read through NULL, no field lies outside
the struct, and the bytes that are written last are those that are there. -/
structure Harmless (F : Floats) (mem : List UInt8) (obj : JsonObject) (table : List Json2Struct) :
    Prop where
  present : ∀ d ∈ before obj table, d.Known → obj.getObjectItem d.name ≠ none
  inside : ∀ w ∈ writesOf F obj (before obj table), Fits mem.length w
  same : ∀ j b, lastByte (writesOf F obj (before obj table)) j = some b → mem[j]? = some b

/-! ### One field -/

variable {F : Floats} {obj : JsonObject} {d : Json2Struct} {ds table : List Json2Struct}
  {mem mem' : List UInt8} {item : CJson}

theorem jsonWrite_item (h : item.OfKind d) :
    jsonWrite F mem d (some item) = storeAll mem (d.writes F item) := by
  have hone : ∀ w : Write, storeAll mem [w] = store mem w.1 w.2 := by
    intro w
    rw [storeAll]
    cases store mem w.1 w.2 <;> rfl
  rw [jsonWrite, Json2Struct.writes]
  split
  · rw [hone]
    rfl
  split
  · rw [hone]
    rfl
  split
  · rename_i hstring
    obtain ⟨s, hs⟩ := Option.ne_none_iff_exists'.mp (h.string hstring)
    simp only [deref, ok_bind, hs, Option.map_some, Option.toList_some]
    rw [hone]
  · rfl

theorem jsonWrite_absent (h : d.Known) : jsonWrite F mem d none = .error .nullDeref := by
  rw [jsonWrite]
  split
  · rfl
  split
  · rfl
  split
  · rfl
  · rename_i hint hfloat hstring
    rcases h with h | h | h <;> contradiction

theorem jsonWrite_unknown (h : ¬ d.Known) (item : Option CJson) : jsonWrite F mem d item = .ok mem := by
  simp only [Json2Struct.Known, not_or] at h
  rw [jsonWrite, if_neg h.1, if_neg h.2.1, if_neg h.2.2]

/-! ### The loop -/

/-- The writes of the loop alone. -/
def jsonFill (F : Floats) (obj : JsonObject) (ds : List Json2Struct) (mem : List UInt8) :
    Exec (List UInt8) :=
  ds.foldlM (fun mem d => jsonWrite F mem d (obj.getObjectItem d.name)) mem

/-- **The fields are filled** exactly when all items that are read are there, and all fields inside. -/
theorem jsonFill_iff (hkinds : Kinds obj ds) :
    jsonFill F obj ds mem = .ok mem' ↔
      (∀ d ∈ ds, d.Known → obj.getObjectItem d.name ≠ none) ∧
        storeAll mem (writesOf F obj ds) = .ok mem' := by
  induction ds generalizing mem with
  | nil => simp [jsonFill, writesOf, storeAll, pure, Except.pure]
  | cons d ds ih =>
    have hsub : Kinds obj ds := fun e he => hkinds e (List.mem_cons_of_mem d he)
    rw [jsonFill, List.foldlM_cons, List.forall_mem_cons, writesOf, List.flatMap_cons,
      storeAll_append]
    cases hitem : obj.getObjectItem d.name with
    | some item =>
      have hkind := hkinds d (List.mem_cons_self ..) item hitem
      rw [jsonWrite_item hkind, Option.elim_some, bind_eq_ok, bind_eq_ok]
      constructor
      · rintro ⟨m, hm, hfill⟩
        obtain ⟨hpresent, hstores⟩ := (ih hsub).mp hfill
        exact ⟨⟨fun _ h => (by cases h), hpresent⟩, m, hm, hstores⟩
      · rintro ⟨⟨-, hpresent⟩, m, hm, hstores⟩
        exact ⟨m, hm, (ih hsub).mpr ⟨hpresent, hstores⟩⟩
    | none =>
      by_cases hknown : d.Known
      · rw [jsonWrite_absent hknown]
        exact iff_of_false (fun h => by cases h) fun h => h.1.1 hknown rfl
      · rw [jsonWrite_unknown hknown, Option.elim_none, ok_bind, storeAll, ok_bind,
          and_iff_right fun h => absurd h hknown]
        exact ih hsub

/-- **The loop** fills the fields before the first missing key that must be there. -/
theorem jsonLoop_eq :
    jsonLoop F obj ds mem = do
      let mem' ← jsonFill F obj (before obj ds) mem
      return (mem', if ∃ d ∈ ds, Missing obj d then -2 else 0) := by
  induction ds generalizing mem with
  | nil =>
    have hnone : ¬ ∃ d ∈ ([] : List Json2Struct), Missing obj d := by simp
    rw [if_neg hnone]
    rfl
  | cons d ds ih =>
    rw [jsonLoop, before]
    by_cases hmissing : Missing obj d
    · rw [if_pos hmissing, List.takeWhile_cons_of_neg (by simpa using hmissing),
        if_pos ⟨d, List.mem_cons_self .., hmissing⟩]
      rfl
    · have hexists : (∃ e ∈ d :: ds, Missing obj e) ↔ ∃ e ∈ ds, Missing obj e := by
        simp [hmissing]
      rw [if_neg hmissing, List.takeWhile_cons_of_pos (by simpa using hmissing), jsonFill,
        List.foldlM_cons, bind_assoc]
      simp only [hexists]
      exact bind_congr fun m => ih

theorem before_subset : ∀ d ∈ before obj table, d ∈ table := fun _ hd =>
  (List.takeWhile_prefix _).subset hd

/-- **The call leaves the struct alone if it fails** exactly when no key that must be there is missing, or
what it writes before it finds out changes nothing. -/
theorem jsonAtomic_iff (hobj : obj.isObject = true) (hkinds : Kinds obj table) :
    Atomic F mem obj table ↔ ((∃ d ∈ table, Missing obj d) → Harmless F mem obj table) := by
  have hcall : jsonObjectHelper F mem obj table = jsonLoop F obj table mem := by
    rw [jsonObjectHelper, check_true hobj]
    rfl
  have hkinds' : Kinds obj (before obj table) := fun d hd => hkinds d (before_subset d hd)
  have hfill : jsonFill F obj (before obj table) mem = .ok mem ↔ _ := jsonFill_iff hkinds'
  rw [storeAll_same] at hfill
  by_cases hmissing : ∃ d ∈ table, Missing obj d
  · have hret : ∀ mem', jsonObjectHelper F mem obj table = .ok (mem', -2) ↔
        jsonFill F obj (before obj table) mem = .ok mem' := by
      intro mem'
      rw [hcall, jsonLoop_eq, if_pos hmissing, bind_eq_ok]
      constructor
      · rintro ⟨m, hm, he⟩
        cases he
        exact hm
      · exact fun hm => ⟨mem', hm, rfl⟩
    rw [forall_prop_of_true hmissing]
    constructor
    · rintro ⟨hiff, hsame⟩
      obtain ⟨mem', hrun⟩ := hiff.mpr hmissing
      obtain rfl := hsame mem' hrun
      obtain ⟨hpresent, hfits, hbytes⟩ := hfill.mp ((hret mem').mp hrun)
      exact ⟨hpresent, hfits, hbytes⟩
    · rintro ⟨hpresent, hfits, hbytes⟩
      have hrun := hfill.mpr ⟨hpresent, hfits, hbytes⟩
      refine ⟨iff_of_true ⟨mem, (hret mem).mpr hrun⟩ hmissing, fun mem' h => ?_⟩
      exact Except.ok.inj (((hret mem').mp h).symm.trans hrun)
  · refine iff_of_true ?_ fun h => absurd h hmissing
    have hnever : ∀ mem', jsonObjectHelper F mem obj table ≠ .ok (mem', -2) := by
      intro mem' h
      rw [hcall, jsonLoop_eq, if_neg hmissing] at h
      obtain ⟨m, -, he⟩ := bind_eq_ok.mp h
      cases he
    exact ⟨iff_of_false (fun ⟨mem', h⟩ => hnever mem' h) hmissing, fun mem' h => absurd h (hnever mem')⟩

/-- The key `a`, with the number 7. -/
def sevenObject : JsonObject where
  isObject := true
  getObjectItem name := if name = ⟨[97], nul_notMem_a⟩ then some ⟨7, 7, none⟩ else none

/-- Two bytes, for the keys `a` and `b`. -/
def byteTable : List Json2Struct :=
  [⟨⟨[97], nul_notMem_a⟩, chTypeInt, 0, 1, true⟩, ⟨⟨[98], by decide⟩, chTypeInt, 1, 1, true⟩]

theorem seven_kinds : Kinds sevenObject byteTable := by
  intro d hd item hitem
  have hint : d.type = chTypeInt := by
    simp only [byteTable, List.mem_cons, List.not_mem_nil, or_false] at hd
    rcases hd with rfl | rfl <;> rfl
  have hitem : item = ⟨7, 7, none⟩ := by
    simp only [sevenObject] at hitem
    split at hitem
    · exact (Option.some.inj hitem).symm
    · cases hitem
  subst hitem
  refine ⟨fun _ => rfl, fun h => ?_⟩
  rw [hint] at h
  cases h

theorem jsonAtomic_iff_seven :
    Atomic ⟨fun _ => 0, fun _ => 0⟩ [0, 0] sevenObject byteTable ↔
      ((∃ d ∈ byteTable, Missing sevenObject d) →
        Harmless ⟨fun _ => 0, fun _ => 0⟩ [0, 0] sevenObject byteTable) :=
  jsonAtomic_iff rfl seven_kinds

/-- The key `b` is missing, and the byte for `a` is written. -/
theorem jsonAtomic_seven :
    Kinds sevenObject byteTable ∧ ¬ Atomic ⟨fun _ => 0, fun _ => 0⟩ [0, 0] sevenObject byteTable := by
  refine ⟨seven_kinds, fun h => ?_⟩
  have hrun : jsonObjectHelper ⟨fun _ => 0, fun _ => 0⟩ [0, 0] sevenObject byteTable =
      .ok ([7, 0], -2) := rfl
  exact absurd (h.same _ hrun) (by decide)

end CcUtils.Tools
