import CcUtils.Tools.JsonHelper
import Mathlib.Data.Int.Cast.Lemmas
import Mathlib.Data.List.TakeWhile
import Mathlib.Tactic.NormNum
import Mathlib.Tactic.Positivity
import Mathlib.Tactic.Zify

/-!
# What the fields hold after `json_object_helper`

With a table for distinct fields of a struct, and every key that must be there, each field whose item is
there is filled. But an item that need not be there and is not is read through NULL; a string that fills
its field has no room left for a terminator; and an integer comes from `valueint`, which is an `int`
whatever the width of the field.

## What is proved

* `readInt_intBytes` — the field of an integer holds `valueint`.
* `cstr_strncpy_iff` — the field of a string holds one exactly when the string is shorter.
* `jsonFields_iff` — so when the fields hold what they are to.
-/

namespace CcUtils.Tools

open CcUtils.Lib

/-! ### The table -/

/-- The fields of the table lie in a struct of `size` bytes, apart from each other, and are as wide as
`CH_INT`, `CH_FLOAT` and `CH_STRING` say. -/
structure Described (table : List Json2Struct) (size : ℕ) : Prop where
  known : ∀ d ∈ table, d.Known
  int : ∀ d ∈ table, d.type = chTypeInt → d.length ∈ [1, 2, 4, 8]
  float : ∀ d ∈ table, d.type = chTypeFloat → d.length ∈ [4, 8]
  inside : ∀ d ∈ table, d.offset.toNat + d.length.toNat ≤ size
  apart : table.Pairwise fun d e => d.offset.toNat + d.length.toNat ≤ e.offset.toNat ∨
    e.offset.toNat + e.length.toNat ≤ d.offset.toNat

/-- The number in the bytes of an integer, which has a sign or not. -/
def readInt (signed : Bool) (bs : List UInt8) : ℤ :=
  if signed then (ofLe bs : ℤ).bmod (2 ^ (8 * bs.length)) else ofLe bs

/-- The number is one of the integers of the width. -/
def Representable (signed : Bool) (length : UInt32) (z : ℤ) : Prop :=
  if signed then -2 ^ (8 * length.toNat - 1) ≤ z ∧ z < 2 ^ (8 * length.toNat - 1)
  else 0 ≤ z ∧ z < 2 ^ (8 * length.toNat)

/-- The bytes of the field of a descriptor. -/
def Json2Struct.field (d : Json2Struct) (mem : List UInt8) : Exec (List UInt8) :=
  load mem d.offset.toNat d.length.toNat

/-- The fields hold what they are to: integers that they can hold, strings with their terminators, their
old bytes where there is no item; and nothing else has changed. Which integer has a sign is up to the
struct. -/
structure Filled (signed : Json2Struct → Bool) (obj : JsonObject) (table : List Json2Struct)
    (mem mem' : List UInt8) : Prop where
  int : ∀ d ∈ table, d.type = chTypeInt → ∀ item, obj.getObjectItem d.name = some item →
    ∀ z : ℤ, item.valuedouble = z → Representable (signed d) d.length z →
      Post (d.field mem') fun bs => readInt (signed d) bs = z
  string : ∀ d ∈ table, d.type = chTypeString → obj.getObjectItem d.name ≠ none →
    Post (d.field mem') fun bs => ∃ s, cstr bs = .ok s
  absent : ∀ d ∈ table, obj.getObjectItem d.name = none → d.field mem' = d.field mem
  outside : ∀ j, (∀ d ∈ table, ¬ (d.offset.toNat ≤ j ∧ j < d.offset.toNat + d.length.toNat)) →
    mem'[j]? = mem[j]?

/-- No item is absent, every string is shorter than its field, and every integer that the field can hold
is an `int`. -/
structure Plain (signed : Json2Struct → Bool) (obj : JsonObject) (table : List Json2Struct) :
    Prop where
  present : ∀ d ∈ table, obj.getObjectItem d.name ≠ none
  short : ∀ d ∈ table, d.type = chTypeString → ∀ item s, obj.getObjectItem d.name = some item →
    item.valuestring = some s → s.len < d.length.toNat
  small : ∀ d ∈ table, d.type = chTypeInt → ∀ item, obj.getObjectItem d.name = some item →
    ∀ z : ℤ, item.valuedouble = z → Representable (signed d) d.length z → -2 ^ 31 ≤ z ∧ z < 2 ^ 31

/-! ### Integers -/

variable {signed : Bool} {length : UInt32} {z : ℤ}

theorem intWidth_eq (h : length ∈ ([1, 2, 4, 8] : List UInt32)) : intWidth length = length.toNat := by
  simp only [List.mem_cons, List.not_mem_nil, or_false] at h
  rcases h with rfl | rfl | rfl | rfl <;> rfl

theorem length_intBytes (h : length ∈ ([1, 2, 4, 8] : List UInt32)) (v : Int32) :
    (intBytes length v).length = length.toNat := by
  rw [intBytes, length_le, intWidth_eq h]

theorem two_pow_width (h : length ∈ ([1, 2, 4, 8] : List UInt32)) :
    2 ^ (8 * length.toNat) = 2 ^ (8 * length.toNat - 1) * 2 := by
  rw [← pow_succ]
  congr 1
  simp only [List.mem_cons, List.not_mem_nil, or_false] at h
  rcases h with rfl | rfl | rfl | rfl <;> rfl

/-- **The field of an integer** holds `valueint`, if it can. -/
theorem readInt_intBytes (h : length ∈ ([1, 2, 4, 8] : List UInt32)) {v : Int32}
    (hv : Representable signed length v.toInt) : readInt signed (intBytes length v) = v.toInt := by
  have hpos : (0 : ℤ) < 2 ^ (8 * length.toNat) := by positivity
  have hmod := Int.emod_nonneg v.toInt hpos.ne'
  have hlt := Int.emod_lt_of_pos v.toInt hpos
  have hof : (ofLe (intBytes length v) : ℤ) = v.toInt % 2 ^ (8 * length.toNat) := by
    have hroom : (v.toInt % 2 ^ (8 * length.toNat)).toNat < 256 ^ length.toNat := by
      have hpow : (256 : ℕ) ^ length.toNat = 2 ^ (8 * length.toNat) := by
        rw [pow_mul]
        norm_num
      rw [hpow]
      zify
      rwa [Int.toNat_of_nonneg hmod]
    rw [intBytes, intWidth_eq h, ofLe_le hroom, Int.toNat_of_nonneg hmod]
  rw [readInt, hof, length_intBytes h]
  cases signed with
  | true =>
    have hbmod := Int.emod_bmod v.toInt (2 ^ (8 * length.toNat))
    push_cast at hbmod
    rw [if_pos rfl, hbmod]
    have hv : -2 ^ (8 * length.toNat - 1) ≤ v.toInt ∧ v.toInt < 2 ^ (8 * length.toNat - 1) := hv
    refine Int.bmod_eq_of_le_mul_two ?_ ?_ <;> rw [two_pow_width h] <;> push_cast <;> omega
  | false => exact Int.emod_eq_of_lt hv.1 hv.2

/-- A number that the width has is one after it is cut to the range of `int`. -/
theorem Representable.clamp (hz : Representable signed length z) :
    Representable signed length (max (-2 ^ 31) (min (2 ^ 31 - 1) z)) := by
  cases signed with
  | true =>
    have hz : -2 ^ (8 * length.toNat - 1) ≤ z ∧ z < 2 ^ (8 * length.toNat - 1) := hz
    have hpos : (0 : ℤ) < 2 ^ (8 * length.toNat - 1) := by positivity
    change -2 ^ (8 * length.toNat - 1) ≤ _ ∧ _ < 2 ^ (8 * length.toNat - 1)
    omega
  | false =>
    have hz : 0 ≤ z ∧ z < 2 ^ (8 * length.toNat) := hz
    change 0 ≤ _ ∧ _ < 2 ^ (8 * length.toNat)
    omega

theorem CJson.Number.valueint {item : CJson} (h : item.Number) (hz : item.valuedouble = z) :
    item.valueint.toInt = max (-2 ^ 31) (min (2 ^ 31 - 1) z) := by
  rw [h, hz, Rat.num_intCast, Rat.den_intCast, Nat.cast_one, Int.tdiv_one]

/-- So the field holds the number exactly when that is an `int`. -/
theorem readInt_item {item : CJson} (h : length ∈ ([1, 2, 4, 8] : List UInt32)) (hitem : item.Number)
    (hz : item.valuedouble = z) (hrep : Representable signed length z) :
    readInt signed (intBytes length item.valueint) = z ↔ -2 ^ 31 ≤ z ∧ z < 2 ^ 31 := by
  have hval := hitem.valueint hz
  have hv : Representable signed length item.valueint.toInt := by
    rw [hval]
    exact hrep.clamp
  rw [readInt_intBytes h hv, hval]
  omega

/-! ### Strings -/

/-- **The field of a string** holds one exactly when the string is shorter. -/
theorem cstr_strncpy_iff {s : CString} {n : ℕ} : (∃ t, cstr (strncpy [] s n) = .ok t) ↔ s.len < n := by
  constructor
  · intro h
    rw [exists_cstr, strncpy, List.drop_nil, List.append_nil] at h
    by_contra hlong
    rw [List.take_append_of_le_length (not_lt.mp hlong)] at h
    exact s.property (List.mem_of_mem_take h)
  · exact fun h => ⟨s.val, cstr_strncpy [] h⟩

/-! ### Fields -/

variable {F : Floats} {obj : JsonObject} {d : Json2Struct} {table : List Json2Struct}
  {mem mem' : List UInt8} {item : CJson} {size : ℕ}

theorem length_floatBytes (h : length ∈ ([4, 8] : List UInt32)) (q : ℚ) :
    (floatBytes F length q).length = length.toNat := by
  simp only [List.mem_cons, List.not_mem_nil, or_false] at h
  rcases h with rfl | rfl <;> simp [floatBytes, leBv]

theorem writes_int (h : d.type = chTypeInt) (item : CJson) :
    d.writes F item = [(d.offset.toNat, intBytes d.length item.valueint)] := if_pos h

theorem writes_string (h : d.type = chTypeString) {s : CString} (hs : item.valuestring = some s) :
    d.writes F item = [(d.offset.toNat, strncpy [] s d.length.toNat)] := by
  rw [Json2Struct.writes, h, hs]
  rfl

/-- For an item the field of the descriptor is written, all of it. -/
theorem Described.writes_eq (htable : Described table size) (hd : d ∈ table) (hitem : item.OfKind d) :
    ∃ bs, d.writes F item = [(d.offset.toNat, bs)] ∧ bs.length = d.length.toNat := by
  rw [Json2Struct.writes]
  split
  · rename_i hint
    exact ⟨_, rfl, length_intBytes (htable.int d hd hint) _⟩
  split
  · rename_i hfloat
    exact ⟨_, rfl, length_floatBytes (htable.float d hd hfloat) _⟩
  split
  · rename_i hstring
    obtain ⟨s, hs⟩ := Option.ne_none_iff_exists'.mp (hitem.string hstring)
    rw [hs]
    refine ⟨_, rfl, ?_⟩
    simp [strncpy]
  · rename_i hint hfloat hstring
    rcases htable.known d hd with h | h | h <;> contradiction

/-- A write for the item is all that is written for the descriptor, and goes to its field. -/
theorem Described.mem_writes (htable : Described table size) (hkinds : Kinds obj table) (hd : d ∈ table)
    {w : Write} (hw : w ∈ (obj.getObjectItem d.name).elim [] (d.writes F)) :
    (obj.getObjectItem d.name).elim [] (d.writes F) = [w] ∧ w.1 = d.offset.toNat ∧
      w.2.length = d.length.toNat := by
  cases hitem : obj.getObjectItem d.name with
  | none =>
    rw [hitem] at hw
    cases hw
  | some item =>
    obtain ⟨bs, hbs, hlen⟩ := htable.writes_eq (F := F) hd (hkinds d hd item hitem)
    rw [hitem, Option.elim_some, hbs, List.mem_singleton] at hw
    subst hw
    exact ⟨hbs, rfl, hlen⟩

theorem Described.fits (htable : Described table size) (hkinds : Kinds obj table) :
    ∀ w ∈ writesOf F obj table, Fits size w := by
  intro w hw
  obtain ⟨d, hd, hw⟩ := List.mem_flatMap.mp hw
  obtain ⟨-, hoff, hlen⟩ := htable.mem_writes hkinds hd hw
  rw [Fits, hoff, hlen]
  exact htable.inside d hd

/-- No two of the writes overlap. -/
theorem Described.disjoint (htable : Described table size) (hkinds : Kinds obj table) :
    (writesOf F obj table).Pairwise Apart := by
  refine List.pairwise_flatMap.mpr ⟨fun d hd => ?_, ?_⟩
  · rcases List.eq_nil_or_concat ((obj.getObjectItem d.name).elim [] (d.writes F)) with h | ⟨ws, w, h⟩
    · rw [h]
      exact List.Pairwise.nil
    · rw [(htable.mem_writes hkinds hd (w := w) (by simp [h])).1]
      exact List.pairwise_singleton ..
  · refine htable.apart.imp_of_mem fun hd he hapart v hv w hw => ?_
    obtain ⟨-, hoff, hlen⟩ := htable.mem_writes hkinds hd hv
    obtain ⟨-, hoff', hlen'⟩ := htable.mem_writes hkinds he hw
    rw [Apart, hoff, hlen, hoff', hlen']
    exact hapart

/-- **A field** holds what was written for its item. -/
theorem Described.field_eq (htable : Described table size) (hkinds : Kinds obj table)
    (hstores : storeAll mem (writesOf F obj table) = .ok mem') (hd : d ∈ table)
    (hitem : obj.getObjectItem d.name = some item) {bs : List UInt8}
    (hbs : d.writes F item = [(d.offset.toNat, bs)]) : d.field mem' = .ok bs := by
  obtain ⟨bs', hbs', hlen⟩ := htable.writes_eq (F := F) hd (hkinds d hd item hitem)
  obtain rfl : bs' = bs := by simpa [hbs] using hbs'.symm
  have hw : (d.offset.toNat, bs') ∈ writesOf F obj table := by
    refine List.mem_flatMap.mpr ⟨d, hd, ?_⟩
    rw [hitem, Option.elim_some, hbs]
    exact List.mem_singleton_self _
  rw [Json2Struct.field, ← hlen]
  exact load_storeAll hstores (htable.disjoint hkinds) hw

/-- **Outside the fields** nothing changes. -/
theorem Described.outside_eq (htable : Described table size) (hkinds : Kinds obj table)
    (hstores : storeAll mem (writesOf F obj table) = .ok mem') {j : ℕ}
    (hj : ∀ d ∈ table, ¬ (d.offset.toNat ≤ j ∧ j < d.offset.toNat + d.length.toNat)) :
    mem'[j]? = mem[j]? := by
  obtain ⟨-, -, hbytes⟩ := storeAll_iff.mp hstores
  rw [hbytes]
  cases hlast : lastByte (writesOf F obj table) j with
  | none => rfl
  | some b =>
    obtain ⟨w, hw, hb⟩ := exists_of_lastByte hlast
    obtain ⟨d, hd, hw⟩ := List.mem_flatMap.mp hw
    obtain ⟨-, hoff, hlen⟩ := htable.mem_writes hkinds hd hw
    obtain ⟨hlow, hget⟩ := byteOf_eq_some.mp hb
    obtain ⟨hhigh, -⟩ := List.getElem?_eq_some_iff.mp hget
    exact absurd ⟨by omega, by omega⟩ (hj d hd)

/-! ### The call -/

variable {sign : Json2Struct → Bool}

/-- Where no key that must be there is missing, all fields are filled. -/
theorem jsonObjectHelper_eq_ok (hobj : obj.isObject = true) (hmust : ∀ d ∈ table, ¬ Missing obj d)
    {u : List UInt8 × ℤ} :
    jsonObjectHelper F mem obj table = .ok u ↔ jsonFill F obj table mem = .ok u.1 ∧ u.2 = 0 := by
  have hbefore : before obj table = table :=
    List.takeWhile_eq_self_iff.mpr fun d hd => decide_eq_true (hmust d hd)
  have hnone : ¬ ∃ d ∈ table, Missing obj d := fun ⟨d, hd, h⟩ => hmust d hd h
  rw [jsonObjectHelper, check_true hobj, ok_bind, jsonLoop_eq, hbefore, if_neg hnone, bind_eq_ok]
  constructor
  · rintro ⟨mem', hfill, he⟩
    cases he
    exact ⟨hfill, rfl⟩
  · rintro ⟨hfill, hret⟩
    exact ⟨u.1, hfill, by rw [← hret]; rfl⟩

/-- **The fields hold what they are to** exactly when no item is absent, every string is shorter than its
field, and every integer that its field can hold is an `int`. -/
theorem jsonFields_iff (hobj : obj.isObject = true) (hkinds : Kinds obj table)
    (htable : Described table mem.length) (hmust : ∀ d ∈ table, ¬ Missing obj d) :
    Post (jsonObjectHelper F mem obj table) (fun u => u.2 = 0 ∧ Filled sign obj table mem u.1) ↔
      Plain sign obj table := by
  constructor
  · rintro ⟨⟨mem', r⟩, hrun, -, hfilled⟩
    obtain ⟨hfill, -⟩ := (jsonObjectHelper_eq_ok hobj hmust).mp hrun
    obtain ⟨hpresent, hstores⟩ := (jsonFill_iff hkinds).mp hfill
    refine ⟨fun d hd => hpresent d hd (htable.known d hd), fun d hd h item s hitem hs => ?_,
      fun d hd h item hitem z hz hrep => ?_⟩
    · have hfield := htable.field_eq hkinds hstores hd hitem (writes_string h hs)
      exact cstr_strncpy_iff.mp ((hfilled.string d hd h (by simp [hitem])).of_ok hfield)
    · have hfield := htable.field_eq hkinds hstores hd hitem (writes_int h item)
      have hread := (hfilled.int d hd h item hitem z hz hrep).of_ok hfield
      exact (readInt_item (htable.int d hd h) ((hkinds d hd item hitem).number (.inl h)) hz hrep).mp hread
  · rintro ⟨hpresent, hshort, hsmall⟩
    obtain ⟨mem', hstores⟩ := exists_storeAll (htable.fits (F := F) hkinds)
    have hfill : jsonFill F obj table mem = .ok mem' :=
      (jsonFill_iff hkinds).mpr ⟨fun d hd _ => hpresent d hd, hstores⟩
    refine ⟨(mem', 0), (jsonObjectHelper_eq_ok hobj hmust).mpr ⟨hfill, rfl⟩, rfl,
      fun d hd h item hitem z hz hrep => ?_, fun d hd h hitem => ?_,
      fun d hd h => absurd h (hpresent d hd), fun j hj => htable.outside_eq hkinds hstores hj⟩
    · refine ⟨_, htable.field_eq hkinds hstores hd hitem (writes_int h item), ?_⟩
      exact (readInt_item (htable.int d hd h) ((hkinds d hd item hitem).number (.inl h)) hz hrep).mpr
        (hsmall d hd h item hitem z hz hrep)
    · obtain ⟨item, hitem⟩ := Option.ne_none_iff_exists'.mp hitem
      obtain ⟨s, hs⟩ := Option.ne_none_iff_exists'.mp ((hkinds d hd item hitem).string h)
      refine ⟨_, htable.field_eq hkinds hstores hd hitem (writes_string h hs), ?_⟩
      exact cstr_strncpy_iff.mpr (hshort d hd h item s hitem hs)

/-- The string `abc` under every key. -/
def abcObject : JsonObject where
  isObject := true
  getObjectItem _ := some ⟨0, 0, some ⟨[97, 98, 99], by decide⟩⟩

/-- One string, in a field of so many bytes. -/
def stringTable (length : UInt32) : List Json2Struct :=
  [⟨⟨[97], nul_notMem_a⟩, chTypeString, 0, length, true⟩]

theorem abc_kinds (length : UInt32) : Kinds abcObject (stringTable length) := by
  intro d hd item hitem
  obtain rfl := List.mem_singleton.mp hd
  obtain rfl := Option.some.inj hitem
  have hstring : ¬ (chTypeString = chTypeInt ∨ chTypeString = chTypeFloat) := by decide
  exact ⟨fun h => absurd h hstring, fun _ => nofun⟩

theorem abc_described {length : UInt32} {size : ℕ} (h : length.toNat ≤ size) :
    Described (stringTable length) size := by
  have hall : ∀ P : Json2Struct → Prop, P ⟨⟨[97], by decide⟩, chTypeString, 0, length, true⟩ →
      ∀ d ∈ stringTable length, P d := by
    intro P hP d hd
    obtain rfl := List.mem_singleton.mp hd
    exact hP
  refine ⟨hall _ (.inr (.inr rfl)), hall _ nofun, hall _ nofun, hall _ ?_, List.pairwise_singleton ..⟩
  change 0 + length.toNat ≤ size
  omega

theorem abc_must (length : UInt32) : ∀ d ∈ stringTable length, ¬ Missing abcObject d := by
  intro d hd h
  cases h.1

/-- In four bytes the string has room for its terminator. -/
theorem jsonFields_iff_abc :
    Post (jsonObjectHelper ⟨fun _ => 0, fun _ => 0⟩ [1, 1, 1, 1] abcObject (stringTable 4))
        (fun u => u.2 = 0 ∧ Filled (fun _ => true) abcObject (stringTable 4) [1, 1, 1, 1] u.1) ↔
      Plain (fun _ => true) abcObject (stringTable 4) :=
  jsonFields_iff rfl (abc_kinds 4) (abc_described (by decide)) (abc_must 4)

/-- In three it has not. -/
theorem jsonFields_abc :
    Kinds abcObject (stringTable 3) ∧ Described (stringTable 3) 3 ∧
      (∀ d ∈ stringTable 3, ¬ Missing abcObject d) ∧
      ¬ Post (jsonObjectHelper ⟨fun _ => 0, fun _ => 0⟩ [1, 1, 1] abcObject (stringTable 3))
        fun u => u.2 = 0 ∧ Filled (fun _ => true) abcObject (stringTable 3) [1, 1, 1] u.1 := by
  refine ⟨abc_kinds 3, abc_described (by decide), abc_must 3, ?_⟩
  rintro ⟨u, hrun, -, hfilled⟩
  have hu : jsonObjectHelper ⟨fun _ => 0, fun _ => 0⟩ [1, 1, 1] abcObject (stringTable 3) =
      .ok ([97, 98, 99], 0) := rfl
  rw [hu] at hrun
  obtain rfl := Except.ok.inj hrun
  obtain ⟨bs, hload, s, hs⟩ := hfilled.string _ (List.mem_singleton_self _) rfl (by decide)
  obtain rfl : [97, 98, 99] = bs := Except.ok.inj hload
  cases hs

end CcUtils.Tools
