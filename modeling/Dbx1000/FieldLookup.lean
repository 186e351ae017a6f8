import Mathlib.Algebra.GroupWithZero.Nat
import Mathlib.Data.List.Infix
import Dbx1000.Lib.Bytes
import Dbx1000.Lru
import Dbx1000.SchemaFile

/-!
# Fields of a row by name (`Catalog::get_field_id`, `common/storage/tablespace/row_item.cpp`)

`get_field_id` takes the first column whose name has the given text as a part, so that a name finds its own column
if and only if it is no part of the name of a column in front of it (`Catalog.Built.getFieldId_iff`). The columns
stand one behind the other in the row, column `i` behind `ColumnSpec.offset specs i` bytes; a `Column` has the low 32
bits of its place and of its size, and `RowItem::set_value` takes them for `int`s. `Catalog.Built` says what a catalog
holds after any calls of `add_col`, whatever the sizes.
-/

namespace Dbx1000

/-! ### The functions -/

/-- `str.find(s)`: the first place where `s` occurs; `npos` is `none`. -/
def strFind (s : List Char) : List Char → Option Nat
  | [] => if s = [] then some 0 else none
  | c :: str => if s.isPrefixOf (c :: str) then some 0 else (strFind s str).map (· + 1)

/-- The `std::string` of a `const char *`. -/
def cStr (s : List Char) : List Char := s.takeWhile (· ≠ '\x00')

/-- A number in an `int`. -/
def int32 (n : Nat) : Int := (n : Int).bmod (2 ^ 32)

namespace Catalog

def getFieldId (name : List Char) (c : Catalog) : Run Nat := do
  let i := (c.columns.take c.fieldCnt).findIdx fun col => (strFind name col.name).isSome
  Run.assert (i < c.fieldCnt)
  return i

def getFieldSize (id : Nat) (c : Catalog) : Run Nat := do
  let col ← Run.get c.columns id
  return col.size

def getFieldIndex (id : Nat) (c : Catalog) : Run Nat := do
  let col ← Run.get c.columns id
  return col.index

def getFieldType (id : Nat) (c : Catalog) : Run (List Char) := do
  let col ← Run.get c.columns id
  return col.type

/-- `get_field_type(name)` -/
def getFieldTypeOf (name : List Char) (c : Catalog) : Run (List Char) := do
  let id ← c.getFieldId name
  c.getFieldType id

/-- `get_field_index(name)` -/
def getFieldIndexOf (name : List Char) (c : Catalog) : Run Nat := do
  let id ← c.getFieldId name
  c.getFieldIndex id

/-- Any calls of `add_col`. -/
def addCols (specs : List ColumnSpec) (c : Catalog) : Run Catalog :=
  specs.foldlM (fun c s => c.addCol s.name s.size s.type) c

end Catalog

/-- A row: the catalog of its table, and `data`. -/
structure RowItem where
  schema : Catalog
  data : Bytes
deriving DecidableEq, Repr

namespace RowItem

/-- `set_value(id, ptr)`; a `memcpy` from or to a place outside of the buffers fails. -/
def setValue (id : Nat) (ptr : Bytes) (row : RowItem) : Run RowItem := do
  let size ← row.schema.getFieldSize id
  let index ← row.schema.getFieldIndex id
  let datasize := int32 size
  let pos := int32 index
  Run.assert (0 ≤ pos ∧ 0 ≤ datasize ∧ datasize ≤ ptr.length ∧ pos + datasize ≤ row.data.length)
  return { row with data := Buf.write pos.toNat (ptr.take datasize.toNat) row.data }

/-- `set_value(col_name, ptr)` -/
def setValueOf (colName : List Char) (ptr : Bytes) (row : RowItem) : Run RowItem := do
  let id ← row.schema.getFieldId (cStr colName)
  row.setValue id ptr

/-- `get_value(col_name)`: the place in `data` that the pointer leads to. -/
def getValueOf (colName : List Char) (row : RowItem) : Run Nat := row.schema.getFieldIndexOf (cStr colName)

end RowItem

/-! ### Searching -/

theorem strFind_isSome {s str : List Char} : (strFind s str).isSome = true ↔ s <:+: str := by
  induction str with
  | nil =>
    rw [strFind, List.infix_nil]
    split <;> simp [*]
  | cons c str ih =>
    rw [strFind, List.infix_cons_iff, ← List.isPrefixOf_iff_prefix, ← ih]
    split <;> simp [*]

theorem cStr_part (s : List Char) : cStr s <:+: s := (List.takeWhile_prefix _).isInfix

theorem int32_of_lt {n : Nat} (h : n < 2 ^ 31) : int32 n = n := by
  unfold int32
  rw [Int.bmod_eq_of_le]
  · omega
  · omega

/-- The upper half of the 32-bit numbers is negative. -/
theorem int32_nonneg {n : Nat} (h : n < 2 ^ 32) : 0 ≤ int32 n ↔ n < 2 ^ 31 := by
  refine ⟨fun hpos => ?_, fun hlt => by rw [int32_of_lt hlt]; omega⟩
  have hle := Int.bmod_lt (x := (n : Int)) (m := 2 ^ 32) (by decide)
  unfold int32 at hpos
  rw [Int.bmod_def] at hpos hle
  omega

/-! ### Where the columns stand -/

namespace ColumnSpec

variable {specs : List ColumnSpec} {s t : ColumnSpec} {i j : Nat}

/-- The bytes in front of column `i`. -/
def offset (specs : List ColumnSpec) (i : Nat) : Nat := ((specs.take i).map size).sum

theorem offset_succ (h : specs[i]? = some s) : offset specs (i + 1) = offset specs i + s.size := by
  rw [offset, offset, List.take_add_one, h, List.map_append, List.sum_append]
  rfl

theorem offset_append {rest : List ColumnSpec} (h : i ≤ specs.length) : offset (specs ++ rest) i = offset specs i := by
  rw [offset, offset, List.take_append_of_le_length h]

theorem offset_mono (h : i ≤ j) : offset specs i ≤ offset specs j := by
  obtain ⟨d, rfl⟩ := Nat.exists_eq_add_of_le h
  rw [offset, offset, List.take_add, List.map_append, List.sum_append]
  exact Nat.le_add_right _ _

/-- Two columns have no byte in common. -/
theorem offset_disjoint (hs : specs[i]? = some s) (ht : specs[j]? = some t) (hij : j ≠ i) :
    offset specs i + s.size ≤ offset specs j ∨ offset specs j + t.size ≤ offset specs i := by
  rw [← offset_succ hs, ← offset_succ ht]
  rcases Nat.lt_or_gt_of_ne hij with hlt | hlt
  · exact .inr (offset_mono hlt)
  · exact .inl (offset_mono hlt)

end ColumnSpec

open ColumnSpec (offset offset_succ offset_append offset_disjoint)

/-! ### What `add_col` leaves in the catalog -/

/-- The columns `specs` were added. -/
structure Catalog.Built (c : Catalog) (specs : List ColumnSpec) : Prop where
  fieldCnt : c.fieldCnt = specs.length
  tupleSize : c.tupleSize = offset specs specs.length % 2 ^ 32
  column : ∀ (i : Nat) (s : ColumnSpec), specs[i]? = some s →
    c.columns[i]? = some ⟨i, s.size % 2 ^ 32, offset specs i % 2 ^ 32, s.type, s.name⟩

namespace Catalog.Built

variable {c : Catalog} {specs : List ColumnSpec} {s : ColumnSpec} {i : Nat}

theorem init (tableName : List Char) (fieldCnt : Nat) : (Catalog.init tableName fieldCnt).Built [] :=
  ⟨rfl, rfl, nofun⟩

theorem addCol (h : c.Built specs) (hroom : specs.length < c.columns.length) (s : ColumnSpec) :
    ∃ c', c.addCol s.name s.size s.type = .done c' ∧ c'.Built (specs ++ [s]) ∧
      c'.columns.length = c.columns.length := by
  have hlast : offset (specs ++ [s]) (specs.length + 1) = offset specs specs.length + s.size := by
    rw [offset_succ (s := s) (by simp), offset_append (Nat.le_refl _)]
  refine ⟨_, if_pos (h.fieldCnt ▸ hroom), ⟨?_, ?_, fun i t ht => ?_⟩, List.length_set⟩
  · show c.fieldCnt + 1 = _
    rw [h.fieldCnt, List.length_append, List.length_singleton]
  · show (c.tupleSize + s.size) % 2 ^ 32 = _
    rw [List.length_append, List.length_singleton, hlast, h.tupleSize, Nat.mod_add_mod]
  · show (c.columns.set c.fieldCnt _)[i]? = _
    rw [h.fieldCnt]
    -- the columns that are there stay, and the new one stands behind them
    by_cases hi : i < specs.length
    · rw [List.getElem?_append_left hi] at ht
      rw [List.getElem?_set_ne (Nat.ne_of_gt hi), h.column i t ht, offset_append (Nat.le_of_lt hi)]
    · have hle := (List.getElem?_eq_some_iff.1 ht).1
      rw [List.length_append, List.length_singleton] at hle
      obtain rfl : i = specs.length := by omega
      rw [List.getElem?_concat_length] at ht
      cases ht
      rw [List.getElem?_set_self hroom, offset_append (Nat.le_refl _), h.tupleSize]

theorem addCols {pre : List ColumnSpec} (h : c.Built pre) (specs : List ColumnSpec)
    (hroom : pre.length + specs.length ≤ c.columns.length) :
    ∃ c', c.addCols specs = .done c' ∧ c'.Built (pre ++ specs) := by
  induction specs generalizing c pre with
  | nil => exact ⟨c, rfl, by rwa [List.append_nil]⟩
  | cons s specs ih =>
    rw [List.length_cons] at hroom
    obtain ⟨c₁, hadd, hbuilt, hlen⟩ := h.addCol (by omega) s
    obtain ⟨c', hc', hall⟩ := ih hbuilt (by rw [hlen, List.length_append, List.length_singleton]; omega)
    refine ⟨c', ?_, by rwa [List.append_assoc] at hall⟩
    rw [Catalog.addCols, List.foldlM_cons, hadd]
    exact hc'

/-! ### Lookup -/

theorem names (h : c.Built specs) : (c.columns.take c.fieldCnt).map Column.name = specs.map ColumnSpec.name := by
  refine List.ext_getElem? fun i => ?_
  rw [List.getElem?_map, List.getElem?_map, List.getElem?_take, h.fieldCnt]
  cases hs : specs[i]? with
  | none => rw [if_neg (Nat.not_lt.2 (List.getElem?_eq_none_iff.1 hs))]; rfl
  | some s => rw [if_pos (List.getElem?_eq_some_iff.1 hs).1, h.column i s hs]; rfl

/-- A name is found in the first column that has it as a part of its own name. -/
theorem getFieldId_eq (h : c.Built specs) (hs : s ∈ specs) {name : List Char} (hname : name <:+: s.name) :
    c.getFieldId name = .done (specs.findIdx fun t => (strFind name t.name).isSome) := by
  have hidx : (c.columns.take c.fieldCnt).findIdx (fun col => (strFind name col.name).isSome) =
      specs.findIdx fun t => (strFind name t.name).isSome := by
    have hmap := congrArg (List.findIdx fun n => (strFind name n).isSome) h.names
    rwa [List.findIdx_map, List.findIdx_map] at hmap
  have hlt : specs.findIdx (fun t => (strFind name t.name).isSome) < c.fieldCnt := by
    rw [h.fieldCnt]
    exact List.findIdx_lt_length.2 ⟨s, hs, strFind_isSome.2 hname⟩
  simp only [Catalog.getFieldId, hidx, Run.assert_of hlt, Run.done_bind]
  rfl

/-- A part of its name finds a column if and only if no column in front of it has that as a part of its own. -/
theorem getFieldId_iff (h : c.Built specs) (hs : specs[i]? = some s) {name : List Char} (hname : name <:+: s.name) :
    c.getFieldId name = .done i ↔ ∀ t ∈ specs.take i, ¬ name <:+: t.name := by
  obtain ⟨hi, hget⟩ := List.getElem?_eq_some_iff.1 hs
  rw [h.getFieldId_eq (List.mem_of_getElem? hs) hname, Run.done.injEq, List.findIdx_eq hi, hget, strFind_isSome]
  constructor
  · rintro ⟨-, hfront⟩ t ht
    obtain ⟨j, hj, rfl⟩ := List.mem_take_iff_getElem.1 ht
    rw [← strFind_isSome, hfront j (by omega)]
    exact Bool.false_ne_true
  · intro hfront
    refine ⟨hname, fun j hj => ?_⟩
    have hj' := hfront (specs[j]) (List.mem_take_iff_getElem.2 ⟨j, by omega, rfl⟩)
    rwa [← strFind_isSome, Bool.not_eq_true] at hj'

theorem get_column (h : c.Built specs) (hs : specs[i]? = some s) : Run.get c.columns i =
    .done ⟨i, s.size % 2 ^ 32, offset specs i % 2 ^ 32, s.type, s.name⟩ :=
  Run.get_of (h.column i s hs)

theorem getFieldSize_eq (h : c.Built specs) (hs : specs[i]? = some s) : c.getFieldSize i = .done (s.size % 2 ^ 32) := by
  rw [getFieldSize, h.get_column hs]
  rfl

theorem getFieldIndex_eq (h : c.Built specs) (hs : specs[i]? = some s) :
    c.getFieldIndex i = .done (offset specs i % 2 ^ 32) := by
  rw [getFieldIndex, h.get_column hs]
  rfl

theorem getFieldIndexOf_eq (h : c.Built specs) (hs : specs[i]? = some s) {name : List Char}
    (hid : c.getFieldId name = .done i) : c.getFieldIndexOf name = .done (offset specs i % 2 ^ 32) := by
  rw [getFieldIndexOf, hid, Run.done_bind, h.getFieldIndex_eq hs]

/-- `set_value` writes the bytes of the column, unless its place or its size is negative as an `int`. -/
theorem setValue_eq (h : c.Built specs) (hs : specs[i]? = some s) (hindex : offset specs i < 2 ^ 32)
    (hsize : s.size < 2 ^ 32) {ptr data : Bytes} (hptr : s.size ≤ ptr.length)
    (hdata : offset specs i + s.size ≤ data.length) : RowItem.setValue i ptr ⟨c, data⟩ =
      if offset specs i < 2 ^ 31 ∧ s.size < 2 ^ 31 then
        .done ⟨c, Buf.write (offset specs i) (ptr.take s.size) data⟩ else .failed := by
  rw [RowItem.setValue, h.getFieldSize_eq hs, Run.done_bind, h.getFieldIndex_eq hs, Run.done_bind,
    Nat.mod_eq_of_lt hindex, Nat.mod_eq_of_lt hsize]
  dsimp only
  split
  · rename_i hint
    rw [int32_of_lt hint.1, int32_of_lt hint.2, Run.assert_of (by omega), Run.done_bind, Int.toNat_natCast,
      Int.toNat_natCast, Run.pure_eq]
  · rename_i hint
    rw [← int32_nonneg hindex, ← int32_nonneg hsize] at hint
    rw [Run.assert, if_neg fun hroom => hint ⟨hroom.1, hroom.2.1⟩, Run.failed_bind]

end Catalog.Built

/-- Column `i` is found by its name, and the catalog has the bytes for it that `add_col` gave it: they are those of no
other column. -/
structure Catalog.Finds (c : Catalog) (specs : List ColumnSpec) (i : Nat) (s : ColumnSpec) : Prop where
  id : c.getFieldId s.name = .done i
  type : c.getFieldTypeOf s.name = .done s.type
  index : c.getFieldIndexOf s.name = .done (offset specs i)
  size : c.getFieldSize i = .done s.size
  disjoint : ∀ j t, specs[j]? = some t → j ≠ i →
    offset specs i + s.size ≤ offset specs j ∨ offset specs j + t.size ≤ offset specs i

/-- `set_value` with the name of column `i` finds the column and writes its bytes, and `get_value` points to them. -/
structure RowItem.Sets (c : Catalog) (specs : List ColumnSpec) (i : Nat) (s : ColumnSpec) : Prop where
  id : c.getFieldId (cStr s.name) = .done i
  written : ∀ ptr data : Bytes, s.size ≤ ptr.length → offset specs i + s.size ≤ data.length → ∃ data' : Bytes,
    RowItem.setValueOf s.name ptr ⟨c, data⟩ = .done ⟨c, data'⟩ ∧
    RowItem.getValueOf s.name ⟨c, data'⟩ = .done (offset specs i) ∧
    ∀ k, data'[k]? = if offset specs i ≤ k ∧ k < offset specs i + s.size then ptr[k - offset specs i]? else data[k]?

namespace Catalog.Built

variable {c : Catalog} {specs : List ColumnSpec} {s : ColumnSpec} {i : Nat}

theorem finds_iff (h : c.Built specs) (hs : specs[i]? = some s) : c.Finds specs i s ↔
    (∀ t ∈ specs.take i, ¬ s.name <:+: t.name) ∧ offset specs i < 2 ^ 32 ∧ s.size < 2 ^ 32 := by
  rw [← h.getFieldId_iff hs (List.infix_refl _)]
  constructor
  · intro hf
    have hindex := hf.index
    have hsize := hf.size
    rw [h.getFieldIndexOf_eq hs hf.id, Run.done.injEq] at hindex
    rw [h.getFieldSize_eq hs, Run.done.injEq] at hsize
    exact ⟨hf.id, hindex ▸ Nat.mod_lt _ (by decide), hsize ▸ Nat.mod_lt _ (by decide)⟩
  · rintro ⟨hid, hindex, hsize⟩
    refine ⟨hid, ?_, ?_, ?_, fun j t ht hj => offset_disjoint hs ht hj⟩
    · rw [getFieldTypeOf, hid, Run.done_bind, getFieldType, h.get_column hs]
      rfl
    · rw [h.getFieldIndexOf_eq hs hid, Nat.mod_eq_of_lt hindex]
    · rw [h.getFieldSize_eq hs, Nat.mod_eq_of_lt hsize]

theorem sets_iff (h : c.Built specs) (hs : specs[i]? = some s) (hindex : offset specs i < 2 ^ 32)
    (hsize : s.size < 2 ^ 32) : RowItem.Sets c specs i s ↔
    (∀ t ∈ specs.take i, ¬ cStr s.name <:+: t.name) ∧ offset specs i < 2 ^ 31 ∧ s.size < 2 ^ 31 := by
  rw [← h.getFieldId_iff hs (cStr_part _)]
  constructor
  · rintro ⟨hid, hwritten⟩
    -- zeros are written to a row of zeros
    have hzeros : ∀ n, n ≤ (List.replicate n 0 : Bytes).length := fun _ => Nat.le_of_eq List.length_replicate.symm
    obtain ⟨data', hset, -⟩ := hwritten _ _ (hzeros _) (hzeros _)
    rw [RowItem.setValueOf, hid, Run.done_bind, h.setValue_eq hs hindex hsize (hzeros _) (hzeros _)] at hset
    split at hset
    · rename_i hint
      exact ⟨hid, hint⟩
    · cases hset
  · rintro ⟨hid, hint⟩
    refine ⟨hid, fun ptr data hptr hdata => ⟨Buf.write (offset specs i) (ptr.take s.size) data, ?_, ?_, fun k => ?_⟩⟩
    · rw [RowItem.setValueOf, hid, Run.done_bind, h.setValue_eq hs hindex hsize hptr hdata, if_pos hint]
    · rw [RowItem.getValueOf, h.getFieldIndexOf_eq hs hid, Nat.mod_eq_of_lt hindex]
    · rw [Buf.getElem?_write (by omega), List.length_take, Nat.min_eq_left hptr]
      split
      · rw [List.getElem?_take_of_lt (by omega)]
      · rfl

end Catalog.Built

end Dbx1000
