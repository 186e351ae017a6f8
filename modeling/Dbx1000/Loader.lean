import Dbx1000.Index
import Dbx1000.TableSpace

/-!
# Loading the table (`ycsb_wl::init_table`, `Gen_DB_single_thread`)

The rows go one after the other into one page buffer, which is written to disk and used for the next page
when the next row does not fit; the bytes of the old rows stay in it. `disk` is the page store. The row of
`key` ends up at `rowItem`, in a page that has `rowsPerPage` of them. `Filling` describes the loader between
two turns of the loop: `m` rows in the buffer, which will be page `c`, and the pages before on disk.
-/

namespace Dbx1000

open Buf

/-! ### The loop -/

structure Loader where
  tableSpace : TableSpace
  index : IndexMap
  page : Page
  row : Bytes
  disk : Nat → Option Bytes

namespace Loader

/-- `page->Serialize()` and `FileIO::WritePage(page->page_id(), page->page_buf())`. -/
def writePage (l : Loader) : Loader :=
  { l with
    page := l.page.serialize
    disk := Function.update l.disk l.page.serialize.pageId (some (read 0 myPageSize l.page.serialize.pageBuf)) }

/-- `page->set_page_id(tableSpace->GetNextPageId())` and `page->set_used_size(64)`. -/
def nextPage (l : Loader) : Loader :=
  { l with
    tableSpace := l.tableSpace.getNextPageId.2
    page := { l.page with pageId := l.tableSpace.getNextPageId.1, usedSize := 64 } }

/-- The `if` at the head of the loop. -/
def turnPage (tupleSize : Nat) (l : Loader) : Option Loader :=
  if myPageSize - l.page.usedSize < tupleSize then
    if (myPageSize - 64) / tupleSize * tupleSize + 64 = l.writePage.page.usedSize then some l.writePage.nextPage
    else none
  else some l

/-- The rest of the loop: the first 8 bytes of a row are its key and the last 8 its version. -/
def putRow (tupleSize version key : Nat) (l : Loader) : Option Loader := do
  let row := write (tupleSize - 8) (toLE 8 version) (write 0 (toLE 8 key) l.row)
  let page ← l.page.pagePut l.page.pageId row tupleSize
  return { l with
    row := row
    page := page
    index := l.index.indexPut (key, ⟨page.pageId, page.usedSize - tupleSize⟩) }

def loadRow (tupleSize version : Nat) (l : Loader) (key : Nat) : Option Loader :=
  (l.turnPage tupleSize).bind (putRow tupleSize version key)

/-- Before the loop; `buf` is the allocated page and `pageVersion` its `version_`, neither of them initialised. -/
def start (tableSpace : TableSpace) (tupleSize : Nat) (fill : UInt8) (buf : PageBuf) (pageVersion : Nat)
    (disk : Nat → Option Bytes) : Loader where
  tableSpace := tableSpace.getNextPageId.2
  index := .empty
  page := { Page.new buf.bytes pageVersion with pageId := tableSpace.getNextPageId.1 }
  row := List.replicate tupleSize fill
  disk := disk

/-- The last page. -/
def finish (l : Loader) : Loader := if 64 < l.page.usedSize then l.writePage else l

end Loader

/-- The loader with `n` rows. -/
def loadTable (tupleSize version n : Nat) (l : Loader) : Option Loader :=
  ((List.range n).foldlM (Loader.loadRow tupleSize version) l).map Loader.finish

/-- `ycsb_wl::init_table` in front of `index->Serialize()` and `tableSpace->Serialize()`. -/
def initTable (tupleSize gSynthTableSize : Nat) (buf : PageBuf) (pageVersion : Nat) (disk : Nat → Option Bytes) :
    Option Loader :=
  loadTable tupleSize 0 gSynthTableSize
    (.start { TableSpace.new with rowSize := tupleSize } tupleSize 97 buf pageVersion disk)

/-- `row_size` of `gen_db.cpp`. -/
def genDbRowSize : Nat := 80

/-- `Gen_DB_single_thread` in front of `index->Serialize()` and `tableSpace->Serialize()`. -/
def genDbSingleThread (synthTableSize : Nat) (buf : PageBuf) (pageVersion : Nat) (disk : Nat → Option Bytes) :
    Option Loader :=
  loadTable genDbRowSize 1 synthTableSize (.start TableSpace.new genDbRowSize 0 buf pageVersion disk)

/-! ### Where the rows go -/

def rowsPerPage (t : Nat) : Nat := (myPageSize - 64) / t

def rowItem (t key : Nat) : IndexItem := ⟨key / rowsPerPage t, 64 + t * (key % rowsPerPage t)⟩

def rowBytes (t version : Nat) (fill : UInt8) (key : Nat) : Bytes :=
  toLE 8 key ++ (List.replicate (t - 16) fill ++ toLE 8 version)

/-- A tuple has room for key and version, and a page for a tuple. -/
structure TupleSize (t : Nat) : Prop where
  words : 16 ≤ t
  fits : t ≤ myPageSize - 64

section Places

variable {t key c m : Nat}

theorem TupleSize.rowsPerPage_pos (ht : TupleSize t) : 0 < rowsPerPage t :=
  Nat.div_pos ht.fits (by have := ht.words; omega)

theorem mul_rowsPerPage_le : t * rowsPerPage t ≤ myPageSize - 64 := Nat.mul_div_le ..

/-- The rows up to `m` of a page end in it. -/
theorem rows_fit (hm : m ≤ rowsPerPage t) : 64 + t * m ≤ myPageSize := by
  have hle : t * m ≤ t * rowsPerPage t := Nat.mul_le_mul_left t hm
  have := mul_rowsPerPage_le (t := t)
  simp only [myPageSize] at this ⊢
  omega

/-- One more row does not fit into a page exactly when it has all its rows. -/
theorem page_full_iff (ht : TupleSize t) (hm : m ≤ rowsPerPage t) :
    myPageSize - (64 + t * m) < t ↔ m = rowsPerPage t := by
  have hfit := rows_fit hm
  constructor
  · intro h
    refine hm.antisymm (not_lt.1 fun hlt => ?_)
    have hsucc := rows_fit (Nat.succ_le_of_lt hlt)
    rw [Nat.mul_succ] at hsucc
    omega
  · rintro rfl
    have hlt : myPageSize - 64 < t * (rowsPerPage t + 1) :=
      Nat.lt_mul_div_succ _ (by have := ht.words; omega)
    rw [Nat.mul_succ] at hlt
    omega

theorem rowItem_eq (hm : m < rowsPerPage t) : rowItem t (rowsPerPage t * c + m) = ⟨c, 64 + t * m⟩ := by
  have hpos : 0 < rowsPerPage t := by omega
  rw [rowItem, Nat.mul_add_div hpos, Nat.div_eq_of_lt hm, Nat.mul_add_mod, Nat.mod_eq_of_lt hm, Nat.add_zero]

/-- The places of the rows are a layout: behind the header, in the page, and one beside the other. -/
def rowLayout (t : Nat) (ht : TupleSize t) : Layout where
  index := rowItem t
  size _ := t
  header key := Nat.le_add_right ..
  fits key := by
    have hm : key % rowsPerPage t + 1 ≤ rowsPerPage t := Nat.mod_lt _ ht.rowsPerPage_pos
    have := rows_fit hm
    rwa [Nat.mul_succ, ← Nat.add_assoc] at this
  disjoint key key' hne hpage := by
    have hmod : key % rowsPerPage t ≠ key' % rowsPerPage t := by
      intro hmod
      apply hne
      rw [← Nat.div_add_mod key (rowsPerPage t), ← Nat.div_add_mod key' (rowsPerPage t), hmod]
      exact congrArg (fun p => rowsPerPage t * p + key' % rowsPerPage t) hpage
    rcases Nat.lt_or_gt_of_ne hmod with h | h
    · have := Nat.mul_le_mul_left t (Nat.succ_le_of_lt h)
      rw [Nat.mul_succ] at this
      exact .inl (by simp only [rowItem]; omega)
    · have := Nat.mul_le_mul_left t (Nat.succ_le_of_lt h)
      rw [Nat.mul_succ] at this
      exact .inr (by simp only [rowItem]; omega)

end Places

/-! ### The invariant of the loop -/

/-- A table of tuples of `t` bytes: key, filling and version. -/
structure TableShape where
  t : Nat
  version : Nat
  fill : UInt8
  size : TupleSize t
  word : version < 2 ^ 64

namespace TableShape

variable (T : TableShape)

abbrev perPage : Nat := rowsPerPage T.t

def rowOf (key : Nat) : Bytes := rowBytes T.t T.version T.fill key

/-- `buf` has the first `m` rows of page `c`. -/
structure HasRows (c m : Nat) (buf : Bytes) : Prop where
  length : buf.length = myPageSize
  rows : ∀ i < m, read (64 + T.t * i) T.t buf = T.rowOf (T.perPage * c + i)

/-- `buf` is page `c` with `m` rows, as it is on disk. -/
structure Stored (c m : Nat) (buf : Bytes) : Prop extends HasRows T c m buf where
  pageId : ofLE (read (0 * 8) 8 buf) = c
  usedSize : ofLE (read (2 * 8) 8 buf) = 64 + T.t * m

/-- The loader with `m` rows in the buffer of page `c`. -/
structure Filling (disk : Nat → Option Bytes) (c m : Nat) (l : Loader) : Prop where
  le : m ≤ T.perPage
  pageId : l.page.pageId = c
  usedSize : l.page.usedSize = 64 + T.t * m
  pageSize : l.page.pageSize = myPageSize
  buf : T.HasRows c m l.page.pageBuf
  last : l.tableSpace.lastPageId = c
  row : ∃ head tail, head.length = 8 ∧ tail.length = 8 ∧ l.row = head ++ (List.replicate (T.t - 16) T.fill ++ tail)
  index : ∀ key, l.index.indexGet key = if key < T.perPage * c + m then some (rowItem T.t key) else none
  stored : ∀ p < c, ∃ b, l.disk p = some b ∧ T.Stored p T.perPage b
  rest : ∀ p, c ≤ p → l.disk p = disk p

variable {T} {disk : Nat → Option Bytes} {c m : Nat} {l : Loader}

theorem length_rowOf (key : Nat) : (T.rowOf key).length = T.t := by
  have := T.size.words
  simp only [rowOf, rowBytes, List.length_append, length_toLE, List.length_replicate]
  omega

/-- The row behind the `m` rows of the page. -/
theorem HasRows.put {buf : Bytes} (h : T.HasRows c m buf) (hm : m < T.perPage) :
    T.HasRows c (m + 1) (write (64 + T.t * m) (T.rowOf (T.perPage * c + m)) buf) := by
  have hfit := rows_fit (Nat.succ_le_of_lt hm)
  rw [Nat.mul_succ] at hfit
  have hlen : 64 + T.t * m + (T.rowOf (T.perPage * c + m)).length ≤ buf.length := by
    rw [length_rowOf, h.length]
    omega
  refine ⟨by rw [length_write_of_le hlen, h.length], fun i hi => ?_⟩
  rcases Nat.lt_succ_iff_lt_or_eq.1 hi with hi | rfl
  · have := Nat.mul_le_mul_left T.t (Nat.succ_le_of_lt hi)
    rw [Nat.mul_succ] at this
    rw [read_write_of_disjoint (by omega) (.inl (by omega)), h.rows i hi]
  · exact read_write_self (by omega) (length_rowOf _)

/-- The page that `Serialize` makes of the buffer. -/
theorem Filling.stored_serialize (h : T.Filling disk c m l) (hc : c < 2 ^ 64) :
    T.Stored c m (read 0 myPageSize l.page.serialize.pageBuf) := by
  have hlen : l.page.serialize.pageBuf.length = myPageSize := by
    rw [Page.length_serialize (by rw [h.buf.length]; decide), h.buf.length]
  have hused : l.page.usedSize < 2 ^ 64 := by
    have := rows_fit h.le
    rw [h.usedSize]
    simp only [myPageSize] at this
    omega
  obtain ⟨hid, hus⟩ := Page.deserialize_serialize (rfl : l.page.serialize.pageBuf = _) (h.pageId ▸ hc) hused
  rw [read_length hlen]
  refine ⟨⟨hlen, fun i hi => ?_⟩, hid.trans h.pageId, hus.trans h.usedSize⟩
  rw [Page.read_serialize_of_le (by omega)]
  exact h.buf.rows i hi

/-- The page is full: it goes to disk, and the buffer becomes the next page. -/
theorem Filling.nextPage (h : T.Filling disk c T.perPage l) (hc : c < 2 ^ 64) :
    T.Filling disk (c + 1) 0 l.writePage.nextPage where
  le := Nat.zero_le _
  pageId := by
    have hid : (l.tableSpace.count.getLastPageId : Int) = l.tableSpace.count.lastPageId :=
      TableSpace.getLastPageId_of_nonneg (by simp only [TableSpace.count, h.last]; omega)
    simp only [TableSpace.count, h.last] at hid
    simp only [Loader.nextPage, Loader.writePage, TableSpace.getNextPageId, TableSpace.count, h.last]
    omega
  usedSize := rfl
  pageSize := h.pageSize
  buf := by
    refine ⟨?_, fun i hi => absurd hi (Nat.not_lt_zero i)⟩
    exact (Page.length_serialize (by rw [h.buf.length]; decide)).trans h.buf.length
  last := by
    simp only [Loader.nextPage, Loader.writePage, TableSpace.getNextPageId, TableSpace.count, h.last]
    omega
  row := h.row
  index key := by
    rw [Nat.mul_succ, Nat.add_zero]
    exact h.index key
  stored p hp := by
    rcases Nat.lt_succ_iff_lt_or_eq.1 hp with hp | rfl
    · obtain ⟨b, hb, hst⟩ := h.stored p hp
      refine ⟨b, ?_, hst⟩
      rw [← hb]
      exact Function.update_of_ne (hp.trans_eq h.pageId.symm).ne ..
    · refine ⟨_, ?_, h.stored_serialize hc⟩
      have hid : l.page.serialize.pageId = p := h.pageId
      simp only [Loader.nextPage, Loader.writePage, hid, Function.update_self]
  rest p hp := by
    refine .trans ?_ (h.rest p (by omega))
    exact Function.update_of_ne (by rw [show l.page.serialize.pageId = c from h.pageId]; omega) ..

/-- After the head of the loop there is room for a row. -/
theorem Filling.turnPage (h : T.Filling disk c m l) (hc : c < 2 ^ 64) :
    ∃ l' c' m', l.turnPage T.t = some l' ∧ T.Filling disk c' m' l' ∧ m' < T.perPage ∧
      T.perPage * c' + m' = T.perPage * c + m := by
  rw [Loader.turnPage, h.usedSize]
  by_cases hm : m = T.perPage
  · subst hm
    have hassert : (myPageSize - 64) / T.t * T.t + 64 = l.writePage.page.usedSize := by
      rw [show l.writePage.page.usedSize = _ from h.usedSize, Nat.mul_comm, Nat.add_comm]
      rfl
    refine ⟨l.writePage.nextPage, c + 1, 0, ?_, h.nextPage hc, T.size.rowsPerPage_pos, ?_⟩
    · rw [if_pos ((page_full_iff T.size h.le).2 rfl), if_pos hassert]
    · rw [Nat.mul_succ, Nat.add_zero]
  · exact ⟨l, c, m, if_neg (hm ∘ (page_full_iff T.size h.le).1), h, by have := h.le; omega, rfl⟩

/-- The two copies into `row` leave the filling between them. -/
theorem write_row {head tail : Bytes} (hhead : head.length = 8) (htail : tail.length = 8) (key : Nat) :
    write (T.t - 8) (toLE 8 T.version)
      (write 0 (toLE 8 key) (head ++ (List.replicate (T.t - 16) T.fill ++ tail))) = T.rowOf key := by
  have ht := T.size.words
  have hkey : write 0 (toLE 8 key) (head ++ (List.replicate (T.t - 16) T.fill ++ tail)) =
      (toLE 8 key ++ List.replicate (T.t - 16) T.fill) ++ tail := by
    rw [write_zero, length_toLE, List.drop_left' hhead, List.append_assoc]
  have hpre : (toLE 8 key ++ List.replicate (T.t - 16) T.fill).length = T.t - 8 := by
    simp only [List.length_append, length_toLE, List.length_replicate]
    omega
  have htail' : tail.drop 8 = [] := List.drop_eq_nil_of_le htail.le
  rw [hkey, Buf.write, List.take_left' hpre, ← hpre, length_toLE, List.drop_length_add_append, htail', List.append_nil,
    List.append_assoc]
  rfl

theorem Filling.putRow (h : T.Filling disk c m l) (hm : m < T.perPage) :
    ∃ l', l.putRow T.t T.version (T.perPage * c + m) = some l' ∧ T.Filling disk c (m + 1) l' := by
  obtain ⟨head, tail, hhead, htail, hrow⟩ := h.row
  have hfit := rows_fit (Nat.succ_le_of_lt hm)
  rw [Nat.mul_succ] at hfit
  have hrow' := write_row (T := T) hhead htail (T.perPage * c + m)
  have hput : l.page.pagePut l.page.pageId (T.rowOf (T.perPage * c + m)) T.t = some { l.page with
      pageBuf := write (64 + T.t * m) (T.rowOf (T.perPage * c + m)) l.page.pageBuf
      usedSize := 64 + T.t * m + T.t } := by
    rw [Page.pagePut, if_pos ⟨rfl, by rw [h.usedSize, h.pageSize]; omega⟩, h.usedSize, read_length (length_rowOf _)]
  rw [Loader.putRow, hrow, hrow', hput]
  refine ⟨_, rfl, ?_⟩
  constructor
  · exact Nat.succ_le_of_lt hm
  · exact h.pageId
  · exact (Nat.add_assoc ..).trans (by rw [Nat.mul_succ])
  · exact h.pageSize
  · exact h.buf.put hm
  · exact h.last
  · exact ⟨_, _, length_toLE, length_toLE, rfl⟩
  · intro key
    have hitem : (⟨l.page.pageId, 64 + T.t * m + T.t - T.t⟩ : IndexItem) = rowItem T.t (T.perPage * c + m) := by
      rw [rowItem_eq hm, h.pageId, Nat.add_sub_cancel]
    by_cases hkey : key = T.perPage * c + m
    · subst hkey
      simp only [IndexMap.indexGet, IndexMap.indexPut, Function.update_self]
      rw [if_pos (by omega), hitem]
    · simp only [IndexMap.indexGet, IndexMap.indexPut, Function.update_of_ne hkey]
      refine (h.index key).trans ?_
      simp only [show key < T.perPage * c + (m + 1) ↔ key < T.perPage * c + m by omega]
  · exact h.stored
  · exact h.rest

theorem Filling.start {ts : TableSpace} (hts : ts.lastPageId = -1) (buf : PageBuf) (pageVersion : Nat) :
    T.Filling disk 0 0 (.start ts T.t T.fill buf pageVersion disk) where
  le := Nat.zero_le _
  pageId := by simp [Loader.start, TableSpace.getNextPageId, TableSpace.getLastPageId, TableSpace.count, hts]
  usedSize := rfl
  pageSize := rfl
  buf := ⟨buf.length_eq, fun i hi => absurd hi (Nat.not_lt_zero i)⟩
  last := by simp [Loader.start, TableSpace.getNextPageId, TableSpace.count, hts]
  row := by
    have ht := T.size.words
    refine ⟨List.replicate 8 T.fill, List.replicate 8 T.fill, by simp, by simp, ?_⟩
    simp only [Loader.start, List.replicate_append_replicate]
    congr 1
    omega
  index key := by simp [Loader.start, IndexMap.empty, IndexMap.indexGet]
  stored p hp := absurd hp (Nat.not_lt_zero p)
  rest p _ := rfl

/-- The whole loop: after `n` rows the current page has some of them, but for `n = 0`. -/
theorem Filling.load (h : T.Filling disk 0 0 l) {n : Nat} (hn : n < 2 ^ 64) :
    ∃ l' c m, (List.range n).foldlM (Loader.loadRow T.t T.version) l = some l' ∧ T.Filling disk c m l' ∧
      T.perPage * c + m = n ∧ (n ≠ 0 → 0 < m) := by
  induction n with
  | zero => exact ⟨l, 0, 0, rfl, h, rfl, fun h => absurd rfl h⟩
  | succ n ih =>
    obtain ⟨l₁, c, m, hrun, h₁, hsum, -⟩ := ih (by omega)
    have hc : c ≤ T.perPage * c := Nat.le_mul_of_pos_left c T.size.rowsPerPage_pos
    obtain ⟨l₂, c', m', hturn, h₂, hm', hsum'⟩ := h₁.turnPage (by omega)
    obtain ⟨l₃, hput, h₃⟩ := h₂.putRow hm'
    rw [hsum', hsum] at hput
    refine ⟨l₃, c', m' + 1, ?_, h₃, by omega, fun _ => Nat.succ_pos m'⟩
    simp [List.range_succ, List.foldlM_append, hrun, Loader.loadRow, hturn, hput]

end TableShape

/-! ### The table on disk -/

/-- `FileIO::ReadPage` into a new page and `Deserialize`. -/
def Loader.readPage (pageId : Nat) (l : Loader) : Option Page :=
  (l.disk pageId).map fun buf => (Page.new buf 0).deserialize

/-- Index and disk are those of a table with the keys below `n`; `disk` was there before. -/
structure Readable (t version n : Nat) (disk : Nat → Option Bytes) (l : Loader) : Prop where
  row : ∀ key < n, ∃ item page, l.index.indexGet key = some item ∧ l.readPage item.pageId = some page ∧
    page.pageId = item.pageId ∧ 64 ≤ item.pageLocation ∧ item.pageLocation + t ≤ page.usedSize ∧
    page.usedSize ≤ myPageSize ∧ ofLE (read item.pageLocation 8 page.pageBuf) = key ∧
    ofLE (read (item.pageLocation + t - 8) 8 page.pageBuf) = version
  disjoint : ∀ key key' item item', key ≠ key' → l.index.indexGet key = some item →
    l.index.indexGet key' = some item' → item.pageId = item'.pageId →
    item.pageLocation + t ≤ item'.pageLocation ∨ item'.pageLocation + t ≤ item.pageLocation
  pages : ∀ p : Nat, (∃ key < n, ∃ item, l.index.indexGet key = some item ∧ item.pageId = p) ↔
    (p : Int) ≤ l.tableSpace.lastPageId
  rest : ∀ p : Nat, l.tableSpace.lastPageId < p → l.disk p = disk p

namespace TableShape

variable {T : TableShape} {disk : Nat → Option Bytes} {c m : Nat} {l : Loader}

/-- With the last page written all rows are on disk. -/
theorem Filling.stored_finish (h : T.Filling disk c m l) (hm : 0 < m) (hc : c < 2 ^ 64) {p : Nat} (hp : p ≤ c) :
    ∃ b, l.finish.disk p = some b ∧ T.Stored p (if p = c then m else T.perPage) b := by
  have ht := T.size.words
  have hused : 64 < l.page.usedSize := by
    rw [h.usedSize]
    have : 0 < T.t * m := Nat.mul_pos (by omega) hm
    omega
  have hid : l.page.serialize.pageId = c := h.pageId
  rw [Loader.finish, if_pos hused]
  simp only [Loader.writePage, hid]
  rcases hp.lt_or_eq with hp | rfl
  · rw [Function.update_of_ne hp.ne, if_neg hp.ne]
    exact h.stored p hp
  · rw [Function.update_self, if_pos rfl]
    exact ⟨_, rfl, h.stored_serialize hc⟩

theorem finish_index : l.finish.index = l.index := by
  rw [Loader.finish]
  split <;> rfl

theorem finish_tableSpace : l.finish.tableSpace = l.tableSpace := by
  rw [Loader.finish]
  split <;> rfl

/-- Key and version of a row. -/
theorem Stored.words {b : Bytes} {i : Nat} (h : T.Stored c m b) (hi : i < m) (hkey : T.perPage * c + i < 2 ^ 64) :
    ofLE (read (64 + T.t * i) 8 b) = T.perPage * c + i ∧ ofLE (read (64 + T.t * i + T.t - 8) 8 b) = T.version := by
  have ht := T.size.words
  have hrow := h.rows i hi
  have hpre : (toLE 8 (T.perPage * c + i) ++ List.replicate (T.t - 16) T.fill).length = T.t - 8 := by
    simp only [List.length_append, length_toLE, List.length_replicate]
    omega
  constructor
  · have hhead : read 0 8 (T.rowOf (T.perPage * c + i)) = toLE 8 (T.perPage * c + i) := by
      rw [rowOf, rowBytes, read_append_left (by simp), read_length length_toLE]
    rw [← hrow, read_read (by omega), Nat.add_zero] at hhead
    rw [hhead, ofLE_toLE_of_lt hkey]
  · have htail : read (T.t - 8) 8 (T.rowOf (T.perPage * c + i)) = toLE 8 T.version := by
      rw [rowOf, rowBytes, ← List.append_assoc, read_append_right hpre, List.take_of_length_le length_toLE.le]
    rw [← hrow, read_read (by omega)] at htail
    rw [Nat.add_sub_assoc (by omega), htail, ofLE_toLE_of_lt T.word]

theorem Filling.readable (h : T.Filling disk c m l) (hm : 0 < m) (hn : T.perPage * c + m < 2 ^ 64) :
    Readable T.t T.version (T.perPage * c + m) disk l.finish := by
  have hpos := T.size.rowsPerPage_pos
  have hcle : c ≤ T.perPage * c := Nat.le_mul_of_pos_left c hpos
  have hindex : ∀ key item, l.finish.index.indexGet key = some item →
      key < T.perPage * c + m ∧ item = rowItem T.t key := by
    intro key item hitem
    rw [finish_index, h.index] at hitem
    split at hitem
    · exact ⟨‹_›, (Option.some.inj hitem).symm⟩
    · cases hitem
  have hpage : ∀ key < T.perPage * c + m, key / T.perPage ≤ c ∧
      key % T.perPage < if key / T.perPage = c then m else T.perPage := by
    intro key hkey
    have hmod := Nat.mod_lt key hpos
    have hdiv := Nat.div_add_mod key T.perPage
    have hle : key / T.perPage ≤ c := by
      by_contra hgt
      have := Nat.mul_le_mul_left T.perPage (Nat.succ_le_of_lt (not_le.1 hgt))
      rw [Nat.mul_succ] at this
      have := h.le
      omega
    refine ⟨hle, ?_⟩
    split
    · rename_i heq
      rw [heq] at hdiv
      omega
    · exact hmod
  constructor
  · intro key hkey
    obtain ⟨hp, hi⟩ := hpage key hkey
    obtain ⟨b, hb, hst⟩ := h.stored_finish hm (by omega) hp
    have hdiv := Nat.div_add_mod key T.perPage
    obtain ⟨hk, hv⟩ := hst.words hi (by omega)
    rw [hdiv] at hk
    have hused : (Page.new b 0).deserialize.usedSize = _ := hst.usedSize
    refine ⟨rowItem T.t key, (Page.new b 0).deserialize, by rw [finish_index, h.index, if_pos hkey],
      by rw [Loader.readPage, rowItem, hb]; rfl, hst.pageId, Nat.le_add_right .., ?_, ?_, hk, hv⟩
    · have := Nat.mul_le_mul_left T.t (Nat.succ_le_of_lt hi)
      rw [Nat.mul_succ] at this
      have hloc : (rowItem T.t key).pageLocation = 64 + T.t * (key % T.perPage) := rfl
      rw [hused, hloc]
      omega
    · rw [hused]
      refine rows_fit ?_
      split
      · exact h.le
      · exact le_rfl
  · intro key key' item item' hne hitem hitem' heq
    obtain ⟨-, rfl⟩ := hindex key item hitem
    obtain ⟨-, rfl⟩ := hindex key' item' hitem'
    exact (rowLayout T.t T.size).disjoint key key' hne heq
  · intro p
    rw [finish_tableSpace, h.last, Int.ofNat_le]
    constructor
    · rintro ⟨key, hkey, item, hitem, rfl⟩
      obtain ⟨-, rfl⟩ := hindex key item hitem
      exact (hpage key hkey).1
    · intro hp
      have hkey : T.perPage * p < T.perPage * c + m := by
        have := Nat.mul_le_mul_left T.perPage hp
        omega
      refine ⟨T.perPage * p, hkey, rowItem T.t (T.perPage * p), ?_, Nat.mul_div_cancel_left p hpos⟩
      rw [finish_index, h.index, if_pos hkey]
  · intro p hp
    rw [finish_tableSpace, h.last, Int.ofNat_lt] at hp
    rw [Loader.finish]
    split
    · refine .trans (Function.update_of_ne ?_ ..) (h.rest p hp.le)
      rw [show l.page.serialize.pageId = c from h.pageId]
      exact hp.ne'
    · exact h.rest p hp.le

/-- The loader never fails, and what it leaves is readable. -/
theorem loadTable_readable {ts : TableSpace} (hts : ts.lastPageId = -1) (buf : PageBuf) (pageVersion : Nat) {n : Nat}
    (hn : 1 ≤ n) (hn64 : n < 2 ^ 64) :
    ∃ l, loadTable T.t T.version n (.start ts T.t T.fill buf pageVersion disk) = some l ∧
      Readable T.t T.version n disk l := by
  have hstart : T.Filling disk 0 0 (.start ts T.t T.fill buf pageVersion disk) := .start hts buf pageVersion
  obtain ⟨l, c, m, hrun, h, rfl, hm⟩ := hstart.load hn64
  exact ⟨l.finish, by rw [loadTable, hrun]; rfl, h.readable (hm (by omega)) hn64⟩

end TableShape

end Dbx1000
