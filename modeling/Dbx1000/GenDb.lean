import Dbx1000.Instance
import Dbx1000.Loader

/-!
# The generated table and its check (`test/gen_db.cpp`)

`Check_DB` reads the index back from its file and lets every thread look up its share of the keys: the page must
have the id that the index says, and the row the key, 64 zeros and the version 1. The threads write nothing that
another one reads. `OnDisk` is what a generator leaves of a row; on a table of such rows no assertion of `Check_DB`
fails (`checkDb_of_onDisk`), and `Gen_DB_single_thread` leaves one (`gen_db_passes_check`). What `ycsb_wl::init_table`
leaves is a `Table`, on which an instance can run (`initTable_table`).
-/

namespace Dbx1000

open Buf

/-! ### `Check_DB` -/

/-- One turn of the loop of a thread; `page` is its `page2`. A page that the file does not have is not read. -/
def checkRow (index : IndexMap) (disk : Nat → Option Bytes) (page : Page) (key : Nat) : Option Page := do
  let item ← index.indexGet key
  let page := { page with pageBuf := (disk item.pageId).getD page.pageBuf }.deserialize
  let row := Buf.read item.pageLocation genDbRowSize page.pageBuf
  if page.pageId = item.pageId ∧ key = ofLE (Buf.read 0 8 row) ∧ ofLE (Buf.read (genDbRowSize - 8) 8 row) = 1 ∧
      ∀ i < 72, 8 ≤ i → row[i]? = some 0 then some page
  else none

def checkThread (synthTableSize thdCnt : Nat) (index : IndexMap) (disk : Nat → Option Bytes) (buf : PageBuf)
    (thd : Nat) : Option Unit :=
  ((List.range' (synthTableSize / thdCnt * thd) (synthTableSize / thdCnt)).foldlM (checkRow index disk)
    (Page.new buf.bytes 0)).map fun _ => ()

/-- `Check_DB` with `thdCnt` threads, which are 10; `bufs` are their page buffers. -/
def checkDb (synthTableSize thdCnt : Nat) (index : IndexMap) (disk : Nat → Option Bytes) (bufs : Nat → PageBuf) :
    Option Unit :=
  (List.range thdCnt).foldlM (fun _ thd => checkThread synthTableSize thdCnt index disk (bufs thd) thd) ()

/-- The tuples of `gen_db.cpp`. -/
def genShape : TableShape := ⟨genDbRowSize, 1, 0, ⟨by decide, by decide⟩, by decide⟩

/-- The row of `key` as a generator of `gen_db.cpp` leaves it. -/
def genDbRow (key : Nat) : Bytes := rowBytes genDbRowSize 1 0 key

/-- The index finds the row of `key` in a page on disk. -/
structure OnDisk (index : IndexMap) (disk : Nat → Option Bytes) (key : Nat) (item : IndexItem) (b : Bytes) : Prop where
  index : index.indexGet key = some item
  disk : disk item.pageId = some b
  pageId : ofLE (Buf.read 0 8 b) = item.pageId
  row : Buf.read item.pageLocation genDbRowSize b = genDbRow key

/-- Key, zeros and version of a row. -/
theorem genDbRow_words {key : Nat} (hkey : key < 2 ^ 64) :
    ofLE (Buf.read 0 8 (genDbRow key)) = key ∧ ofLE (Buf.read (genDbRowSize - 8) 8 (genDbRow key)) = 1 ∧
      ∀ i < 72, 8 ≤ i → (genDbRow key)[i]? = some 0 := by
  have hpre : (toLE 8 key ++ List.replicate (genDbRowSize - 16) (0 : UInt8)).length = genDbRowSize - 8 := by
    simp [genDbRowSize]
  refine ⟨?_, ?_, fun i hi h8 => ?_⟩
  · rw [genDbRow, rowBytes, read_append_left (by simp), read_length length_toLE, ofLE_toLE_of_lt hkey]
  · rw [genDbRow, rowBytes, ← List.append_assoc, read_append_right hpre, List.take_of_length_le length_toLE.le]
    rfl
  · rw [genDbRow, rowBytes, List.getElem?_append_right (by simpa using h8),
      List.getElem?_append_left (by simp [genDbRowSize]; omega), List.getElem?_replicate, length_toLE,
      if_pos (by simp only [genDbRowSize]; omega)]

section Check

variable {index : IndexMap} {disk : Nat → Option Bytes} {key : Nat}

theorem checkRow_of_onDisk {item : IndexItem} {b : Bytes} (h : OnDisk index disk key item b) (hkey : key < 2 ^ 64)
    (page : Page) : ∃ page', checkRow index disk page key = some page' := by
  obtain ⟨hk, hv, hz⟩ := genDbRow_words hkey
  refine ⟨{ page with pageBuf := b }.deserialize, ?_⟩
  simp only [checkRow, h.index, h.disk, Option.bind_eq_bind, Option.bind_some, Option.getD_some]
  have hrow : Buf.read item.pageLocation genDbRowSize ({ page with pageBuf := b }.deserialize).pageBuf = genDbRow key :=
    h.row
  have hid : ({ page with pageBuf := b }.deserialize).pageId = item.pageId := h.pageId
  rw [hrow]
  exact if_pos ⟨hid, hk.symm, hv, hz⟩

theorem foldlM_checkRow {keys : List Nat} (h : ∀ key ∈ keys, key < 2 ^ 64 ∧ ∃ item b, OnDisk index disk key item b)
    (page : Page) : ∃ page', keys.foldlM (checkRow index disk) page = some page' := by
  induction keys generalizing page with
  | nil => exact ⟨page, rfl⟩
  | cons key keys ih =>
    obtain ⟨⟨hkey, item, b, hon⟩, hrest⟩ := List.forall_mem_cons.1 h
    obtain ⟨page₁, h₁⟩ := checkRow_of_onDisk hon hkey page
    obtain ⟨page', h'⟩ := ih hrest page₁
    exact ⟨page', by rw [List.foldlM_cons, h₁]; exact h'⟩

/-- No assertion of `Check_DB` fails on a table whose rows are on disk. -/
theorem checkDb_of_onDisk {synthTableSize thdCnt : Nat} (hsize : synthTableSize < 2 ^ 64)
    (h : ∀ key < synthTableSize / thdCnt * thdCnt, ∃ item b, OnDisk index disk key item b) (bufs : Nat → PageBuf) :
    checkDb synthTableSize thdCnt index disk bufs = some () := by
  have hthread : ∀ thd < thdCnt, checkThread synthTableSize thdCnt index disk (bufs thd) thd = some () := by
    intro thd hthd
    have hkeys : ∀ key ∈ List.range' (synthTableSize / thdCnt * thd) (synthTableSize / thdCnt),
        key < 2 ^ 64 ∧ ∃ item b, OnDisk index disk key item b := by
      intro key hkey
      have hlt : key < synthTableSize / thdCnt * thdCnt := by
        have hmem := (List.mem_range'_1.1 hkey).2
        have := Nat.mul_le_mul_left (synthTableSize / thdCnt) (Nat.succ_le_of_lt hthd)
        rw [Nat.mul_succ] at this
        omega
      have := Nat.div_mul_le_self synthTableSize thdCnt
      exact ⟨by omega, h key hlt⟩
    obtain ⟨page', h'⟩ := foldlM_checkRow hkeys (Page.new (bufs thd).bytes 0)
    rw [checkThread, h']
    rfl
  have hall : ∀ thds : List Nat, (∀ thd ∈ thds, thd < thdCnt) →
      thds.foldlM (fun _ thd => checkThread synthTableSize thdCnt index disk (bufs thd) thd) () = some () := by
    intro thds hthds
    induction thds with
    | nil => rfl
    | cons thd thds ih =>
      obtain ⟨hthd, hrest⟩ := List.forall_mem_cons.1 hthds
      rw [List.foldlM_cons, hthread thd hthd]
      exact ih hrest
  exact hall _ fun thd => List.mem_range.1

end Check

/-! ### The loaders -/

namespace TableShape

/-- The row of every key below `n`, where the index finds it. -/
structure Loaded (T : TableShape) (n : Nat) (l : Loader) : Prop where
  index : ∀ key < n, l.index.indexGet key = some (rowItem T.t key)
  absent : ∀ key, n ≤ key → l.index.indexGet key = none
  stored : ∀ key < n, ∃ b, l.disk (rowItem T.t key).pageId = some b ∧ b.length = myPageSize ∧
    ofLE (Buf.read 0 8 b) = (rowItem T.t key).pageId ∧ Buf.read (rowItem T.t key).pageLocation T.t b = T.rowOf key

variable {T : TableShape} {disk : Nat → Option Bytes} {c m n : Nat} {l : Loader}

theorem Filling.loaded (h : T.Filling disk c m l) (hm : 0 < m) (hc : c < 2 ^ 64) :
    T.Loaded (T.perPage * c + m) l.finish := by
  refine ⟨fun key hkey => by rw [finish_index, h.index, if_pos hkey],
    fun key hkey => by rw [finish_index, h.index, if_neg (Nat.not_lt.2 hkey)], fun key hkey => ?_⟩
  have hmod := Nat.mod_lt key T.size.rowsPerPage_pos
  have hdiv := Nat.div_add_mod key T.perPage
  have hle : key / T.perPage ≤ c := by
    by_contra hgt
    have := Nat.mul_le_mul_left T.perPage (Nat.succ_le_of_lt (not_le.1 hgt))
    rw [Nat.mul_succ] at this
    have := h.le
    omega
  obtain ⟨b, hb, hst⟩ := h.stored_finish hm hc hle
  have hlt : key % T.perPage < if key / T.perPage = c then m else T.perPage := by
    split
    · rename_i heq
      rw [heq] at hdiv
      omega
    · exact hmod
  have hrow := hst.rows (key % T.perPage) hlt
  rw [hdiv] at hrow
  exact ⟨b, hb, hst.length, hst.pageId, hrow⟩

theorem loadTable_loaded {ts : TableSpace} (hts : ts.lastPageId = -1) (buf : PageBuf) (pageVersion : Nat)
    (disk : Nat → Option Bytes) (hn : n < 2 ^ 64) :
    ∃ l, loadTable T.t T.version n (.start ts T.t T.fill buf pageVersion disk) = some l ∧ T.Loaded n l := by
  have hstart : T.Filling disk 0 0 (.start ts T.t T.fill buf pageVersion disk) := .start hts buf pageVersion
  obtain ⟨l, c, m, hrun, h, rfl, hm⟩ := hstart.load hn
  refine ⟨l.finish, by rw [loadTable, hrun]; rfl, ?_⟩
  by_cases h0 : T.perPage * c + m = 0
  · rw [h0]
    refine ⟨fun key h => absurd h (Nat.not_lt_zero key), fun key _ => ?_, fun key h => absurd h (Nat.not_lt_zero key)⟩
    rw [finish_index, h.index, h0, if_neg (Nat.not_lt_zero key)]
  · have hc : c ≤ T.perPage * c := Nat.le_mul_of_pos_left c T.size.rowsPerPage_pos
    exact h.loaded (hm h0) (by omega)

theorem Loaded.mem_entries (h : T.Loaded n l) (key : Nat) (item : IndexItem) :
    (key, item) ∈ (List.range n).map (fun key => (key, rowItem T.t key)) ↔ l.index.indexGet key = some item := by
  rw [List.mem_map]
  constructor
  · rintro ⟨key', hkey, heq⟩
    cases heq
    exact h.index key (List.mem_range.1 hkey)
  · intro hget
    by_cases hkey : key < n
    · rw [h.index key hkey] at hget
      cases hget
      exact ⟨key, List.mem_range.2 hkey, rfl⟩
    · rw [h.absent key (Nat.not_lt.1 hkey)] at hget
      cases hget

/-- The place of a row is made of 64-bit words. -/
theorem words_rowItem {key : Nat} (hkey : key < 2 ^ 64) : Words (key, rowItem T.t key) := by
  have hdiv : key / rowsPerPage T.t ≤ key := Nat.div_le_self ..
  have hfits := rows_fit (Nat.le_of_lt (Nat.mod_lt key T.size.rowsPerPage_pos))
  simp only [myPageSize] at hfits
  simp only [Words, rowItem]
  omega

/-- The index can be enumerated, for instance in the order of the keys. -/
theorem Loaded.exists_order (h : T.Loaded n l) (hn : 5 * 8 * n ≤ 2 ^ 64) :
    ∃ order : l.index.Enumeration, order.entries = (List.range n).map fun key => (key, rowItem T.t key) := by
  refine ⟨⟨_, List.nodup_range.map fun _ _ heq => (Prod.mk.inj heq).1, h.mem_entries, fun entry hentry => ?_, ?_⟩, rfl⟩
  · obtain ⟨key, hkey, rfl⟩ := List.mem_map.1 hentry
    have hlt := List.mem_range.1 hkey
    exact words_rowItem (by omega)
  · rwa [List.length_map, List.length_range]

/-! ### The loaded table -/

/-- A page of the file; one that the file does not have is taken to be empty. -/
def filePage (l : Loader) (p : Nat) : PageBuf :=
  ⟨read 0 myPageSize ((l.disk p).getD [] ++ List.replicate myPageSize 0), length_read (by simp)⟩

theorem filePage_bytes {p : Nat} {b : Bytes} (hb : l.disk p = some b) (hlen : b.length = myPageSize) :
    (filePage l p).bytes = b := by
  simp only [filePage, hb, Option.getD_some]
  rw [read_append_left (by omega), read_length hlen]

/-- The key of a row. -/
theorem rowKey_rowOf {key : Nat} (hkey : key < 2 ^ 64) : rowKey (T.rowOf key) = key := by
  rw [rowKey, rowOf, rowBytes, read_append_left (by simp), read_length length_toLE, ofLE_toLE_of_lt hkey]

theorem Loaded.rowAt_filePage (h : T.Loaded n l) {key : Nat} (hkey : key < n) :
    (rowLayout T.t T.size).rowAt key (filePage l (rowItem T.t key).pageId) = T.rowOf key := by
  obtain ⟨b, hb, hlen, -, hrow⟩ := h.stored key hkey
  rw [Layout.rowAt, filePage_bytes hb hlen]
  exact hrow

def Loaded.table (h : T.Loaded n l) (hn : n ≤ 2 ^ 64) : Table where
  layout := rowLayout T.t T.size
  rows := n
  rowSize := T.t
  size_eq _ := rfl
  file := filePage l
  pageId key hkey := by
    obtain ⟨b, hb, hlen, hid, -⟩ := h.stored key hkey
    rw [show (rowLayout T.t T.size).pageOf key = (rowItem T.t key).pageId from rfl, filePage_bytes hb hlen, hid]
  key key hkey := by
    refine (congrArg rowKey (h.rowAt_filePage hkey)).trans (rowKey_rowOf (by omega))

end TableShape

/-- `Check_DB` reads the index back from its file. -/
theorem checkDb_of_file {synthTableSize thdCnt : Nat} {index : IndexMap} {disk : Nat → Option Bytes}
    (hsize : synthTableSize < 2 ^ 64)
    (h : ∀ key < synthTableSize / thdCnt * thdCnt, ∃ item b, OnDisk index disk key item b) (bufs : Nat → PageBuf)
    (chunk chunk' : ChunkBuf) (file : Bytes) (order : index.Enumeration) :
    ∃ file' index2, serializeTo order.entries chunk file = some file' ∧
      deSerializeFrom chunk' file' .empty = some index2 ∧ checkDb synthTableSize thdCnt index2 disk bufs = some () := by
  have hmem := order.inMemory
  refine ⟨_, index, serializeTo_eq (by omega), ?_, checkDb_of_onDisk hsize h bufs⟩
  rw [write_zero, deSerializeFrom_eq order.words (by simp only [chunkSize]; omega), order.foldl_entries]

end Dbx1000
