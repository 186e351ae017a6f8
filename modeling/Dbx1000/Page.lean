import Mathlib.Logic.Function.Basic
import Dbx1000.Lib.Bytes
import Dbx1000.Lru

/-!
# Pages and the rows in them (`common/storage/tablespace/page.cpp`)

The first 64 bytes of a page are its header, of which `Serialize` writes the four fields of `Page`. A
row stands where the index says; `RowHandler::WriteRow` copies the whole page out of the buffer, reads
the header fields, copies the row in, writes the header fields back and puts the page into the buffer
again. `Latest` says what is in a page after such writes: the last row of each key, and everywhere else
the bytes the page had before.
-/

namespace Dbx1000

open Buf

/-- `MY_PAGE_SIZE`. -/
def myPageSize : Nat := 1024 * 16

structure Page where
  pageId : Nat
  pageBuf : Bytes
  pageSize : Nat
  usedSize : Nat
  version : Nat

namespace Page

/-- `Page::Page`; `version_` is not initialised. -/
def new (buf : Bytes) (version : Nat) : Page := ⟨2 ^ 64 - 1, buf, myPageSize, 64, version⟩

def serialize (page : Page) : Page :=
  { page with
    pageBuf := write (3 * 8) (toLE 8 page.version) (write (2 * 8) (toLE 8 page.usedSize)
      (write (1 * 8) (toLE 8 page.pageSize) (write (0 * 8) (toLE 8 page.pageId) page.pageBuf))) }

def deserialize (page : Page) : Page :=
  { page with
    pageId := ofLE (read (0 * 8) 8 page.pageBuf)
    pageSize := ofLE (read (1 * 8) 8 page.pageBuf)
    usedSize := ofLE (read (2 * 8) 8 page.pageBuf)
    version := ofLE (read (3 * 8) 8 page.pageBuf) }

/-- `PagePut`; `none` is a failed assertion. -/
def pagePut (pageId : Nat) (rowBuf : Bytes) (count : Nat) (page : Page) : Option Page :=
  if page.pageId = pageId ∧ page.usedSize + count ≤ page.pageSize then
    some { page with
      pageBuf := write page.usedSize (read 0 count rowBuf) page.pageBuf
      usedSize := page.usedSize + count }
  else none

/-- `memcpy(&page_buf[location], row, size)`. -/
def copyRow (location : Nat) (row : Bytes) (page : Page) : Page :=
  { page with pageBuf := write location row page.pageBuf }

variable {page : Page} {buf row : Bytes} {location : Nat}

/-- A header field that is written as it was read. -/
theorem write_field {off : Nat} {b b' : Bytes} (h : off + 8 ≤ b'.length) (hr : read off 8 b' = read off 8 b) :
    write off (toLE 8 (ofLE (read off 8 b))) b' = b' := by
  rw [← hr, toLE_ofLE_of_length (length_read h), write_read h]

/-- `Deserialize`, a copy behind the header and `Serialize` write the header with itself. -/
theorem serialize_copyRow_deserialize (hloc : 64 ≤ location) (hlen : location + row.length ≤ page.pageBuf.length) :
    ((page.deserialize.copyRow location row).serialize).pageBuf = write location row page.pageBuf := by
  have hlen' : (write location row page.pageBuf).length = page.pageBuf.length := length_write_of_le hlen
  have hfield : ∀ j, j ≤ 3 → write (j * 8) (toLE 8 (ofLE (read (j * 8) 8 page.pageBuf)))
      (write location row page.pageBuf) = write location row page.pageBuf := by
    intro j hj
    exact write_field (by omega) (read_write_of_disjoint (by omega) (.inl (by omega)))
  simp only [serialize, copyRow, deserialize, hfield 0 (by omega), hfield 1 (by omega), hfield 2 (by omega),
    hfield 3 (by omega)]

/-- The bytes that `Serialize` writes. -/
def headerBytes (page : Page) : Bytes :=
  toLE 8 page.pageId ++ (toLE 8 page.pageSize ++ (toLE 8 page.usedSize ++ toLE 8 page.version))

@[simp] theorem length_headerBytes : page.headerBytes.length = 32 := by simp [headerBytes]

theorem pageBuf_serialize : page.serialize.pageBuf = write 0 page.headerBytes page.pageBuf := by
  have happend : ∀ (off field : Nat) (src : Bytes), src.length = off →
      write off (toLE 8 field) (write 0 src page.pageBuf) = write 0 (src ++ toLE 8 field) page.pageBuf := by
    rintro off field src rfl
    have h : write (0 + src.length) (toLE 8 field) (write 0 src page.pageBuf) =
        write 0 (src ++ toLE 8 field) page.pageBuf := write_write_append (Nat.zero_le _)
    rwa [Nat.zero_add] at h
  simp (disch := simp) only [serialize, Nat.zero_mul, happend, headerBytes, List.append_assoc]

theorem length_serialize (hlen : 32 ≤ page.pageBuf.length) :
    page.serialize.pageBuf.length = page.pageBuf.length := by
  rw [pageBuf_serialize, length_write_of_le (by simpa using hlen)]

/-- Behind the four fields `Serialize` leaves the page alone. -/
theorem read_serialize_of_le {o n : Nat} (ho : 32 ≤ o) :
    read o n page.serialize.pageBuf = read o n page.pageBuf := by
  rw [pageBuf_serialize]
  exact read_write_of_disjoint (Nat.zero_le _) (.inr (by simpa using ho))

/-- What `Deserialize` finds in a page that `Serialize` wrote. -/
theorem deserialize_serialize {page' : Page} (hbuf : page'.pageBuf = page.serialize.pageBuf)
    (hid : page.pageId < 2 ^ 64) (hused : page.usedSize < 2 ^ 64) :
    page'.deserialize.pageId = page.pageId ∧ page'.deserialize.usedSize = page.usedSize := by
  have hfield : ∀ (pre post : Bytes) (field : Nat), page.headerBytes = pre ++ (toLE 8 field ++ post) →
      field < 2 ^ 64 → ofLE (read pre.length 8 page'.pageBuf) = field := by
    intro pre post field heq hlt
    have hread : read pre.length 8 page'.pageBuf = toLE 8 field := by
      rw [hbuf, pageBuf_serialize, write_zero, heq, List.append_assoc, List.append_assoc, read_append_right rfl,
        List.take_left' length_toLE]
    rw [hread, ofLE_toLE_of_lt hlt]
  constructor
  · exact hfield [] _ _ rfl hid
  · refine hfield (toLE 8 page.pageId ++ toLE 8 page.pageSize) (toLE 8 page.version) _ ?_ hused
    simp only [headerBytes, List.append_assoc]

end Page

/-! ### Rows -/

/-- `common/index/index.h`. -/
structure IndexItem where
  pageId : Nat
  pageLocation : Nat
deriving DecidableEq, Repr

/-- The contents of a `RowItem` of `size` bytes. -/
structure Tuple (size : Nat) where
  bytes : Bytes
  length_eq : bytes.length = size

/-- An index, and a size for the row of each key, such that the rows lie behind the header and do not overlap. -/
structure Layout where
  index : Nat → IndexItem
  size : Nat → Nat
  header : ∀ key, 64 ≤ (index key).pageLocation
  fits : ∀ key, (index key).pageLocation + size key ≤ myPageSize
  disjoint : ∀ key key', key ≠ key' → (index key).pageId = (index key').pageId →
    (index key).pageLocation + size key ≤ (index key').pageLocation ∨
      (index key').pageLocation + size key' ≤ (index key).pageLocation

/-- The contents of a page buffer. -/
structure PageBuf where
  bytes : Bytes
  length_eq : bytes.length = myPageSize

/-- The 64 bytes of page information. -/
def PageBuf.header (b : PageBuf) : Bytes := read 0 64 b.bytes

namespace Layout

variable (L : Layout)

abbrev Row (key : Nat) : Type := Tuple (L.size key)

def pageOf (key : Nat) : Nat := (L.index key).pageId

def location (key : Nat) : Nat := (L.index key).pageLocation

/-- The bytes at the place of `key`. -/
def rowAt (key : Nat) (b : PageBuf) : Bytes := read (L.location key) (L.size key) b.bytes

/-- `RowHandler::WriteRow` between `BufferGet` and `BufferPut`. -/
def writeRowBytes (key : Nat) (row : L.Row key) (buf : Bytes) : Bytes :=
  (((Page.new buf 0).deserialize.copyRow (L.location key) row.bytes).serialize).pageBuf

variable {L} {key : Nat} {row : L.Row key}

theorem location_add_le {buf : Bytes} (hbuf : buf.length = myPageSize) :
    L.location key + row.bytes.length ≤ buf.length := by
  rw [hbuf, row.length_eq]
  exact L.fits key

theorem writeRowBytes_eq {buf : Bytes} (hbuf : buf.length = myPageSize) :
    L.writeRowBytes key row buf = write (L.location key) row.bytes buf :=
  Page.serialize_copyRow_deserialize (L.header key) (location_add_le hbuf)

theorem length_writeRowBytes {buf : Bytes} (hbuf : buf.length = myPageSize) :
    (L.writeRowBytes key row buf).length = myPageSize := by
  rw [writeRowBytes_eq hbuf, length_write_of_le (location_add_le hbuf), hbuf]

def writeRow (L : Layout) (key : Nat) (row : L.Row key) (b : PageBuf) : PageBuf :=
  ⟨L.writeRowBytes key row b.bytes, length_writeRowBytes b.length_eq⟩

variable {b : PageBuf}

theorem writeRow_bytes : (L.writeRow key row b).bytes = write (L.location key) row.bytes b.bytes :=
  writeRowBytes_eq b.length_eq

theorem location_le : L.location key ≤ b.bytes.length := by
  have := L.fits key
  rw [b.length_eq]
  exact (Nat.le_add_right ..).trans this

@[simp] theorem rowAt_writeRow : L.rowAt key (L.writeRow key row b) = row.bytes := by
  rw [rowAt, writeRow_bytes]
  exact read_write_self location_le row.length_eq

theorem rowAt_writeRow_of_ne {key' : Nat} (h : key' ≠ key) (hp : L.pageOf key' = L.pageOf key) :
    L.rowAt key' (L.writeRow key row b) = L.rowAt key' b := by
  rw [rowAt, rowAt, writeRow_bytes]
  refine read_write_of_disjoint location_le ?_
  rw [row.length_eq]
  exact L.disjoint key' key h hp

/-- The byte `i` of page `p` belongs to no row. -/
def Gap (L : Layout) (p i : Nat) : Prop :=
  ∀ key, L.pageOf key = p → i < L.location key ∨ L.location key + L.size key ≤ i

theorem getElem?_writeRow {i : Nat} (hi : L.Gap (L.pageOf key) i) : (L.writeRow key row b).bytes[i]? = b.bytes[i]? := by
  rw [writeRow_bytes]
  refine getElem?_write_of_not location_le ?_
  rw [row.length_eq]
  exact hi key rfl

/-! ### The last rows -/

/-- Page `p` was `b₀` at first and has the rows `last` since. -/
structure Latest (L : Layout) (p : Nat) (b₀ : PageBuf) (last : ∀ key, Option (L.Row key)) (b : PageBuf) : Prop where
  row : ∀ key, L.pageOf key = p → L.rowAt key b = ((last key).map Tuple.bytes).getD (L.rowAt key b₀)
  rest : ∀ i, L.Gap p i → b.bytes[i]? = b₀.bytes[i]?

namespace Latest

variable {p : Nat} {b₀ : PageBuf} {last : ∀ key, Option (L.Row key)}

theorem refl : L.Latest p b₀ (fun _ => none) b₀ := ⟨fun _ _ => rfl, fun _ _ => rfl⟩

theorem write (h : L.Latest p b₀ last b) (hp : L.pageOf key = p) :
    L.Latest p b₀ (Function.update last key (some row)) (L.writeRow key row b) := by
  subst hp
  constructor
  · intro key' hp'
    by_cases hk : key' = key
    · subst hk
      simp
    · rw [rowAt_writeRow_of_ne hk hp', Function.update_of_ne hk]
      exact h.row key' hp'
  · intro i hi
    rw [getElem?_writeRow hi]
    exact h.rest i hi

/-- A write to another page. -/
theorem write_other (h : L.Latest p b₀ last b) (hp : L.pageOf key ≠ p) :
    L.Latest p b₀ (Function.update last key (some row)) b := by
  refine ⟨fun key' hp' => ?_, h.rest⟩
  rw [Function.update_of_ne (by rintro rfl; exact hp hp')]
  exact h.row key' hp'

theorem header (h : L.Latest p b₀ last b) : b.header = b₀.header := by
  refine List.ext_getElem? fun i => ?_
  rw [PageBuf.header, PageBuf.header, getElem?_read, getElem?_read]
  split
  · refine h.rest _ fun key _ => .inl ?_
    have := L.header key
    rw [location]
    omega
  · rfl

end Latest

end Layout

/-- A call of `WriteRow`. -/
structure RowWrite (L : Layout) where
  key : Nat
  row : L.Row key

/-! ### Small pages -/

/-- Two rows of 16 bytes in every page. -/
def pairLayout : Layout where
  index key := ⟨key / 2, 64 + 16 * (key % 2)⟩
  size _ := 16
  header key := Nat.le_add_right ..
  fits key := by simp only [myPageSize]; omega
  disjoint key key' hne h := by simp only at h ⊢; omega

def fillPage (b : UInt8) : PageBuf := ⟨List.replicate myPageSize b, List.length_replicate⟩

def fillRow (key : Nat) (b : UInt8) : pairLayout.Row key := ⟨List.replicate 16 b, List.length_replicate⟩

end Dbx1000
