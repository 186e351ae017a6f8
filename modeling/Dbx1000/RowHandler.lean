import Dbx1000.BufferMap
import Dbx1000.LockTable
import Dbx1000.Page

/-!
# Rows through the buffer pool (`RowHandler` of `common/storage/row_handler.cpp`)

`SnapShotReadRow` copies the page of a key out of the pool, checks its page id and the key that the row begins with,
and gives the bytes of the row. `WriteRow` copies the page out, brings the row in and puts the page back, under the
X lock of the page. The calls are taken one at a time: `none` is a failed assertion or a lock for which the caller
would have to wait.

The pool with the lock table is a store of pages (`RowStore.Has`), and the two calls read and change the row of
their key in it.
-/

namespace Dbx1000

open Buf

/-- The pool and the lock table of an instance. -/
structure RowStore where
  pool : Buffer
  lockTable : Nat → LockNode

/-- `memcpy(&temp_key, row->row_, sizeof(uint64_t))`. -/
def rowKey (row : Bytes) : Nat := ofLE (read 0 8 row)

namespace RowStore

variable (L : Layout)

def snapShotReadRow (key : Nat) (s : RowStore) : Option (Bytes × RowStore) := do
  let (buf, pool) ← s.pool.bufferGet (L.pageOf key) myPageSize
  let page := (Page.new buf 0).deserialize
  if page.pageId = L.pageOf key then
    let row := read (L.location key) (L.size key) page.pageBuf
    if rowKey row = key then return (row, { s with pool := pool }) else none
  else none

def writeRow (key : Nat) (row : L.Row key) (s : RowStore) : Option RowStore :=
  let node := s.lockTable (L.pageOf key)
  if node.lockMode ≠ .O ∧ node.canLock .X = true then do
    let node ← node.lock .X
    let (buf, pool) ← s.pool.bufferGet (L.pageOf key) myPageSize
    let pool ← pool.bufferPut (L.pageOf key) (L.writeRowBytes key row buf) myPageSize
    let node ← node.unLock
    return ⟨pool, Function.update s.lockTable (L.pageOf key) node⟩
  else none

def flushALl (s : RowStore) : Option RowStore := s.pool.flushALl.map fun pool => { s with pool := pool }

end RowStore

/-- The instance has the page and nobody has a lock on it. -/
structure LockNode.Unlocked (n : LockNode) : Prop where
  mode : n.lockMode = .P
  count : n.count = 0
  mtx : n.mtx = false

/-- A lock that is taken and released. -/
theorem LockNode.Unlocked.lock_unLock {n : LockNode} (h : n.Unlocked) :
    n.lockMode ≠ .O ∧ n.canLock .X = true ∧ n.lock .X = some { n with lockMode := .X, count := 1 } ∧
      ({ n with lockMode := .X, count := 1 } : LockNode).unLock = some n := by
  refine ⟨by rw [h.mode]; exact nofun, ?_, if_pos h.count, ?_⟩
  · simp [canLock, h.mode, h.mtx]
  · have hn : ({ n with lockMode := .P, count := 0 } : LockNode) = n := by
      rw [← h.mode, ← h.count]
    exact congrArg some hn

namespace RowStore

/-- The pages of the store are `m`, and no page is locked. -/
structure Has (pageNum : Nat) (m : Nat → PageBuf) (s : RowStore) : Prop where
  pool : Holds myPageSize pageNum s.pool fun p => (m p).bytes
  locks : ∀ p, (s.lockTable p).Unlocked

namespace Has

variable {L : Layout} {pageNum key : Nat} {m : Nat → PageBuf} {s : RowStore}

theorem new {totalSize : Nat} {lockTable : Nat → LockNode} {disk : Nat → PageBuf} {pool : Buffer}
    (h : Buffer.new totalSize myPageSize (fun p => (disk p).bytes) = some pool) (hlocks : ∀ p, (lockTable p).Unlocked) :
    Has (totalSize / myPageSize) disk ⟨pool, lockTable⟩ := by
  obtain ⟨b, hb, hh⟩ := show ∃ b, Buffer.new totalSize myPageSize (fun p => (disk p).bytes) = some b ∧ _ from
    Holds.new fun p => (disk p).length_eq
  rw [h] at hb
  cases hb
  exact ⟨hh, hlocks⟩

theorem bufferGet (h : Has pageNum m s) (h5 : 5 ≤ pageNum) (p : Nat) :
    ∃ pool, s.pool.bufferGet p myPageSize = some ((m p).bytes, pool) ∧ Has pageNum m { s with pool := pool } := by
  obtain ⟨pool, hget, hh⟩ := h.pool.get h5 p
  rw [h.pool.config.1] at hget
  exact ⟨pool, by rw [Buffer.bufferGet_eq_withLock h.pool.mutex, hget], hh, h.locks⟩

theorem bufferPut (h : Has pageNum m s) (h5 : 5 ≤ pageNum) (p : Nat) (b : PageBuf) :
    ∃ pool, s.pool.bufferPut p b.bytes myPageSize = some pool ∧
      Has pageNum (Function.update m p b) { s with pool := pool } := by
  obtain ⟨pool, hput, hh⟩ := h.pool.put h5 p b.length_eq
  rw [h.pool.config.1] at hput
  refine ⟨pool, by rw [Buffer.bufferPut_eq_withLock h.pool.mutex, hput], ?_, h.locks⟩
  have heq : (fun q => (Function.update m p b q).bytes) = Function.update (fun q => (m q).bytes) p b.bytes :=
    funext fun q => (Function.apply_update (fun _ => PageBuf.bytes) m p b q)
  rw [heq]
  exact hh

theorem snapShotReadRow (h : Has pageNum m s) (h5 : 5 ≤ pageNum)
    (hid : ofLE (read 0 8 (m (L.pageOf key)).bytes) = L.pageOf key)
    (hkey : rowKey (L.rowAt key (m (L.pageOf key))) = key) :
    ∃ s', s.snapShotReadRow L key = some (L.rowAt key (m (L.pageOf key)), s') ∧ Has pageNum m s' := by
  obtain ⟨pool, hget, hh⟩ := h.bufferGet h5 (L.pageOf key)
  refine ⟨{ s with pool := pool }, ?_, hh⟩
  have hid' : ((Page.new (m (L.pageOf key)).bytes 0).deserialize).pageId = L.pageOf key := hid
  have hkey' : rowKey (read (L.location key) (L.size key)
      ((Page.new (m (L.pageOf key)).bytes 0).deserialize).pageBuf) = key := hkey
  simp only [RowStore.snapShotReadRow, hget, Option.bind_eq_bind, Option.bind_some, if_pos hid', if_pos hkey']
  rfl

theorem writeRow (h : Has pageNum m s) (h5 : 5 ≤ pageNum) (row : L.Row key) :
    ∃ s', s.writeRow L key row = some s' ∧
      Has pageNum (Function.update m (L.pageOf key) (L.writeRow key row (m (L.pageOf key)))) s' := by
  obtain ⟨hmode, hcan, hlock, hunlock⟩ := (h.locks (L.pageOf key)).lock_unLock
  obtain ⟨pool, hget, hh⟩ := h.bufferGet h5 (L.pageOf key)
  obtain ⟨pool', hput, hh'⟩ := hh.bufferPut h5 (L.pageOf key) (L.writeRow key row (m (L.pageOf key)))
  have hput : pool.bufferPut (L.pageOf key) (L.writeRowBytes key row (m (L.pageOf key)).bytes) myPageSize =
      some pool' := hput
  refine ⟨⟨pool', s.lockTable⟩, ?_, hh'⟩
  simp only [RowStore.writeRow, if_pos (And.intro hmode hcan), hlock, hget, hput, hunlock, Option.bind_eq_bind,
    Option.bind_some, Function.update_eq_self]
  rfl

theorem flushALl (h : Has pageNum m s) :
    ∃ s', s.flushALl = some s' ∧ Has pageNum m s' ∧ ∀ p, s'.pool.disk p = (m p).bytes := by
  obtain ⟨pool, hflush, hh, hdisk⟩ := h.pool.flushALl
  exact ⟨{ s with pool := pool }, by rw [RowStore.flushALl, hflush]; rfl, ⟨hh, h.locks⟩, hdisk⟩

end Has

end RowStore

end Dbx1000
