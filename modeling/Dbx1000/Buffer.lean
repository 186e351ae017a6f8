import Dbx1000.Lru

/-!
# The buffer pool (`common/buffer/buffer.cpp`, `lru_index.cpp`)

The pool has `page_num_` frames, each owned by one node; a node is on `page_list_` when its frame
holds a page and on `free_list_` otherwise. `lru_index_` finds the node of a page. A miss with no free
frame writes the last fifth of `page_list_` to the disk. The disk is a page store: `disk p` are the
bytes that `ReadPage` reads and `WritePage` overwrites. `none` is a failed assertion, a null pointer
that is used, or a mutex that the caller already holds.
-/

namespace Dbx1000

structure Buffer where
  pageSize : Nat
  pageNum : Nat
  node : Nat → PageNode
  pageList : Lru
  freeList : Lru
  lruIndex : Nat → Option Nat
  disk : Nat → Bytes
  mutex : Bool

namespace Buffer

/-! ### The parts of the pool -/

def indexGet (pageId : Nat) (b : Buffer) : Option Nat := b.lruIndex pageId

def indexDelete (pageId : Nat) (b : Buffer) : Buffer :=
  { b with lruIndex := Function.update b.lruIndex pageId none }

def indexPut (pageId a : Nat) (b : Buffer) : Buffer :=
  let b := b.indexDelete pageId
  { b with lruIndex := Function.update b.lruIndex pageId (some a) }

def readPage (pageId : Nat) (b : Buffer) : Bytes := b.disk pageId

def writePage (pageId : Nat) (buf : Bytes) (b : Buffer) : Buffer :=
  { b with disk := Function.update b.disk pageId buf }

def setPageId (a pageId : Nat) (b : Buffer) : Buffer :=
  { b with node := Function.update b.node a { b.node a with pageId := pageId } }

def setPageBuf (a : Nat) (buf : Bytes) (count : Nat) (b : Buffer) : Buffer :=
  { b with node := Function.update b.node a { b.node a with pageBuf := memcpy (b.node a).pageBuf buf count } }

/-- The first `count` bytes of the frame. -/
def copyOut (a count : Nat) (b : Buffer) : Bytes := (b.node a).pageBuf.take count

def pageListPopback (b : Buffer) : Option (Nat × Buffer) := do
  let (a, node, l) ← b.pageList.popback b.node
  return (← a, { b with node := node, pageList := l })

def freeListPopback (b : Buffer) : Option (Nat × Buffer) := do
  let (a, node, l) ← b.freeList.popback b.node
  return (← a, { b with node := node, freeList := l })

def pageListPrepend (a : Nat) (b : Buffer) : Buffer :=
  { b with node := (b.pageList.prepend a b.node).1, pageList := (b.pageList.prepend a b.node).2 }

def freeListPrepend (a : Nat) (b : Buffer) : Buffer :=
  { b with node := (b.freeList.prepend a b.node).1, freeList := (b.freeList.prepend a b.node).2 }

def lock (b : Buffer) : Option Buffer := if b.mutex then none else some { b with mutex := true }

def unlock (b : Buffer) : Buffer := { b with mutex := false }

/-! ### The constructor -/

def newNode (pageSize : Nat) : PageNode := ⟨uint64Max, List.replicate pageSize 0, none, none⟩

/-- The first `n` nodes are put on the free list. -/
def newLoop (b : Buffer) : Nat → Buffer
  | 0 => b
  | n + 1 => (b.newLoop n).freeListPrepend n

def new (totalSize pageSize : Nat) (disk : Nat → Bytes) : Option Buffer :=
  let b : Buffer :=
    ⟨pageSize, totalSize / pageSize, fun _ => newNode pageSize, .empty, .empty, fun _ => none, disk, false⟩
  let b := b.newLoop b.pageNum
  if b.freeList.size = b.pageNum ∧ b.pageList.size = 0 then some b else none

/-! ### Flushing -/

/-- One turn of the loops of `FlushPageList` and `FlushALl`. -/
def flushTail (b : Buffer) : Option Buffer := do
  let (a, b) ← b.pageListPopback
  let b := b.writePage (b.node a).pageId (b.node a).pageBuf
  let b := b.indexDelete (b.node a).pageId
  let b := b.setPageId a uint64Max
  return b.freeListPrepend a

def flushLoop : Nat → Buffer → Option Buffer
  | 0, b => some b
  | n + 1, b => b.flushTail.bind (flushLoop n)

def flushPageList (b : Buffer) : Option Buffer :=
  if b.freeList.size = 0 ∧ b.pageList.size = b.pageNum then flushLoop (b.pageNum / 5) b else none

def flushALl (b : Buffer) : Option Buffer := flushLoop b.pageList.size b

def freeListToPageList (pageId : Nat) (buf : Bytes) (count : Nat) (b : Buffer) : Option Buffer :=
  if 0 < b.freeList.size ∧ b.pageList.size < b.pageNum then do
    let (a, b) ← b.freeListPopback
    let b := b.setPageId a pageId
    let b := b.setPageBuf a buf count
    let b := b.indexPut pageId a
    return b.pageListPrepend a
  else none

/-- A page that is not in the pool gets a frame. -/
def bringIn (pageId : Nat) (buf : Bytes) (count : Nat) (b : Buffer) : Option Buffer := do
  let b ← if b.freeList.size ≤ 0 then b.flushPageList else some b
  b.freeListToPageList pageId buf count

/-! ### Reading and writing pages -/

/-- The assertion in front of every call. -/
def assertSizes (b : Buffer) : Option Unit :=
  if b.pageList.size + b.freeList.size = b.pageNum then some () else none

def bufferGetWithLock (pageId count : Nat) (b : Buffer) : Option (Bytes × Buffer) := do
  let b ← b.lock
  b.assertSizes
  match b.indexGet pageId with
  | some a => return (b.copyOut a count, b.unlock)
  | none =>
    let buf := b.readPage pageId
    let b ← b.bringIn pageId buf count
    return (buf, b.unlock)

def bufferPutWithLock (pageId : Nat) (buf : Bytes) (count : Nat) (b : Buffer) : Option Buffer := do
  let b ← b.lock
  b.assertSizes
  match b.indexGet pageId with
  | some a => return (b.setPageBuf a buf count).unlock
  | none =>
    let b ← b.bringIn pageId buf count
    return b.unlock

def bufferGet (pageId count : Nat) (b : Buffer) : Option (Bytes × Buffer) := do
  let b ← b.lock
  b.assertSizes
  let b := b.unlock
  match b.indexGet pageId with
  | some a =>
    -- `page_list_->Get` does nothing
    let b ← b.lock
    let b := b.unlock
    return (b.copyOut a count, b)
  | none =>
    let buf := b.readPage pageId
    let b ← b.lock
    let b ← b.bringIn pageId buf count
    return (buf, b.unlock)

def bufferPut (pageId : Nat) (buf : Bytes) (count : Nat) (b : Buffer) : Option Buffer := do
  let b ← b.lock
  b.assertSizes
  let b := b.unlock
  match b.indexGet pageId with
  | some a =>
    let b ← b.lock
    let b := b.unlock
    return b.setPageBuf a buf count
  | none =>
    let b ← b.lock
    let b ← b.bringIn pageId buf count
    return b.unlock

end Buffer

end Dbx1000
