import Mathlib.Data.List.AList
import Dbx1000.Index
import Dbx1000.Lib.Sim

/-!
# `FileIO` and the shared disk (`common/storage/disk/file_io.cpp`, `shared_disk/brpc/shared_disk_service.cpp`)

`FileIO` keeps a map of the files it has opened over the system calls of its process. `SharedDiskClient`
has the same functions: each one fills a request, which a handler of `SharedDiskServer` passes to the
`FileIO` of the server, and returns what the reply says. `Posix` are the system calls, over any state of
files and descriptors; `none` is a failed assertion, a copy beyond a buffer or a loop that goes on from a freed
node. Fields of a message that are not set have the value 0 or are empty.
-/

namespace Dbx1000

open Buf

/-- The system calls. `pwrite` and `pread` give what was transferred, and `none` for -1. -/
structure Posix (σ : Type) where
  openFile : String → σ → Int32 × σ
  pwrite : Int32 → Bytes → UInt64 → σ → Option Nat × σ
  pread : Int32 → Nat → UInt64 → σ → Option Bytes
  close : Int32 → σ → Int32 × σ

/-- The result of `pwrite` or `pread` as a `size_t`. -/
def sizeT (n : Option Nat) : Nat := n.getD (2 ^ 64 - 1)

/-- The first `size` bytes behind a pointer. -/
def memory (buf : Bytes) (size : Nat) : Option Bytes := if size ≤ buf.length then some (buf.take size) else none

def itemNumPerFile : UInt64 := 1024 * 100

/-! ### `FileIO` -/

/-- A process with its `opened_file_`. -/
structure FileProc (σ : Type) where
  os : σ
  openedFile : AList fun _ : String => Int32

namespace FileProc

/-- The descriptor is in `opened_file_`. -/
def Recorded {σ : Type} (fd : Int32) (s : FileProc σ) : Prop := ∃ entry ∈ s.openedFile.entries, entry.2 = fd

instance {σ : Type} (fd : Int32) (s : FileProc σ) : Decidable (s.Recorded fd) :=
  inferInstanceAs (Decidable (∃ entry ∈ s.openedFile.entries, entry.2 = fd))

variable {σ : Type} (O : Posix σ)

def openFile (path : String) (s : FileProc σ) : Option (Int32 × FileProc σ) :=
  if 0 < (O.openFile path s.os).1 then
    some ((O.openFile path s.os).1, {
      os := (O.openFile path s.os).2
      openedFile :=
        if path ∈ s.openedFile then s.openedFile else s.openedFile.insert path (O.openFile path s.os).1 })
  else none

def write (fd : Int32) (buf : Bytes) (size : Nat) (offset : UInt64) (s : FileProc σ) : Option (Nat × FileProc σ) := do
  let src ← memory buf size
  return (sizeT (O.pwrite fd src offset s.os).1, { s with os := (O.pwrite fd src offset s.os).2 })

/-- The bytes that are put into the buffer, and the returned size. -/
def read (fd : Int32) (size : Nat) (offset : UInt64) (s : FileProc σ) : Bytes × Nat :=
  ((O.pread fd size offset s.os).getD [], sizeT ((O.pread fd size offset s.os).map List.length))

/-- The file of a page: `DB_PREFIX`, a number and `DB_SUFIX`. -/
def pagePath (pageId : UInt64) : String := "../db/" ++ toString (pageId / itemNumPerFile).toNat ++ ".table"

def pageOffset (pageId : UInt64) : UInt64 := (pageId % itemNumPerFile) * UInt64.ofNat myPageSize

/-- The descriptor of a page's file, which is opened if it is not in the map. -/
def pageFd (pageId : UInt64) (s : FileProc σ) : Option (Int32 × FileProc σ) := do
  let (fd, s) ← match s.openedFile.lookup (pagePath pageId) with
    | some fd => some (fd, s)
    | none => s.openFile O (pagePath pageId)
  if 0 < fd then return (fd, s) else none

def writePage (pageId : UInt64) (pageBuf : Bytes) (s : FileProc σ) : Option (Nat × FileProc σ) := do
  let (fd, s) ← s.pageFd O pageId
  s.write O fd pageBuf myPageSize (pageOffset pageId)

def readPage (pageId : UInt64) (s : FileProc σ) : Option ((Bytes × Nat) × FileProc σ) := do
  let (fd, s) ← s.pageFd O pageId
  return (s.read O fd myPageSize (pageOffset pageId), s)

/-- `Close(int fd)`. Where the loop finds an entry with this descriptor, it erases the node it stands on and then
goes on from there: the increment reads freed memory. -/
def close (fd : Int32) (s : FileProc σ) : Option (Int32 × FileProc σ) :=
  if s.Recorded fd then none else some ((O.close fd s.os).1, { s with os := (O.close fd s.os).2 })

end FileProc

/-! ### The messages -/

structure OpenRequest where
  path : String := ""

structure OpenReply where
  fd : Int32 := 0

structure WriteRequest where
  fd : Int32 := 0
  buf : Bytes := []
  size : Nat := 0
  offset : Int64 := 0

structure WriteReply where
  size : Nat := 0

structure ReadRequest where
  fd : Int32 := 0
  size : Nat := 0
  offset : Int64 := 0

structure ReadReply where
  buf : Bytes := []
  size : Nat := 0

structure WritePageRequest where
  pageId : UInt64 := 0
  pageBuf : Bytes := []

structure WritePageReply where
  size : Nat := 0

structure ReadPageRequest where
  pageId : UInt64 := 0

structure ReadPageReply where
  pageBuf : Bytes := []
  size : Nat := 0

structure CloseRequest where
  fd : Int32 := 0

structure CloseReply where
  rc : Int32 := 0

/-! ### The server -/

namespace SharedDiskServer

variable {σ : Type} (O : Posix σ)

def openFile (request : OpenRequest) (s : FileProc σ) : Option (OpenReply × FileProc σ) := do
  let (fd, s) ← s.openFile O request.path
  return ({ fd := fd }, s)

def write (request : WriteRequest) (s : FileProc σ) : Option (WriteReply × FileProc σ) := do
  if request.buf.length = request.size then
    let (size, s) ← s.write O request.fd request.buf request.size request.offset.toUInt64
    return ({ size := size }, s)
  else none

def read (request : ReadRequest) (s : FileProc σ) : Option (ReadReply × FileProc σ) := do
  let (buf, readSize) := s.read O request.fd request.size request.offset.toUInt64
  if readSize = request.size then
    let buf ← memory buf readSize
    return ({ buf := buf, size := readSize }, s)
  else none

def writePage (request : WritePageRequest) (s : FileProc σ) : Option (WritePageReply × FileProc σ) := do
  if request.pageBuf.length = myPageSize then
    let (size, s) ← s.writePage O request.pageId request.pageBuf
    return ({ size := size }, s)
  else none

def readPage (request : ReadPageRequest) (s : FileProc σ) : Option (ReadPageReply × FileProc σ) := do
  let ((buf, readSize), s) ← s.readPage O request.pageId
  if readSize = myPageSize then
    let buf ← memory buf readSize
    return ({ pageBuf := buf, size := readSize }, s)
  else none

def close (request : CloseRequest) (s : FileProc σ) : Option (CloseReply × FileProc σ) := do
  let (rc, s) ← s.close O request.fd
  return ({ rc := rc }, s)

end SharedDiskServer

/-! ### The client -/

namespace SharedDiskClient

variable {σ : Type} (O : Posix σ)

def openFile (path : String) (s : FileProc σ) : Option (Int32 × FileProc σ) := do
  let (reply, s) ← SharedDiskServer.openFile O { path := path } s
  return (reply.fd, s)

def write (fd : Int32) (buf : Bytes) (size : Nat) (offset : UInt64) (s : FileProc σ) : Option (Nat × FileProc σ) := do
  let src ← memory buf size
  let (reply, s) ← SharedDiskServer.write O { fd := fd, buf := src, size := size, offset := offset.toInt64 } s
  if reply.size = size then return (reply.size, s) else none

def read (fd : Int32) (size : Nat) (offset : UInt64) (s : FileProc σ) : Option ((Bytes × Nat) × FileProc σ) := do
  let (reply, s) ← SharedDiskServer.read O { fd := fd, size := size, offset := offset.toInt64 } s
  if size = reply.buf.length ∧ size = reply.size then return ((reply.buf, reply.size), s) else none

def writePage (pageId : UInt64) (pageBuf : Bytes) (s : FileProc σ) : Option (Nat × FileProc σ) := do
  let src ← memory pageBuf myPageSize
  let (reply, s) ← SharedDiskServer.writePage O { pageId := pageId, pageBuf := src } s
  if reply.size = myPageSize then return (reply.size, s) else none

def readPage (pageId : UInt64) (s : FileProc σ) : Option ((Bytes × Nat) × FileProc σ) := do
  let (reply, s) ← SharedDiskServer.readPage O { pageId := pageId } s
  if myPageSize = reply.pageBuf.length ∧ myPageSize = reply.size then return ((reply.pageBuf, reply.size), s) else none

/-- The request is sent as it was made, without `fd`. -/
def close (_fd : Int32) (s : FileProc σ) : Option (Int32 × FileProc σ) := do
  let (reply, s) ← SharedDiskServer.close O {} s
  return (reply.rc, s)

end SharedDiskClient

/-! ### Calls -/

/-- A call of `FileIO` or of `SharedDiskClient`, with the buffer it is given. -/
inductive DiskCall
  | openFile (path : String)
  | write (fd : Int32) (buf : Bytes) (size : Nat) (offset : UInt64)
  | read (fd : Int32) (size : Nat) (offset : UInt64)
  | writePage (pageId : UInt64) (pageBuf : Bytes)
  | readPage (pageId : UInt64)
  | close (fd : Int32)

inductive DiskResult
  | fd (fd : Int32)
  | written (size : Nat)
  | got (buf : Bytes) (size : Nat)
  | rc (rc : Int32)
deriving DecidableEq, Repr

variable {σ : Type} (O : Posix σ)

def FileProc.call (s : FileProc σ) : DiskCall → Option (DiskResult × FileProc σ)
  | .openFile path => (s.openFile O path).map fun r => (.fd r.1, r.2)
  | .write fd buf size offset => (s.write O fd buf size offset).map fun r => (.written r.1, r.2)
  | .read fd size offset => some (.got (s.read O fd size offset).1 (s.read O fd size offset).2, s)
  | .writePage pageId pageBuf => (s.writePage O pageId pageBuf).map fun r => (.written r.1, r.2)
  | .readPage pageId => (s.readPage O pageId).map fun r => (.got r.1.1 r.1.2, r.2)
  | .close fd => (s.close O fd).map fun r => (.rc r.1, r.2)

def SharedDiskClient.call (s : FileProc σ) : DiskCall → Option (DiskResult × FileProc σ)
  | .openFile path => (openFile O path s).map fun r => (.fd r.1, r.2)
  | .write fd buf size offset => (write O fd buf size offset s).map fun r => (.written r.1, r.2)
  | .read fd size offset => (read O fd size offset s).map fun r => (.got r.1.1 r.1.2, r.2)
  | .writePage pageId pageBuf => (writePage O pageId pageBuf s).map fun r => (.written r.1, r.2)
  | .readPage pageId => (readPage O pageId s).map fun r => (.got r.1.1 r.1.2, r.2)
  | .close fd => (close O fd s).map fun r => (.rc r.1, r.2)

/-- All bytes of the call were transferred. -/
def DiskCall.Transferred : DiskCall → DiskResult → Prop
  | .write _ _ size _, .written n => n = size
  | .read _ size _, .got buf n => n = size ∧ buf.length = size
  | .writePage .., .written n => n = myPageSize
  | .readPage _, .got buf n => n = myPageSize ∧ buf.length = myPageSize
  | _, _ => True

/-- The descriptor that is closed is the one a request without descriptor names. -/
def DiskCall.Marshalled : DiskCall → Prop
  | .close fd => fd = 0
  | _ => True

variable {O} {s s' : FileProc σ} {r : DiskResult}

theorem memory_eq_some {buf src : Bytes} {size : Nat} (h : memory buf size = some src) :
    src.length = size ∧ memory src size = some src := by
  rw [memory, Option.ite_none_right_eq_some, Option.some.injEq] at h
  obtain ⟨hle, rfl⟩ := h
  have hlen : (buf.take size).length = size := List.length_take_of_le hle
  exact ⟨hlen, by rw [memory, if_pos hlen.ge, List.take_of_length_le hlen.le]⟩

theorem memory_self {buf : Bytes} {size : Nat} (h : buf.length = size) : memory buf size = some buf := by
  rw [memory, if_pos h.ge, List.take_of_length_le h.le]

/-- A transfer of all bytes goes through the service unchanged. -/
theorem SharedDiskClient.write_eq {fd : Int32} {buf : Bytes} {size n : Nat} {offset : UInt64}
    (h : s.write O fd buf size offset = some (n, s')) (hn : n = size) :
    SharedDiskClient.write O fd buf size offset s = some (n, s') := by
  subst hn
  obtain ⟨src, hsrc, h'⟩ := Option.bind_eq_some_iff.1 h
  obtain ⟨hlen, hself⟩ := memory_eq_some hsrc
  simp only [Option.pure_def, Option.some.injEq, Prod.mk.injEq] at h'
  simp [SharedDiskClient.write, SharedDiskServer.write, FileProc.write, hsrc, hlen, hself, h'.1, h'.2]

theorem SharedDiskClient.read_eq {fd : Int32} {size : Nat} {offset : UInt64}
    (h : (s.read O fd size offset).2 = size ∧ (s.read O fd size offset).1.length = size) :
    SharedDiskClient.read O fd size offset s = some (s.read O fd size offset, s) := by
  have hserver : SharedDiskServer.read O { fd := fd, size := size, offset := offset.toInt64 } s =
      some ({ buf := (s.read O fd size offset).1, size := size }, s) := by
    simp [SharedDiskServer.read, h.1, memory_self h.2]
  simp [SharedDiskClient.read, hserver, h.2, Prod.ext_iff, h.1]

theorem SharedDiskClient.writePage_eq {pageId : UInt64} {pageBuf : Bytes} {n : Nat}
    (h : s.writePage O pageId pageBuf = some (n, s')) (hn : n = myPageSize) :
    SharedDiskClient.writePage O pageId pageBuf s = some (n, s') := by
  subst hn
  obtain ⟨⟨fd, s₁⟩, hfd, h⟩ := Option.bind_eq_some_iff.1 h
  obtain ⟨src, hsrc, h'⟩ := Option.bind_eq_some_iff.1 h
  obtain ⟨hlen, hself⟩ := memory_eq_some hsrc
  simp only [Option.pure_def, Option.some.injEq, Prod.mk.injEq] at h'
  simp [SharedDiskClient.writePage, SharedDiskServer.writePage, FileProc.writePage, FileProc.write, hsrc, hlen, hself,
    hfd, h'.1, h'.2]

theorem SharedDiskClient.readPage_eq {pageId : UInt64} {buf : Bytes} {n : Nat}
    (h : s.readPage O pageId = some ((buf, n), s')) (hn : n = myPageSize ∧ buf.length = myPageSize) :
    SharedDiskClient.readPage O pageId s = some ((buf, n), s') := by
  obtain ⟨rfl, hbuf⟩ := hn
  simp [SharedDiskClient.readPage, SharedDiskServer.readPage, h, hbuf, memory_self hbuf]

theorem SharedDiskClient.call_eq {call : DiskCall} (h : s.call O call = some (r, s')) (ht : call.Transferred r)
    (hm : call.Marshalled) : SharedDiskClient.call O s call = some (r, s') := by
  cases call with
  | openFile path =>
    obtain ⟨p, hp, hr⟩ := Option.map_eq_some_iff.1 h
    simp [SharedDiskClient.call, openFile, SharedDiskServer.openFile, hp, hr]
  | write fd buf size offset =>
    obtain ⟨⟨n, t⟩, hp, hr⟩ := Option.map_eq_some_iff.1 h
    cases hr
    exact Option.map_eq_some_iff.2 ⟨(n, t), write_eq hp ht, rfl⟩
  | read fd size offset =>
    cases h
    exact Option.map_eq_some_iff.2 ⟨_, read_eq ht, rfl⟩
  | writePage pageId pageBuf =>
    obtain ⟨⟨n, t⟩, hp, hr⟩ := Option.map_eq_some_iff.1 h
    cases hr
    exact Option.map_eq_some_iff.2 ⟨(n, t), writePage_eq hp ht, rfl⟩
  | readPage pageId =>
    obtain ⟨⟨⟨buf, n⟩, t⟩, hp, hr⟩ := Option.map_eq_some_iff.1 h
    cases hr
    exact Option.map_eq_some_iff.2 ⟨((buf, n), t), readPage_eq hp ht, rfl⟩
  | close fd =>
    subst hm
    obtain ⟨p, hp, hr⟩ := Option.map_eq_some_iff.1 h
    simp [SharedDiskClient.call, close, SharedDiskServer.close, hp, hr]

/-- The calls through the service give the results of the calls of `FileIO`, and leave the process of the server
as they would leave their own. -/
theorem sharedDisk_refines_fileIo {calls : List DiskCall} {results : List DiskResult}
    (hlocal : runOut (FileProc.call O) s calls = some (results, s'))
    (htransferred : List.Forall₂ DiskCall.Transferred calls results) (hclose : ∀ call ∈ calls, call.Marshalled) :
    runOut (SharedDiskClient.call O) s calls = some (results, s') := by
  have hok : List.Forall₂ (fun call r => DiskCall.Marshalled call ∧ DiskCall.Transferred call r) calls results :=
    (List.forall₂_and_left _ _).2 ⟨hclose, htransferred⟩
  exact runOut_of_forall₂ (fun s call r s' h ok => SharedDiskClient.call_eq h ok.2 ok.1) hok hlocal

/-! ### A process with three standard descriptors -/

/-- A file that does not exist is empty; `fds` are the paths of the descriptors, `none` for a free one. -/
structure UnixFs where
  files : String → Bytes
  fds : List (Option String)

namespace UnixFs

def pathOf (fd : Int32) (s : UnixFs) : Option String := if 0 ≤ fd then s.fds[fd.toInt.toNat]?.join else none

/-- `open` takes the lowest free descriptor. -/
def posix : Posix UnixFs where
  openFile path s :=
    (Int32.ofNat (s.fds.idxOf none), { s with fds := (s.fds ++ [none]).set (s.fds.idxOf none) (some path) })
  pwrite fd buf offset s := match s.pathOf fd with
    | some path =>
      (some buf.length, { s with files := Function.update s.files path (FileIo.write (s.files path) buf offset.toNat) })
    | none => (none, s)
  pread fd size offset s := (s.pathOf fd).map fun path => Buf.read offset.toNat size (s.files path)
  close fd s := if (s.pathOf fd).isSome then (0, { s with fds := s.fds.set fd.toInt.toNat none }) else (-1, s)

def start : FileProc UnixFs := ⟨⟨fun _ => [], [some "stdin", some "stdout", some "stderr"]⟩, ∅⟩

end UnixFs

/-- A file is written and read back, by both paths. -/
theorem sharedDisk_write_read : ∃ s, runOut (FileProc.call UnixFs.posix) UnixFs.start
      [.openFile "t", .write 3 [1, 2, 3] 2 0, .read 3 2 0] = some ([.fd 3, .written 2, .got [1, 2] 2], s) ∧
    runOut (SharedDiskClient.call UnixFs.posix) UnixFs.start
      [.openFile "t", .write 3 [1, 2, 3] 2 0, .read 3 2 0] = some ([.fd 3, .written 2, .got [1, 2] 2], s) := by
  refine ⟨_, rfl, sharedDisk_refines_fileIo rfl ?_ ?_⟩
  · simp [DiskCall.Transferred]
  · simp [DiskCall.Marshalled]

/-- The file is opened twice, and only the first descriptor is recorded. `Close(4)` closes 4, and through the service
it closes 0. -/
theorem sharedDisk_closes_stdin : ∃ s s',
    runOut (FileProc.call UnixFs.posix) UnixFs.start [.openFile "t", .openFile "t", .close 4] =
      some ([.fd 3, .fd 4, .rc 0], s) ∧
    runOut (SharedDiskClient.call UnixFs.posix) UnixFs.start [.openFile "t", .openFile "t", .close 4] =
      some ([.fd 3, .fd 4, .rc 0], s') ∧
    s.os.fds = [some "stdin", some "stdout", some "stderr", some "t", none] ∧
    s'.os.fds = [none, some "stdout", some "stderr", some "t", some "t"] := by
  refine ⟨_, _, rfl, rfl, ?_, ?_⟩
  · decide
  · decide

end Dbx1000
