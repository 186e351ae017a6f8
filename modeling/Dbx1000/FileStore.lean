import Dbx1000.SharedDisk
import Dbx1000.Lib.Lts

/-!
# `FileIO` as a page store

A page has its place in one file for `itemNumPerFile` pages: no two pages have bytes in common
(`page_disjoint`). The descriptors are numbers that the system gives out again after a `close`, and
`opened_file_` is right as long as no descriptor in it is closed (`PageStoreInv.opened`): `Close` does not return from
that (`close_isSome_iff`). `Os` are files and descriptors of a process; which free number `open` returns is part of the
event, so that the runs of `storeLts` range over all ways to give them out.
-/

namespace Dbx1000

open Buf

/-- A file that does not exist is empty; `fds` are the paths of the open descriptors. -/
structure Os where
  files : String → Bytes
  fds : Int32 → Option String

namespace Os

/-- The system calls; `open` gives the descriptor `next` if it is free. -/
def posix (next : Int32) : Posix Os where
  openFile path s :=
    if 0 ≤ next ∧ s.fds next = none then (next, { s with fds := Function.update s.fds next (some path) }) else (-1, s)
  pwrite fd buf offset s := match s.fds fd with
    | some path =>
      (some buf.length, { s with files := Function.update s.files path (FileIo.write (s.files path) buf offset.toNat) })
    | none => (none, s)
  pread fd size offset s := (s.fds fd).map fun path => Buf.read offset.toNat size (s.files path)
  close fd s := if s.fds fd = none then (-1, s) else (0, { s with fds := Function.update s.fds fd none })

/-- A byte of a file; behind the end there are zeros. -/
def byteAt (path : String) (i : Nat) (s : Os) : UInt8 := (s.files path)[i]?.getD 0

end Os

/-! ### Runs -/

/-- The bytes of the last `WritePage` of every page. -/
abbrev LastWritten := UInt64 → Option Bytes

def LastWritten.record (last : LastWritten) : DiskCall → LastWritten
  | .writePage pageId pageBuf => Function.update last pageId (some (pageBuf.take myPageSize))
  | _ => last

/-- `Open`, `Close`, `WritePage` and `ReadPage`. The descriptor 0 was not opened by `Open` and is not closed. -/
def DiskCall.Paging : DiskCall → Prop
  | .write .. | .read .. => False
  | .close fd => fd ≠ 0
  | _ => True

instance (call : DiskCall) : Decidable call.Paging :=
  match call with
  | .write .. | .read .. => .isFalse id
  | .close fd => inferInstanceAs (Decidable (fd ≠ 0))
  | .openFile _ | .writePage .. | .readPage _ => .isTrue trivial

/-- A process of which `FileIO` has opened no file yet. An event is a call and the descriptor for `open`. -/
def storeLts : Lts (FileProc Os × LastWritten) (Int32 × DiskCall) where
  init p := p.1.os.fds 0 ≠ none ∧ p.1.openedFile = ∅ ∧ ∀ pageId, p.2 pageId = none
  step p ev :=
    if ev.2.Paging then (p.1.call (Os.posix ev.1) ev.2).map fun r => (r.2, p.2.record ev.2) else none

/-- A descriptor in `opened_file_` is not closed. -/
def CloseOk (p : FileProc Os × LastWritten) (ev : Int32 × DiskCall) : Prop :=
  match ev.2 with
  | .close fd => ¬ p.1.Recorded fd
  | _ => True

instance (p : FileProc Os × LastWritten) : ∀ ev, Decidable (CloseOk p ev)
  | (_, .close fd) => inferInstanceAs (Decidable (¬ p.1.Recorded fd))
  | (_, .openFile _) | (_, .write ..) | (_, .read ..) | (_, .writePage ..) | (_, .readPage _) => .isTrue trivial

/-! ### The place of a page -/

section Place

open FileProc

variable {p q : UInt64}

theorem toNat_pageOffset (p : UInt64) : (pageOffset p).toNat = p.toNat % 102400 * myPageSize := by
  rw [pageOffset, UInt64.toNat_mul, UInt64.toNat_mod]
  have hsize : (UInt64.ofNat myPageSize).toNat = 16384 := by decide
  have hnum : itemNumPerFile.toNat = 102400 := by decide
  rw [hsize, hnum, myPageSize]
  omega

theorem pagePath_inj (h : pagePath p = pagePath q) : p.toNat / 102400 = q.toNat / 102400 := by
  have hlists := congrArg String.toList h
  simp only [pagePath, String.toList_append, List.append_cancel_right_eq, List.append_cancel_left_eq] at hlists
  rw [Nat.toString_eq_ofList_toDigits, Nat.toString_eq_ofList_toDigits, String.toList_ofList, String.toList_ofList]
    at hlists
  have hnat := congrArg (fun digits => Nat.ofDigitChars 10 digits 0) hlists
  simp only [Nat.ofDigitChars_ten_toDigits] at hnat
  have hnum : itemNumPerFile.toNat = 102400 := by decide
  rwa [UInt64.toNat_div, UInt64.toNat_div, hnum] at hnat

/-- Two pages in one file are apart. -/
theorem page_disjoint (hne : q ≠ p) (hpath : pagePath q = pagePath p) :
    (pageOffset q).toNat + myPageSize ≤ (pageOffset p).toNat ∨
      (pageOffset p).toNat + myPageSize ≤ (pageOffset q).toNat := by
  have hdiv := pagePath_inj hpath
  have hnat : q.toNat ≠ p.toNat := fun h => hne (UInt64.toNat_inj.1 h)
  rw [toNat_pageOffset, toNat_pageOffset, myPageSize]
  omega

end Place

/-! ### Writing into a file -/

section Write

variable {file src : Bytes} {off o n i : Nat}

theorem FileIo.le_length_pad : off ≤ (file ++ List.replicate (off - file.length) (0 : UInt8)).length := by
  rw [List.length_append, List.length_replicate]
  omega

theorem FileIo.read_write_self (hn : src.length = n) : Buf.read off n (FileIo.write file src off) = src :=
  Buf.read_write_self le_length_pad hn

/-- Bytes that the file has elsewhere are read as before. -/
theorem FileIo.read_write_of_disjoint (hfile : o + n ≤ file.length) (hd : o + n ≤ off ∨ off + src.length ≤ o) :
    Buf.read o n (FileIo.write file src off) = Buf.read o n file := by
  rw [FileIo.write, Buf.read_write_of_disjoint le_length_pad hd, read_append_left hfile]

theorem FileIo.getD_write_of_not (hi : i < off ∨ off + src.length ≤ i) :
    (FileIo.write file src off)[i]?.getD 0 = file[i]?.getD 0 := by
  rw [FileIo.write, getElem?_write_of_not le_length_pad hi]
  by_cases h : i < file.length
  · rw [List.getElem?_append_left h]
  · rw [List.getElem?_append_right (Nat.le_of_not_lt h), List.getElem?_eq_none (Nat.le_of_not_lt h),
      List.getElem?_replicate]
    split <;> rfl

end Write

/-! ### The invariant -/

/-- What `Open` has done when it returns. -/
theorem FileProc.openFile_eq_some {s s' : FileProc Os} {next fd : Int32} {path : String}
    (hs : s.openFile (Os.posix next) path = some (fd, s')) :
    next = fd ∧ 0 < fd ∧ s.os.fds fd = none ∧ s'.os.files = s.os.files ∧
      s'.os.fds = Function.update s.os.fds fd (some path) ∧
      s'.openedFile = if path ∈ s.openedFile then s.openedFile else s.openedFile.insert path fd := by
  rw [FileProc.openFile, Option.ite_none_right_eq_some] at hs
  obtain ⟨hpos, hs⟩ := hs
  by_cases hfree : 0 ≤ next ∧ s.os.fds next = none
  · have hopen : (Os.posix next).openFile path s.os =
        (next, { s.os with fds := Function.update s.os.fds next (some path) }) := if_pos hfree
    rw [hopen] at hpos hs
    cases hs
    exact ⟨rfl, hpos, hfree.2, rfl, rfl, rfl⟩
  · have hopen : (Os.posix next).openFile path s.os = (-1, s.os) := if_neg hfree
    rw [hopen] at hpos
    exact absurd (show (0 : Int32) < -1 from hpos) (by decide)

/-- The descriptor of a page is in `opened_file_`, or the file is opened. -/
theorem FileProc.pageFd_eq_some {s s' : FileProc Os} {next fd : Int32} {p : UInt64}
    (hs : s.pageFd (Os.posix next) p = some (fd, s')) :
    s.openedFile.lookup (pagePath p) = some fd ∧ s' = s ∨ s.openFile (Os.posix next) (pagePath p) = some (fd, s') := by
  unfold FileProc.pageFd at hs
  split at hs
  · rename_i fd' hopened
    rw [Option.bind_eq_bind, Option.bind_some, Option.ite_none_right_eq_some] at hs
    cases hs.2
    exact .inl ⟨hopened, rfl⟩
  · obtain ⟨⟨fd', s₁⟩, hopen, hs⟩ := Option.bind_eq_some_iff.1 hs
    rw [Option.ite_none_right_eq_some] at hs
    cases hs.2
    exact .inr hopen

theorem FileProc.recorded_iff {s : FileProc Os} {fd : Int32} :
    s.Recorded fd ↔ ∃ path, s.openedFile.lookup path = some fd := by
  constructor
  · rintro ⟨⟨path, fd'⟩, hmem, rfl⟩
    exact ⟨path, AList.mem_lookup_iff.2 hmem⟩
  · rintro ⟨path, hlookup⟩
    exact ⟨⟨path, fd⟩, AList.mem_lookup_iff.1 hlookup, rfl⟩

/-- `Close` returns unless the descriptor is in `opened_file_`. -/
theorem FileProc.close_isSome_iff (s : FileProc Os) (next fd : Int32) :
    (s.close (Os.posix next) fd).isSome ↔ ¬ s.Recorded fd := by
  rw [FileProc.close]
  split
  · rename_i hrecorded
    exact ⟨nofun, fun h => absurd hrecorded h⟩
  · rename_i hrecorded
    exact ⟨fun _ => hrecorded, fun _ => rfl⟩

theorem FileProc.close_eq_some {s s' : FileProc Os} {next fd rc : Int32}
    (hs : s.close (Os.posix next) fd = some (rc, s')) :
    s'.os.fds = Function.update s.os.fds fd none ∧ s'.os.files = s.os.files ∧ s'.openedFile = s.openedFile := by
  rw [FileProc.close, Option.ite_none_left_eq_some] at hs
  obtain ⟨-, hs⟩ := hs
  by_cases hfree : s.os.fds fd = none
  · have hsame : (Os.posix next).close fd s.os = (-1, s.os) := if_pos hfree
    rw [hsame] at hs
    cases hs
    exact ⟨by rw [← hfree, Function.update_eq_self], rfl, rfl⟩
  · have hfreed : (Os.posix next).close fd s.os = (0, { s.os with fds := Function.update s.os.fds fd none }) :=
      if_neg hfree
    rw [hfreed] at hs
    cases hs
    exact ⟨rfl, rfl, rfl⟩

structure PageStoreInv (s : FileProc Os) (last : LastWritten) : Prop where
  stdin : s.os.fds 0 ≠ none
  opened : ∀ path fd, s.openedFile.lookup path = some fd → 0 < fd ∧ s.os.fds fd = some path
  written : ∀ p buf, last p = some buf → buf.length = myPageSize ∧
    Buf.read (FileProc.pageOffset p).toNat myPageSize (s.os.files (FileProc.pagePath p)) = buf

namespace PageStoreInv

variable {s s' : FileProc Os} {last : LastWritten} {next fd : Int32} {path : String} {p : UInt64}

/-- A file is opened with a number that was free, so that no entry of `opened_file_` has it. -/
theorem openFile (h : PageStoreInv s last) (hs : s.openFile (Os.posix next) path = some (fd, s')) :
    PageStoreInv s' last ∧ s'.os.files = s.os.files ∧ s'.os.fds fd = some path := by
  obtain ⟨hnext, hpos, hfree, hfiles, hfds, hopened⟩ := FileProc.openFile_eq_some hs
  have hkept : ∀ fd' path', s.os.fds fd' = some path' → s'.os.fds fd' = some path' := by
    intro fd' path' hfd
    have hne : fd' ≠ fd := by
      rintro rfl
      rw [hfree] at hfd
      cases hfd
    rw [hfds, Function.update_of_ne hne]
    exact hfd
  refine ⟨⟨?_, fun path' fd' hfd => ?_, by rw [hfiles]; exact h.written⟩, hfiles, by rw [hfds, Function.update_self]⟩
  · obtain ⟨stdin, hstdin⟩ := Option.ne_none_iff_exists'.1 h.stdin
    rw [hkept 0 stdin hstdin]
    exact nofun
  · by_cases hnew : path ∉ s.openedFile ∧ path' = path
    · obtain ⟨hnew, rfl⟩ := hnew
      rw [hopened, if_neg hnew, AList.lookup_insert] at hfd
      cases hfd
      exact ⟨hpos, by rw [hfds, Function.update_self]⟩
    · have hold : s.openedFile.lookup path' = some fd' := by
        rw [hopened] at hfd
        split at hfd
        · exact hfd
        · rename_i habsent
          rwa [AList.lookup_insert_ne fun heq => hnew ⟨habsent, heq⟩] at hfd
      exact ⟨(h.opened path' fd' hold).1, hkept _ _ (h.opened path' fd' hold).2⟩

/-- The descriptor of a page is open on the file of the page. -/
theorem pageFd (h : PageStoreInv s last) (hs : s.pageFd (Os.posix next) p = some (fd, s')) :
    PageStoreInv s' last ∧ s'.os.files = s.os.files ∧ s'.os.fds fd = some (FileProc.pagePath p) := by
  rcases FileProc.pageFd_eq_some hs with ⟨hopened, rfl⟩ | hopen
  · exact ⟨h, rfl, (h.opened _ _ hopened).2⟩
  · exact h.openFile hopen

/-- The closed number is in no entry, and may be given to another file. -/
theorem close (h : PageStoreInv s last) (hfd : fd ≠ 0) {rc : Int32} (hs : s.close (Os.posix next) fd = some (rc, s')) :
    PageStoreInv s' last := by
  obtain ⟨hfds, hfiles, hopened⟩ := FileProc.close_eq_some hs
  have hrecorded := (FileProc.close_isSome_iff s next fd).1 (by rw [hs]; rfl)
  constructor
  case stdin =>
    rw [hfds, Function.update_of_ne hfd.symm]
    exact h.stdin
  case opened =>
    intro path fd' hlookup
    rw [hopened] at hlookup
    have hfd' : fd' ≠ fd := fun heq => hrecorded (FileProc.recorded_iff.2 ⟨path, heq ▸ hlookup⟩)
    rw [hfds, Function.update_of_ne hfd']
    exact h.opened path fd' hlookup
  case written =>
    rw [hfiles]
    exact h.written

end PageStoreInv

/-! ### Reading and writing pages -/

namespace PageStoreInv

variable {s s' : FileProc Os} {last : LastWritten} {next : Int32} {p q : UInt64} {buf : Bytes} {n : Nat}

theorem readPage (h : PageStoreInv s last) {r : Bytes × Nat} (hs : s.readPage (Os.posix next) p = some (r, s')) :
    PageStoreInv s' last ∧ r.1 = Buf.read (FileProc.pageOffset p).toNat myPageSize (s.os.files (FileProc.pagePath p)) ∧
      r.2 = r.1.length := by
  obtain ⟨⟨fd, s₁⟩, hfd, hs⟩ := Option.bind_eq_some_iff.1 hs
  obtain ⟨h₁, hfiles, hopen⟩ := h.pageFd hfd
  cases hs
  have hread : (Os.posix next).pread fd myPageSize (FileProc.pageOffset p) s'.os =
      some (Buf.read (FileProc.pageOffset p).toNat myPageSize (s.os.files (FileProc.pagePath p))) := by
    rw [← hfiles]
    exact congrArg (Option.map _) hopen
  rw [FileProc.read, hread]
  exact ⟨h₁, rfl, rfl⟩

/-- What `WritePage` does to the files. -/
theorem writePage_files (h : PageStoreInv s last) (hs : s.writePage (Os.posix next) p buf = some (n, s')) :
    n = myPageSize ∧ (buf.take myPageSize).length = myPageSize ∧
      s'.os.files = Function.update s.os.files (FileProc.pagePath p)
        (FileIo.write (s.os.files (FileProc.pagePath p)) (buf.take myPageSize) (FileProc.pageOffset p).toNat) ∧
      s'.os.fds 0 ≠ none ∧ ∀ path fd, s'.openedFile.lookup path = some fd → 0 < fd ∧ s'.os.fds fd = some path := by
  obtain ⟨⟨fd, s₁⟩, hfd, hs⟩ := Option.bind_eq_some_iff.1 hs
  obtain ⟨h₁, hfiles, hopen⟩ := h.pageFd hfd
  obtain ⟨src, hsrc, hs⟩ := Option.bind_eq_some_iff.1 hs
  rw [memory, Option.ite_none_right_eq_some, Option.some.injEq] at hsrc
  obtain ⟨hle, rfl⟩ := hsrc
  have hlen : (buf.take myPageSize).length = myPageSize := List.length_take_of_le hle
  have hwrite : (Os.posix next).pwrite fd (buf.take myPageSize) (FileProc.pageOffset p) s₁.os =
      (some myPageSize, Os.mk (Function.update s₁.os.files (FileProc.pagePath p) (FileIo.write
        (s₁.os.files (FileProc.pagePath p)) (buf.take myPageSize) (FileProc.pageOffset p).toNat)) s₁.os.fds) := by
    simp only [Os.posix, hopen, hlen]
  rw [hwrite] at hs
  cases hs
  exact ⟨rfl, hlen, by rw [← hfiles], h₁.stdin, h₁.opened⟩

theorem writePage (h : PageStoreInv s last) (hs : s.writePage (Os.posix next) p buf = some (n, s')) :
    PageStoreInv s' (last.record (.writePage p buf)) := by
  obtain ⟨-, hlen, hfiles, hstdin, hopened⟩ := h.writePage_files hs
  refine ⟨hstdin, hopened, fun q b hq => ?_⟩
  rw [hfiles]
  by_cases hqp : q = p
  · rw [LastWritten.record, hqp, Function.update_self] at hq
    cases hq
    rw [hqp, Function.update_self]
    exact ⟨hlen, FileIo.read_write_self hlen⟩
  · rw [LastWritten.record, Function.update_of_ne hqp] at hq
    obtain ⟨hb, hread⟩ := h.written q b hq
    refine ⟨hb, ?_⟩
    by_cases hpath : FileProc.pagePath q = FileProc.pagePath p
    · -- the page is in the file already, all of it
      have hfile : (FileProc.pageOffset q).toNat + myPageSize ≤ (s.os.files (FileProc.pagePath p)).length := by
        have := congrArg List.length hread
        rw [hb, Buf.read, List.length_take, List.length_drop, hpath, myPageSize] at this
        rw [myPageSize]
        omega
      rw [hpath, Function.update_self, FileIo.read_write_of_disjoint hfile (hlen.symm ▸ page_disjoint hqp hpath),
        ← hpath]
      exact hread
    · rw [Function.update_of_ne hpath]
      exact hread

/-- No byte of another page or of another file changes. -/
theorem writePage_others (h : PageStoreInv s last) (hs : s.writePage (Os.posix next) p buf = some (n, s')) :
    (∀ path, path ≠ FileProc.pagePath p → s'.os.files path = s.os.files path) ∧
      ∀ q, q ≠ p → ∀ i, i < myPageSize →
        s'.os.byteAt (FileProc.pagePath q) ((FileProc.pageOffset q).toNat + i) =
          s.os.byteAt (FileProc.pagePath q) ((FileProc.pageOffset q).toNat + i) := by
  obtain ⟨-, hlen, hfiles, -⟩ := h.writePage_files hs
  have hothers : ∀ path, path ≠ FileProc.pagePath p → s'.os.files path = s.os.files path := by
    intro path hpath
    rw [hfiles, Function.update_of_ne hpath]
  refine ⟨hothers, fun q hqp i hi => ?_⟩
  by_cases hpath : FileProc.pagePath q = FileProc.pagePath p
  · rw [Os.byteAt, Os.byteAt, hpath, hfiles, Function.update_self]
    refine FileIo.getD_write_of_not ?_
    rw [hlen]
    rcases page_disjoint hqp hpath with hd | hd
    · exact .inl (by omega)
    · exact .inr (by omega)
  · rw [Os.byteAt, Os.byteAt, hothers _ hpath]

/-- A page finds its descriptor when `open` has one to give. -/
theorem pageFd_returns (h : PageStoreInv s last) (hnext : 0 ≤ next) (hfree : s.os.fds next = none) (p : UInt64) :
    ∃ fd s', s.pageFd (Os.posix next) p = some (fd, s') := by
  cases hopened : s.openedFile.lookup (FileProc.pagePath p) with
  | some fd =>
    refine ⟨fd, s, ?_⟩
    simp only [FileProc.pageFd, hopened, Option.bind_eq_bind, Option.bind_some]
    exact if_pos (h.opened _ _ hopened).1
  | none =>
    have hne : 0 ≠ next := by
      rintro rfl
      exact h.stdin hfree
    have hpos : 0 < next := Int32.lt_of_le_of_ne hnext hne
    have hopen : ((Os.posix next).openFile (FileProc.pagePath p) s.os).1 = next :=
      congrArg Prod.fst (if_pos ⟨hnext, hfree⟩)
    simp only [FileProc.pageFd, hopened, FileProc.openFile, hopen, if_pos hpos, Option.bind_eq_bind, Option.bind_some]
    exact ⟨_, _, rfl⟩

theorem readPage_returns (h : PageStoreInv s last) (hnext : 0 ≤ next) (hfree : s.os.fds next = none) (p : UInt64) :
    (s.readPage (Os.posix next) p).isSome := by
  obtain ⟨fd, s', hfd⟩ := h.pageFd_returns hnext hfree p
  rw [FileProc.readPage, hfd]
  rfl

theorem writePage_returns (h : PageStoreInv s last) (hnext : 0 ≤ next) (hfree : s.os.fds next = none) (p : UInt64)
    (hbuf : myPageSize ≤ buf.length) : (s.writePage (Os.posix next) p buf).isSome := by
  obtain ⟨fd, s', hfd⟩ := h.pageFd_returns hnext hfree p
  have hmemory : memory buf myPageSize = some (buf.take myPageSize) := if_pos hbuf
  simp only [FileProc.writePage, hfd, FileProc.write, hmemory, Option.bind_eq_bind, Option.bind_some]
  rfl

/-! ### All runs -/

theorem step {p p' : FileProc Os × LastWritten} {ev : Int32 × DiskCall} (h : PageStoreInv p.1 p.2)
    (hs : storeLts.step p ev = some p') : PageStoreInv p'.1 p'.2 := by
  obtain ⟨next, call⟩ := ev
  simp only [storeLts, Option.ite_none_right_eq_some] at hs
  obtain ⟨hpaging, hs⟩ := hs
  obtain ⟨r, hr, rfl⟩ := Option.map_eq_some_iff.1 hs
  cases call with
  | openFile path =>
    obtain ⟨⟨fd, s'⟩, hopen, rfl⟩ := Option.map_eq_some_iff.1 hr
    exact (h.openFile hopen).1
  | write fd buf size offset => exact hpaging.elim
  | read fd size offset => exact hpaging.elim
  | writePage pageId pageBuf =>
    obtain ⟨⟨n, s'⟩, hwrite, rfl⟩ := Option.map_eq_some_iff.1 hr
    exact h.writePage hwrite
  | readPage pageId =>
    obtain ⟨⟨x, s'⟩, hread, rfl⟩ := Option.map_eq_some_iff.1 hr
    exact (h.readPage hread).1
  | close fd =>
    obtain ⟨⟨rc, s'⟩, hclose, rfl⟩ := Option.map_eq_some_iff.1 hr
    exact h.close hpaging hclose

theorem reach (h : storeLts.Reach CloseOk (s, last)) : PageStoreInv s last := by
  refine h.inv (P := fun p => PageStoreInv p.1 p.2) ?_ fun p ev p' hp _ hs => hp.step hs
  rintro ⟨s, last⟩ ⟨hstdin, hopened, hlast⟩
  refine ⟨hstdin, fun path fd hfd => ?_, fun p buf hp => ?_⟩
  · rw [hopened, AList.lookup_empty] at hfd
    cases hfd
  · rw [hlast p] at hp
    cases hp

end PageStoreInv

/-- In every run in which no descriptor of `opened_file_` is closed, the entries of `opened_file_` are open on their
paths, `ReadPage` returns what the last `WritePage` of the page wrote, `WritePage` changes no other page and no other
file, and both return when `open` has a descriptor to give. `Close` returns if and only if its descriptor is not in
`opened_file_`. -/
theorem fileIo_page_store {s : FileProc Os} {last : LastWritten} (h : storeLts.Reach CloseOk (s, last))
    (next : Int32) :
    (∀ path fd, s.openedFile.lookup path = some fd → s.os.fds fd = some path) ∧
    (∀ p buf, last p = some buf → ∀ r s', s.readPage (Os.posix next) p = some (r, s') → r = (buf, myPageSize)) ∧
    (∀ p buf n s', s.writePage (Os.posix next) p buf = some (n, s') → n = myPageSize ∧
      (∀ path, path ≠ FileProc.pagePath p → s'.os.files path = s.os.files path) ∧
      ∀ q, q ≠ p → ∀ i, i < myPageSize →
        s'.os.byteAt (FileProc.pagePath q) ((FileProc.pageOffset q).toNat + i) =
          s.os.byteAt (FileProc.pagePath q) ((FileProc.pageOffset q).toNat + i)) ∧
    (0 ≤ next → s.os.fds next = none → ∀ p, (s.readPage (Os.posix next) p).isSome ∧
      ∀ buf : Bytes, myPageSize ≤ buf.length → (s.writePage (Os.posix next) p buf).isSome) ∧
    ∀ fd, (s.close (Os.posix next) fd).isSome ↔ CloseOk (s, last) (next, .close fd) := by
  have hinv := PageStoreInv.reach h
  refine ⟨fun path fd hfd => (hinv.opened path fd hfd).2, fun p buf hp r s' hs => ?_, fun p buf n s' hs => ?_,
    fun hnext hfree p => ⟨hinv.readPage_returns hnext hfree p, fun buf => hinv.writePage_returns hnext hfree p⟩,
    s.close_isSome_iff next⟩
  · obtain ⟨hlen, hread⟩ := hinv.written p buf hp
    obtain ⟨-, hbuf, hsize⟩ := hinv.readPage hs
    rw [hread] at hbuf
    exact Prod.ext hbuf (by rw [hsize, hbuf, hlen])
  · exact ⟨(hinv.writePage_files hs).1, hinv.writePage_others hs⟩

/-- No file is open but the standard input. -/
def storeStart : FileProc Os × LastWritten :=
  (⟨⟨fun _ => [], fun fd => if fd = 0 then some "stdin" else none⟩, ∅⟩, fun _ => none)

/-- An index file is opened twice and its second descriptor closed; the number 4 is then given to the second page
file, and page 1 is still found. -/
theorem page_found_after_reuse : ∃ (s : FileProc Os) (last : LastWritten) (buf : Bytes),
    storeLts.Reach CloseOk (s, last) ∧ last 1 = some buf ∧ s.openedFile.lookup "../db/1.table" = some 4 ∧
      s.os.fds 4 = some "../db/1.table" ∧
      ∀ r s', s.readPage (Os.posix 6) 1 = some (r, s') → r = (buf, myPageSize) := by
  have hrun : ((storeLts.runIf (fun p ev => decide (CloseOk p ev)) storeStart
      [(3, .openFile "../db/index"), (4, .openFile "../db/index"), (5, .writePage 1 (List.replicate myPageSize 7)),
        (6, .close 4), (4, .writePage 102400 (List.replicate myPageSize 9))]).any fun p =>
          (p.2 1).isSome && decide (p.1.openedFile.lookup "../db/1.table" = some 4)) = true := by decide +kernel
  simp only [Option.any_eq_true, Bool.and_eq_true, decide_eq_true_eq, Option.isSome_iff_exists] at hrun
  obtain ⟨⟨s, last⟩, hrun, ⟨buf, hbuf⟩, hopened⟩ := hrun
  have hreach : storeLts.Reach CloseOk (s, last) :=
    .runIf (fun _ _ => of_decide_eq_true) (.init ⟨by decide, rfl, fun _ => rfl⟩) hrun
  obtain ⟨hfds, hread, -⟩ := fileIo_page_store hreach 6
  exact ⟨s, last, buf, hreach, hbuf, hopened, hfds _ _ hopened, hread 1 buf hbuf⟩

/-- An index file is opened, a page is written, and the index file is closed: `Close` does not return. -/
theorem close_of_opened_file : ∃ (s : FileProc Os) (last : LastWritten), storeLts.Reach Lts.Any (s, last) ∧
    (last 1).isSome ∧ s.os.fds 3 = some "../db/index" ∧ s.openedFile.lookup "../db/index" = some 3 ∧
    ∀ next, s.close (Os.posix next) 3 = none := by
  have hrun : ((storeLts.run storeStart
      [(3, .openFile "../db/index"), (4, .writePage 1 (List.replicate myPageSize 7))]).any fun p =>
        (p.2 1).isSome && decide (p.1.os.fds 3 = some "../db/index") &&
          decide (p.1.openedFile.lookup "../db/index" = some 3)) = true := by decide +kernel
  simp only [Option.any_eq_true, Bool.and_eq_true, decide_eq_true_eq] at hrun
  obtain ⟨⟨s, last⟩, hrun, ⟨hlast, hfds⟩, hopened⟩ := hrun
  refine ⟨s, last, .run (.init ⟨by decide, rfl, fun _ => rfl⟩) hrun, hlast, hfds, hopened, fun next => ?_⟩
  rw [← Option.not_isSome_iff_eq_none, FileProc.close_isSome_iff, not_not]
  exact FileProc.recorded_iff.2 ⟨_, hopened⟩

end Dbx1000
