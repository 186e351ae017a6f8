import Dbx1000.FileStore
import Dbx1000.IndexText

/-!
# The index file and its descriptor (`Serialize`, `DeSerialize` of `common/index/index.cpp`)

Both functions open the index file and close the descriptor that they got. `Open` records this descriptor if the path
is not in `opened_file_` yet, and `Close` does not return when it finds it there. So they return if and only if the
file is in `opened_file_` with another descriptor (`Reopens`). As functions of the contents of the file they are
inverse to each other whatever the order of the entries, and so are `Serialize2` and `DeSerialize2`.
-/

namespace Dbx1000

/-- A number that `open` can give to `FileIO`. -/
def Os.Gives (fd : Int32) (s : Os) : Prop := 0 < fd ∧ s.fds fd = none

instance (fd : Int32) (s : Os) : Decidable (s.Gives fd) := inferInstanceAs (Decidable (_ ∧ _))

namespace Index

def path (indexName : String) : String := "../db/" ++ indexName

/-- The process when a file has other contents. -/
def withFile (name : String) (file : Bytes) (s : FileProc Os) : FileProc Os :=
  { s with os := { s.os with files := Function.update s.os.files name file } }

/-- `assert(FileIO::Close(fd) == 0)`. -/
def assertClose (fd : Int32) (s : FileProc Os) : Option (FileProc Os) := do
  let (rc, s) ← s.close (Os.posix fd) fd
  if rc = 0 then some s else none

/-- `next` is the descriptor that `open` gives. -/
def serialize (indexName : String) (next : Int32) (entries : List (Nat × IndexItem)) (buf : ChunkBuf)
    (s : FileProc Os) : Option (FileProc Os) := do
  let (fd, s) ← s.openFile (Os.posix next) (path indexName)
  let name ← s.os.fds fd
  let file ← serializeTo entries buf (s.os.files name)
  assertClose fd (withFile name file s)

def deSerialize (indexName : String) (next : Int32) (buf : ChunkBuf) (s : FileProc Os) (index : IndexMap) :
    Option (IndexMap × FileProc Os) := do
  let (fd, s) ← s.openFile (Os.posix next) (path indexName)
  let name ← s.os.fds fd
  let index ← deSerializeFrom buf (s.os.files name) index
  let s ← assertClose fd s
  return (index, s)

/-- The index file is in `opened_file_`, and the descriptor that `open` gives is not. -/
def Reopens (indexName : String) (fd : Int32) (s : FileProc Os) : Prop :=
  path indexName ∈ s.openedFile ∧ ¬ s.Recorded fd

instance (indexName : String) (fd : Int32) (s : FileProc Os) : Decidable (Reopens indexName fd s) :=
  inferInstanceAs (Decidable (_ ∧ _))

/-! ### `Open` and `Close` -/

section Descriptor

variable {s : FileProc Os} {fd : Int32} {name indexName : String}

/-- The process after `Open`. -/
def opened (name : String) (fd : Int32) (s : FileProc Os) : FileProc Os where
  os := { s.os with fds := Function.update s.os.fds fd (some name) }
  openedFile := if name ∈ s.openedFile then s.openedFile else s.openedFile.insert name fd

theorem openFile_eq (h : s.os.Gives fd) : s.openFile (Os.posix fd) name = some (fd, opened name fd s) := by
  have hopen : (Os.posix fd).openFile name s.os = (fd, { s.os with fds := Function.update s.os.fds fd (some name) }) :=
    if_pos ⟨Int32.le_of_lt h.1, h.2⟩
  rw [FileProc.openFile, hopen, if_pos h.1]
  rfl

/-- `Close` finds the descriptor of an index file that `Open` has recorded, now or under this number before. -/
theorem recorded_opened : (opened (path indexName) fd s).Recorded fd ↔ ¬ Reopens indexName fd s := by
  by_cases hmem : path indexName ∈ s.openedFile
  · have hsame : (opened (path indexName) fd s).openedFile = s.openedFile := if_pos hmem
    simp only [FileProc.recorded_iff, hsame, Reopens, hmem, true_and, not_not]
  · have hnew : (opened (path indexName) fd s).openedFile = s.openedFile.insert (path indexName) fd := if_neg hmem
    refine iff_of_true (FileProc.recorded_iff.2 ⟨path indexName, ?_⟩) fun h => hmem h.1
    rw [hnew, AList.lookup_insert]

/-- A `Close` that returns leaves the descriptors as they were before `Open`. -/
theorem assertClose_opened (h : s.os.Gives fd) :
    assertClose fd (opened (path indexName) fd s) = if Reopens indexName fd s then some s else none := by
  split
  · rename_i hok
    have hopen : (opened (path indexName) fd s).os.fds fd ≠ none := by simp [opened]
    have hclose : (Os.posix fd).close fd (opened (path indexName) fd s).os = (0, s.os) := by
      refine (if_neg hopen).trans ?_
      rw [opened, Function.update_idem, ← h.2, Function.update_eq_self]
    rw [assertClose, FileProc.close, if_neg fun hrec => recorded_opened.1 hrec hok, hclose, opened, if_pos hok.1]
    rfl
  · rename_i hbad
    rw [assertClose, FileProc.close, if_pos (recorded_opened.2 hbad)]
    rfl

end Descriptor

/-! ### The functions -/

section Calls

variable {s : FileProc Os} {fd : Int32} {indexName : String} {entries : List (Nat × IndexItem)} {buf : ChunkBuf}
  {index index' : IndexMap} {file : Bytes}

theorem serialize_eq (h : s.os.Gives fd) (hfile : serializeTo entries buf (s.os.files (path indexName)) = some file) :
    serialize indexName fd entries buf s =
      if Reopens indexName fd s then some (withFile (path indexName) file s) else none := by
  have hfd : (opened (path indexName) fd s).os.fds fd = some (path indexName) := Function.update_self ..
  have hfile' : serializeTo entries buf ((opened (path indexName) fd s).os.files (path indexName)) = some file := hfile
  have hwith : (withFile (path indexName) file s).os.Gives fd := h
  simp only [serialize, openFile_eq h, Option.bind_eq_bind, Option.bind_some, hfd, hfile']
  exact assertClose_opened hwith

theorem deSerialize_eq (h : s.os.Gives fd)
    (hindex : deSerializeFrom buf (s.os.files (path indexName)) index = some index') :
    deSerialize indexName fd buf s index = if Reopens indexName fd s then some (index', s) else none := by
  have hfd : (opened (path indexName) fd s).os.fds fd = some (path indexName) := Function.update_self ..
  have hindex' : deSerializeFrom buf ((opened (path indexName) fd s).os.files (path indexName)) index = some index' :=
    hindex
  simp only [deSerialize, openFile_eq h, Option.bind_eq_bind, Option.bind_some, hfd, hindex', assertClose_opened h]
  split <;> rfl

/-- `Serialize` and then `DeSerialize` into an empty index, with the numbers that `open` gives to each of them, return
the map if and only if both find the file in `opened_file_` and their descriptor not. -/
theorem roundTrip_iff {fd' : Int32} (order : index.Enumeration) (buf buf' : ChunkBuf) (h : s.os.Gives fd)
    (h' : s.os.Gives fd') :
    (∃ s₁ s₂, serialize indexName fd order.entries buf s = some s₁ ∧
      deSerialize indexName fd' buf' s₁ .empty = some (index, s₂)) ↔
    Reopens indexName fd s ∧ Reopens indexName fd' s := by
  obtain ⟨file, hfile, hindex⟩ := deSerializeFrom_serializeTo order buf buf' (s.os.files (path indexName))
  have hwith : (withFile (path indexName) file s).os.Gives fd' := h'
  have hcontents : (withFile (path indexName) file s).os.files (path indexName) = file := Function.update_self ..
  have hread : deSerializeFrom buf' ((withFile (path indexName) file s).os.files (path indexName)) .empty =
      some index := hcontents.symm ▸ hindex
  constructor
  · rintro ⟨s₁, s₂, hser, hde⟩
    rw [serialize_eq h hfile, Option.ite_none_right_eq_some, Option.some.injEq] at hser
    obtain ⟨hok, rfl⟩ := hser
    rw [deSerialize_eq hwith hread, Option.ite_none_right_eq_some] at hde
    exact ⟨hok, hde.1⟩
  · rintro ⟨hok, hok'⟩
    exact ⟨_, _, (serialize_eq h hfile).trans (if_pos hok), (deSerialize_eq hwith hread).trans (if_pos hok')⟩

end Calls

end Index

/-! ### The two codecs -/

/-- The binary codec. The two calls give the map back if and only if both find the file in `opened_file_` and their
descriptor not. -/
theorem deSerialize_serialize {indexName : String} {index : IndexMap} (order : index.Enumeration) (buf buf' : ChunkBuf)
    {s : FileProc Os} {fd fd' : Int32} (h : s.os.Gives fd) (h' : s.os.Gives fd') :
    (∃ s₁ s₂, Index.serialize indexName fd order.entries buf s = some s₁ ∧
      Index.deSerialize indexName fd' buf' s₁ .empty = some (index, s₂)) ↔
    Index.Reopens indexName fd s ∧ Index.Reopens indexName fd' s :=
  Index.roundTrip_iff order buf buf' h h'

/-- The text codec always gives the map back, and the binary one gives the same map if and only if its two calls return.
-/
theorem deSerialize2_serialize2 {indexName : String} {index : IndexMap} (order order' : index.Enumeration)
    (key pageId locatin : Nat) (buf buf' : ChunkBuf) {s : FileProc Os} {fd fd' : Int32} (h : s.os.Gives fd)
    (h' : s.os.Gives fd') :
    Run.Returns (deSerialize2 (serialize2 order.entries) key pageId locatin .empty) index ∧
    ((∃ s₁ s₂, Index.serialize indexName fd order'.entries buf s = some s₁ ∧
      Index.deSerialize indexName fd' buf' s₁ .empty = some (index, s₂)) ↔
    Index.Reopens indexName fd s ∧ Index.Reopens indexName fd' s) :=
  ⟨returns_deSerialize2 order key pageId locatin, Index.roundTrip_iff order' buf buf' h h'⟩

/-! ### An index of two entries -/

/-- The entries are in no order. -/
def twoEntries : List (Nat × IndexItem) := [(7, ⟨1, 64⟩), (3, ⟨0, 2 ^ 64 - 1⟩)]

def twoIndex : IndexMap := fun key =>
  if key = 3 then some ⟨0, 2 ^ 64 - 1⟩ else if key = 7 then some ⟨1, 64⟩ else none

theorem mem_twoEntries (key : Nat) (item : IndexItem) :
    (key, item) ∈ twoEntries ↔ twoIndex.indexGet key = some item := by
  simp only [IndexMap.indexGet, twoEntries, twoIndex]
  by_cases h₃ : key = 3
  · simp [h₃, eq_comm]
  · by_cases h₇ : key = 7 <;> simp [h₃, h₇, eq_comm]

def twoOrder : twoIndex.Enumeration :=
  ⟨twoEntries, by decide, mem_twoEntries, by simp [twoEntries, Words], by simp [twoEntries]⟩

/-- An older index file with 100 bytes is open as 3. -/
def reopenStart : FileProc Os where
  os := ⟨fun _ => List.replicate 100 255,
    fun fd => if fd = 0 then some "stdin" else if fd = 3 then some "../db/MAIN_TABLE_INDEX" else none⟩
  openedFile := AList.singleton "../db/MAIN_TABLE_INDEX" 3

/-- Two entries over an older file, with bytes left behind the new ones. -/
theorem two_entries_over_older_file : ∃ s₁ s₂,
    Index.serialize "MAIN_TABLE_INDEX" 4 twoEntries zeroChunk reopenStart = some s₁ ∧
      Index.deSerialize "MAIN_TABLE_INDEX" 5 zeroChunk s₁ .empty = some (twoIndex, s₂) :=
  (deSerialize_serialize twoOrder zeroChunk zeroChunk (show reopenStart.os.Gives 4 by decide)
    (show reopenStart.os.Gives 5 by decide)).2 (by decide)

/-- The first `Serialize` of a process: the descriptor is in `opened_file_` when it is closed. -/
theorem serialize_first : Index.serialize "MAIN_TABLE_INDEX" 3 twoEntries zeroChunk storeStart.1 = none := by
  obtain ⟨file, hfile, -⟩ := deSerializeFrom_serializeTo twoOrder zeroChunk zeroChunk []
  exact (Index.serialize_eq (show storeStart.1.os.Gives 3 by decide) hfile).trans (if_neg (by decide))

/-- Both codecs over the older file. -/
theorem two_entries_both_codecs :
    Run.Returns (deSerialize2 (serialize2 twoEntries) 1 2 3 .empty) twoIndex ∧
    ∃ s₁ s₂, Index.serialize "MAIN_TABLE_INDEX" 4 twoEntries zeroChunk reopenStart = some s₁ ∧
      Index.deSerialize "MAIN_TABLE_INDEX" 5 zeroChunk s₁ .empty = some (twoIndex, s₂) := by
  obtain ⟨htext, hbinary⟩ := deSerialize2_serialize2 twoOrder twoOrder 1 2 3 zeroChunk zeroChunk
    (show reopenStart.os.Gives 4 by decide) (show reopenStart.os.Gives 5 by decide)
  exact ⟨htext, hbinary.2 (by decide)⟩

/-- In a process that has not opened the file, only the text codec gives the map. -/
theorem text_codec_first :
    Run.Returns (deSerialize2 (serialize2 twoEntries) 1 2 3 .empty) twoIndex ∧
    ¬ ∃ s₁ s₂, Index.serialize "MAIN_TABLE_INDEX" 3 twoEntries zeroChunk storeStart.1 = some s₁ ∧
      Index.deSerialize "MAIN_TABLE_INDEX" 3 zeroChunk s₁ .empty = some (twoIndex, s₂) := by
  refine ⟨returns_deSerialize2 twoOrder 1 2 3, fun hboth => ?_⟩
  have hgives : storeStart.1.os.Gives 3 := by decide
  have hreopens := ((Index.roundTrip_iff twoOrder zeroChunk zeroChunk hgives hgives).1 hboth).1
  exact absurd hreopens (by decide)

end Dbx1000
