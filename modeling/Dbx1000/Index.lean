import Dbx1000.Page

/-!
# The binary index file (`common/index/index.cpp`)

`Serialize` writes the size of the file and the number of entries, and then the entries of the map through a
buffer of 524280 bytes, which goes to the file when the next entry finds it full. `DeSerialize` reads pieces
of 524280 bytes and a last one that ends where the header says. The two meet at `stream`: `Serialize` puts
it at the start of the file and leaves what is behind it (`serializeTo_eq`), and `DeSerialize` puts the entries
of a file that starts with it, whatever follows (`deSerializeFrom_eq`). Here the two functions have their file open;
`Open` and `Close` are added in `Dbx1000.IndexFile`.
-/

namespace Dbx1000

open Buf

/-- A `uint64_t`. -/
def u64 (n : Nat) : Nat := n % 2 ^ 64

namespace FileIo

/-- `pwrite`; a gap behind the end of the file is filled with zeros. -/
def write (file src : Bytes) (offset : Nat) : Bytes :=
  Buf.write offset src (file ++ List.replicate (offset - file.length) 0)

/-- `pread` of bytes that the file has. -/
def read (file : Bytes) (size offset : Nat) : Option Bytes :=
  if offset + size ≤ file.length then some (Buf.read offset size file) else none

end FileIo

/-! ### The map -/

/-- The entry is made of 64-bit words. -/
def Words (entry : Nat × IndexItem) : Prop :=
  entry.1 < 2 ^ 64 ∧ entry.2.pageId < 2 ^ 64 ∧ entry.2.pageLocation < 2 ^ 64

/-- The contents of `index_`. -/
abbrev IndexMap := Nat → Option IndexItem

namespace IndexMap

def empty : IndexMap := fun _ => none

/-- `none` is `NOT_EXIST`. -/
def indexGet (key : Nat) (index : IndexMap) : Option IndexItem := index key

def indexPut (index : IndexMap) (entry : Nat × IndexItem) : IndexMap :=
  Function.update index entry.1 (some entry.2)

/-- `for(auto iter : index_)` in some order. The entries are in memory, each with a node of three words and
an `IndexItem` of two. -/
structure Enumeration (index : IndexMap) where
  entries : List (Nat × IndexItem)
  nodup : entries.Nodup
  mem_iff : ∀ key item, (key, item) ∈ entries ↔ index.indexGet key = some item
  words : ∀ entry ∈ entries, Words entry
  inMemory : 5 * 8 * entries.length ≤ 2 ^ 64

end IndexMap

/-! ### `Serialize` -/

/-- The size of `buf`. -/
def chunkSize : Nat := 524280

/-- What `buf` holds before it is written is not known. -/
abbrev ChunkBuf := { buf : Bytes // buf.length = chunkSize }

/-- A buffer of zeros. -/
def zeroChunk : ChunkBuf := ⟨List.replicate chunkSize 0, List.length_replicate⟩

/-- The variables of `Serialize`. -/
structure IndexWriter where
  file : Bytes
  buf : Bytes
  bufUsedSize : Nat
  offset : Nat

namespace IndexWriter

def flush (w : IndexWriter) : IndexWriter :=
  { w with
    file := FileIo.write w.file (read 0 w.bufUsedSize w.buf) w.offset
    offset := u64 (w.offset + w.bufUsedSize)
    bufUsedSize := 0 }

/-- The copies into `buf`; beyond its end they are undefined. -/
def copyEntry (w : IndexWriter) (entry : Nat × IndexItem) : Option IndexWriter :=
  if w.bufUsedSize + 3 * 8 ≤ chunkSize then
    some { w with
      buf := write (w.bufUsedSize + 2 * 8) (toLE 8 entry.2.pageLocation)
        (write (w.bufUsedSize + 1 * 8) (toLE 8 entry.2.pageId)
          (write (w.bufUsedSize + 0 * 8) (toLE 8 entry.1) w.buf))
      bufUsedSize := u64 (w.bufUsedSize + 3 * 8) }
  else none

/-- One turn of the loop. -/
def append (w : IndexWriter) (entry : Nat × IndexItem) : Option IndexWriter :=
  (if w.bufUsedSize = chunkSize then w.flush else w).copyEntry entry

end IndexWriter

/-- `Serialize` between `Open` and `Close`; `file` is what the file has before, `Open` does not truncate it. -/
def serializeTo (entries : List (Nat × IndexItem)) (buf : ChunkBuf) (file : Bytes) : Option Bytes := do
  let indexSize := entries.length
  let fileSize := u64 (8 + 8 + 3 * 8 * entries.length)
  let file := FileIo.write file (toLE 8 fileSize) 0
  let file := FileIo.write file (toLE 8 indexSize) 8
  let w ← entries.foldlM IndexWriter.append ⟨file, buf, 0, 2 * 8⟩
  return if 0 < w.bufUsedSize then FileIo.write w.file (read 0 w.bufUsedSize w.buf) w.offset else w.file

/-! ### `DeSerialize` -/

/-- The entry that turn `i` of the inner loop finds in `buf`. -/
def entryAt (buf : Bytes) (i : Nat) : Nat × IndexItem :=
  (ofLE (read (3 * i * 8 + 0 * 8) 8 buf),
    ⟨ofLE (read (3 * i * 8 + 1 * 8) 8 buf), ofLE (read (3 * i * 8 + 2 * 8) 8 buf)⟩)

/-- The outer loop. A turn reads at least one byte, so that `fileSize` turns are enough. -/
def readLoop (file : Bytes) (fileSize : Nat) : Nat → Nat → Bytes → IndexMap → Option IndexMap
  | 0, _, _, _ => none
  | fuel + 1, offset, buf, index =>
    if offset < fileSize then do
      let readSize := if u64 (offset + chunkSize) ≤ fileSize then chunkSize else fileSize - offset
      let x ← FileIo.read file readSize offset
      let buf := write 0 x buf
      readLoop file fileSize fuel (u64 (offset + readSize)) buf
        ((List.range (readSize / (3 * 8))).foldl (fun index i => index.indexPut (entryAt buf i)) index)
    else some index

/-- `DeSerialize` between `Open` and `Close`. -/
def deSerializeFrom (buf : ChunkBuf) (file : Bytes) (index : IndexMap) : Option IndexMap := do
  let fileSize ← FileIo.read file 8 0
  let _indexSize ← FileIo.read file 8 8
  readLoop file (ofLE fileSize) (ofLE fileSize + 1) (8 + 8) buf index

/-! ### The stream -/

def encode (entry : Nat × IndexItem) : Bytes :=
  toLE 8 entry.1 ++ (toLE 8 entry.2.pageId ++ toLE 8 entry.2.pageLocation)

/-- The bytes of an index file with these entries. -/
def stream (entries : List (Nat × IndexItem)) : Bytes :=
  toLE 8 (16 + 24 * entries.length) ++ (toLE 8 entries.length ++ entries.flatMap encode)

section Stream

variable {entry : Nat × IndexItem} {entries : List (Nat × IndexItem)} {file buf src out : Bytes} {off i : Nat}

@[simp] theorem length_encode : (encode entry).length = 24 := by simp [encode]

theorem length_stream : (stream entries).length = 16 + 24 * entries.length := by
  simp only [stream, List.length_append, length_toLE, length_records fun _ => length_encode]
  omega

theorem u64_of_lt {n : Nat} (h : n < 2 ^ 64) : u64 n = n := Nat.mod_eq_of_lt h

theorem FileIo.write_of_le (h : off ≤ file.length) : FileIo.write file src off = Buf.write off src file := by
  rw [FileIo.write, Nat.sub_eq_zero_of_le h, List.replicate_zero, List.append_nil]

/-- A write at the end of what has been written. -/
theorem FileIo.write_append : FileIo.write (Buf.write 0 out file) src out.length = Buf.write 0 (out ++ src) file := by
  have hlen : out.length ≤ (Buf.write 0 out file).length := by
    rw [length_write (Nat.zero_le _), Nat.zero_add]
    exact Nat.le_max_right ..
  have happend : Buf.write (0 + out.length) src (Buf.write 0 out file) = Buf.write 0 (out ++ src) file :=
    write_write_append (Nat.zero_le _)
  rw [write_of_le hlen, ← happend, Nat.zero_add]

/-- The three copies of a turn. -/
theorem write_entry (h : off ≤ buf.length) :
    write (off + 2 * 8) (toLE 8 entry.2.pageLocation) (write (off + 1 * 8) (toLE 8 entry.2.pageId)
      (write (off + 0 * 8) (toLE 8 entry.1) buf)) = write off (encode entry) buf := by
  have h₁ : write (off + 1 * 8) (toLE 8 entry.2.pageId) (write (off + 0 * 8) (toLE 8 entry.1) buf) =
      write off (toLE 8 entry.1 ++ toLE 8 entry.2.pageId) buf := by
    rw [← write_write_append h, length_toLE]
    rfl
  have h₂ : write (off + (toLE 8 entry.1 ++ toLE 8 entry.2.pageId).length) (toLE 8 entry.2.pageLocation)
      (write off (toLE 8 entry.1 ++ toLE 8 entry.2.pageId) buf) = write off (encode entry) buf := by
    rw [write_write_append h, List.append_assoc, encode]
  rw [List.length_append, length_toLE, length_toLE] at h₂
  rw [h₁, h₂]

end Stream

/-! ### What `Serialize` writes -/

/-- The bytes `out` have gone to the file, and together with the used part of `buf` they are `done`. -/
structure WriterInv (file done out : Bytes) (w : IndexWriter) : Prop where
  file_eq : w.file = write 0 out file
  offset : w.offset = out.length
  buf : w.buf.length = chunkSize
  used : w.bufUsedSize ≤ chunkSize
  whole : 24 ∣ w.bufUsedSize
  done_eq : out ++ read 0 w.bufUsedSize w.buf = done

namespace WriterInv

variable {file done out : Bytes} {w : IndexWriter}

theorem length_done (h : WriterInv file done out w) : done.length = out.length + w.bufUsedSize := by
  have hused := h.used
  rw [← h.done_eq, List.length_append, length_read (by rw [h.buf]; omega)]

/-- `buf` goes to the file. -/
theorem file_write (h : WriterInv file done out w) :
    FileIo.write w.file (read 0 w.bufUsedSize w.buf) w.offset = write 0 done file := by
  rw [h.file_eq, h.offset, FileIo.write_append, h.done_eq]

theorem flush (h : WriterInv file done out w) (hfit : done.length < 2 ^ 64) : WriterInv file done done w.flush := by
  refine ⟨h.file_write, ?_, h.buf, Nat.zero_le _, Nat.dvd_zero _, ?_⟩
  · show u64 (w.offset + w.bufUsedSize) = done.length
    rw [h.offset, ← h.length_done, u64_of_lt hfit]
  · simp [IndexWriter.flush]

/-- `buf` is full or has room for an entry. -/
theorem room (h : WriterInv file done out w) (hne : w.bufUsedSize ≠ chunkSize) : w.bufUsedSize + 3 * 8 ≤ chunkSize := by
  obtain ⟨n, hn⟩ := h.whole
  have hused := h.used
  simp only [chunkSize] at *
  omega

theorem copyEntry (entry : Nat × IndexItem) (h : WriterInv file done out w) (hne : w.bufUsedSize ≠ chunkSize) :
    ∃ w', w.copyEntry entry = some w' ∧ WriterInv file (done ++ encode entry) out w' := by
  have hroom := h.room hne
  have hle : w.bufUsedSize + (encode entry).length ≤ w.buf.length := by
    rw [length_encode, h.buf]
    exact hroom
  have hused : u64 (w.bufUsedSize + 3 * 8) = w.bufUsedSize + (encode entry).length := by
    rw [u64_of_lt (by simp only [chunkSize] at hroom; omega), length_encode]
  refine ⟨_, if_pos hroom, h.file_eq, h.offset, ?_, ?_, ?_, ?_⟩
  · show (write _ _ _).length = _
    rw [write_entry (by omega), length_write_of_le hle, h.buf]
  · show u64 _ ≤ _
    rw [hused, length_encode]
    exact hroom
  · show 24 ∣ u64 _
    rw [hused, length_encode]
    exact Nat.dvd_add h.whole (Nat.dvd_refl _)
  · show out ++ read 0 (u64 _) (write _ _ _) = _
    rw [hused, write_entry (by omega), read_write_append (by omega), ← List.append_assoc, h.done_eq]

/-- One turn of the loop. -/
theorem append (entry : Nat × IndexItem) (h : WriterInv file done out w) (hfit : done.length < 2 ^ 64) :
    ∃ w' out', w.append entry = some w' ∧ WriterInv file (done ++ encode entry) out' w' := by
  rw [IndexWriter.append]
  split
  · obtain ⟨w', hw, h'⟩ := (h.flush hfit).copyEntry entry (by simp [IndexWriter.flush, chunkSize])
    exact ⟨w', done, hw, h'⟩
  · rename_i hne
    obtain ⟨w', hw, h'⟩ := h.copyEntry entry hne
    exact ⟨w', out, hw, h'⟩

theorem appends (entries : List (Nat × IndexItem)) (h : WriterInv file done out w)
    (hfit : done.length + 24 * entries.length < 2 ^ 64) :
    ∃ w' out', entries.foldlM IndexWriter.append w = some w' ∧
      WriterInv file (done ++ entries.flatMap encode) out' w' := by
  induction entries generalizing w done out with
  | nil => exact ⟨w, out, rfl, by simpa using h⟩
  | cons entry entries ih =>
    rw [List.length_cons] at hfit
    obtain ⟨w₁, out₁, hstep, h₁⟩ := h.append entry (by omega)
    obtain ⟨w', out', hrun, h'⟩ := ih h₁ (by rw [List.length_append, length_encode]; omega)
    refine ⟨w', out', ?_, ?_⟩
    · rw [List.foldlM_cons, hstep]
      exact hrun
    · rw [List.flatMap_cons, ← List.append_assoc]
      exact h'

end WriterInv

theorem serializeTo_eq {entries : List (Nat × IndexItem)} {buf : ChunkBuf} {file : Bytes}
    (hfit : 16 + 24 * entries.length < 2 ^ 64) :
    serializeTo entries buf file = some (write 0 (stream entries) file) := by
  have hsize : u64 (8 + 8 + 3 * 8 * entries.length) = 16 + 24 * entries.length := u64_of_lt hfit
  have hheader : FileIo.write (FileIo.write file (toLE 8 (16 + 24 * entries.length)) 0) (toLE 8 entries.length) 8 =
      write 0 (toLE 8 (16 + 24 * entries.length) ++ toLE 8 entries.length) file := by
    rw [← FileIo.write_append, length_toLE, FileIo.write_of_le (Nat.zero_le _)]
  have hstart : WriterInv file (toLE 8 (16 + 24 * entries.length) ++ toLE 8 entries.length)
      (toLE 8 (16 + 24 * entries.length) ++ toLE 8 entries.length)
      ⟨write 0 (toLE 8 (16 + 24 * entries.length) ++ toLE 8 entries.length) file, buf, 0, 2 * 8⟩ :=
    ⟨rfl, by simp, buf.2, Nat.zero_le _, Nat.dvd_zero _, by simp⟩
  obtain ⟨w, out, hrun, h⟩ := hstart.appends entries (by simpa using hfit)
  simp only [serializeTo, hsize, hheader, hrun, Option.bind_eq_bind, Option.bind_some, Option.pure_def,
    Option.some.injEq]
  rw [stream, ← List.append_assoc]
  split
  · exact h.file_write
  · rename_i hused
    have hdone := h.done_eq
    rw [Nat.eq_zero_of_not_pos hused] at hdone
    rw [h.file_eq, ← hdone, read_zero, List.append_nil]

/-! ### What `DeSerialize` reads -/

section Read

variable {entry : Nat × IndexItem} {entries : List (Nat × IndexItem)} {file buf : Bytes} {index : IndexMap}
  {fileSize fuel offset i : Nat}

theorem entryAt_of_read (hbuf : read (24 * i) 24 buf = encode entry) (hwords : Words entry) :
    entryAt buf i = entry := by
  have hfield : ∀ j, j ≤ 2 → read (3 * i * 8 + j * 8) 8 buf = read (j * 8) 8 (encode entry) := by
    intro j hj
    rw [← hbuf, read_read (by omega)]
    congr 1
    omega
  have hkey : read (0 * 8) 8 (encode entry) = toLE 8 entry.1 := List.take_left' length_toLE
  have hid : read (1 * 8) 8 (encode entry) = toLE 8 entry.2.pageId := by
    rw [encode, read_append_right length_toLE, List.take_left' length_toLE]
  have hloc : read (2 * 8) 8 (encode entry) = toLE 8 entry.2.pageLocation := by
    rw [encode, ← List.append_assoc, read_append_right (by simp), List.take_of_length_le (by simp)]
  rw [entryAt, hfield 0 (by omega), hfield 1 (by omega), hfield 2 (by omega), hkey, hid, hloc,
    ofLE_toLE_of_lt hwords.1, ofLE_toLE_of_lt hwords.2.1, ofLE_toLE_of_lt hwords.2.2]

/-- The inner loop. -/
theorem map_entryAt (hwords : ∀ e ∈ entries, Words e) :
    (List.range entries.length).map (entryAt (write 0 (entries.flatMap encode) buf)) = entries := by
  refine List.ext_getElem (by simp) fun i hi hi' => ?_
  rw [List.getElem_map, List.getElem_range]
  refine entryAt_of_read ?_ (hwords _ (List.getElem_mem hi'))
  have hlen : (entries.flatMap encode).length = 24 * entries.length := length_records fun _ => length_encode
  have hrecord : read (24 * i) (24 * 1) (entries.flatMap encode) = encode entries[i] := by
    rw [read_records fun _ => length_encode, List.drop_eq_getElem_cons hi', List.take_succ_cons, List.take_zero]
    exact List.append_nil _
  rw [write_zero, read_append_left (by omega), ← hrecord]

/-- The size of a piece is that of 21845 entries, or of all that are left. -/
theorem readSize_eq {m : Nat} (hend : offset + 24 * m = fileSize) (hfit : fileSize + chunkSize < 2 ^ 64) :
    (if u64 (offset + chunkSize) ≤ fileSize then chunkSize else fileSize - offset) = 24 * min 21845 m := by
  rw [u64_of_lt (by omega)]
  by_cases hle : offset + chunkSize ≤ fileSize
  · rw [if_pos hle, Nat.min_eq_left (by simp only [chunkSize] at hle; omega)]
    rfl
  · rw [if_neg hle, Nat.min_eq_right (by simp only [chunkSize] at hle; omega)]
    omega

/-- The outer loop puts all entries that the file has from `offset` on. -/
theorem readLoop_eq (hwords : ∀ e ∈ entries, Words e) (hend : offset + 24 * entries.length = fileSize)
    (hfit : fileSize + chunkSize < 2 ^ 64) (hlen : fileSize ≤ file.length)
    (hread : read offset (24 * entries.length) file = entries.flatMap encode) (hfuel : entries.length < fuel) :
    readLoop file fileSize fuel offset buf index = some (entries.foldl IndexMap.indexPut index) := by
  induction fuel generalizing entries offset buf index with
  | zero => omega
  | succ fuel ih =>
    rw [readLoop]
    by_cases hempty : entries.length = 0
    · rw [if_neg (by omega), List.length_eq_zero_iff.1 hempty, List.foldl_nil]
    · rw [if_pos (by omega), readSize_eq hend hfit]
      generalize hn : min 21845 entries.length = n
      have hpart : ∀ i m, i + m ≤ entries.length →
          read (offset + 24 * i) (24 * m) file = ((entries.drop i).take m).flatMap encode := by
        intro i m him
        rw [← read_records fun _ => length_encode, ← hread, read_read (by omega)]
      have hpiece : FileIo.read file (24 * n) offset = some ((entries.take n).flatMap encode) := by
        rw [FileIo.read, if_pos (by omega)]
        exact congrArg some (hpart 0 n (by omega))
      have hput : (List.range (24 * n / (3 * 8))).foldl
          (fun index i => index.indexPut (entryAt (write 0 ((entries.take n).flatMap encode) buf) i)) index =
          (entries.take n).foldl IndexMap.indexPut index := by
        have hlength : 24 * n / (3 * 8) = (entries.take n).length := by
          rw [List.length_take]
          omega
        rw [hlength, ← List.foldl_map, map_entryAt fun e he => hwords e (List.mem_of_mem_take he)]
      have hrest : readLoop file fileSize fuel (offset + 24 * n) (write 0 ((entries.take n).flatMap encode) buf)
          ((entries.take n).foldl IndexMap.indexPut index) =
          some ((entries.drop n).foldl IndexMap.indexPut ((entries.take n).foldl IndexMap.indexPut index)) := by
        refine ih (fun e he => hwords e (List.mem_of_mem_drop he)) ?_ ?_ ?_
        · rw [List.length_drop]
          omega
        · rw [hpart n _ (by rw [List.length_drop]; omega), List.take_length]
        · rw [List.length_drop]
          omega
      rw [← List.foldl_append, List.take_append_drop] at hrest
      simp only [hpiece, Option.bind_eq_bind, Option.bind_some, hput]
      rw [u64_of_lt (by omega), hrest]

/-- A file that starts with the stream, whatever comes behind it. -/
theorem deSerializeFrom_eq {buf : ChunkBuf} {tail : Bytes} (hwords : ∀ e ∈ entries, Words e)
    (hfit : 16 + 24 * entries.length + chunkSize < 2 ^ 64) :
    deSerializeFrom buf (stream entries ++ tail) index = some (entries.foldl IndexMap.indexPut index) := by
  have hlen : 16 + 24 * entries.length ≤ (stream entries ++ tail).length := by
    rw [List.length_append, length_stream]
    exact Nat.le_add_right ..
  have hsize : FileIo.read (stream entries ++ tail) 8 0 = some (toLE 8 (16 + 24 * entries.length)) := by
    rw [FileIo.read, if_pos (by omega), stream, List.append_assoc]
    exact congrArg some (List.take_left' length_toLE)
  have hcount : FileIo.read (stream entries ++ tail) 8 8 = some (toLE 8 entries.length) := by
    rw [FileIo.read, if_pos (by omega), stream, List.append_assoc, read_append_right length_toLE, List.append_assoc,
      List.take_left' length_toLE]
  have hentries : read (8 + 8) (24 * entries.length) (stream entries ++ tail) = entries.flatMap encode := by
    rw [read_append_left (by rw [length_stream]), stream, ← List.append_assoc, read_append_right (by simp),
      List.take_of_length_le (length_records fun _ => length_encode).le]
  simp only [deSerializeFrom, hsize, hcount, Option.bind_eq_bind, Option.bind_some]
  rw [ofLE_toLE_of_lt (by simp only [chunkSize] at hfit; omega)]
  exact readLoop_eq hwords rfl hfit hlen hentries (by omega)

end Read

/-! ### The round trip -/

namespace IndexMap

variable {index : IndexMap} {key : Nat}

theorem foldl_indexPut {entries : List (Nat × IndexItem)} {start : IndexMap}
    (h : ∀ e ∈ entries, index e.1 = some e.2) :
    entries.foldl indexPut start key = if key ∈ entries.map Prod.fst then index key else start key := by
  induction entries generalizing start with
  | nil => rfl
  | cons e entries ih =>
    rw [List.foldl_cons, ih fun e' he' => h e' (List.mem_cons_of_mem _ he')]
    by_cases hkey : key = e.1
    · subst hkey
      simp [indexPut, h e List.mem_cons_self]
    · simp only [indexPut, Function.update_of_ne hkey, List.map_cons, List.mem_cons, hkey, false_or]

/-- The entries, put in any order into an empty map, give the map. -/
theorem Enumeration.foldl_entries (order : Enumeration index) : order.entries.foldl indexPut empty = index := by
  funext key
  rw [foldl_indexPut fun e he => (order.mem_iff e.1 e.2).1 he]
  split
  · rfl
  · rename_i hkey
    cases hitem : index key with
    | none => rfl
    | some item => exact absurd (List.mem_map_of_mem ((order.mem_iff key item).2 hitem)) hkey

end IndexMap

/-- What `Serialize` has put over any old file, `DeSerialize` puts into an empty index. -/
theorem deSerializeFrom_serializeTo {index : IndexMap} (order : index.Enumeration) (buf buf' : ChunkBuf)
    (file : Bytes) :
    ∃ file', serializeTo order.entries buf file = some file' ∧ deSerializeFrom buf' file' .empty = some index := by
  have hmem := order.inMemory
  refine ⟨_, serializeTo_eq (by omega), ?_⟩
  rw [write_zero, deSerializeFrom_eq order.words (by simp only [chunkSize]; omega), order.foldl_entries]

end Dbx1000
