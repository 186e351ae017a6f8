import Dbx1000.BufferMap
import Dbx1000.Lib.Lts
import Dbx1000.Page

/-!
# Reads and writes of a part of a page

`BufferGet` and `BufferPut` take a `count`, and a page that is not in the pool gets a frame of which only
the first `count` bytes are overwritten; the rest are those of the page that had the frame before. Such a
call is a call with the whole page for the contents that the frame then has (`bringIn_count`), so that the pool
stays in order under calls with any count. A get leaves all pages as they are if and only if it finds its page in the
pool or takes a frame that has the rest of the page already (`get_keeps_pages`). A fifth of the frames is freed when
none is free, so that a pool of five or more frames finds one for every page (`pool_finds_free_frame`).
-/

namespace Dbx1000

/-- A call of the pool with its `count`. -/
inductive CountOp
  | get (locked : Bool) (pageId count : Nat)
  | put (locked : Bool) (pageId : Nat) (buf : Bytes) (count : Nat)
  | flushALl
deriving DecidableEq, Repr

/-- The call keeps to the sizes of the page and of its buffer. -/
def CountOp.Fits (pageSize : Nat) : CountOp → Prop
  | .get _ _ count => count ≤ pageSize
  | .put _ _ buf count => count ≤ pageSize ∧ count ≤ buf.length
  | .flushALl => True

namespace Buffer

/-- `BufferGetWithLock` or `BufferGet`. -/
def getCount (locked : Bool) (pageId count : Nat) (b : Buffer) : Option (Bytes × Buffer) :=
  if locked then b.bufferGetWithLock pageId count else b.bufferGet pageId count

def putCount (locked : Bool) (pageId : Nat) (buf : Bytes) (count : Nat) (b : Buffer) : Option Buffer :=
  if locked then b.bufferPutWithLock pageId buf count else b.bufferPut pageId buf count

/-- The calls of a program: `count` is at most the size of a page, and a buffer to be copied has that many bytes. -/
def stepCount (b : Buffer) : CountOp → Option Buffer
  | .get locked p count => if count ≤ b.pageSize then (b.getCount locked p count).map Prod.snd else none
  | .put locked p buf count =>
    if count ≤ b.pageSize ∧ count ≤ buf.length then b.putCount locked p buf count else none
  | .flushALl => b.flushALl

/-- The frame that a miss takes: the last free one, or the one that `FlushPageList` frees first. -/
def takenFrame (b : Buffer) : Option Nat := if b.freeList.size ≤ 0 then b.pageList.tail else b.freeList.tail

/-- The frame that a miss of `p` takes has the page from `count` on. -/
def FrameAgrees (p count : Nat) (b : Buffer) : Prop :=
  ∀ a, b.takenFrame = some a → (b.node a).pageBuf.drop count = (b.disk p).drop count

/-- The pool over any disk. -/
def countLts (totalSize pageSize : Nat) : Lts Buffer CountOp where
  init b := ∃ disk : Nat → Bytes, (∀ p, (disk p).length = pageSize) ∧ Buffer.new totalSize pageSize disk = some b
  step := stepCount

end Buffer

/-! ### A part of a page as a whole one -/

theorem length_memcpy {dst src : Bytes} {count n : Nat} (hd : dst.length = n) (hn : count ≤ n)
    (hs : count ≤ src.length) : (memcpy dst src count).length = n := by
  simp only [memcpy, List.length_append, List.length_take, List.length_drop]
  omega

/-- The copy makes `dst` equal to `src` if the rest of it was so already. -/
theorem memcpy_eq_iff {dst src : Bytes} {count : Nat} :
    memcpy dst src count = src ↔ dst.drop count = src.drop count := by
  have hsplit : memcpy dst src count = src ↔
      src.take count ++ dst.drop count = src.take count ++ src.drop count := by rw [memcpy, List.take_append_drop]
  rw [hsplit, List.append_cancel_left_eq]

section Count

variable {b : Buffer} {ps fs : List Nat} {a p count : Nat} {buf : Bytes}

theorem setPageBuf_count (hlen : (b.node a).pageBuf.length = b.pageSize) (hn : count ≤ b.pageSize)
    (hs : count ≤ buf.length) :
    b.setPageBuf a buf count = b.setPageBuf a (memcpy (b.node a).pageBuf buf count) b.pageSize := by
  rw [Buffer.setPageBuf, Buffer.setPageBuf, memcpy_all hlen (length_memcpy hlen hn hs)]

namespace BufOk

theorem freeListToPageList_count (h : BufOk b ps (fs ++ [a])) (hn : count ≤ b.pageSize) (hs : count ≤ buf.length) :
    b.freeListToPageList p buf count = b.freeListToPageList p (memcpy (b.node a).pageBuf buf count) b.pageSize := by
  have hnodup : (fs ++ [a] ++ ps).Nodup := (List.perm_append_comm.nodup_iff).1 h.nodup
  obtain ⟨node₁, l₁, hpop, hpage, -⟩ := Lru.popback_prepend h.frees h.pages hnodup
  let b₁ : Buffer := { b with node := node₁, freeList := l₁ }
  have hpop' : b.freeListPopback = some (a, b₁) := by
    simp only [Buffer.freeListPopback, hpop, Option.bind_eq_bind, Option.bind_some, Option.pure_def]
    rfl
  have hbuf : ((b₁.setPageId a p).node a).pageBuf = (b.node a).pageBuf := by
    simp only [Buffer.setPageId, Function.update_self]
    exact (hpage a).2
  have hset : (b₁.setPageId a p).setPageBuf a buf count = _ :=
    setPageBuf_count ((congrArg _ hbuf).trans (h.bufLen a)) hn hs
  rw [hbuf] at hset
  simp only [Buffer.freeListToPageList, hpop', Option.bind_eq_bind, Option.bind_some, hset]
  rfl

/-- A part of a page is brought in as the page that the taken frame then has. -/
theorem bringIn_count (h : BufOk b ps fs) (h5 : 5 ≤ b.pageNum) (hn : count ≤ b.pageSize) (hs : count ≤ buf.length) :
    ∃ a, b.takenFrame = some a ∧
      b.bringIn p buf count = b.bringIn p (memcpy (b.node a).pageBuf buf count) b.pageSize := by
  simp only [Buffer.bringIn, Buffer.takenFrame, h.frees.size]
  rcases List.eq_nil_or_concat fs with rfl | ⟨fs, a, rfl⟩
  · obtain ⟨b₁, out, a, hb₁, hcut, hok₁, hfl⟩ := h.flushPageList_spec h5
    have hlast : ps = ps.take (b.pageNum - b.pageNum / 5) ++ out ++ [a] := by
      rw [List.append_assoc, ← hcut, List.take_append_drop]
    have htail : b.pageList.tail = some a := (hlast ▸ h.pages).list.prev_last.1
    rw [← hfl.config.1] at hn
    have heq := hok₁.freeListToPageList_count (p := p) hn hs
    rw [hfl.pageBuf a, hfl.config.1] at heq
    exact ⟨a, by simp [htail], by simp [hb₁, heq]⟩
  · rw [List.concat_eq_append] at h
    have htail : b.freeList.tail = some a := h.frees.list.prev_last.1
    have heq := h.freeListToPageList_count (p := p) hn hs
    exact ⟨a, by simp [htail], by simp [heq]⟩

end BufOk

end Count

/-! ### Runs -/

namespace Holds

variable {pageSize pageNum : Nat} {b : Buffer} {m : Nat → Bytes} {p count : Nat} {buf : Bytes}

/-- A page that is not in the pool gets a frame, whatever is copied into it. -/
theorem bringIn_count (h : Holds pageSize pageNum b m) (h5 : 5 ≤ pageNum) (hp : b.lruIndex p = none)
    (hn : count ≤ pageSize) (hs : count ≤ buf.length) :
    ∃ a b', b.takenFrame = some a ∧ ({ b with mutex := true } : Buffer).bringIn p buf count = some b' ∧
      Holds pageSize pageNum b'.unlock (Function.update m p (memcpy (b.node a).pageBuf buf count)) := by
  obtain ⟨ps, fs, hok⟩ := h.ok
  obtain ⟨hsize, hnum⟩ := h.config
  obtain ⟨a, htaken, heq⟩ := (hok.setMutex true).bringIn_count (p := p) (hnum.symm ▸ h5) (hsize.symm ▸ hn) hs
  have hlen := length_memcpy (hok.bufLen a) (hsize.symm ▸ hn) hs
  obtain ⟨b', hb', hh⟩ := h.bringIn h5 hp (hlen.trans hsize)
  exact ⟨a, b', htaken, heq.trans hb', hh⟩

/-- The pages are as before if the get hits or takes a frame with the rest of the page. -/
theorem getCount (h : Holds pageSize pageNum b m) (h5 : 5 ≤ pageNum) (locked : Bool) (p : Nat)
    (hn : count ≤ pageSize) :
    ∃ buf b' m', b.getCount locked p count = some (buf, b') ∧ Holds pageSize pageNum b' m' ∧
      ((∀ q, m' q = m q) ↔ b.lruIndex p ≠ none ∨ b.FrameAgrees p count) := by
  obtain ⟨ps, fs, hok⟩ := h.ok
  rw [Buffer.getCount, Buffer.bufferGet_eq_withLock h.mutex, ite_self]
  cases hp : b.lruIndex p with
  | some a =>
    refine ⟨_, b, m, Buffer.bufferGetWithLock_of_some hok h.mutex hp, h, ?_⟩
    exact iff_of_true (fun _ => rfl) (.inl nofun)
  | none =>
    have hs : count ≤ (b.disk p).length := by rwa [hok.diskLen p, h.config.1]
    obtain ⟨a, b', htaken, hb', hh⟩ := h.bringIn_count h5 hp hn hs
    refine ⟨_, b'.unlock, _, by rw [Buffer.bufferGetWithLock_of_none hok h.mutex hp, hb', Option.map_some], hh, ?_⟩
    have hdisk : m p = b.disk p := by rw [← h.content p, Buffer.content, hp]
    have hagrees : b.FrameAgrees p count ↔ memcpy (b.node a).pageBuf (b.disk p) count = m p := by
      rw [hdisk, memcpy_eq_iff]
      constructor
      · exact fun hall => hall a htaken
      · intro heq c hc
        cases htaken.symm.trans hc
        exact heq
    rw [hagrees, or_iff_right fun hne => hne rfl]
    constructor
    · intro hsame
      have := hsame p
      rwa [Function.update_self] at this
    · intro heq q
      rw [heq, Function.update_eq_self]

theorem putCount (h : Holds pageSize pageNum b m) (h5 : 5 ≤ pageNum) (locked : Bool) (p : Nat)
    (hn : count ≤ pageSize) (hs : count ≤ buf.length) :
    ∃ b' m', b.putCount locked p buf count = some b' ∧ Holds pageSize pageNum b' m' := by
  obtain ⟨ps, fs, hok⟩ := h.ok
  obtain ⟨hsize, hnum⟩ := h.config
  rw [Buffer.putCount, Buffer.bufferPut_eq_withLock h.mutex, ite_self]
  cases hp : b.lruIndex p with
  | some a =>
    have hlen := hok.bufLen a
    have hv := length_memcpy hlen (hsize.symm ▸ hn) hs
    obtain ⟨hok', -⟩ := (hok.setMutex true).setPageBuf_spec hp hv
    refine ⟨_, _, Buffer.bufferPutWithLock_of_some hok h.mutex hp, ?_, fun _ => rfl, rfl, h.config⟩
    have hset : ({ b with mutex := true } : Buffer).setPageBuf a buf count = _ :=
      setPageBuf_count (b := { b with mutex := true }) hlen (hsize.symm ▸ hn) hs
    rw [hset]
    exact ⟨ps, fs, hok'.setMutex false⟩
  | none =>
    obtain ⟨a, b', -, hb', hh⟩ := h.bringIn_count h5 hp hn hs
    exact ⟨b'.unlock, _, by rw [Buffer.bufferPutWithLock_of_none hok h.mutex hp, hb', Option.map_some], hh⟩

theorem stepCount (h : Holds pageSize pageNum b m) (h5 : 5 ≤ pageNum) {op : CountOp} {b' : Buffer}
    (hs : b.stepCount op = some b') : ∃ m', Holds pageSize pageNum b' m' := by
  cases op with
  | get locked p count =>
    simp only [Buffer.stepCount, Option.ite_none_right_eq_some, h.config.1] at hs
    obtain ⟨buf, b₁, m', hb₁, hh, -⟩ := h.getCount h5 locked p hs.1
    rw [hb₁, Option.map_some] at hs
    cases hs.2
    exact ⟨m', hh⟩
  | put locked p buf count =>
    simp only [Buffer.stepCount, Option.ite_none_right_eq_some, h.config.1] at hs
    obtain ⟨b₁, m', hb₁, hh⟩ := h.putCount h5 locked p hs.1.1 hs.1.2
    rw [hb₁] at hs
    cases hs.2
    exact ⟨m', hh⟩
  | flushALl =>
    obtain ⟨b₁, hb₁, hh, -⟩ := h.flushALl
    rw [Buffer.stepCount, hb₁] at hs
    cases hs
    exact ⟨m, hh⟩

/-- Whatever was called before, the pool holds some page map. -/
theorem reach {totalSize : Nat} (h5 : 5 ≤ totalSize / pageSize)
    (h : (Buffer.countLts totalSize pageSize).Reach Lts.Any b) : ∃ m, Holds pageSize (totalSize / pageSize) b m := by
  refine h.inv (P := fun b => ∃ m, Holds pageSize (totalSize / pageSize) b m) ?_ ?_
  · rintro b ⟨disk, hdisk, hnew⟩
    obtain ⟨b₀, hb₀, hh⟩ : ∃ b₀, Buffer.new totalSize pageSize disk = some b₀ ∧
        Holds pageSize (totalSize / pageSize) b₀ disk := Holds.new hdisk
    rw [hnew] at hb₀
    cases hb₀
    exact ⟨disk, hh⟩
  · rintro b op b' ⟨m, hm⟩ - hs
    exact hm.stepCount h5 hs

/-- What a get of the whole page returns and what `FlushALl` writes. -/
theorem logical (h : Holds pageSize pageNum b m) (h5 : 5 ≤ pageNum) (q : Nat) :
    (b.bufferGet q pageSize).map Prod.fst = some (m q) ∧ b.flushALl.map (fun b' => b'.disk q) = some (m q) := by
  obtain ⟨b₁, hb₁, -⟩ := h.get h5 q
  obtain ⟨b₂, hb₂, -, hdisk⟩ := h.flushALl
  rw [h.config.1] at hb₁
  rw [Buffer.bufferGet_eq_withLock h.mutex, hb₁, hb₂, Option.map_some, Option.map_some, hdisk q]
  exact ⟨rfl, rfl⟩

end Holds

/-! ### A frame for every page -/

namespace Holds

variable {pageSize pageNum : Nat} {b : Buffer} {m : Nat → Bytes}

/-- Every call that a program may make returns. -/
theorem stepCount_returns (h : Holds pageSize pageNum b m) (h5 : 5 ≤ pageNum) {op : CountOp} (hop : op.Fits pageSize) :
    ∃ b', b.stepCount op = some b' := by
  cases op with
  | get locked p count =>
    obtain ⟨buf, b', m', hb', -⟩ := h.getCount h5 locked p hop
    refine ⟨b', ?_⟩
    rw [Buffer.stepCount, h.config.1, hb', Option.map_some]
    exact if_pos hop
  | put locked p buf count =>
    obtain ⟨b', m', hb', -⟩ := h.putCount h5 locked p hop.1 hop.2
    refine ⟨b', ?_⟩
    rw [Buffer.stepCount, h.config.1, hb']
    exact if_pos hop
  | flushALl =>
    obtain ⟨b', hb', -⟩ := h.flushALl
    exact ⟨b', hb'⟩

/-- `FlushPageList` of a full pool gives at least one frame free. -/
theorem flushPageList_frees (h : Holds pageSize pageNum b m) (h5 : 5 ≤ pageNum) (hfull : b.freeList.size = 0) :
    ∃ b', b.flushPageList = some b' ∧ 0 < b'.freeList.size ∧ b'.pageList.size < b'.pageNum := by
  obtain ⟨ps, fs, hok⟩ := h.ok
  rw [hok.frees.size, List.length_eq_zero_iff] at hfull
  subst hfull
  obtain ⟨b', out, a, hb', -, hok', -⟩ := hok.flushPageList_spec (h.config.2.symm ▸ h5)
  have hlen := hok'.length_add
  have hfrees := hok'.frees.size
  rw [List.length_append, List.length_singleton] at hlen hfrees
  rw [← hok'.pages.size] at hlen
  exact ⟨b', hb', by omega, by omega⟩

/-- While a frame is free, `page_list_` is not full. -/
theorem pageList_not_full (h : Holds pageSize pageNum b m) (hfree : 0 < b.freeList.size) :
    b.pageList.size < b.pageNum := by
  obtain ⟨ps, fs, hok⟩ := h.ok
  have hlen := hok.length_add
  rw [← hok.pages.size, ← hok.frees.size] at hlen
  omega

end Holds

/-- In a pool of five frames or more no call fails an assertion: when no frame is free, `FlushPageList` finds
the pool full and frees one, and when one is free there is room in `page_list_`. -/
theorem pool_finds_free_frame {totalSize pageSize : Nat} (h5 : 5 ≤ totalSize / pageSize) {b : Buffer}
    (h : (Buffer.countLts totalSize pageSize).Reach Lts.Any b) :
    (b.freeList.size = 0 →
      ∃ b', b.flushPageList = some b' ∧ 0 < b'.freeList.size ∧ b'.pageList.size < b'.pageNum) ∧
    (0 < b.freeList.size → b.pageList.size < b.pageNum) ∧
    ∀ op : CountOp, op.Fits pageSize → ∃ b', b.stepCount op = some b' := by
  obtain ⟨m, hm⟩ := Holds.reach h5 h
  exact ⟨hm.flushPageList_frees h5, hm.pageList_not_full, fun op hop => hm.stepCount_returns h5 hop⟩

/-- Five pages fill a pool of five frames, and a sixth still finds one. -/
theorem sixth_page_finds_frame : ∃ b, (Buffer.countLts 5 1).Reach Lts.Any b ∧ b.freeList.size = 0 ∧
    ∃ b', b.stepCount (.put false 5 [9] 1) = some b' := by
  have hrun : ((Buffer.new 5 1 fun _ => [0]).any fun b₀ => ((Buffer.countLts 5 1).run b₀
      [.get false 0 1, .put false 1 [7] 1, .get true 2 0, .get false 3 1, .get false 4 1]).any
      fun b => decide (b.freeList.size = 0)) = true := by decide +kernel
  simp only [Option.any_eq_true, decide_eq_true_eq] at hrun
  obtain ⟨b₀, hb₀, b, hb, hfull⟩ := hrun
  have hreach : (Buffer.countLts 5 1).Reach Lts.Any b := .run (.init ⟨_, fun _ => rfl, hb₀⟩) hb
  exact ⟨b, hreach, hfull, (pool_finds_free_frame (by decide) hreach).2.2 _ ⟨le_rfl, le_rfl⟩⟩

/-- A pool of one frame that holds page 0: `FlushPageList` frees no frame, and the get of page 1 fails. -/
theorem single_frame_never_freed : ∃ b b' : Buffer, (Buffer.countLts 1 1).Reach Lts.Any b ∧
    b.flushPageList = some b' ∧ b'.freeList.size = 0 ∧ b.bufferGet 1 1 = none := by
  have hrun : ((Buffer.new 1 1 fun _ => [0]).any fun b₀ => ((Buffer.countLts 1 1).run b₀ [.get false 0 1]).any
      fun b => (b.flushPageList.any fun b' => decide (b'.freeList.size = 0)) && (b.bufferGet 1 1).isNone) = true := by
    decide +kernel
  simp only [Option.any_eq_true, Bool.and_eq_true, decide_eq_true_eq, Option.isNone_iff_eq_none] at hrun
  obtain ⟨b₀, hb₀, b, hb, ⟨b', hb', hfree⟩, hget⟩ := hrun
  exact ⟨b, b', .run (.init ⟨_, fun _ => rfl, hb₀⟩) hb, hb', hfree, hget⟩

/-! ### Gets that keep the pages -/

/-- A get returns, and it leaves what every page has if and only if it hits or takes a frame with the rest of the page.
-/
theorem get_keeps_pages {totalSize : Nat} (h5 : 5 ≤ totalSize / myPageSize) {b : Buffer}
    (h : (Buffer.countLts totalSize myPageSize).Reach Lts.Any b) (locked : Bool) {p count : Nat}
    (hn : count ≤ myPageSize) :
    ∃ buf b', b.getCount locked p count = some (buf, b') ∧ ((∀ q,
      (b'.bufferGet q myPageSize).map Prod.fst = (b.bufferGet q myPageSize).map Prod.fst ∧
      b'.flushALl.map (fun b => b.disk q) = b.flushALl.map (fun b => b.disk q)) ↔
    b.lruIndex p ≠ none ∨ b.FrameAgrees p count) := by
  obtain ⟨m, hm⟩ := Holds.reach h5 h
  obtain ⟨buf, b', m', hb', hm', hiff⟩ := hm.getCount h5 locked p hn
  refine ⟨buf, b', hb', Iff.trans (forall_congr' fun q => ?_) hiff⟩
  rw [(hm.logical h5 q).1, (hm.logical h5 q).2, (hm'.logical h5 q).1, (hm'.logical h5 q).2, Option.some.injEq]
  exact and_self_iff

/-- A pool of five frames over a disk of sevens: a get of the whole page. -/
theorem get_keeps_pages_whole : ∃ b, (Buffer.countLts (5 * myPageSize) myPageSize).Reach Lts.Any b ∧
    ∃ buf b', b.getCount true 0 myPageSize = some (buf, b') ∧ ∀ q,
      (b'.bufferGet q myPageSize).map Prod.fst = (b.bufferGet q myPageSize).map Prod.fst ∧
      b'.flushALl.map (fun b => b.disk q) = b.flushALl.map (fun b => b.disk q) := by
  have hdisk : ∀ p : Nat, ((fun _ => (fillPage 7).bytes) p : Bytes).length = myPageSize :=
    fun _ => (fillPage 7).length_eq
  have hnum : 5 ≤ 5 * myPageSize / myPageSize := by decide
  obtain ⟨b, hb, hholds⟩ : ∃ b, Buffer.new (5 * myPageSize) myPageSize (fun _ => (fillPage 7).bytes) = some b ∧
      Holds myPageSize (5 * myPageSize / myPageSize) b fun _ => (fillPage 7).bytes := Holds.new hdisk
  have hreach : (Buffer.countLts (5 * myPageSize) myPageSize).Reach Lts.Any b := .init ⟨_, hdisk, hb⟩
  obtain ⟨buf, b', hb', hiff⟩ := get_keeps_pages hnum hreach true le_rfl
  refine ⟨b, hreach, buf, b', hb', hiff.2 (.inr fun a _ => ?_)⟩
  -- nothing is left of the page
  obtain ⟨ps, fs, hok⟩ := hholds.ok
  have hsize := hholds.config.1
  rw [List.drop_of_length_le (by rw [hok.bufLen a, hsize]), List.drop_of_length_le (by rw [hok.diskLen 0, hsize])]

/-- The first bytes of the pages that a get of the whole page returns and that `FlushALl` writes. -/
def Buffer.firstBytes (p : Nat) (b : Buffer) : Option UInt8 × Option UInt8 :=
  ((b.bufferGet p myPageSize).bind fun r => r.1.head?, b.flushALl.bind fun b => (b.disk p).head?)

/-- A get of no bytes gives page 0 a frame of zeros, which stand for the page from then on. -/
theorem get_zero_bytes_alters_page : ∃ b b' : Buffer, ∃ buf,
    (Buffer.countLts (5 * myPageSize) myPageSize).Reach Lts.Any b ∧ b.getCount false 0 0 = some (buf, b') ∧
      b.firstBytes 0 = (some 7, some 7) ∧ b'.firstBytes 0 = (some 0, some 0) := by
  have hdisk : ∀ p : Nat, ((fun _ => (fillPage 7).bytes) p : Bytes).length = myPageSize :=
    fun _ => (fillPage 7).length_eq
  have hrun : ((Buffer.new (5 * myPageSize) myPageSize (fun _ => (fillPage 7).bytes)).any fun b =>
      decide (b.firstBytes 0 = (some 7, some 7)) && (b.getCount false 0 0).any fun r =>
        decide (r.2.firstBytes 0 = (some 0, some 0))) = true := by
    decide +kernel
  simp only [Option.any_eq_true, Bool.and_eq_true, decide_eq_true_eq] at hrun
  obtain ⟨b, hb, hfirst, r, hr, hfirst'⟩ := hrun
  exact ⟨b, r.2, r.1, .init ⟨_, hdisk, hb⟩, hr, hfirst, hfirst'⟩

end Dbx1000
