import Dbx1000.BufferMap

/-!
# What a call does to pool and disk

`content` does not tell a page in the pool from one on the disk. Here the effect of a single call is
stated page by page: the page of the call comes into the pool (`Comes`), every other page stays where it
is (`Stays`) or leaves the pool for the disk (`Leaves`). The pages that leave are known before the call
(`evictedFor`). The calls are assumed to have returned.
-/

namespace Dbx1000

namespace Buffer

/-- The bytes of a page in the pool. -/
def pooled (b : Buffer) (p : Nat) : Option Bytes := (b.lruIndex p).map fun a => (b.node a).pageBuf

/-- The pages in the pool, the one that came last first. -/
def pages (b : Buffer) : List Nat := (b.pageList.toList b.node).map fun a => (b.node a).pageId

/-- The pages that a call for `p` writes back: those in the frames that `FlushPageList` frees for it. -/
def evictedFor (b : Buffer) (p : Nat) : List Nat :=
  if b.lruIndex p = none then b.evicted.map fun a => (b.node a).pageId else []

def Stays (q : Nat) (b b' : Buffer) : Prop := b'.pooled q = b.pooled q ∧ b'.disk q = b.disk q

def Leaves (q : Nat) (b b' : Buffer) : Prop := b'.pooled q = none ∧ b.pooled q = some (b'.disk q)

def Comes (q : Nat) (v : Bytes) (b b' : Buffer) : Prop := b'.pooled q = some v ∧ b'.disk q = b.disk q

variable {b b' : Buffer} {p q count : Nat} {buf : Bytes}

theorem Leaves.ne_none (h : Leaves q b b') : b.pooled q ≠ none := by
  rw [h.2]
  exact nofun

theorem Comes.ne_none (h : Comes q buf b b') : b'.pooled q ≠ none := by
  rw [h.1]
  exact nofun

theorem pooled_eq_none : b.pooled q = none ↔ b.lruIndex q = none := Option.map_eq_none_iff

theorem content_of_pooled (h : b.pooled q = some buf) : b.content q = buf := by
  obtain ⟨a, ha, rfl⟩ := Option.map_eq_some_iff.1 h
  simp only [content, ha]

theorem content_of_none (h : b.pooled q = none) : b.content q = b.disk q := by
  simp only [content, pooled_eq_none.1 h]

theorem pooled_of_ne_none (h : b.lruIndex q ≠ none) : b.pooled q = some (b.content q) := by
  obtain ⟨a, ha⟩ := Option.ne_none_iff_exists'.1 h
  simp only [pooled, content, ha, Option.map_some]

theorem stays_or_leaves (hindex : KeptOrEvicted q b b') (hcontent : b'.content q = b.content q) :
    Stays q b b' ∨ Leaves q b b' := by
  rcases hindex with ⟨hindex, hdisk⟩ | ⟨hnone, hsome⟩
  · refine .inl ⟨?_, hdisk⟩
    by_cases hn : b.lruIndex q = none
    · rw [pooled_eq_none.2 hn, pooled_eq_none.2 (hindex.trans hn)]
    · rw [pooled_of_ne_none hn, pooled_of_ne_none (fun h => hn (hindex.symm.trans h)), hcontent]
  · have hnone' := pooled_eq_none.2 hnone
    refine .inr ⟨hnone', ?_⟩
    rw [pooled_of_ne_none hsome, ← hcontent, content_of_none hnone']

/-- Between calls: the lists and the index are in order and the mutex is free. -/
structure Ready (b : Buffer) : Prop where
  ok : ∃ ps fs, BufOk b ps fs
  mutex : b.mutex = false

namespace Ready

theorem setDisk (h : Ready b) {disk : Nat → Bytes} (hd : ∀ p, (disk p).length = b.pageSize) :
    Ready { b with disk := disk } := by
  obtain ⟨⟨ps, fs, hok⟩, hm⟩ := h
  exact ⟨⟨ps, fs, hok.pages, hok.frees, hok.part, hok.index, hok.bufLen, hd⟩, hm⟩

theorem mem_pages (h : Ready b) : q ∈ b.pages ↔ b.lruIndex q ≠ none := by
  obtain ⟨ps, fs, hok⟩ := h.ok
  rw [pages, hok.pages.toList_eq, List.mem_map, Option.ne_none_iff_exists']
  constructor
  · rintro ⟨a, ha, hq⟩
    exact ⟨a, (hok.index q a).2 ⟨ha, hq⟩⟩
  · rintro ⟨a, ha⟩
    exact ⟨a, (hok.index q a).1 ha⟩

end Ready

/-- A pool without free frames has at least five, or the call does not return. -/
theorem five_le_of_bringIn (h : b.bringIn p buf count = some b') (hfree : b.freeList.size = 0) : 5 ≤ b.pageNum := by
  by_contra hlt
  have hzero : b.pageNum / 5 = 0 := by omega
  rw [bringIn, if_pos (by omega), flushPageList] at h
  split at h
  · rw [hzero] at h
    simp [flushLoop, freeListToPageList, hfree] at h
  · cases h

/-- A page that is not in the pool comes in under the mutex. -/
theorem Ready.bringIn (h : Ready b) (hp : b.lruIndex p = none) (hbuf : buf.length = b.pageSize)
    (hb : ({ b with mutex := true } : Buffer).bringIn p buf b.pageSize = some b') :
    Ready b'.unlock ∧ b'.pageSize = b.pageSize ∧ Comes p buf b b'.unlock ∧
      ∀ q, q ≠ p → Stays q b b'.unlock ∨ Leaves q b b'.unlock ∧ q ∈ b.evictedFor p := by
  obtain ⟨⟨ps, fs, hok⟩, hm⟩ := h
  obtain ⟨b₁, ps', fs', hb₁, hok₁, hin⟩ := (hok.setMutex true).bringIn_spec (five_le_of_bringIn hb) hp hbuf
  obtain rfl : b' = b₁ := Option.some.inj (hb.symm.trans hb₁)
  have hself : b'.pooled p = some buf := by
    rw [pooled_of_ne_none hin.self.1, hin.content p, if_pos rfl]
  refine ⟨⟨⟨ps', fs', hok₁.setMutex false⟩, rfl⟩, hin.config.1, ⟨hself, hin.self.2⟩, fun q hq => ?_⟩
  have hcontent := hin.content q
  rw [if_neg hq] at hcontent
  refine (stays_or_leaves (hin.others q hq) hcontent).imp_right fun hleaves => ⟨hleaves, ?_⟩
  -- the frame of a page that leaves is among those that are flushed
  obtain ⟨a, ha⟩ := Option.ne_none_iff_exists'.1 fun hn => hleaves.ne_none (pooled_eq_none.2 hn)
  obtain ⟨hmem, hid⟩ := (hok.index q a).1 ha
  rw [evictedFor, if_pos hp]
  by_contra hnot
  have hkept : a ∉ b.evicted := fun hev => hnot (List.mem_map.2 ⟨a, hev, hid⟩)
  obtain ⟨hmem', hid'⟩ := hin.kept a hmem hkept
  have hindex : b'.lruIndex q = some a := (hok₁.index q a).2 ⟨hmem', hid'.trans hid⟩
  exact Option.some_ne_none a (hindex.symm.trans (pooled_eq_none.1 hleaves.1))

theorem Ready.bufferGet (h : Ready b) (hb : b.bufferGet p b.pageSize = some (buf, b')) :
    buf = b.content p ∧ Ready b' ∧ b'.pageSize = b.pageSize ∧ Comes p (b.content p) b b' ∧
      ∀ q, q ≠ p → Stays q b b' ∨ Leaves q b b' ∧ q ∈ b.evictedFor p := by
  obtain ⟨ps, fs, hok⟩ := h.ok
  rw [bufferGet_eq_withLock h.mutex] at hb
  cases hp : b.lruIndex p with
  | some a =>
    rw [bufferGetWithLock_of_some hok h.mutex hp] at hb
    cases hb
    have hcontent : b.content p = (b.node a).pageBuf := by simp only [content, hp]
    refine ⟨?_, h, rfl, ⟨pooled_of_ne_none (by simp [hp]), rfl⟩, fun q _ => .inl ⟨rfl, rfl⟩⟩
    rw [hcontent]
    exact List.take_of_length_le (hok.bufLen a).le
  | none =>
    rw [bufferGetWithLock_of_none hok h.mutex hp, Option.map_eq_some_iff] at hb
    obtain ⟨b₁, hb₁, hb⟩ := hb
    cases hb
    have hcontent : b.content p = b.disk p := by simp only [content, hp]
    obtain ⟨hready, hsize, hcomes, hothers⟩ := h.bringIn hp (hok.diskLen p) hb₁
    rw [hcontent]
    exact ⟨rfl, hready, hsize, hcomes, hothers⟩

theorem Ready.bufferPut (h : Ready b) (hbuf : buf.length = b.pageSize)
    (hb : b.bufferPut p buf b.pageSize = some b') :
    Ready b' ∧ b'.pageSize = b.pageSize ∧ Comes p buf b b' ∧
      ∀ q, q ≠ p → Stays q b b' ∨ Leaves q b b' ∧ q ∈ b.evictedFor p := by
  obtain ⟨ps, fs, hok⟩ := h.ok
  rw [bufferPut_eq_withLock h.mutex] at hb
  cases hp : b.lruIndex p with
  | some a =>
    rw [bufferPutWithLock_of_some hok h.mutex hp] at hb
    cases hb
    obtain ⟨hok', hset⟩ := (hok.setMutex true).setPageBuf_spec hp hbuf
    have hself : (({ b with mutex := true } : Buffer).setPageBuf a buf b.pageSize).pooled p = some buf := by
      have hne : (({ b with mutex := true } : Buffer).setPageBuf a buf b.pageSize).lruIndex p ≠ none := by
        rw [show (({ b with mutex := true } : Buffer).setPageBuf a buf b.pageSize).lruIndex p = some a from hp]
        exact Option.some_ne_none a
      rw [pooled_of_ne_none hne]
      exact congrArg some ((hset p).trans (if_pos rfl))
    refine ⟨⟨⟨ps, fs, hok'.setMutex false⟩, rfl⟩, rfl, ⟨hself, rfl⟩, fun q hq => ?_⟩
    have h := hset q
    rw [if_neg hq] at h
    have hmoves : Stays q b _ ∨ Leaves q b (({ b with mutex := true } : Buffer).setPageBuf a buf b.pageSize).unlock :=
      stays_or_leaves (.inl ⟨rfl, rfl⟩) h
    rcases hmoves with hstays | hleaves
    · exact .inl hstays
    · have hnone := pooled_eq_none.1 hleaves.1
      exact absurd (pooled_eq_none.2 (show b.lruIndex q = none from hnone)) hleaves.ne_none
  | none =>
    rw [bufferPutWithLock_of_none hok h.mutex hp, Option.map_eq_some_iff] at hb
    obtain ⟨b₁, hb₁, rfl⟩ := hb
    exact h.bringIn hp hbuf hb₁

theorem Ready.flushALl (h : Ready b) (hb : b.flushALl = some b') :
    Ready b' ∧ b'.pageSize = b.pageSize ∧
      ∀ q, b'.pooled q = none ∧ b'.disk q = b.content q ∧ (Stays q b b' ∨ Leaves q b b') := by
  obtain ⟨⟨ps, fs, hok⟩, hm⟩ := h
  obtain ⟨b₁, hb₁, hok₁, hf⟩ := hok.flushALl_spec
  obtain rfl : b' = b₁ := Option.some.inj (hb.symm.trans hb₁)
  refine ⟨⟨⟨_, _, hok₁⟩, hf.config.2.2.trans hm⟩, hf.config.1, fun q => ?_⟩
  have hnone := pooled_eq_none.2 (hok₁.indexGet_nil q)
  refine ⟨hnone, ?_, stays_or_leaves (hf.index q) (hf.content q)⟩
  rw [← content_of_none hnone, hf.content q]

theorem newLoop_lruIndex (b : Buffer) (n : Nat) : (b.newLoop n).lruIndex = b.lruIndex := by
  induction n with
  | zero => rfl
  | succ n ih => exact ih

/-- The constructor leaves an empty pool. -/
theorem ready_of_new {totalSize pageSize : Nat} {disk : Nat → Bytes} (hdisk : ∀ p, (disk p).length = pageSize)
    (h : Buffer.new totalSize pageSize disk = some b) : Ready b ∧ b.pageSize = pageSize ∧ ∀ q, b.pooled q = none := by
  obtain ⟨b₁, hb₁, hholds⟩ : ∃ b₁, Buffer.new totalSize pageSize disk = some b₁ ∧
      Holds pageSize (totalSize / pageSize) b₁ disk := Holds.new hdisk
  obtain rfl : b = b₁ := Option.some.inj (h.symm.trans hb₁)
  refine ⟨⟨hholds.ok, hholds.mutex⟩, hholds.config.1, fun q => pooled_eq_none.2 ?_⟩
  simp only [Buffer.new] at h
  split at h
  · cases h
    rw [newLoop_lruIndex]
  · cases h

end Buffer

end Dbx1000
