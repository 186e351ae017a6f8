import Dbx1000.BufferInv
import Dbx1000.Lib.Sim

/-!
# The buffer pool is a page map

`PageMap` says what the pool is for: a get returns the bytes of the last put. A sequential run of the
pool never fails an assertion and answers as the page map does; the variants with and without lock
differ in what they do with the mutex only.
-/

namespace Dbx1000

/-- A call; `locked` chooses the variant `…WithLock`. -/
inductive BufOp
  | get (locked : Bool) (pageId : Nat)
  | put (locked : Bool) (pageId : Nat) (buf : Bytes)
  | flushALl
deriving DecidableEq, Repr

/-- The buffer given to a put has `count = page_size_` bytes. -/
def BufOp.Fits (pageSize : Nat) : BufOp → Prop
  | .put _ _ buf => buf.length = pageSize
  | _ => True

instance (pageSize : Nat) (op : BufOp) : Decidable (op.Fits pageSize) :=
  match op with
  | .put _ _ buf => inferInstanceAs (Decidable (buf.length = pageSize))
  | .get _ _ | .flushALl => .isTrue trivial

/-- The call without its variant. -/
def BufOp.plain : BufOp → BufOp
  | .get _ p => .get false p
  | .put _ p buf => .put false p buf
  | .flushALl => .flushALl

def Buffer.exec (b : Buffer) : BufOp → Option (Option Bytes × Buffer)
  | .get locked p =>
    (if locked then b.bufferGetWithLock p b.pageSize else b.bufferGet p b.pageSize).map fun r => (some r.1, r.2)
  | .put locked p buf =>
    (if locked then b.bufferPutWithLock p buf b.pageSize else b.bufferPut p buf b.pageSize).map fun b => (none, b)
  | .flushALl => b.flushALl.map fun b => (none, b)

/-- The abstract machine: the bytes of every page. -/
def PageMap.exec (m : Nat → Bytes) : BufOp → Option Bytes × (Nat → Bytes)
  | .get _ p => (some (m p), m)
  | .put _ p buf => (none, Function.update m p buf)
  | .flushALl => (none, m)

/-! ### The two variants -/

namespace Buffer

variable {b : Buffer} {p count : Nat} {buf : Bytes}

theorem lock_eq (h : b.mutex = false) : b.lock = some { b with mutex := true } := by rw [lock, h]; rfl

theorem unlock_lock (h : b.mutex = false) : ({ b with mutex := true } : Buffer).unlock = b := by
  rw [unlock]
  exact congrArg (fun m => ({ b with mutex := m } : Buffer)) h.symm

theorem bufferGet_eq_withLock (h : b.mutex = false) : b.bufferGet p count = b.bufferGetWithLock p count := by
  simp only [bufferGet, bufferGetWithLock, lock_eq h, unlock_lock h, Option.bind_eq_bind, Option.bind_some]
  rfl

theorem bufferPut_eq_withLock (h : b.mutex = false) : b.bufferPut p buf count = b.bufferPutWithLock p buf count := by
  have hset : ∀ a, (setPageBuf a buf count { b with mutex := true }).unlock = setPageBuf a buf count b :=
    fun a => congrArg (fun m => ({ setPageBuf a buf count b with mutex := m } : Buffer)) h.symm
  simp only [bufferPut, bufferPutWithLock, lock_eq h, unlock_lock h, hset, Option.bind_eq_bind, Option.bind_some]
  rfl

section Cases

variable {ps fs : List Nat} {a : Nat}

/-- A page in the pool is copied out. -/
theorem bufferGetWithLock_of_some (hok : BufOk b ps fs) (hm : b.mutex = false) (hp : b.lruIndex p = some a) :
    b.bufferGetWithLock p count = some ((b.node a).pageBuf.take count, b) := by
  simp only [bufferGetWithLock, lock_eq hm, (hok.setMutex true).assertSizes, Option.bind_eq_bind, Option.bind_some,
    indexGet, hp, unlock_lock hm]
  rfl

/-- Other pages are read from the disk and brought in. -/
theorem bufferGetWithLock_of_none (hok : BufOk b ps fs) (hm : b.mutex = false) (hp : b.lruIndex p = none) :
    b.bufferGetWithLock p count =
      (({ b with mutex := true } : Buffer).bringIn p (b.disk p) count).map fun b' => (b.disk p, b'.unlock) := by
  simp only [bufferGetWithLock, lock_eq hm, (hok.setMutex true).assertSizes, Option.bind_eq_bind, Option.bind_some,
    indexGet, hp, Option.map_eq_bind]
  rfl

theorem bufferPutWithLock_of_some (hok : BufOk b ps fs) (hm : b.mutex = false) (hp : b.lruIndex p = some a) :
    b.bufferPutWithLock p buf count = some (({ b with mutex := true } : Buffer).setPageBuf a buf count).unlock := by
  simp only [bufferPutWithLock, lock_eq hm, (hok.setMutex true).assertSizes, Option.bind_eq_bind, Option.bind_some,
    indexGet, hp]
  rfl

theorem bufferPutWithLock_of_none (hok : BufOk b ps fs) (hm : b.mutex = false) (hp : b.lruIndex p = none) :
    b.bufferPutWithLock p buf count =
      (({ b with mutex := true } : Buffer).bringIn p buf count).map Buffer.unlock := by
  simp only [bufferPutWithLock, lock_eq hm, (hok.setMutex true).assertSizes, Option.bind_eq_bind, Option.bind_some,
    indexGet, hp, Option.map_eq_bind]
  rfl

end Cases

theorem exec_congr (h : b.mutex = false) {i j : BufOp} (hij : i.plain = j.plain) : b.exec i = b.exec j := by
  have hplain : ∀ i : BufOp, b.exec i = b.exec i.plain := by
    intro i
    cases i with
    | get locked p => cases locked <;> simp only [exec, BufOp.plain, bufferGet_eq_withLock h, ite_self]
    | put locked p buf => cases locked <;> simp only [exec, BufOp.plain, bufferPut_eq_withLock h, ite_self]
    | flushALl => rfl
  rw [hplain i, hij, ← hplain j]

end Buffer

/-! ### The constructor -/

theorem newLoop_spec (b : Buffer) (hfree : b.freeList = .empty) (hnode : ∀ c, b.node c = Buffer.newNode b.pageSize)
    (n : Nat) : ∃ node l, b.newLoop n = { b with node := node, freeList := l } ∧ l.Rep node (List.range n).reverse ∧
      (∀ c, (node c).pageBuf.length = b.pageSize) ∧ ∀ c, n ≤ c → node c = Buffer.newNode b.pageSize := by
  induction n with
  | zero =>
    refine ⟨b.node, b.freeList, rfl, hfree ▸ Lru.Rep.empty, fun c => ?_, fun c _ => hnode c⟩
    rw [hnode c]
    exact List.length_replicate
  | succ n ih =>
    obtain ⟨node, l, heq, hrep, hbuf, hnew⟩ := ih
    have hn : n ∉ (List.range n).reverse := by rw [List.mem_reverse, List.mem_range]; omega
    obtain ⟨hpre, hsame⟩ := Lru.prepend_spec hrep hn (by rw [hnew n (Nat.le_refl n)]; rfl)
    refine ⟨(l.prepend n node).1, (l.prepend n node).2, ?_, ?_, fun c => ?_, fun c hc => ?_⟩
    · rw [Buffer.newLoop, heq]; rfl
    · rw [List.range_succ, List.reverse_append]; exact hpre
    · rw [hsame.pageBuf c]; exact hbuf c
    · rw [hsame.others c, hnew c (by omega)]
      rw [List.mem_cons, List.mem_reverse, List.mem_range]
      omega

/-! ### The simulation -/

/-- The pool `b` of `pageNum` frames holds the page map `m`. -/
structure Holds (pageSize pageNum : Nat) (b : Buffer) (m : Nat → Bytes) : Prop where
  ok : ∃ ps fs, BufOk b ps fs
  content : ∀ p, b.content p = m p
  mutex : b.mutex = false
  config : b.pageSize = pageSize ∧ b.pageNum = pageNum

namespace Holds

variable {pageSize pageNum : Nat} {b : Buffer} {m : Nat → Bytes}

theorem new {totalSize : Nat} {disk : Nat → Bytes} (hdisk : ∀ p, (disk p).length = pageSize) :
    ∃ b, Buffer.new totalSize pageSize disk = some b ∧ Holds pageSize (totalSize / pageSize) b disk := by
  let b₀ : Buffer := ⟨pageSize, totalSize / pageSize, fun _ => Buffer.newNode pageSize, .empty, .empty, fun _ => none,
    disk, false⟩
  obtain ⟨node, l, heq, hrep, hbuf, -⟩ := newLoop_spec b₀ rfl (fun _ => rfl) (totalSize / pageSize)
  have hsize : l.size = totalSize / pageSize := by rw [hrep.size, List.length_reverse, List.length_range]
  refine ⟨{ b₀ with node := node, freeList := l }, ?_, ⟨[], _, Lru.Rep.empty, hrep, ?_, fun p a => ?_, hbuf, hdisk⟩,
    fun _ => rfl, rfl, rfl, rfl⟩
  · show (if (b₀.newLoop b₀.pageNum).freeList.size = (b₀.newLoop b₀.pageNum).pageNum ∧
      (b₀.newLoop b₀.pageNum).pageList.size = 0 then some (b₀.newLoop b₀.pageNum) else none) = _
    rw [heq]
    exact if_pos ⟨hsize, rfl⟩
  · exact List.reverse_perm _
  · exact ⟨nofun, fun h => absurd h.1 List.not_mem_nil⟩

/-- A page that is not in the pool is brought in under the mutex. -/
theorem bringIn (h : Holds pageSize pageNum b m) (h5 : 5 ≤ pageNum) {p : Nat} (hp : b.lruIndex p = none) {buf : Bytes}
    (hbuf : buf.length = pageSize) : ∃ b', ({ b with mutex := true } : Buffer).bringIn p buf b.pageSize = some b' ∧
      Holds pageSize pageNum b'.unlock (Function.update m p buf) := by
  obtain ⟨ps, fs, hok⟩ := h.ok
  obtain ⟨hsize, hnum⟩ := h.config
  obtain ⟨b', ps', fs', hb', hok', hin⟩ :=
    (hok.setMutex true).bringIn_spec (fun _ => hnum.symm ▸ h5) hp (hbuf.trans hsize.symm)
  refine ⟨b', hb', ⟨ps', fs', hok'.setMutex false⟩, fun q => ?_, rfl, hin.config.1.trans hsize,
    hin.config.2.1.trans hnum⟩
  refine (hin.content q).trans ?_
  rw [Function.update_apply, ← h.content q]
  rfl

theorem get (h : Holds pageSize pageNum b m) (h5 : 5 ≤ pageNum) (p : Nat) :
    ∃ b', b.bufferGetWithLock p b.pageSize = some (m p, b') ∧ Holds pageSize pageNum b' m := by
  obtain ⟨ps, fs, hok⟩ := h.ok
  have hcontent := h.content p
  cases hp : b.lruIndex p with
  | some a =>
    refine ⟨b, ?_, h⟩
    simp only [Buffer.content, hp] at hcontent
    rw [Buffer.bufferGetWithLock_of_some hok h.mutex hp, List.take_of_length_le (hok.bufLen a).le, hcontent]
  | none =>
    simp only [Buffer.content, hp] at hcontent
    obtain ⟨b', hb', hh⟩ := h.bringIn h5 hp ((hok.diskLen p).trans h.config.1)
    rw [hcontent] at hb' hh
    rw [Function.update_eq_self] at hh
    refine ⟨b'.unlock, ?_, hh⟩
    rw [Buffer.bufferGetWithLock_of_none hok h.mutex hp, hcontent, hb', Option.map_some]

theorem put (h : Holds pageSize pageNum b m) (h5 : 5 ≤ pageNum) (p : Nat) {buf : Bytes} (hbuf : buf.length = pageSize) :
    ∃ b', b.bufferPutWithLock p buf b.pageSize = some b' ∧ Holds pageSize pageNum b' (Function.update m p buf) := by
  obtain ⟨ps, fs, hok⟩ := h.ok
  cases hp : b.lruIndex p with
  | some a =>
    obtain ⟨hok', hset⟩ := (hok.setMutex true).setPageBuf_spec hp (hbuf.trans h.config.1.symm)
    refine ⟨_, Buffer.bufferPutWithLock_of_some hok h.mutex hp, ⟨ps, fs, hok'.setMutex false⟩, fun q => ?_, rfl,
      h.config⟩
    refine (hset q).trans ?_
    rw [Function.update_apply, ← h.content q]
    rfl
  | none =>
    obtain ⟨b', hb', hh⟩ := h.bringIn h5 hp hbuf
    refine ⟨b'.unlock, ?_, hh⟩
    rw [Buffer.bufferPutWithLock_of_none hok h.mutex hp, hb', Option.map_some]

theorem flushALl (h : Holds pageSize pageNum b m) :
    ∃ b', b.flushALl = some b' ∧ Holds pageSize pageNum b' m ∧ ∀ p, b'.disk p = m p := by
  obtain ⟨ps, fs, hok⟩ := h.ok
  obtain ⟨b', hb', hok', hf⟩ := hok.flushALl_spec
  have hcontent : ∀ p, b'.content p = m p := fun p => (hf.content p).trans (h.content p)
  refine ⟨b', hb', ⟨⟨_, _, hok'⟩, hcontent, hf.config.2.2.trans h.mutex, hf.config.1.trans h.config.1,
    hf.config.2.1.trans h.config.2⟩, fun p => ?_⟩
  rw [← hcontent p, Buffer.content, hok'.indexGet_nil p]

theorem exec (h : Holds pageSize pageNum b m) (h5 : 5 ≤ pageNum) {op : BufOp} (hop : op.Fits pageSize) :
    ∃ b', b.exec op = some ((PageMap.exec m op).1, b') ∧ Holds pageSize pageNum b' (PageMap.exec m op).2 ∧
      (op = .flushALl → ∀ p, b'.disk p = m p) := by
  cases op with
  | get locked p =>
    obtain ⟨b', hb', hh⟩ := h.get h5 p
    refine ⟨b', ?_, hh, nofun⟩
    rw [Buffer.exec, Buffer.bufferGet_eq_withLock h.mutex, ite_self, hb']
    rfl
  | put locked p buf =>
    obtain ⟨b', hb', hh⟩ := h.put h5 p hop
    refine ⟨b', ?_, hh, nofun⟩
    rw [Buffer.exec, Buffer.bufferPut_eq_withLock h.mutex, ite_self, hb']
    rfl
  | flushALl =>
    obtain ⟨b', hb', hh, hdisk⟩ := h.flushALl
    refine ⟨b', ?_, hh, fun _ => hdisk⟩
    rw [Buffer.exec, hb']
    rfl

/-- The invariant, with the lists as they stand in memory. -/
theorem bufOk (h : Holds pageSize pageNum b m) :
    BufOk b (b.pageList.toList b.node) (b.freeList.toList b.node) := by
  obtain ⟨ps, fs, hok⟩ := h.ok
  rwa [hok.pages.toList_eq, hok.frees.toList_eq]

end Holds

/-- After a run that ends with a flush the disk holds the page map. -/
theorem disk_after_flushALl {pageSize pageNum : Nat} {b b' : Buffer} {m : Nat → Bytes} {os : List (Option Bytes)}
    (h5 : 5 ≤ pageNum) (h : Holds pageSize pageNum b m) {ops : List BufOp} (hops : ∀ op ∈ ops, op.Fits pageSize)
    (hlast : ops.getLast? = some .flushALl) (hrun : runOut Buffer.exec b ops = some (os, b')) (p : Nat) :
    b'.disk p = (specOut PageMap.exec m ops).2 p := by
  induction ops generalizing b m os with
  | nil => cases hlast
  | cons op ops ih =>
    obtain ⟨b₁, h₁, hh, hflush⟩ := h.exec h5 (hops op List.mem_cons_self)
    simp only [runOut, h₁, Option.bind_eq_bind, Option.bind_some, Option.bind_eq_some_iff] at hrun
    obtain ⟨⟨os', b₂⟩, hrun, heq⟩ := hrun
    cases heq
    cases ops with
    | nil =>
      cases hrun
      cases hlast
      exact hflush rfl p
    | cons op' ops =>
      rw [List.getLast?_cons_cons] at hlast
      exact ih hh (fun i hi => hops i (List.mem_cons_of_mem _ hi)) hlast hrun

/-- Every sequential run from the constructor on: no assertion fails, the gets return what the page map
returns, the two variants can be exchanged, the lists and the index keep the invariant, and after a
flush the disk holds every page. -/
theorem buffer_refines_pageMap {totalSize pageSize : Nat} {disk : Nat → Bytes} (h5 : 5 ≤ totalSize / pageSize)
    (hdisk : ∀ p, (disk p).length = pageSize) {ops : List BufOp} (hops : ∀ op ∈ ops, op.Fits pageSize) :
    ∃ b₀ b, Buffer.new totalSize pageSize disk = some b₀ ∧
      runOut Buffer.exec b₀ ops = some ((specOut PageMap.exec disk ops).1, b) ∧
      (∀ ops', ops.map BufOp.plain = ops'.map BufOp.plain → runOut Buffer.exec b₀ ops' = runOut Buffer.exec b₀ ops) ∧
      BufOk b (b.pageList.toList b.node) (b.freeList.toList b.node) ∧
      ((b.pageList.toList b.node).map fun a => (b.node a).pageId).Nodup ∧
      (ops.getLast? = some .flushALl → ∀ p, b.disk p = (specOut PageMap.exec disk ops).2 p) := by
  obtain ⟨b₀, hnew, h₀⟩ := Holds.new hdisk
  obtain ⟨b, hrun, hb⟩ := run_sim
    (fun s t i hs hi => (hs.exec h5 hi).imp fun _ h => ⟨h.1, h.2.1⟩) hops h₀
  refine ⟨b₀, b, hnew, hrun, fun ops' heq => ?_, hb.bufOk, hb.bufOk.pageIds_nodup,
    fun hlast p => disk_after_flushALl h5 h₀ hops hlast hrun p⟩
  refine (runOut_congr (P := fun s => ∃ m, Holds pageSize (totalSize / pageSize) s m)
    (fun s i j ⟨_, hs⟩ => Buffer.exec_congr hs.mutex) (fun s i o s' ⟨m, hs⟩ hi hstep => ?_) hops heq ⟨disk, h₀⟩).symm
  obtain ⟨s₁, h₁, hs₁, -⟩ := hs.exec h5 hi
  rw [hstep] at h₁
  cases h₁
  exact ⟨_, hs₁⟩

/-- Six pages in a pool of five frames: page 0 is evicted by page 5 and read back. -/
theorem get_after_eviction : ∃ b₀ b, Buffer.new 5 1 (fun _ => [0]) = some b₀ ∧
    runOut Buffer.exec b₀ [.put false 0 [7], .put true 1 [1], .put false 2 [2], .put false 3 [3], .get true 4,
      .put false 5 [5], .get false 0, .flushALl] =
      some ([none, none, none, none, some [0], none, some [7], none], b) ∧ b.disk 0 = [7] := by
  obtain ⟨b₀, b, hnew, hrun, -, -, -, hdisk⟩ := buffer_refines_pageMap (show 5 ≤ 5 / 1 by decide)
    (fun _ => rfl : ∀ p : Nat, ((fun _ => [0] : Nat → Bytes) p).length = 1)
    (show ∀ op ∈ [BufOp.put false 0 [7], .put true 1 [1], .put false 2 [2], .put false 3 [3], .get true 4,
      .put false 5 [5], .get false 0, .flushALl], op.Fits 1 by decide)
  exact ⟨b₀, b, hnew, hrun, hdisk rfl 0⟩

end Dbx1000
