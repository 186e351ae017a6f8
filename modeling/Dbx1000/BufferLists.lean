import Dbx1000.BufferCount
import Dbx1000.LruQueue

/-!
# The calls of the pool on its lists

Every call that `Buffer` makes on `page_list_` and `free_list_` is an event of `Frames`: a node that is prepended
was made by the constructor or was popped from the other list before (`Buffer.listed_of_reach`). So both lists pass
`LRU::Check` after any calls, whatever the number of frames, also in a pool that is too small to find a free one.
-/

namespace Dbx1000

/-! ### Events that reach a state -/

namespace Frames

variable {s : Frames} {k : FrameList} {a : Nat}

theorem reach_new (hs : lts.Reach Lts.Any s) (ha : s.place a = .unused) (pageBuf : Bytes) :
    ∃ s', lts.Reach Lts.Any s' ∧ s'.node = Function.update s.node a ⟨uint64Max, pageBuf, none, none⟩ ∧
      s'.queue = s.queue ∧ s'.place = Function.update s.place a .hand :=
  ⟨_, .step hs trivial (a := .new a pageBuf) (if_pos ha), rfl, rfl, rfl⟩

theorem reach_setPage (hs : lts.Reach Lts.Any s) (a pageId : Nat) (pageBuf : Bytes) :
    ∃ s', lts.Reach Lts.Any s' ∧
      s'.node = Function.update s.node a { s.node a with pageId := pageId, pageBuf := pageBuf } ∧
      s'.queue = s.queue ∧ s'.place = s.place :=
  ⟨_, .step hs trivial (a := .setPage a pageId pageBuf) rfl, rfl, rfl, rfl⟩

theorem reach_prepend (hs : lts.Reach Lts.Any s) (ha : s.place a = .hand) (k : FrameList) :
    ∃ s', lts.Reach Lts.Any s' ∧ (s'.node, (s'.queue k).lru) = (s.queue k).lru.prepend a s.node ∧
      (∀ j, j ≠ k → s'.queue j = s.queue j) ∧ s'.place = Function.update s.place a (.on k) := by
  have hstep : lts.step s (.prepend k a) = some ⟨((s.queue k).lru.prepend a s.node).1, Function.update s.queue k
      ⟨((s.queue k).lru.prepend a s.node).2, (s.queue k).prepended ++ [a], (s.queue k).popped⟩,
      Function.update s.place a (.on k)⟩ := if_pos ha
  refine ⟨_, .step hs trivial hstep, ?_, fun j hj => Function.update_of_ne hj .., rfl⟩
  show (_, (Function.update s.queue k _ k).lru) = _
  rw [Function.update_self]

/-- A node that is still to be made is left alone. -/
theorem prepend_unused {c : Nat} (hs : lts.Reach Lts.Any s) (ha : s.place a = .hand) (hca : c ≠ a)
    (hc : s.place c = .unused) : ((s.queue k).lru.prepend a s.node).1 c = s.node c := by
  have hi := FramesInv.reach hs
  have hnot : a ∉ (s.queue k).rest := hi.not_mem (by rw [ha]; exact nofun)
  obtain ⟨-, hsame⟩ := Lru.prepend_spec (hi.queue k).rep hnot (hi.hand a ha)
  exact hsame.others c (List.not_mem_cons_of_ne_of_not_mem hca (hi.not_mem (by rw [hc]; exact nofun)))

theorem reach_popback {node : Nat → PageNode} {lru : Lru} (hs : lts.Reach Lts.Any s)
    (hpop : (s.queue k).lru.popback s.node = some (some a, node, lru)) :
    ∃ s', lts.Reach Lts.Any s' ∧ s'.node = node ∧ (s'.queue k).lru = lru ∧
      (∀ j, j ≠ k → s'.queue j = s.queue j) ∧ s'.place a = .hand := by
  have hstep : lts.step s (.popback k) = some ⟨node, Function.update s.queue k
      ⟨lru, (s.queue k).prepended, (s.queue k).popped ++ [a]⟩, Function.update s.place a .hand⟩ := by
    simp only [lts, step, hpop]
  refine ⟨_, .step hs trivial hstep, rfl, ?_, fun j hj => Function.update_of_ne hj .., Function.update_self ..⟩
  show (Function.update s.queue k _ k).lru = lru
  rw [Function.update_self]

/-- A popped node gets another page and is put on the other list. -/
theorem reach_move {j : FrameList} {node : Nat → PageNode} {lru : Lru} (hs : lts.Reach Lts.Any s) (hjk : j ≠ k)
    (hpop : (s.queue j).lru.popback s.node = some (some a, node, lru)) (pageId : Nat) (pageBuf : Bytes) :
    ∃ s', lts.Reach Lts.Any s' ∧ (s'.queue j).lru = lru ∧ (s'.node, (s'.queue k).lru) =
      (s.queue k).lru.prepend a (Function.update node a { node a with pageId := pageId, pageBuf := pageBuf }) := by
  obtain ⟨s₁, hs₁, hnode₁, hlru₁, hqueue₁, hplace₁⟩ := reach_popback hs hpop
  obtain ⟨s₂, hs₂, hnode₂, hqueue₂, hplace₂⟩ := reach_setPage hs₁ a pageId pageBuf
  obtain ⟨s₃, hs₃, hnode₃, hqueue₃, -⟩ := reach_prepend hs₂ (hplace₂ ▸ hplace₁) k
  refine ⟨s₃, hs₃, ?_, ?_⟩
  · rw [hqueue₃ j hjk, hqueue₂, hlru₁]
  · rw [hnode₃, hnode₂, hnode₁, hqueue₂, hqueue₁ k hjk.symm]

end Frames

/-! ### The pool as a caller -/

/-- The nodes and lists of the pool. -/
structure Frames.Shows (s : Frames) (b : Buffer) : Prop where
  node : s.node = b.node
  pages : (s.queue .pageList).lru = b.pageList
  frees : (s.queue .freeList).lru = b.freeList

/-- The lists of the pool have come about by calls with nodes that were new or popped. -/
def Buffer.Listed (b : Buffer) : Prop := ∃ s, Frames.lts.Reach Lts.Any s ∧ s.Shows b

namespace Buffer.Listed

variable {b b' : Buffer} {p a n : Nat}

/-- Only the nodes and the lists matter. -/
theorem congr (h : b.Listed) (hnode : b'.node = b.node) (hpages : b'.pageList = b.pageList)
    (hfrees : b'.freeList = b.freeList) : b'.Listed := by
  obtain ⟨s, hs, hshow⟩ := h
  exact ⟨s, hs, hshow.node.trans hnode.symm, hshow.pages.trans hpages.symm, hshow.frees.trans hfrees.symm⟩

theorem setPageBuf (h : b.Listed) (a : Nat) (buf : Bytes) (count : Nat) : (b.setPageBuf a buf count).Listed := by
  obtain ⟨s, hs, hshow⟩ := h
  obtain ⟨s', hs', hnode, hqueue, -⟩ :=
    Frames.reach_setPage hs a (b.node a).pageId (memcpy (b.node a).pageBuf buf count)
  rw [hshow.node] at hnode
  exact ⟨s', hs', hnode, hqueue ▸ hshow.pages, hqueue ▸ hshow.frees⟩

theorem flushTail (h : b.Listed) (hb : b.flushTail = some b') : b'.Listed := by
  obtain ⟨s, hs, hshow⟩ := h
  simp only [Buffer.flushTail, Buffer.pageListPopback, Option.bind_eq_bind, Option.bind_eq_some_iff,
    Option.pure_def, Option.some.injEq] at hb
  obtain ⟨-, ⟨⟨-, node, lru⟩, hpop, a, rfl, rfl⟩, rfl⟩ := hb
  rw [← hshow.pages, ← hshow.node] at hpop
  obtain ⟨s', hs', hpages, hfrees⟩ :=
    Frames.reach_move hs FrameList.pageList_ne_freeList hpop uint64Max (node a).pageBuf
  rw [hshow.frees] at hfrees
  exact ⟨s', hs', congrArg Prod.fst hfrees, hpages, congrArg Prod.snd hfrees⟩

theorem freeListToPageList {buf : Bytes} {count : Nat} (h : b.Listed)
    (hb : b.freeListToPageList p buf count = some b') : b'.Listed := by
  obtain ⟨s, hs, hshow⟩ := h
  unfold Buffer.freeListToPageList at hb
  split at hb
  · simp only [Buffer.freeListPopback, Option.bind_eq_bind, Option.bind_eq_some_iff, Option.pure_def,
      Option.some.injEq] at hb
    obtain ⟨-, ⟨⟨-, node, lru⟩, hpop, a, rfl, rfl⟩, rfl⟩ := hb
    rw [← hshow.frees, ← hshow.node] at hpop
    obtain ⟨s', hs', hfrees, hpages⟩ :=
      Frames.reach_move hs FrameList.pageList_ne_freeList.symm hpop p (memcpy (node a).pageBuf buf count)
    rw [hshow.pages] at hpages
    refine ⟨s', hs', (congrArg Prod.fst hpages).trans ?_, (congrArg Prod.snd hpages).trans ?_, hfrees⟩
    all_goals
      simp only [Buffer.pageListPrepend, Buffer.indexPut, Buffer.indexDelete, Buffer.setPageBuf, Buffer.setPageId,
        Function.update_self, Function.update_idem]
  · cases hb

theorem flushLoop (h : b.Listed) (hb : Buffer.flushLoop n b = some b') : b'.Listed := by
  induction n generalizing b with
  | zero =>
    cases hb
    exact h
  | succ n ih =>
    obtain ⟨b₁, htail, hb⟩ := Option.bind_eq_some_iff.1 hb
    exact ih (h.flushTail htail) hb

theorem flushPageList (h : b.Listed) (hb : b.flushPageList = some b') : b'.Listed := by
  unfold Buffer.flushPageList at hb
  split at hb
  · exact h.flushLoop hb
  · cases hb

theorem bringIn {buf : Bytes} {count : Nat} (h : b.Listed) (hb : b.bringIn p buf count = some b') : b'.Listed := by
  simp only [Buffer.bringIn, Option.bind_eq_bind] at hb
  split at hb
  · obtain ⟨b₁, hflush, hb⟩ := Option.bind_eq_some_iff.1 hb
    exact (h.flushPageList hflush).freeListToPageList hb
  · exact h.freeListToPageList hb

theorem mutex_of_lock (hb : b.lock = some b') : b.mutex = false := by
  unfold Buffer.lock at hb
  split at hb
  · cases hb
  · rename_i hfree
    exact Bool.eq_false_of_not_eq_true hfree

theorem lock (h : b.Listed) (hb : b.lock = some b') : b'.Listed := by
  rw [Buffer.lock_eq (mutex_of_lock hb)] at hb
  cases hb
  exact h.congr rfl rfl rfl

theorem unlock (h : b.Listed) : b.unlock.Listed := h.congr rfl rfl rfl

theorem bufferGetWithLock {count : Nat} {buf : Bytes} (h : b.Listed)
    (hb : b.bufferGetWithLock p count = some (buf, b')) : b'.Listed := by
  obtain ⟨b₁, hlock, hb⟩ := Option.bind_eq_some_iff.1 hb
  obtain ⟨_, -, hb⟩ := Option.bind_eq_some_iff.1 hb
  split at hb
  · cases hb
    exact (h.lock hlock).unlock
  · obtain ⟨b₂, hbring, hb⟩ := Option.bind_eq_some_iff.1 hb
    cases hb
    exact ((h.lock hlock).bringIn hbring).unlock

theorem bufferPutWithLock {count : Nat} {buf : Bytes} (h : b.Listed)
    (hb : b.bufferPutWithLock p buf count = some b') : b'.Listed := by
  obtain ⟨b₁, hlock, hb⟩ := Option.bind_eq_some_iff.1 hb
  obtain ⟨_, -, hb⟩ := Option.bind_eq_some_iff.1 hb
  split at hb
  · cases hb
    exact ((h.lock hlock).setPageBuf _ buf count).unlock
  · obtain ⟨b₂, hbring, hb⟩ := Option.bind_eq_some_iff.1 hb
    cases hb
    exact ((h.lock hlock).bringIn hbring).unlock

theorem bufferGet {count : Nat} {buf : Bytes} (h : b.Listed) (hb : b.bufferGet p count = some (buf, b')) :
    b'.Listed := by
  obtain ⟨b₁, hlock, -⟩ := Option.bind_eq_some_iff.1 hb
  rw [Buffer.bufferGet_eq_withLock (mutex_of_lock hlock)] at hb
  exact h.bufferGetWithLock hb

theorem bufferPut {count : Nat} {buf : Bytes} (h : b.Listed) (hb : b.bufferPut p buf count = some b') :
    b'.Listed := by
  obtain ⟨b₁, hlock, -⟩ := Option.bind_eq_some_iff.1 hb
  rw [Buffer.bufferPut_eq_withLock (mutex_of_lock hlock)] at hb
  exact h.bufferPutWithLock hb

theorem stepCount {op : CountOp} (h : b.Listed) (hb : b.stepCount op = some b') : b'.Listed := by
  cases op with
  | get locked p count =>
    simp only [Buffer.stepCount, Buffer.getCount] at hb
    split at hb
    · obtain ⟨⟨buf, _⟩, hget, rfl⟩ := Option.map_eq_some_iff.1 hb
      cases locked with
      | true => exact h.bufferGetWithLock hget
      | false => exact h.bufferGet hget
    · cases hb
  | put locked p buf count =>
    simp only [Buffer.stepCount, Buffer.putCount] at hb
    split at hb
    · cases locked with
      | true => exact h.bufferPutWithLock hb
      | false => exact h.bufferPut hb
    · cases hb
  | flushALl => exact h.flushLoop hb

/-- The nodes of the constructor are new. -/
theorem newLoop (b : Buffer) (hpages : b.pageList = .empty) (hfrees : b.freeList = .empty)
    (hnode : b.node = fun _ => Buffer.newNode b.pageSize) (n : Nat) :
    ∃ s, Frames.lts.Reach Lts.Any s ∧ s.Shows (b.newLoop n) ∧
      ∀ c, n ≤ c → s.place c = .unused ∧ s.node c = Buffer.newNode b.pageSize := by
  induction n with
  | zero =>
    refine ⟨.init b.node, .init ⟨_, rfl⟩, ⟨rfl, hpages.symm, hfrees.symm⟩, fun c _ => ⟨rfl, ?_⟩⟩
    exact congrFun hnode c
  | succ n ih =>
    obtain ⟨s, hs, hshow, hnew⟩ := ih
    obtain ⟨hunused, hn⟩ := hnew n (Nat.le_refl n)
    obtain ⟨s₁, hs₁, hnode₁, hqueue₁, hplace₁⟩ := Frames.reach_new hs hunused (List.replicate b.pageSize 0)
    -- the memory has a new node there already
    have hsame : s₁.node = s.node := by
      rw [hnode₁]
      exact (congrArg (Function.update s.node n) hn.symm).trans (Function.update_eq_self n s.node)
    have hhand : s₁.place n = .hand := by rw [hplace₁, Function.update_self]
    obtain ⟨s₂, hs₂, hlist₂, hqueue₂, hplace₂⟩ := Frames.reach_prepend hs₁ hhand .freeList
    refine ⟨s₂, hs₂, ⟨?_, ?_, ?_⟩, fun c hc => ?_⟩
    · rw [hqueue₁, hsame, hshow.node, hshow.frees] at hlist₂
      exact congrArg Prod.fst hlist₂
    · rw [hqueue₂ .pageList FrameList.pageList_ne_freeList, hqueue₁]
      exact hshow.pages
    · rw [hqueue₁, hsame, hshow.node, hshow.frees] at hlist₂
      exact congrArg Prod.snd hlist₂
    · have hcn : c ≠ n := by omega
      obtain ⟨hc', hnodec⟩ := hnew c (by omega)
      have hplacec : s₁.place c = .unused := by rw [hplace₁, Function.update_of_ne hcn, hc']
      have hnode₂ : s₂.node = ((s₁.queue .freeList).lru.prepend n s₁.node).1 := congrArg Prod.fst hlist₂
      refine ⟨by rw [hplace₂, Function.update_of_ne hcn, hplacec], ?_⟩
      rw [hnode₂, Frames.prepend_unused hs₁ hhand hcn hplacec, hsame, hnodec]

end Buffer.Listed

/-- The pool calls `Prepend` with nodes that are new or popped only, whatever the number of its frames. -/
theorem Buffer.listed_of_reach {totalSize pageSize : Nat} {b : Buffer}
    (h : (Buffer.countLts totalSize pageSize).Reach Lts.Any b) : b.Listed := by
  refine h.inv (P := Buffer.Listed) ?_ ?_
  · rintro b ⟨disk, -, hb⟩
    simp only [Buffer.new] at hb
    split at hb
    · cases hb
      obtain ⟨s, hs, hshow, -⟩ := Buffer.Listed.newLoop ⟨pageSize, totalSize / pageSize,
        fun _ => Buffer.newNode pageSize, .empty, .empty, fun _ => none, disk, false⟩ rfl rfl rfl (totalSize / pageSize)
      exact ⟨s, hs, hshow⟩
    · cases hb
  · intro b op b' hb _ hstep
    exact hb.stepCount hstep

/-- `Check` passes on the lists of the pool after any calls. -/
theorem Buffer.check_lists {totalSize pageSize : Nat} {b : Buffer}
    (h : (Buffer.countLts totalSize pageSize).Reach Lts.Any b) :
    Run.Returns (b.pageList.check b.node) () ∧ Run.Returns (b.freeList.check b.node) () := by
  obtain ⟨s, hs, hshow⟩ := Buffer.listed_of_reach h
  have hinv := FramesInv.reach hs
  rw [← hshow.node, ← hshow.pages, ← hshow.frees]
  exact ⟨Lru.check_iff.2 ⟨_, (hinv.queue _).rep⟩, Lru.check_iff.2 ⟨_, (hinv.queue _).rep⟩⟩

end Dbx1000
