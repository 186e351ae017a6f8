import Mathlib.Data.Finset.Card
import Dbx1000.Arena

/-!
# The queries of all threads (`Query_queue::init` of `instance/benchmarks/query.cpp`, `ycsb_query::init`)

`init` starts `g_thread_cnt` threads that draw their ids from `_next_tid` and fill one slot of `all_queries` each.
The memory of the queries comes from the arena of the id, whose calls are not synchronised. The events are the steps
of the threads with the address that `new` returns; the memory of all arenas comes from one heap (`HeapOk`). The
steps are the allocations: what `ycsb_query::init` does with the memory, its assertions on `the_n` and `denom` and
`gen_requests`, touches nothing of another thread and is left out (the requests are those of `YcsbQuery`).
-/

namespace Dbx1000

/-- `g_thread_cnt`, `query_cnt`, `g_req_per_query` and the sizes of the two classes, which hold 64-bit words. -/
structure QueryConfig where
  threadCnt : Nat
  queryCnt : Nat
  reqPerQuery : Nat
  sizeofQuery : Nat
  sizeofRequest : Nat
  queryCnt_pos : 0 < queryCnt
  reqPerQuery_pos : 0 < reqPerQuery
  sizeofQuery_pos : 0 < sizeofQuery
  sizeofRequest_pos : 0 < sizeofRequest
  sizeofQuery_words : arenaAlign ∣ sizeofQuery
  sizeofRequest_words : arenaAlign ∣ sizeofRequest

/-- `Query_thd` with the memory of its queries: `queries`, and `requests` and `part_to_access` of each. -/
structure QueryThd where
  threadId : Nat
  qIdx : Nat
  queries : Option Region
  requests : List Region
  partToAccess : List Region
deriving DecidableEq, Repr

def QueryThd.regions (thd : QueryThd) : List Region := thd.queries.toList ++ thd.requests ++ thd.partToAccess

/-- Where a thread of `threadInitQuery` is; `tid` is its ticket and `qid` the variable of the loop. -/
inductive InitPc
  | start
  | perThread (tid : Nat)
  | queries (tid : Nat)
  | requests (tid qid : Nat)
  | parts (tid qid : Nat)
  | done (tid : Nat)
deriving DecidableEq, Repr

def InitPc.tid : InitPc → Option Nat
  | .start => none
  | .perThread tid | .queries tid | .requests tid _ | .parts tid _ | .done tid => some tid

structure QueryQueue where
  nextTid : Nat
  arenas : Nat → Arena
  allQueries : Nat → Option QueryThd
  pc : Nat → InitPc

/-- The thread that moves, and the address that `new` returns if it asks for a block. -/
structure InitEv where
  thread : Nat
  fresh : Nat

namespace QueryQueue

variable (cfg : QueryConfig)

def init : QueryQueue := ⟨0, fun _ => .init, fun _ => none, fun _ => .start⟩

/-- `arenas_[tid]->Allocate(bytes)`, whose result `f` puts into `all_queries[tid]`. -/
def alloc (s : QueryQueue) (e : InitEv) (tid bytes : Nat) (f : Region → QueryThd → QueryThd) (pc : InitPc) :
    Option QueryQueue :=
  ((s.arenas tid).allocate e.fresh bytes).bind fun p =>
    (s.allQueries tid).map fun thd =>
      { s with
        arenas := Function.update s.arenas tid p.2
        allQueries := Function.update s.allQueries tid (some (f ⟨p.1, bytes⟩ thd))
        pc := Function.update s.pc e.thread pc }

def goto (s : QueryQueue) (j : Nat) (pc : InitPc) : QueryQueue := { s with pc := Function.update s.pc j pc }

/-- What the next step of a thread asks of its arena. -/
def bytesAt : InitPc → Nat
  | .queries _ => cfg.sizeofQuery * cfg.queryCnt
  | .requests _ _ => cfg.sizeofRequest * cfg.reqPerQuery
  | .parts _ _ => 8 * cfg.reqPerQuery
  | _ => 0

/-- A step of `threadInitQuery`; `none` is a failed assertion of `Allocate` or an index outside of the arrays. -/
def step (s : QueryQueue) (e : InitEv) : Option QueryQueue :=
  if e.thread < cfg.threadCnt then
    match s.pc e.thread with
    | .start => some { s.goto e.thread (.perThread s.nextTid) with nextTid := s.nextTid + 1 }
    | .perThread tid =>
      if tid < cfg.threadCnt then
        some { s.goto e.thread (.queries tid) with
          allQueries := Function.update s.allQueries tid (some ⟨tid, 0, none, [], []⟩) }
      else none
    | .queries tid =>
      s.alloc e tid (bytesAt cfg (.queries tid)) (fun r thd => { thd with queries := some r }) (.requests tid 0)
    | .requests tid qid =>
      if qid < cfg.queryCnt then
        s.alloc e tid (bytesAt cfg (.requests tid qid)) (fun r thd => { thd with requests := thd.requests ++ [r] })
          (.parts tid qid)
      else some (s.goto e.thread (.done tid))
    | .parts tid qid =>
      s.alloc e tid (bytesAt cfg (.parts tid qid)) (fun r thd => { thd with partToAccess := thd.partToAccess ++ [r] })
        (.requests tid (qid + 1))
    | .done _ => none
  else none

end QueryQueue

def queryLts (cfg : QueryConfig) : Lts QueryQueue InitEv where
  init s := s = .init
  step := QueryQueue.step cfg

/-- The contract of `new` over the whole process: a block is aligned and apart from the blocks of all arenas. -/
def HeapOk (cfg : QueryConfig) (s : QueryQueue) (e : InitEv) : Prop :=
  arenaAlign ∣ e.fresh ∧ ∀ i < cfg.threadCnt, ∀ b ∈ (s.arenas i).blocks,
    Region.Disjoint ⟨e.fresh, Arena.newBytes (QueryQueue.bytesAt cfg (s.pc e.thread))⟩ b

instance (cfg : QueryConfig) (s : QueryQueue) (e : InitEv) : Decidable (HeapOk cfg s e) :=
  inferInstanceAs (Decidable (_ ∧ ∀ i < cfg.threadCnt, _))

/-! ### What a step does -/

/-- The calls of the arena by a thread that has its slot: what is put into the slot, and where the thread is then. -/
inductive Fills (cfg : QueryConfig) : InitPc → (Region → QueryThd → QueryThd) → InitPc → Prop
  | queries (tid : Nat) : Fills cfg (.queries tid) (fun r thd => { thd with queries := some r }) (.requests tid 0)
  | requests (tid qid : Nat) (h : qid < cfg.queryCnt) : Fills cfg (.requests tid qid)
      (fun r thd => { thd with requests := thd.requests ++ [r] }) (.parts tid qid)
  | parts (tid qid : Nat) : Fills cfg (.parts tid qid)
      (fun r thd => { thd with partToAccess := thd.partToAccess ++ [r] }) (.requests tid (qid + 1))

theorem Fills.tid_eq {cfg : QueryConfig} {pc pc' : InitPc} {f : Region → QueryThd → QueryThd} (h : Fills cfg pc f pc') :
    pc.tid = pc'.tid := by
  cases h <;> rfl

inductive InitStep (cfg : QueryConfig) (s : QueryQueue) : InitEv → QueryQueue → Prop
  | ticket {j p : Nat} (hj : j < cfg.threadCnt) (hpc : s.pc j = .start) :
    InitStep cfg s ⟨j, p⟩ { s.goto j (.perThread s.nextTid) with nextTid := s.nextTid + 1 }
  | slot {j p tid : Nat} (hj : j < cfg.threadCnt) (hpc : s.pc j = .perThread tid) :
    InitStep cfg s ⟨j, p⟩ { s.goto j (.queries tid) with
      allQueries := Function.update s.allQueries tid (some ⟨tid, 0, none, [], []⟩) }
  | alloc {j p tid q : Nat} {a : Arena} {thd : QueryThd} {f : Region → QueryThd → QueryThd} {pc : InitPc}
      (hj : j < cfg.threadCnt) (hf : Fills cfg (s.pc j) f pc) (htid : pc.tid = some tid)
      (ha : (s.arenas tid).allocate p (QueryQueue.bytesAt cfg (s.pc j)) = some (q, a))
      (hs : s.allQueries tid = some thd) :
    InitStep cfg s ⟨j, p⟩ { s with
      arenas := Function.update s.arenas tid a
      allQueries := Function.update s.allQueries tid (some (f ⟨q, QueryQueue.bytesAt cfg (s.pc j)⟩ thd))
      pc := Function.update s.pc j pc }
  | finish {j p tid qid : Nat} (hj : j < cfg.threadCnt) (hpc : s.pc j = .requests tid qid)
      (hq : cfg.queryCnt ≤ qid) : InitStep cfg s ⟨j, p⟩ (s.goto j (.done tid))

section Step

variable {cfg : QueryConfig} {s s' : QueryQueue} {e : InitEv}

theorem InitStep.of_alloc {tid : Nat} {f : Region → QueryThd → QueryThd} {pc : InitPc} (hj : e.thread < cfg.threadCnt)
    (hf : Fills cfg (s.pc e.thread) f pc) (htid : pc.tid = some tid)
    (h : s.alloc e tid (QueryQueue.bytesAt cfg (s.pc e.thread)) f pc = some s') : InitStep cfg s e s' := by
  obtain ⟨⟨q, a⟩, ha, h⟩ := Option.bind_eq_some_iff.1 h
  obtain ⟨thd, hs, rfl⟩ := Option.map_eq_some_iff.1 h
  exact .alloc hj hf htid ha hs

theorem InitStep.of_step (h : s.step cfg e = some s') : InitStep cfg s e s' := by
  unfold QueryQueue.step at h
  split at h
  · rename_i hj
    split at h
    · cases h
      exact .ticket hj ‹_›
    · split at h
      · cases h
        exact .slot hj ‹_›
      · cases h
    · rename_i tid hpc
      refine .of_alloc hj (by rw [hpc]; exact .queries tid) rfl (by rw [hpc]; exact h)
    · rename_i tid qid hpc
      split at h
      · rename_i hq
        refine .of_alloc hj (by rw [hpc]; exact .requests tid qid hq) rfl (by rw [hpc]; exact h)
      · cases h
        exact .finish hj hpc (Nat.not_lt.1 ‹_›)
    · rename_i tid qid hpc
      refine .of_alloc hj (by rw [hpc]; exact .parts tid qid) rfl (by rw [hpc]; exact h)
    · cases h
  · cases h

end Step

/-! ### One slot -/

/-- `thd` is the slot `tid` with `nq` arrays of queries and the memory of `nr` and `np` queries, out of `a`. -/
structure ThdOk (cfg : QueryConfig) (tid nq nr np : Nat) (thd : QueryThd) (a : Arena) : Prop where
  threadId : thd.threadId = tid
  qIdx : thd.qIdx = 0
  queries : thd.queries.toList.length = nq ∧ ∀ r ∈ thd.queries.toList, r.len = cfg.sizeofQuery * cfg.queryCnt
  requests : thd.requests.length = nr ∧ ∀ r ∈ thd.requests, r.len = cfg.sizeofRequest * cfg.reqPerQuery
  parts : thd.partToAccess.length = np ∧ ∀ r ∈ thd.partToAccess, r.len = 8 * cfg.reqPerQuery
  inv : ArenaInv a thd.regions
  ptr : arenaAlign ∣ a.allocPtr
  aligned : ∀ r ∈ thd.regions, arenaAlign ∣ r.start

/-- The slot of a thread, and its arena. -/
def SlotOk (cfg : QueryConfig) (pc : InitPc) (slot : Option QueryThd) (a : Arena) : Prop :=
  match pc with
  | .start => True
  | .perThread _ => slot = none ∧ a = .init
  | .queries tid => ∃ thd, slot = some thd ∧ ThdOk cfg tid 0 0 0 thd a
  | .requests tid qid => qid ≤ cfg.queryCnt ∧ ∃ thd, slot = some thd ∧ ThdOk cfg tid 1 qid qid thd a
  | .parts tid qid => qid < cfg.queryCnt ∧ ∃ thd, slot = some thd ∧ ThdOk cfg tid 1 (qid + 1) qid thd a
  | .done tid => ∃ thd, slot = some thd ∧ ThdOk cfg tid 1 cfg.queryCnt cfg.queryCnt thd a

theorem ArenaInv.perm {a : Arena} {given given' : List Region} (hi : ArenaInv a given) (hp : given'.Perm given) :
    ArenaInv a given' :=
  ⟨hi.blocks, hi.rest, fun r hr => hi.owns r (hp.mem_iff.1 hr), fun r hr => hi.free r (hp.mem_iff.1 hr),
    (hp.pairwise_iff Region.Disjoint.symm).2 hi.disjoint⟩

section Slot

variable {cfg : QueryConfig} {thd : QueryThd} {a a' : Arena} {r : Region} {p q tid nq nr np : Nat}

/-- What the sizes of the program leave in the arena is aligned, without the help of `AllocateAligned`. -/
theorem Arena.Alloc.aligned {bytes : Nat} (h : Arena.Alloc a p bytes 0 r a') (hp : arenaAlign ∣ p)
    (hb : arenaAlign ∣ bytes) (ha : arenaAlign ∣ a.allocPtr) : arenaAlign ∣ r.start ∧ arenaAlign ∣ a'.allocPtr := by
  cases h with
  | fit => exact ⟨ha, Nat.dvd_add ha hb⟩
  | separate => exact ⟨hp, ha⟩
  | block => exact ⟨hp, Nat.dvd_add hp hb⟩

/-- The arena and the regions after a call whose result is put into the slot. -/
theorem ThdOk.regions (ht : ThdOk cfg tid nq nr np thd a) {bytes : Nat} (thd' : QueryThd)
    (h : Arena.Alloc a p bytes 0 r a') (hp : arenaAlign ∣ p) (hb : arenaAlign ∣ bytes)
    (hnew : ∀ b ∈ a.blocks, Region.Disjoint ⟨p, Arena.newBytes bytes⟩ b) (hr : thd'.regions.Perm (r :: thd.regions)) :
    ArenaInv a' thd'.regions ∧ arenaAlign ∣ a'.allocPtr ∧ ∀ x ∈ thd'.regions, arenaAlign ∣ x.start := by
  obtain ⟨hstart, hptr⟩ := h.aligned hp hb ht.ptr
  refine ⟨(ht.inv.alloc h hnew).perm hr, hptr, fun x hx => ?_⟩
  rcases List.mem_cons.1 (hr.mem_iff.1 hx) with rfl | hx
  · exact hstart
  · exact ht.aligned x hx

theorem SlotOk.fill {pc pc' : InitPc} {f : Region → QueryThd → QueryThd} (hf : Fills cfg pc f pc')
    (hs : SlotOk cfg pc (some thd) a) (ha : a.allocate p (QueryQueue.bytesAt cfg pc) = some (q, a'))
    (hp : arenaAlign ∣ p)
    (hnew : ∀ b ∈ a.blocks, Region.Disjoint ⟨p, Arena.newBytes (QueryQueue.bytesAt cfg pc)⟩ b) :
    SlotOk cfg pc' (some (f ⟨q, QueryQueue.bytesAt cfg pc⟩ thd)) a' := by
  have hal := Arena.alloc_of_allocate ha
  cases hf with
  | queries tid =>
    obtain ⟨_, ⟨⟩, ht⟩ := hs
    have hnone : thd.queries = none := by
      cases hq : thd.queries with
      | none => rfl
      | some r =>
        have := ht.queries.1
        rw [hq] at this
        cases this
    obtain ⟨hinv, hptr, hal⟩ := ht.regions { thd with queries := some ⟨q, QueryQueue.bytesAt cfg (.queries tid)⟩ }
      hal hp (Dvd.dvd.mul_right cfg.sizeofQuery_words _) hnew (by simp [QueryThd.regions, hnone])
    exact ⟨Nat.zero_le _, _, rfl, ht.threadId, ht.qIdx, ⟨rfl, by simp [QueryQueue.bytesAt]⟩, ht.requests, ht.parts,
      hinv, hptr, hal⟩
  | requests tid qid h =>
    obtain ⟨-, _, ⟨⟩, ht⟩ := hs
    obtain ⟨hinv, hptr, hal⟩ := ht.regions { thd with requests := thd.requests ++ [⟨q, _⟩] } hal hp
      (Dvd.dvd.mul_right cfg.sizeofRequest_words _) hnew (by
        simp only [QueryThd.regions, List.append_assoc, List.singleton_append]
        rw [← List.append_assoc, ← List.append_assoc thd.queries.toList]
        exact List.perm_middle)
    refine ⟨h, _, rfl, ht.threadId, ht.qIdx, ht.queries, ⟨?_, fun r hr => ?_⟩, ht.parts, hinv, hptr, hal⟩
    · rw [List.length_append, ht.requests.1]; rfl
    · rcases List.mem_append.1 hr with hr | hr
      · exact ht.requests.2 r hr
      · rw [List.mem_singleton.1 hr]; rfl
  | parts tid qid =>
    obtain ⟨hlt, _, ⟨⟩, ht⟩ := hs
    obtain ⟨hinv, hptr, hal⟩ := ht.regions { thd with partToAccess := thd.partToAccess ++ [⟨q, _⟩] } hal hp
      (Dvd.dvd.mul_right (Nat.dvd_refl 8) _) hnew (by
        simp only [QueryThd.regions, ← List.append_assoc]
        exact List.perm_append_singleton ..)
    refine ⟨hlt, _, rfl, ht.threadId, ht.qIdx, ht.queries, ht.requests, ⟨?_, fun r hr => ?_⟩, hinv, hptr, hal⟩
    · rw [List.length_append, ht.parts.1]; rfl
    · rcases List.mem_append.1 hr with hr | hr
      · exact ht.parts.2 r hr
      · rw [List.mem_singleton.1 hr]; rfl

end Slot

/-! ### All threads -/

structure QueueInv (cfg : QueryConfig) (s : QueryQueue) : Prop where
  count : ((Finset.range cfg.threadCnt).filter fun j => s.pc j ≠ .start).card = s.nextTid
  held : ∀ tid, tid < s.nextTid ↔ ∃ j < cfg.threadCnt, (s.pc j).tid = some tid
  unique : ∀ j < cfg.threadCnt, ∀ j' < cfg.threadCnt, ∀ tid, (s.pc j).tid = some tid → (s.pc j').tid = some tid → j = j'
  slot : ∀ j < cfg.threadCnt, ∀ tid, (s.pc j).tid = some tid →
    SlotOk cfg (s.pc j) (s.allQueries tid) (s.arenas tid)
  fresh : ∀ tid, s.nextTid ≤ tid → s.allQueries tid = none ∧ s.arenas tid = .init
  cross : ∀ i i', i ≠ i' → ∀ b ∈ (s.arenas i).blocks, ∀ b' ∈ (s.arenas i').blocks, b.Disjoint b'

namespace QueueInv

variable {cfg : QueryConfig} {s s' : QueryQueue} {e : InitEv}

theorem init : QueueInv cfg .init := by
  refine ⟨?_, fun tid => ⟨nofun, ?_⟩, nofun, nofun, fun _ _ => ⟨rfl, rfl⟩, nofun⟩
  · rw [Finset.filter_eq_empty_iff.2 fun j _ h => h rfl]; rfl
  · rintro ⟨j, -, h⟩
    cases h

theorem tid_lt (hi : QueueInv cfg s) {j tid : Nat} (hj : j < cfg.threadCnt) (h : (s.pc j).tid = some tid) :
    tid < cfg.threadCnt := by
  have hle := Finset.card_filter_le (Finset.range cfg.threadCnt) fun j => s.pc j ≠ .start
  rw [hi.count, Finset.card_range] at hle
  exact Nat.lt_of_lt_of_le ((hi.held tid).2 ⟨j, hj, h⟩) hle

/-- A thread moves on with its ticket, and changes its slot and its arena. -/
theorem next (hi : QueueInv cfg s) {j tid : Nat} (pc : InitPc) (slot : Option QueryThd) (a : Arena)
    (hj : j < cfg.threadCnt) (htid : (s.pc j).tid = some tid) (hpc : pc.tid = some tid) (hslot : SlotOk cfg pc slot a)
    (hcross : ∀ i, i ≠ tid → ∀ b ∈ a.blocks, ∀ b' ∈ (s.arenas i).blocks, b.Disjoint b') :
    QueueInv cfg ⟨s.nextTid, Function.update s.arenas tid a, Function.update s.allQueries tid slot,
      Function.update s.pc j pc⟩ := by
  have htids : ∀ i, (Function.update s.pc j pc i).tid = (s.pc i).tid := by
    intro i
    by_cases h : i = j
    · rw [h, Function.update_self, hpc, htid]
    · rw [Function.update_of_ne h]
  have hstart : ∀ i, Function.update s.pc j pc i ≠ .start ↔ s.pc i ≠ .start := by
    have htid' : ∀ c : InitPc, c ≠ .start ↔ c.tid ≠ none := fun c => by cases c <;> simp [InitPc.tid]
    intro i
    rw [htid', htid', htids]
  refine ⟨?_, ?_, ?_, fun i hij t ht => ?_, fun t ht => ?_, fun i i' hne => ?_⟩
  · simp only [hstart]
    exact hi.count
  · simp only [htids]
    exact hi.held
  · simp only [htids]
    exact hi.unique
  · rw [htids] at ht
    by_cases h : i = j
    · rw [h, htid] at ht
      cases ht
      dsimp only
      rw [h, Function.update_self, Function.update_self, Function.update_self]
      exact hslot
    · have hne : t ≠ tid := by
        rintro rfl
        exact h (hi.unique i hij j hj t ht htid)
      dsimp only
      rw [Function.update_of_ne h, Function.update_of_ne hne, Function.update_of_ne hne]
      exact hi.slot i hij t ht
  · have hne : t ≠ tid := by
      rintro rfl
      exact absurd ((hi.held t).2 ⟨j, hj, htid⟩) (Nat.not_lt.2 ht)
    dsimp only
    rw [Function.update_of_ne hne, Function.update_of_ne hne]
    exact hi.fresh t ht
  · dsimp only
    by_cases h : i = tid
    · have h' : i' ≠ tid := fun h' => hne (h.trans h'.symm)
      rw [h, Function.update_self, Function.update_of_ne h']
      exact hcross i' h'
    · by_cases h' : i' = tid
      · rw [h', Function.update_self, Function.update_of_ne h]
        exact fun b hb b' hb' => (hcross i h b' hb' b hb).symm
      · rw [Function.update_of_ne h, Function.update_of_ne h']
        exact hi.cross i i' hne

/-- A thread draws its ticket. -/
theorem ticket (hi : QueueInv cfg s) {j : Nat} (hj : j < cfg.threadCnt) (hpc : s.pc j = .start) :
    QueueInv cfg { s.goto j (.perThread s.nextTid) with nextTid := s.nextTid + 1 } := by
  have htid : (Function.update s.pc j (.perThread s.nextTid) j).tid = some s.nextTid := by
    rw [Function.update_self]; rfl
  have hother : ∀ i, i ≠ j → Function.update s.pc j (.perThread s.nextTid) i = s.pc i := fun i h =>
    Function.update_of_ne h ..
  have hlt : ∀ i < cfg.threadCnt, ∀ t, (s.pc i).tid = some t → t < s.nextTid := fun i hij t ht =>
    (hi.held t).2 ⟨i, hij, ht⟩
  unfold QueryQueue.goto
  refine ⟨?_, fun t => ⟨fun ht => ?_, ?_⟩, fun i hij i' hij' t ht ht' => ?_, fun i hij t ht => ?_, fun t ht => ?_,
    hi.cross⟩
  · have hset : ((Finset.range cfg.threadCnt).filter
        fun i => Function.update s.pc j (.perThread s.nextTid) i ≠ .start) =
        insert j ((Finset.range cfg.threadCnt).filter fun i => s.pc i ≠ .start) := by
      ext i
      simp only [Finset.mem_filter, Finset.mem_range, Finset.mem_insert]
      by_cases h : i = j
      · rw [h]; simp [hj]
      · rw [hother i h]; simp [h]
    show Finset.card _ = s.nextTid + 1
    rw [hset, Finset.card_insert_of_notMem (by simp [hpc]), hi.count]
  · by_cases h : t = s.nextTid
    · exact ⟨j, hj, by rw [h]; exact htid⟩
    · obtain ⟨i, hij, hit⟩ := (hi.held t).1 (by have : t < s.nextTid + 1 := ht; omega)
      refine ⟨i, hij, ?_⟩
      have hne : i ≠ j := by rintro rfl; rw [hpc] at hit; cases hit
      dsimp only
      rw [hother i hne]; exact hit
  · rintro ⟨i, hij, hit⟩
    dsimp only at hit ⊢
    by_cases h : i = j
    · rw [h, htid] at hit
      cases hit
      exact Nat.lt_succ_self _
    · rw [hother i h] at hit
      exact Nat.lt_succ_of_lt (hlt i hij t hit)
  · dsimp only at ht ht'
    by_cases h : i = j <;> by_cases h' : i' = j
    · rw [h, h']
    · rw [h, htid] at ht
      cases ht
      rw [hother i' h'] at ht'
      exact absurd (hlt i' hij' _ ht') (Nat.lt_irrefl _)
    · rw [h', htid] at ht'
      cases ht'
      rw [hother i h] at ht
      exact absurd (hlt i hij _ ht) (Nat.lt_irrefl _)
    · rw [hother i h] at ht
      rw [hother i' h'] at ht'
      exact hi.unique i hij i' hij' t ht ht'
  · dsimp only at ht ⊢
    by_cases h : i = j
    · rw [h, htid] at ht
      cases ht
      rw [h, Function.update_self]
      exact hi.fresh _ (Nat.le_refl _)
    · rw [hother i h] at ht ⊢
      exact hi.slot i hij t ht
  · exact hi.fresh t (Nat.le_of_succ_le ht)

/-- A call of the arena of the thread's own ticket. -/
theorem alloc (hi : QueueInv cfg s) {j p tid q : Nat} {a : Arena} {thd : QueryThd} {f : Region → QueryThd → QueryThd}
    {pc : InitPc} (hok : HeapOk cfg s ⟨j, p⟩) (hj : j < cfg.threadCnt) (hf : Fills cfg (s.pc j) f pc)
    (htid : pc.tid = some tid)
    (ha : (s.arenas tid).allocate p (QueryQueue.bytesAt cfg (s.pc j)) = some (q, a))
    (hs : s.allQueries tid = some thd) :
    QueueInv cfg { s with
      arenas := Function.update s.arenas tid a
      allQueries := Function.update s.allQueries tid (some (f ⟨q, QueryQueue.bytesAt cfg (s.pc j)⟩ thd))
      pc := Function.update s.pc j pc } := by
  have hown : (s.pc j).tid = some tid := hf.tid_eq.trans htid
  have hslot := hi.slot j hj tid hown
  rw [hs] at hslot
  have hlt : ∀ {i : Nat} {b : Region}, b ∈ (s.arenas i).blocks → i < cfg.threadCnt := by
    intro i b hb
    by_cases h : i < s.nextTid
    · obtain ⟨j', hj', ht⟩ := (hi.held i).1 h
      exact hi.tid_lt hj' ht
    · rw [(hi.fresh i (Nat.not_lt.1 h)).2] at hb
      cases hb
  refine hi.next pc _ a hj hown htid (hslot.fill hf ha hok.1 fun b hb => hok.2 tid (hlt hb) b hb)
    fun i hne b hb b' hb' => ?_
  rcases (Arena.alloc_of_allocate ha).blocks with h | h
  · rw [h] at hb
    exact hi.cross tid i hne.symm b hb b' hb'
  · rw [h] at hb
    rcases List.mem_append.1 hb with hb | hb
    · exact hi.cross tid i hne.symm b hb b' hb'
    · rw [List.mem_singleton.1 hb]
      exact hok.2 i (hlt hb') b' hb'

theorem step (hi : QueueInv cfg s) (hok : HeapOk cfg s e) (h : s.step cfg e = some s') : QueueInv cfg s' := by
  cases InitStep.of_step h with
  | ticket hj hpc => exact hi.ticket hj hpc
  | @slot j p tid hj hpc =>
    have hown : (s.pc j).tid = some tid := by rw [hpc]; rfl
    have hslot := hi.slot j hj tid hown
    rw [hpc] at hslot
    obtain ⟨-, hinit⟩ := hslot
    have hempty : ThdOk cfg tid 0 0 0 ⟨tid, 0, none, [], []⟩ (s.arenas tid) := by
      rw [hinit]
      exact ⟨rfl, rfl, ⟨rfl, nofun⟩, ⟨rfl, nofun⟩, ⟨rfl, nofun⟩, .init, Nat.dvd_zero _, nofun⟩
    have hnext := hi.next (.queries tid) (some ⟨tid, 0, none, [], []⟩) (s.arenas tid) hj hown rfl ⟨_, rfl, hempty⟩
      fun i hne => hi.cross tid i hne.symm
    rw [Function.update_eq_self] at hnext
    exact hnext
  | alloc hj hf htid ha hs => exact hi.alloc hok hj hf htid ha hs
  | @finish j p tid qid hj hpc hq =>
    have hown : (s.pc j).tid = some tid := by rw [hpc]; rfl
    have hslot := hi.slot j hj tid hown
    rw [hpc] at hslot
    obtain ⟨hle, thd, hthd, ht⟩ := hslot
    rw [Nat.le_antisymm hle hq] at ht
    have hnext := hi.next (.done tid) (s.allQueries tid) (s.arenas tid) hj hown rfl ⟨thd, hthd, ht⟩
      fun i hne => hi.cross tid i hne.symm
    rw [Function.update_eq_self, Function.update_eq_self] at hnext
    exact hnext

theorem reach (h : (queryLts cfg).Reach (HeapOk cfg) s) : QueueInv cfg s :=
  h.inv (fun _ h0 => by rw [h0]; exact .init) fun _ _ _ hi hok hs => hi.step hok hs

theorem thdOk (hi : QueueInv cfg s) {i : Nat} {thd : QueryThd} (h : s.allQueries i = some thd) :
    ∃ nq nr np, ThdOk cfg i nq nr np thd (s.arenas i) := by
  have hlt : i < s.nextTid := by
    refine Nat.lt_of_not_le fun hle => ?_
    rw [(hi.fresh i hle).1] at h
    cases h
  obtain ⟨j, hj, ht⟩ := (hi.held i).1 hlt
  have hslot := hi.slot j hj i ht
  rw [h] at hslot
  cases hpc : s.pc j <;> rw [hpc] at ht hslot <;> cases ht
  case perThread => cases hslot.1
  case queries =>
    obtain ⟨_, ⟨⟩, ht⟩ := hslot
    exact ⟨_, _, _, ht⟩
  case requests =>
    obtain ⟨-, _, ⟨⟩, ht⟩ := hslot
    exact ⟨_, _, _, ht⟩
  case parts =>
    obtain ⟨-, _, ⟨⟩, ht⟩ := hslot
    exact ⟨_, _, _, ht⟩
  case done =>
    obtain ⟨_, ⟨⟩, ht⟩ := hslot
    exact ⟨_, _, _, ht⟩

theorem cross_regions (hi : QueueInv cfg s) {i i' : Nat} {thd thd' : QueryThd} (hne : i ≠ i')
    (h : s.allQueries i = some thd) (h' : s.allQueries i' = some thd') :
    ∀ r ∈ thd.regions, ∀ r' ∈ thd'.regions, r.Disjoint r' := by
  intro r hr r' hr'
  obtain ⟨_, _, _, ht⟩ := hi.thdOk h
  obtain ⟨_, _, _, ht'⟩ := hi.thdOk h'
  refine (ht'.inv.owns r' hr').disjoint (fun b' hb' => ?_) |>.symm
  exact (ht.inv.owns r hr).disjoint (fun b hb => (hi.cross i i' hne b hb b' hb').symm)

/-- The threads have drawn all tickets when none is left at the start. -/
theorem done_slots (hi : QueueInv cfg s) (hdone : ∀ j < cfg.threadCnt, ∃ tid, s.pc j = .done tid) {i : Nat}
    (h : i < cfg.threadCnt) :
    ∃ thd, s.allQueries i = some thd ∧ ThdOk cfg i 1 cfg.queryCnt cfg.queryCnt thd (s.arenas i) := by
  have hall : ((Finset.range cfg.threadCnt).filter fun j => s.pc j ≠ .start) = Finset.range cfg.threadCnt := by
    refine Finset.filter_true_of_mem fun j hj => ?_
    obtain ⟨tid, ht⟩ := hdone j (Finset.mem_range.1 hj)
    rw [ht]
    exact InitPc.noConfusion
  have hcount := hi.count
  rw [hall, Finset.card_range] at hcount
  obtain ⟨j, hj, ht⟩ := (hi.held i).1 (hcount ▸ h)
  obtain ⟨tid, hpc⟩ := hdone j hj
  have hslot := hi.slot j hj i ht
  rw [hpc] at ht hslot
  cases ht
  exact hslot

theorem alloc_enabled {tid bytes : Nat} {f : Region → QueryThd → QueryThd} {pc : InitPc} (hb : 0 < bytes)
    (hthd : ∃ thd, s.allQueries tid = some thd) : ∃ s', s.alloc e tid bytes f pc = some s' := by
  obtain ⟨thd, hthd⟩ := hthd
  rw [QueryQueue.alloc, Arena.allocate, if_pos hb, Option.bind_some, hthd]
  exact ⟨_, rfl⟩

theorem enabled (hi : QueueInv cfg s) {j : Nat} (hj : j < cfg.threadCnt) (hpc : ∀ tid, s.pc j ≠ .done tid) (p : Nat) :
    ∃ s', s.step cfg ⟨j, p⟩ = some s' := by
  unfold QueryQueue.step
  rw [if_pos hj]
  dsimp only
  cases h : s.pc j with
  | start => exact ⟨_, rfl⟩
  | perThread tid => exact ⟨_, if_pos (hi.tid_lt hj (by rw [h]; rfl))⟩
  | queries tid =>
    have hslot := hi.slot j hj tid (by rw [h]; rfl)
    rw [h] at hslot
    obtain ⟨thd, hthd, -⟩ := hslot
    exact alloc_enabled (Nat.mul_pos cfg.sizeofQuery_pos cfg.queryCnt_pos) ⟨thd, hthd⟩
  | requests tid qid =>
    have hslot := hi.slot j hj tid (by rw [h]; rfl)
    rw [h] at hslot
    obtain ⟨-, thd, hthd, -⟩ := hslot
    dsimp only
    split
    · exact alloc_enabled (Nat.mul_pos cfg.sizeofRequest_pos cfg.reqPerQuery_pos) ⟨thd, hthd⟩
    · exact ⟨_, rfl⟩
  | parts tid qid =>
    have hslot := hi.slot j hj tid (by rw [h]; rfl)
    rw [h] at hslot
    obtain ⟨-, thd, hthd, -⟩ := hslot
    exact alloc_enabled (Nat.mul_pos (by decide) cfg.reqPerQuery_pos) ⟨thd, hthd⟩
  | done tid => exact absurd h (hpc tid)

end QueueInv

/-- However the threads of `init` are interleaved, each has a ticket of its own, so that no arena is used by two of
them. The memory of the queries of all threads does not overlap and is aligned, no allocation fails, and when all are
done every slot has its queries with the memory for their requests. -/
theorem query_queue_init (cfg : QueryConfig) {s : QueryQueue} (h : (queryLts cfg).Reach (HeapOk cfg) s) :
    (∀ j < cfg.threadCnt, ∀ tid, (s.pc j).tid = some tid →
      tid < cfg.threadCnt ∧ ∀ j' < cfg.threadCnt, (s.pc j').tid = some tid → j = j') ∧
    (∀ i thd, s.allQueries i = some thd → thd.regions.Pairwise Region.Disjoint ∧
      (∀ r ∈ thd.regions, arenaAlign ∣ r.start) ∧
      ∀ i' thd', i ≠ i' → s.allQueries i' = some thd' → ∀ r ∈ thd.regions, ∀ r' ∈ thd'.regions, r.Disjoint r') ∧
    (∀ j < cfg.threadCnt, (∀ tid, s.pc j ≠ .done tid) → ∀ p, ∃ s', s.step cfg ⟨j, p⟩ = some s') ∧
    ((∀ j < cfg.threadCnt, ∃ tid, s.pc j = .done tid) → ∀ i < cfg.threadCnt, ∃ thd, s.allQueries i = some thd ∧
      thd.threadId = i ∧ thd.qIdx = 0 ∧ (∃ r, thd.queries = some r ∧ r.len = cfg.sizeofQuery * cfg.queryCnt) ∧
      thd.requests.map Region.len = List.replicate cfg.queryCnt (cfg.sizeofRequest * cfg.reqPerQuery) ∧
      thd.partToAccess.map Region.len = List.replicate cfg.queryCnt (8 * cfg.reqPerQuery)) := by
  have hi := QueueInv.reach h
  refine ⟨fun j hj tid ht => ⟨hi.tid_lt hj ht, fun j' hj' ht' => hi.unique j hj j' hj' tid ht ht'⟩,
    fun i thd hthd => ?_, fun j hj hpc p => hi.enabled hj hpc p, fun hdone i hlt => ?_⟩
  · obtain ⟨_, _, _, ht⟩ := hi.thdOk hthd
    exact ⟨ht.inv.disjoint, ht.aligned, fun i' thd' hne hthd' => hi.cross_regions hne hthd hthd'⟩
  · obtain ⟨thd, hthd, ht⟩ := hi.done_slots hdone hlt
    have hlens : ∀ {n k : Nat} {rs : List Region}, rs.length = n → (∀ r ∈ rs, r.len = k) →
        rs.map Region.len = List.replicate n k := by
      intro n k rs hn hk
      rw [← hn]
      exact List.eq_replicate_iff.2 ⟨List.length_map .., fun x hx => by
        obtain ⟨r, hr, rfl⟩ := List.mem_map.1 hx
        exact hk r hr⟩
    refine ⟨thd, hthd, ht.threadId, ht.qIdx, ?_, hlens ht.requests.1 ht.requests.2, hlens ht.parts.1 ht.parts.2⟩
    cases hq : thd.queries with
    | none =>
      have hlen := ht.queries.1
      rw [hq] at hlen
      cases hlen
    | some r => exact ⟨r, rfl, ht.queries.2 r (by rw [hq]; exact List.mem_cons_self)⟩

/-- Two threads, two queries each; the second one to start is given the ticket 0. -/
def smallQueryConfig : QueryConfig where
  threadCnt := 2
  queryCnt := 2
  reqPerQuery := 16
  sizeofQuery := 64
  sizeofRequest := 24
  queryCnt_pos := by decide
  reqPerQuery_pos := by decide
  sizeofQuery_pos := by decide
  sizeofRequest_pos := by decide
  sizeofQuery_words := by decide
  sizeofRequest_words := by decide

def smallInit : List InitEv :=
  [⟨1, 0⟩, ⟨0, 0⟩, ⟨1, 0⟩, ⟨0, 0⟩, ⟨1, 8192⟩, ⟨0, 16384⟩, ⟨0, 24576⟩, ⟨1, 24576⟩, ⟨1, 24576⟩, ⟨0, 24576⟩, ⟨0, 24576⟩,
    ⟨1, 24576⟩, ⟨1, 24576⟩, ⟨0, 24576⟩, ⟨0, 24576⟩, ⟨1, 24576⟩]

theorem query_queue_init_two : ∃ s : QueryQueue, (queryLts smallQueryConfig).Reach (HeapOk smallQueryConfig) s ∧
    s.pc 0 = .done 1 ∧ s.pc 1 = .done 0 ∧ ∃ thd, s.allQueries 0 = some thd ∧ thd.threadId = 0 := by
  have hrun : ((queryLts smallQueryConfig).runIf (fun s e => decide (HeapOk smallQueryConfig s e)) .init smallInit).any
      (fun s => decide (s.pc 0 = .done 1 ∧ s.pc 1 = .done 0)) = true := by decide +kernel
  simp only [Option.any_eq_true, decide_eq_true_eq] at hrun
  obtain ⟨s, hs, h0, h1⟩ := hrun
  have hreach : (queryLts smallQueryConfig).Reach (HeapOk smallQueryConfig) s :=
    .runIf (fun _ _ => of_decide_eq_true) (.init rfl) hs
  have hdone : ∀ j < smallQueryConfig.threadCnt, ∃ tid, s.pc j = .done tid := by
    intro j hj
    have hj : j < 2 := hj
    match j, hj with
    | 0, _ => exact ⟨1, h0⟩
    | 1, _ => exact ⟨0, h1⟩
  obtain ⟨-, -, -, hslots⟩ := query_queue_init smallQueryConfig hreach
  obtain ⟨thd, hthd, hid, -⟩ := hslots hdone 0 (by decide)
  exact ⟨s, hreach, h0, h1, thd, hthd, hid⟩

end Dbx1000
