import Dbx1000.GenDb

/-!
# Generating the table in parallel (`Gen_DB` of `test/gen_db.cpp`)

Each of the threads fills pages of its own with its share of the keys. They share the counter of the page ids, the
index, whose `IndexPut` has a mutex, and the file, where each writes the page that it has filled. `GetNextPageId`
counts and reads its result in two steps: if no thread counts between the two steps of another one, no two threads
have the same page, whatever the order of all other steps. Then no assertion fails, and what the threads leave passes
`Check_DB` (`gen_db_parallel_passes_check`).
-/

namespace Dbx1000

open Buf

/-- Where a thread is: in `GetNextPageId` for its first page, at the head of the loop, in `GetNextPageId` behind a full
page, or in front of `PagePut`. -/
inductive GenPc
  | start
  | started
  | head
  | turned
  | counted
  | put
  | done
deriving DecidableEq, Repr

structure GenThread where
  pc : GenPc
  page : Page
  row : Bytes
  key : Nat

structure GenSys (nt : Nat) where
  tableSpace : TableSpace
  index : IndexMap
  disk : Nat → Option Bytes
  threads : Fin nt → GenThread

/-- `memcpy` of key and version into `row`. -/
def fillGenRow (key : Nat) (row : Bytes) : Bytes := write (genDbRowSize - 8) (toLE 8 1) (write 0 (toLE 8 key) row)

namespace GenSys

variable {nt : Nat}

def init (share : Nat) (bufs : Fin nt → PageBuf) (pageVersion : Nat) (disk : Nat → Option Bytes) : GenSys nt where
  tableSpace := .new
  index := .empty
  disk := disk
  threads i := ⟨.start, Page.new (bufs i).bytes pageVersion, List.replicate genDbRowSize 0, share * i⟩

def set (i : Fin nt) (t : GenThread) (s : GenSys nt) : GenSys nt := { s with threads := Function.update s.threads i t }

/-- `page->Serialize()` and `FileIO::WritePage`. -/
def writePage (page : Page) (s : GenSys nt) : GenSys nt :=
  { s with disk := Function.update s.disk page.serialize.pageId (some (read 0 myPageSize page.serialize.pageBuf)) }

/-- The next step of thread `i`, which has the keys from `share * i` to `share * (i + 1)`. -/
def step (share : Nat) (s : GenSys nt) (i : Fin nt) : Option (GenSys nt) :=
  let t := s.threads i
  match t.pc with
  | .start => some ({ s with tableSpace := s.tableSpace.count }.set i { t with pc := .started })
  | .started =>
    some (s.set i { t with pc := .head, page := { t.page with pageId := s.tableSpace.getLastPageId } })
  | .head =>
    if t.key < share * (i + 1) then
      if myPageSize - t.page.usedSize < genDbRowSize then
        if (myPageSize - 64) / genDbRowSize * genDbRowSize + 64 = t.page.usedSize then
          some ((s.writePage t.page).set i { t with pc := .turned, page := t.page.serialize })
        else none
      else some (s.set i { t with pc := .put })
    else if 64 < t.page.usedSize then
      some ((s.writePage t.page).set i { t with pc := .done, page := t.page.serialize })
    else some (s.set i { t with pc := .done })
  | .turned => some ({ s with tableSpace := s.tableSpace.count }.set i { t with pc := .counted })
  | .counted =>
    some (s.set i { t with pc := .put, page := { t.page with pageId := s.tableSpace.getLastPageId, usedSize := 64 } })
  | .put =>
    (t.page.pagePut t.page.pageId (fillGenRow t.key t.row) genDbRowSize).map fun page =>
      { s with index := s.index.indexPut (t.key, ⟨page.pageId, page.usedSize - genDbRowSize⟩) }.set i
        ⟨.head, page, fillGenRow t.key t.row, t.key + 1⟩
  | .done => none

end GenSys

/-- `Gen_DB` for `synthTableSize` keys, with `nt` threads, which are 10. -/
def genLts (nt synthTableSize : Nat) (bufs : Fin nt → PageBuf) (pageVersion : Nat) (disk : Nat → Option Bytes) :
    Lts (GenSys nt) (Fin nt) where
  init s := s = .init (synthTableSize / nt) bufs pageVersion disk
  step := GenSys.step (synthTableSize / nt)

/-- The thread has counted and not yet read its page id. -/
def GenPc.inCall : GenPc → Bool
  | .started | .counted => true
  | _ => false

/-- The page of the thread has its id and is not yet on disk. -/
def GenPc.filling : GenPc → Bool
  | .head | .put => true
  | _ => false

/-- No thread counts while another one has still to read its page id, and the `int64_t` counter does not overflow. -/
def CountOk {nt : Nat} (s : GenSys nt) (i : Fin nt) : Prop :=
  (s.threads i).pc = .start ∨ (s.threads i).pc = .turned →
    (∀ j, (s.threads j).pc.inCall = false) ∧ s.tableSpace.lastPageId + 1 < 2 ^ 63

instance {nt : Nat} (s : GenSys nt) (i : Fin nt) : Decidable (CountOk s i) :=
  inferInstanceAs (Decidable (_ → _))

/-! ### The steps -/

section Step

variable {nt share : Nat} {s s' : GenSys nt} {i : Fin nt}

/-- `GenSys.step` with its branches as constructors. -/
inductive GenStep (share : Nat) (s : GenSys nt) (i : Fin nt) : GenSys nt → Prop
  | count {pc : GenPc} (hpc : (s.threads i).pc = .start ∧ pc = .started ∨ (s.threads i).pc = .turned ∧ pc = .counted) :
      GenStep share s i ({ s with tableSpace := s.tableSpace.count }.set i { s.threads i with pc := pc })
  | first (hpc : (s.threads i).pc = .started) :
      GenStep share s i (s.set i { s.threads i with
        pc := .head, page := { (s.threads i).page with pageId := s.tableSpace.getLastPageId } })
  | next (hpc : (s.threads i).pc = .counted) :
      GenStep share s i (s.set i { s.threads i with
        pc := .put, page := { (s.threads i).page with pageId := s.tableSpace.getLastPageId, usedSize := 64 } })
  | turn (hpc : (s.threads i).pc = .head) (hkey : (s.threads i).key < share * (i + 1))
      (hfull : myPageSize - (s.threads i).page.usedSize < genDbRowSize) :
      GenStep share s i ((s.writePage (s.threads i).page).set i { s.threads i with
        pc := .turned, page := (s.threads i).page.serialize })
  | enter (hpc : (s.threads i).pc = .head) (hkey : (s.threads i).key < share * (i + 1))
      (hfits : ¬ myPageSize - (s.threads i).page.usedSize < genDbRowSize) :
      GenStep share s i (s.set i { s.threads i with pc := .put })
  | put {page : Page} (hpc : (s.threads i).pc = .put)
      (hput : (s.threads i).page.pagePut (s.threads i).page.pageId (fillGenRow (s.threads i).key (s.threads i).row)
        genDbRowSize = some page) :
      GenStep share s i ({ s with
          index := s.index.indexPut ((s.threads i).key, ⟨page.pageId, page.usedSize - genDbRowSize⟩) }.set i
        ⟨.head, page, fillGenRow (s.threads i).key (s.threads i).row, (s.threads i).key + 1⟩)
  | last (hpc : (s.threads i).pc = .head) (hkey : share * (i + 1) ≤ (s.threads i).key) :
      GenStep share s i ((s.writePage (s.threads i).page).set i { s.threads i with
        pc := .done, page := (s.threads i).page.serialize })
  | empty (hpc : (s.threads i).pc = .head) (hkey : share * (i + 1) ≤ (s.threads i).key)
      (hused : (s.threads i).page.usedSize ≤ 64) : GenStep share s i (s.set i { s.threads i with pc := .done })

theorem GenStep.of_step (h : s.step share i = some s') : GenStep share s i s' := by
  unfold GenSys.step at h
  dsimp only at h
  split at h
  · cases h; exact .count (.inl ⟨‹_›, rfl⟩)
  · cases h; exact .first ‹_›
  · split at h
    · split at h
      · split at h
        · cases h; exact .turn ‹_› ‹_› ‹_›
        · cases h
      · cases h; exact .enter ‹_› ‹_› ‹_›
    · rename_i hkey
      split at h
      · cases h; exact .last ‹_› (Nat.not_lt.1 hkey)
      · rename_i hused
        cases h; exact .empty ‹_› (Nat.not_lt.1 hkey) (Nat.not_lt.1 hused)
  · cases h; exact .count (.inr ⟨‹_›, rfl⟩)
  · cases h; exact .next ‹_›
  · obtain ⟨page, hpage, rfl⟩ := Option.map_eq_some_iff.1 h
    exact .put ‹_› hpage
  · cases h

theorem GenStep.others (h : GenStep share s i s') {j : Fin nt} (hne : j ≠ i) : s'.threads j = s.threads j := by
  cases h <;> exact Function.update_of_ne hne ..

/-- Only `IndexPut` changes the index, and only at the key of the thread. -/
theorem GenStep.indexGet_eq (h : GenStep share s i s') {key : Nat}
    (hne : (s.threads i).pc = .put → key ≠ (s.threads i).key) : s'.index.indexGet key = s.index.indexGet key := by
  cases h with
  | put hpc => exact Function.update_of_ne (hne hpc) ..
  | _ => rfl

end Step

/-! ### The page ids -/

section Ids

variable {nt share : Nat} {s s' : GenSys nt} {i : Fin nt}

/-- The pages that are being filled are distinct, and the id of a call under way is still free. -/
structure IdsInv (s : GenSys nt) : Prop where
  lower : -1 ≤ s.tableSpace.lastPageId
  upper : s.tableSpace.lastPageId < 2 ^ 63
  distinct : ∀ i j, (s.threads i).pc.filling = true → (s.threads j).pc.filling = true →
    (s.threads i).page.pageId = (s.threads j).page.pageId → i = j
  le : ∀ i, (s.threads i).pc.filling = true → ((s.threads i).page.pageId : Int) ≤ s.tableSpace.lastPageId
  call : ∀ i, (s.threads i).pc.inCall = true → (∀ j, (s.threads j).pc.inCall = true → j = i) ∧
    0 ≤ s.tableSpace.lastPageId ∧
    ∀ j, (s.threads j).pc.filling = true → ((s.threads j).page.pageId : Int) ≠ s.tableSpace.lastPageId

/-- The page `p` is on disk for good. -/
structure GenSys.Closed (s : GenSys nt) (p : Nat) : Prop where
  le : (p : Int) ≤ s.tableSpace.lastPageId
  filling : ∀ i, (s.threads i).pc.filling = true → (s.threads i).page.pageId ≠ p
  call : ∀ i, (s.threads i).pc.inCall = true → (p : Int) ≠ s.tableSpace.lastPageId

/-- A step outside of `GetNextPageId`: a page may be closed, but none is opened. -/
structure GenSys.Quiet (s s' : GenSys nt) : Prop where
  tableSpace : s'.tableSpace = s.tableSpace
  filling : ∀ i, (s'.threads i).pc.filling = true → (s.threads i).pc.filling = true ∧
    (s'.threads i).page.pageId = (s.threads i).page.pageId
  call : ∀ i, (s'.threads i).pc.inCall = true → (s.threads i).pc.inCall = true

theorem GenSys.Quiet.set {t : GenThread} (htable : s'.tableSpace = s.tableSpace)
    (hthreads : s'.threads = Function.update s.threads i t)
    (hfilling : t.pc.filling = true → (s.threads i).pc.filling = true ∧ t.page.pageId = (s.threads i).page.pageId)
    (hcall : t.pc.inCall = true → (s.threads i).pc.inCall = true) : s.Quiet s' := by
  refine ⟨htable, fun j hj => ?_, fun j hj => ?_⟩
  · rw [hthreads] at hj ⊢
    by_cases hne : j = i
    · rw [hne, Function.update_self] at hj ⊢
      exact hfilling hj
    · rw [Function.update_of_ne hne] at hj ⊢
      exact ⟨hj, rfl⟩
  · rw [hthreads] at hj
    by_cases hne : j = i
    · rw [hne, Function.update_self] at hj
      rw [hne]
      exact hcall hj
    · rwa [Function.update_of_ne hne] at hj

theorem IdsInv.quiet (h : IdsInv s) (hq : s.Quiet s') : IdsInv s' := by
  refine ⟨by rw [hq.tableSpace]; exact h.lower, by rw [hq.tableSpace]; exact h.upper, fun i j hi hj heq => ?_,
    fun i hi => ?_, fun i hi => ?_⟩
  · obtain ⟨hi', hpi⟩ := hq.filling i hi
    obtain ⟨hj', hpj⟩ := hq.filling j hj
    exact h.distinct i j hi' hj' (by rw [← hpi, ← hpj, heq])
  · obtain ⟨hi', hpi⟩ := hq.filling i hi
    rw [hpi, hq.tableSpace]
    exact h.le i hi'
  · obtain ⟨h1, h2, h3⟩ := h.call i (hq.call i hi)
    rw [hq.tableSpace]
    refine ⟨fun j hj => h1 j (hq.call j hj), h2, fun j hj => ?_⟩
    obtain ⟨hj', hpj⟩ := hq.filling j hj
    rw [hpj]
    exact h3 j hj'

theorem GenSys.Closed.quiet {p : Nat} (h : s.Closed p) (hq : s.Quiet s') : s'.Closed p := by
  refine ⟨by rw [hq.tableSpace]; exact h.le, fun i hi => ?_, fun i hi => ?_⟩
  · obtain ⟨hi', hpi⟩ := hq.filling i hi
    rw [hpi]
    exact h.filling i hi'
  · rw [hq.tableSpace]
    exact h.call i (hq.call i hi)

/-- The page that a thread leaves is no other thread's. -/
theorem GenSys.Quiet.closed (hq : s.Quiet s') (hids : IdsInv s) (hfill : (s.threads i).pc.filling = true)
    (hout : (s'.threads i).pc.filling = false) : s'.Closed (s.threads i).page.pageId := by
  refine ⟨by rw [hq.tableSpace]; exact hids.le i hfill, fun k hk => ?_, fun k hk => ?_⟩
  · obtain ⟨hk', hpk⟩ := hq.filling k hk
    rw [hpk]
    intro heq
    rw [hids.distinct k i hk' hfill heq, hout] at hk
    cases hk
  · rw [hq.tableSpace]
    exact (hids.call k (hq.call k hk)).2.2 i hfill

/-- Thread `i` counts. -/
structure GenSys.Counts (s s' : GenSys nt) (i : Fin nt) : Prop where
  tableSpace : s'.tableSpace = s.tableSpace.count
  others : ∀ j, j ≠ i → s'.threads j = s.threads j
  filling : (s'.threads i).pc.filling = false
  alone : ∀ j, (s.threads j).pc.inCall = false

/-- Thread `i` has its page id. -/
structure GenSys.Returns (s s' : GenSys nt) (i : Fin nt) : Prop where
  tableSpace : s'.tableSpace = s.tableSpace
  others : ∀ j, j ≠ i → s'.threads j = s.threads j
  call : (s.threads i).pc.inCall = true
  back : (s'.threads i).pc.inCall = false
  pageId : (s'.threads i).page.pageId = s.tableSpace.getLastPageId

namespace GenSys.Counts

variable (hc : s.Counts s' i)

include hc

theorem filling_of {j : Fin nt} (hj : (s'.threads j).pc.filling = true) :
    (s.threads j).pc.filling = true ∧ (s'.threads j).page.pageId = (s.threads j).page.pageId := by
  have hne : j ≠ i := by
    rintro rfl
    rw [hc.filling] at hj
    cases hj
  rw [hc.others j hne] at hj ⊢
  exact ⟨hj, rfl⟩

theorem eq_of_call {j : Fin nt} (hj : (s'.threads j).pc.inCall = true) : j = i := by
  by_contra hne
  rw [hc.others j hne, hc.alone j] at hj
  cases hj

theorem last : s'.tableSpace.lastPageId = s.tableSpace.lastPageId + 1 := by rw [hc.tableSpace]; rfl

theorem ids (h : IdsInv s) (hup : s.tableSpace.lastPageId + 1 < 2 ^ 63) : IdsInv s' := by
  have hlow := h.lower
  have hlt : ∀ j, (s'.threads j).pc.filling = true →
      ((s'.threads j).page.pageId : Int) < s'.tableSpace.lastPageId := by
    intro j hj
    obtain ⟨hj', hp⟩ := hc.filling_of hj
    have := h.le j hj'
    rw [hp, hc.last]
    omega
  refine ⟨by rw [hc.last]; omega, by rw [hc.last]; exact hup, fun j k hj hk heq => ?_,
    fun j hj => Int.le_of_lt (hlt j hj), fun j hj => ⟨fun k hk => (hc.eq_of_call hk).trans (hc.eq_of_call hj).symm,
      by rw [hc.last]; omega, fun k hk => Int.ne_of_lt (hlt k hk)⟩⟩
  obtain ⟨hj', hpj⟩ := hc.filling_of hj
  obtain ⟨hk', hpk⟩ := hc.filling_of hk
  exact h.distinct j k hj' hk' (by rw [← hpj, ← hpk, heq])

theorem closed {p : Nat} (h : s.Closed p) : s'.Closed p := by
  have hle := h.le
  refine ⟨by rw [hc.last]; omega, fun j hj => ?_, fun j _ => by rw [hc.last]; omega⟩
  obtain ⟨hj', hp⟩ := hc.filling_of hj
  rw [hp]
  exact h.filling j hj'

end GenSys.Counts

namespace GenSys.Returns

variable (hr : s.Returns s' i)

include hr

theorem no_call (h : IdsInv s) (j : Fin nt) : (s'.threads j).pc.inCall = false := by
  by_cases hne : j = i
  · rw [hne]; exact hr.back
  · rw [hr.others j hne]
    refine Bool.eq_false_of_not_eq_true fun hj => hne ((h.call i hr.call).1 j hj)

/-- The page id is the number that was counted. -/
theorem pageId_eq (h : IdsInv s) : ((s'.threads i).page.pageId : Int) = s.tableSpace.lastPageId := by
  have := (h.call i hr.call).2.1
  rw [hr.pageId, TableSpace.getLastPageId]
  omega

theorem ids (h : IdsInv s) : IdsInv s' := by
  obtain ⟨-, -, hfree⟩ := h.call i hr.call
  have hid := hr.pageId_eq h
  have hother : ∀ j, j ≠ i → (s'.threads j).pc.filling = true →
      (s.threads j).pc.filling = true ∧ (s'.threads j).page.pageId ≠ (s'.threads i).page.pageId := by
    intro j hne hj
    rw [hr.others j hne] at hj ⊢
    have := hfree j hj
    exact ⟨hj, fun heq => this (by rw [← hid, heq])⟩
  refine ⟨by rw [hr.tableSpace]; exact h.lower, by rw [hr.tableSpace]; exact h.upper, fun j k hj hk heq => ?_,
    fun j hj => ?_, fun j hj => absurd hj (by rw [hr.no_call h j]; exact nofun)⟩
  · by_cases hji : j = i <;> by_cases hki : k = i
    · rw [hji, hki]
    · rw [hji] at heq
      exact absurd heq.symm (hother k hki hk).2
    · rw [hki] at heq
      exact absurd heq (hother j hji hj).2
    · refine h.distinct j k (hother j hji hj).1 (hother k hki hk).1 ?_
      rwa [hr.others j hji, hr.others k hki] at heq
  · rw [hr.tableSpace]
    by_cases hji : j = i
    · rw [hji, hid]
    · have := h.le j (hother j hji hj).1
      rwa [hr.others j hji]

theorem closed {p : Nat} (h : IdsInv s) (hp : s.Closed p) : s'.Closed p := by
  refine ⟨by rw [hr.tableSpace]; exact hp.le, fun j hj => ?_,
    fun j hj => absurd hj (by rw [hr.no_call h j]; exact nofun)⟩
  by_cases hji : j = i
  · have hne := hp.call i hr.call
    have hid := hr.pageId_eq h
    rw [hji]
    rintro rfl
    exact hne hid
  · rw [hr.others j hji] at hj ⊢
    exact hp.filling j hj

end GenSys.Returns

/-- Every step keeps the page ids apart, and leaves a page alone that is on disk for good. -/
theorem GenStep.ids (h : GenStep share s i s') (hids : IdsInv s) (hok : CountOk s i) :
    IdsInv s' ∧ ∀ p, s.Closed p → s'.Closed p ∧ s'.disk p = s.disk p := by
  have hquiet : s.Quiet s' → (∀ p, s.Closed p → s'.disk p = s.disk p) →
      IdsInv s' ∧ ∀ p, s.Closed p → s'.Closed p ∧ s'.disk p = s.disk p := fun hq hdisk =>
    ⟨hids.quiet hq, fun p hp => ⟨hp.quiet hq, hdisk p hp⟩⟩
  have hreturns : s.Returns s' i → s'.disk = s.disk →
      IdsInv s' ∧ ∀ p, s.Closed p → s'.Closed p ∧ s'.disk p = s.disk p := fun hr hdisk =>
    ⟨hr.ids hids, fun p hp => ⟨hr.closed hids hp, by rw [hdisk]⟩⟩
  -- a page that is written is that of the thread
  have hwrite : (s.threads i).pc.filling = true → ∀ p, s.Closed p →
      (s.writePage (s.threads i).page).disk p = s.disk p := fun hf p hp =>
    Function.update_of_ne (fun heq => hp.filling i hf heq.symm) ..
  cases h with
  | @count pc hpc =>
    obtain ⟨halone, hup⟩ := hok (hpc.imp And.left And.left)
    have hc : s.Counts ({ s with tableSpace := s.tableSpace.count }.set i { s.threads i with pc := pc }) i := by
      refine ⟨rfl, fun j hj => Function.update_of_ne hj .., ?_, halone⟩
      simp only [GenSys.set, Function.update_self]
      rcases hpc with ⟨-, rfl⟩ | ⟨-, rfl⟩ <;> rfl
    exact ⟨hc.ids hids hup, fun p hp => ⟨hc.closed hp, rfl⟩⟩
  | first hpc | next hpc =>
    refine hreturns ⟨rfl, fun j hj => Function.update_of_ne hj .., by rw [hpc]; rfl, ?_, ?_⟩ rfl <;>
      simp only [GenSys.set, Function.update_self]
    rfl
  | turn hpc | last hpc =>
    refine hquiet (.set rfl rfl nofun nofun) (hwrite (by rw [hpc]; rfl))
  | enter hpc => exact hquiet (.set rfl rfl (fun _ => ⟨by rw [hpc]; rfl, rfl⟩) nofun) fun _ _ => rfl
  | put hpc hput =>
    refine hquiet (.set rfl rfl (fun _ => ⟨by rw [hpc]; rfl, ?_⟩) nofun) fun _ _ => rfl
    unfold Page.pagePut at hput
    split at hput
    · cases hput; rfl
    · cases hput
  | empty hpc => exact hquiet (.set rfl rfl nofun nofun) fun _ _ => rfl

/-- A thread goes on with its page, or leaves it for good. -/
theorem GenStep.filling (h : GenStep share s i s') (hids : IdsInv s) (hfill : (s.threads i).pc.filling = true) :
    (s'.threads i).pc.filling = true ∧ (s'.threads i).page.pageId = (s.threads i).page.pageId ∨
      s'.Closed (s.threads i).page.pageId := by
  have hset : ∀ {s₁ : GenSys nt} {t : GenThread}, (s₁.set i t).threads i = t := Function.update_self ..
  cases h with
  | count hpc => rcases hpc with ⟨hpc, -⟩ | ⟨hpc, -⟩ <;> rw [hpc] at hfill <;> cases hfill
  | first hpc | next hpc => rw [hpc] at hfill; cases hfill
  | turn | last | empty =>
    refine .inr (GenSys.Quiet.closed ?_ hids hfill (by rw [hset]; rfl))
    exact .set rfl rfl nofun nofun
  | enter => exact .inl (by rw [hset]; exact ⟨rfl, rfl⟩)
  | put hpc hput =>
    rw [hset]
    unfold Page.pagePut at hput
    split at hput
    · cases hput; exact .inl ⟨rfl, rfl⟩
    · cases hput

end Ids

/-! ### The rows -/

section Rows

theorem length_genDbRow (key : Nat) : (genDbRow key).length = genDbRowSize :=
  TableShape.length_rowOf (T := genShape) key

variable {lo hi m : Nat} {t : GenThread} {index : IndexMap} {Stored : Nat → Prop}

/-- A thread with the keys from `lo` to `hi` and `m` rows in its page; `Stored` are the rows on disk. -/
structure FillInv (lo hi m : Nat) (t : GenThread) (index : IndexMap) (Stored : Nat → Prop) : Prop where
  first : lo + m ≤ t.key
  last : t.key ≤ hi
  le : m ≤ rowsPerPage genDbRowSize
  empty : t.pc.filling = false → m = 0
  used : t.pc ≠ .turned → t.pc ≠ .counted → t.pc ≠ .done → t.page.usedSize = 64 + genDbRowSize * m
  more : t.pc = .turned ∨ t.pc = .counted ∨ t.pc = .put → t.key < hi
  room : t.pc = .put → m < rowsPerPage genDbRowSize
  done : t.pc = .done → t.key = hi
  pageSize : t.page.pageSize = myPageSize
  length : t.page.pageBuf.length = myPageSize
  row : ∃ head tail, head.length = 8 ∧ tail.length = 8 ∧ t.row = head ++ (List.replicate (genDbRowSize - 16) 0 ++ tail)
  rows : ∀ j < m, Buf.read (64 + genDbRowSize * j) genDbRowSize t.page.pageBuf = genDbRow (t.key - m + j)
  index : ∀ j < m, index.indexGet (t.key - m + j) = some ⟨t.page.pageId, 64 + genDbRowSize * j⟩
  stored : ∀ key, lo ≤ key → key + m < t.key → Stored key

namespace FillInv

theorem mono {index' : IndexMap} {Stored' : Nat → Prop} (h : FillInv lo hi m t index Stored)
    (hindex : ∀ key, lo ≤ key → key < t.key → index'.indexGet key = index.indexGet key)
    (hstored : ∀ key, lo ≤ key → key + m < t.key → Stored key → Stored' key) : FillInv lo hi m t index' Stored' :=
  { h with
    index := fun j hj => by
      have := h.first
      rw [hindex _ (by omega) (by omega)]
      exact h.index j hj
    stored := fun key hlo hlt => hstored key hlo hlt (h.stored key hlo hlt) }

/-- A thread whose rows are all on disk. -/
theorem fresh {t' : GenThread} {index' : IndexMap} {Stored' : Nat → Prop} (h : FillInv lo hi m t index Stored)
    (hkey : t'.key = t.key) (hrow : t'.row = t.row) (hbuf : t'.page.pageBuf.length = myPageSize)
    (hsize : t'.page.pageSize = myPageSize)
    (hused : t'.pc ≠ .turned → t'.pc ≠ .counted → t'.pc ≠ .done → t'.page.usedSize = 64)
    (hmore : t'.pc = .turned ∨ t'.pc = .counted ∨ t'.pc = .put → t.key < hi) (hdone : t'.pc = .done → t.key = hi)
    (hstored : ∀ key, lo ≤ key → key < t.key → Stored' key) : FillInv lo hi 0 t' index' Stored' where
  first := by rw [hkey]; exact Nat.le_trans (Nat.le_add_right ..) h.first
  last := by rw [hkey]; exact h.last
  le := Nat.zero_le _
  empty _ := rfl
  used := hused
  more := by rw [hkey]; exact hmore
  room _ := by decide
  done := by rw [hkey]; exact hdone
  pageSize := hsize
  length := hbuf
  row := by rw [hrow]; exact h.row
  rows j hj := absurd hj (Nat.not_lt_zero j)
  index j hj := absurd hj (Nat.not_lt_zero j)
  stored key hlo hlt := hstored key hlo (by rwa [hkey] at hlt)

theorem fillGenRow_eq (h : FillInv lo hi m t index Stored) : fillGenRow t.key t.row = genDbRow t.key := by
  obtain ⟨head, tail, hhead, htail, hrow⟩ := h.row
  rw [hrow]
  exact TableShape.write_row (T := genShape) hhead htail t.key

/-- There is room for the row in front of which the thread stands. -/
theorem put_fits (h : FillInv lo hi m t index Stored) (hpc : t.pc = .put) :
    64 + genDbRowSize * m + genDbRowSize ≤ myPageSize := by
  have := rows_fit (Nat.succ_le_of_lt (h.room hpc))
  rwa [Nat.mul_succ, ← Nat.add_assoc] at this

theorem pagePut_eq (h : FillInv lo hi m t index Stored) (hpc : t.pc = .put) :
    t.page.pagePut t.page.pageId (fillGenRow t.key t.row) genDbRowSize = some { t.page with
      pageBuf := write (64 + genDbRowSize * m) (genDbRow t.key) t.page.pageBuf
      usedSize := 64 + genDbRowSize * m + genDbRowSize } := by
  have hused := h.used (by rw [hpc]; exact nofun) (by rw [hpc]; exact nofun) (by rw [hpc]; exact nofun)
  rw [Page.pagePut, if_pos ⟨rfl, by rw [hused, h.pageSize]; exact h.put_fits hpc⟩, hused, h.fillGenRow_eq,
    read_length (length_genDbRow t.key)]

theorem put {page : Page} (h : FillInv lo hi m t index Stored) (hpc : t.pc = .put)
    (hput : t.page.pagePut t.page.pageId (fillGenRow t.key t.row) genDbRowSize = some page) :
    FillInv lo hi (m + 1) ⟨.head, page, fillGenRow t.key t.row, t.key + 1⟩
      (index.indexPut (t.key, ⟨page.pageId, page.usedSize - genDbRowSize⟩)) Stored := by
  rw [h.pagePut_eq hpc] at hput
  cases hput
  have hfirst := h.first
  have hfits := h.put_fits hpc
  have hlen := length_genDbRow t.key
  refine ⟨by dsimp only; omega, h.more (.inr (.inr hpc)), h.room hpc, nofun, fun _ _ _ => ?_, nofun, nofun, nofun,
    h.pageSize, ?_, ?_, fun j hj => ?_, fun j hj => ?_,
    fun key hlo hlt => h.stored key hlo (by dsimp only at hlt; omega)⟩
  · rw [Nat.mul_succ, ← Nat.add_assoc]
  · rw [length_write_of_le (by rw [hlen, h.length]; exact hfits), h.length]
  · obtain ⟨head, tail, hhead, htail, hrow⟩ := h.row
    rw [h.fillGenRow_eq]
    exact ⟨_, _, length_toLE, length_toLE, rfl⟩
  · dsimp only
    rcases Nat.lt_succ_iff_lt_or_eq.1 hj with hj | rfl
    · have := Nat.mul_le_mul_left genDbRowSize (Nat.succ_le_of_lt hj)
      rw [Nat.mul_succ] at this
      rw [read_write_of_disjoint (by rw [h.length]; omega) (.inl (by omega)), h.rows j hj]
      congr 1
      omega
    · rw [read_write_self (by rw [h.length]; omega) hlen]
      congr 1
      omega
  · dsimp only
    rw [Nat.add_sub_cancel]
    rcases Nat.lt_succ_iff_lt_or_eq.1 hj with hj | rfl
    · have hne : t.key + 1 - (m + 1) + j ≠ t.key := by omega
      simp only [IndexMap.indexGet, IndexMap.indexPut, Function.update_of_ne hne]
      have := h.index j hj
      rwa [show t.key + 1 - (m + 1) + j = t.key - m + j by omega]
    · have heq : t.key + 1 - (j + 1) + j = t.key := by omega
      simp only [IndexMap.indexGet, IndexMap.indexPut, heq, Function.update_self]

/-- The page that `Serialize` makes of the buffer. -/
theorem serialized (h : FillInv lo hi m t index Stored) (hused : t.page.usedSize = 64 + genDbRowSize * m)
    (hid : t.page.pageId < 2 ^ 64) :
    ofLE (Buf.read 0 8 (Buf.read 0 myPageSize t.page.serialize.pageBuf)) = t.page.pageId ∧
      ∀ j < m, Buf.read (64 + genDbRowSize * j) genDbRowSize (Buf.read 0 myPageSize t.page.serialize.pageBuf) =
        genDbRow (t.key - m + j) := by
  have hlen : t.page.serialize.pageBuf.length = myPageSize := by
    rw [Page.length_serialize (by rw [h.length]; decide), h.length]
  have hlt : t.page.usedSize < 2 ^ 64 := by
    have := rows_fit h.le
    rw [hused]
    simp only [myPageSize] at this
    omega
  rw [read_length hlen]
  refine ⟨(Page.deserialize_serialize (rfl : t.page.serialize.pageBuf = _) hid hlt).1, fun j hj => ?_⟩
  rw [Page.read_serialize_of_le (by omega)]
  exact h.rows j hj

end FillInv

end Rows

/-! ### The run -/

section Run

variable {nt share : Nat} {s s' : GenSys nt} {i : Fin nt}

/-- The row of `key` is on disk for good. -/
def GenSys.Stored (s : GenSys nt) (key : Nat) : Prop :=
  ∃ item b, OnDisk s.index s.disk key item b ∧ s.Closed item.pageId

structure GenInv (share : Nat) (s : GenSys nt) : Prop where
  ids : IdsInv s
  threads : ∀ i : Fin nt, ∃ m, FillInv (share * i) (share * (i + 1)) m (s.threads i) s.index s.Stored

theorem GenSys.Stored.mono {key : Nat} (h : s.Stored key) (hindex : s'.index.indexGet key = s.index.indexGet key)
    (hclosed : ∀ p, s.Closed p → s'.Closed p ∧ s'.disk p = s.disk p) : s'.Stored key := by
  obtain ⟨item, b, hon, hp⟩ := h
  obtain ⟨hp', hdisk⟩ := hclosed _ hp
  exact ⟨item, b, ⟨hindex.trans hon.index, hdisk.trans hon.disk, hon.pageId, hon.row⟩, hp'⟩

/-- The shares of the threads do not overlap. -/
theorem share_ne {j : Fin nt} {key key' : Nat} (hne : j ≠ i) (hj : share * j ≤ key) (hj' : key < share * (j + 1))
    (hi : share * i ≤ key') (hi' : key' < share * (i + 1)) : key ≠ key' := by
  rcases Nat.lt_or_gt_of_ne (fun h => hne (Fin.ext h)) with h | h
  · have := Nat.mul_le_mul_left share (Nat.succ_le_of_lt h)
    rw [Nat.succ_eq_add_one] at this
    omega
  · have := Nat.mul_le_mul_left share (Nat.succ_le_of_lt h)
    rw [Nat.succ_eq_add_one] at this
    omega

namespace GenInv

theorem init (bufs : Fin nt → PageBuf) (pageVersion : Nat) (disk : Nat → Option Bytes) :
    GenInv share (.init share bufs pageVersion disk) := by
  refine ⟨⟨show (-1 : Int) ≤ -1 by decide, show (-1 : Int) < 2 ^ 63 by decide, nofun, nofun, nofun⟩, fun i => ⟨0, ?_⟩⟩
  refine ⟨Nat.le_refl _, Nat.mul_le_mul_left _ (Nat.le_succ _), Nat.zero_le _, fun _ => rfl, fun _ _ _ => rfl, nofun,
    nofun, nofun, rfl, (bufs i).length_eq, ⟨List.replicate 8 0, List.replicate 8 0, by simp, by simp, rfl⟩, nofun,
    nofun, fun key hlo hlt => ?_⟩
  have : key < share * i := hlt
  omega

/-- The page of thread `i` goes to disk, with all its rows. -/
theorem stored_of_write {m : Nat} (hids : IdsInv s)
    (h : FillInv (share * i) (share * (i + 1)) m (s.threads i) s.index s.Stored) (hpc : (s.threads i).pc = .head)
    (pc : GenPc) (hquiet : s.Quiet ((s.writePage (s.threads i).page).set i { s.threads i with
      pc := pc, page := (s.threads i).page.serialize })) (hf : pc.filling = false) :
    ∀ key, share * i ≤ key → key < (s.threads i).key →
      ((s.writePage (s.threads i).page).set i { s.threads i with
        pc := pc, page := (s.threads i).page.serialize }).Stored key := by
  intro key hlo hlt
  have hfill : (s.threads i).pc.filling = true := by rw [hpc]; rfl
  have hle := hids.le i hfill
  have hup := hids.upper
  have hused := h.used (by rw [hpc]; exact nofun) (by rw [hpc]; exact nofun) (by rw [hpc]; exact nofun)
  by_cases hm : key + m < (s.threads i).key
  · refine (h.stored key hlo hm).mono rfl fun p hp => ⟨hp.quiet hquiet, ?_⟩
    exact Function.update_of_ne (fun heq => hp.filling i hfill heq.symm) ..
  · obtain ⟨hid, hrows⟩ := h.serialized hused (by omega)
    obtain ⟨j, hj, rfl⟩ : ∃ j < m, key = (s.threads i).key - m + j :=
      ⟨key - ((s.threads i).key - m), by omega, by omega⟩
    refine ⟨⟨(s.threads i).page.pageId, 64 + genDbRowSize * j⟩, _,
      ⟨h.index j hj, Function.update_self .., hid, hrows j hj⟩, hquiet.closed hids hfill ?_⟩
    simp only [GenSys.set, Function.update_self, hf]

/-- The thread that makes the step. -/
theorem own_step (hg : GenInv share s) (hok : CountOk s i) (h : GenStep share s i s') :
    ∃ m, FillInv (share * i) (share * (i + 1)) m (s'.threads i) s'.index s'.Stored := by
  obtain ⟨m, ht⟩ := hg.threads i
  obtain ⟨-, hclosed⟩ := h.ids hg.ids hok
  have hused : (s.threads i).pc ≠ .turned ∧ (s.threads i).pc ≠ .counted ∧ (s.threads i).pc ≠ .done →
      (s.threads i).page.usedSize = 64 + genDbRowSize * m := fun ⟨h1, h2, h3⟩ => ht.used h1 h2 h3
  have hkeep : ∀ key, share * i ≤ key → key + m < (s.threads i).key →
      s'.index.indexGet key = s.index.indexGet key → s'.Stored key := fun key hlo hlt hindex =>
    (ht.stored key hlo hlt).mono hindex hclosed
  have hempty : (s.threads i).pc.filling = false → m = 0 := ht.empty
  have hlen : (s.threads i).page.serialize.pageBuf.length = myPageSize := by
    rw [Page.length_serialize (by rw [ht.length]; decide), ht.length]
  cases h with
  | @count pc hpc =>
    obtain rfl : m = 0 := hempty (by rcases hpc with ⟨h, -⟩ | ⟨h, -⟩ <;> rw [h] <;> rfl)
    refine ⟨0, ?_⟩
    simp only [GenSys.set, Function.update_self]
    refine ht.fresh rfl rfl ht.length ht.pageSize (fun _ h2 _ => ?_) (fun h => ht.more ?_) (fun h => ?_)
      fun key hlo hlt => hkeep key hlo hlt rfl
    all_goals rcases hpc with ⟨h', rfl⟩ | ⟨h', rfl⟩
    · exact hused (by rw [h']; exact ⟨nofun, nofun, nofun⟩)
    · exact absurd rfl h2
    · rcases h with h | h | h <;> cases h
    · exact .inl h'
    · cases h
    · cases h
  | first hpc =>
    obtain rfl : m = 0 := hempty (by rw [hpc]; rfl)
    refine ⟨0, ?_⟩
    simp only [GenSys.set, Function.update_self]
    exact ht.fresh rfl rfl ht.length ht.pageSize (fun _ _ _ => hused (by rw [hpc]; exact ⟨nofun, nofun, nofun⟩))
      (by simp) nofun fun key hlo hlt => hkeep key hlo hlt rfl
  | next hpc =>
    obtain rfl : m = 0 := hempty (by rw [hpc]; rfl)
    refine ⟨0, ?_⟩
    simp only [GenSys.set, Function.update_self]
    exact ht.fresh rfl rfl ht.length ht.pageSize (fun _ _ _ => rfl) (fun _ => ht.more (.inr (.inl hpc))) nofun
      fun key hlo hlt => hkeep key hlo hlt rfl
  | turn hpc hkey hfull =>
    have hst := stored_of_write hg.ids ht hpc .turned (.set rfl rfl nofun nofun) rfl
    refine ⟨0, ?_⟩
    simp only [GenSys.set, Function.update_self] at hst ⊢
    exact ht.fresh rfl rfl hlen ht.pageSize (fun h => absurd rfl h) (fun _ => hkey) nofun hst
  | enter hpc hkey hfits =>
    have hu := hused (by rw [hpc]; exact ⟨nofun, nofun, nofun⟩)
    rw [hu, page_full_iff ⟨by decide, by decide⟩ ht.le] at hfits
    refine ⟨m, ?_⟩
    have ht' : FillInv (share * i) (share * (i + 1)) m (s.threads i) s.index
        (s.set i { s.threads i with pc := .put }).Stored :=
      ht.mono (fun _ _ _ => rfl) fun key _ _ hst => hst.mono rfl hclosed
    simp only [GenSys.set, Function.update_self] at ht' ⊢
    exact { ht' with
      empty := nofun
      used := fun _ _ _ => hu
      more := fun _ => hkey
      room := fun _ => Nat.lt_of_le_of_ne ht.le hfits
      done := nofun }
  | put hpc hput =>
    refine ⟨m + 1, ?_⟩
    simp only [GenSys.set, Function.update_self]
    refine (ht.put hpc hput).mono (fun _ _ _ => rfl) fun key _ hlt hst => hst.mono ?_ hclosed
    have hne : key ≠ (s.threads i).key := by
      dsimp only at hlt
      omega
    exact Function.update_of_ne hne ..
  | last hpc hkey =>
    have hst := stored_of_write hg.ids ht hpc .done (.set rfl rfl nofun nofun) rfl
    refine ⟨0, ?_⟩
    simp only [GenSys.set, Function.update_self] at hst ⊢
    exact ht.fresh rfl rfl hlen ht.pageSize (fun _ _ h => absurd rfl h) (by simp)
      (fun _ => Nat.le_antisymm ht.last hkey) hst
  | empty hpc hkey husedLe =>
    have hu := hused (by rw [hpc]; exact ⟨nofun, nofun, nofun⟩)
    obtain rfl : m = 0 := by
      rw [hu, genDbRowSize] at husedLe
      omega
    refine ⟨0, ?_⟩
    simp only [GenSys.set, Function.update_self]
    exact ht.fresh rfl rfl ht.length ht.pageSize (fun _ _ h => absurd rfl h) (by simp)
      (fun _ => Nat.le_antisymm ht.last hkey) fun key hlo hlt => hkeep key hlo hlt rfl

theorem step (hg : GenInv share s) (hok : CountOk s i) (h : GenStep share s i s') : GenInv share s' := by
  obtain ⟨hids, hclosed⟩ := h.ids hg.ids hok
  refine ⟨hids, fun j => ?_⟩
  by_cases hne : j = i
  · rw [hne]
    exact hg.own_step hok h
  · obtain ⟨m, ht⟩ := hg.threads j
    obtain ⟨m', ht'⟩ := hg.threads i
    have hindex : ∀ key, share * j ≤ key → key < (s.threads j).key →
        s'.index.indexGet key = s.index.indexGet key := fun key hlo hlt =>
      h.indexGet_eq fun hpc => share_ne hne hlo (Nat.lt_of_lt_of_le hlt ht.last)
        (Nat.le_trans (Nat.le_add_right ..) ht'.first) (ht'.more (.inr (.inr hpc)))
    rw [h.others hne]
    exact ⟨m, ht.mono hindex fun key hlo hlt hst => hst.mono (hindex key hlo (by omega)) hclosed⟩

theorem reach {synthTableSize pageVersion : Nat} {bufs : Fin nt → PageBuf} {disk : Nat → Option Bytes}
    (h : (genLts nt synthTableSize bufs pageVersion disk).Reach CountOk s) : GenInv (synthTableSize / nt) s := by
  refine h.inv (fun s hs => ?_) fun s i s' hg hok hs => hg.step hok (.of_step hs)
  obtain rfl : s = _ := hs
  exact init bufs pageVersion disk

/-- No assertion fails: a thread that has not finished goes on. -/
theorem step_isSome (hg : GenInv share s) (hpc : (s.threads i).pc ≠ .done) : ∃ s', s.step share i = some s' := by
  obtain ⟨m, ht⟩ := hg.threads i
  unfold GenSys.step
  dsimp only
  split
  case h_3 hhead =>
    have hused := ht.used (by rw [hhead]; exact nofun) (by rw [hhead]; exact nofun) hpc
    split
    · split
      · -- a full page has all the rows that it can have
        rename_i hfull
        rw [hused, page_full_iff ⟨by decide, by decide⟩ ht.le] at hfull
        rw [if_pos (by rw [hused, hfull, Nat.add_comm, Nat.mul_comm]; rfl)]
        exact ⟨_, rfl⟩
      · exact ⟨_, rfl⟩
    · split <;> exact ⟨_, rfl⟩
  case h_6 hput =>
    rw [ht.pagePut_eq hput]
    exact ⟨_, rfl⟩
  case h_7 hdone => exact absurd hdone hpc
  all_goals exact ⟨_, rfl⟩

/-- At the end every key of the table is on disk. -/
theorem onDisk_of_done (hg : GenInv share s) (hdone : ∀ i, (s.threads i).pc = .done) {key : Nat}
    (hkey : key < share * nt) : ∃ item b, OnDisk s.index s.disk key item b := by
  have hshare : 0 < share := Nat.pos_of_mul_pos_right (Nat.lt_of_le_of_lt (Nat.zero_le _) hkey)
  let i : Fin nt := ⟨key / share, Nat.div_lt_of_lt_mul hkey⟩
  obtain ⟨m, ht⟩ := hg.threads i
  obtain rfl : m = 0 := ht.empty (by rw [hdone i]; rfl)
  have hlt : key < (s.threads i).key := by
    rw [ht.done (hdone i)]
    exact Nat.lt_mul_div_succ key hshare
  obtain ⟨item, b, hon, -⟩ := ht.stored key (Nat.mul_div_le ..) hlt
  exact ⟨item, b, hon⟩

/-- A page that a thread fills is never filled by another one. -/
theorem page_owner {synthTableSize pageVersion : Nat} {bufs : Fin nt → PageBuf} {disk : Nat → Option Bytes}
    (hg : GenInv (synthTableSize / nt) s) (hfill : (s.threads i).pc.filling = true) {evs : List (Fin nt)}
    (hrun : (genLts nt synthTableSize bufs pageVersion disk).runIf (fun s i => decide (CountOk s i)) s evs = some s')
    {j : Fin nt} (hj : (s'.threads j).pc.filling = true)
    (heq : (s'.threads j).page.pageId = (s.threads i).page.pageId) : j = i := by
  -- along the run the thread fills the page, or the page is closed
  have hkeep : GenInv (synthTableSize / nt) s' ∧ ((s'.threads i).pc.filling = true ∧
      (s'.threads i).page.pageId = (s.threads i).page.pageId ∨ s'.Closed (s.threads i).page.pageId) := by
    refine Lts.runIf_keeps (P := fun s' => GenInv (synthTableSize / nt) s' ∧ ((s'.threads i).pc.filling = true ∧
      (s'.threads i).page.pageId = (s.threads i).page.pageId ∨ s'.Closed (s.threads i).page.pageId)) ?_ hrun
      ⟨hg, .inl ⟨hfill, rfl⟩⟩
    rintro s₁ k s₂ hok hs ⟨hg₁, hpage⟩
    have hstep := GenStep.of_step hs
    obtain ⟨-, hclosed⟩ := hstep.ids hg₁.ids (of_decide_eq_true hok)
    refine ⟨hg₁.step (of_decide_eq_true hok) hstep, ?_⟩
    rcases hpage with ⟨hfill₁, hid⟩ | hpage
    · by_cases hk : i = k
      · subst hk
        rw [← hid]
        exact hstep.filling hg₁.ids hfill₁
      · rw [hstep.others hk]
        exact .inl ⟨hfill₁, hid⟩
    · exact .inr (hclosed _ hpage).1
  obtain ⟨hg', ⟨hfill', hid⟩ | hpage⟩ := hkeep
  · exact hg'.ids.distinct j i hj hfill' (heq.trans hid.symm)
  · exact absurd heq (hpage.filling j hj)

end GenInv

end Run

end Dbx1000
