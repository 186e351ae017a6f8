import Dbx1000.BufferCalls
import Dbx1000.Lib.Lts

/-!
# Concurrent calls of the plain `BufferGet` and `BufferPut`

The calls are cut where other threads can come in between: the assertion under `mutex_`, the index
lookup, the section under `mutex_`, the read of the disk, and the copy from or into the frame. As
`buffer.h` asks, calls of one page overlap only if they are all gets. Two things go wrong all the same:
a frame found by one call is flushed and given to another page before the copy, and two gets that miss
the same page both bring it in. `PoolOk` excludes these steps; every other interleaving is right.
The sections under `mutex_` are single steps, so that the mutex itself does not occur.
-/

namespace Dbx1000

inductive BufCall
  | get (pageId : Nat)
  | put (pageId : Nat) (buf : Bytes)
deriving DecidableEq, Repr

namespace BufCall

def pageId : BufCall → Nat
  | .get p | .put p _ => p

def isGet : BufCall → Bool
  | .get _ => true
  | .put _ _ => false

/-- The bytes given to a put fill the page. -/
def Fits (pageSize : Nat) : BufCall → Prop
  | .get _ => True
  | .put _ buf => buf.length = pageSize

instance (pageSize : Nat) (c : BufCall) : Decidable (c.Fits pageSize) :=
  match c with
  | .get _ => .isTrue trivial
  | .put _ buf => inferInstanceAs (Decidable (buf.length = pageSize))

end BufCall

/-- Where a thread is: in front of the assertion, the lookup, the section of a hit, the copy, the read of
the disk, the section of a miss. -/
inductive BufPc
  | idle
  | entry (c : BufCall)
  | lookup (c : BufCall)
  | found (c : BufCall) (a : Nat)
  | copy (c : BufCall) (a : Nat)
  | missed (p : Nat)
  | insert (c : BufCall) (buf : Bytes)
deriving DecidableEq, Repr

namespace BufPc

/-- The call under way. -/
def call? : BufPc → Option BufCall
  | .idle => none
  | .entry c | .lookup c | .found c _ | .copy c _ | .insert c _ => some c
  | .missed p => some (.get p)

/-- The frame that was looked up and is not copied yet. -/
def frame? : BufPc → Option Nat
  | .found _ a | .copy _ a => some a
  | _ => none

end BufPc

/-- A get that has returned: its page, its bytes and, for comparison, those of the last completed put. -/
structure GetResult where
  pageId : Nat
  bytes : Bytes
  lastPut : Bytes
deriving DecidableEq, Repr

structure PoolSys (nt : Nat) where
  pool : Buffer
  threads : Fin nt → BufPc
  lastPut : Nat → Bytes
  results : List GetResult

inductive PoolEv (nt : Nat)
  | start (t : Fin nt) (c : BufCall)
  | thread (t : Fin nt)
deriving DecidableEq, Repr

namespace PoolSys

variable {nt : Nat}

def goto (t : Fin nt) (pc : BufPc) (s : PoolSys nt) : PoolSys nt :=
  { s with threads := Function.update s.threads t pc }

/-- The last completed puts after `c` has returned. -/
def lastPutAfter (c : BufCall) (s : PoolSys nt) : Nat → Bytes :=
  match c with
  | .get _ => s.lastPut
  | .put p buf => Function.update s.lastPut p buf

/-- The call `c` of `t` returns and leaves the pool `b`; `bytes` is what a get returns. -/
def complete (t : Fin nt) (c : BufCall) (bytes : Bytes) (b : Buffer) (s : PoolSys nt) : PoolSys nt where
  pool := b
  threads := Function.update s.threads t .idle
  lastPut := s.lastPutAfter c
  results := match c with
    | .get p => ⟨p, bytes, s.lastPut p⟩ :: s.results
    | .put _ _ => s.results

/-- The lock table lets `c` run beside the calls under way. -/
def Admits (c : BufCall) (s : PoolSys nt) : Prop :=
  ∀ t, ∀ c' ∈ (s.threads t).call?, c'.pageId = c.pageId → c.isGet = true ∧ c'.isGet = true

instance (c : BufCall) (s : PoolSys nt) : Decidable (s.Admits c) :=
  inferInstanceAs (Decidable (∀ t, ∀ c' ∈ (s.threads t).call?, c'.pageId = c.pageId → c.isGet = true ∧ c'.isGet = true))

def threadStep (t : Fin nt) (s : PoolSys nt) : Option (PoolSys nt) :=
  match s.threads t with
  | .idle => none
  | .entry c => s.pool.assertSizes.map fun _ => s.goto t (.lookup c)
  | .lookup c =>
    match s.pool.indexGet c.pageId, c with
    | some a, c => some (s.goto t (.found c a))
    | none, .get p => some (s.goto t (.missed p))
    | none, .put p buf => some (s.goto t (.insert (.put p buf) buf))
  -- `page_list_->Get` under the mutex does nothing
  | .found c a => some (s.goto t (.copy c a))
  | .copy (.get p) a => some (s.complete t (.get p) (s.pool.copyOut a s.pool.pageSize) s.pool)
  | .copy (.put p buf) a => some (s.complete t (.put p buf) buf (s.pool.setPageBuf a buf s.pool.pageSize))
  | .missed p => some (s.goto t (.insert (.get p) (s.pool.readPage p)))
  | .insert c buf =>
    (s.pool.bringIn c.pageId buf s.pool.pageSize).map fun b => s.complete t c buf b

def step (s : PoolSys nt) : PoolEv nt → Option (PoolSys nt)
  | .start t c =>
    if s.threads t = .idle ∧ c.Fits s.pool.pageSize ∧ s.Admits c then some (s.goto t (.entry c)) else none
  | .thread t => s.threadStep t

end PoolSys

def poolLts (nt : Nat) : Lts (PoolSys nt) (PoolEv nt) where
  init s := ∃ totalSize pageSize disk b, (∀ p, (disk p).length = pageSize) ∧
    Buffer.new totalSize pageSize disk = some b ∧ s = ⟨b, fun _ => .idle, disk, []⟩
  step := PoolSys.step

/-! ### The invariant -/

/-- What a thread relies on in the pool `b` with the last puts `last`. -/
def PcOk (b : Buffer) (last : Nat → Bytes) : BufPc → Prop
  | .idle => True
  | .entry c | .lookup c => c.Fits b.pageSize
  | .found c a | .copy c a => c.Fits b.pageSize ∧ b.lruIndex c.pageId = some a
  | .missed p => b.disk p = last p
  | .insert (.get p) buf => buf = last p
  | .insert (.put p buf') buf => buf.length = b.pageSize ∧ buf = buf' ∧ b.lruIndex p = none

/-- Another thread has changed the pool: the frame that was looked up, the absence of a page that is
about to be put, and the disk below a miss are still as they were. -/
theorem PcOk.keep {b b' : Buffer} {last last' : Nat → Bytes} {pc : BufPc} (h : PcOk b last pc)
    (hsize : b'.pageSize = b.pageSize) (hlast : ∀ c ∈ pc.call?, last' c.pageId = last c.pageId)
    (hframe : ∀ a ∈ pc.frame?, ∀ p, b.lruIndex p = some a → b'.lruIndex p = some a)
    (hdisk : ∀ p, b.disk p = last p → b'.disk p = last p)
    (habsent : ∀ c ∈ pc.call?, c.isGet = false → b.lruIndex c.pageId = none → b'.lruIndex c.pageId = none) :
    PcOk b' last' pc := by
  cases pc with
  | idle => trivial
  | entry c => unfold PcOk; rw [hsize]; exact h
  | lookup c => unfold PcOk; rw [hsize]; exact h
  | found c a => unfold PcOk; rw [hsize]; exact ⟨h.1, hframe a rfl _ h.2⟩
  | copy c a => unfold PcOk; rw [hsize]; exact ⟨h.1, hframe a rfl _ h.2⟩
  | missed p => exact (hdisk p h).trans (hlast (.get p) rfl).symm
  | insert c buf =>
    cases c with
    | get p => exact Eq.trans h (hlast (.get p) rfl).symm
    | put p buf' => exact ⟨h.1.trans hsize.symm, h.2.1, habsent (.put p buf') rfl rfl h.2.2⟩

structure PoolInv {nt : Nat} (s : PoolSys nt) : Prop where
  ok : ∃ ps fs, BufOk s.pool ps fs
  content : ∀ p, s.pool.content p = s.lastPut p
  excl : ∀ t t', t ≠ t' → ∀ c ∈ (s.threads t).call?, ∀ c' ∈ (s.threads t').call?, c'.pageId = c.pageId →
    c.isGet = true ∧ c'.isGet = true
  thread : ∀ t, PcOk s.pool s.lastPut (s.threads t)
  results : ∀ r ∈ s.results, r.bytes = r.lastPut

namespace PoolInv

variable {nt : Nat} {s s' : PoolSys nt} {t : Fin nt} {c : BufCall} {pc : BufPc}

theorem excl_update (hi : PoolInv s) (hnew : ∀ t', t ≠ t' → ∀ c ∈ pc.call?, ∀ c' ∈ (s.threads t').call?,
    c'.pageId = c.pageId → c.isGet = true ∧ c'.isGet = true) (t₁ t₂ : Fin nt) (hne : t₁ ≠ t₂) :
    ∀ c ∈ (Function.update s.threads t pc t₁).call?, ∀ c' ∈ (Function.update s.threads t pc t₂).call?,
      c'.pageId = c.pageId → c.isGet = true ∧ c'.isGet = true := by
  by_cases h₁ : t₁ = t
  · rw [h₁] at hne ⊢
    rw [Function.update_self, Function.update_of_ne hne.symm]
    exact hnew t₂ hne
  rw [Function.update_of_ne h₁]
  by_cases h₂ : t₂ = t
  · rw [h₂] at hne ⊢
    rw [Function.update_self]
    exact fun c hc c' hc' hp => (hnew t₁ hne.symm c' hc' c hc hp.symm).symm
  · rw [Function.update_of_ne h₂]
    exact hi.excl t₁ t₂ hne

/-- A thread moves on and leaves the pool alone. -/
theorem goto (hi : PoolInv s) (hpc : PcOk s.pool s.lastPut pc) (hnew : ∀ t', t ≠ t' → ∀ c ∈ pc.call?,
    ∀ c' ∈ (s.threads t').call?, c'.pageId = c.pageId → c.isGet = true ∧ c'.isGet = true) :
    PoolInv (s.goto t pc) := by
  refine ⟨hi.ok, hi.content, hi.excl_update hnew, fun t' => ?_, hi.results⟩
  show PcOk s.pool s.lastPut (Function.update s.threads t pc t')
  by_cases h : t' = t
  · rw [h, Function.update_self]; exact hpc
  · rw [Function.update_of_ne h]; exact hi.thread t'

theorem goto_same (hi : PoolInv s) (hpc : PcOk s.pool s.lastPut pc) (hcall : pc.call? = (s.threads t).call?) :
    PoolInv (s.goto t pc) :=
  hi.goto hpc fun t' hne c hc => hi.excl t t' hne c (hcall ▸ hc)

/-- A put does not touch the pages of the calls beside it. -/
theorem lastPutAfter_other (hi : PoolInv s) (hc : c ∈ (s.threads t).call?) {t' : Fin nt} (hne : t' ≠ t) :
    ∀ c' ∈ (s.threads t').call?, s.lastPutAfter c c'.pageId = s.lastPut c'.pageId := by
  intro c' hc'
  cases c with
  | get p => rfl
  | put p buf =>
    refine Function.update_of_ne (fun hp => ?_) ..
    have := (hi.excl t t' hne.symm _ hc c' hc' hp).1
    cases this

/-- The call of `t` returns, leaving the pool `b`. -/
theorem complete (hi : PoolInv s) {b : Buffer} {bytes : Bytes} (hok : ∃ ps fs, BufOk b ps fs)
    (hcontent : ∀ p, b.content p = s.lastPutAfter c p)
    (hthread : ∀ t', t' ≠ t → PcOk b (s.lastPutAfter c) (s.threads t'))
    (hget : ∀ p, c = .get p → bytes = s.lastPut p) : PoolInv (s.complete t c bytes b) := by
  refine ⟨hok, hcontent, hi.excl_update nofun, fun t' => ?_, fun r hr => ?_⟩
  · show PcOk b (s.lastPutAfter c) (Function.update s.threads t .idle t')
    by_cases h : t' = t
    · rw [h, Function.update_self]; trivial
    · rw [Function.update_of_ne h]; exact hthread t' h
  · cases c with
    | get p =>
      rcases List.mem_cons.1 hr with rfl | hr
      · exact hget p rfl
      · exact hi.results r hr
    | put p buf => exact hi.results r hr

end PoolInv

/-! ### The steps -/

/-- A page is brought in without flushing a frame that another call has looked up, and for a get only if
it is still not in the index. -/
def PoolOk {nt : Nat} (s : PoolSys nt) : PoolEv nt → Prop
  | .start _ _ => True
  | .thread t =>
    match s.threads t with
    | .insert c _ => (c.isGet = true → s.pool.lruIndex c.pageId = none) ∧
        ∀ t', ∀ a ∈ (s.threads t').frame?, a ∉ s.pool.evicted
    | _ => True

/-- `FlushPageList` gives a frame free if `t` needs one of a full pool: a fifth of the frames is at least one. -/
def PoolSys.FindsFrame {nt : Nat} (s : PoolSys nt) (t : Fin nt) : Prop :=
  ∀ c buf, s.threads t = .insert c buf → s.pool.freeList.size = 0 → 5 ≤ s.pool.pageNum

theorem PoolSys.FindsFrame.of_step {nt : Nat} {s s' : PoolSys nt} {t : Fin nt} (h : s.step (.thread t) = some s') :
    s.FindsFrame t := by
  intro c buf hpc
  simp only [PoolSys.step, PoolSys.threadStep, hpc, Option.map_eq_some_iff] at h
  obtain ⟨b, hb, -⟩ := h
  exact Buffer.five_le_of_bringIn hb

instance {nt : Nat} (s : PoolSys nt) (e : PoolEv nt) : Decidable (PoolOk s e) :=
  match e with
  | .start _ _ => .isTrue trivial
  | .thread t =>
    match h : s.threads t with
    | .insert c _ => decidable_of_iff ((c.isGet = true → s.pool.lruIndex c.pageId = none) ∧
        ∀ t', ∀ a ∈ (s.threads t').frame?, a ∉ s.pool.evicted) (by simp only [PoolOk, h])
    | .idle | .entry _ | .lookup _ | .found _ _ | .copy _ _ | .missed _ => .isTrue (by simp only [PoolOk, h])

namespace PoolInv

variable {nt : Nat} {s s' : PoolSys nt} {t : Fin nt}

theorem copyPut (hi : PoolInv s) {p a : Nat} {buf : Bytes} (hpc : s.threads t = .copy (.put p buf) a) :
    PoolInv (s.complete t (.put p buf) buf (s.pool.setPageBuf a buf s.pool.pageSize)) := by
  obtain ⟨ps, fs, hok⟩ := hi.ok
  have hthread := hi.thread t
  rw [hpc] at hthread
  obtain ⟨hfits, hindex⟩ := hthread
  obtain ⟨hok', hcontent⟩ := hok.setPageBuf_spec hindex hfits
  have hcall : BufCall.put p buf ∈ (s.threads t).call? := by rw [hpc]; rfl
  refine hi.complete ⟨ps, fs, hok'⟩ (fun q => ?_) (fun t' hne => ?_) nofun
  · rw [hcontent q, hi.content q]
    exact (Function.update_apply ..).symm
  · exact (hi.thread t').keep rfl (hi.lastPutAfter_other hcall hne) (fun _ _ _ h => h) (fun _ h => h) fun _ _ _ h => h

theorem insert (hi : PoolInv s) {c : BufCall} {buf : Bytes} (hpc : s.threads t = .insert c buf)
    (hg : PoolOk s (.thread t)) (h5 : s.pool.freeList.size = 0 → 5 ≤ s.pool.pageNum) :
    ∃ b, s.pool.bringIn c.pageId buf s.pool.pageSize = some b ∧
      PoolInv (s.complete t c buf b) ∧ ∀ p, b.disk p = s.pool.disk p ∨ b.disk p = s.lastPut p := by
  obtain ⟨ps, fs, hok⟩ := hi.ok
  have hthread := hi.thread t
  rw [hpc] at hthread
  simp only [PoolOk, hpc] at hg
  have hcall : c ∈ (s.threads t).call? := by rw [hpc]; rfl
  -- the page is not in the pool, and its new bytes are those of the last put after the call
  have hnew : s.pool.lruIndex c.pageId = none ∧ buf.length = s.pool.pageSize ∧
      (∀ q, (if q = c.pageId then buf else s.lastPut q) = s.lastPutAfter c q) ∧
      ∀ p, c = .get p → buf = s.lastPut p := by
    cases c with
    | get p =>
      have hbuf : buf = s.lastPut p := hthread
      refine ⟨hg.1 rfl, ?_, fun q => ?_, fun q hq => by cases hq; exact hbuf⟩
      · rw [hbuf, ← hi.content p]; exact hok.content_length
      · show (if q = p then buf else s.lastPut q) = s.lastPut q
        split
        · rename_i hq; rw [hbuf, hq]
        · rfl
    | put p buf' =>
      obtain ⟨hlen, rfl, habsent⟩ := hthread
      exact ⟨habsent, hlen, fun q => (Function.update_apply ..).symm, nofun⟩
  obtain ⟨hp, hlen, hlast, hget⟩ := hnew
  obtain ⟨b, ps', fs', hb, hok', hin⟩ := hok.bringIn_spec h5 hp hlen
  refine ⟨b, hb, hi.complete ⟨ps', fs', hok'⟩ (fun q => ?_) (fun t' hne => ?_) hget, fun q => ?_⟩
  · rw [hin.content q, hi.content q]; exact hlast q
  · refine (hi.thread t').keep hin.config.1 (hi.lastPutAfter_other hcall hne) (fun a ha q hq => ?_) (fun q hq => ?_)
      fun c' hc' hput hq => ?_
    · obtain ⟨hmem, hid⟩ := (hok.index q a).1 hq
      obtain ⟨hmem', hid'⟩ := hin.kept a hmem (hg.2 t' a ha)
      exact (hok'.index q a).2 ⟨hmem', hid'.trans hid⟩
    · rcases hin.disk q with h | h
      · exact h.trans hq
      · exact h.trans (hi.content q)
    · refine ((hin.others _ fun h => ?_).absent hq).1
      rw [(hi.excl t t' hne.symm c hcall c' hc' h).2] at hput
      cases hput
  · rw [← hi.content q]; exact hin.disk q

/-- A thread with a call under way takes its next step: no assertion stops it. -/
theorem thread_step (hi : PoolInv s) (hg : PoolOk s (.thread t)) (h5 : s.FindsFrame t) (ht : s.threads t ≠ .idle) :
    ∃ s', s.threadStep t = some s' ∧ PoolInv s' ∧
      ∀ p, s'.pool.disk p = s.pool.disk p ∨ s'.pool.disk p = s.lastPut p := by
  obtain ⟨ps, fs, hok⟩ := hi.ok
  have hthread := hi.thread t
  unfold PoolSys.threadStep
  cases hpc : s.threads t <;> rw [hpc] at hthread
  case idle => exact absurd hpc ht
  case entry c =>
    refine ⟨s.goto t (.lookup c), ?_, hi.goto_same hthread (by rw [hpc]; rfl), fun _ => .inl rfl⟩
    simp only [hok.assertSizes, Option.map_some]
  case lookup c =>
    simp only [Buffer.indexGet]
    cases hx : s.pool.lruIndex c.pageId with
    | some a => exact ⟨_, rfl, hi.goto_same ⟨hthread, hx⟩ (by rw [hpc]; rfl), fun _ => .inl rfl⟩
    | none =>
      cases c with
      | get p =>
        refine ⟨_, rfl, hi.goto_same ?_ (by rw [hpc]; rfl), fun _ => .inl rfl⟩
        have := hi.content p
        rwa [Buffer.content, show s.pool.lruIndex p = none from hx] at this
      | put p buf => exact ⟨_, rfl, hi.goto_same ⟨hthread, rfl, hx⟩ (by rw [hpc]; rfl), fun _ => .inl rfl⟩
  case found c a => exact ⟨_, rfl, hi.goto_same hthread (by rw [hpc]; rfl), fun _ => .inl rfl⟩
  case copy c a =>
    cases c with
    | get p =>
      have hbytes : s.pool.copyOut a s.pool.pageSize = s.lastPut p := by
        have := hi.content p
        rw [Buffer.content, show s.pool.lruIndex p = some a from hthread.2] at this
        rw [Buffer.copyOut, List.take_of_length_le (hok.bufLen a).le]
        exact this
      exact ⟨_, rfl, hi.complete ⟨ps, fs, hok⟩ hi.content (fun t' _ => hi.thread t') fun q hq => by
        cases hq; exact hbytes, fun _ => .inl rfl⟩
    | put p buf => exact ⟨_, rfl, hi.copyPut hpc, fun _ => .inl rfl⟩
  case missed p => exact ⟨_, rfl, hi.goto_same hthread (by rw [hpc]; rfl), fun _ => .inl rfl⟩
  case insert c buf =>
    obtain ⟨b, hb, hinv, hdisk⟩ := hi.insert hpc hg (h5 c buf hpc)
    refine ⟨s.complete t c buf b, ?_, hinv, hdisk⟩
    simp only [hb, Option.map_some]

theorem step {e : PoolEv nt} (hi : PoolInv s) (hg : PoolOk s e) (h : s.step e = some s') :
    PoolInv s' ∧ ∀ p, s'.pool.disk p = s.pool.disk p ∨ s'.pool.disk p = s.lastPut p := by
  cases e with
  | start t c =>
    simp only [PoolSys.step] at h
    split at h
    · rename_i hc
      cases h
      refine ⟨hi.goto hc.2.1 fun t' _ c₁ hc₁ c₂ hc₂ => ?_, fun _ => .inl rfl⟩
      cases hc₁
      exact hc.2.2 t' c₂ hc₂
    · cases h
  | thread t =>
    have ht : s.threads t ≠ .idle := fun ht => by simp only [PoolSys.step, PoolSys.threadStep, ht] at h; cases h
    obtain ⟨s₁, h₁, hinv⟩ := hi.thread_step hg (.of_step h) ht
    have hs : s₁ = s' := Option.some.inj (h₁.symm.trans h)
    exact hs ▸ hinv

theorem reach (h : (poolLts nt).Reach PoolOk s) : PoolInv s := by
  refine h.inv ?_ fun _ _ _ hi hg hs => (hi.step hg hs).1
  rintro _ ⟨totalSize, pageSize, disk, b, hdisk, hnew, rfl⟩
  obtain ⟨b', hnew', hb⟩ := Holds.new hdisk
  rw [hnew] at hnew'
  cases hnew'
  exact ⟨hb.ok, hb.content, nofun, fun _ => trivial, nofun⟩

end PoolInv

/-- What the pool is expected to do for concurrent calls. -/
structure PoolSafe {nt : Nat} (s : PoolSys nt) : Prop where
  /-- Every get has returned the bytes of the last completed put. -/
  results : ∀ r ∈ s.results, r.bytes = r.lastPut
  /-- No page has two nodes. -/
  distinct : ((s.pool.pageList.toList s.pool.node).map fun a => (s.pool.node a).pageId).Nodup
  /-- The pool holds no older bytes, and what is only on the disk is not older either. -/
  pages : ∀ a ∈ s.pool.pageList.toList s.pool.node, (s.pool.node a).pageBuf = s.lastPut (s.pool.node a).pageId
  onDisk : ∀ p, s.pool.lruIndex p = none → s.pool.disk p = s.lastPut p

theorem PoolInv.poolSafe {nt : Nat} {s : PoolSys nt} (hi : PoolInv s) : PoolSafe s := by
  obtain ⟨ps, fs, hok⟩ := hi.ok
  refine ⟨hi.results, ?_, fun a ha => ?_, fun p hp => ?_⟩
  · rw [hok.pages.toList_eq]; exact hok.pageIds_nodup
  · rw [hok.pages.toList_eq] at ha
    rw [← hi.content, Buffer.content, (hok.index _ a).2 ⟨ha, rfl⟩]
  · rw [← hi.content, Buffer.content, hp]

/-- In every reached state; a further step writes to the disk only the bytes of the last completed put, and
no call under way is stopped by an assertion, unless it needs a frame of a full pool of less than five. -/
theorem poolSafe_of_poolOk {nt : Nat} {s : PoolSys nt} (h : (poolLts nt).Reach PoolOk s) :
    PoolSafe s ∧
    (∀ e s', PoolOk s e → s.step e = some s' →
      ∀ p, s'.pool.disk p = s.pool.disk p ∨ s'.pool.disk p = s.lastPut p) ∧
    ∀ t, s.threads t ≠ .idle → PoolOk s (.thread t) → s.FindsFrame t → (s.step (.thread t)).isSome := by
  have hi := PoolInv.reach h
  refine ⟨hi.poolSafe, fun e s' hg hs => (hi.step hg hs).2, fun t ht hg h5 => ?_⟩
  obtain ⟨s', hs', -⟩ := hi.thread_step hg h5 ht
  show (s.threadStep t).isSome
  rw [hs']
  rfl

/-! ### Runs of two threads in a pool of five frames -/

def smallPool : Option (PoolSys 2) :=
  (Buffer.new 5 1 fun _ => [0]).map fun b => ⟨b, fun _ => .idle, fun _ => [0], []⟩

theorem smallPool_init {s : PoolSys 2} (h : smallPool = some s) : (poolLts 2).init s := by
  obtain ⟨b, hb, rfl⟩ := Option.map_eq_some_iff.1 h
  exact ⟨5, 1, fun _ => [0], b, fun _ => rfl, hb, rfl⟩

/-- A put of a page that is not in the pool. -/
def putNew (t : Fin 2) (p : Nat) (v : UInt8) : List (PoolEv 2) :=
  [.start t (.put p [v]), .thread t, .thread t, .thread t]

/-- Pages 0 to 4 fill the pool; page 0 is the next one to be flushed. -/
def fillPool : List (PoolEv 2) := putNew 0 0 10 ++ putNew 0 1 11 ++ putNew 0 2 12 ++ putNew 0 3 13 ++ putNew 0 4 14

/-- Page 5 is brought in while a put of page 4 is between its lookup and its copy. -/
theorem poolSafe_beside_flush : ∃ s₀ s, smallPool = some s₀ ∧
    (poolLts 2).runIf (fun s e => decide (PoolOk s e)) s₀ (fillPool ++
      ([.start 0 (.put 4 [9]), .thread 0, .thread 0] : List (PoolEv 2)) ++ putNew 1 5 15 ++
      ([.thread 0, .thread 0] : List (PoolEv 2)) ++
      ([.start 1 (.get 4), .thread 1, .thread 1, .thread 1, .thread 1] : List (PoolEv 2))) = some s ∧
    s.results = [⟨4, [9], [9]⟩] ∧ PoolSafe s := by
  have hrun : (smallPool.any fun s₀ => ((poolLts 2).runIf (fun s e => decide (PoolOk s e)) s₀ (fillPool ++
      ([.start 0 (.put 4 [9]), .thread 0, .thread 0] : List (PoolEv 2)) ++ putNew 1 5 15 ++
      ([.thread 0, .thread 0] : List (PoolEv 2)) ++
      ([.start 1 (.get 4), .thread 1, .thread 1, .thread 1, .thread 1] : List (PoolEv 2)))).any
      fun s => decide (s.results = [⟨4, [9], [9]⟩])) = true := by decide +kernel
  simp only [Option.any_eq_true, decide_eq_true_eq] at hrun
  obtain ⟨s₀, h₀, s, hs, hres⟩ := hrun
  exact ⟨s₀, s, h₀, hs, hres,
    (poolSafe_of_poolOk (.runIf (fun _ _ => of_decide_eq_true) (.init (smallPool_init h₀)) hs)).1⟩

/-- A put loses its frame between lookup and copy, so that a later get returns older bytes; and two gets
that miss the same page give it two nodes. -/
theorem lost_put_and_two_nodes : ∃ s₀, smallPool = some s₀ ∧
    (∃ s, (poolLts 2).run s₀ (fillPool ++ ([.start 0 (.put 0 [9]), .thread 0, .thread 0] : List (PoolEv 2)) ++
      putNew 1 5 15 ++ ([.thread 0, .thread 0] : List (PoolEv 2)) ++
      ([.start 0 (.get 0), .thread 0, .thread 0, .thread 0, .thread 0] : List (PoolEv 2))) = some s ∧
      s.results = [⟨0, [10], [9]⟩] ∧ ¬ PoolSafe s) ∧
    ∃ s, (poolLts 2).run s₀ [.start 0 (.get 7), .thread 0, .thread 0, .thread 0, .start 1 (.get 7), .thread 1,
      .thread 1, .thread 1, .thread 0, .thread 1] = some s ∧
      (s.pool.pageList.toList s.pool.node).map (fun a => (s.pool.node a).pageId) = [7, 7] ∧ ¬ PoolSafe s := by
  have hrun : (smallPool.any fun s₀ =>
      (((poolLts 2).run s₀ (fillPool ++ ([.start 0 (.put 0 [9]), .thread 0, .thread 0] : List (PoolEv 2)) ++
        putNew 1 5 15 ++ ([.thread 0, .thread 0] : List (PoolEv 2)) ++
        ([.start 0 (.get 0), .thread 0, .thread 0, .thread 0, .thread 0] : List (PoolEv 2)))).any
        fun s => decide (s.results = [⟨0, [10], [9]⟩])) &&
      ((poolLts 2).run s₀ [.start 0 (.get 7), .thread 0, .thread 0, .thread 0, .start 1 (.get 7), .thread 1, .thread 1,
        .thread 1, .thread 0, .thread 1]).any
        fun s => decide ((s.pool.pageList.toList s.pool.node).map (fun a => (s.pool.node a).pageId) = [7, 7])) =
      true := by decide +kernel
  simp only [Option.any_eq_true, Bool.and_eq_true, decide_eq_true_eq] at hrun
  obtain ⟨s₀, h₀, ⟨s, hs, hres⟩, s', hs', hids⟩ := hrun
  refine ⟨s₀, h₀, ⟨s, hs, hres, fun hsafe => ?_⟩, s', hs', hids, fun hsafe => ?_⟩
  · have := hsafe.results ⟨0, [10], [9]⟩ (by rw [hres]; exact List.mem_singleton_self _)
    exact absurd this (by decide)
  · have := hsafe.distinct
    rw [hids] at this
    exact absurd this (by decide)

end Dbx1000
