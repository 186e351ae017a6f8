import Mathlib.Data.Fintype.Option
import Dbx1000.BufferCalls
import Dbx1000.Lib.Lts
import Dbx1000.Page

/-!
# Writing pages back to the shared disk

The instances and the global lock each have a buffer pool over one disk. A pool writes a page back when it
needs a frame or when its instance shuts down, and knows nothing of the lock table: pages that another
instance has taken over stay in the pool and are written back like all others. Transactions run one after
another; each is cut into its calls of the buffer. Beside the bytes, the model keeps the row writes they
contain (`poolWrites`, `diskWrites`). A page is safe as long as it is written back by its owner, or while
the disk has what the same pool wrote (or nobody wrote) before (`WriteBackOk`).
-/

namespace Dbx1000

/-- The bytes of a page after the row writes `ws`, the last one first. -/
def Layout.replay (L : Layout) (b : PageBuf) (ws : List (RowWrite L)) : PageBuf :=
  ws.foldr (fun w b => L.writeRow w.key w.row b) b

/-- A page on its way into the buffer of `ins`: the reply of `LockRemote`, or the copy of `WriteRow`. -/
structure Pending (ni : Nat) (L : Layout) where
  ins : Fin ni
  page : Nat
  buf : Bytes
  writes : List (RowWrite L)

/-- The pool `none` is the one of the global lock, which serves the pages that have no owner. `wroteBack` is
the pool that wrote the page last, and `final` what an instance had in its buffer when it shut down. -/
structure DiskSys (ni : Nat) (L : Layout) where
  pools : Option (Fin ni) → Buffer
  disk : Nat → Bytes
  writeInsId : Nat → Option (Fin ni)
  pending : Option (Pending ni L)
  down : Fin ni → Bool
  poolWrites : Option (Fin ni) → Nat → List (RowWrite L)
  diskWrites : Nat → List (RowWrite L)
  wroteBack : Nat → Option (Option (Fin ni))
  final : Fin ni → Nat → Bytes

inductive DiskEv (ni : Nat) (L : Layout)
  | read (c : Option (Fin ni)) (p : Nat)
  | lock (i : Fin ni) (p : Nat)
  | row (i : Fin ni) (w : RowWrite L)
  | store
  | shutdown (i : Fin ni)

namespace DiskSys

variable {ni : Nat} {L : Layout}

def pool (c : Option (Fin ni)) (s : DiskSys ni L) : Buffer := { s.pools c with disk := s.disk }

/-- The row writes in the bytes that `c` gets for `p`. -/
def contentWrites (c : Option (Fin ni)) (p : Nat) (s : DiskSys ni L) : List (RowWrite L) :=
  if (s.pools c).lruIndex p = none then s.diskWrites p else s.poolWrites c p

/-- A call has left the pool of `c` as `b`, with `ws` in its pages; what is gone from it is on the disk now. -/
def after (c : Option (Fin ni)) (b : Buffer) (ws : Nat → List (RowWrite L)) (s : DiskSys ni L) : DiskSys ni L :=
  { s with
    pools := Function.update s.pools c b
    disk := b.disk
    poolWrites := Function.update s.poolWrites c ws
    diskWrites := fun q =>
      if (s.pools c).lruIndex q ≠ none ∧ b.lruIndex q = none then s.poolWrites c q else s.diskWrites q
    wroteBack := fun q =>
      if (s.pools c).lruIndex q ≠ none ∧ b.lruIndex q = none then some c else s.wroteBack q }

def bufferGet (c : Option (Fin ni)) (p : Nat) (s : DiskSys ni L) : Option (Bytes × DiskSys ni L) := do
  let (buf, b) ← (s.pool c).bufferGet p myPageSize
  return (buf, s.after c b (Function.update (s.poolWrites c) p (s.contentWrites c p)))

def bufferPut (c : Option (Fin ni)) (p : Nat) (buf : Bytes) (ws : List (RowWrite L)) (s : DiskSys ni L) :
    Option (DiskSys ni L) := do
  let b ← (s.pool c).bufferPut p buf myPageSize
  return s.after c b (Function.update (s.poolWrites c) p ws)

/-- The pool is not deleted. -/
def up (s : DiskSys ni L) : Option (Fin ni) → Bool
  | none => true
  | some i => !s.down i

def step (s : DiskSys ni L) : DiskEv ni L → Option (DiskSys ni L)
  -- `BufferGet` of `ReadRow` or of the constructor
  | .read c p =>
    if s.pending.isNone ∧ s.up c then (s.bufferGet c p).map Prod.snd else none
  -- `LockRemote`: `LockInvalid` at the owner copies the page out of its buffer
  | .lock i p =>
    if s.pending.isNone ∧ (∀ j, s.down j = false) ∧ s.writeInsId p ≠ some i then do
      let (buf, s') ← s.bufferGet (s.writeInsId p) p
      return { s' with
        writeInsId := Function.update s.writeInsId p (some i)
        pending := some ⟨i, p, buf, s.contentWrites (s.writeInsId p) p⟩ }
    else none
  -- `WriteRow` up to `Serialize`, on a page whose mode is not O
  | .row i w =>
    if s.pending.isNone ∧ (∀ j, s.down j = false) ∧ s.writeInsId (L.pageOf w.key) = some i then do
      let (buf, s') ← s.bufferGet (some i) (L.pageOf w.key)
      return { s' with
        pending := some ⟨i, L.pageOf w.key, L.writeRowBytes w.key w.row buf,
          w :: s.contentWrites (some i) (L.pageOf w.key)⟩ }
    else none
  -- the `BufferPut` that follows
  | .store =>
    match s.pending with
    | some x => (s.bufferPut (some x.ins) x.page x.buf x.writes).map fun s' => { s' with pending := none }
    | none => none
  -- `~ManagerInstance`
  | .shutdown i =>
    if s.pending.isNone ∧ s.down i = false then do
      let b ← (s.pool (some i)).flushALl
      return { s.after (some i) b (s.poolWrites (some i)) with
        down := Function.update s.down i true
        final := Function.update s.final i (s.pool (some i)).content }
    else none

end DiskSys

def diskLts (ni : Nat) (L : Layout) (buf : Nat → PageBuf) : Lts (DiskSys ni L) (DiskEv ni L) where
  init s := (∀ c, ∃ totalSize, Buffer.new totalSize myPageSize (fun p => (buf p).bytes) = some (s.pools c)) ∧
    s.disk = (fun p => (buf p).bytes) ∧ s.writeInsId = (fun _ => none) ∧ s.pending = none ∧
    s.down = (fun _ => false) ∧ s.poolWrites = (fun _ _ => []) ∧ s.diskWrites = (fun _ => []) ∧
    s.wroteBack = (fun _ => none)
  step := DiskSys.step

/-- The pool and the pages that a step writes back: those in the frames that the buffer call frees, or all pages of
an instance that shuts down. -/
def DiskSys.writtenBack {ni : Nat} {L : Layout} (s : DiskSys ni L) : DiskEv ni L → Option (Fin ni) × List Nat
  | .read c p => (c, (s.pools c).evictedFor p)
  | .lock _ p => (s.writeInsId p, (s.pools (s.writeInsId p)).evictedFor p)
  | .row i w => (some i, (s.pools (some i)).evictedFor (L.pageOf w.key))
  | .store =>
    match s.pending with
    | some x => (some x.ins, (s.pools (some x.ins)).evictedFor x.page)
    | none => (none, [])
  | .shutdown i => (some i, (s.pools (some i)).pages)

/-- Every page that is about to be written back is owned by the pool that writes it, or was last written by that
pool or by none. -/
def WriteBackOk {ni : Nat} {L : Layout} (s : DiskSys ni L) (e : DiskEv ni L) : Prop :=
  ∀ q ∈ (s.writtenBack e).2,
    s.writeInsId q = (s.writtenBack e).1 ∨ s.wroteBack q = none ∨ s.wroteBack q = some (s.writtenBack e).1

instance {ni : Nat} {L : Layout} (s : DiskSys ni L) (e : DiskEv ni L) : Decidable (WriteBackOk s e) :=
  inferInstanceAs (Decidable (∀ q ∈ (s.writtenBack e).2,
    s.writeInsId q = (s.writtenBack e).1 ∨ s.wroteBack q = none ∨ s.wroteBack q = some (s.writtenBack e).1))

/-! ### One call -/

section Call

variable {ni : Nat} {L : Layout} {buf : Nat → PageBuf} {cur : Nat → List (RowWrite L)} {s : DiskSys ni L}
  {c : Option (Fin ni)} {b : Buffer} {ws : Nat → List (RowWrite L)} {q : Nat}

/-- The bytes in pools and disk are those of the row writes noted for them, and all of them are among the row
writes `cur` that the page has had; what a pool has written back is among those it still has. -/
structure StoreInv (buf : Nat → PageBuf) (cur : Nat → List (RowWrite L)) (s : DiskSys ni L) : Prop where
  ready : ∀ c, (s.pool c).Ready ∧ (s.pools c).pageSize = myPageSize
  pooled : ∀ c q v, (s.pools c).pooled q = some v →
    v = (L.replay (buf q) (s.poolWrites c q)).bytes ∧ s.poolWrites c q <:+ cur q
  disk : ∀ q, s.disk q = (L.replay (buf q) (s.diskWrites q)).bytes ∧ s.diskWrites q <:+ cur q
  fresh : ∀ q, s.wroteBack q = none → s.diskWrites q = []
  mine : ∀ c q, s.wroteBack q = some c → (s.pools c).pooled q ≠ none → s.diskWrites q <:+ s.poolWrites c q

/-- What a call at the pool of `c` does to the page `q`. -/
inductive PoolMove (buf : Nat → PageBuf) (cur : Nat → List (RowWrite L)) (s : DiskSys ni L) (c : Option (Fin ni))
    (b : Buffer) (ws : Nat → List (RowWrite L)) (q : Nat) : Prop
  | stays (h : Buffer.Stays q (s.pool c) b) (hws : ws q = s.poolWrites c q)
  | leaves (h : Buffer.Leaves q (s.pool c) b) (hsafe : s.diskWrites q <:+ s.poolWrites c q)
      (howner : s.writeInsId q = c → s.poolWrites c q = cur q)
  | comes (v : Bytes) (h : Buffer.Comes q v (s.pool c) b) (hv : v = (L.replay (buf q) (ws q)).bytes)
      (hcur : ws q <:+ cur q) (hmine : s.wroteBack q = some c → s.diskWrites q <:+ ws q)
      (howner : s.writeInsId q = c → ws q = cur q)

namespace DiskSys

theorem contentWrites_of_none (h : (s.pools c).pooled q = none) : s.contentWrites c q = s.diskWrites q :=
  if_pos (Buffer.pooled_eq_none.1 h)

theorem contentWrites_of_ne_none (h : (s.pools c).pooled q ≠ none) : s.contentWrites c q = s.poolWrites c q :=
  if_neg fun hn => h (Buffer.pooled_eq_none.2 hn)

theorem after_kept (h : b.pooled q = none → (s.pools c).pooled q = none) :
    (s.after c b ws).diskWrites q = s.diskWrites q ∧ (s.after c b ws).wroteBack q = s.wroteBack q := by
  have hnot : ¬ ((s.pools c).lruIndex q ≠ none ∧ b.lruIndex q = none) := fun hc =>
    hc.1 (Buffer.pooled_eq_none.1 (h (Buffer.pooled_eq_none.2 hc.2)))
  exact ⟨if_neg hnot, if_neg hnot⟩

theorem after_left (h : b.pooled q = none) (h' : (s.pools c).pooled q ≠ none) :
    (s.after c b ws).diskWrites q = s.poolWrites c q ∧ (s.after c b ws).wroteBack q = some c := by
  have hyes : (s.pools c).lruIndex q ≠ none ∧ b.lruIndex q = none :=
    ⟨fun hn => h' (Buffer.pooled_eq_none.2 hn), Buffer.pooled_eq_none.1 h⟩
  exact ⟨if_pos hyes, if_pos hyes⟩

/-- A page that the call does not write back. -/
theorem after_kept_of_ne (h : (s.after c b ws).wroteBack q ≠ some c) :
    (s.after c b ws).diskWrites q = s.diskWrites q ∧ (s.after c b ws).wroteBack q = s.wroteBack q := by
  refine after_kept fun hn => ?_
  by_contra hne
  exact h (after_left hn hne).2

theorem pools_after_self : (s.after c b ws).pools c = b := Function.update_self ..

theorem pools_after_of_ne {c' : Option (Fin ni)} (h : c' ≠ c) : (s.after c b ws).pools c' = s.pools c' :=
  Function.update_of_ne h ..

theorem poolWrites_after_self : (s.after c b ws).poolWrites c = ws := Function.update_self ..

theorem poolWrites_after_of_ne {c' : Option (Fin ni)} (h : c' ≠ c) :
    (s.after c b ws).poolWrites c' = s.poolWrites c' := Function.update_of_ne h ..

end DiskSys

open DiskSys

namespace PoolMove

/-- The row writes on the disk are still there after the call. -/
theorem diskWrites (h : PoolMove buf cur s c b ws q) : s.diskWrites q <:+ (s.after c b ws).diskWrites q := by
  cases h with
  | stays h => rw [(after_kept fun hn => h.1.symm.trans hn).1]
  | leaves h hsafe =>
    rw [(after_left h.1 h.ne_none).1]
    exact hsafe
  | comes v h => rw [(after_kept fun hn => absurd hn h.ne_none).1]

/-- The disk and its row writes after the call. -/
theorem disk (h : PoolMove buf cur s c b ws q) (hi : StoreInv buf cur s) :
    b.disk q = (L.replay (buf q) ((s.after c b ws).diskWrites q)).bytes ∧ (s.after c b ws).diskWrites q <:+ cur q := by
  cases h with
  | stays h =>
    rw [(after_kept fun hn => h.1.symm.trans hn).1, h.2]
    exact hi.disk q
  | leaves h =>
    rw [(after_left h.1 h.ne_none).1]
    exact hi.pooled c q _ h.2
  | comes v h =>
    rw [(after_kept fun hn => absurd hn h.ne_none).1, h.2]
    exact hi.disk q

/-- The pool of the call. -/
theorem pooled (h : PoolMove buf cur s c b ws q) (hi : StoreInv buf cur s) {v : Bytes} (hv : b.pooled q = some v) :
    v = (L.replay (buf q) (ws q)).bytes ∧ ws q <:+ cur q := by
  cases h with
  | stays h hws =>
    rw [hws]
    exact hi.pooled c q v (h.1.symm.trans hv)
  | leaves h =>
    rw [h.1] at hv
    cases hv
  | comes u h hu hcur =>
    rw [h.1] at hv
    cases hv
    exact ⟨hu, hcur⟩

theorem mine (h : PoolMove buf cur s c b ws q) (hi : StoreInv buf cur s) {c' : Option (Fin ni)}
    (hw : (s.after c b ws).wroteBack q = some c') (hp : ((s.after c b ws).pools c').pooled q ≠ none) :
    (s.after c b ws).diskWrites q <:+ (s.after c b ws).poolWrites c' q := by
  by_cases hc : c' = c
  · subst hc
    rw [pools_after_self] at hp
    rw [poolWrites_after_self]
    cases h with
    | stays h hws =>
      obtain ⟨h₁, h₂⟩ := after_kept fun hn => h.1.symm.trans hn
      rw [h₂] at hw
      rw [h₁, hws]
      exact hi.mine c' q hw fun hn => hp (h.1.trans hn)
    | leaves h => exact absurd h.1 hp
    | comes v h _ _ hmine =>
      obtain ⟨h₁, h₂⟩ := after_kept fun hn => absurd hn h.ne_none
      rw [h₂] at hw
      rw [h₁]
      exact hmine hw
  · rw [pools_after_of_ne hc] at hp
    rw [poolWrites_after_of_ne hc]
    obtain ⟨h₁, h₂⟩ := after_kept_of_ne fun he => hc (Option.some.inj (hw.symm.trans he))
    rw [h₂] at hw
    rw [h₁]
    exact hi.mine c' q hw hp

/-- The owner has all row writes of the page after the call if it had them before. -/
theorem home (h : PoolMove buf cur s c b ws q) (hi : StoreInv buf cur s)
    (hhome : s.contentWrites (s.writeInsId q) q = cur q) :
    (s.after c b ws).contentWrites (s.writeInsId q) q = cur q := by
  by_cases hc : s.writeInsId q = c
  · rw [hc] at hhome ⊢
    have hpool : ((s.after c b ws).pools c).pooled q = b.pooled q := by rw [pools_after_self]
    cases h with
    | stays h hws =>
      by_cases hn : (s.pools c).pooled q = none
      · rw [contentWrites_of_none hn] at hhome
        rw [contentWrites_of_none (hpool.trans (h.1.trans hn)), (after_kept fun _ => hn).1, hhome]
      · rw [contentWrites_of_ne_none hn] at hhome
        rw [contentWrites_of_ne_none fun hb => hn (h.1.symm.trans (hpool.symm.trans hb)), poolWrites_after_self, hws,
          hhome]
    | leaves h _ howner =>
      rw [contentWrites_of_none (hpool.trans h.1), (after_left h.1 h.ne_none).1]
      exact howner hc
    | comes v h _ _ _ howner =>
      rw [contentWrites_of_ne_none (by rw [hpool]; exact h.ne_none), poolWrites_after_self]
      exact howner hc
  · have hpool : ((s.after c b ws).pools (s.writeInsId q)).pooled q = (s.pools (s.writeInsId q)).pooled q := by
      rw [pools_after_of_ne hc]
    by_cases hn : (s.pools (s.writeInsId q)).pooled q = none
    · -- the owner relies on the disk: what another pool writes there is what is there already
      rw [contentWrites_of_none hn] at hhome
      rw [contentWrites_of_none (hpool.trans hn)]
      exact (h.disk hi).2.eq_of_length_le (by rw [← hhome]; exact h.diskWrites.length_le)
    · rw [contentWrites_of_ne_none hn] at hhome
      rw [contentWrites_of_ne_none (by rw [hpool]; exact hn), poolWrites_after_of_ne hc, hhome]

end PoolMove

namespace StoreInv

/-- A call at one pool. -/
theorem call (hi : StoreInv buf cur s) (hready : b.Ready) (hsize : b.pageSize = myPageSize)
    (hmove : ∀ q, PoolMove buf cur s c b ws q) : StoreInv buf cur (s.after c b ws) := by
  obtain ⟨ps, fs, hok⟩ := hready.ok
  refine ⟨fun c' => ?_, fun c' q v hv => ?_, fun q => (hmove q).disk hi, fun q hw => ?_,
    fun c' q hw hp => (hmove q).mine hi hw hp⟩
  · by_cases hc : c' = c
    · subst hc
      rw [DiskSys.pool, pools_after_self]
      exact ⟨hready, hsize⟩
    · rw [DiskSys.pool, pools_after_of_ne hc]
      refine ⟨(hi.ready c').1.setDisk fun p => ?_, (hi.ready c').2⟩
      exact (hok.diskLen p).trans (hsize.trans (hi.ready c').2.symm)
  · by_cases hc : c' = c
    · subst hc
      rw [pools_after_self] at hv
      rw [poolWrites_after_self]
      exact (hmove q).pooled hi hv
    · rw [pools_after_of_ne hc] at hv
      rw [poolWrites_after_of_ne hc]
      exact hi.pooled c' q v hv
  · obtain ⟨h₁, h₂⟩ := after_kept_of_ne fun he => Option.some_ne_none c (he.symm.trans hw)
    rw [h₂] at hw
    rw [h₁]
    exact hi.fresh q hw

theorem of_eq {s' : DiskSys ni L} (hi : StoreInv buf cur s) (hpools : s'.pools = s.pools) (hdisk : s'.disk = s.disk)
    (hpool : s'.poolWrites = s.poolWrites) (hwrites : s'.diskWrites = s.diskWrites)
    (hwrote : s'.wroteBack = s.wroteBack) :
    StoreInv buf cur s' := by
  constructor <;> simp only [DiskSys.pool, hpools, hdisk, hpool, hwrites, hwrote]
  · exact hi.ready
  · exact hi.pooled
  · exact hi.disk
  · exact hi.fresh
  · exact hi.mine

theorem mono {cur' : Nat → List (RowWrite L)} (hi : StoreInv buf cur s) (h : ∀ q, cur q <:+ cur' q) :
    StoreInv buf cur' s :=
  ⟨hi.ready, fun c q v hv => ⟨(hi.pooled c q v hv).1, (hi.pooled c q v hv).2.trans (h q)⟩,
    fun q => ⟨(hi.disk q).1, (hi.disk q).2.trans (h q)⟩, hi.fresh, hi.mine⟩

theorem content (hi : StoreInv buf cur s) (c : Option (Fin ni)) (p : Nat) :
    (s.pool c).content p = (L.replay (buf p) (s.contentWrites c p)).bytes ∧ s.contentWrites c p <:+ cur p := by
  cases hp : (s.pools c).pooled p with
  | none =>
    rw [contentWrites_of_none hp, Buffer.content_of_none (b := s.pool c) hp]
    exact hi.disk p
  | some v =>
    rw [contentWrites_of_ne_none (by simp [hp]), Buffer.content_of_pooled (b := s.pool c) hp]
    exact hi.pooled c p v hp

/-- The condition on the pages that leave the pool. -/
theorem leaves (hi : StoreInv buf cur s) (h : Buffer.Leaves q (s.pool c) b)
    (hhome : s.contentWrites (s.writeInsId q) q = cur q)
    (hok : s.writeInsId q = c ∨ s.wroteBack q = none ∨ s.wroteBack q = some c) : PoolMove buf cur s c b ws q := by
  have howner : s.writeInsId q = c → s.poolWrites c q = cur q := by
    intro hc
    rw [hc, contentWrites_of_ne_none h.ne_none] at hhome
    exact hhome
  refine .leaves h ?_ howner
  rcases hok with hc | hw | hw
  · rw [howner hc]
    exact (hi.disk q).2
  · rw [hi.fresh q hw]
    exact List.nil_suffix
  · exact hi.mine c q hw h.ne_none

end StoreInv

/-- The effect of a call at the pool of `c`. -/
structure CallSpec (buf : Nat → PageBuf) (cur : Nat → List (RowWrite L)) (c : Option (Fin ni)) (s s' : DiskSys ni L) :
    Prop where
  store : StoreInv buf cur s'
  grows : ∀ q, s.diskWrites q <:+ s'.diskWrites q
  home : ∀ q, s.contentWrites (s.writeInsId q) q = cur q → s'.contentWrites (s.writeInsId q) q = cur q
  others : ∀ c', c' ≠ c → s'.pools c' = s.pools c'
  frame : s'.writeInsId = s.writeInsId ∧ s'.pending = s.pending ∧ s'.down = s.down ∧ s'.final = s.final

theorem CallSpec.of_moves (hi : StoreInv buf cur s) (hready : b.Ready) (hsize : b.pageSize = myPageSize)
    (hmove : ∀ q, PoolMove buf cur s c b ws q) : CallSpec buf cur c s (s.after c b ws) :=
  ⟨hi.call hready hsize hmove, fun q => (hmove q).diskWrites, fun q => (hmove q).home hi, fun _ => pools_after_of_ne,
    rfl, rfl, rfl, rfl⟩

/-- The condition of `WriteBackOk` for the pages `qs` of the pool `c`. -/
def LeaveOk (c : Option (Fin ni)) (qs : List Nat) (s : DiskSys ni L) : Prop :=
  ∀ q ∈ qs, s.writeInsId q = c ∨ s.wroteBack q = none ∨ s.wroteBack q = some c

theorem StoreInv.bufferGet (hi : StoreInv buf cur s) {p : Nat} {bytes : Bytes} {s' : DiskSys ni L}
    (hhome : ∀ q, s.contentWrites (s.writeInsId q) q = cur q) (hget : s.bufferGet c p = some (bytes, s'))
    (hok : LeaveOk c ((s.pools c).evictedFor p) s) :
    bytes = (L.replay (buf p) (s.contentWrites c p)).bytes ∧ CallSpec buf cur c s s' := by
  simp only [DiskSys.bufferGet, Option.bind_eq_bind, Option.bind_eq_some_iff, Prod.exists] at hget
  obtain ⟨bytes', b, hb, hget⟩ := hget
  cases hget
  obtain ⟨hr, hsize⟩ := hi.ready c
  have hb' : (s.pool c).bufferGet p (s.pool c).pageSize = some (bytes, b) := by
    rw [show (s.pool c).pageSize = myPageSize from hsize]
    exact hb
  obtain ⟨hbytes, hready, hsize', hcomes, hothers⟩ := hr.bufferGet hb'
  obtain ⟨hcontent, hcur⟩ := hi.content c p
  rw [hbytes, hcontent]
  refine ⟨rfl, CallSpec.of_moves hi hready (hsize'.trans hsize) fun q => ?_⟩
  by_cases hq : q = p
  · subst hq
    have hself : Function.update (s.poolWrites c) q (s.contentWrites c q) q = s.contentWrites c q :=
      Function.update_self ..
    refine .comes _ hcomes ?_ ?_ (fun hw => ?_) fun hc => ?_ <;> rw [hself]
    · exact hcontent
    · exact hcur
    · by_cases hn : (s.pools c).pooled q = none
      · rw [contentWrites_of_none hn]
      · rw [contentWrites_of_ne_none hn]
        exact hi.mine c q hw hn
    · have h := hhome q
      rwa [hc] at h
  · rcases hothers q hq with h | h
    · exact .stays h (Function.update_of_ne hq ..)
    · exact hi.leaves h.1 (hhome q) (hok q h.2)

theorem StoreInv.bufferPut (hi : StoreInv buf cur s) {p : Nat} {bytes : Bytes} {s' : DiskSys ni L}
    (hhome : ∀ q, q ≠ p → s.contentWrites (s.writeInsId q) q = cur q)
    (hbytes : bytes = (L.replay (buf p) (cur p)).bytes)
    (hput : s.bufferPut c p bytes (cur p) = some s') (hok : LeaveOk c ((s.pools c).evictedFor p) s) :
    CallSpec buf cur c s s' ∧ s'.contentWrites c p = cur p := by
  simp only [DiskSys.bufferPut, Option.bind_eq_bind, Option.bind_eq_some_iff] at hput
  obtain ⟨b, hb, hput⟩ := hput
  cases hput
  obtain ⟨hr, hsize⟩ := hi.ready c
  have hb' : (s.pool c).bufferPut p bytes (s.pool c).pageSize = some b := by
    rw [show (s.pool c).pageSize = myPageSize from hsize]
    exact hb
  have hlen : bytes.length = (s.pool c).pageSize := by
    rw [hbytes, PageBuf.length_eq]
    exact hsize.symm
  obtain ⟨hready, hsize', hcomes, hothers⟩ := hr.bufferPut hlen hb'
  have hself : Function.update (s.poolWrites c) p (cur p) p = cur p := Function.update_self ..
  refine ⟨CallSpec.of_moves hi hready (hsize'.trans hsize) fun q => ?_, ?_⟩
  · by_cases hq : q = p
    · subst hq
      refine .comes _ hcomes ?_ ?_ (fun _ => ?_) fun _ => hself <;> rw [hself]
      · exact hbytes
      · exact (hi.disk q).2
    · rcases hothers q hq with h | h
      · exact .stays h (Function.update_of_ne hq ..)
      · exact hi.leaves h.1 (hhome q hq) (hok q h.2)
  · rw [contentWrites_of_ne_none (by rw [pools_after_self]; exact hcomes.ne_none), poolWrites_after_self, hself]

theorem StoreInv.flushALl (hi : StoreInv buf cur s) (hhome : ∀ q, s.contentWrites (s.writeInsId q) q = cur q)
    (hflush : (s.pool c).flushALl = some b) (hok : LeaveOk c (s.pools c).pages s) :
    CallSpec buf cur c s (s.after c b (s.poolWrites c)) ∧
      ∀ q, b.pooled q = none ∧ b.disk q = (s.pool c).content q := by
  obtain ⟨hr, hsize⟩ := hi.ready c
  obtain ⟨hready, hsize', hpages⟩ := hr.flushALl hflush
  refine ⟨CallSpec.of_moves hi hready (hsize'.trans hsize) fun q => ?_, fun q => ⟨(hpages q).1, (hpages q).2.1⟩⟩
  rcases (hpages q).2.2 with h | h
  · exact .stays h rfl
  · have hmem : q ∈ (s.pools c).pages := hr.mem_pages.2 fun hn => h.ne_none (Buffer.pooled_eq_none.2 hn)
    exact hi.leaves h (hhome q) (hok q hmem)

end Call

/-! ### Runs -/

section Run

variable {ni : Nat} {L : Layout} {buf : Nat → PageBuf} {cur : Nat → List (RowWrite L)} {s s' : DiskSys ni L}

open DiskSys

/-- `cur p` are the row writes of the page `p`: those in the copy on its way, or those its owner has. -/
structure DiskInv (buf : Nat → PageBuf) (cur : Nat → List (RowWrite L)) (s : DiskSys ni L) : Prop where
  store : StoreInv buf cur s
  home : ∀ q, (∀ x ∈ s.pending, x.page ≠ q) → s.contentWrites (s.writeInsId q) q = cur q
  pending : ∀ x ∈ s.pending, x.buf = (L.replay (buf x.page) x.writes).bytes ∧ cur x.page = x.writes ∧
    s.writeInsId x.page = some x.ins ∧ ∀ j, s.down j = false
  down : ∀ i, s.down i = true → ∀ q, (s.pools (some i)).pooled q = none
  final : ∀ i q, s.down i = true → s.writeInsId q = some i → s.disk q = s.final i q

namespace DiskInv

theorem init (h : (diskLts ni L buf).init s) : DiskInv buf (fun _ => []) s := by
  obtain ⟨hpools, hdisk, howner, hpending, hdown, hpw, hdw, hwb⟩ := h
  have hnew : ∀ c, (s.pools c).Ready ∧ (s.pools c).pageSize = myPageSize ∧ ∀ q, (s.pools c).pooled q = none := by
    intro c
    obtain ⟨totalSize, hc⟩ := hpools c
    exact Buffer.ready_of_new (fun p => (buf p).length_eq) hc
  refine ⟨⟨fun c => ⟨(hnew c).1.setDisk fun p => ?_, (hnew c).2.1⟩, fun c q v hv => ?_, fun q => ?_,
    fun q _ => by rw [hdw], fun c q hw => ?_⟩, fun q _ => ?_, fun x hx => ?_, fun i hi => ?_, fun i q hi => ?_⟩
  · rw [hdisk, (hnew c).2.1]
    exact (buf p).length_eq
  · rw [(hnew c).2.2 q] at hv
    cases hv
  · rw [hdisk, hdw]
    exact ⟨rfl, List.suffix_refl _⟩
  · rw [hwb] at hw
    cases hw
  · rw [contentWrites_of_none ((hnew _).2.2 q), hdw]
  · rw [hpending] at hx
    cases hx
  · rw [hdown] at hi
    cases hi
  · rw [hdown] at hi
    cases hi

theorem home_of_none (hi : DiskInv buf cur s) (h : s.pending = none) (q : Nat) :
    s.contentWrites (s.writeInsId q) q = cur q := hi.home q (by simp [h])

/-- All instances are up. -/
theorem of_up (hstore : StoreInv buf cur s) (hup : ∀ j, s.down j = false)
    (hhome : ∀ q, (∀ x ∈ s.pending, x.page ≠ q) → s.contentWrites (s.writeInsId q) q = cur q)
    (hpending : ∀ x ∈ s.pending, x.buf = (L.replay (buf x.page) x.writes).bytes ∧ cur x.page = x.writes ∧
      s.writeInsId x.page = some x.ins) : DiskInv buf cur s := by
  refine ⟨hstore, hhome, fun x hx => ?_, fun i hi => ?_, fun i q hi => ?_⟩
  · obtain ⟨h₁, h₂, h₃⟩ := hpending x hx
    exact ⟨h₁, h₂, h₃, hup⟩
  all_goals
    rw [hup i] at hi
    cases hi

/-- A call leaves the pages of the instances that are down alone. -/
theorem down_call {c : Option (Fin ni)} (hi : DiskInv buf cur s) (hc : CallSpec buf cur c s s') (hp : s.pending = none)
    (hup : ∀ i, s.down i = true → some i ≠ c) : (∀ i, s.down i = true → ∀ q, (s'.pools (some i)).pooled q = none) ∧
      ∀ i q, s.down i = true → s.writeInsId q = some i → s'.disk q = s.final i q := by
  have hnone : ∀ i, s.down i = true → ∀ q, (s'.pools (some i)).pooled q = none := by
    intro i hdown q
    rw [hc.others _ (hup i hdown)]
    exact hi.down i hdown q
  refine ⟨hnone, fun i q hdown howner => ?_⟩
  have hhome := hi.home_of_none hp q
  have hhome' := hc.home q hhome
  rw [howner, contentWrites_of_none (hi.down i hdown q)] at hhome
  rw [howner, contentWrites_of_none (hnone i hdown q)] at hhome'
  rw [← hi.final i q hdown howner, (hi.store.disk q).1, (hc.store.disk q).1, hhome, hhome']

/-- `BufferGet` outside a transaction. -/
theorem read {c : Option (Fin ni)} {p : Nat} (hi : DiskInv buf cur s) (hg : WriteBackOk s (.read c p))
    (hs : s.step (.read c p) = some s') : DiskInv buf cur s' ∧ ∀ q, s.diskWrites q <:+ s'.diskWrites q := by
  simp only [step] at hs
  split at hs
  · rename_i hcond
    have hp := Option.isNone_iff_eq_none.1 hcond.1
    obtain ⟨⟨bytes, s₁⟩, hget, rfl⟩ := Option.map_eq_some_iff.1 hs
    obtain ⟨-, hc⟩ := hi.store.bufferGet (hi.home_of_none hp) hget hg
    obtain ⟨howner, hpending, hdown, hfinal⟩ := hc.frame
    have hup : ∀ i, s.down i = true → some i ≠ c := by
      rintro i hdown rfl
      simp [up, hdown] at hcond
    obtain ⟨hnone, hfin⟩ := hi.down_call hc hp hup
    refine ⟨⟨hc.store, fun q _ => ?_, fun x hx => ?_, ?_, ?_⟩, hc.grows⟩
    · rw [howner]
      exact hc.home q (hi.home_of_none hp q)
    · rw [hpending, hp] at hx
      cases hx
    · rw [hdown]
      exact hnone
    · rw [hdown, howner, hfinal]
      exact hfin
  · cases hs

theorem lock {i : Fin ni} {p : Nat} (hi : DiskInv buf cur s) (hg : WriteBackOk s (.lock i p))
    (hs : s.step (.lock i p) = some s') : DiskInv buf cur s' ∧ ∀ q, s.diskWrites q <:+ s'.diskWrites q := by
  simp only [step] at hs
  split at hs
  · rename_i hcond
    have hp := Option.isNone_iff_eq_none.1 hcond.1
    simp only [Option.bind_eq_bind, Option.bind_eq_some_iff, Prod.exists] at hs
    obtain ⟨bytes, s₁, hget, hs⟩ := hs
    cases hs
    obtain ⟨hbytes, hc⟩ := hi.store.bufferGet (hi.home_of_none hp) hget hg
    obtain ⟨-, -, hdown, -⟩ := hc.frame
    refine ⟨.of_up (hc.store.of_eq rfl rfl rfl rfl rfl) (by rw [hdown]; exact hcond.2.1) (fun q hq => ?_)
      fun x hx => ?_, hc.grows⟩
    · have hne : q ≠ p := fun he => hq _ rfl he.symm
      show s₁.contentWrites (Function.update s.writeInsId p (some i) q) q = cur q
      rw [Function.update_of_ne hne]
      exact hc.home q (hi.home_of_none hp q)
    · cases hx
      exact ⟨hbytes, (hi.home_of_none hp p).symm, Function.update_self ..⟩
  · cases hs

theorem row {i : Fin ni} {w : RowWrite L} (hi : DiskInv buf cur s) (hg : WriteBackOk s (.row i w))
    (hs : s.step (.row i w) = some s') :
    DiskInv buf (Function.update cur (L.pageOf w.key) (w :: cur (L.pageOf w.key))) s' ∧
      ∀ q, s.diskWrites q <:+ s'.diskWrites q := by
  simp only [step] at hs
  split at hs
  · rename_i hcond
    have hp := Option.isNone_iff_eq_none.1 hcond.1
    simp only [Option.bind_eq_bind, Option.bind_eq_some_iff, Prod.exists] at hs
    obtain ⟨bytes, s₁, hget, hs⟩ := hs
    cases hs
    obtain ⟨hbytes, hc⟩ := hi.store.bufferGet (hi.home_of_none hp) hget hg
    obtain ⟨howner, -, hdown, -⟩ := hc.frame
    have hhome := hi.home_of_none hp (L.pageOf w.key)
    rw [hcond.2.2] at hhome
    have hgrow : ∀ q, cur q <:+ Function.update cur (L.pageOf w.key) (w :: cur (L.pageOf w.key)) q := by
      intro q
      by_cases hq : q = L.pageOf w.key
      · rw [hq, Function.update_self]
        exact List.suffix_cons ..
      · rw [Function.update_of_ne hq]
    refine ⟨.of_up ((hc.store.mono hgrow).of_eq rfl rfl rfl rfl rfl) (by rw [hdown]; exact hcond.2.1) (fun q hq => ?_)
      fun x hx => ?_, hc.grows⟩
    · have hne : q ≠ L.pageOf w.key := fun he => hq _ rfl he.symm
      rw [Function.update_of_ne hne]
      show s₁.contentWrites (s₁.writeInsId q) q = cur q
      rw [howner]
      exact hc.home q (hi.home_of_none hp q)
    · cases hx
      refine ⟨?_, ?_, by rw [howner]; exact hcond.2.2⟩
      · rw [hbytes]
        rfl
      · rw [Function.update_self, hhome]
  · cases hs

theorem store_step (hi : DiskInv buf cur s) (hg : WriteBackOk s .store) (hs : s.step .store = some s') :
    DiskInv buf cur s' ∧ ∀ q, s.diskWrites q <:+ s'.diskWrites q := by
  simp only [step] at hs
  split at hs
  · rename_i x hx
    obtain ⟨s₁, hput, rfl⟩ := Option.map_eq_some_iff.1 hs
    obtain ⟨hbuf, hcur, howner, hup⟩ := hi.pending x hx
    rw [← hcur] at hput hbuf
    have hhome : ∀ q, q ≠ x.page → s.contentWrites (s.writeInsId q) q = cur q := by
      intro q hq
      refine hi.home q fun y hy => ?_
      rw [hx] at hy
      cases hy
      exact Ne.symm hq
    have hok : LeaveOk (some x.ins) ((s.pools (some x.ins)).evictedFor x.page) s := by
      simp only [WriteBackOk, writtenBack, hx] at hg
      exact hg
    obtain ⟨hc, hself⟩ := hi.store.bufferPut hhome hbuf hput hok
    obtain ⟨howner', -, hdown, -⟩ := hc.frame
    refine ⟨.of_up (hc.store.of_eq rfl rfl rfl rfl rfl) (by rw [hdown]; exact hup) (fun q _ => ?_) nofun, hc.grows⟩
    show s₁.contentWrites (s₁.writeInsId q) q = cur q
    rw [howner']
    by_cases hq : q = x.page
    · rw [hq, howner]
      exact hself
    · exact hc.home q (hhome q hq)
  · cases hs

theorem shutdown {i : Fin ni} (hi : DiskInv buf cur s) (hg : WriteBackOk s (.shutdown i))
    (hs : s.step (.shutdown i) = some s') : DiskInv buf cur s' ∧ ∀ q, s.diskWrites q <:+ s'.diskWrites q := by
  simp only [step] at hs
  split at hs
  · rename_i hcond
    have hp := Option.isNone_iff_eq_none.1 hcond.1
    simp only [Option.bind_eq_bind, Option.bind_eq_some_iff] at hs
    obtain ⟨b, hflush, hs⟩ := hs
    cases hs
    obtain ⟨hc, hempty⟩ := hi.store.flushALl (hi.home_of_none hp) hflush hg
    have hup : ∀ j, s.down j = true → some j ≠ some i := by
      rintro j hj he
      cases he
      rw [hcond.2] at hj
      cases hj
    obtain ⟨hnone, hfin⟩ := hi.down_call hc hp hup
    refine ⟨⟨hc.store.of_eq rfl rfl rfl rfl rfl, fun q _ => hc.home q (hi.home_of_none hp q), fun x hx => ?_,
      fun j hj q => ?_, fun j q hj howner => ?_⟩, hc.grows⟩
    · rw [show s.pending = some x from hx] at hp
      cases hp
    · by_cases hji : j = i
      · have hpool : (s.after (some i) b (s.poolWrites (some i))).pools (some i) = b := pools_after_self
        rw [hji]
        show ((s.after (some i) b (s.poolWrites (some i))).pools (some i)).pooled q = none
        rw [hpool]
        exact (hempty q).1
      · exact hnone j (by simpa [hji] using hj) q
    · by_cases hji : j = i
      · rw [hji]
        exact (hempty q).2.trans (congrFun (Function.update_self ..) q).symm
      · refine (hfin j q (by simpa [hji] using hj) howner).trans ?_
        exact (congrFun (Function.update_of_ne hji ..) q).symm
  · cases hs

theorem step {e : DiskEv ni L} (hi : DiskInv buf cur s) (hg : WriteBackOk s e) (hs : s.step e = some s') :
    (∃ cur', DiskInv buf cur' s') ∧ ∀ q, s.diskWrites q <:+ s'.diskWrites q := by
  cases e with
  | read c p => exact (hi.read hg hs).imp_left fun h => ⟨_, h⟩
  | lock i p => exact (hi.lock hg hs).imp_left fun h => ⟨_, h⟩
  | row i w => exact (hi.row hg hs).imp_left fun h => ⟨_, h⟩
  | store => exact (hi.store_step hg hs).imp_left fun h => ⟨_, h⟩
  | shutdown i => exact (hi.shutdown hg hs).imp_left fun h => ⟨_, h⟩

theorem reach (h : (diskLts ni L buf).Reach WriteBackOk s) : ∃ cur, DiskInv buf cur s := by
  refine Lts.Reach.inv (P := fun s => ∃ cur, DiskInv buf cur s) ?_ ?_ h
  · intro s hs
    exact ⟨_, init hs⟩
  · rintro s e s' ⟨cur, hi⟩ hg hs
    exact (hi.step hg hs).1

end DiskInv

end Run

/-! ### Two instances that have written the same page -/

/-- Pools of five frames over a disk of zeros. -/
def emptyPools : Option (DiskSys 2 pairLayout) :=
  (Buffer.new (5 * myPageSize) myPageSize fun _ => (fillPage 0).bytes).map fun b =>
    ⟨fun _ => b, fun _ => (fillPage 0).bytes, fun _ => none, none, fun _ => false, fun _ _ => [], fun _ => [],
      fun _ => none, fun _ _ => []⟩

theorem emptyPools_init {s : DiskSys 2 pairLayout} (h : emptyPools = some s) :
    (diskLts 2 pairLayout fun _ => fillPage 0).init s := by
  obtain ⟨b, hb, rfl⟩ := Option.map_eq_some_iff.1 h
  exact ⟨fun _ => ⟨_, hb⟩, rfl, rfl, rfl, rfl, rfl, rfl, rfl⟩

/-- Instance `i` fetches page 0 and writes the row `w`. -/
def fetchAndWrite (i : Fin 2) (w : RowWrite pairLayout) : List (DiskEv 2 pairLayout) :=
  [.lock i 0, .store, .row i w, .store]

/-- Instance `i` writes row 0 of page 0, then instance `j` takes the page over and writes row 1. -/
def bothWrite (i j : Fin 2) : List (DiskEv 2 pairLayout) :=
  fetchAndWrite i ⟨0, fillRow 0 7⟩ ++ fetchAndWrite j ⟨1, fillRow 1 8⟩

end Dbx1000
