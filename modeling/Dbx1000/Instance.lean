import Dbx1000.RowHandler
import Dbx1000.RowReload
import Dbx1000.TxnSerial

/-!
# An instance from its transactions down to the file

The transactions of one instance on a table that stands in the pages of a file. `Row_mvcc` reads a row by
`SnapShotReadRow` whenever it has no latest row in memory, and writes it by `WriteRow` when a transaction commits it;
both go through the buffer pool, which reads pages from the file and writes them back when it runs out of frames. The
transactions interleave between any two calls of `access`, and the calls of the pool that one `access` makes are not
interrupted.

Every call of the pool returns and gives `Row_mvcc` the bytes that it would have kept in memory, and after `FlushALl`
the file has the result of the transactions, one after the other in the order of their timestamps
(`file_has_serial_result`).
-/

namespace Dbx1000

open Buf RowMvcc

instance {n : Nat} : Inhabited (Tuple n) := ⟨⟨List.replicate n 0, List.length_replicate⟩⟩

/-- A table of `rows` rows, and the pages of its file. -/
structure Table where
  layout : Layout
  rows : Nat
  rowSize : Nat
  size_eq : ∀ key, layout.size key = rowSize
  file : Nat → PageBuf
  pageId : ∀ key < rows, ofLE (read 0 8 (file (layout.pageOf key)).bytes) = layout.pageOf key
  key : ∀ key < rows, rowKey (layout.rowAt key (file (layout.pageOf key))) = key

namespace Table

variable (T : Table)

abbrev Row : Type := Tuple T.rowSize

def row (key : Nat) (b : PageBuf) : T.Row :=
  ⟨T.layout.rowAt key b, by
    rw [Layout.rowAt, length_read, T.size_eq]
    rw [b.length_eq]
    exact T.layout.fits key⟩

def initial (key : Nat) : T.Row := T.row key (T.file (T.layout.pageOf key))

/-- A row as one of the size that the layout has for `key`. -/
def place (key : Nat) (v : T.Row) : T.layout.Row key := ⟨v.bytes, v.length_eq.trans (T.size_eq key).symm⟩

end Table

/-! ### The calls on the pool -/

/-- The row that the step `a` gives to `WriteRow`. -/
def RowSt.pageWrite {V : Type} (st : RowSt V) : RowEv V → Option V
  | .write ts _ =>
    match st.phase ts with
    | .granted r => st.row.mem r
    | _ => none
  | _ => none

/-- The call of `access` that the event makes, with its key. -/
def TxnSys.call {V : Type} (sys : TxnSys V) : TxnEv V → Option (Nat × RowEv V)
  | .getRow ts key type minTs => some (key, type.event ts minTs)
  | .cleanup ts minTs =>
    match (sys.txns ts).status, (sys.txns ts).accesses with
    | .cleaning rc, a :: _ =>
      match a.type.returned rc with
      | .xp => some (a.key, .undo ts minTs)
      | .wr => some (a.key, .write ts minTs)
      | _ => none
    | _, _ => none
  | .start _ | .resume _ | .modify .. | .finish _ => none

namespace RowStore

variable (T : Table)

/-- `GetLatestRow` on the store `u`: the row is read, and it is the one that `u` takes. -/
def load (key : Nat) (s : RowStore) (u : RowMvcc T.Row) : Option RowStore := do
  let (row, s) ← s.snapShotReadRow T.layout key
  if row = u.page.bytes then some s else none

/-- A committed row is written. -/
def commitRow (key : Nat) (s : RowStore) : Option T.Row → Option RowStore
  | some v => s.writeRow T.layout key (T.place key v)
  | none => some s

/-- The calls that the step `a` on the row `st` of `key` makes. -/
def serve (g key : Nat) (st : RowSt T.Row) (a : RowEv T.Row) (s : RowStore) : Option RowStore := do
  let s ← s.commitRow T key (st.pageWrite a)
  (st.loads g a).foldlM (load T key) s

end RowStore

structure InstanceRun (T : Table) where
  run : MvccRun T.Row
  store : RowStore

namespace InstanceRun

variable {T : Table}

/-- The store after the event. -/
def storeCalls (g : Nat) (s : InstanceRun T) (e : TxnEv T.Row) : Option RowStore :=
  match s.run.sys.call e with
  | some (key, a) => s.store.serve T g key (s.run.sys.rows key) a
  | none => some s.store

def step (g : Nat) (s : InstanceRun T) (e : TxnEv T.Row) : Option (InstanceRun T) := do
  let run ← s.run.step g e
  let store ← s.storeCalls g e
  return ⟨run, store⟩

end InstanceRun

/-- The pool is new, and the instance has all pages of the table. -/
def instanceLts (T : Table) (gThreadCnt totalSize : Nat) : Lts (InstanceRun T) (TxnEv T.Row) where
  init s := s.run = .init T.initial ∧ Buffer.new totalSize myPageSize (fun p => (T.file p).bytes) = some s.store.pool ∧
    ∀ p, (s.store.lockTable p).Unlocked
  step := InstanceRun.step gThreadCnt

/-- A transaction asks for rows of the table and does not change the key of a row. -/
def TableOk (T : Table) (r : MvccRun T.Row) (e : TxnEv T.Row) : Prop :=
  MvccOk r e ∧ match e with
    | .getRow _ k _ _ => k < T.rows
    | .modify _ k v => rowKey v.bytes = k
    | _ => True

instance (T : Table) (r : MvccRun T.Row) (e : TxnEv T.Row) : Decidable (TableOk T r e) :=
  match e with
  | .getRow _ k _ _ => inferInstanceAs (Decidable (_ ∧ k < T.rows))
  | .modify _ k v => inferInstanceAs (Decidable (_ ∧ rowKey v.bytes = k))
  | .start _ | .resume _ | .finish _ | .cleanup .. => inferInstanceAs (Decidable (_ ∧ True))

/-! ### What a step takes from the page and leaves in it -/

section Row

variable {V : Type} [Inhabited V] {g : Nat} {v₀ : V} {st st' : RowSt V} {a : RowEv V}

omit [Inhabited V] in
/-- `GetLatestRow` takes the bytes of the page. -/
theorem RowMvcc.LoadsNewest.page_eq {h : List (Nat × V)} {u : RowMvcc V} (hl : LoadsNewest v₀ h u) :
    u.page = lastValue v₀ h := by
  obtain ⟨-, u', r, hu, hr, hmem⟩ := hl
  unfold getLatestRow at hu
  split at hu
  · cases hu
    cases hr
    have hmem : Function.update u.mem u.nextRow (some u.page) u.nextRow = some (lastValue v₀ h) := hmem
    rw [Function.update_self] at hmem
    exact Option.some.inj hmem
  · cases hu

namespace RowInv

theorem page_step (hi : RowInv g v₀ st) (h : st.step g a = some st') :
    st'.row.page = (st.pageWrite a).getD st.row.page := by
  rw [(hi.step h).page_eq, RowInv.step_commits h, hi.page_eq]
  cases RowStep.of_step h with
  | write hg hv => simp [RowSt.committed, RowSt.pageWrite, hg, hv, lastValue]
  | _ => rfl

/-- Every load of the step takes what the page has after it. -/
theorem load_page (hi : RowInv g v₀ st) (h : st.step g a = some st') {u : RowMvcc V} (hu : u ∈ st.loads g a) :
    u.page = st'.row.page := by
  rw [(hi.loads a u hu).page_eq, (hi.step h).page_eq, RowInv.step_commits h]

end RowInv

end Row

/-- The row in the page and the one that a transaction may write begin with the key. -/
structure KeyRow {n : Nat} (key : Nat) (st : RowSt (Tuple n)) : Prop where
  page : rowKey st.row.page.bytes = key
  granted : ∀ t r v, st.phase t = .granted r → st.row.mem r = some v → rowKey v.bytes = key

theorem KeyRow.step {n g key : Nat} {v₀ : Tuple n} {st st' : RowSt (Tuple n)} {a : RowEv (Tuple n)} (hk : KeyRow key st)
    (hi : RowInv g v₀ st) (h : st.step g a = some st') (hmod : ∀ t v, a = .modify t v → rowKey v.bytes = key) :
    KeyRow key st' := by
  have hpage : rowKey st'.row.page.bytes = key := by
    rw [hi.page_step h]
    cases RowStep.of_step h with
    | write hg hv =>
      simp only [RowSt.pageWrite, hg, hv, Option.getD_some]
      exact hk.granted _ _ _ hg hv
    | _ => exact hk.page
  refine ⟨hpage, fun t r v hg hv => ?_⟩
  rcases hi.step_granted h hg with ⟨hold, -, ⟨w, ha, hw⟩ | ⟨-, hmem⟩⟩ | ⟨-, hmem, -⟩
  · rw [hw] at hv
    cases hv
    exact hmod t _ ha
  · exact hk.granted t r v hold (hmem ▸ hv)
  · rw [hmem] at hv
    cases hv
    exact hpage

/-! ### The rows in the store -/

/-- The store has the row `v key` of every key, and the pages of the table know their ids. -/
def RowsInv (T : Table) (pageNum : Nat) (v : Nat → T.Row) (s : RowStore) : Prop :=
  ∃ m : Nat → PageBuf, s.Has pageNum m ∧ (∀ key, T.layout.rowAt key (m (T.layout.pageOf key)) = (v key).bytes) ∧
    ∀ key < T.rows, ofLE (read 0 8 (m (T.layout.pageOf key)).bytes) = T.layout.pageOf key

namespace RowsInv

variable {T : Table} {pageNum key : Nat} {v : Nat → T.Row} {s : RowStore}

theorem writeRow (h : RowsInv T pageNum v s) (h5 : 5 ≤ pageNum) (w : T.Row) :
    ∃ s', s.writeRow T.layout key (T.place key w) = some s' ∧ RowsInv T pageNum (Function.update v key w) s' := by
  obtain ⟨m, hm, hrow, hid⟩ := h
  obtain ⟨s', hs', hm'⟩ := hm.writeRow h5 (T.place key w)
  refine ⟨s', hs', _, hm', fun key' => ?_, fun key' hlt => ?_⟩
  · by_cases hk : key' = key
    · subst hk
      rw [Function.update_self, Layout.rowAt_writeRow, Function.update_self]
      rfl
    · rw [Function.update_of_ne hk]
      by_cases hp : T.layout.pageOf key' = T.layout.pageOf key
      · rw [hp, Function.update_self, Layout.rowAt_writeRow_of_ne hk hp, ← hp]
        exact hrow key'
      · rw [Function.update_of_ne hp]
        exact hrow key'
  · by_cases hp : T.layout.pageOf key' = T.layout.pageOf key
    · have hloc := T.layout.header key
      rw [hp, Function.update_self, Layout.writeRow_bytes, read_write_of_disjoint Layout.location_le
        (.inl (by rw [Layout.location]; omega)), ← hp]
      exact hid key' hlt
    · rw [Function.update_of_ne hp]
      exact hid key' hlt

theorem load (h : RowsInv T pageNum v s) (h5 : 5 ≤ pageNum) (hlt : key < T.rows) (hkey : rowKey (v key).bytes = key)
    {u : RowMvcc T.Row} (hu : u.page = v key) : ∃ s', s.load T key u = some s' ∧ RowsInv T pageNum v s' := by
  obtain ⟨m, hm, hrow, hid⟩ := h
  obtain ⟨s', hs', hm'⟩ := hm.snapShotReadRow h5 (hid key hlt) (by rw [hrow, hkey])
  refine ⟨s', ?_, m, hm', hrow, hid⟩
  rw [RowStore.load, hs']
  exact if_pos (by rw [hrow, hu])

theorem loads (h : RowsInv T pageNum v s) (h5 : 5 ≤ pageNum) (hlt : key < T.rows) (hkey : rowKey (v key).bytes = key)
    {us : List (RowMvcc T.Row)} (hus : ∀ u ∈ us, u.page = v key) :
    ∃ s', us.foldlM (RowStore.load T key) s = some s' ∧ RowsInv T pageNum v s' := by
  induction us generalizing s with
  | nil => exact ⟨s, rfl, h⟩
  | cons u us ih =>
    obtain ⟨hu, hus⟩ := List.forall_mem_cons.1 hus
    obtain ⟨s₁, h₁, hs₁⟩ := h.load h5 hlt hkey hu
    obtain ⟨s', hs', hs⟩ := ih hs₁ hus
    exact ⟨s', by rw [List.foldlM_cons, h₁]; exact hs', hs⟩

/-- The calls of a step on the row of `key` return, and leave its page in the store. -/
theorem serve (h : RowsInv T pageNum v s) (h5 : 5 ≤ pageNum) (hlt : key < T.rows) {g : Nat} {v₀ : T.Row}
    {st st' : RowSt T.Row} {a : RowEv T.Row} (hi : RowInv g v₀ st) (hs : st.step g a = some st')
    (hkey : rowKey st'.row.page.bytes = key) (hv : v key = st.row.page) :
    ∃ s', s.serve T g key st a = some s' ∧ RowsInv T pageNum (Function.update v key st'.row.page) s' := by
  have hwrite : ∃ s₁, s.commitRow T key (st.pageWrite a) = some s₁ ∧
      RowsInv T pageNum (Function.update v key st'.row.page) s₁ := by
    rw [hi.page_step hs]
    cases st.pageWrite a with
    | some w => exact h.writeRow h5 w
    | none =>
      refine ⟨s, rfl, ?_⟩
      rw [Option.getD_none, ← hv, Function.update_eq_self]
      exact h
  obtain ⟨s₁, h₁, hs₁⟩ := hwrite
  have hself : Function.update v key st'.row.page key = st'.row.page := Function.update_self ..
  obtain ⟨s', hs', hst⟩ := hs₁.loads h5 hlt (by rw [hself, hkey]) fun u hu => (hi.load_page hs hu).trans hself.symm
  exact ⟨s', by rw [RowStore.serve, h₁]; exact hs', hst⟩

end RowsInv

/-! ### The run -/

section Step

variable {V : Type} [Inhabited V] {g : Nat} {sys sys' : TxnSys V} {e : TxnEv V}

/-- The rows that an event changes, and what it does to the pages. -/
theorem TxnStep.call_cases (h : TxnStep g sys e sys') :
    (∃ key a, sys.call e = some (key, a) ∧ (sys.rows key).step g a = some (sys'.rows key) ∧
      sys'.rows = Function.update sys.rows key (sys'.rows key)) ∨
    sys.call e = none ∧ ∀ key, (sys'.rows key).row.page = (sys.rows key).row.page := by
  have hcall : ∀ {key : Nat} {a : RowEv V} {row : RowSt V}, sys.call e = some (key, a) →
      (sys.rows key).step g a = some row → sys'.rows = Function.update sys.rows key row →
      ∃ key a, sys.call e = some (key, a) ∧ (sys.rows key).step g a = some (sys'.rows key) ∧
        sys'.rows = Function.update sys.rows key (sys'.rows key) := by
    intro key a row hc hs hrows
    have hrow : sys'.rows key = row := by rw [hrows, Function.update_self]
    exact ⟨key, a, hc, by rw [hrow, hs], by rw [hrow, hrows]⟩
  cases h with
  | start | resume | finish => exact .inr ⟨rfl, fun _ => rfl⟩
  | getRow hrun hnew hty hs => exact .inl (hcall rfl hs rfl)
  | @modify ts key v row hrun hs =>
    refine .inr ⟨rfl, fun k => ?_⟩
    have hpage : row.row.page = (sys.rows key).row.page := by
      cases RowStep.of_step hs with
      | modify hg => rfl
    by_cases hk : k = key
    · rw [hk]
      simp only [TxnSys.setRow, Function.update_self]
      exact hpage
    · simp only [TxnSys.setRow, Function.update_of_ne hk]
  | cleaned hst hacc => exact .inr ⟨by simp only [TxnSys.call, hst, hacc], fun _ => rfl⟩
  | undo hst hacc hret hs => exact .inl (hcall (by simp only [TxnSys.call, hst, hacc, hret]) hs rfl)
  | write hst hacc hret hs => exact .inl (hcall (by simp only [TxnSys.call, hst, hacc, hret]) hs rfl)
  | drop hst hacc hxp hwr =>
    refine .inr ⟨?_, fun _ => rfl⟩
    simp only [TxnSys.call, hst, hacc]

end Step

structure InstanceInv (T : Table) (g pageNum : Nat) (s : InstanceRun T) : Prop where
  serial : SerialInv g T.initial s.run
  asked : ∀ key t, (s.run.sys.rows key).phase t ≠ .idle → key < T.rows
  keys : ∀ key < T.rows, KeyRow key (s.run.sys.rows key)
  store : RowsInv T pageNum (fun key => (s.run.sys.rows key).row.page) s.store

namespace InstanceInv

variable {T : Table} {g totalSize pageNum : Nat} {s s' : InstanceRun T} {e : TxnEv T.Row}

theorem init (h : (instanceLts T g totalSize).init s) : InstanceInv T g (totalSize / myPageSize) s := by
  obtain ⟨run, pool, lockTable⟩ := s
  obtain ⟨hrun, hpool, hlocks⟩ := h
  have hrun : run = .init T.initial := hrun
  subst hrun
  refine ⟨.init _, fun key t h => absurd rfl h, fun key hlt => ⟨T.key key hlt, nofun⟩, T.file, .new hpool hlocks,
    fun _ => rfl, T.pageId⟩

/-- The row that an event calls on is one of the table, and the event keeps its key. -/
theorem call_ok (hi : InstanceInv T g pageNum s) (hok : TableOk T s.run e) {key : Nat} {a : RowEv T.Row}
    (hc : Calls s.run.sys e key a) : key < T.rows ∧ ∀ t v, a = .modify t v → rowKey v.bytes = key := by
  rcases hc with ⟨type, m, hty, rfl, he⟩ | ⟨⟨r, hr⟩, -, -, hmod⟩
  · refine ⟨?_, ?_⟩
    · rw [he] at hok
      exact hok.2
    · rcases hty with rfl | rfl <;> exact nofun
  · refine ⟨hi.asked key e.ts (by rw [hr]; exact nofun), fun t v ha => ?_⟩
    rw [hmod t v ha] at hok
    exact hok.2

theorem call_lt (hi : InstanceInv T g pageNum s) (hok : TableOk T s.run e) {key : Nat} {a : RowEv T.Row}
    {row : RowSt T.Row} (hc : s.run.sys.call e = some (key, a)) (ha : (s.run.sys.rows key).step g a = some row) :
    key < T.rows := by
  cases e with
  | start | resume | modify | finish => cases hc
  | getRow => cases hc; exact hok.2
  | cleanup ts minTs =>
    simp only [TxnSys.call] at hc
    split at hc
    · split at hc
      · cases hc
        cases RowStep.of_step ha with
        | undo hg => exact hi.asked _ ts (by rw [hg]; exact nofun)
      · cases hc
        cases RowStep.of_step ha with
        | write hg => exact hi.asked _ ts (by rw [hg]; exact nofun)
      · cases hc
    · cases hc

/-- The instance can follow every event of the transactions. -/
theorem exists_step (hi : InstanceInv T g pageNum s) (h5 : 5 ≤ pageNum) (hok : TableOk T s.run e) {r : MvccRun T.Row}
    (h : s.run.step g e = some r) : ∃ s', s.step g e = some s' ∧ s'.run = r ∧ InstanceInv T g pageNum s' := by
  have hserial := hi.serial.step hok.1 h
  obtain ⟨sys, hs, rfl⟩ := Option.map_eq_some_iff.1 h
  have hstep := TxnStep.of_step hs
  have hrow := fun k => hi.serial.trace.inv.row k
  have hasked : ∀ key t, (sys.rows key).phase t ≠ .idle → key < T.rows := by
    intro key t hne
    rcases hstep.row_cases key with heq | ⟨a, -, -, hc⟩
    · rw [heq] at hne; exact hi.asked key t hne
    · exact (hi.call_ok hok hc).1
  have hkeys : ∀ key < T.rows, KeyRow key (sys.rows key) := by
    intro key hlt
    rcases hstep.row_cases key with heq | ⟨a, ha, -, hc⟩
    · rw [heq]; exact hi.keys key hlt
    · exact (hi.keys key hlt).step (hrow key) ha (hi.call_ok hok hc).2
  have hstore : ∃ store, s.storeCalls g e = some store ∧
      RowsInv T pageNum (fun key => (sys.rows key).row.page) store := by
    unfold InstanceRun.storeCalls
    rcases hstep.call_cases with ⟨key, a, hc, ha, hrows⟩ | ⟨hc, hpage⟩
    · rw [hc]
      have hlt := hi.call_lt hok hc ha
      obtain ⟨store, h1, h2⟩ := hi.store.serve h5 hlt (hrow key) ha (hkeys key hlt).page rfl
      refine ⟨store, h1, ?_⟩
      have heq : (fun key => (sys.rows key).row.page) =
          Function.update (fun key => (s.run.sys.rows key).row.page) key (sys.rows key).row.page := by
        funext k
        by_cases hk : k = key
        · rw [hk, Function.update_self]
        · rw [Function.update_of_ne hk, hrows, Function.update_of_ne hk]
      rw [heq]
      exact h2
    · rw [hc]
      exact ⟨s.store, rfl, by rw [funext hpage]; exact hi.store⟩
  obtain ⟨store, hcalls, hst⟩ := hstore
  exact ⟨⟨_, store⟩, by rw [InstanceRun.step, h, hcalls]; rfl, rfl, hserial, hasked, hkeys, hst⟩

theorem step (hi : InstanceInv T g pageNum s) (h5 : 5 ≤ pageNum) (hok : TableOk T s.run e)
    (h : s.step g e = some s') : InstanceInv T g pageNum s' := by
  have hrun := h
  simp only [InstanceRun.step, Option.bind_eq_bind, Option.bind_eq_some_iff] at hrun
  obtain ⟨r, hr, -⟩ := hrun
  obtain ⟨s₁, h₁, -, hi'⟩ := hi.exists_step h5 hok hr
  rw [h] at h₁
  cases h₁
  exact hi'

theorem reach (h5 : 5 ≤ totalSize / myPageSize)
    (h : (instanceLts T g totalSize).Reach (fun s => TableOk T s.run) s) :
    InstanceInv T g (totalSize / myPageSize) s :=
  h.inv (fun _ h0 => .init h0) fun _ _ _ hi hok hs => hi.step h5 hok hs

end InstanceInv

/-- Every run of the transactions on the rows of the table is one of the instance. -/
theorem InstanceRun.exists_of_reach {T : Table} {g totalSize : Nat} (h5 : 5 ≤ totalSize / myPageSize)
    {r : MvccRun T.Row} (h : (mvccLts g T.initial).Reach (TableOk T) r) :
    ∃ s, (instanceLts T g totalSize).Reach (fun s => TableOk T s.run) s ∧ s.run = r := by
  induction h with
  | init h0 =>
    obtain ⟨pool, hpool, -⟩ := show ∃ pool,
        Buffer.new totalSize myPageSize (fun p => (T.file p).bytes) = some pool ∧ _ from
      Holds.new fun p => (T.file p).length_eq
    exact ⟨⟨.init T.initial, pool, fun _ => { LockNode.init with lockMode := .P }⟩,
      .init ⟨rfl, hpool, fun _ => ⟨rfl, rfl, rfl⟩⟩, h0.symm⟩
  | step h hok hs ih =>
    obtain ⟨s, hreach, rfl⟩ := ih
    obtain ⟨s', hs', hr, -⟩ := (InstanceInv.reach h5 hreach).exists_step h5 hok hs
    exact ⟨s', .step hreach hok hs', hr⟩

/-- A row of 16 bytes that begins with its key. -/
def pairRow (key n : Nat) : pairLayout.Row key := ⟨toLE 8 key ++ toLE 8 n, by simp [pairLayout]⟩

/-- A page with the rows 0 and 1. -/
def pairTable : Table where
  layout := pairLayout
  rows := 2
  rowSize := 16
  size_eq _ := rfl
  file _ := pairLayout.writeRow 1 (pairRow 1 5) (fillPage 0)
  pageId key hlt := by
    have hpage : pairLayout.pageOf key = 0 := Nat.div_eq_of_lt hlt
    rw [hpage, Layout.writeRow_bytes, read_write_of_disjoint Layout.location_le (.inl (by decide))]
    simp only [fillPage, Buf.read, List.drop_zero, List.take_replicate]
    rfl
  key key hlt := by
    match key, hlt with
    | 0, _ =>
      rw [Layout.rowAt_writeRow_of_ne (show 0 ≠ 1 by decide) rfl]
      simp only [Layout.rowAt, rowKey, fillPage, Buf.read, List.drop_replicate, List.take_replicate]
      rfl
    | 1, _ =>
      rw [Layout.rowAt_writeRow]
      rfl

/-- The transaction 2 writes the row 1. -/
def pairRun : List (TxnEv pairTable.Row) :=
  [.start 2, .getRow 2 1 .wr 0, .modify 2 1 (pairRow 1 9), .getRow 2 0 .rd 0, .finish 2, .cleanup 2 0, .cleanup 2 0]

end Dbx1000
