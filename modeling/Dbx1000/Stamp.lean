import Dbx1000.ClusterInv
import Dbx1000.Page
import Dbx1000.RowBytes
import Dbx1000.Ycsb

/-!
# The version stamps of rows

`run_txn` puts the timestamp of its transaction into the last 8 bytes of every row it writes, if the
query has more than one request. Timestamps are drawn from the counter of the instance, and the counters
of two instances know nothing of each other. Here committed transactions with reads and writes run one
after another on any instances, between others that abort after drawing their timestamps. No bytes of a
row, wherever they are kept, have a stamp above the counter of the instance that committed the row last;
so a stamp is larger than the one before when the counter of the new writer is not behind.
-/

namespace Dbx1000

open Buf

/-- The size of a row, whose last 8 bytes are its version. -/
structure Schema where
  tupleSize : Nat
  version : 8 ≤ tupleSize

namespace Schema

variable {σ : Schema}

abbrev Row (σ : Schema) : Type := Tuple σ.tupleSize

theorem version_le (row : σ.Row) : σ.tupleSize - 8 + 8 ≤ row.bytes.length := by
  have := σ.version
  rw [row.length_eq]
  omega

/-- `memcpy(&data[size - sizeof(uint64_t)], &timestamp, sizeof(uint64_t))` -/
def stamp (ts : Nat) (row : σ.Row) : σ.Row where
  bytes := write (σ.tupleSize - 8) (toLE 8 ts) row.bytes
  length_eq := by
    rw [length_write_of_le (by rw [length_toLE]; exact version_le row), row.length_eq]

def stampOf (row : σ.Row) : Nat := ofLE (read (σ.tupleSize - 8) 8 row.bytes)

theorem stampOf_stamp {ts : Nat} (h : ts ≤ uint64Max) (row : σ.Row) : stampOf (stamp ts row) = ts := by
  have hle := version_le row
  rw [stampOf, stamp, read_write_self (by omega) length_toLE]
  exact ofLE_toLE_of_lt (Nat.lt_of_le_of_lt h (by decide))

/-- `ycsb_wl::init_table`: the key in front, the version 0 at the end. -/
def initRow (σ : Schema) (key : Nat) : σ.Row :=
  stamp 0 ⟨write 0 (toLE 8 key) (List.replicate σ.tupleSize 97), by
    rw [length_write_of_le (by simpa using σ.version), List.length_replicate]⟩

instance : Inhabited σ.Row := ⟨σ.initRow 0⟩

theorem stampOf_initRow (key : Nat) : stampOf (σ.initRow key) = 0 := stampOf_stamp (Nat.zero_le _) _

end Schema

/-! ### Transactions with reads and writes -/

structure YcsbQuery (ni g : Nat) where
  ins : Fin ni
  thd : Fin g
  reqs : List YcsbRequest
  distinct : (reqs.map YcsbRequest.key).Nodup

inductive StampEv (ni g : Nat)
  | commit (q : YcsbQuery ni g)
  | abort (i : Fin ni) (thd : Fin g)

namespace Cluster

variable {ni : Nat}

/-- `GetQueryWritePageSet` -/
def queryWritePageSet (pageOf : Nat → Nat) (reqs : List YcsbRequest) : List Nat :=
  reqs.foldl (fun set req => if req.rtype = .wr then insertPage (pageOf req.key) set else set) []

/-- `get_row(key, RD)` -/
def readRow {V : Type} [Inhabited V] (g : Nat) (i : Fin ni) (ts minTs key : Nat) (s : Cluster ni V) :
    Option (Cluster ni V) := do
  let (row, out) ← (s.row i key).access g minTs ts .rReq 0
  if out.rc = .rcok then return s.setRow i key row else none

variable {σ : Schema}

/-- What `run_txn` makes of a row it writes. -/
def computed (σ : Schema) (requestCnt ts : Nat) (row : σ.Row) : σ.Row :=
  if 1 < requestCnt then Schema.stamp ts row else row

/-- The loop over the requests; a scan does not return. The head of `accesses` is the last written row. -/
def ycsbRows (g : Nat) (i : Fin ni) (requestCnt ts minTs : Nat) :
    List YcsbRequest → List (Nat × RowId) → Cluster ni σ.Row → Option (Cluster ni σ.Row × List (Nat × RowId))
  | [], accesses, s => some (s, accesses)
  | req :: reqs, accesses, s =>
    match req.rtype with
    | .rd => do
      let s ← s.readRow g i ts minTs req.key
      ycsbRows g i requestCnt ts minTs reqs accesses s
    | .wr => do
      let (s, r) ← s.getRow g i ts minTs ⟨req.key, computed σ requestCnt ts⟩
      ycsbRows g i requestCnt ts minTs reqs ((req.key, r) :: accesses) s
    | _ => none

/-- A transaction that commits. -/
def runYcsb {g : Nat} (pageOf : Nat → Nat) (s : Cluster ni σ.Row) (q : YcsbQuery ni g) :
    Option (Cluster ni σ.Row) := do
  let (ts, m) ← (s.insts q.ins).getNextTs
  let s := s.setInst q.ins (m.addTs q.thd ts)
  let minTs := (s.insts q.ins).getMinTs
  let (s, rc) ← s.getWritePageLock pageOf q.ins q.thd (queryWritePageSet pageOf q.reqs)
  if rc = .abort then none
  else
    let (s, accesses) ← s.ycsbRows g q.ins q.reqs.length ts minTs q.reqs []
    let s ← s.cleanup g pageOf q.ins ts minTs accesses
    s.removeThreads q.ins q.thd (queryWritePageSet pageOf q.reqs)

def stampStep {g : Nat} (pageOf : Nat → Nat) (s : Cluster ni σ.Row) : StampEv ni g → Option (Cluster ni σ.Row)
  | .commit q => s.runYcsb pageOf q
  | .abort i thd => do
    let (ts, m) ← (s.insts i).getNextTs
    return s.setInst i (m.addTs thd ts)

end Cluster

def stampLts (ni g : Nat) (σ : Schema) (pageOf : Nat → Nat) : Lts (Cluster ni σ.Row) (StampEv ni g) where
  init s := s = .init g σ.initRow
  step := Cluster.stampStep pageOf

/-! ### Taking the page locks -/

namespace Cluster

section Locks

variable {ni : Nat} {V : Type} {pageOf : Nat → Nat} {s s' t : Cluster ni V} {i : Fin ni} {P : Nat → V → Prop}

/-- `P k` holds of all bytes of the row `k`: in the buffers and stores of the instances and in the buffer
of the global lock. -/
structure AllBytes (P : Nat → V → Prop) (s : Cluster ni V) : Prop where
  row : ∀ j k, (s.row j k).AllBytes (P k)
  globalBuffer : ∀ k, P k (s.globalBuffer k)

theorem AllBytes.of_rows (h : AllBytes P s) (hrow : ∀ j k, s'.row j k = s.row j k)
    (hglobal : s'.globalBuffer = s.globalBuffer) : AllBytes P s' :=
  ⟨fun j k => by rw [hrow]; exact h.row j k, fun k => by rw [hglobal]; exact h.globalBuffer k⟩

theorem AllBytes.setRow (h : AllBytes P s) {k : Nat} {row : RowMvcc V} (hrow : row.AllBytes (P k)) :
    AllBytes P (s.setRow i k row) := by
  refine ⟨fun j l => ?_, h.globalBuffer⟩
  by_cases hjl : j = i ∧ l = k
  · rw [hjl.1, hjl.2, row_setRow_self]
    exact hrow
  · rw [row_setRow_of_ne row s hjl]
    exact h.row j l

theorem AllBytes.record (h : AllBytes P s) (e : RowLog ni V) : AllBytes P (s.record e) := ⟨h.row, h.globalBuffer⟩

/-- Lock nodes, owners and slots change; the slots are copies of others. -/
structure LockOnly (s s' : Cluster ni V) : Prop where
  log : s'.log = s.log
  timestamp : ∀ j, (s'.insts j).timestamp = (s.insts j).timestamp
  bytes : ∀ P, AllBytes P s → AllBytes P s'

namespace LockOnly

theorem refl (s : Cluster ni V) : LockOnly s s := ⟨rfl, fun _ => rfl, fun _ => id⟩

theorem trans (h : LockOnly s s') (h' : LockOnly s' t) : LockOnly s t :=
  ⟨h'.log.trans h.log, fun j => (h'.timestamp j).trans (h.timestamp j), fun P hP => h'.bytes P (h.bytes P hP)⟩

theorem setNode (s : Cluster ni V) (i : Fin ni) (p : Nat) (n : LockNode) : LockOnly s (s.setNode i p n) :=
  ⟨rfl, timestamp_setInst (by rfl), fun _ hP => hP.of_rows (row_setNode i p n s) rfl⟩

theorem setOwner (s : Cluster ni V) (p : Nat) (i : Fin ni) : LockOnly s (s.setOwner p i) :=
  ⟨rfl, fun _ => rfl, fun _ hP => hP.of_rows (fun _ _ => rfl) rfl⟩

theorem eachPage {f : LockNode → Option LockNode} {ps : List Nat} (h : s.eachPage i f ps = some s') :
    LockOnly s s' := by
  induction ps generalizing s with
  | nil =>
    cases h
    exact .refl _
  | cons p ps ih =>
    rw [Cluster.eachPage] at h
    split at h
    · cases h
    · simp only [Option.bind_eq_bind, Option.bind_eq_some_iff] at h
      obtain ⟨n, -, h⟩ := h
      exact (setNode s i p n).trans (ih h)

theorem lockRemote {p : Nat} {rc : RC} {buf : Nat → V} (h : s.lockRemote i p = some (s', rc, buf)) :
    LockOnly s s' ∧ ∀ P, AllBytes P s → ∀ k, P k (buf k) := by
  unfold Cluster.lockRemote at h
  split at h
  · rename_i o ho
    simp only [Option.bind_eq_bind, Option.bind_eq_some_iff, Prod.exists] at h
    obtain ⟨t, rc₁, buf₁, hinv, rc₂, -, h⟩ := h
    cases h
    unfold lockInvalid at hinv
    split at hinv
    · simp only [Option.bind_eq_bind, Option.bind_eq_some_iff, Prod.exists] at hinv
      obtain ⟨n, rc₃, -, hinv⟩ := hinv
      split at hinv
      · cases hinv
        exact ⟨(setNode s o p _).trans (setOwner _ p i), fun P hP k => (hP.row o k).page⟩
      · cases hinv
    · cases hinv
  · cases h
    exact ⟨setOwner s p i, fun P hP => hP.globalBuffer⟩

theorem bufferPut {p : Nat} {buf : Nat → V} (h : LockOnly s t) (hbuf : ∀ P, AllBytes P s → ∀ k, P k (buf k)) :
    LockOnly s (t.bufferPut pageOf i p buf) := by
  refine ⟨h.log, fun j => ?_, fun P hP => ?_⟩
  · rw [← h.timestamp]
    exact timestamp_setInst (by rfl) j
  · have ht := h.bytes P hP
    refine ⟨fun j k => ?_, ht.globalBuffer⟩
    rw [row_bufferPut]
    split
    · exact (ht.row i k).withPage (hbuf P hP k)
    · exact ht.row j k

theorem getLock {p : Nat} {rc : RC} (h : s.getLock pageOf i p = some (s', rc)) : LockOnly s s' := by
  unfold Cluster.getLock at h
  split at h
  · split at h
    · cases h
    · simp only [Option.bind_eq_bind, Option.bind_eq_some_iff, Prod.exists] at h
      obtain ⟨t, rc', buf, hremote, h⟩ := h
      obtain ⟨ht, hbuf⟩ := lockRemote hremote
      have hset := setNode s i p { s.node i p with lockRemoting := true }
      have ht := hset.trans ht
      split at h
      · cases h
        exact ht.trans (setNode ..)
      · split at h
        · cases h
          exact (bufferPut (ht.trans (setNode ..)) fun P hP => hbuf P (hset.bytes P hP)).trans (setNode ..)
        · cases h
  · cases h
    exact .refl s

theorem getLocks {ps : List Nat} {rc : RC} (h : s.getLocks pageOf i ps = some (s', rc)) : LockOnly s s' := by
  induction ps generalizing s with
  | nil =>
    cases h
    exact .refl _
  | cons p ps ih =>
    simp only [Cluster.getLocks, Option.bind_eq_bind, Option.bind_eq_some_iff, Prod.exists] at h
    obtain ⟨t, rc', hlock, h⟩ := h
    split at h
    · cases h
      exact getLock hlock
    · exact (getLock hlock).trans (ih h)

theorem getWritePageLock {thd : Nat} {set : List Nat} {rc : RC}
    (h : s.getWritePageLock pageOf i thd set = some (s', rc)) : LockOnly s s' := by
  unfold Cluster.getWritePageLock at h
  split at h
  · cases h
  · simp only [Option.bind_eq_bind, Option.bind_eq_some_iff, Prod.exists] at h
    obtain ⟨t, rc', hlocks, h⟩ := h
    split at h
    · cases h
      exact getLocks hlocks
    · obtain ⟨u, hadd, h⟩ := Option.bind_eq_some_iff.1 h
      cases h
      exact (getLocks hlocks).trans (eachPage hadd)

end LockOnly

end Locks

/-! ### The rows of a transaction -/

section Rows

variable {ni g : Nat} {V : Type} [Inhabited V] {pageOf : Nat → Nat} {s s' t : Cluster ni V} {i : Fin ni}
  {P : Nat → V → Prop} {ts minTs : Nat}

theorem getRow_cases {req : WriteReq V} {r : RowId} (h : s.getRow g i ts minTs req = some (s', r)) :
    ∃ row out v, (s.row i req.key).access g minTs ts .pReq 0 = some (row, out) ∧ row.mem r = some v ∧
      s' = (s.setRow i req.key (row.setRow r (req.compute v))).record (.handed i req.key v) := by
  simp only [getRow, Option.bind_eq_bind, Option.bind_eq_some_iff, Prod.exists] at h
  obtain ⟨row, out, hacc, h⟩ := h
  split at h
  · simp only [Option.bind_eq_some_iff] at h
    obtain ⟨x, -, v, hv, h⟩ := h
    cases h
    exact ⟨row, out, v, hacc, hv, rfl⟩
  · cases h

theorem commitRow_cases {a : Nat × RowId} (h : s.commitRow g pageOf i ts minTs a = some s') :
    ∃ n row out v, (s.row i a.1).mem a.2 = some v ∧
      (s.row i a.1).access g minTs ts .wReq a.2 = some (row, out) ∧
      s' = ((s.setNode i (pageOf a.1) n).setRow i a.1 row).record (.committed i a.1 v) := by
  unfold commitRow at h
  split at h
  · simp only [Option.bind_eq_bind, Option.bind_eq_some_iff, Prod.exists] at h
    obtain ⟨n, -, v, hv, row, out, hacc, n', -, h⟩ := h
    cases h
    exact ⟨n', row, out, v, hv, hacc, rfl⟩
  · cases h

theorem readRow_cases {key : Nat} (h : s.readRow g i ts minTs key = some s') :
    ∃ row out, (s.row i key).access g minTs ts .rReq 0 = some (row, out) ∧ s' = s.setRow i key row := by
  simp only [readRow, Option.bind_eq_bind, Option.bind_eq_some_iff, Prod.exists] at h
  obtain ⟨row, out, hacc, h⟩ := h
  split at h
  · cases h
    exact ⟨row, out, hacc, rfl⟩
  · cases h

/-- Rows of the instance change; nothing is committed. -/
structure RowOnly (s s' : Cluster ni V) : Prop where
  lastCommitted : ∀ v₀ k, lastCommitted v₀ s'.log k = lastCommitted v₀ s.log k
  lastWriter : ∀ k, lastWriter s'.log k = lastWriter s.log k
  timestamp : ∀ j, (s'.insts j).timestamp = (s.insts j).timestamp

/-- What `cleanup` leaves of the row of an access: its bytes are the last committed ones. -/
theorem cleanup_log {accesses : List (Nat × RowId)} (hnd : (accesses.map Prod.fst).Nodup) (v₀ : Nat → V)
    (h : s.cleanup g pageOf i ts minTs accesses = some s') :
    (∀ k, k ∉ accesses.map Prod.fst →
      lastCommitted v₀ s'.log k = lastCommitted v₀ s.log k ∧ lastWriter s'.log k = lastWriter s.log k) ∧
    (∀ a ∈ accesses, (s.row i a.1).mem a.2 = some (lastCommitted v₀ s'.log a.1) ∧ lastWriter s'.log a.1 = some i) := by
  induction accesses generalizing s with
  | nil =>
    cases h
    exact ⟨fun _ _ => ⟨rfl, rfl⟩, by simp⟩
  | cons a accesses ih =>
    simp only [cleanup, Option.bind_eq_bind, Option.bind_eq_some_iff] at h
    obtain ⟨t, ht, h⟩ := h
    obtain ⟨n, row, out, v, hv, -, rfl⟩ := commitRow_cases ht
    rw [List.map_cons, List.nodup_cons] at hnd
    obtain ⟨hrest, hcommitted⟩ := ih hnd.2 h
    refine ⟨fun k hk => ?_, fun b hb => ?_⟩
    · rw [List.map_cons, List.mem_cons, not_or] at hk
      obtain ⟨h₁, h₂⟩ := hrest k hk.2
      rw [h₁, h₂]
      simp [record, setRow, setInst, setNode, lastCommitted, lastWriter, Ne.symm hk.1]
    · rcases List.mem_cons.1 hb with rfl | hb
      · obtain ⟨h₁, h₂⟩ := hrest b.1 hnd.1
        rw [h₁, h₂, hv]
        simp [record, setRow, setInst, setNode, lastCommitted, lastWriter]
      · -- the commit before touched the row of another key
        have hne : b.1 ≠ a.1 := fun he => hnd.1 (he ▸ List.mem_map_of_mem hb)
        have hrow := row_setRow_of_ne row (s.setNode i (pageOf a.1) n) fun hj : i = i ∧ b.1 = a.1 => hne hj.2
        have hb := hcommitted b hb
        rw [← row_setNode i (pageOf a.1) n s, ← hrow]
        exact hb

theorem cleanup_bytes {accesses : List (Nat × RowId)} (hP : AllBytes P s) (hd : ∀ k, P k default)
    (h : s.cleanup g pageOf i ts minTs accesses = some s') :
    AllBytes P s' ∧ ∀ j, (s'.insts j).timestamp = (s.insts j).timestamp := by
  induction accesses generalizing s with
  | nil =>
    cases h
    exact ⟨hP, fun _ => rfl⟩
  | cons a accesses ih =>
    simp only [cleanup, Option.bind_eq_bind, Option.bind_eq_some_iff] at h
    obtain ⟨t, ht, h⟩ := h
    obtain ⟨n, row, out, v, -, hacc, rfl⟩ := commitRow_cases ht
    have hnode := LockOnly.setNode s i (pageOf a.1) n
    have hset := (hnode.bytes P hP).setRow (i := i) ((hP.row i a.1).access (hd a.1) hacc)
    obtain ⟨hbytes, htime⟩ := ih (hset.record (.committed i a.1 v)) h
    refine ⟨hbytes, fun j => ?_⟩
    rw [htime, ← hnode.timestamp]
    exact timestamp_setRow i a.1 row _ j

end Rows

/-! ### Stamps stay below the counters -/

section Stamps

variable {ni g : Nat} {σ : Schema} {pageOf : Nat → Nat} {s₀ s s' : Cluster ni σ.Row} {i : Fin ni}
  {M : Nat → Nat} {ts minTs requestCnt key : Nat} {accesses : List (Nat × RowId)}

/-- No bytes of a row `k` have a stamp above `M k`. -/
def Below (M : Nat → Nat) (k : Nat) (row : σ.Row) : Prop := Schema.stampOf row ≤ M k

theorem below_default (k : Nat) : Below M k (default : σ.Row) := by
  have h : Schema.stampOf (default : σ.Row) = 0 := Schema.stampOf_initRow 0
  rw [Below, h]
  exact Nat.zero_le _

/-- Between the page locks and `cleanup`: nothing is committed yet, the rows in `accesses` are stamped. -/
structure Stamping (s₀ : Cluster ni σ.Row) (i : Fin ni) (M : Nat → Nat) (requestCnt ts : Nat)
    (accesses : List (Nat × RowId)) (s : Cluster ni σ.Row) : Prop where
  bytes : AllBytes (Below M) s
  same : RowOnly s₀ s
  stamped : 1 < requestCnt → ∀ a ∈ accesses, ∃ v, (s.row i a.1).mem a.2 = some v ∧ Schema.stampOf v = ts

/-- A row that is not in `accesses` changes. -/
theorem Stamping.setRow {row : RowMvcc σ.Row} (h : Stamping s₀ i M requestCnt ts accesses s)
    (hkey : key ∉ accesses.map Prod.fst) (hrow : row.AllBytes (Below M key)) :
    Stamping s₀ i M requestCnt ts accesses (s.setRow i key row) := by
  refine ⟨h.bytes.setRow hrow, ⟨h.same.lastCommitted, h.same.lastWriter, fun j => ?_⟩, fun hcnt a ha => ?_⟩
  · rw [timestamp_setRow, h.same.timestamp]
  · have hne : ¬ (i = i ∧ a.1 = key) := fun he => hkey (he.2 ▸ List.mem_map_of_mem ha)
    rw [row_setRow_of_ne row s hne]
    exact h.stamped hcnt a ha

theorem Stamping.read (h : Stamping s₀ i M requestCnt ts accesses s) (hkey : key ∉ accesses.map Prod.fst)
    (hr : s.readRow g i ts minTs key = some s') : Stamping s₀ i M requestCnt ts accesses s' := by
  obtain ⟨row, out, hacc, rfl⟩ := readRow_cases hr
  exact h.setRow hkey ((h.bytes.row i key).access (below_default key) hacc)

theorem below_computed (hts : ts ≤ uint64Max) (hM : 1 < requestCnt → ts ≤ M key) {row : σ.Row} (h : Below M key row) :
    Below M key (computed σ requestCnt ts row) := by
  unfold computed
  split
  · rename_i hcnt
    rw [Below, Schema.stampOf_stamp hts]
    exact hM hcnt
  · exact h

theorem Stamping.write {r : RowId} (h : Stamping s₀ i M requestCnt ts accesses s) (hts : ts ≤ uint64Max)
    (hkey : key ∉ accesses.map Prod.fst) (hM : 1 < requestCnt → ts ≤ M key)
    (hr : s.getRow g i ts minTs ⟨key, computed σ requestCnt ts⟩ = some (s', r)) :
    Stamping s₀ i M requestCnt ts ((key, r) :: accesses) s' := by
  obtain ⟨row, out, v, hacc, hv, rfl⟩ := getRow_cases hr
  have hrow := (h.bytes.row i key).access (below_default key) hacc
  have hcomp := below_computed hts hM (hrow.mem r v hv)
  have hset : Stamping s₀ i M requestCnt ts accesses (s.setRow i key (row.setRow r (computed σ requestCnt ts v))) :=
    h.setRow hkey (hrow.setRow hcomp)
  have hsame : RowOnly s₀ (s.setRow i key (row.setRow r (computed σ requestCnt ts v))) := hset.same
  refine ⟨hset.bytes.record _, ⟨hsame.lastCommitted, hsame.lastWriter, hsame.timestamp⟩,
    fun hcnt a ha => ?_⟩
  rcases List.mem_cons.1 ha with rfl | ha
  · refine ⟨computed σ requestCnt ts v, ?_, ?_⟩
    · have hself := row_setRow_self i key (row.setRow r (computed σ requestCnt ts v)) s
      exact (congrArg (fun x => x.mem r) hself).trans (Function.update_self ..)
    · rw [computed, if_pos hcnt, Schema.stampOf_stamp hts]
  · exact hset.stamped hcnt a ha

/-- After `cleanup`: the rows of `keys` are the ones committed. -/
structure Committed (s₀ : Cluster ni σ.Row) (i : Fin ni) (M : Nat → Nat) (requestCnt ts : Nat) (keys : List Nat)
    (s : Cluster ni σ.Row) : Prop where
  bytes : AllBytes (Below M) s
  timestamp : ∀ j, (s.insts j).timestamp = (s₀.insts j).timestamp
  other : ∀ k, k ∉ keys →
    lastCommitted σ.initRow s.log k = lastCommitted σ.initRow s₀.log k ∧ lastWriter s.log k = lastWriter s₀.log k
  writer : ∀ k ∈ keys, lastWriter s.log k = some i
  below : ∀ k ∈ keys, Below M k (lastCommitted σ.initRow s.log k)
  stamped : 1 < requestCnt → ∀ k ∈ keys, Schema.stampOf (lastCommitted σ.initRow s.log k) = ts

theorem Stamping.cleanup (h : Stamping s₀ i M requestCnt ts accesses s) (hnd : (accesses.map Prod.fst).Nodup)
    (hr : s.cleanup g pageOf i ts minTs accesses = some s') :
    Committed s₀ i M requestCnt ts (accesses.map Prod.fst) s' := by
  obtain ⟨hbytes, htime⟩ := cleanup_bytes h.bytes below_default hr
  obtain ⟨hother, hcommitted⟩ := cleanup_log hnd σ.initRow hr
  refine ⟨hbytes, fun j => (htime j).trans (h.same.timestamp j), fun k hk => ?_, fun k hk => ?_, fun k hk => ?_,
    fun hcnt k hk => ?_⟩
  · obtain ⟨h₁, h₂⟩ := hother k hk
    exact ⟨h₁.trans (h.same.lastCommitted _ k), h₂.trans (h.same.lastWriter k)⟩
  all_goals obtain ⟨a, ha, rfl⟩ := List.mem_map.1 hk
  · exact (hcommitted a ha).2
  · exact (h.bytes.row i a.1).mem a.2 _ (hcommitted a ha).1
  · obtain ⟨v, hv, hstamp⟩ := h.stamped hcnt a ha
    rw [(hcommitted a ha).1] at hv
    cases hv
    exact hstamp

theorem Committed.lockOnly {keys : List Nat} (h : Committed s₀ i M requestCnt ts keys s) (hl : LockOnly s s') :
    Committed s₀ i M requestCnt ts keys s' := by
  refine ⟨hl.bytes _ h.bytes, fun j => (hl.timestamp j).trans (h.timestamp j), ?_, ?_, ?_, ?_⟩ <;> rw [hl.log]
  · exact h.other
  · exact h.writer
  · exact h.below
  · exact h.stamped

def writeKeys (reqs : List YcsbRequest) : List Nat := (reqs.filter (·.rtype = .wr)).map YcsbRequest.key

theorem ycsbRows_stamping {reqs : List YcsbRequest} {accesses' : List (Nat × RowId)} (hts : ts ≤ uint64Max)
    (h : Stamping s₀ i M requestCnt ts accesses s) (hnd : (reqs.map YcsbRequest.key).Nodup)
    (hnew : ∀ req ∈ reqs, req.key ∉ accesses.map Prod.fst) (hM : 1 < requestCnt → ∀ k ∈ writeKeys reqs, ts ≤ M k)
    (hr : s.ycsbRows g i requestCnt ts minTs reqs accesses = some (s', accesses')) :
    Stamping s₀ i M requestCnt ts accesses' s' ∧
      accesses'.map Prod.fst = (writeKeys reqs).reverse ++ accesses.map Prod.fst := by
  induction reqs generalizing s accesses with
  | nil =>
    cases hr
    exact ⟨h, by simp [writeKeys]⟩
  | cons req reqs ih =>
    rw [List.map_cons, List.nodup_cons] at hnd
    have hkey := hnew req List.mem_cons_self
    rw [ycsbRows] at hr
    split at hr
    · rename_i hrd
      simp only [Option.bind_eq_bind, Option.bind_eq_some_iff] at hr
      obtain ⟨t, ht, hr⟩ := hr
      have hw : writeKeys (req :: reqs) = writeKeys reqs := by simp [writeKeys, hrd]
      rw [hw] at hM ⊢
      exact ih (h.read hkey ht) hnd.2 (fun b hb => hnew b (List.mem_cons_of_mem _ hb)) hM hr
    · rename_i hwr
      simp only [Option.bind_eq_bind, Option.bind_eq_some_iff, Prod.exists] at hr
      obtain ⟨t, r, ht, hr⟩ := hr
      have hw : writeKeys (req :: reqs) = req.key :: writeKeys reqs := by simp [writeKeys, hwr]
      rw [hw] at hM ⊢
      have hnew' : ∀ b ∈ reqs, b.key ∉ ((req.key, r) :: accesses).map Prod.fst := by
        intro b hb hin
        rcases List.mem_cons.1 hin with he | hin
        · exact hnd.1 (List.mem_map.2 ⟨b, hb, he⟩)
        · exact hnew b (List.mem_cons_of_mem _ hb) hin
      obtain ⟨h', hkeys⟩ := ih (h.write hts hkey (fun hc => hM hc _ List.mem_cons_self) ht) hnd.2 hnew'
        (fun hc k hk => hM hc k (List.mem_cons_of_mem _ hk)) hr
      exact ⟨h', by simp [hkeys]⟩
    · cases hr

/-- With `M` as a bound of the stamps of each row: below the counter of the instance that wrote the row last,
and 0 before the first write. -/
structure StampInv (M : Nat → Nat) (s : Cluster ni σ.Row) : Prop where
  bytes : AllBytes (Below M) s
  last : ∀ k, Below M k (lastCommitted σ.initRow s.log k)
  writer : ∀ k j, lastWriter s.log k = some j → M k < (s.insts j).timestamp
  fresh : ∀ k, lastWriter s.log k = none → M k = 0

theorem StampInv.init : StampInv (fun _ => 0) (.init g σ.initRow : Cluster ni σ.Row) where
  bytes := by
    constructor
    · intro j k
      refine ⟨Nat.le_of_eq (Schema.stampOf_initRow k), ?_⟩
      simp [Cluster.init, row, ManagerInstance.init, RowMvcc.init]
    · intro k
      exact Nat.le_of_eq (Schema.stampOf_initRow k)
  last k := Nat.le_of_eq (Schema.stampOf_initRow k)
  writer k j h := by cases h
  fresh _ _ := rfl

theorem getNextTs_cases {V : Type} {m m' : ManagerInstance V} (h : m.getNextTs = some (ts, m')) :
    ts = m.timestamp + 1 ∧ ts ≤ uint64Max ∧ m' = { m with timestamp := m.timestamp + 2 } := by
  unfold ManagerInstance.getNextTs at h
  split at h
  · rename_i hlt
    cases h
    exact ⟨rfl, Nat.le_of_lt hlt, rfl⟩
  · cases h

theorem AllBytes.mono {M' : Nat → Nat} (h : AllBytes (Below M) s) (hle : ∀ k, M k ≤ M' k) : AllBytes (Below M') s :=
  ⟨fun j k => ⟨Nat.le_trans (h.row j k).page (hle k), fun r v hv => Nat.le_trans ((h.row j k).mem r v hv) (hle k)⟩,
    fun k => Nat.le_trans (h.globalBuffer k) (hle k)⟩

/-- The timestamps of an instance are drawn. -/
theorem StampInv.draw {m : ManagerInstance σ.Row} (hi : StampInv M s) (thd : Nat)
    (h : (s.insts i).getNextTs = some (ts, m)) : StampInv M (s.setInst i (m.addTs thd ts)) := by
  obtain ⟨-, -, rfl⟩ := getNextTs_cases h
  refine ⟨hi.bytes.of_rows (row_setInst rfl) rfl, hi.last, fun k j hj => ?_, hi.fresh⟩
  have hlt := hi.writer k j hj
  rw [insts_setInst]
  split
  · rename_i he
    subst he
    exact Nat.lt_add_right 2 hlt
  · exact hlt

/-- The counter of the instance is not behind the one of the instance that committed a row of the query last. -/
def CountersOk (s : Cluster ni σ.Row) : StampEv ni g → Prop
  | .commit q => ∀ k ∈ writeKeys q.reqs, ∀ j, lastWriter s.log k = some j →
      (s.insts j).timestamp ≤ (s.insts q.ins).timestamp
  | .abort .. => True

instance (s : Cluster ni σ.Row) (e : StampEv ni g) : Decidable (CountersOk s e) :=
  match e with
  | .commit q => inferInstanceAs (Decidable (∀ k ∈ writeKeys q.reqs, ∀ j, lastWriter s.log k = some j →
      (s.insts j).timestamp ≤ (s.insts q.ins).timestamp))
  | .abort .. => isTrue trivial

theorem StampInv.lt_next {q : YcsbQuery ni g} (hi : StampInv M s) (hok : CountersOk s (.commit q)) {k : Nat}
    (hk : k ∈ writeKeys q.reqs) : M k < (s.insts q.ins).timestamp + 1 := by
  cases hw : lastWriter s.log k with
  | none =>
    rw [hi.fresh k hw]
    exact Nat.succ_pos _
  | some j =>
    have hlt := hi.writer k j hw
    have hle := hok k hk j hw
    omega

/-- The bound after a transaction. -/
def raised (M : Nat → Nat) (reqs : List YcsbRequest) (ts k : Nat) : Nat :=
  if 1 < reqs.length ∧ k ∈ writeKeys reqs then ts else M k

theorem raised_of_notMem {reqs : List YcsbRequest} {k : Nat} (h : k ∉ writeKeys reqs) : raised M reqs ts k = M k :=
  if_neg fun hk => h hk.2

theorem le_raised {reqs : List YcsbRequest} (h : ∀ k ∈ writeKeys reqs, M k < ts) (k : Nat) :
    M k ≤ raised M reqs ts k := by
  unfold raised
  split
  · rename_i hk
    exact Nat.le_of_lt (h k hk.2)
  · exact Nat.le_refl _

theorem raised_le {reqs : List YcsbRequest} (h : ∀ k ∈ writeKeys reqs, M k < ts) {k : Nat} (hk : k ∈ writeKeys reqs) :
    raised M reqs ts k ≤ ts := by
  unfold raised
  split
  · exact Nat.le_refl _
  · exact Nat.le_of_lt (h k hk)

/-- `run_txn`, from the locks to the release, over the state in which the timestamps are drawn. -/
theorem runYcsb_committed {q : YcsbQuery ni g} (hi : StampInv M s) (hok : CountersOk s (.commit q))
    (h : s.runYcsb pageOf q = some s') :
    ∃ ts m, (s.insts q.ins).getNextTs = some (ts, m) ∧ Committed (s.setInst q.ins (m.addTs q.thd ts)) q.ins
      (raised M q.reqs ts) q.reqs.length ts (writeKeys q.reqs).reverse s' := by
  simp only [runYcsb, Option.bind_eq_bind, Option.bind_eq_some_iff, Prod.exists] at h
  obtain ⟨ts, m, hts, t, rc, hlock, h⟩ := h
  split at h
  · cases h
  simp only [Option.bind_eq_some_iff, Prod.exists] at h
  obtain ⟨u, accesses, hrows, w, hclean, hremove⟩ := h
  obtain ⟨hts₁, hmax, -⟩ := getNextTs_cases hts
  have hlt : ∀ k ∈ writeKeys q.reqs, M k < ts := fun k hk => by rw [hts₁]; exact hi.lt_next hok hk
  have hlocked := LockOnly.getWritePageLock hlock
  have hstart : Stamping (s.setInst q.ins (m.addTs q.thd ts)) q.ins (raised M q.reqs ts) q.reqs.length ts [] t := by
    refine ⟨(hlocked.bytes _ (hi.draw q.thd hts).bytes).mono (le_raised hlt), ⟨?_, ?_, hlocked.timestamp⟩, by simp⟩ <;>
      simp [hlocked.log]
  have hraised : 1 < q.reqs.length → ∀ k ∈ writeKeys q.reqs, ts ≤ raised M q.reqs ts k := by
    intro hcnt k hk
    rw [raised, if_pos ⟨hcnt, hk⟩]
  obtain ⟨hst, hkeys⟩ := ycsbRows_stamping hmax hstart q.distinct (by simp) hraised hrows
  rw [List.map_nil, List.append_nil] at hkeys
  have hnd : (accesses.map Prod.fst).Nodup := by
    rw [hkeys]
    exact List.pairwise_reverse.2 ((q.distinct.sublist (List.filter_sublist.map _)).imp Ne.symm)
  have hcommitted := (hst.cleanup hnd hclean).lockOnly (LockOnly.eachPage hremove)
  rw [hkeys] at hcommitted
  exact ⟨ts, m, hts, hcommitted⟩

theorem StampInv.commit {q : YcsbQuery ni g} (hi : StampInv M s) (hok : CountersOk s (.commit q))
    (h : s.runYcsb pageOf q = some s') : ∃ M, StampInv M s' := by
  obtain ⟨ts, m, hts, hc⟩ := runYcsb_committed hi hok h
  obtain ⟨hts₁, -, hm⟩ := getNextTs_cases hts
  have hlt : ∀ k ∈ writeKeys q.reqs, M k < ts := fun k hk => by rw [hts₁]; exact hi.lt_next hok hk
  have hdrawn := hi.draw q.thd hts
  refine ⟨raised M q.reqs ts, hc.bytes, fun k => ?_, fun k j hj => ?_, fun k hk => ?_⟩
  all_goals by_cases hw : k ∈ (writeKeys q.reqs).reverse
  · exact hc.below k hw
  · rw [(hc.other k hw).1]
    exact Nat.le_trans (hi.last k) (le_raised hlt k)
  · -- the instance has drawn twice: its counter is above the stamp
    rw [hc.writer k hw] at hj
    cases hj
    have hle := raised_le hlt (List.mem_reverse.1 hw)
    rw [hc.timestamp, insts_setInst, if_pos rfl, hm]
    simp only [ManagerInstance.addTs]
    omega
  · rw [(hc.other k hw).2] at hj
    rw [raised_of_notMem (by simpa using hw), hc.timestamp]
    exact hdrawn.writer k j hj
  · rw [hc.writer k hw] at hk
    cases hk
  · rw [(hc.other k hw).2] at hk
    rw [raised_of_notMem (by simpa using hw)]
    exact hi.fresh k hk

theorem StampInv.reach (h : (stampLts ni g σ pageOf).Reach CountersOk s) : ∃ M, StampInv M s := by
  refine Lts.Reach.inv (P := fun s => ∃ M, StampInv M s) ?_ ?_ h
  · rintro _ rfl
    exact ⟨_, StampInv.init⟩
  · rintro s e s' ⟨M, hi⟩ hok hs
    cases e with
    | commit q => exact hi.commit hok hs
    | abort i thd =>
      simp only [stampLts, stampStep, Option.bind_eq_bind, Option.bind_eq_some_iff, Prod.exists] at hs
      obtain ⟨ts, m, hts, hs⟩ := hs
      cases hs
      exact ⟨M, hi.draw thd hts⟩

end Stamps

end Cluster

open Cluster in
/-- A transaction of several requests puts its timestamp into each row that it writes, and the stamp that the
last committed write left there, whichever instance made it, is smaller. -/
theorem stamps_increase_of_countersOk {ni g : Nat} {σ : Schema} {pageOf : Nat → Nat} {s s' : Cluster ni σ.Row}
    {q : YcsbQuery ni g} (h : (stampLts ni g σ pageOf).Reach CountersOk s) (hok : CountersOk s (.commit q))
    (hstep : (stampLts ni g σ pageOf).step s (.commit q) = some s') (hcnt : 1 < q.reqs.length) {k : Nat}
    (hk : k ∈ writeKeys q.reqs) :
    Schema.stampOf (lastCommitted σ.initRow s'.log k) = (s.insts q.ins).timestamp + 1 ∧
      lastWriter s'.log k = some q.ins ∧
      Schema.stampOf (lastCommitted σ.initRow s.log k) < Schema.stampOf (lastCommitted σ.initRow s'.log k) := by
  obtain ⟨M, hi⟩ := StampInv.reach h
  obtain ⟨ts, m, hts, hc⟩ := runYcsb_committed hi hok hstep
  obtain ⟨rfl, -, -⟩ := getNextTs_cases hts
  have hk' := List.mem_reverse.2 hk
  refine ⟨hc.stamped hcnt k hk', hc.writer k hk', ?_⟩
  rw [hc.stamped hcnt k hk']
  exact Nat.lt_of_le_of_lt (hi.last k) (hi.lt_next hok hk)

/-- Rows of 16 bytes. -/
def keyAndVersion : Schema := ⟨16, by decide⟩

/-- Thread `thd` of `i` writes the rows 7 and 8. -/
def writePair (i : Fin 2) (thd : Fin 4) : StampEv 2 4 := .commit ⟨i, thd, [⟨.wr, 7, 1⟩, ⟨.wr, 8, 1⟩], by decide⟩

open Cluster in
/-- Instance 1 draws two timestamps for a transaction that aborts, and is then not behind instance 0. -/
theorem stamps_increase_after_abort : ∃ s s' : Cluster 2 keyAndVersion.Row,
    (stampLts 2 4 keyAndVersion (· / 2)).runIf (fun s e => decide (CountersOk s e)) (.init 4 keyAndVersion.initRow)
      [writePair 0 0, .abort 1 0] = some s ∧ lastWriter s.log 7 = some 0 ∧
    (stampLts 2 4 keyAndVersion (· / 2)).step s (writePair 1 0) = some s' ∧ lastWriter s'.log 7 = some 1 ∧
    Schema.stampOf (lastCommitted keyAndVersion.initRow s.log 7) <
      Schema.stampOf (lastCommitted keyAndVersion.initRow s'.log 7) := by
  have hrun : (((stampLts 2 4 keyAndVersion (· / 2)).runIf (fun s e => decide (CountersOk s e))
      (.init 4 keyAndVersion.initRow) [writePair 0 0, .abort 1 0]).any fun s => decide (lastWriter s.log 7 = some 0) &&
        decide (CountersOk s (writePair 1 0)) &&
        ((stampLts 2 4 keyAndVersion (· / 2)).step s (writePair 1 0)).isSome) = true := by decide +kernel
  simp only [Option.any_eq_true, Bool.and_eq_true, decide_eq_true_eq, Option.isSome_iff_exists] at hrun
  obtain ⟨s, hs, ⟨hlast, hok⟩, s', hs'⟩ := hrun
  have hreach : (stampLts 2 4 keyAndVersion (· / 2)).Reach CountersOk s :=
    .runIf (fun _ _ => of_decide_eq_true) (.init rfl) hs
  have hkey : 7 ∈ writeKeys [⟨.wr, 7, 1⟩, ⟨.wr, 8, 1⟩] := by decide
  obtain ⟨-, hwriter, hlt⟩ := stamps_increase_of_countersOk hreach hok hs' (by decide) hkey
  exact ⟨s, s', hs, hlast, hs', hwriter, hlt⟩

open Cluster in
/-- Instance 0 commits twice, then instance 1 commits its first transaction: the stamp of the row falls from
4 to 2. -/
theorem stamp_falls_on_other_instance : ∃ s s' : Cluster 2 keyAndVersion.Row,
    (stampLts 2 4 keyAndVersion (· / 2)).run (.init 4 keyAndVersion.initRow) [writePair 0 0, writePair 0 0] = some s ∧
    (stampLts 2 4 keyAndVersion (· / 2)).step s (writePair 1 0) = some s' ∧
    Schema.stampOf (lastCommitted keyAndVersion.initRow s.log 7) = 4 ∧
    Schema.stampOf (lastCommitted keyAndVersion.initRow s'.log 7) = 2 := by
  have hrun : (((stampLts 2 4 keyAndVersion (· / 2)).run (.init 4 keyAndVersion.initRow)
      [writePair 0 0, writePair 0 0]).any fun s =>
        decide (Schema.stampOf (lastCommitted keyAndVersion.initRow s.log 7) = 4) &&
        ((stampLts 2 4 keyAndVersion (· / 2)).step s (writePair 1 0)).any fun s' =>
          decide (Schema.stampOf (lastCommitted keyAndVersion.initRow s'.log 7) = 2)) = true := by decide +kernel
  simp only [Option.any_eq_true, Bool.and_eq_true, decide_eq_true_eq] at hrun
  obtain ⟨s, hs, h₄, s', hs', h₂⟩ := hrun
  exact ⟨s, s', hs, hs', h₄, h₂⟩

end Dbx1000
