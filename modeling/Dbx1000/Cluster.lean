import Dbx1000.PageLock
import Dbx1000.RowLocal

/-!
# Write transactions across instances

`ni` instances with `g` threads each and the global lock, running whole write transactions one after
another: `run_txn` (`instance/txn/ycsb_txn.cpp`) on one instance takes the page locks, gets a row for
every request, commits in `cleanup` and removes its thread from the pages. The buffers hold every page
and a key has its own slot in the page `pageOf key`, so a page's bytes are one `V` per key; the slot in
the buffer of an instance is the field `page` of the row's store, and `globalBuffer` has the slots of
the global lock's buffer. A call that would wait for another thread is `none`, as is a failed assertion.
`log` is not part of the program: it records what the stores hand out and commit, newest first.
-/

namespace Dbx1000

inductive RowLog (ni : Nat) (V : Type)
  | handed (i : Fin ni) (key : Nat) (v : V)
  | committed (i : Fin ni) (key : Nat) (v : V)
deriving DecidableEq, Repr

structure WriteReq (V : Type) where
  key : Nat
  /-- What the transaction makes of the row's bytes. -/
  compute : V → V

/-- A query of writes, the thread that runs it, and its instance. `gen_requests` drops a request whose
key it has already. -/
structure Query (ni g : Nat) (V : Type) where
  ins : Fin ni
  thd : Fin g
  reqs : List (WriteReq V)
  distinct : (reqs.map WriteReq.key).Nodup

structure ManagerInstance (V : Type) where
  timestamp : Nat
  allTs : List Nat
  lockTable : Nat → LockNode
  mvccArray : Nat → RowMvcc V

structure Cluster (ni : Nat) (V : Type) where
  insts : Fin ni → ManagerInstance V
  writeInsId : Nat → Option (Fin ni)
  globalBuffer : Nat → V
  log : List (RowLog ni V)

/-! ### Timestamps -/

namespace ManagerInstance

variable {V : Type}

def init (g : Nat) (v₀ : Nat → V) : ManagerInstance V :=
  ⟨1, List.replicate g uint64Max, fun _ => .init, fun k => .init (v₀ k)⟩

/-- `thread_t::get_next_ts` draws twice and returns the second draw. Runs end before the counter wraps. -/
def getNextTs (m : ManagerInstance V) : Option (Nat × ManagerInstance V) :=
  if m.timestamp + 1 < uint64Max then some (m.timestamp + 1, { m with timestamp := m.timestamp + 2 }) else none

def addTs (thd ts : Nat) (m : ManagerInstance V) : ManagerInstance V := { m with allTs := m.allTs.set thd ts }

def getMinTs (m : ManagerInstance V) : Nat := m.allTs.foldl (fun b t => if t < b then t else b) uint64Max

end ManagerInstance

/-! ### The write page set -/

/-- `std::set::insert` -/
def insertPage (p : Nat) : List Nat → List Nat
  | [] => [p]
  | q :: ps => if p < q then p :: q :: ps else if p = q then q :: ps else q :: insertPage p ps

def Query.writePageSet {ni g : Nat} {V : Type} (pageOf : Nat → Nat) (q : Query ni g V) : List Nat :=
  q.reqs.foldl (fun set req => insertPage (pageOf req.key) set) []

namespace Cluster

variable {ni : Nat} {V : Type}

def init (g : Nat) (v₀ : Nat → V) : Cluster ni V := ⟨fun _ => .init g v₀, fun _ => none, v₀, []⟩

def node (i : Fin ni) (p : Nat) (s : Cluster ni V) : LockNode := (s.insts i).lockTable p

def row (i : Fin ni) (k : Nat) (s : Cluster ni V) : RowMvcc V := (s.insts i).mvccArray k

def setInst (i : Fin ni) (m : ManagerInstance V) (s : Cluster ni V) : Cluster ni V :=
  { s with insts := Function.update s.insts i m }

def setNode (i : Fin ni) (p : Nat) (n : LockNode) (s : Cluster ni V) : Cluster ni V :=
  s.setInst i { s.insts i with lockTable := Function.update (s.insts i).lockTable p n }

def setRow (i : Fin ni) (k : Nat) (r : RowMvcc V) (s : Cluster ni V) : Cluster ni V :=
  s.setInst i { s.insts i with mvccArray := Function.update (s.insts i).mvccArray k r }

def setOwner (p : Nat) (i : Fin ni) (s : Cluster ni V) : Cluster ni V :=
  { s with writeInsId := Function.update s.writeInsId p (some i) }

def record (e : RowLog ni V) (s : Cluster ni V) : Cluster ni V := { s with log := e :: s.log }

/-! ### `GetWritePageLock` -/

/-- `LockTable::LockInvalid` on `o`, called through its service, which asserts RCOK. -/
def lockInvalid (o : Fin ni) (p : Nat) (s : Cluster ni V) : Option (Cluster ni V × RC × (Nat → V)) :=
  if { s.node o p with invalidReq := true }.canInvalid then do
    let (n, rc) ← { s.node o p with invalidReq := true }.invalidate
    if rc = .rcok then return (s.setNode o p n.endInvalid, rc, fun k => (s.row o k).page) else none
  else none

def lockRemote (i : Fin ni) (p : Nat) (s : Cluster ni V) : Option (Cluster ni V × RC × (Nat → V)) :=
  match s.writeInsId p with
  | some o => do
    let (s, rc, buf) ← s.lockInvalid o p
    let rc ← replyRc rc
    return (s.setOwner p i, rc, buf)
  | none => some (s.setOwner p i, .rcok, s.globalBuffer)

/-- `BufferPut` of the bytes of `p`. -/
def bufferPut (pageOf : Nat → Nat) (i : Fin ni) (p : Nat) (buf : Nat → V) (s : Cluster ni V) : Cluster ni V :=
  s.setInst i { s.insts i with
    mvccArray := fun k => if pageOf k = p then (s.row i k).withPage (buf k) else s.row i k }

/-- One iteration of the first loop of `GetWritePageLock`. -/
def getLock (pageOf : Nat → Nat) (i : Fin ni) (p : Nat) (s : Cluster ni V) : Option (Cluster ni V × RC) :=
  if (s.node i p).lockMode = .O then
    -- the spinning branch: no other thread is there to end it
    if (s.node i p).lockRemoting then none
    else do
      let (s, rc, buf) ← (s.setNode i p { s.node i p with lockRemoting := true }).lockRemote i p
      if rc = .abort ∨ rc = .timeOut then
        return (s.setNode i p { s.node i p with lockRemoting := false }, .abort)
      else if rc = .rcok ∧ (s.node i p).lockMode = .O then
        let s := (s.setNode i p { s.node i p with lockMode := .P }).bufferPut pageOf i p buf
        return (s.setNode i p { s.node i p with lockRemoting := false }, .rcok)
      else none
  else some (s, .rcok)

def getLocks (pageOf : Nat → Nat) (i : Fin ni) : List Nat → Cluster ni V → Option (Cluster ni V × RC)
  | [], s => some (s, .rcok)
  | p :: ps, s => do
    let (s, rc) ← s.getLock pageOf i p
    if rc = .abort then return (s, rc) else getLocks pageOf i ps s

/-- A loop over the page set: `f` on the node of each page, none of which may be in mode O. -/
def eachPage (i : Fin ni) (f : LockNode → Option LockNode) : List Nat → Cluster ni V → Option (Cluster ni V)
  | [], s => some s
  | p :: ps, s =>
    if (s.node i p).lockMode = .O then none
    else do
      let n ← f (s.node i p)
      eachPage i f ps (s.setNode i p n)

def addThreads (i : Fin ni) (thd : Nat) : List Nat → Cluster ni V → Option (Cluster ni V) :=
  eachPage i fun n => some (n.addThread thd)

def removeThreads (i : Fin ni) (thd : Nat) : List Nat → Cluster ni V → Option (Cluster ni V) :=
  eachPage i (LockNode.removeThread thd)

def getWritePageLock (pageOf : Nat → Nat) (i : Fin ni) (thd : Nat) (set : List Nat) (s : Cluster ni V) :
    Option (Cluster ni V × RC) :=
  -- while(has_invalid_req())
  if set.any fun p => (s.node i p).invalidReq then none
  else do
    let (s, rc) ← s.getLocks pageOf i set
    if rc = .abort then return (s, .abort)
    else
      let s ← s.addThreads i thd set
      return (s, .rcok)

/-! ### `run_txn` -/

variable [Inhabited V]

/-- `get_row(key, WR)` and the computation on the row it returns. A transaction that is made to wait or
abort here does not run to its commit. -/
def getRow (g : Nat) (i : Fin ni) (ts minTs : Nat) (req : WriteReq V) (s : Cluster ni V) :
    Option (Cluster ni V × RowId) := do
  let (row, out) ← (s.row i req.key).access g minTs ts .pReq 0
  if out.rc = .rcok then
    let r ← out.curRow
    let v ← row.mem r
    return ((s.setRow i req.key (row.setRow r (req.compute v))).record (.handed i req.key v), r)
  else none

/-- The loop over the requests; the head of `accesses` is the last access. -/
def getRows (g : Nat) (i : Fin ni) (ts minTs : Nat) : List (WriteReq V) → List (Nat × RowId) → Cluster ni V →
    Option (Cluster ni V × List (Nat × RowId))
  | [], accesses, s => some (s, accesses)
  | req :: reqs, accesses, s => do
    let (s, r) ← s.getRow g i ts minTs req
    getRows g i ts minTs reqs ((req.key, r) :: accesses) s

/-- `W_REQ`. Its `WriteRow` asserts that the page is not in mode O and locks it around the write. -/
def commitRow (g : Nat) (pageOf : Nat → Nat) (i : Fin ni) (ts minTs : Nat) (a : Nat × RowId) (s : Cluster ni V) :
    Option (Cluster ni V) :=
  if (s.node i (pageOf a.1)).lockMode ≠ .O ∧ (s.node i (pageOf a.1)).canLock .X then do
    let n ← (s.node i (pageOf a.1)).lock .X
    let v ← (s.row i a.1).mem a.2
    let (row, _) ← (s.row i a.1).access g minTs ts .wReq a.2
    let n ← n.unLock
    return ((s.setNode i (pageOf a.1) n).setRow i a.1 row).record (.committed i a.1 v)
  else none

def cleanup (g : Nat) (pageOf : Nat → Nat) (i : Fin ni) (ts minTs : Nat) : List (Nat × RowId) → Cluster ni V →
    Option (Cluster ni V)
  | [], s => some s
  | a :: accesses, s => do
    let s ← s.commitRow g pageOf i ts minTs a
    cleanup g pageOf i ts minTs accesses s

def runTxn {g : Nat} (pageOf : Nat → Nat) (s : Cluster ni V) (q : Query ni g V) : Option (Cluster ni V) := do
  let (ts, m) ← (s.insts q.ins).getNextTs
  let s := s.setInst q.ins (m.addTs q.thd ts)
  let minTs := (s.insts q.ins).getMinTs
  let (s, rc) ← s.getWritePageLock pageOf q.ins q.thd (q.writePageSet pageOf)
  if rc = .abort then return s
  else
    let (s, accesses) ← s.getRows g q.ins ts minTs q.reqs []
    let s ← s.cleanup g pageOf q.ins ts minTs accesses
    s.removeThreads q.ins q.thd (q.writePageSet pageOf)

end Cluster

def clusterLts {V : Type} [Inhabited V] (ni g : Nat) (pageOf : Nat → Nat) (v₀ : Nat → V) :
    Lts (Cluster ni V) (Query ni g V) where
  init s := s = .init g v₀
  step := Cluster.runTxn pageOf

/-! ### What the log says -/

section Log

variable {ni : Nat} {V : Type}

/-- The bytes last committed for a key on any instance. -/
def lastCommitted (v₀ : Nat → V) : List (RowLog ni V) → Nat → V
  | [], k => v₀ k
  | .handed .. :: log, k => lastCommitted v₀ log k
  | .committed _ k' v :: log, k => if k' = k then v else lastCommitted v₀ log k

/-- The instance that committed them. -/
def lastWriter : List (RowLog ni V) → Nat → Option (Fin ni)
  | [], _ => none
  | .handed .. :: log, k => lastWriter log k
  | .committed i k' _ :: log, k => if k' = k then some i else lastWriter log k

/-- Every row handed out had the bytes last committed for its key. -/
def NoStaleBase (v₀ : Nat → V) : List (RowLog ni V) → Prop
  | [] => True
  | .handed _ k v :: log => v = lastCommitted v₀ log k ∧ NoStaleBase v₀ log
  | .committed .. :: log => NoStaleBase v₀ log

end Log

end Dbx1000
