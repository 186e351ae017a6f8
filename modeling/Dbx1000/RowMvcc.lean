import Mathlib.Logic.Function.Basic
import Dbx1000.Global
import Dbx1000.Lib.Scan

/-!
# `Row_mvcc` (`instance/concurrency_control/row_mvcc.cpp`)

The version store of one row. `RowItem *` is an id into `mem`: `new` takes the next id, `delete`
clears it, and `V` is the type of a row's bytes. `page` is the row's slot in the page store, which
`WriteRow` writes and `SnapShotReadRow` reads. A transaction is named by its timestamp. `_his_len`
and `_req_len` are the lengths of the two lists. `GetMinTs` is read at most once in a call of
`access` and is the argument `minTs`; `none` is a failed assertion or a use of freed memory. The
assignments to other transactions (`cur_row`, `ts_ready`) are returned as `Wake`s.
-/

namespace Dbx1000

abbrev RowId := Nat

structure WriteHisEntry where
  valid : Bool
  reserved : Bool
  ts : Nat
  row : Option RowId
deriving DecidableEq, Repr

structure ReqEntry where
  valid : Bool
  type : TsType
  ts : Nat
deriving DecidableEq, Repr

structure RowMvcc (V : Type) where
  /-- `row_`, the copy of the row loaded from its page. -/
  row : Option RowId
  latestRow : Option RowId
  latestWts : Nat
  oldestWts : Nat
  writeHistory : List WriteHisEntry
  existsPrewrite : Bool
  prewriteTs : Nat
  prewriteHisId : Nat
  maxServedRts : Nat
  requests : List ReqEntry
  numVersions : Nat
  mem : RowId → Option V
  nextRow : RowId
  page : V

/-- `_requests[i].txn->cur_row = row; _requests[i].txn->ts_ready = true` for the transaction `ts`. -/
structure Wake where
  ts : Nat
  type : TsType
  row : RowId
deriving DecidableEq, Repr

structure Outcome where
  rc : RC
  curRow : Option RowId
  woken : List Wake
deriving DecidableEq, Repr

namespace RowMvcc

variable {V : Type}

def hisLen (s : RowMvcc V) : Nat := s.writeHistory.length

def init (v : V) : RowMvcc V where
  row := none
  latestRow := none
  latestWts := 0
  oldestWts := 0
  writeHistory := List.replicate 4 ⟨false, false, 0, none⟩
  existsPrewrite := false
  prewriteTs := 0
  prewriteHisId := 0
  maxServedRts := 0
  requests := List.replicate 4 ⟨false, .rReq, 0⟩
  numVersions := 0
  mem := fun _ => none
  nextRow := 0
  page := v

/-! ### The request array -/

/-- The `for` loop of `buffer_req`: the first entry that is not valid takes the request. -/
def placeReq (q : ReqEntry) : List ReqEntry → Option (List ReqEntry)
  | [] => none
  | e :: es => if e.valid then (placeReq q es).map (e :: ·) else some (q :: es)

/-- `double_list(1)` -/
def doubleRequests (reqs : List ReqEntry) : List ReqEntry :=
  reqs ++ List.replicate reqs.length ⟨false, .rReq, 0⟩

def bufferReq (type : TsType) (ts : Nat) (s : RowMvcc V) : Option (RowMvcc V) :=
  match placeReq ⟨true, type, ts⟩ s.requests with
  | some reqs => some { s with requests := reqs }
  | none => (placeReq ⟨true, type, ts⟩ (doubleRequests s.requests)).map
      fun reqs => { s with requests := reqs }

/-! ### The latest row -/

def getLatestRow (s : RowMvcc V) : Option (RowMvcc V) :=
  if s.latestRow = none ∧ s.numVersions = 0 ∧ s.row = none then
    some { s with row := some s.nextRow, latestRow := some s.nextRow,
                  mem := Function.update s.mem s.nextRow (some s.page), nextRow := s.nextRow + 1 }
  else none

/-- `if (nullptr == _latest_row) GetLatestRow(txn)`, and the row `_latest_row` then points to. -/
def withLatest (s : RowMvcc V) : Option (RowMvcc V × RowId) :=
  match s.latestRow with
  | some r => some (s, r)
  | none => do
    let s ← s.getLatestRow
    let r ← s.latestRow
    return (s, r)

/-- A read of `ts` is given the latest row. -/
def serveLatest (ts : Nat) (s : RowMvcc V) : Option (RowMvcc V × RowId) := do
  let (s, r) ← s.withLatest
  return ({ s with maxServedRts := if s.maxServedRts < ts then ts else s.maxServedRts }, r)

/-! ### `reserveRow` -/

/-- The second loop of the garbage collection: every version up to `maxRecycleTs` is dropped, and
`_latest_row` with it when it points there. -/
def recycle (maxRecycleTs : Nat) : List WriteHisEntry → Option RowId → Nat →
    Option (List WriteHisEntry × Option RowId × Nat)
  | [], latest, n => some ([], latest, n)
  | e :: es, latest, n =>
    if e.valid && decide (e.ts ≤ maxRecycleTs) then
      if e.row.isSome then do
        let (es, latest, n) ← recycle maxRecycleTs es (if latest = e.row then none else latest) (n - 1)
        return ({ e with valid := false, reserved := false } :: es, latest, n)
      else none
    else do
      let (es, latest, n) ← recycle maxRecycleTs es latest n
      return (e :: es, latest, n)

/-- The newest version older than `minTs`: its timestamp and index. -/
def maxRecycle (minTs : Nat) (s : RowMvcc V) : Nat × Nat :=
  scan (fun b e => (e.valid && decide (e.ts < minTs)) && decide (b < e.ts)) WriteHisEntry.ts
    s.writeHistory 0 (0, s.hisLen)

/-- The garbage collection at the head of `reserveRow`. -/
def collect (minTs : Nat) (s : RowMvcc V) : Option (RowMvcc V) :=
  if s.oldestWts < minTs ∧ s.numVersions = s.hisLen then
    if (s.maxRecycle minTs).2 ≠ s.hisLen then do
      let (wh, latest, n) ← recycle (s.maxRecycle minTs).1 s.writeHistory s.latestRow s.numVersions
      return { s with oldestWts := (s.maxRecycle minTs).1, writeHistory := wh, latestRow := latest,
                      numVersions := n }
    else some s
  else some s

/-- The search for an unused entry: the first that has a row already, else the last one. -/
def freeEntry : List WriteHisEntry → Nat → Nat → Nat
  | [], _, idx => idx
  | e :: es, i, idx =>
    if !e.valid && !e.reserved && e.row.isSome then i
    else if !e.valid && !e.reserved then freeEntry es (i + 1) i
    else freeEntry es (i + 1) idx

/-- The oldest version: its timestamp and index. -/
def minVersion (s : RowMvcc V) : Nat × Nat :=
  scan (fun b e => e.valid && decide (e.ts < b)) WriteHisEntry.ts s.writeHistory 0 (uint64Max, s.hisLen)

/-- `double_list(0)` -/
def doubleHistory (s : RowMvcc V) : RowMvcc V :=
  { s with writeHistory := s.writeHistory ++ List.replicate s.hisLen ⟨false, false, 0, none⟩ }

/-- The entry `reserveRow` takes: an unused one, else the oldest version's when the history is as
long as `gThreadCnt`, else the first of a doubled history. -/
def pickEntry (gThreadCnt : Nat) (s : RowMvcc V) : Option (RowMvcc V × Nat) :=
  if s.numVersions < s.hisLen then
    if freeEntry s.writeHistory 0 s.hisLen < s.hisLen then
      some (s, freeEntry s.writeHistory 0 s.hisLen)
    else none
  else if gThreadCnt ≤ s.hisLen then do
    let e ← s.writeHistory[s.minVersion.2]?
    if s.oldestWts < s.minVersion.1 ∧ e.row.isSome then
      return ({ s with oldestWts := s.minVersion.1, numVersions := s.numVersions - 1 }, s.minVersion.2)
    else none
  else some (s.doubleHistory, s.hisLen)

variable [Inhabited V]

/-- The row of the entry at `idx`, a new `RowItem` (with arbitrary bytes) if it has none, and the
entry is reserved for `ts`. -/
def reserveEntry (ts idx : Nat) (s : RowMvcc V) : Option (RowMvcc V × RowId) := do
  let e ← s.writeHistory[idx]?
  match e.row with
  | some r =>
    return ({ s with writeHistory := s.writeHistory.set idx ⟨false, true, ts, some r⟩,
                     existsPrewrite := true, prewriteHisId := idx, prewriteTs := ts }, r)
  | none =>
    return ({ s with writeHistory := s.writeHistory.set idx ⟨false, true, ts, some s.nextRow⟩,
                     existsPrewrite := true, prewriteHisId := idx, prewriteTs := ts,
                     mem := Function.update s.mem s.nextRow (some default),
                     nextRow := s.nextRow + 1 }, s.nextRow)

def reserveRow (gThreadCnt minTs ts : Nat) (s : RowMvcc V) : Option (RowMvcc V × RowId) :=
  if s.existsPrewrite then none
  else do
    let s ← s.collect minTs
    let (s, idx) ← s.pickEntry gThreadCnt
    s.reserveEntry ts idx

/-- A prewrite of `ts` is granted: a reserved row, filled with the latest row's bytes. -/
def grant (gThreadCnt minTs ts : Nat) (s : RowMvcc V) : Option (RowMvcc V × RowId) := do
  let (s, res) ← s.reserveRow gThreadCnt minTs ts
  let (s, latest) ← s.withLatest
  let v ← s.mem latest
  return ({ s with mem := Function.update s.mem res (some v) }, res)

/-! ### `update_buffer` -/

/-- The timestamp of the next pending `P_REQ` after `ts`. -/
def nextPreTs (ts : Nat) (reqs : List ReqEntry) : Nat :=
  (scan (fun b q => (q.valid && decide (q.type = .pReq) && decide (ts < q.ts)) && decide (q.ts < b))
    ReqEntry.ts reqs 0 (uint64Max, reqs.length)).1

/-- The loop of `update_buffer`: pending reads before `next` and the prewrite at `next` return. -/
def updateLoop (gThreadCnt minTs ts next : Nat) : List ReqEntry → RowMvcc V →
    Option (List ReqEntry × RowMvcc V × List Wake)
  | [], s => some ([], s, [])
  | q :: qs, s =>
    if q.valid then
      if ts < q.ts then
        if q.type = .rReq ∧ q.ts < next then do
          let (s, r) ← s.serveLatest q.ts
          let (qs, s, ws) ← updateLoop gThreadCnt minTs ts next qs s
          return ({ q with valid := false } :: qs, s, ⟨q.ts, q.type, r⟩ :: ws)
        else if q.ts = next then
          if q.type = .pReq then do
            let (s, r) ← s.grant gThreadCnt minTs q.ts
            let (qs, s, ws) ← updateLoop gThreadCnt minTs ts next qs s
            return ({ q with valid := false } :: qs, s, ⟨q.ts, q.type, r⟩ :: ws)
          else none
        else do
          let (qs, s, ws) ← updateLoop gThreadCnt minTs ts next qs s
          return (q :: qs, s, ws)
      else none
    else do
      let (qs, s, ws) ← updateLoop gThreadCnt minTs ts next qs s
      return (q :: qs, s, ws)

def updateBuffer (gThreadCnt minTs ts : Nat) (s : RowMvcc V) : Option (RowMvcc V × List Wake) := do
  let (reqs, s', ws) ← updateLoop gThreadCnt minTs ts (nextPreTs ts s.requests) s.requests s
  return ({ s' with requests := reqs }, ws)

/-! ### `access` -/

/-- The version search of `R_REQ`. `the_ts` is a `uint32_t`: what is stored of a timestamp are its
low 32 bits. -/
def searchVersion (ts : Nat) (s : RowMvcc V) : Nat :=
  (scan (fun b e => (e.valid && decide (e.ts < ts)) && decide (b < e.ts)) (fun e => e.ts % 2 ^ 32)
    s.writeHistory 0 (0, s.hisLen)).2

/-- The branch of `R_REQ` between `_oldest_wts` and `_latest_wts`. -/
def readHistory (ts : Nat) (s : RowMvcc V) : Option (RowMvcc V × RowId) :=
  if s.searchVersion ts = s.hisLen then s.withLatest
  else do
    let e ← s.writeHistory[s.searchVersion ts]?
    let r ← e.row
    return (s, r)

def readReq (ts : Nat) (s : RowMvcc V) : Option (RowMvcc V × Outcome) :=
  if ts < s.oldestWts then some (s, ⟨.abort, none, []⟩)
  else if s.latestWts < ts then
    if s.existsPrewrite ∧ s.prewriteTs < ts then do
      let s ← s.bufferReq .rReq ts
      return (s, ⟨.wait, none, []⟩)
    else do
      let (s, r) ← s.serveLatest ts
      return (s, ⟨.rcok, some r, []⟩)
  else do
    let (s, r) ← s.readHistory ts
    return (s, ⟨.rcok, some r, []⟩)

def prewriteReq (gThreadCnt minTs ts : Nat) (s : RowMvcc V) : Option (RowMvcc V × Outcome) :=
  if ts < s.latestWts ∨ ts < s.maxServedRts ∨ s.existsPrewrite ∧ ts < s.prewriteTs then
    some (s, ⟨.abort, none, []⟩)
  else if s.existsPrewrite then do
    let s ← s.bufferReq .pReq ts
    return (s, ⟨.wait, none, []⟩)
  else do
    let (s, r) ← s.grant gThreadCnt minTs ts
    return (s, ⟨.rcok, some r, []⟩)

/-- `delete this->row_` -/
def deleteRow (s : RowMvcc V) : RowMvcc V :=
  match s.row with
  | some r => { s with row := none, mem := Function.update s.mem r none }
  | none => s

/-- `W_REQ` up to the call of `update_buffer`: the reserved entry becomes the latest version and
its bytes go to the page. -/
def commit (ts : Nat) (row : RowId) (s : RowMvcc V) : Option (RowMvcc V) := do
  let e ← s.writeHistory[s.prewriteHisId]?
  let v ← s.mem row
  if s.latestWts < ts ∧ e.row = some row then
    return { deleteRow { s with
        writeHistory := s.writeHistory.set s.prewriteHisId { e with valid := true, ts := ts },
        latestWts := ts, latestRow := some row, page := v } with
      existsPrewrite := false, numVersions := s.numVersions + 1 }
  else none

/-- `XP_REQ` up to the call of `update_buffer`. -/
def release (row : RowId) (s : RowMvcc V) : Option (RowMvcc V) := do
  let e ← s.writeHistory[s.prewriteHisId]?
  if e.row = some row then
    return { s with
      writeHistory := s.writeHistory.set s.prewriteHisId { e with valid := false, reserved := false },
      existsPrewrite := false }
  else none

/-- `Row_mvcc::access` by the transaction `ts`; `row` is the granted row of a `W_REQ` or `XP_REQ`. -/
def access (gThreadCnt minTs : Nat) (s : RowMvcc V) (ts : Nat) (type : TsType) (row : RowId) :
    Option (RowMvcc V × Outcome) :=
  match type with
  | .rReq => s.readReq ts
  | .pReq => s.prewriteReq gThreadCnt minTs ts
  | .wReq => do
    let s ← s.commit ts row
    let (s, ws) ← s.updateBuffer gThreadCnt minTs ts
    return (s, ⟨.rcok, none, ws⟩)
  | .xpReq => do
    let s ← s.release row
    let (s, ws) ← s.updateBuffer gThreadCnt minTs ts
    return (s, ⟨.rcok, none, ws⟩)

end RowMvcc

end Dbx1000
