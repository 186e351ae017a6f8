import Dbx1000.Txn

/-!
# YCSB transactions (`instance/benchmarks/ycsb_query.cpp`, `instance/txn/ycsb_txn.cpp`)

`gen_requests` draws the requests of a query, and `run_txn` makes one `get_row` call for a read or a
write and `scan_len` of them, all for the same key, for a scan; `finish` then returns the rows. Here a
transaction calls `Row_mvcc::access` with whatever the request asks for: `GetRow` maps every type but
`RD` to a `P_REQ`, while `cleanup` and `ReturnRow` end a prewrite for `WR` only. So the second call of a
scan is queued behind the prewrite of the first (`scan_waits_for_itself`). Without scans the keys of a
query are distinct and every step is a step of `TxnSys`, where all prewrites are returned.
-/

namespace Dbx1000

structure YcsbRequest where
  rtype : AccessT
  key : Nat
  scanLen : Nat
deriving DecidableEq, Repr

/-- `g_part_cnt`, `g_virtual_part_cnt`, `SCAN_LEN`, `g_key_order`. -/
structure YcsbConfig where
  partCnt : Nat
  virtualPartCnt : Nat
  scanLen : Nat
  keyOrder : Bool

/-- What one iteration of `gen_requests` draws. -/
structure Draw where
  rtype : AccessT
  rowId : Nat
  partId : Nat

/-! ### The requests of a query -/

section Query

variable (cfg : YcsbConfig)

namespace Draw

def key (d : Draw) : Nat := d.rowId * cfg.virtualPartCnt + d.partId

/-- A read or a write leaves the `scan_len` of its slot. -/
def request (slotLen : Nat) (d : Draw) : YcsbRequest :=
  match d.rtype with
  | .rd | .wr => ⟨d.rtype, d.key cfg, slotLen⟩
  | _ => ⟨.scan, d.key cfg, cfg.scanLen⟩

/-- The keys that the request takes in `all_keys`. -/
def keys (d : Draw) : List Nat :=
  match d.rtype with
  | .rd | .wr => [d.key cfg]
  | _ => (List.range cfg.scanLen).map fun i => (d.rowId + i) * cfg.partCnt + d.partId

end Draw

/-- The loop of `gen_requests`: a draw that meets a key taken before is dropped, and the next one is written over it
in the same slot, `requests[rid]`. `slotLen` is the `scan_len` of this slot. -/
def genLoop : List Nat → Nat → List Draw → List YcsbRequest
  | _, _, [] => []
  | allKeys, slotLen, d :: ds =>
    if ∃ k ∈ d.keys cfg, k ∈ allKeys then genLoop allKeys (d.request cfg slotLen).scanLen ds
    else d.request cfg slotLen :: genLoop (d.keys cfg ++ allKeys) 0 ds

/-- The inner loop of the sort: the first `n` neighbours are compared. -/
def bubble : Nat → List YcsbRequest → List YcsbRequest
  | n + 1, a :: b :: l => if b.key < a.key then b :: bubble n (a :: l) else a :: bubble n (b :: l)
  | _, l => l

def bubbleSort : Nat → List YcsbRequest → List YcsbRequest
  | 0, l => l
  | n + 1, l => bubbleSort n (bubble (n + 1) l)

/-- `assert(requests[i].key < requests[i + 1].key)` -/
def increasing : List YcsbRequest → Bool
  | a :: b :: l => decide (a.key < b.key) && increasing (b :: l)
  | _ => true

def genRequests (draws : List Draw) : Option (List YcsbRequest) :=
  let reqs := genLoop cfg [] 0 draws
  if cfg.keyOrder then
    let reqs := bubbleSort (reqs.length - 1) reqs
    if increasing reqs then some reqs else none
  else some reqs

variable {cfg}

theorem bubble_eq (n : Nat) (l : List YcsbRequest) :
    bubble n l = Scan.bubble (fun a b => decide (b.key < a.key)) n l := by
  fun_induction bubble n l with
  | case1 n a b l h ih => simp [Scan.bubble, h, ih]
  | case2 n a b l h ih => simp [Scan.bubble, h, ih]
  | case3 n l h => rw [Scan.bubble.eq_def]; grind

theorem bubbleSort_eq (n : Nat) (l : List YcsbRequest) :
    bubbleSort n l = Scan.bubbleSort (fun a b => decide (b.key < a.key)) n l := by
  induction n generalizing l with
  | zero => rfl
  | succ n ih => rw [bubbleSort, Scan.bubbleSort, ih, bubble_eq]

theorem genRequests_perm {draws : List Draw} {reqs : List YcsbRequest} (h : genRequests cfg draws = some reqs) :
    reqs.Perm (genLoop cfg [] 0 draws) := by
  unfold genRequests at h
  dsimp only at h
  split at h
  · split at h
    · cases h
      rw [bubbleSort_eq]
      exact Scan.bubbleSort_perm ..
    · cases h
  · cases h; exact .refl _

theorem Draw.request_of_ne_scan {d : Draw} {slotLen : Nat} (h : (d.request cfg slotLen).rtype ≠ .scan) :
    ((d.request cfg slotLen).rtype = .rd ∨ (d.request cfg slotLen).rtype = .wr) ∧
      d.keys cfg = [(d.request cfg slotLen).key] := by
  unfold Draw.request Draw.keys at *
  split at h <;> simp_all

/-- Reads and writes of one query have different keys. -/
theorem genLoop_nodup {allKeys : List Nat} {slotLen : Nat} {draws : List Draw}
    (h : ∀ q ∈ genLoop cfg allKeys slotLen draws, q.rtype ≠ .scan) :
    ((genLoop cfg allKeys slotLen draws).map YcsbRequest.key).Nodup ∧
      ∀ q ∈ genLoop cfg allKeys slotLen draws, q.key ∉ allKeys ∧ (q.rtype = .rd ∨ q.rtype = .wr) := by
  induction draws generalizing allKeys slotLen with
  | nil => simp [genLoop]
  | cons d ds ih =>
    rw [genLoop] at h ⊢
    split at h
    · rename_i hmeet
      rw [if_pos hmeet]
      exact ih h
    · rename_i hnew
      rw [if_neg hnew]
      obtain ⟨htype, hkeys⟩ := Draw.request_of_ne_scan (h _ List.mem_cons_self)
      obtain ⟨hnodup, hmem⟩ := ih fun q hq => h q (List.mem_cons_of_mem _ hq)
      rw [hkeys] at hnew hnodup hmem ⊢
      simp only [List.mem_singleton, exists_eq_left] at hnew
      constructor
      · simp only [List.map_cons, List.nodup_cons, List.mem_map, not_exists, not_and]
        refine ⟨fun q hq hk => (hmem q hq).1 ?_, hnodup⟩
        simp [hk]
      · intro q hq
        rcases List.mem_cons.1 hq with rfl | hq
        · exact ⟨hnew, htype⟩
        · exact ⟨fun hk => (hmem q hq).1 (List.mem_append_right _ hk), (hmem q hq).2⟩

/-- The queries without scans: reads and writes of different keys. -/
theorem genRequests_nodup {draws : List Draw} {reqs : List YcsbRequest} (h : genRequests cfg draws = some reqs)
    (hscan : ∀ q ∈ reqs, q.rtype ≠ .scan) :
    (reqs.map YcsbRequest.key).Nodup ∧ ∀ q ∈ reqs, q.rtype = .rd ∨ q.rtype = .wr := by
  have hperm := genRequests_perm h
  obtain ⟨hnodup, hmem⟩ := genLoop_nodup fun q hq => hscan q (hperm.mem_iff.2 hq)
  exact ⟨(hperm.map _).nodup_iff.2 hnodup, fun q hq => (hmem q (hperm.mem_iff.1 hq)).2⟩

end Query

/-! ### `run_txn` -/

/-- `todo` are the requests from `rid` on, `row` is `row_local` between `get_row` and the end of the
iteration. -/
structure YcsbTxn extends TxnMan where
  requestCnt : Nat
  todo : List YcsbRequest
  iteration : Nat
  row : Option RowId
  curRow : Option RowId
  tsReady : Bool

/-- `get_row` returns the row `r`. -/
def YcsbTxn.got (req : YcsbRequest) (r : RowId) (m : YcsbTxn) : YcsbTxn :=
  { m with status := .running, accesses := ⟨req.key, req.rtype, r⟩ :: m.accesses, row := some r }

/-- The end of an iteration of the inner loop. -/
def YcsbTxn.iterated (req : YcsbRequest) (rest : List YcsbRequest) (m : YcsbTxn) : YcsbTxn :=
  if req.rtype = .rd ∨ req.rtype = .wr ∨ m.iteration + 1 = req.scanLen then
    { m with todo := rest, iteration := 0, row := none }
  else { m with iteration := m.iteration + 1, row := none }

structure YcsbSys (V : Type) where
  rows : Nat → RowMvcc V
  txns : Nat → YcsbTxn

inductive YcsbEv
  | start (ts : Nat) (draws : List Draw)
  | lockAbort (ts : Nat)
  | getRow (ts minTs : Nat)
  | resume (ts : Nat)
  | compute (ts : Nat)
  | finish (ts : Nat)
  | cleanup (ts minTs : Nat)

/-- `GetRow`: `(type == RD) ? R_REQ : P_REQ`. -/
def AccessT.tsType (type : AccessT) : TsType := if type = .rd then .rReq else .pReq

/-- The assignments of `update_buffer` to the transactions it releases. -/
def wakeTxns (txns : Nat → YcsbTxn) (ws : List Wake) : Nat → YcsbTxn :=
  ws.foldl (fun txns w => Function.update txns w.ts { txns w.ts with curRow := some w.row, tsReady := true }) txns

namespace YcsbSys

variable {V : Type}

def init (v₀ : Nat → V) : YcsbSys V := ⟨fun k => .init (v₀ k), fun _ => ⟨⟨.fresh, []⟩, 0, [], 0, none, none, true⟩⟩

def setRow (key : Nat) (row : RowMvcc V) (sys : YcsbSys V) : YcsbSys V :=
  { sys with rows := Function.update sys.rows key row }

def setTxn (ts : Nat) (m : YcsbTxn) (sys : YcsbSys V) : YcsbSys V :=
  { sys with txns := Function.update sys.txns ts m }

variable [Inhabited V]

def getRow (g ts minTs : Nat) (sys : YcsbSys V) : Option (YcsbSys V) :=
  match (sys.txns ts).status, (sys.txns ts).row, (sys.txns ts).todo with
  | .running, none, req :: _ => do
    let (row, o) ← (sys.rows req.key).access g minTs ts req.rtype.tsType 0
    match o.rc, o.curRow with
    | .rcok, some r => return (sys.setRow req.key row).setTxn ts { (sys.txns ts).got req r with curRow := some r }
    | .wait, _ =>
      return (sys.setRow req.key row).setTxn ts
        { sys.txns ts with status := .waiting req.key req.rtype, tsReady := false }
    | .abort, _ => return (sys.setRow req.key row).setTxn ts { sys.txns ts with status := .cleaning .abort }
    | _, _ => none
  | _, _, _ => none

/-- `while (!txn->ts_ready)` ends, and the row is `cur_row`. -/
def resume (ts : Nat) (sys : YcsbSys V) : Option (YcsbSys V) :=
  match (sys.txns ts).status, (sys.txns ts).todo, (sys.txns ts).curRow with
  | .waiting _ _, req :: _, some r =>
    if (sys.txns ts).tsReady then some (sys.setTxn ts ((sys.txns ts).got req r)) else none
  | _, _, _ => none

/-- The rest of an iteration: a write puts the timestamp into the row. -/
def compute (stamp : Nat → V → V) (ts : Nat) (sys : YcsbSys V) : Option (YcsbSys V) :=
  match (sys.txns ts).row, (sys.txns ts).todo with
  | some r, req :: rest =>
    if req.rtype = .wr ∧ 1 < (sys.txns ts).requestCnt then do
      let v ← (sys.rows req.key).mem r
      return (sys.setRow req.key ((sys.rows req.key).setRow r (stamp ts v))).setTxn ts
        ((sys.txns ts).iterated req rest)
    else some (sys.setTxn ts ((sys.txns ts).iterated req rest))
  | _, _ => none

/-- `ReturnRow` with `XP_REQ` or `W_REQ` for the last access. -/
def returnRow (g ts minTs : Nat) (type : TsType) (a : Access) (as : List Access) (sys : YcsbSys V) :
    Option (YcsbSys V) := do
  let (row, o) ← (sys.rows a.key).access g minTs ts type a.data
  let sys : YcsbSys V := ⟨Function.update sys.rows a.key row, wakeTxns sys.txns o.woken⟩
  return sys.setTxn ts { sys.txns ts with accesses := as }

/-- One iteration of the loop of `cleanup`, or its end. -/
def cleanup (g ts minTs : Nat) (sys : YcsbSys V) : Option (YcsbSys V) :=
  match (sys.txns ts).status, (sys.txns ts).accesses with
  | .cleaning _, [] => some (sys.setTxn ts { sys.txns ts with status := .done })
  | .cleaning rc, a :: as =>
    match a.type.returned rc with
    | .xp => sys.returnRow g ts minTs .xpReq a as
    | .wr => sys.returnRow g ts minTs .wReq a as
    | _ => some (sys.setTxn ts { sys.txns ts with accesses := as })
  | _, _ => none

def step (cfg : YcsbConfig) (g : Nat) (stamp : Nat → V → V) (sys : YcsbSys V) : YcsbEv → Option (YcsbSys V)
  | .start ts draws =>
    if (sys.txns ts).status = .fresh ∧ 0 < ts ∧ ts ≤ uint64Max then do
      let reqs ← genRequests cfg draws
      return sys.setTxn ts ⟨⟨.running, []⟩, reqs.length, reqs, 0, none, none, true⟩
    else none
  -- `GetWritePageLock` aborts: `run_txn` returns before it has touched a row
  | .lockAbort ts =>
    if (sys.txns ts).status = .running ∧ (sys.txns ts).row = none ∧ (sys.txns ts).accesses = [] then
      some (sys.setTxn ts { sys.txns ts with status := .done })
    else none
  | .getRow ts minTs => sys.getRow g ts minTs
  | .resume ts => sys.resume ts
  | .compute ts => sys.compute stamp ts
  | .finish ts =>
    if (sys.txns ts).status = .running ∧ (sys.txns ts).row = none ∧ (sys.txns ts).todo = [] then
      some (sys.setTxn ts { sys.txns ts with status := .cleaning .rcok })
    else none
  | .cleanup ts minTs => sys.cleanup g ts minTs

end YcsbSys

/-- `stamp ts v` is the row `v` with the timestamp `ts` in its last bytes. -/
def ycsbLts {V : Type} [Inhabited V] (cfg : YcsbConfig) (gThreadCnt : Nat) (stamp : Nat → V → V) (v₀ : Nat → V) :
    Lts (YcsbSys V) YcsbEv where
  init sys := sys = YcsbSys.init v₀
  step := YcsbSys.step cfg gThreadCnt stamp

end Dbx1000
