import Dbx1000.Global
import Dbx1000.Lib.Lts
import Dbx1000.Lib.Scan
import Dbx1000.Lib.Serial

/-!
# Optimistic concurrency control with validation per row (`occ.cpp`, `row_occ.cpp`)

Any number of transactions, each run once. A transaction draws `start_ts` (`get_next_ts` counts twice
and returns the second number), copies each row it accesses under the row's latch, works on the copies
and ends in `per_row_validate`: it latches its rows in the order of their names, stops at the first one
written after `start_ts`, and otherwise draws `end_ts`, writes the `WR` rows and releases the latches.
Every latch, read, write and release is a step. `log` are the transactions that passed the validation,
in the order in which they drew `end_ts`.
-/

namespace Dbx1000

/-- A row by the name of its table and its primary key. -/
structure RowName where
  table : List UInt8
  key : UInt64
deriving DecidableEq, Repr

/-- One of `accesses`: `data` is the transaction's copy of the row, which held `orig` when it was made. -/
structure OccAccess (V : Type) where
  row : RowName
  type : AccessT
  orig : V
  data : V
deriving DecidableEq, Repr

/-- The comparison of the sort: `strcmp` of the table names, then the primary keys. -/
def OccAccess.after {V : Type} (a b : OccAccess V) : Bool :=
  decide (b.row.table < a.row.table) || decide (a.row.table = b.row.table) && decide (b.row.key < a.row.key)

/-- `Row_occ`; `latch` is the transaction that holds the latch. -/
structure RowOcc (V : Type) where
  latch : Option Nat
  wts : Nat
  data : V

def RowOcc.validate {V : Type} (ts : Nat) (row : RowOcc V) : Bool := if ts < row.wts then false else true

def RowOcc.write {V : Type} (data : V) (ts : Nat) (row : RowOcc V) : Option (RowOcc V) :=
  if row.wts < ts then some { row with data := data, wts := ts } else none

/-- Where a transaction is: `reading` and `unlatching` in `Row_occ::access`, `locking` to `releasing` in
`per_row_validate`. -/
inductive OccPc (V : Type)
  | idle
  | fetched
  | running (accs : List (OccAccess V))
  | reading (accs : List (OccAccess V)) (row : RowName) (type : AccessT)
  | unlatching (accs : List (OccAccess V)) (row : RowName) (rc : RC)
  | locking (done todo : List (OccAccess V))
  | checking (done : List (OccAccess V)) (a : OccAccess V) (todo : List (OccAccess V))
  | writing (endTs : Nat) (accs todo : List (OccAccess V))
  | releasing (todo : List (OccAccess V)) (rc : RC)
  | finished (rc : RC)

structure OccSys (V : Type) where
  timestamp : Nat
  rows : RowName → RowOcc V
  startTs : Nat → Nat
  pc : Nat → OccPc V
  log : List (Serial.Entry Nat RowName V)

inductive OccEv (V : Type)
  | fetch (t : Nat)
  | lock (t : Nat) (row : RowName) (type : AccessT)
  | read (t : Nat)
  | unlock (t : Nat)
  | modify (t : Nat) (row : RowName) (v : V)
  | validate (t : Nat)
  | latch (t : Nat)
  | check (t : Nat)
  | drawEnd (t : Nat)
  | write (t : Nat)
  | release (t : Nat)

/-- What the transaction `t` with the accesses `accs` has read and writes. -/
def occEntry {V : Type} (t endTs : Nat) (accs : List (OccAccess V)) : Serial.Entry Nat RowName V where
  txn := t
  ts := endTs
  reads := accs.map fun a => (a.row, a.orig)
  writes := (accs.filter fun a => a.type = .wr).map fun a => (a.row, a.data)

namespace OccSys

variable {V : Type}

def init (v₀ : RowName → V) : OccSys V where
  timestamp := 1
  rows r := ⟨none, 0, v₀ r⟩
  startTs _ := 0
  pc _ := .idle
  log := []

def goto (t : Nat) (pc : OccPc V) (s : OccSys V) : OccSys V := { s with pc := Function.update s.pc t pc }

def setRow (r : RowName) (row : RowOcc V) (s : OccSys V) : OccSys V :=
  { s with rows := Function.update s.rows r row }

/-- `pthread_mutex_lock(_latch)` -/
def lock (t : Nat) (r : RowName) (s : OccSys V) : Option (OccSys V) :=
  if (s.rows r).latch = none then some (s.setRow r { s.rows r with latch := some t }) else none

/-- `pthread_mutex_unlock(_latch)` -/
def unlock (r : RowName) (s : OccSys V) : OccSys V := s.setRow r { s.rows r with latch := none }

/-- `Row_occ::access` between locking and unlocking the latch. -/
def access (t : Nat) (accs : List (OccAccess V)) (r : RowName) (type : AccessT) (s : OccSys V) : OccSys V :=
  if s.startTs t < (s.rows r).wts then s.goto t (.unlatching accs r .abort)
  else s.goto t (.unlatching (accs ++ [⟨r, type, (s.rows r).data, (s.rows r).data⟩]) r .rcok)

def step (s : OccSys V) : OccEv V → Option (OccSys V)
  | .fetch t =>
    match s.pc t with
    | .idle => some { s.goto t .fetched with timestamp := s.timestamp + 1 }
    | .fetched => some { s.goto t (.running []) with
        timestamp := s.timestamp + 1, startTs := Function.update s.startTs t s.timestamp }
    | _ => none
  | .lock t r type =>
    match s.pc t with
    | .running accs =>
      if ∀ a ∈ accs, a.row ≠ r then (s.lock t r).map (goto t (.reading accs r type)) else none
    | _ => none
  | .read t =>
    match s.pc t with
    | .reading accs r type => some (s.access t accs r type)
    | _ => none
  | .unlock t =>
    match s.pc t with
    | .unlatching accs r rc => some ((s.unlock r).goto t (if rc = .rcok then .running accs else .finished rc))
    | _ => none
  | .modify t r v =>
    match s.pc t with
    | .running accs => some (s.goto t (.running (accs.map fun a => if a.row = r then { a with data := v } else a)))
    | _ => none
  | .validate t =>
    match s.pc t with
    | .running accs => some (s.goto t (.locking [] (Scan.bubbleSort OccAccess.after (accs.length - 1) accs)))
    | _ => none
  | .latch t =>
    match s.pc t with
    | .locking done (a :: todo) => (s.lock t a.row).map (goto t (.checking done a todo))
    | _ => none
  | .check t =>
    match s.pc t with
    | .checking done a todo =>
      if (s.rows a.row).validate (s.startTs t) then some (s.goto t (.locking (done ++ [a]) todo))
      else some (s.goto t (.releasing (done ++ [a]) .abort))
    | _ => none
  | .drawEnd t =>
    match s.pc t with
    | .locking done [] => some { s.goto t (.writing s.timestamp done done.reverse) with
        timestamp := s.timestamp + 1, log := s.log ++ [occEntry t s.timestamp done] }
    | _ => none
  | .write t =>
    match s.pc t with
    | .writing endTs accs (a :: todo) =>
      if a.type = .wr then
        ((s.rows a.row).write a.data endTs).map fun row => (s.setRow a.row row).goto t (.writing endTs accs todo)
      else some (s.goto t (.writing endTs accs todo))
    | .writing _ accs [] => some (s.goto t (.releasing accs .rcok))
    | _ => none
  | .release t =>
    match s.pc t with
    | .releasing (a :: todo) rc => some ((s.unlock a.row).goto t (.releasing todo rc))
    | .releasing [] rc => some (s.goto t (.finished rc))
    | _ => none

def lts (v₀ : RowName → V) : Lts (OccSys V) (OccEv V) := ⟨(· = init v₀), step⟩

end OccSys

/-- `OccSys.step` with its branches as constructors. -/
inductive OccStep {V : Type} (s : OccSys V) : OccEv V → OccSys V → Prop
  | fetch {t : Nat} (hpc : s.pc t = .idle) :
      OccStep s (.fetch t) { s.goto t .fetched with timestamp := s.timestamp + 1 }
  | start {t : Nat} (hpc : s.pc t = .fetched) :
      OccStep s (.fetch t) { s.goto t (.running []) with
        timestamp := s.timestamp + 1, startTs := Function.update s.startTs t s.timestamp }
  | lock {t : Nat} {r : RowName} {type : AccessT} {accs : List (OccAccess V)} (hpc : s.pc t = .running accs)
      (hnew : ∀ a ∈ accs, a.row ≠ r) (hfree : (s.rows r).latch = none) :
      OccStep s (.lock t r type) ((s.setRow r { s.rows r with latch := some t }).goto t (.reading accs r type))
  | readAbort {t : Nat} {r : RowName} {type : AccessT} {accs : List (OccAccess V)}
      (hpc : s.pc t = .reading accs r type) :
      OccStep s (.read t) (s.goto t (.unlatching accs r .abort))
  | read {t : Nat} {r : RowName} {type : AccessT} {accs : List (OccAccess V)} (hpc : s.pc t = .reading accs r type)
      (hle : (s.rows r).wts ≤ s.startTs t) :
      OccStep s (.read t)
        (s.goto t (.unlatching (accs ++ [⟨r, type, (s.rows r).data, (s.rows r).data⟩]) r .rcok))
  | unlock {t : Nat} {r : RowName} {rc : RC} {accs : List (OccAccess V)} (hpc : s.pc t = .unlatching accs r rc) :
      OccStep s (.unlock t) ((s.unlock r).goto t (if rc = .rcok then .running accs else .finished rc))
  | modify {t : Nat} {r : RowName} {v : V} {accs : List (OccAccess V)} (hpc : s.pc t = .running accs) :
      OccStep s (.modify t r v)
        (s.goto t (.running (accs.map fun a => if a.row = r then { a with data := v } else a)))
  | validate {t : Nat} {accs accs' : List (OccAccess V)} (hpc : s.pc t = .running accs) (hperm : List.Perm accs' accs) :
      OccStep s (.validate t) (s.goto t (.locking [] accs'))
  | latch {t : Nat} {a : OccAccess V} {done todo : List (OccAccess V)} (hpc : s.pc t = .locking done (a :: todo))
      (hfree : (s.rows a.row).latch = none) :
      OccStep s (.latch t)
        ((s.setRow a.row { s.rows a.row with latch := some t }).goto t (.checking done a todo))
  | check {t : Nat} {a : OccAccess V} {done todo : List (OccAccess V)} (hpc : s.pc t = .checking done a todo)
      (hle : (s.rows a.row).wts ≤ s.startTs t) : OccStep s (.check t) (s.goto t (.locking (done ++ [a]) todo))
  | checkAbort {t : Nat} {a : OccAccess V} {done todo : List (OccAccess V)} (hpc : s.pc t = .checking done a todo) :
      OccStep s (.check t) (s.goto t (.releasing (done ++ [a]) .abort))
  | drawEnd {t : Nat} {done : List (OccAccess V)} (hpc : s.pc t = .locking done []) :
      OccStep s (.drawEnd t) { s.goto t (.writing s.timestamp done done.reverse) with
        timestamp := s.timestamp + 1, log := s.log ++ [occEntry t s.timestamp done] }
  | write {t e : Nat} {a : OccAccess V} {accs todo : List (OccAccess V)} (hpc : s.pc t = .writing e accs (a :: todo))
      (hwr : a.type = .wr) :
      OccStep s (.write t)
        ((s.setRow a.row { s.rows a.row with data := a.data, wts := e }).goto t (.writing e accs todo))
  | skip {t e : Nat} {a : OccAccess V} {accs todo : List (OccAccess V)} (hpc : s.pc t = .writing e accs (a :: todo))
      (hwr : a.type ≠ .wr) : OccStep s (.write t) (s.goto t (.writing e accs todo))
  | written {t e : Nat} {accs : List (OccAccess V)} (hpc : s.pc t = .writing e accs []) :
      OccStep s (.write t) (s.goto t (.releasing accs .rcok))
  | release {t : Nat} {a : OccAccess V} {todo : List (OccAccess V)} {rc : RC}
      (hpc : s.pc t = .releasing (a :: todo) rc) :
      OccStep s (.release t) ((s.unlock a.row).goto t (.releasing todo rc))
  | finish {t : Nat} {rc : RC} (hpc : s.pc t = .releasing [] rc) :
      OccStep s (.release t) (s.goto t (.finished rc))

theorem OccSys.lock_eq_some {V : Type} {s s' : OccSys V} {t : Nat} {r : RowName} (h : s.lock t r = some s') :
    (s.rows r).latch = none ∧ s' = s.setRow r { s.rows r with latch := some t } := by
  unfold OccSys.lock at h
  split at h
  · cases h
    exact ⟨‹_›, rfl⟩
  · cases h

theorem OccStep.of_step {V : Type} {s s' : OccSys V} {ev : OccEv V} (h : s.step ev = some s') : OccStep s ev s' := by
  cases ev with
  | fetch t =>
    simp only [OccSys.step] at h
    split at h
    · cases h; exact .fetch ‹_›
    · cases h; exact .start ‹_›
    · cases h
  | lock t r type =>
    simp only [OccSys.step] at h
    split at h
    · split at h
      · obtain ⟨u, hu, rfl⟩ := Option.map_eq_some_iff.1 h
        obtain ⟨hfree, rfl⟩ := OccSys.lock_eq_some hu
        exact .lock ‹_› ‹_› hfree
      · cases h
    · cases h
  | read t =>
    simp only [OccSys.step] at h
    split at h
    · cases h
      unfold OccSys.access
      split
      · exact .readAbort ‹_›
      · exact .read ‹_› (Nat.not_lt.1 ‹_›)
    · cases h
  | unlock t =>
    simp only [OccSys.step] at h
    split at h
    · cases h; exact .unlock ‹_›
    · cases h
  | modify t r v =>
    simp only [OccSys.step] at h
    split at h
    · cases h; exact .modify ‹_›
    · cases h
  | validate t =>
    simp only [OccSys.step] at h
    split at h
    · cases h; exact .validate ‹_› (Scan.bubbleSort_perm ..)
    · cases h
  | latch t =>
    simp only [OccSys.step] at h
    split at h
    · obtain ⟨u, hu, rfl⟩ := Option.map_eq_some_iff.1 h
      obtain ⟨hfree, rfl⟩ := OccSys.lock_eq_some hu
      exact .latch ‹_› hfree
    · cases h
  | check t =>
    simp only [OccSys.step] at h
    split at h
    · split at h
      · rename_i hv
        cases h
        exact .check ‹_› (by simpa [RowOcc.validate] using hv)
      · cases h; exact .checkAbort ‹_›
    · cases h
  | drawEnd t =>
    simp only [OccSys.step] at h
    split at h
    · cases h; exact .drawEnd ‹_›
    · cases h
  | write t =>
    simp only [OccSys.step] at h
    split at h
    · split at h
      · obtain ⟨row, hrow, rfl⟩ := Option.map_eq_some_iff.1 h
        unfold RowOcc.write at hrow
        split at hrow
        · cases hrow; exact .write ‹_› ‹_›
        · cases hrow
      · cases h; exact .skip ‹_› ‹_›
    · cases h; exact .written ‹_›
    · cases h
  | release t =>
    simp only [OccSys.step] at h
    split at h
    · cases h; exact .release ‹_›
    · cases h; exact .finish ‹_›
    · cases h

end Dbx1000
