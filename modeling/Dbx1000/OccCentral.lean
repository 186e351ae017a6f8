import Mathlib.Logic.Function.Basic
import Dbx1000.Global
import Dbx1000.Lib.Lts
import Dbx1000.Lib.Serial

/-!
# Optimistic concurrency control with one central validation (`occ.cpp`)

Any number of transactions, each run once. A transaction draws `start_ts` (`get_next_ts` counts twice and
returns the second number), copies the rows it accesses and ends in `central_validate`: under the latch
it takes the number `tnc`, the active writers and the history and becomes active itself; without the
latch it tests the write sets it has taken; if they pass it installs its `WR` rows one by one, and under
the latch again it leaves the active writers for the history. The tests read only sets that do not
change any more and are one step.

`start_ts` and `tnc` are numbers of two different counters, and the history is tested against the `RD`
rows only, so that a transaction does not notice most of what was committed since it started.
`CentralSys.Unchanged` are the runs where nothing it accessed was. `clock`, `ops` and the fields of a
transaction from `tnAtStart` on are the history of the run.
-/

namespace Dbx1000

variable {ρ V : Type}

/-- `set_ent` -/
structure SetEnt (ρ : Type) where
  tn : Nat
  txn : Nat
  rows : List ρ
deriving DecidableEq, Repr

structure OptCC (ρ : Type) where
  history : List (SetEnt ρ)
  active : List (SetEnt ρ)
  tnc : Nat

structure CentralAccess (ρ V : Type) where
  row : ρ
  type : AccessT
  data : V
deriving DecidableEq, Repr

/-- Where a transaction is: from `testing` on in `central_validate`. -/
inductive CentralPc (ρ V : Type)
  | idle
  | fetched
  | running
  | testing (finishTn : Nat) (his act : List (SetEnt ρ))
  | installing (todo : List (CentralAccess ρ V))
  | leaving (valid : Bool)
  | finished (rc : RC)

/-- `tnAtStart` is `tnc` when the transaction started; `began`, `entered` and `left` are the times of its
start and of the two sections under the latch. -/
structure CentralTxn (ρ V : Type) where
  pc : CentralPc ρ V
  startTs : Nat
  accs : List (CentralAccess ρ V)
  tnAtStart : Nat
  began : Nat
  entered : Nat
  left : Nat

namespace CentralTxn

def init : CentralTxn ρ V := ⟨.idle, 0, [], 0, 0, 0, 0⟩

/-- The rows of `wset` in `get_rw_set`. -/
def wset (x : CentralTxn ρ V) : List ρ := (x.accs.filter fun a => a.type = .wr).map CentralAccess.row

/-- The rows of `rset` in `get_rw_set`. -/
def rset (x : CentralTxn ρ V) : List ρ := (x.accs.filter fun a => a.type ≠ .wr).map CentralAccess.row

end CentralTxn

section Test

variable [DecidableEq ρ]

def testValid (set1 set2 : List ρ) : Bool := set1.all fun r => set2.all fun r' => decide (r ≠ r')

/-- The tests of `central_validate` between its two sections under the latch. -/
def centralTest (startTn finishTn : Nat) (his act : List (SetEnt ρ)) (rset wset : List ρ) : Bool :=
  (if startTn < finishTn then
    ((his.dropWhile fun e => decide (finishTn < e.tn)).takeWhile fun e => decide (startTn < e.tn)).all
      fun e => testValid e.rows rset
  else true) &&
  act.all fun e => testValid e.rows rset && testValid e.rows wset

end Test

namespace OptCC

/-- The first section under the latch, with the write set `wset` of the transaction `t`. -/
def enter (t : Nat) (wset : List ρ) (cc : OptCC ρ) : OptCC ρ :=
  if wset.isEmpty then cc else { cc with active := ⟨0, t, wset⟩ :: cc.active }

/-- The search for the entry of `t` and its removal. -/
def removeActive (t : Nat) : List (SetEnt ρ) → Option (List (SetEnt ρ))
  | [] => none
  | e :: es => if e.txn = t then some es else (removeActive t es).map (e :: ·)

/-- The second section under the latch. -/
def leave (t : Nat) (wset : List ρ) (valid : Bool) (cc : OptCC ρ) : Option (OptCC ρ) := do
  let active ← removeActive t cc.active
  if valid then
    if cc.history.head?.all fun e => e.tn = cc.tnc then
      return { history := ⟨cc.tnc + 1, t, wset⟩ :: cc.history, active := active, tnc := cc.tnc + 1 }
    else none
  else return { cc with active := active }

end OptCC

structure CentralSys (ρ V : Type) where
  timestamp : Nat
  cc : OptCC ρ
  rows : ρ → V
  txns : Nat → CentralTxn ρ V
  clock : Nat
  ops : List (Serial.Op Nat ρ)

inductive CentralEv (ρ V : Type)
  | fetch (t : Nat)
  | read (t : Nat) (row : ρ) (type : AccessT)
  | modify (t : Nat) (row : ρ) (v : V)
  | enter (t : Nat)
  | test (t : Nat)
  | install (t : Nat)
  | leave (t : Nat)

namespace CentralSys

def init (v₀ : ρ → V) : CentralSys ρ V := ⟨1, ⟨[], [], 0⟩, v₀, fun _ => .init, 1, []⟩

/-- The transaction `t` moves to `x`. -/
def goto (t : Nat) (x : CentralTxn ρ V) (s : CentralSys ρ V) : CentralSys ρ V :=
  { s with txns := Function.update s.txns t x, clock := s.clock + 1 }

variable [DecidableEq ρ]

def step (s : CentralSys ρ V) : CentralEv ρ V → Option (CentralSys ρ V)
  | .fetch t =>
    match (s.txns t).pc with
    | .idle => some { s.goto t { s.txns t with pc := .fetched } with timestamp := s.timestamp + 1 }
    | .fetched => some { s.goto t { s.txns t with
          pc := .running, startTs := s.timestamp, tnAtStart := s.cc.tnc, began := s.clock } with
        timestamp := s.timestamp + 1 }
    | _ => none
  | .read t r type =>
    match (s.txns t).pc with
    | .running => some { s.goto t { s.txns t with accs := (s.txns t).accs ++ [⟨r, type, s.rows r⟩] } with
        ops := s.ops ++ [⟨s.clock, t, r, false⟩] }
    | _ => none
  | .modify t r v =>
    match (s.txns t).pc with
    | .running => some (s.goto t { s.txns t with
        accs := (s.txns t).accs.map fun a => if a.row = r then { a with data := v } else a })
    | _ => none
  | .enter t =>
    match (s.txns t).pc with
    | .running => some { s.goto t { s.txns t with
          pc := .testing s.cc.tnc s.cc.history s.cc.active, entered := s.clock } with
        cc := s.cc.enter t (s.txns t).wset }
    | _ => none
  | .test t =>
    match (s.txns t).pc with
    | .testing finishTn his act =>
      if centralTest (s.txns t).startTs finishTn his act (s.txns t).rset (s.txns t).wset then
        some (s.goto t { s.txns t with pc := .installing ((s.txns t).accs.filter fun a => a.type = .wr).reverse })
      else some (s.goto t { s.txns t with pc := .leaving false })
    | _ => none
  | .install t =>
    match (s.txns t).pc with
    | .installing (a :: todo) => some { s.goto t { s.txns t with pc := .installing todo } with
        rows := Function.update s.rows a.row a.data, ops := s.ops ++ [⟨s.clock, t, a.row, true⟩] }
    | .installing [] => some (s.goto t { s.txns t with pc := .leaving true })
    | _ => none
  | .leave t =>
    match (s.txns t).pc with
    | .leaving valid =>
      if (s.txns t).wset.isEmpty then
        some (s.goto t { s.txns t with pc := .finished (if valid then .rcok else .abort), left := s.clock })
      else (s.cc.leave t (s.txns t).wset valid).map fun cc =>
        { s.goto t { s.txns t with pc := .finished (if valid then .rcok else .abort), left := s.clock } with cc := cc }
    | _ => none

def lts (v₀ : ρ → V) : Lts (CentralSys ρ V) (CentralEv ρ V) := ⟨(· = init v₀), step⟩

/-- A transaction enters the validation only when nobody who entered the history since it started wrote a row
it has accessed. -/
def Unchanged (s : CentralSys ρ V) : CentralEv ρ V → Prop
  | .enter t => ∀ e ∈ s.cc.history, (s.txns t).tnAtStart < e.tn → ∀ a ∈ (s.txns t).accs, a.row ∉ e.rows
  | _ => True

instance (s : CentralSys ρ V) : (ev : CentralEv ρ V) → Decidable (s.Unchanged ev)
  | .enter t => inferInstanceAs
      (Decidable (∀ e ∈ s.cc.history, (s.txns t).tnAtStart < e.tn → ∀ a ∈ (s.txns t).accs, a.row ∉ e.rows))
  | .fetch _ | .read _ _ _ | .modify _ _ _ | .test _ | .install _ | .leave _ => inferInstanceAs (Decidable True)

end CentralSys

end Dbx1000
