import Mathlib.Logic.Relation
import Dbx1000.RowInv

/-!
# Transactions over many rows (`instance/txn/txn.cpp`)

Any number of transactions, named by their timestamps, over any number of rows, named by their keys.
`get_row` calls `access` on a row and may leave the transaction spinning on `ts_ready`; a transaction
ends with `finish`, whose `cleanup` loop returns the rows from the last access to the first. The
transactions interleave between any two of these calls. A pending request waits for the holder of the
row's prewrite, who is older, so that no set of transactions waits in a circle.
-/

namespace Dbx1000

structure Access where
  key : Nat
  type : AccessT
  data : RowId
deriving DecidableEq, Repr

inductive TxnStatus
  | fresh
  | running
  | waiting (key : Nat) (type : AccessT)
  | cleaning (rc : RC)
  | done
deriving DecidableEq, Repr

/-- `accesses[row_cnt - 1]` is the head of the list. -/
structure TxnMan where
  status : TxnStatus
  accesses : List Access
deriving DecidableEq, Repr

structure TxnSys (V : Type) where
  rows : Nat → RowSt V
  txns : Nat → TxnMan

inductive TxnEv (V : Type)
  | start (ts : Nat)
  | getRow (ts key : Nat) (type : AccessT) (minTs : Nat)
  | resume (ts : Nat)
  | modify (ts key : Nat) (v : V)
  | finish (ts : Nat)
  | cleanup (ts minTs : Nat)

/-- `GetRow`: `(type == RD) ? R_REQ : P_REQ`. -/
def AccessT.event {V : Type} (ts minTs : Nat) : AccessT → RowEv V
  | .rd => .read ts
  | _ => .prewrite ts minTs

/-- `cleanup` returns a written row of an aborted transaction as `XP`. -/
def AccessT.returned (rc : RC) (type : AccessT) : AccessT :=
  if type = .wr ∧ rc = .abort then .xp else type

/-- The rest of `get_row` after `access` left the transaction in the phase `ph` on the row. -/
def TxnMan.answered (key : Nat) (type : AccessT) (ph : Phase) (m : TxnMan) : TxnMan :=
  match ph with
  | .reading r | .granted r => ⟨.running, ⟨key, type, r⟩ :: m.accesses⟩
  | .waiting _ => ⟨.waiting key type, m.accesses⟩
  | .idle | .finished => ⟨.cleaning .abort, m.accesses⟩

namespace TxnSys

variable {V : Type}

def init (v₀ : Nat → V) : TxnSys V := ⟨fun k => .init (v₀ k), fun _ => ⟨.fresh, []⟩⟩

def setTxn (ts : Nat) (m : TxnMan) (sys : TxnSys V) : TxnSys V :=
  { sys with txns := Function.update sys.txns ts m }

def setRow (key : Nat) (row : RowSt V) (sys : TxnSys V) : TxnSys V :=
  { sys with rows := Function.update sys.rows key row }

@[simp] theorem setTxn_self (ts : Nat) (sys : TxnSys V) : sys.setTxn ts (sys.txns ts) = sys := by
  simp [setTxn]

variable [Inhabited V]

def getRow (g ts key : Nat) (type : AccessT) (minTs : Nat) (sys : TxnSys V) : Option (TxnSys V) :=
  if (sys.txns ts).status = .running ∧ (∀ a ∈ (sys.txns ts).accesses, a.key ≠ key) ∧ (type = .rd ∨ type = .wr) then do
    let row ← (sys.rows key).step g (type.event ts minTs)
    return (sys.setRow key row).setTxn ts ((sys.txns ts).answered key type (row.phase ts))
  else none

/-- `while (!txn->ts_ready)` ends, and the row is `cur_row`. -/
def resume (ts : Nat) (sys : TxnSys V) : Option (TxnSys V) :=
  match (sys.txns ts).status with
  | .waiting key type =>
    match (sys.rows key).phase ts with
    | .reading r | .granted r => some (sys.setTxn ts ⟨.running, ⟨key, type, r⟩ :: (sys.txns ts).accesses⟩)
    | _ => none
  | _ => none

/-- One iteration of the loop of `cleanup`, or its end. -/
def cleanup (g ts minTs : Nat) (sys : TxnSys V) : Option (TxnSys V) :=
  match (sys.txns ts).status, (sys.txns ts).accesses with
  | .cleaning _, [] => some (sys.setTxn ts ⟨.done, []⟩)
  | .cleaning rc, a :: as =>
    match a.type.returned rc with
    | .xp => do
      let row ← (sys.rows a.key).step g (.undo ts minTs)
      return (sys.setRow a.key row).setTxn ts ⟨.cleaning rc, as⟩
    | .wr => do
      let row ← (sys.rows a.key).step g (.write ts minTs)
      return (sys.setRow a.key row).setTxn ts ⟨.cleaning rc, as⟩
    | _ => some (sys.setTxn ts ⟨.cleaning rc, as⟩)
  | _, _ => none

def step (g : Nat) (sys : TxnSys V) : TxnEv V → Option (TxnSys V)
  | .start ts =>
    if (sys.txns ts).status = .fresh then some (sys.setTxn ts ⟨.running, []⟩) else none
  | .getRow ts key type minTs => sys.getRow g ts key type minTs
  | .resume ts => sys.resume ts
  | .modify ts key v =>
    if (sys.txns ts).status = .running then do
      let row ← (sys.rows key).step g (.modify ts v)
      return sys.setRow key row
    else none
  | .finish ts =>
    if (sys.txns ts).status = .running then
      some (sys.setTxn ts ⟨.cleaning .rcok, (sys.txns ts).accesses⟩)
    else none
  | .cleanup ts minTs => sys.cleanup g ts minTs

end TxnSys

def txnLts {V : Type} [Inhabited V] (gThreadCnt : Nat) (v₀ : Nat → V) : Lts (TxnSys V) (TxnEv V) where
  init sys := sys = TxnSys.init v₀
  step := TxnSys.step gThreadCnt

/-! ### The steps of a run -/

section Step

variable {V : Type} [Inhabited V] {g : Nat} {sys sys' : TxnSys V}

/-- `TxnSys.step` with its branches as constructors. -/
inductive TxnStep (g : Nat) (sys : TxnSys V) : TxnEv V → TxnSys V → Prop
  | start {ts : Nat} (hf : (sys.txns ts).status = .fresh) : TxnStep g sys (.start ts) (sys.setTxn ts ⟨.running, []⟩)
  | getRow {ts key minTs : Nat} {type : AccessT} {row : RowSt V} (hrun : (sys.txns ts).status = .running)
      (hnew : ∀ a ∈ (sys.txns ts).accesses, a.key ≠ key) (hty : type = .rd ∨ type = .wr)
      (hs : (sys.rows key).step g (type.event ts minTs) = some row) :
      TxnStep g sys (.getRow ts key type minTs)
        ((sys.setRow key row).setTxn ts ((sys.txns ts).answered key type (row.phase ts)))
  | resume {ts key : Nat} {type : AccessT} {r : RowId} (hst : (sys.txns ts).status = .waiting key type)
      (hr : (sys.rows key).phase ts = .reading r ∨ (sys.rows key).phase ts = .granted r) :
      TxnStep g sys (.resume ts) (sys.setTxn ts ⟨.running, ⟨key, type, r⟩ :: (sys.txns ts).accesses⟩)
  | modify {ts key : Nat} {v : V} {row : RowSt V} (hrun : (sys.txns ts).status = .running)
      (hs : (sys.rows key).step g (.modify ts v) = some row) : TxnStep g sys (.modify ts key v) (sys.setRow key row)
  | finish {ts : Nat} (hrun : (sys.txns ts).status = .running) :
      TxnStep g sys (.finish ts) (sys.setTxn ts ⟨.cleaning .rcok, (sys.txns ts).accesses⟩)
  | cleaned {ts minTs : Nat} {rc : RC} (hst : (sys.txns ts).status = .cleaning rc)
      (hacc : (sys.txns ts).accesses = []) : TxnStep g sys (.cleanup ts minTs) (sys.setTxn ts ⟨.done, []⟩)
  | undo {ts minTs : Nat} {rc : RC} {a : Access} {as : List Access} {row : RowSt V}
      (hst : (sys.txns ts).status = .cleaning rc) (hacc : (sys.txns ts).accesses = a :: as)
      (hret : a.type.returned rc = .xp) (hs : (sys.rows a.key).step g (.undo ts minTs) = some row) :
      TxnStep g sys (.cleanup ts minTs) ((sys.setRow a.key row).setTxn ts ⟨.cleaning rc, as⟩)
  | write {ts minTs : Nat} {rc : RC} {a : Access} {as : List Access} {row : RowSt V}
      (hst : (sys.txns ts).status = .cleaning rc) (hacc : (sys.txns ts).accesses = a :: as)
      (hret : a.type.returned rc = .wr) (hs : (sys.rows a.key).step g (.write ts minTs) = some row) :
      TxnStep g sys (.cleanup ts minTs) ((sys.setRow a.key row).setTxn ts ⟨.cleaning rc, as⟩)
  | drop {ts minTs : Nat} {rc : RC} {a : Access} {as : List Access} (hst : (sys.txns ts).status = .cleaning rc)
      (hacc : (sys.txns ts).accesses = a :: as) (hxp : a.type.returned rc ≠ .xp) (hwr : a.type.returned rc ≠ .wr) :
      TxnStep g sys (.cleanup ts minTs) (sys.setTxn ts ⟨.cleaning rc, as⟩)

theorem TxnStep.of_cleanup {ts minTs : Nat} (h : sys.cleanup g ts minTs = some sys') :
    TxnStep g sys (.cleanup ts minTs) sys' := by
  unfold TxnSys.cleanup at h
  split at h
  · cases h; exact .cleaned ‹_› ‹_›
  · split at h
    · simp only [Option.bind_eq_bind, Option.bind_eq_some_iff] at h
      obtain ⟨row, hs, hr⟩ := h
      cases hr; exact .undo ‹_› ‹_› ‹_› hs
    · simp only [Option.bind_eq_bind, Option.bind_eq_some_iff] at h
      obtain ⟨row, hs, hr⟩ := h
      cases hr; exact .write ‹_› ‹_› ‹_› hs
    · cases h; exact .drop ‹_› ‹_› ‹_› ‹_›
  · cases h

theorem TxnStep.of_step {a : TxnEv V} (h : sys.step g a = some sys') : TxnStep g sys a sys' := by
  cases a with
  | start ts =>
    simp only [TxnSys.step] at h
    split at h
    · cases h; exact .start ‹_›
    · cases h
  | getRow ts key type minTs =>
    simp only [TxnSys.step, TxnSys.getRow] at h
    split at h
    · rename_i hif
      simp only [Option.bind_eq_bind, Option.bind_eq_some_iff] at h
      obtain ⟨row, hs, hr⟩ := h
      cases hr; exact .getRow hif.1 hif.2.1 hif.2.2 hs
    · cases h
  | resume ts =>
    simp only [TxnSys.step, TxnSys.resume] at h
    split at h
    · split at h
      · cases h; exact .resume ‹_› (.inl ‹_›)
      · cases h; exact .resume ‹_› (.inr ‹_›)
      · cases h
    · cases h
  | modify ts key v =>
    simp only [TxnSys.step] at h
    split at h
    · simp only [Option.bind_eq_bind, Option.bind_eq_some_iff] at h
      obtain ⟨row, hs, hr⟩ := h
      cases hr; exact .modify ‹_› hs
    · cases h
  | finish ts =>
    simp only [TxnSys.step] at h
    split at h
    · cases h; exact .finish ‹_›
    · cases h
  | cleanup ts minTs => exact .of_cleanup h

end Step

/-! ### Who waits for whom -/

namespace TxnSys

variable {V : Type}

def Unfinished (sys : TxnSys V) (t : Nat) : Prop := (sys.txns t).status ≠ .fresh ∧ (sys.txns t).status ≠ .done

/-- `t` has a pending request on the row `k`. -/
def Pending (sys : TxnSys V) (k t : Nat) : Prop := ∃ q ∈ (sys.rows k).row.pending, q.ts = t

/-- `t` is the transaction of the outstanding prewrite of the row `k`. -/
def Holds (sys : TxnSys V) (k t : Nat) : Prop :=
  (sys.rows k).row.existsPrewrite = true ∧ (sys.rows k).row.prewriteTs = t

def WaitsFor (sys : TxnSys V) (t t' : Nat) : Prop := ∃ k, sys.Pending k t ∧ sys.Holds k t'

end TxnSys

/-! ### What a call on a row does to the transactions -/

section Phases

variable {V : Type} [Inhabited V] {g : Nat} {v₀ : V} {st st' : RowSt V}

/-- The transaction that makes the call. -/
def RowEv.ts : RowEv V → Nat
  | .read ts | .prewrite ts _ | .modify ts _ | .write ts _ | .undo ts _ | .finish ts => ts

/-- Another transaction is left alone or released from the queue. -/
def Moved (ph ph' : Phase) : Prop :=
  ph' = ph ∨ (ph = .waiting .rReq ∧ ∃ r, ph' = .reading r) ∨ (ph = .waiting .pReq ∧ ∃ r, ph' = .granted r)

theorem resume_moved (hi : RowInv g v₀ st) {ts m : Nat} {h : List (Nat × V)} {u row : RowMvcc V} {ws : List Wake}
    (he : RowInv.Ended g v₀ st ts h u) (hu : u.updateBuffer g m ts = some (row, ws)) :
    wakeAll (Function.update st.phase ts .finished) ws ts = .finished ∧
      ∀ t, t ≠ ts → Moved (st.phase t) (wakeAll (Function.update st.phase ts .finished) ws t) := by
  obtain ⟨r, hr⟩ := he.holder
  refine ⟨?_, fun t hne => ?_⟩
  · rcases wakeAll_cases (Function.update st.phase ts .finished) ws ts with ⟨-, h1⟩ | ⟨w, hw, hwt, -⟩
    · rw [h1, Function.update_self]
    · have := (he.released hi hu hw).1
      rw [hwt, hr] at this; cases this
  · rcases wakeAll_cases (Function.update st.phase ts .finished) ws t with ⟨-, h1⟩ | ⟨w, hw, rfl, h1⟩
    · exact .inl (by rw [h1, Function.update_of_ne hne])
    · obtain ⟨h2, h3⟩ := he.released hi hu hw
      rw [h1, h2]
      rcases h3 with h3 | h3
      · exact .inr (.inl ⟨by rw [h3], w.row, by rw [Wake.phase, if_neg (by rw [h3]; exact TsType.noConfusion)]⟩)
      · exact .inr (.inr ⟨by rw [h3], w.row, by rw [Wake.phase, if_pos h3]⟩)

theorem step_moved (hi : RowInv g v₀ st) {a : RowEv V} (h : st.step g a = some st') :
    ∀ t, t ≠ a.ts → Moved (st.phase t) (st'.phase t) := by
  intro t hne
  cases RowStep.of_step h with
  | write hg hv hc hu => exact (resume_moved hi (hi.ended_commit hg hv hc).1 hu).2 t hne
  | undo hg hc hu => exact (resume_moved hi (hi.ended_release hg hc) hu).2 t hne
  | modify hg => exact .inl rfl
  | _ => exact .inl (Function.update_of_ne hne ..)

theorem step_end (hi : RowInv g v₀ st) {ts m : Nat}
    (h : st.step g (.write ts m) = some st' ∨ st.step g (.undo ts m) = some st') : st'.phase ts = .finished := by
  rcases h with h | h
  · cases RowStep.of_step h with
    | write hg hv hc hu => exact (resume_moved hi (hi.ended_commit hg hv hc).1 hu).1
  · cases RowStep.of_step h with
    | undo hg hc hu => exact (resume_moved hi (hi.ended_release hg hc) hu).1

/-- The answers of a call for `type`: a row, a wait or an abort. -/
theorem step_event {type : AccessT} {ts m : Nat} (hty : type = .rd ∨ type = .wr)
    (h : st.step g (type.event ts m) = some st') :
    st'.phase ts = .finished ∨
      (type = .rd ∧ (st'.phase ts = .waiting .rReq ∨ ∃ r, st'.phase ts = .reading r)) ∨
      (type = .wr ∧ (st'.phase ts = .waiting .pReq ∨ ∃ r, st'.phase ts = .granted r)) := by
  rcases hty with rfl | rfl
  · cases RowStep.of_step h with
    | readAbort => exact .inl (Function.update_self ..)
    | readWait => exact .inr (.inl ⟨rfl, .inl (Function.update_self ..)⟩)
    | readLatest => exact .inr (.inl ⟨rfl, .inr ⟨_, Function.update_self ..⟩⟩)
    | readOld => exact .inr (.inl ⟨rfl, .inr ⟨_, Function.update_self ..⟩⟩)
  · cases RowStep.of_step h with
    | preAbort => exact .inl (Function.update_self ..)
    | preWait => exact .inr (.inr ⟨rfl, .inl (Function.update_self ..)⟩)
    | preGrant => exact .inr (.inr ⟨rfl, .inr ⟨_, Function.update_self ..⟩⟩)

end Phases

/-! ### The invariant -/

variable {V : Type} {g : Nat} {v₀ : Nat → V} {sys sys' : TxnSys V}

/-- The transaction `t` over the rows. -/
structure TxnOk (rows : Nat → RowSt V) (t : Nat) (m : TxnMan) : Prop where
  held : ∀ k r, (rows k).phase t = .granted r →
    (∃ a ∈ m.accesses, a.key = k ∧ a.type = .wr) ∨ m.status = .waiting k .wr
  pend : ∀ k ty, (rows k).phase t = .waiting ty → ∃ type, m.status = .waiting k type
  wait : ∀ k type, m.status = .waiting k type →
    (type = .rd ∧ ((rows k).phase t = .waiting .rReq ∨ ∃ r, (rows k).phase t = .reading r)) ∨
    (type = .wr ∧ ((rows k).phase t = .waiting .pReq ∨ ∃ r, (rows k).phase t = .granted r))
  empty : m.status = .fresh ∨ m.status = .done → m.accesses = []

structure TxnInv (g : Nat) (v₀ : Nat → V) (sys : TxnSys V) : Prop where
  row : ∀ k, RowInv g (v₀ k) (sys.rows k)
  ok : ∀ t, TxnOk sys.rows t (sys.txns t)

/-- A transaction that a call of another one leaves alone or releases. -/
theorem TxnOk.moved {rows : Nat → RowSt V} {t k : Nat} {m : TxnMan} {row : RowSt V} (ho : TxnOk rows t m)
    (hm : Moved ((rows k).phase t) (row.phase t)) : TxnOk (Function.update rows k row) t m := by
  have hne : ∀ k', k' ≠ k → Function.update rows k row k' = rows k' := fun k' h => Function.update_of_ne h ..
  refine ⟨fun k' r hr => ?_, fun k' ty hty => ?_, fun k' type hs => ?_, ho.empty⟩
  · by_cases hk : k' = k
    · rw [hk, Function.update_self] at hr
      rw [hk]
      rcases hm with h | ⟨-, x, h⟩ | ⟨h, -⟩
      · exact ho.held k r (h.symm.trans hr)
      · rw [h] at hr; cases hr
      · -- released: it was waiting for a prewrite
        obtain ⟨type, hs⟩ := ho.pend k _ h
        rcases ho.wait k type hs with ⟨-, h' | ⟨x, h'⟩⟩ | ⟨rfl, -⟩
        · rw [h] at h'; cases h'
        · rw [h] at h'; cases h'
        · exact .inr hs
    · rw [hne k' hk] at hr
      exact ho.held k' r hr
  · by_cases hk : k' = k
    · rw [hk, Function.update_self] at hty
      rw [hk]
      rcases hm with h | ⟨-, x, h⟩ | ⟨-, x, h⟩
      · exact ho.pend k ty (h.symm.trans hty)
      · rw [h] at hty; cases hty
      · rw [h] at hty; cases hty
    · rw [hne k' hk] at hty
      exact ho.pend k' ty hty
  · by_cases hk : k' = k
    · rw [hk] at hs
      rw [hk, Function.update_self]
      have hw := ho.wait k type hs
      rcases hm with h | ⟨h, x, hx⟩ | ⟨h, x, hx⟩
      · rw [h]; exact hw
      · rcases hw with ⟨rfl, -⟩ | ⟨-, h' | ⟨y, h'⟩⟩
        · exact .inl ⟨rfl, .inr ⟨x, hx⟩⟩
        · rw [h] at h'; cases h'
        · rw [h] at h'; cases h'
      · rcases hw with ⟨-, h' | ⟨y, h'⟩⟩ | ⟨rfl, -⟩
        · rw [h] at h'; cases h'
        · rw [h] at h'; cases h'
        · exact .inr ⟨rfl, .inr ⟨x, hx⟩⟩
    · rw [hne k' hk]
      exact ho.wait k' type hs

/-- A transaction that runs holds what it has accessed and waits nowhere. -/
theorem TxnOk.running {rows : Nat → RowSt V} {t : Nat} {m : TxnMan} (ho : TxnOk rows t m)
    (hs : ∀ k type, m.status ≠ .waiting k type) :
    (∀ k r, (rows k).phase t = .granted r → ∃ a ∈ m.accesses, a.key = k ∧ a.type = .wr) ∧
      ∀ k ty, (rows k).phase t ≠ .waiting ty := by
  refine ⟨fun k r hr => (ho.held k r hr).resolve_right (hs k _), fun k ty hty => ?_⟩
  obtain ⟨type, h⟩ := ho.pend k ty hty
  exact hs k type h

/-- The new status of a transaction that waits nowhere. -/
theorem TxnOk.next {rows : Nat → RowSt V} {t : Nat} {m : TxnMan} {status : TxnStatus} {accesses : List Access}
    (ho : TxnOk rows t m) (hs : ∀ k type, m.status ≠ .waiting k type) (hs' : ∀ k type, status ≠ .waiting k type)
    (hacc : ∀ a ∈ m.accesses, a.type = .wr → a ∈ accesses) (hempty : status = .fresh ∨ status = .done → accesses = []) :
    TxnOk rows t ⟨status, accesses⟩ := by
  obtain ⟨h1, h2⟩ := ho.running hs
  refine ⟨fun k r hr => ?_, fun k ty hty => absurd hty (h2 k ty), fun k type h => absurd h (hs' k type), hempty⟩
  obtain ⟨a, ha, hk, hw⟩ := h1 k r hr
  exact .inl ⟨a, hacc a ha hw, hk, hw⟩

namespace TxnInv

theorem init (v₀ : Nat → V) : TxnInv g v₀ (TxnSys.init v₀) :=
  ⟨fun k => .init (v₀ k), fun t => ⟨fun k r h => (by cases h), fun k ty h => (by cases h), fun k type h => (by cases h),
    fun _ => rfl⟩⟩

/-- Only the transaction `ts` changes. -/
theorem setTxn (hi : TxnInv g v₀ sys) {ts : Nat} {m : TxnMan} (ho : TxnOk sys.rows ts m) :
    TxnInv g v₀ (sys.setTxn ts m) := by
  refine ⟨hi.row, fun t => ?_⟩
  show TxnOk sys.rows t (Function.update sys.txns ts m t)
  by_cases hne : t = ts
  · rw [hne, Function.update_self]; exact ho
  · rw [Function.update_of_ne hne]; exact hi.ok t

theorem resume (hi : TxnInv g v₀ sys) {ts key : Nat} {type : AccessT} {r : RowId}
    (hst : (sys.txns ts).status = .waiting key type)
    (hr : (sys.rows key).phase ts = .reading r ∨ (sys.rows key).phase ts = .granted r) :
    TxnInv g v₀ (sys.setTxn ts ⟨.running, ⟨key, type, r⟩ :: (sys.txns ts).accesses⟩) := by
  have ho := hi.ok ts
  refine hi.setTxn ⟨fun k x hx => .inl ?_, fun k ty hty => ?_, fun k type' h' => (by cases h'),
    fun h' => (by simp at h')⟩
  · rcases ho.held k x hx with ⟨a, ha, hk, hw⟩ | hw
    · exact ⟨a, List.mem_cons_of_mem _ ha, hk, hw⟩
    · rw [hst] at hw; cases hw
      exact ⟨_, List.mem_cons_self .., rfl, rfl⟩
  · obtain ⟨type', h'⟩ := ho.pend k ty hty
    rw [hst] at h'; cases h'
    rcases hr with hr | hr <;> rw [hr] at hty <;> cases hty

variable [Inhabited V]

/-- The transaction `ts` calls on the row `k`. -/
theorem call (hi : TxnInv g v₀ sys) {k : Nat} {a : RowEv V} {m : TxnMan} {row : RowSt V}
    (hs : (sys.rows k).step g a = some row) (ho : TxnOk (Function.update sys.rows k row) a.ts m) :
    TxnInv g v₀ ((sys.setRow k row).setTxn a.ts m) := by
  refine ⟨fun k' => ?_, fun t => ?_⟩
  · show RowInv g (v₀ k') (Function.update sys.rows k row k')
    by_cases hk : k' = k
    · rw [hk, Function.update_self]; exact (hi.row k).step hs
    · rw [Function.update_of_ne hk]; exact hi.row k'
  · show TxnOk (Function.update sys.rows k row) t (Function.update sys.txns a.ts m t)
    by_cases hne : t = a.ts
    · rw [hne, Function.update_self]; exact ho
    · rw [Function.update_of_ne hne]
      exact (hi.ok t).moved (step_moved (hi.row k) hs t hne)

theorem getRow (hi : TxnInv g v₀ sys) {ts key minTs : Nat} {type : AccessT} {row : RowSt V}
    (hrun : (sys.txns ts).status = .running) (hty : type = .rd ∨ type = .wr)
    (hs : (sys.rows key).step g (type.event ts minTs) = some row) :
    TxnInv g v₀ ((sys.setRow key row).setTxn ts ((sys.txns ts).answered key type (row.phase ts))) := by
  have hev : (type.event ts minTs : RowEv V).ts = ts := by rcases hty with rfl | rfl <;> rfl
  obtain ⟨h1, h2⟩ := (hi.ok ts).running (by rw [hrun]; exact fun _ _ => TxnStatus.noConfusion)
  have hans := step_event hty hs
  have hcall := hi.call (m := (sys.txns ts).answered key type (row.phase ts)) hs
  rw [hev] at hcall
  refine hcall ⟨fun k r hr => ?_, fun k ty hw => ?_, fun k type' hw => ?_, fun he => ?_⟩
  · by_cases hk : k = key
    · rw [hk, Function.update_self] at hr
      rw [hr]
      rcases hans with h' | ⟨-, h' | ⟨x, h'⟩⟩ | ⟨rfl, -⟩
      · rw [h'] at hr; cases hr
      · rw [h'] at hr; cases hr
      · rw [h'] at hr; cases hr
      · exact .inl ⟨_, List.mem_cons_self .., hk.symm, rfl⟩
    · rw [Function.update_of_ne hk] at hr
      obtain ⟨a, ha, hak, haw⟩ := h1 k r hr
      refine .inl ⟨a, ?_, hak, haw⟩
      unfold TxnMan.answered
      split <;> first | exact List.mem_cons_of_mem _ ha | exact ha
  · by_cases hk : k = key
    · rw [hk, Function.update_self] at hw
      rw [hw, hk]
      exact ⟨type, rfl⟩
    · rw [Function.update_of_ne hk] at hw
      exact absurd hw (h2 k ty)
  · unfold TxnMan.answered at hw
    split at hw
    · cases hw
    · cases hw
    · rename_i ty hph
      cases hw
      rw [Function.update_self]
      exact hans.resolve_left (by rw [hph]; exact Phase.noConfusion)
    · cases hw
    · cases hw
  · unfold TxnMan.answered at he
    split at he <;> simp at he

/-- The row of the last access is returned: nothing is left to hold on it. -/
theorem returned (hi : TxnInv g v₀ sys) {ts minTs : Nat} {rc : RC} {a : Access} {as : List Access} {row : RowSt V}
    (hst : (sys.txns ts).status = .cleaning rc) (hacc : (sys.txns ts).accesses = a :: as)
    (hs : (sys.rows a.key).step g (.write ts minTs) = some row ∨ (sys.rows a.key).step g (.undo ts minTs) = some row) :
    TxnOk (Function.update sys.rows a.key row) ts ⟨.cleaning rc, as⟩ := by
  have hfin := step_end (hi.row a.key) hs
  obtain ⟨h1, h2⟩ := (hi.ok ts).running (by rw [hst]; exact fun _ _ => TxnStatus.noConfusion)
  refine ⟨fun k r hr => .inl ?_, fun k ty hty => ?_, fun k type h' => (by cases h'), fun h' => (by simp at h')⟩
  · by_cases hk : k = a.key
    · rw [hk, Function.update_self, hfin] at hr; cases hr
    · rw [Function.update_of_ne hk] at hr
      obtain ⟨b, hb, hbk, hbw⟩ := h1 k r hr
      rw [hacc] at hb
      rcases List.mem_cons.1 hb with rfl | hb
      · exact absurd hbk.symm hk
      · exact ⟨b, hb, hbk, hbw⟩
  · by_cases hk : k = a.key
    · rw [hk, Function.update_self, hfin] at hty; cases hty
    · rw [Function.update_of_ne hk] at hty
      exact absurd hty (h2 k ty)

theorem step (hi : TxnInv g v₀ sys) {a : TxnEv V} (h : sys.step g a = some sys') : TxnInv g v₀ sys' := by
  have hne : ∀ {status : TxnStatus}, status = .fresh ∨ status = .running ∨ (∃ rc, status = .cleaning rc) →
      ∀ k type, status ≠ .waiting k type := by
    rintro _ (rfl | rfl | ⟨rc, rfl⟩) k type <;> exact TxnStatus.noConfusion
  cases TxnStep.of_step h with
  | @start ts hf =>
    refine hi.setTxn ((hi.ok ts).next (hne (.inl hf)) (hne (.inr (.inl rfl))) (fun a ha => ?_) fun _ => rfl)
    rw [(hi.ok ts).empty (.inl hf)] at ha; cases ha
  | getRow hrun hnew hty hs => exact hi.getRow hrun hty hs
  | resume hst hr => exact hi.resume hst hr
  | @modify ts key v row hrun hs =>
    rw [← TxnSys.setTxn_self ts (sys.setRow key row)]
    refine hi.call hs ((hi.ok ts).moved (.inl ?_))
    cases RowStep.of_step hs with
    | modify hg => rfl
  | @finish ts hrun =>
    exact hi.setTxn ((hi.ok ts).next (hne (.inr (.inl hrun))) (hne (.inr (.inr ⟨_, rfl⟩))) (fun a ha _ => ha)
      fun h' => (by simp at h'))
  | @cleaned ts minTs rc hst hacc =>
    refine hi.setTxn ((hi.ok ts).next (hne (.inr (.inr ⟨rc, hst⟩))) (fun _ _ => TxnStatus.noConfusion)
      (fun a ha => ?_) fun _ => rfl)
    rw [hacc] at ha; cases ha
  | undo hst hacc hret hs => exact hi.call hs (hi.returned hst hacc (.inr hs))
  | write hst hacc hret hs => exact hi.call hs (hi.returned hst hacc (.inl hs))
  | @drop ts minTs rc a as hst hacc hxp hwr =>
    refine hi.setTxn ((hi.ok ts).next (hne (.inr (.inr ⟨rc, hst⟩))) (hne (.inr (.inr ⟨_, rfl⟩))) (fun b hb hbw => ?_)
      fun h' => (by simp at h'))
    rw [hacc] at hb
    rcases List.mem_cons.1 hb with rfl | hb
    · -- a written row is never dropped
      by_cases hrc : rc = .abort
      · exact absurd (by rw [AccessT.returned, if_pos ⟨hbw, hrc⟩]) hxp
      · exact absurd (by rw [AccessT.returned, if_neg (fun h' => hrc h'.2), hbw]) hwr
    · exact hb

theorem reach {G : TxnSys V → TxnEv V → Prop} (h : (txnLts g v₀).Reach G sys) : TxnInv g v₀ sys :=
  h.inv (fun _ h0 => by rw [h0]; exact .init v₀) fun _ _ _ hi _ hs => hi.step hs

end TxnInv

/-! ### No deadlock -/

/-- The holder of a prewrite has not finished. -/
theorem TxnInv.holder_unfinished (hi : TxnInv g v₀ sys) {k t : Nat} (hh : sys.Holds k t) : sys.Unfinished t := by
  obtain ⟨hp, rfl⟩ := hh
  obtain ⟨r, hr⟩ := (hi.row k).pre hp
  have ho := hi.ok (sys.rows k).row.prewriteTs
  have hne : ∀ status, status = .fresh ∨ status = .done → (sys.txns (sys.rows k).row.prewriteTs).status ≠ status := by
    rintro status hst rfl
    rcases ho.held k r hr with ⟨a, ha, -⟩ | hw
    · rw [ho.empty hst] at ha; cases ha
    · rw [hw] at hst; simp at hst
  exact ⟨hne _ (.inl rfl), hne _ (.inr rfl)⟩

/-- A pending request waits for an older transaction. -/
theorem TxnInv.pending_holder (hi : TxnInv g v₀ sys) {k t : Nat} (ht : sys.Pending k t) :
    ∃ t', sys.Holds k t' ∧ sys.Unfinished t' ∧ t' < t := by
  obtain ⟨q, hq, rfl⟩ := ht
  obtain ⟨hp, hlt, -⟩ := (hi.row k).pend q hq
  exact ⟨_, ⟨hp, rfl⟩, hi.holder_unfinished ⟨hp, rfl⟩, hlt⟩

theorem TxnInv.waitsFor_lt (hi : TxnInv g v₀ sys) {t t' : Nat} (hw : sys.WaitsFor t t') : t' < t := by
  obtain ⟨k, ht, -, rfl⟩ := hw
  obtain ⟨t'', ⟨-, rfl⟩, -, hlt⟩ := hi.pending_holder ht
  exact hlt

variable [Inhabited V]

/-- In every reachable state each pending request waits for an unfinished older transaction; no
transactions wait in a circle, and the oldest unfinished one does not wait. -/
theorem waiting_never_deadlocks (gThreadCnt : Nat) (v₀ : Nat → V) (h : (txnLts gThreadCnt v₀).Reach Lts.Any sys) :
    (∀ k t, sys.Pending k t → ∃ t', sys.Holds k t' ∧ sys.Unfinished t' ∧ t' < t) ∧
    (∀ t, ¬ Relation.TransGen sys.WaitsFor t t) ∧
    ∀ t, sys.Unfinished t → (∀ t', sys.Unfinished t' → t ≤ t') → ∀ k, ¬ sys.Pending k t := by
  have hi := TxnInv.reach h
  refine ⟨fun k t => hi.pending_holder, fun t ht => ?_, fun t _ hmin k ht => ?_⟩
  · have hlt : ∀ {x y}, Relation.TransGen sys.WaitsFor x y → y < x := by
      intro x y hxy
      induction hxy with
      | single hxy => exact hi.waitsFor_lt hxy
      | tail _ hyz ih => exact Nat.lt_trans (hi.waitsFor_lt hyz) ih
    exact Nat.lt_irrefl t (hlt ht)
  · obtain ⟨t', -, hu, hlt⟩ := hi.pending_holder ht
    exact Nat.not_lt.2 (hmin t' hu) hlt

/-- Transaction 3 waits on row 7 for transaction 2, which then reads row 8. -/
theorem waiting_on_older : ∃ sys : TxnSys Nat, (txnLts 1 fun _ => 0).run (.init fun _ => 0)
    [.start 2, .start 3, .getRow 2 7 .wr 0, .getRow 3 7 .wr 0, .getRow 2 8 .rd 0] = some sys ∧
    sys.Pending 7 3 ∧ ∃ t', sys.Holds 7 t' ∧ sys.Unfinished t' ∧ t' < 3 := by
  have hrun : (((txnLts 1 fun _ => (0 : Nat)).run (.init fun _ => 0)
      [.start 2, .start 3, .getRow 2 7 .wr 0, .getRow 3 7 .wr 0, .getRow 2 8 .rd 0]).any
      fun sys => decide (∃ q ∈ (sys.rows 7).row.pending, q.ts = 3)) = true := by decide +kernel
  simp only [Option.any_eq_true, decide_eq_true_eq] at hrun
  obtain ⟨sys, hsys, hp⟩ := hrun
  exact ⟨sys, hsys, hp, (waiting_never_deadlocks 1 (fun _ => 0) (.run (.init rfl) hsys)).1 7 3 hp⟩

end Dbx1000
