import Dbx1000.Lib.Lts
import Dbx1000.RowBuffer

/-!
# Runs of one row

The transactions that call `Row_mvcc::access` on one row, by their timestamps. A transaction issues
at most one `R_REQ` or `P_REQ`, issues nothing while it waits, and ends a granted `P_REQ` by one
`W_REQ` or `XP_REQ`, between which it may write into the granted row. `served` and `commits` are the
history of the run: the bytes given to each read, and the committed versions, newest first.
-/

namespace Dbx1000

/-- How far a transaction is on the row. -/
inductive Phase
  | idle
  | waiting (type : TsType)
  | reading (r : RowId)
  | granted (r : RowId)
  | finished
deriving DecidableEq, Repr

structure RowSt (V : Type) where
  row : RowMvcc V
  phase : Nat → Phase
  served : List (Nat × Option V)
  commits : List (Nat × V)

/-- `minTs` is what `GetMinTs` returns if the call asks for it. -/
inductive RowEv (V : Type)
  | read (ts : Nat)
  | prewrite (ts minTs : Nat)
  | modify (ts : Nat) (v : V)
  | write (ts minTs : Nat)
  | undo (ts minTs : Nat)
  | finish (ts : Nat)

def Wake.phase (w : Wake) : Phase :=
  if w.type = .pReq then .granted w.row else .reading w.row

/-- The transactions of `ws` go on with their rows. -/
def wakeAll (ph : Nat → Phase) (ws : List Wake) : Nat → Phase :=
  ws.foldl (fun ph w => Function.update ph w.ts w.phase) ph

/-- The reads among the released requests. -/
def readsOf {V : Type} (mem : RowId → Option V) (ws : List Wake) : List (Nat × Option V) :=
  (ws.filter fun w => w.type = .rReq).map fun w => (w.ts, mem w.row)

namespace RowSt

variable {V : Type}

def init (v : V) : RowSt V := ⟨.init v, fun _ => .idle, [], []⟩

/-- An answered `R_REQ` or `P_REQ`. -/
def answer (ts : Nat) (type : TsType) (row : RowMvcc V) (o : Outcome) (st : RowSt V) : RowSt V :=
  match o.rc, o.curRow with
  | .rcok, some r =>
    { st with row := row, phase := Function.update st.phase ts (Wake.phase ⟨ts, type, r⟩),
              served := readsOf row.mem [⟨ts, type, r⟩] ++ st.served }
  | .wait, _ => { st with row := row, phase := Function.update st.phase ts (.waiting type) }
  | _, _ => { st with row := row, phase := Function.update st.phase ts .finished }

/-- The transaction `ts` has ended its prewrite and the requests `ws` are released. -/
def resume (ts : Nat) (row : RowMvcc V) (ws : List Wake) (st : RowSt V) : RowSt V :=
  { st with row := row, phase := wakeAll (Function.update st.phase ts .finished) ws,
            served := readsOf row.mem ws ++ st.served }

variable [Inhabited V]

def request (gThreadCnt minTs ts : Nat) (type : TsType) (st : RowSt V) : Option (RowSt V) :=
  if 0 < ts ∧ ts ≤ uint64Max ∧ st.phase ts = .idle then do
    let (row, o) ← st.row.access gThreadCnt minTs ts type 0
    return st.answer ts type row o
  else none

def step (gThreadCnt : Nat) (st : RowSt V) : RowEv V → Option (RowSt V)
  | .read ts => st.request gThreadCnt 0 ts .rReq
  | .prewrite ts minTs => st.request gThreadCnt minTs ts .pReq
  | .modify ts v =>
    match st.phase ts with
    | .granted r => some { st with row := st.row.setRow r v }
    | _ => none
  | .write ts minTs =>
    match st.phase ts with
    | .granted r => do
      let v ← st.row.mem r
      let (row, o) ← st.row.access gThreadCnt minTs ts .wReq r
      return { st with commits := (ts, v) :: st.commits }.resume ts row o.woken
    | _ => none
  | .undo ts minTs =>
    match st.phase ts with
    | .granted r => do
      let (row, o) ← st.row.access gThreadCnt minTs ts .xpReq r
      return st.resume ts row o.woken
    | _ => none
  | .finish ts =>
    match st.phase ts with
    | .reading _ => some { st with phase := Function.update st.phase ts .finished }
    | _ => none

end RowSt

def rowLts {V : Type} [Inhabited V] (gThreadCnt : Nat) (v₀ : V) : Lts (RowSt V) (RowEv V) where
  init st := st = RowSt.init v₀
  step := RowSt.step gThreadCnt

/-! ### What a call can do -/

namespace RowMvcc

variable {V : Type} {g minTs ts : Nat} {v₀ : V} {h : List (Nat × V)} {s s' : RowMvcc V} {o : Outcome}

theorem readHistory_cases {r : RowId} (hr : s.readHistory ts = some (s', r)) :
    (s.searchVersion ts = s.hisLen ∧ s.withLatest = some (s', r)) ∨
      ∃ e ∈ s.writeHistory, e.valid = true ∧ e.ts < ts ∧ e.row = some r ∧ s' = s ∧
        s.writeHistory[s.searchVersion ts]? = some e := by
  unfold readHistory at hr
  split at hr
  · exact .inl ⟨‹_›, hr⟩
  · rename_i hne
    simp only [Option.bind_eq_bind, Option.bind_eq_some_iff] at hr
    obtain ⟨e, he, x, hx, hr⟩ := hr
    cases hr
    rcases Scan.scan_cases (p := fun b (e : WriteHisEntry) => (e.valid && decide (e.ts < ts)) && decide (b < e.ts))
      (f := fun e => e.ts % 2 ^ 32) s.writeHistory 0 (0, s.hisLen) with h1 | ⟨j, f, b, hj, hf, h1⟩
    · exact absurd (congrArg Prod.snd h1) hne
    · have hidx : s.searchVersion ts = j := by
        rw [searchVersion, h1]; exact Nat.zero_add j
      rw [hidx, hj] at he
      cases he
      simp only [Bool.and_eq_true, decide_eq_true_eq] at hf
      exact .inr ⟨e, List.mem_of_getElem? hj, hf.1.1, hf.1.2, hx, rfl, by rw [hidx]; exact hj⟩

theorem readReq_cases (hr : s.readReq ts = some (s', o)) :
    (ts < s.oldestWts ∧ s' = s ∧ o = ⟨.abort, none, []⟩) ∨
      (s.latestWts < ts ∧ s.existsPrewrite = true ∧ s.prewriteTs < ts ∧ s.bufferReq .rReq ts = some s' ∧
        o = ⟨.wait, none, []⟩) ∨
      (∃ r, s.latestWts < ts ∧ (s.existsPrewrite = true → ts ≤ s.prewriteTs) ∧ s.serveLatest ts = some (s', r) ∧
        o = ⟨.rcok, some r, []⟩) ∨
      (∃ r, s.oldestWts ≤ ts ∧ ts ≤ s.latestWts ∧ s.readHistory ts = some (s', r) ∧ o = ⟨.rcok, some r, []⟩) := by
  unfold readReq at hr
  split at hr
  · cases hr
    exact .inl ⟨‹_›, rfl, rfl⟩
  · split at hr
    · split at hr
      · rename_i hp
        simp only [Option.bind_eq_bind, Option.bind_eq_some_iff] at hr
        obtain ⟨t, ht, hr⟩ := hr
        cases hr
        exact .inr (.inl ⟨‹_›, hp.1, hp.2, ht, rfl⟩)
      · rename_i hp
        simp only [Option.bind_eq_bind, Option.bind_eq_some_iff, Prod.exists] at hr
        obtain ⟨t, r, ht, hr⟩ := hr
        cases hr
        exact .inr (.inr (.inl ⟨r, ‹_›, fun h' => by by_contra hlt; exact hp ⟨h', by omega⟩, ht, rfl⟩))
    · simp only [Option.bind_eq_bind, Option.bind_eq_some_iff, Prod.exists] at hr
      obtain ⟨t, r, ht, hr⟩ := hr
      cases hr
      exact .inr (.inr (.inr ⟨r, by omega, by omega, ht, rfl⟩))

variable [Inhabited V]

theorem prewriteReq_cases (hr : s.prewriteReq g minTs ts = some (s', o)) :
    (s' = s ∧ o = ⟨.abort, none, []⟩) ∨
      (s.existsPrewrite = true ∧ s.prewriteTs ≤ ts ∧ s.bufferReq .pReq ts = some s' ∧ o = ⟨.wait, none, []⟩) ∨
      (∃ r, s.existsPrewrite = false ∧ s.latestWts ≤ ts ∧ s.maxServedRts ≤ ts ∧
        s.grant g minTs ts = some (s', r) ∧ o = ⟨.rcok, some r, []⟩) := by
  unfold prewriteReq at hr
  split at hr
  · cases hr
    exact .inl ⟨rfl, rfl⟩
  · rename_i hno
    simp only [not_or, not_and, Nat.not_lt] at hno
    split at hr
    · rename_i hp
      simp only [Option.bind_eq_bind, Option.bind_eq_some_iff] at hr
      obtain ⟨t, ht, hr⟩ := hr
      cases hr
      exact .inr (.inl ⟨hp, hno.2.2 hp, ht, rfl⟩)
    · rename_i hp
      simp only [Option.bind_eq_bind, Option.bind_eq_some_iff, Prod.exists] at hr
      obtain ⟨t, r, ht, hr⟩ := hr
      cases hr
      exact .inr (.inr ⟨r, by simpa using hp, hno.1, hno.2.1, ht, rfl⟩)

theorem access_wReq {row : RowId} (hr : s.access g minTs ts .wReq row = some (s', o)) :
    ∃ u, s.commit ts row = some u ∧ u.updateBuffer g minTs ts = some (s', o.woken) := by
  simp only [access, Option.bind_eq_bind, Option.bind_eq_some_iff, Prod.exists] at hr
  obtain ⟨u, hu, t, ws, ht, hr⟩ := hr
  cases hr
  exact ⟨u, hu, ht⟩

theorem access_xpReq {row : RowId} (hr : s.access g minTs ts .xpReq row = some (s', o)) :
    ∃ u, s.release row = some u ∧ u.updateBuffer g minTs ts = some (s', o.woken) := by
  simp only [access, Option.bind_eq_bind, Option.bind_eq_some_iff, Prod.exists] at hr
  obtain ⟨u, hu, t, ws, ht, hr⟩ := hr
  cases hr
  exact ⟨u, hu, ht⟩

end RowMvcc

/-! ### Waking -/

theorem Wake.phase_eq_reading {w : Wake} {x : RowId} (h : w.phase = .reading x) : w.type ≠ .pReq ∧ w.row = x := by
  unfold Wake.phase at h
  split at h
  · cases h
  · cases h; exact ⟨‹_›, rfl⟩

theorem Wake.phase_eq_granted {w : Wake} {x : RowId} (h : w.phase = .granted x) : w.type = .pReq ∧ w.row = x := by
  unfold Wake.phase at h
  split at h
  · cases h; exact ⟨‹_›, rfl⟩
  · cases h

theorem Wake.phase_ne (w : Wake) : w.phase ≠ .idle ∧ ∀ ty, w.phase ≠ .waiting ty := by
  unfold Wake.phase
  split <;> exact ⟨Phase.noConfusion, fun _ => Phase.noConfusion⟩

theorem wakeAll_cases (ph : Nat → Phase) (ws : List Wake) (t : Nat) :
    ((∀ w ∈ ws, w.ts ≠ t) ∧ wakeAll ph ws t = ph t) ∨ ∃ w ∈ ws, w.ts = t ∧ wakeAll ph ws t = w.phase := by
  induction ws generalizing ph with
  | nil => exact .inl ⟨fun w hw => (by cases hw), rfl⟩
  | cons w ws ih =>
    rcases ih (Function.update ph w.ts w.phase) with ⟨hne, heq⟩ | ⟨x, hx, hxt, heq⟩
    · by_cases hwt : w.ts = t
      · exact .inr ⟨w, List.mem_cons_self .., hwt, heq.trans (by rw [← hwt, Function.update_self])⟩
      · exact .inl ⟨List.forall_mem_cons.2 ⟨hwt, hne⟩, heq.trans (Function.update_of_ne (Ne.symm hwt) ..)⟩
    · exact .inr ⟨x, List.mem_cons_of_mem _ hx, hxt, heq⟩

theorem wakeAll_of_mem (ph : Nat → Phase) {ws : List Wake} {w : Wake} (hw : w ∈ ws) :
    ∃ x ∈ ws, x.ts = w.ts ∧ wakeAll ph ws w.ts = x.phase := by
  rcases wakeAll_cases ph ws w.ts with ⟨hne, -⟩ | h
  · exact absurd rfl (hne w hw)
  · exact h

/-- A transaction that is not finished after `ts` ended was woken, or is where it was. -/
theorem woken_cases {ph : Nat → Phase} {ts x : Nat} {ws : List Wake} {y : Phase}
    (h : wakeAll (Function.update ph ts .finished) ws x = y) (hfin : y ≠ .finished) :
    (∃ w ∈ ws, w.ts = x ∧ w.phase = y) ∨ (∀ w ∈ ws, w.ts ≠ x) ∧ x ≠ ts ∧ ph x = y := by
  rcases wakeAll_cases (Function.update ph ts .finished) ws x with ⟨hno, h1⟩ | ⟨w, hw, hwx, h1⟩
  · by_cases hne : x = ts
    · rw [h1, hne, Function.update_self] at h
      exact absurd h.symm hfin
    · rw [h1, Function.update_of_ne hne] at h
      exact .inr ⟨hno, hne, h⟩
  · exact .inl ⟨w, hw, hwx, h1.symm.trans h⟩

theorem mem_readsOf {V : Type} {mem : RowId → Option V} {ws : List Wake} {p : Nat × Option V}
    (hp : p ∈ readsOf mem ws) :
    ∃ w ∈ ws, w.type = .rReq ∧ p = (w.ts, mem w.row) := by
  obtain ⟨w, hw, rfl⟩ := List.mem_map.1 hp
  obtain ⟨hw, ht⟩ := List.mem_filter.1 hw
  exact ⟨w, hw, by simpa using ht, rfl⟩

/-! ### The steps of a run -/

section Step

variable {V : Type} [Inhabited V]

/-- The transaction `ts` has not yet called on the row. -/
def RowSt.Fresh (st : RowSt V) (ts : Nat) : Prop := 0 < ts ∧ ts ≤ uint64Max ∧ st.phase ts = .idle

/-- `RowSt.step` with its branches as constructors. -/
inductive RowStep (g : Nat) (st : RowSt V) : RowEv V → RowSt V → Prop
  | readAbort {ts : Nat} (hf : st.Fresh ts) (hlt : ts < st.row.oldestWts) :
      RowStep g st (.read ts) { st with phase := Function.update st.phase ts .finished }
  | readWait {ts : Nat} {row : RowMvcc V} (hf : st.Fresh ts) (hw : st.row.latestWts < ts)
      (hp : st.row.existsPrewrite = true) (hpt : st.row.prewriteTs < ts) (hb : st.row.bufferReq .rReq ts = some row) :
      RowStep g st (.read ts) { st with row := row, phase := Function.update st.phase ts (.waiting .rReq) }
  | readLatest {ts : Nat} {row : RowMvcc V} {r : RowId} (hf : st.Fresh ts) (hw : st.row.latestWts < ts)
      (hp : st.row.existsPrewrite = true → ts ≤ st.row.prewriteTs) (hs : st.row.serveLatest ts = some (row, r)) :
      RowStep g st (.read ts) { st with row := row, phase := Function.update st.phase ts (.reading r),
                                        served := (ts, row.mem r) :: st.served }
  | readOld {ts : Nat} {row : RowMvcc V} {r : RowId} (hf : st.Fresh ts) (ho : st.row.oldestWts ≤ ts)
      (hw : ts ≤ st.row.latestWts) (hs : st.row.readHistory ts = some (row, r)) :
      RowStep g st (.read ts) { st with row := row, phase := Function.update st.phase ts (.reading r),
                                        served := (ts, row.mem r) :: st.served }
  | preAbort {ts m : Nat} (hf : st.Fresh ts) :
      RowStep g st (.prewrite ts m) { st with phase := Function.update st.phase ts .finished }
  | preWait {ts m : Nat} {row : RowMvcc V} (hf : st.Fresh ts) (hp : st.row.existsPrewrite = true)
      (hpt : st.row.prewriteTs ≤ ts) (hb : st.row.bufferReq .pReq ts = some row) :
      RowStep g st (.prewrite ts m) { st with row := row, phase := Function.update st.phase ts (.waiting .pReq) }
  | preGrant {ts m : Nat} {row : RowMvcc V} {r : RowId} (hf : st.Fresh ts) (hp : st.row.existsPrewrite = false)
      (hw : st.row.latestWts ≤ ts) (hm : st.row.maxServedRts ≤ ts) (hs : st.row.grant g m ts = some (row, r)) :
      RowStep g st (.prewrite ts m) { st with row := row, phase := Function.update st.phase ts (.granted r) }
  | modify {ts : Nat} {v : V} {r : RowId} (hg : st.phase ts = .granted r) :
      RowStep g st (.modify ts v) { st with row := st.row.setRow r v }
  | write {ts m : Nat} {r : RowId} {v : V} {u row : RowMvcc V} {ws : List Wake} (hg : st.phase ts = .granted r)
      (hv : st.row.mem r = some v) (hc : st.row.commit ts r = some u) (hu : u.updateBuffer g m ts = some (row, ws)) :
      RowStep g st (.write ts m) ({ st with commits := (ts, v) :: st.commits }.resume ts row ws)
  | undo {ts m : Nat} {r : RowId} {u row : RowMvcc V} {ws : List Wake} (hg : st.phase ts = .granted r)
      (hc : st.row.release r = some u) (hu : u.updateBuffer g m ts = some (row, ws)) :
      RowStep g st (.undo ts m) (st.resume ts row ws)
  | finish {ts : Nat} {r : RowId} (hr : st.phase ts = .reading r) :
      RowStep g st (.finish ts) { st with phase := Function.update st.phase ts .finished }

theorem request_cases {g minTs ts : Nat} {type : TsType} {st st' : RowSt V}
    (h : st.request g minTs ts type = some st') :
    st.Fresh ts ∧ ∃ row o, st.row.access g minTs ts type 0 = some (row, o) ∧ st' = st.answer ts type row o := by
  unfold RowSt.request at h
  split at h
  · simp only [Option.bind_eq_bind, Option.bind_eq_some_iff, Prod.exists] at h
    obtain ⟨row, o, ha, hr⟩ := h
    cases hr
    exact ⟨‹_›, row, o, ha, rfl⟩
  · cases h

theorem RowStep.of_step {g : Nat} {st st' : RowSt V} {a : RowEv V} (h : st.step g a = some st') :
    RowStep g st a st' := by
  cases a with
  | read ts =>
    obtain ⟨hf, row, o, ha, rfl⟩ := request_cases h
    rcases RowMvcc.readReq_cases ha with ⟨hlt, rfl, rfl⟩ | ⟨hw, hp, hpt, hb, rfl⟩ | ⟨r, hw, hp, hs, rfl⟩ |
      ⟨r, ho, hw, hs, rfl⟩
    · exact .readAbort hf hlt
    · exact .readWait hf hw hp hpt hb
    · exact .readLatest hf hw hp hs
    · exact .readOld hf ho hw hs
  | prewrite ts m =>
    obtain ⟨hf, row, o, ha, rfl⟩ := request_cases h
    rcases RowMvcc.prewriteReq_cases ha with ⟨rfl, rfl⟩ | ⟨hp, hpt, hb, rfl⟩ | ⟨r, hp, hw, hm, hs, rfl⟩
    · exact .preAbort hf
    · exact .preWait hf hp hpt hb
    · exact .preGrant hf hp hw hm hs
  | modify ts v =>
    simp only [RowSt.step] at h
    split at h
    · cases h; exact .modify ‹_›
    · cases h
  | write ts m =>
    simp only [RowSt.step] at h
    split at h
    · simp only [Option.bind_eq_bind, Option.bind_eq_some_iff, Prod.exists] at h
      obtain ⟨v, hv, row, o, ha, hr⟩ := h
      cases hr
      obtain ⟨u, hc, hu⟩ := RowMvcc.access_wReq ha
      exact .write ‹_› hv hc hu
    · cases h
  | undo ts m =>
    simp only [RowSt.step] at h
    split at h
    · simp only [Option.bind_eq_bind, Option.bind_eq_some_iff, Prod.exists] at h
      obtain ⟨row, o, ha, hr⟩ := h
      cases hr
      obtain ⟨u, hc, hu⟩ := RowMvcc.access_xpReq ha
      exact .undo ‹_› hc hu
    · cases h
  | finish ts =>
    simp only [RowSt.step] at h
    split at h
    · cases h; exact .finish ‹_›
    · cases h

end Step

end Dbx1000
