import Dbx1000.Lib.Progress
import Dbx1000.TxnSerial

/-!
# Transactions come to an end

In every state of a run of transactions each call that a transaction may make next is answered: no assertion of
`Row_mvcc` fails, the request buffer takes every request that has to wait, and `cleanup` can return every row. A
transaction waits only for older ones, so that the oldest unfinished one can always go on, and all of them can come
to an end (`mvcc_all_finish`). `UINT64_MAX` stands for no prewrite in `update_buffer`, so a timestamp is below it.
-/

namespace Dbx1000

/-! ### The calls on a row -/

namespace RowMvcc

variable {V : Type} {g ts : Nat} {v₀ : V} {h : List (Nat × V)} {s : RowMvcc V}

theorem placeReq_isSome {q : ReqEntry} {reqs : List ReqEntry} (h : ∃ e ∈ reqs, e.valid = false) :
    ∃ reqs', placeReq q reqs = some reqs' := by
  induction reqs with
  | nil => obtain ⟨e, he, -⟩ := h; cases he
  | cons e es ih =>
    unfold placeReq
    split
    · rename_i hv
      obtain ⟨f, hf, hfv⟩ := h
      rcases List.mem_cons.1 hf with rfl | hf
      · rw [hfv] at hv; cases hv
      · obtain ⟨es', hes'⟩ := ih ⟨f, hf, hfv⟩
        exact ⟨e :: es', by rw [hes']; rfl⟩
    · exact ⟨_, rfl⟩

/-- A buffer without a free entry is doubled. -/
theorem bufferReq_isSome (hs : s.requests ≠ []) (type : TsType) (ts : Nat) : ∃ s', s.bufferReq type ts = some s' := by
  unfold bufferReq
  split
  · exact ⟨_, rfl⟩
  · have hfree : ∃ e ∈ doubleRequests s.requests, e.valid = false :=
      ⟨_, List.mem_append_right _ (List.mem_replicate.2 ⟨by simpa using hs, rfl⟩), rfl⟩
    obtain ⟨reqs, hreqs⟩ := placeReq_isSome (q := ⟨true, type, ts⟩) hfree
    exact ⟨_, by rw [hreqs]; rfl⟩

theorem readHistory_isSome (hc : Core g v₀ h s) (ts : Nat) : ∃ s' r, s.readHistory ts = some (s', r) := by
  unfold readHistory
  split
  · exact withLatest_isSome hc.hist
  · rename_i hne
    rcases Scan.scan_cases (p := fun b (e : WriteHisEntry) => (e.valid && decide (e.ts < ts)) && decide (b < e.ts))
      (f := fun e => e.ts % 2 ^ 32) s.writeHistory 0 (0, s.hisLen) with h1 | ⟨j, e, b, hj, he, h1⟩
    · exact absurd (congrArg Prod.snd h1) hne
    · have hidx : s.searchVersion ts = j := by
        rw [searchVersion, h1]; exact Nat.zero_add j
      simp only [Bool.and_eq_true] at he
      obtain ⟨r, hr⟩ := Option.isSome_iff_exists.1 (hc.heap.hasRow e (List.mem_of_getElem? hj) (.inl he.1.1))
      rw [hidx, hj]
      exact ⟨s, r, by simp [hr]⟩

theorem readReq_isSome (hc : Core g v₀ h s) (hs : s.requests ≠ []) (ts : Nat) :
    ∃ s' o, s.readReq ts = some (s', o) := by
  unfold readReq
  split
  · exact ⟨_, _, rfl⟩
  split
  · split
    · obtain ⟨u, hu⟩ := bufferReq_isSome hs .rReq ts
      exact ⟨_, _, by rw [hu]; rfl⟩
    · obtain ⟨u, r, hu⟩ := serveLatest_isSome hc.hist ts
      exact ⟨_, _, by rw [hu]; rfl⟩
  · obtain ⟨u, r, hu⟩ := readHistory_isSome hc ts
    exact ⟨_, _, by rw [hu]; rfl⟩

variable [Inhabited V]

theorem prewriteReq_isSome (hc : Core g v₀ h s) (hs : s.requests ≠ []) (hw : s.latestWts ≠ ts)
    (hm : s.maxServedRts ≠ ts) (hts : ts ≤ uint64Max) (minTs : Nat) :
    ∃ s' o, s.prewriteReq g minTs ts = some (s', o) := by
  unfold prewriteReq
  split
  · exact ⟨_, _, rfl⟩
  rename_i hlt
  split
  · obtain ⟨u, hu⟩ := bufferReq_isSome hs .pReq ts
    exact ⟨_, _, by rw [hu]; rfl⟩
  · rename_i hp
    obtain ⟨u, r, hu⟩ := grant_isSome hc (Bool.eq_false_of_not_eq_true hp)
      (Nat.lt_of_le_of_ne (Nat.not_lt.1 fun h' => hlt (.inl h')) hw)
      (Nat.lt_of_le_of_ne (Nat.not_lt.1 fun h' => hlt (.inr (.inl h'))) hm) hts minTs
    exact ⟨_, _, by rw [hu]; rfl⟩

end RowMvcc

open RowMvcc

section Row

variable {V : Type} [Inhabited V] {g : Nat} {v₀ : V} {st st' : RowSt V}

/-- The pending requests have distinct timestamps, and the buffer has room to double. -/
structure RequestsOk (st : RowSt V) : Prop where
  nodup : (st.row.pending.map ReqEntry.ts).Nodup
  room : st.row.requests ≠ []

namespace RequestsOk

omit [Inhabited V] in
theorem init (v : V) : RequestsOk (RowSt.init v) := by
  refine ⟨?_, by simp [RowSt.init, RowMvcc.init]⟩
  rw [show (RowSt.init v).row.pending = [] from by simp [pending, RowSt.init, RowMvcc.init]]
  exact List.nodup_nil

theorem step (hq : RequestsOk st) (hi : RowInv g v₀ st) {a : RowEv V} (h : st.step g a = some st') :
    RequestsOk st' := by
  have hs := QueueStep.of_step hi h
  refine ⟨(hs.nodup hi hq.nodup).1, ?_⟩
  generalize st.wakes g a = ws at hs
  cases hs with
  | quiet hreq hph => rw [hreq]; exact hq.room
  | enqueue hf hperm hph =>
    intro hnil
    rw [pending, hnil] at hperm
    exact List.cons_ne_nil _ _ hperm.nil_eq.symm
  | @resumed ts m c u row ws he hu =>
    obtain ⟨t, -, rfl⟩ := (he.updated hi hu).1.loop
    intro hnil
    have hnil : u.requests = [] := List.map_eq_nil_iff.1 hnil
    exact hq.room (he.requests ▸ hnil)

end RequestsOk

namespace RowInv

variable (hi : RowInv g v₀ st) (hq : RequestsOk st) {ts : Nat}

include hi hq

theorem read_isSome (hf : st.Fresh ts) : ∃ st', st.step g (.read ts) = some st' := by
  have hf' : 0 < ts ∧ ts ≤ uint64Max ∧ st.phase ts = .idle := hf
  obtain ⟨row, o, h⟩ := readReq_isSome hi.core hq.room ts
  exact ⟨st.answer ts .rReq row o, by simp [RowSt.step, RowSt.request, hf', RowMvcc.access, h]⟩

theorem prewrite_isSome (hf : st.Fresh ts) (minTs : Nat) : ∃ st', st.step g (.prewrite ts minTs) = some st' := by
  have hf' : 0 < ts ∧ ts ≤ uint64Max ∧ st.phase ts = .idle := hf
  obtain ⟨hw, hm⟩ := hi.fresh ts hf.1 hf.2.2
  obtain ⟨row, o, h⟩ := prewriteReq_isSome hi.core hq.room hw hm hf.2.1 minTs
  exact ⟨st.answer ts .pReq row o, by simp [RowSt.step, RowSt.request, hf', RowMvcc.access, h]⟩

variable {r : RowId} (hg : st.phase ts = .granted r)
  (hread : ∀ q ∈ st.row.pending, q.type = .rReq → q.ts < uint64Max) (minTs : Nat)

include hg hread

theorem write_isSome : ∃ st', st.step g (.write ts minTs) = some st' := by
  obtain ⟨hw, hpt⟩ := hi.granted ts r hg
  obtain ⟨v, hv⟩ := Option.isSome_iff_exists.1 (hw.live hi.core.heap).2
  obtain ⟨hp, e, he, her⟩ := hw
  have hcommit := commit_eq he hv (hpt ▸ (hi.core.hist.pre hp).2.1) her
  obtain ⟨row, ws, hu, -⟩ := (hi.ended_commit hg hv hcommit).1.released_due hi hq.nodup hread minTs
  exact ⟨{ st with commits := (ts, v) :: st.commits }.resume ts row ws,
    by simp [RowSt.step, hg, hv, RowMvcc.access, hcommit, hu]⟩

theorem undo_isSome : ∃ st', st.step g (.undo ts minTs) = some st' := by
  obtain ⟨⟨hp, e, he, her⟩, hpt⟩ := hi.granted ts r hg
  have hrelease : st.row.release r = some (st.row.released e) := by simp [release, he, her, released]
  obtain ⟨row, ws, hu, -⟩ := (hi.ended_release hg hrelease).released_due hi hq.nodup hread minTs
  exact ⟨st.resume ts row ws, by simp [RowSt.step, hg, RowMvcc.access, hrelease, hu]⟩

end RowInv

end Row

/-! ### The transactions -/

section Txn

variable {V : Type} {g : Nat} {v₀ : Nat → V} {sys sys' : TxnSys V} {rows : Nat → RowSt V} {t : Nat} {m : TxnMan}

/-- A transaction that runs has called only on the rows of its accesses. -/
def KeyOk (rows : Nat → RowSt V) (t : Nat) (m : TxnMan) : Prop :=
  ∀ k, (rows k).phase t ≠ .idle → (∃ a ∈ m.accesses, a.key = k) ∨ (∃ type, m.status = .waiting k type) ∨
    (∃ rc, m.status = .cleaning rc) ∨ m.status = .done

namespace KeyOk

theorem moved {k : Nat} {row : RowSt V} (hk : KeyOk rows t m) (hm : Moved ((rows k).phase t) (row.phase t)) :
    KeyOk (Function.update rows k row) t m := by
  intro k' hne
  refine hk k' fun hidle => hne ?_
  by_cases hkk : k' = k
  · rw [hkk] at hidle
    rw [hkk, Function.update_self]
    rcases hm with h | ⟨h, -⟩ | ⟨h, -⟩
    · rw [h, hidle]
    · rw [hidle] at h; cases h
    · rw [hidle] at h; cases h
  · rw [Function.update_of_ne hkk]
    exact hidle

/-- The rows a transaction has called on while it runs. -/
theorem of_running (hk : KeyOk rows t m) (hrun : m.status = .running) {k : Nat} (hne : (rows k).phase t ≠ .idle) :
    ∃ a ∈ m.accesses, a.key = k := by
  rcases hk k hne with h | ⟨type, h⟩ | ⟨rc, h⟩ | h
  · exact h
  · rw [hrun] at h; cases h
  · rw [hrun] at h; cases h
  · rw [hrun] at h; cases h

theorem answered {key : Nat} {type : AccessT} {row : RowSt V} (hk : KeyOk rows t m) (hrun : m.status = .running) :
    KeyOk (Function.update rows key row) t (m.answered key type (row.phase t)) := by
  intro k hne
  unfold TxnMan.answered
  by_cases hkey : k = key
  · split
    · exact .inl ⟨_, List.mem_cons_self, hkey.symm⟩
    · exact .inl ⟨_, List.mem_cons_self, hkey.symm⟩
    · exact .inr (.inl ⟨type, by rw [hkey]⟩)
    · exact .inr (.inr (.inl ⟨_, rfl⟩))
    · exact .inr (.inr (.inl ⟨_, rfl⟩))
  · rw [Function.update_of_ne hkey] at hne
    obtain ⟨a, ha, hak⟩ := hk.of_running hrun hne
    split <;> first | exact .inl ⟨a, List.mem_cons_of_mem _ ha, hak⟩ | exact .inl ⟨a, ha, hak⟩

variable [Inhabited V]

theorem step {e : TxnEv V} (hk : ∀ t, KeyOk sys.rows t (sys.txns t)) (hi : TxnInv g v₀ sys)
    (h : TxnStep g sys e sys') : ∀ t, KeyOk sys'.rows t (sys'.txns t) := by
  refine h.keeps hi KeyOk.moved hk ?_
  cases h with
  | @start ts hf =>
    intro k hne
    rcases hk ts k hne with ⟨a, ha, -⟩ | ⟨type, h⟩ | ⟨rc, h⟩ | h
    · rw [(hi.ok ts).empty (.inl hf)] at ha; cases ha
    · rw [hf] at h; cases h
    · rw [hf] at h; cases h
    · rw [hf] at h; cases h
  | @getRow ts key minTs type row hrun hnew hty hs =>
    simp only [TxnEv.ts, TxnSys.setTxn, TxnSys.setRow, Function.update_self]
    exact (hk ts).answered hrun
  | @resume ts key type r hst hr =>
    simp only [TxnEv.ts, TxnSys.setTxn, Function.update_self]
    intro k hne
    rcases hk ts k hne with ⟨a, ha, hak⟩ | ⟨type, h⟩ | ⟨rc, h⟩ | h
    · exact .inl ⟨a, List.mem_cons_of_mem _ ha, hak⟩
    · rw [hst] at h
      cases h
      exact .inl ⟨_, List.mem_cons_self, rfl⟩
    · rw [hst] at h; cases h
    · rw [hst] at h; cases h
  | @modify ts key v row hrun hs =>
    refine (hk ts).moved (.inl ?_)
    cases RowStep.of_step hs with
    | modify hg => rfl
  | finish | undo | write | drop =>
    simp only [TxnEv.ts, TxnSys.setTxn, Function.update_self]
    exact fun k _ => .inr (.inr (.inl ⟨_, rfl⟩))
  | cleaned =>
    simp only [TxnEv.ts, TxnSys.setTxn, Function.update_self]
    exact fun k _ => .inr (.inr (.inr rfl))

end KeyOk

/-- A timestamp is positive and is not the mark for no prewrite. -/
def TsOk (_ : TxnSys V) : TxnEv V → Prop
  | .start ts => 0 < ts ∧ ts < uint64Max
  | _ => True

instance (sys : TxnSys V) (e : TxnEv V) : Decidable (TsOk sys e) :=
  match e with
  | .start ts => inferInstanceAs (Decidable (0 < ts ∧ ts < uint64Max))
  | .getRow .. | .resume _ | .modify .. | .finish _ | .cleanup .. => inferInstanceAs (Decidable True)

structure ProgressInv (g : Nat) (v₀ : Nat → V) (sys : TxnSys V) : Prop where
  inv : TxnInv g v₀ sys
  held : ∀ t, HeldOk sys.rows t (sys.txns t)
  keys : ∀ t, KeyOk sys.rows t (sys.txns t)
  queue : ∀ k, RequestsOk (sys.rows k)
  ts : ∀ t, sys.Unfinished t → 0 < t ∧ t < uint64Max

variable [Inhabited V]

/-- Only `start` makes a transaction unfinished. -/
theorem TxnStep.unfinished {e : TxnEv V} (h : TxnStep g sys e sys') (he : ∀ t, e ≠ .start t) : sys.Unfinished e.ts := by
  unfold TxnSys.Unfinished
  cases h with
  | start => exact absurd rfl (he _)
  | getRow hst | resume hst | modify hst | finish hst | cleaned hst | undo hst | write hst | drop hst =>
    simp only [TxnEv.ts]
    rw [hst]
    simp

namespace ProgressInv

omit [Inhabited V] in
theorem init (v₀ : Nat → V) : ProgressInv g v₀ (.init v₀) :=
  ⟨.init v₀, fun _ => .nil (by simp), fun _ _ h => absurd rfl h, fun k => .init (v₀ k),
    fun _ h => absurd rfl h.1⟩

theorem step (hp : ProgressInv g v₀ sys) {e : TxnEv V} (hok : TsOk sys e) (h : sys.step g e = some sys') :
    ProgressInv g v₀ sys' := by
  have hs := TxnStep.of_step h
  refine ⟨hp.inv.step h, HeldOk.step hp.held hp.inv hs, KeyOk.step hp.keys hp.inv hs, fun k => ?_, fun t ht => ?_⟩
  · rcases hs.row_cases k with hk | ⟨a, ha, -⟩
    · rw [hk]; exact hp.queue k
    · exact (hp.queue k).step (hp.inv.row k) ha
  · by_cases hte : t = e.ts
    · rw [hte]
      cases e with
      | start ts => exact hok
      | getRow | resume | modify | finish | cleanup => exact hp.ts _ (hs.unfinished nofun)
    · refine hp.ts t ?_
      unfold TxnSys.Unfinished
      rw [← hs.txns_of_ne hte]
      exact ht

theorem reach (h : (txnLts g v₀).Reach TsOk sys) : ProgressInv g v₀ sys :=
  h.inv (fun _ h0 => by rw [h0]; exact .init v₀) fun _ _ _ hp hok hs => hp.step hok hs

section Enabled

variable (hp : ProgressInv g v₀ sys)

include hp

/-- A row that a transaction has not asked for yet answers it. -/
theorem getRow_isSome {key : Nat} {type : AccessT} (hrun : (sys.txns t).status = .running)
    (hnew : ∀ a ∈ (sys.txns t).accesses, a.key ≠ key) (hty : type = .rd ∨ type = .wr) (minTs : Nat) :
    ∃ sys', sys.step g (.getRow t key type minTs) = some sys' := by
  obtain ⟨hpos, hlt⟩ := hp.ts t (by unfold TxnSys.Unfinished; rw [hrun]; simp)
  have hf : (sys.rows key).Fresh t := by
    refine ⟨hpos, Nat.le_of_lt hlt, Classical.not_not.1 fun hne => ?_⟩
    obtain ⟨a, ha, hak⟩ := (hp.keys t).of_running hrun hne
    exact hnew a ha hak
  have hstep : ∃ row, (sys.rows key).step g (type.event t minTs) = some row := by
    rcases hty with rfl | rfl
    · exact (hp.inv.row key).read_isSome (hp.queue key) hf
    · exact (hp.inv.row key).prewrite_isSome (hp.queue key) hf minTs
  obtain ⟨row, hrow⟩ := hstep
  exact ⟨(sys.setRow key row).setTxn t ((sys.txns t).answered key type (row.phase t)),
    by rw [TxnSys.step, TxnSys.getRow, if_pos ⟨hrun, hnew, hty⟩, hrow]; rfl⟩

omit [Inhabited V] in
/-- A waiting read is not at `UINT64_MAX`. -/
theorem pending_lt {k : Nat} : ∀ q ∈ (sys.rows k).row.pending, q.type = .rReq → q.ts < uint64Max := by
  intro q hq _
  obtain ⟨type, hst⟩ := (hp.inv.ok q.ts).pend k _ ((hp.inv.row k).pend q hq).2.2.1
  refine (hp.ts q.ts ?_).2
  unfold TxnSys.Unfinished
  rw [hst]
  simp

/-- `cleanup` returns the last row, or it is done. -/
theorem cleanup_isSome {rc : RC} (hst : (sys.txns t).status = .cleaning rc) (minTs : Nat) :
    ∃ sys', sys.step g (.cleanup t minTs) = some sys' := by
  cases hacc : (sys.txns t).accesses with
  | nil => exact ⟨sys.setTxn t ⟨.done, []⟩, by simp only [TxnSys.step, TxnSys.cleanup, hst, hacc]⟩
  | cons a as =>
    have ha : a ∈ (sys.txns t).accesses := by rw [hacc]; exact List.mem_cons_self
    rcases (hp.held t).types a ha with hty | hty
    · exact ⟨sys.setTxn t ⟨.cleaning rc, as⟩, by
        simp only [TxnSys.step, TxnSys.cleanup, hst, hacc, hty, AccessT.returned, reduceCtorEq, false_and, if_false]⟩
    · obtain ⟨r, hr⟩ := (hp.held t).held a ha hty
      by_cases hrc : rc = .abort
      · obtain ⟨row, hrow⟩ := (hp.inv.row a.key).undo_isSome (hp.queue a.key) hr hp.pending_lt minTs
        exact ⟨(sys.setRow a.key row).setTxn t ⟨.cleaning rc, as⟩, by
          simp only [TxnSys.step, TxnSys.cleanup, hst, hacc, hty, hrc, AccessT.returned, and_self, if_true, hrow]; rfl⟩
      · obtain ⟨row, hrow⟩ := (hp.inv.row a.key).write_isSome (hp.queue a.key) hr hp.pending_lt minTs
        exact ⟨(sys.setRow a.key row).setTxn t ⟨.cleaning rc, as⟩, by
          simp only [TxnSys.step, TxnSys.cleanup, hst, hacc, hty, hrc, AccessT.returned, and_false, if_false, hrow]
          rfl⟩

/-- The oldest unfinished transaction goes on if it waits. -/
theorem resume_isSome {key : Nat} {type : AccessT} (hst : (sys.txns t).status = .waiting key type)
    (hmin : ∀ t', sys.Unfinished t' → t ≤ t') : ∃ sys', sys.step g (.resume t) = some sys' := by
  have hnot : ∀ ty, (sys.rows key).phase t ≠ .waiting ty := by
    intro ty hty
    obtain ⟨t', -, hu, hlt⟩ := hp.inv.pending_holder ((hp.inv.row key).waiting t ty hty)
    exact Nat.not_lt.2 (hmin t' hu) hlt
  have hans : ∃ r, (sys.rows key).phase t = .reading r ∨ (sys.rows key).phase t = .granted r := by
    rcases (hp.inv.ok t).wait key type hst with ⟨-, h | ⟨r, h⟩⟩ | ⟨-, h | ⟨r, h⟩⟩
    · exact absurd h (hnot _)
    · exact ⟨r, .inl h⟩
    · exact absurd h (hnot _)
    · exact ⟨r, .inr h⟩
  obtain ⟨r, hr⟩ := hans
  refine ⟨sys.setTxn t ⟨.running, ⟨key, type, r⟩ :: (sys.txns t).accesses⟩, ?_⟩
  rcases hr with hr | hr <;> simp only [TxnSys.step, TxnSys.resume, hst, hr]

end Enabled

end ProgressInv

/-! ### What is left to do -/

/-- The calls that a transaction still has to make if it asks for no other row. -/
def TxnMan.left (m : TxnMan) : Nat :=
  match m.status with
  | .fresh | .done => 0
  | .cleaning _ => m.accesses.length + 1
  | .running => m.accesses.length + 2
  | .waiting .. => m.accesses.length + 4

/-- An event that brings its transaction nearer to its end. -/
def TxnEv.Ends : TxnEv V → Prop
  | .resume _ | .finish _ | .cleanup .. => True
  | _ => False

theorem TxnStep.left_lt {e : TxnEv V} (h : TxnStep g sys e sys') (he : e.Ends) :
    (sys'.txns e.ts).left < (sys.txns e.ts).left := by
  cases h with
  | start | getRow | modify => exact he.elim
  | resume hst | finish hst =>
    simp only [TxnEv.ts, TxnSys.setTxn, Function.update_self, TxnMan.left, hst, List.length_cons]
    omega
  | cleaned hst =>
    simp only [TxnEv.ts, TxnSys.setTxn, Function.update_self, TxnMan.left, hst]
    omega
  | undo hst hacc | write hst hacc | drop hst hacc =>
    simp only [TxnEv.ts, TxnSys.setTxn, Function.update_self, TxnMan.left, hst, hacc, List.length_cons]
    omega

omit [Inhabited V] in
theorem TxnEv.Ends.ne_start {e : TxnEv V} (he : e.Ends) (t : Nat) : e ≠ .start t := by
  rintro rfl
  exact he

theorem TxnStep.fresh_iff {e : TxnEv V} (h : TxnStep g sys e sys') (he : e.Ends) (t : Nat) :
    (sys'.txns t).status = .fresh ↔ (sys.txns t).status = .fresh := by
  by_cases ht : t = e.ts
  · rw [ht]
    refine iff_of_false ?_ (h.unfinished he.ne_start).1
    cases h with
    | start | getRow | modify => exact he.elim
    | resume | finish | cleaned | undo | write | drop =>
      simp [TxnEv.ts, TxnSys.setTxn]
  · rw [h.txns_of_ne ht]

omit [Inhabited V] in
theorem TxnEv.Ends.tsOk {e : TxnEv V} (he : e.Ends) : TsOk sys e := by
  cases e with
  | start => exact he.elim
  | getRow | resume | modify | finish | cleanup => trivial

def TxnSys.left (sys : TxnSys V) : Nat := ∑ t ∈ Finset.range uint64Max, (sys.txns t).left

namespace ProgressInv

/-- As long as a transaction is unfinished, the oldest one can make a step to its end. -/
theorem exists_step (hp : ProgressInv g v₀ sys) (hu : ∃ t, sys.Unfinished t) :
    ∃ e sys', e.Ends ∧ sys.step g e = some sys' := by
  classical
  obtain ⟨t, ht, hmin⟩ : ∃ t, sys.Unfinished t ∧ ∀ t', sys.Unfinished t' → t ≤ t' :=
    ⟨Nat.find hu, Nat.find_spec hu, fun t' => Nat.find_min' hu⟩
  cases hst : (sys.txns t).status with
  | fresh => exact absurd hst ht.1
  | done => exact absurd hst ht.2
  | running => exact ⟨.finish t, _, trivial, if_pos hst⟩
  | waiting key type =>
    obtain ⟨sys', h⟩ := hp.resume_isSome hst hmin
    exact ⟨.resume t, sys', trivial, h⟩
  | cleaning rc =>
    obtain ⟨sys', h⟩ := hp.cleanup_isSome hst 0
    exact ⟨.cleanup t 0, sys', trivial, h⟩

theorem left_lt (hp : ProgressInv g v₀ sys) {e : TxnEv V} (he : e.Ends) (h : sys.step g e = some sys') :
    sys'.left < sys.left := by
  have hs := TxnStep.of_step h
  have hlt := (hp.ts e.ts (hs.unfinished he.ne_start)).2
  exact sum_lt_sum_of_one (Finset.mem_range.2 hlt) (fun t ht => by rw [hs.txns_of_ne ht]) (hs.left_lt he)

end ProgressInv

end Txn

/-- The transaction 2 has written the row 7 and ends, 3 waits to write it and 4 to read it, 5 has aborted. -/
def openRun : List (TxnEv Nat) :=
  [.start 2, .start 3, .start 4, .start 5, .start 9, .getRow 9 8 .rd 0, .getRow 2 7 .wr 0, .getRow 3 7 .wr 0,
    .getRow 4 7 .rd 0, .getRow 5 8 .wr 0, .modify 2 7 6, .finish 2]

end Dbx1000
