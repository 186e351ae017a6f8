import Dbx1000.Ycsb

/-!
# Prewrites of YCSB transactions are released

A run in which no query has a scan is a run of `TxnSys`: `YcsbSim` keeps the rows and the status of the
transactions equal, and `YcsbOk` says what the loops of `run_txn` and `cleanup` know about the rows of
their transaction. That a prewrite is held by an unfinished transaction, and that a request waits for an
older one, is then read off `TxnInv`.
-/

namespace Dbx1000

variable {V : Type}

/-- The requests whose rows are not accessed yet. -/
def YcsbTxn.rest (m : YcsbTxn) : List YcsbRequest := if m.row.isSome then m.todo.tail else m.todo

/-- A transaction without scans; `ph` is how far it is on each row. -/
structure YcsbOk (t : Nat) (m : YcsbTxn) (ph : Nat → Phase) : Prop where
  range : m.status ≠ .fresh → 0 < t ∧ t ≤ uint64Max
  types : ∀ q ∈ m.todo, q.rtype = .rd ∨ q.rtype = .wr
  keys : (m.rest.map YcsbRequest.key ++ m.accesses.map Access.key).Nodup
  held : ∀ a ∈ m.accesses, a.type = .rd ∨ a.type = .wr ∧ ph a.key = .granted a.data
  idle : (∀ rc, m.status ≠ .cleaning rc) → m.status ≠ .done → ∀ k, (∀ a ∈ m.accesses, a.key ≠ k) →
    (∀ type, m.status ≠ .waiting k type) → ph k = .idle
  waiting : ∀ k type, m.status = .waiting k type → m.row = none ∧
    (∃ req rest, m.todo = req :: rest ∧ req.key = k ∧ req.rtype = type) ∧
    (m.tsReady = true → ∀ r, m.curRow = some r → ph k = .reading r ∨ ph k = .granted r)
  computing : ∀ r, m.row = some r → m.status = .running ∧
    ∃ req rest as, m.todo = req :: rest ∧ m.accesses = ⟨req.key, req.rtype, r⟩ :: as

structure YcsbSim (sys : YcsbSys V) (s : TxnSys V) : Prop where
  rows : ∀ k, (s.rows k).row = sys.rows k
  txns : ∀ t, s.txns t = (sys.txns t).toTxnMan
  ok : ∀ t, YcsbOk t (sys.txns t) fun k => (s.rows k).phase t

/-- The queries without scans. -/
def NoScan (cfg : YcsbConfig) (_ : YcsbSys V) : YcsbEv → Prop
  | .start _ draws => ∀ reqs ∈ genRequests cfg draws, ∀ q ∈ reqs, q.rtype ≠ .scan
  | _ => True

instance (cfg : YcsbConfig) (sys : YcsbSys V) (a : YcsbEv) : Decidable (NoScan cfg sys a) :=
  match a with
  | .start _ draws => inferInstanceAs (Decidable (∀ reqs ∈ genRequests cfg draws, ∀ q ∈ reqs, q.rtype ≠ .scan))
  | .lockAbort _ | .getRow .. | .resume _ | .compute _ | .finish _ | .cleanup .. => .isTrue trivial

/-! ### Transactions that are released -/

theorem wakeTxns_cases (ph : Nat → Phase) (txns : Nat → YcsbTxn) (ws : List Wake) (t : Nat) :
    ((∀ w ∈ ws, w.ts ≠ t) ∧ wakeAll ph ws t = ph t ∧ wakeTxns txns ws t = txns t) ∨
      ∃ w ∈ ws, w.ts = t ∧ wakeAll ph ws t = w.phase ∧
        wakeTxns txns ws t = { txns t with curRow := some w.row, tsReady := true } := by
  induction ws generalizing ph txns with
  | nil => exact .inl ⟨nofun, rfl, rfl⟩
  | cons w ws ih =>
    rcases ih (Function.update ph w.ts w.phase)
      (Function.update txns w.ts { txns w.ts with curRow := some w.row, tsReady := true }) with
      ⟨hne, hph, htx⟩ | ⟨x, hx, rfl, hph, htx⟩
    · by_cases hwt : w.ts = t
      · subst hwt
        rw [Function.update_self] at hph htx
        exact .inr ⟨w, List.mem_cons_self, rfl, hph, htx⟩
      · rw [Function.update_of_ne (Ne.symm hwt)] at hph htx
        exact .inl ⟨List.forall_mem_cons.2 ⟨hwt, hne⟩, hph, htx⟩
    · refine .inr ⟨x, List.mem_cons_of_mem _ hx, rfl, hph, htx.trans ?_⟩
      by_cases hwx : x.ts = w.ts
      · rw [hwx, Function.update_self]
      · rw [Function.update_of_ne hwx]

/-- What a call on the row `k` does to a transaction that does not make it. -/
inductive YcsbMoved (m : YcsbTxn) (p : Phase) : YcsbTxn → Phase → Prop
  | same : YcsbMoved m p m p
  | woken {w : Wake} (hp : p = .waiting w.type) : YcsbMoved m p { m with curRow := some w.row, tsReady := true } w.phase

theorem YcsbMoved.toTxnMan {m m' : YcsbTxn} {p p' : Phase} (h : YcsbMoved m p m' p') : m'.toTxnMan = m.toTxnMan := by
  cases h <;> rfl

theorem Wake.phase_cases (w : Wake) : w.phase = .reading w.row ∨ w.phase = .granted w.row := by
  unfold Wake.phase
  split
  · exact .inr rfl
  · exact .inl rfl

namespace YcsbOk

variable {t k : Nat} {m m' : YcsbTxn} {ph : Nat → Phase} {p : Phase}

theorem key_ne (h : YcsbOk t m ph) {req : YcsbRequest} {rest : List YcsbRequest} (hrow : m.row = none)
    (htodo : m.todo = req :: rest) : ∀ a ∈ m.accesses, a.key ≠ req.key := by
  intro a ha hk
  have hnodup := h.keys
  simp only [YcsbTxn.rest, hrow, htodo, Option.isSome_none, Bool.false_eq_true, if_false] at hnodup
  refine (List.nodup_append.1 hnodup).2.2 req.key (by simp) a.key ?_ hk.symm
  exact List.mem_map_of_mem ha

/-- The phase changes on one row that is not among the accesses of the transaction. -/
theorem held_update (h : YcsbOk t m ph) (hk : ∀ a ∈ m.accesses, a.type = .wr → a.key ≠ k) :
    ∀ a ∈ m.accesses, a.type = .rd ∨ a.type = .wr ∧ Function.update ph k p a.key = .granted a.data := by
  intro a ha
  refine (h.held a ha).imp_right fun ⟨hw, hg⟩ => ⟨hw, ?_⟩
  rw [Function.update_of_ne (hk a ha hw)]
  exact hg

theorem moved (h : YcsbOk t m ph) (hm : YcsbMoved m (ph k) m' p)
    (hwait : ∀ ty, ph k = .waiting ty → ∃ type, m.status = .waiting k type) :
    YcsbOk t m' (Function.update ph k p) := by
  cases hm with
  | same => rwa [Function.update_eq_self]
  | @woken w hp =>
    obtain ⟨type, hst⟩ := hwait _ hp
    have hk : ∀ a ∈ m.accesses, a.type = .wr → a.key ≠ k := by
      rintro a ha hw rfl
      rcases h.held a ha with hr | ⟨-, hg⟩
      · rw [hw] at hr; cases hr
      · rw [hg] at hp; cases hp
    refine ⟨h.range, h.types, h.keys, h.held_update hk, fun hc hd k' hacc hne => ?_, fun k' type' hst' => ?_,
      h.computing⟩
    · rw [Function.update_of_ne (by rintro rfl; exact hne type hst)]
      exact h.idle hc hd k' hacc hne
    · obtain ⟨h1, h2, -⟩ := h.waiting k' type' hst'
      refine ⟨h1, h2, ?_⟩
      rintro - r ⟨⟩
      cases hst.symm.trans hst'
      rw [Function.update_self]
      exact w.phase_cases

/-- `get_row` has returned the row `r`. -/
theorem got (h : YcsbOk t m ph) {req : YcsbRequest} {rest : List YcsbRequest} {r : RowId} (hrow : m.row = none)
    (hst : m.status ≠ .fresh) (htodo : m.todo = req :: rest) (hp : req.rtype = .rd ∨ req.rtype = .wr ∧ p = .granted r)
    (hidle : ∀ k, (∀ a ∈ m.accesses, a.key ≠ k) → k ≠ req.key → ph k = .idle)
    (cur : Option RowId) : YcsbOk t { m.got req r with curRow := cur } (Function.update ph req.key p) := by
  have hne := h.key_ne hrow htodo
  refine ⟨fun _ => h.range hst, h.types, ?_, ?_, fun _ _ k hacc _ => ?_, nofun, ?_⟩
  · have hnodup := h.keys
    simp only [YcsbTxn.rest, hrow, htodo, Option.isSome_none, Bool.false_eq_true, if_false] at hnodup
    simp only [YcsbTxn.rest, YcsbTxn.got, htodo, Option.isSome_some, if_true, List.tail_cons, List.map_cons]
    exact (List.perm_middle.nodup_iff).2 hnodup
  · intro a ha
    rcases List.mem_cons.1 ha with rfl | ha
    · rw [Function.update_self]
      exact hp
    · rw [Function.update_of_ne (hne a ha)]
      exact h.held a ha
  · have hk : k ≠ req.key := fun hk => hacc _ List.mem_cons_self hk.symm
    rw [Function.update_of_ne hk]
    exact hidle k (fun a ha => hacc a (List.mem_cons_of_mem _ ha)) hk
  · rintro _ ⟨⟩
    exact ⟨rfl, req, rest, m.accesses, htodo, rfl⟩

/-- The request is queued. -/
theorem queued (h : YcsbOk t m ph) {req : YcsbRequest} {rest : List YcsbRequest} (hrow : m.row = none)
    (hst : m.status = .running) (htodo : m.todo = req :: rest) :
    YcsbOk t { m with status := .waiting req.key req.rtype, tsReady := false } (Function.update ph req.key p) := by
  refine ⟨fun _ => h.range (by simp [hst]), h.types, h.keys, h.held_update fun a ha _ => h.key_ne hrow htodo a ha,
    fun _ _ k hacc hne => ?_, ?_, fun r hr => ?_⟩
  · rw [Function.update_of_ne (by rintro rfl; exact hne _ rfl)]
    exact h.idle (by simp [hst]) (by simp [hst]) k hacc (by simp [hst])
  · rintro k type ⟨⟩
    exact ⟨hrow, ⟨req, rest, htodo, rfl, rfl⟩, nofun⟩
  · rw [hrow] at hr
    cases hr

/-- The request is refused. -/
theorem refused (h : YcsbOk t m ph) {req : YcsbRequest} {rest : List YcsbRequest} (hrow : m.row = none)
    (hst : m.status = .running) (htodo : m.todo = req :: rest) :
    YcsbOk t { m with status := .cleaning .abort } (Function.update ph req.key p) := by
  refine ⟨fun _ => h.range (by simp [hst]), h.types, h.keys, h.held_update fun a ha _ => h.key_ne hrow htodo a ha,
    fun hc => absurd rfl (hc .abort), nofun, fun r hr => ?_⟩
  rw [hrow] at hr
  cases hr

/-- The iteration of a read or write is over. -/
theorem iterated (h : YcsbOk t m ph) {r : RowId} (hrow : m.row = some r) {req : YcsbRequest} {rest : List YcsbRequest}
    (htodo : m.todo = req :: rest) :
    YcsbOk t (m.iterated req rest) ph ∧ (m.iterated req rest).toTxnMan = m.toTxnMan := by
  have hty := h.types req (by rw [htodo]; exact List.mem_cons_self)
  obtain ⟨hst, -⟩ := h.computing r hrow
  have hkeys := h.keys
  simp only [YcsbTxn.rest, hrow, htodo, Option.isSome_some, if_true, List.tail_cons] at hkeys
  rw [YcsbTxn.iterated, if_pos (hty.imp_right .inl)]
  refine ⟨⟨h.range, fun q hq => h.types q ?_, hkeys, h.held, h.idle, ?_, nofun⟩, rfl⟩
  · rw [htodo]
    exact List.mem_cons_of_mem _ hq
  · intro k type hst'
    exact nomatch hst.symm.trans hst'

/-- The transaction goes on to `finish`, or is done. -/
theorem ended (h : YcsbOk t m ph) {status : TxnStatus} (hs : (∃ rc, status = .cleaning rc) ∨ status = .done)
    (hst : m.status ≠ .fresh) (hrow : ∀ r, m.row ≠ some r) : YcsbOk t { m with status := status } ph := by
  refine ⟨fun _ => h.range hst, h.types, h.keys, h.held, fun hc hd => ?_, fun k type hst' => ?_,
    fun r hr => absurd hr (hrow r)⟩
  · rcases hs with ⟨rc, rfl⟩ | rfl
    · exact absurd rfl (hc rc)
    · exact absurd rfl hd
  · rcases hs with ⟨rc, rfl⟩ | rfl <;> cases hst'

/-- The loop of `cleanup` has dealt with the last access. -/
theorem dropped (h : YcsbOk t m ph) {a : Access} {as : List Access} {rc : RC} (hst : m.status = .cleaning rc)
    (hacc : m.accesses = a :: as) : YcsbOk t { m with accesses := as } (Function.update ph a.key p) := by
  have hnodup := h.keys
  rw [hacc] at hnodup
  refine ⟨h.range, h.types, ?_, fun b hb => ?_, fun hc => absurd hst (hc rc), fun k type hst' => ?_, fun r hr => ?_⟩
  · exact hnodup.sublist ((List.sublist_cons_self ..).append_left _)
  · have hne : b.key ≠ a.key := by
      intro hk
      have := (List.nodup_append.1 hnodup).2.1
      rw [List.map_cons, List.nodup_cons] at this
      exact this.1 (hk ▸ List.mem_map_of_mem hb)
    rw [Function.update_of_ne hne]
    exact h.held b (hacc ▸ List.mem_cons_of_mem _ hb)
  · exact nomatch hst.symm.trans hst'
  · exact nomatch hst.symm.trans (h.computing r hr).1

end YcsbOk

/-! ### Steps -/

theorem phase_setRow (s : TxnSys V) (k t : Nat) (row : RowSt V) :
    (fun k' => ((s.setRow k row).rows k').phase t) =
      Function.update (fun k' => (s.rows k').phase t) k (row.phase t) := by
  funext k'
  by_cases hk : k' = k
  · subst hk
    simp [TxnSys.setRow]
  · simp [TxnSys.setRow, hk]

namespace YcsbSim

variable {sys sys' : YcsbSys V} {s : TxnSys V} {g : Nat} {v₀ : Nat → V}

theorem init (v₀ : Nat → V) : YcsbSim (.init v₀) (.init v₀) :=
  ⟨fun _ => rfl, fun _ => rfl, fun _ => ⟨fun h => absurd rfl h, nofun, List.nodup_nil, nofun, fun _ _ _ _ _ => rfl,
    nofun, nofun⟩⟩

/-- Only the transaction `ts` moves. -/
theorem setTxn (h : YcsbSim sys s) {ts : Nat} {m : YcsbTxn} (hm : YcsbOk ts m fun k => (s.rows k).phase ts) :
    YcsbSim (sys.setTxn ts m) (s.setTxn ts m.toTxnMan) := by
  refine ⟨h.rows, fun t => ?_, fun t => ?_⟩ <;> by_cases ht : t = ts
  · subst ht
    simp [TxnSys.setTxn, YcsbSys.setTxn]
  · simp [TxnSys.setTxn, YcsbSys.setTxn, ht, h.txns t]
  · subst ht
    simpa [TxnSys.setTxn, YcsbSys.setTxn] using hm
  · simpa [TxnSys.setTxn, YcsbSys.setTxn, ht] using h.ok t

/-- The transaction `ts` calls on the row `k` and becomes `m`. -/
theorem call (h : YcsbSim sys s) (hi : TxnInv g v₀ s) {k ts : Nat} (row : RowSt V) {m : YcsbTxn} {man : TxnMan}
    {txns : Nat → YcsbTxn} (hman : man = m.toTxnMan)
    (hother : ∀ t, t ≠ ts → YcsbMoved (sys.txns t) ((s.rows k).phase t) (txns t) (row.phase t))
    (hm : YcsbOk ts m (Function.update (fun k => (s.rows k).phase ts) k (row.phase ts))) :
    YcsbSim (YcsbSys.setTxn ts m ⟨Function.update sys.rows k row.row, txns⟩) ((s.setRow k row).setTxn ts man) := by
  subst hman
  refine ⟨fun k' => ?_, fun t => ?_, fun t => ?_⟩
  · show (Function.update s.rows k row k').row = Function.update sys.rows k row.row k'
    by_cases hk : k' = k
    · subst hk
      simp
    · simp [hk, h.rows k']
  · show Function.update s.txns ts m.toTxnMan t = (Function.update txns ts m t).toTxnMan
    by_cases ht : t = ts
    · subst ht
      simp
    · simp [ht, (hother t ht).toTxnMan, h.txns t]
  · show YcsbOk t (Function.update txns ts m t) fun k' => ((s.setRow k row).rows k').phase t
    rw [phase_setRow]
    by_cases ht : t = ts
    · subst ht
      rwa [Function.update_self]
    · rw [Function.update_of_ne ht]
      refine (h.ok t).moved (hother t ht) fun ty hty => ?_
      obtain ⟨type, hst⟩ := (hi.ok t).pend k ty hty
      rw [h.txns t] at hst
      exact ⟨type, hst⟩

theorem resume (h : YcsbSim sys s) (hi : TxnInv g v₀ s) {ts : Nat} (hs : sys.resume ts = some sys') :
    ∃ s', TxnInv g v₀ s' ∧ YcsbSim sys' s' := by
  unfold YcsbSys.resume at hs
  split at hs
  · rename_i k type req rest r hst htodo hcur
    split at hs
    · rename_i hready
      cases hs
      have hok := h.ok ts
      obtain ⟨hrow, ⟨req', rest', htodo', rfl, rfl⟩, hph⟩ := hok.waiting k type hst
      cases htodo.symm.trans htodo'
      have hph := hph hready r hcur
      have hst' : (s.txns ts).status = .waiting req.key req.rtype := by rw [h.txns ts]; exact hst
      have hinv := hi.resume hst' hph
      rw [h.txns ts] at hinv
      refine ⟨_, hinv, h.setTxn ?_⟩
      have hgot := hok.got hrow (by simp [hst]) htodo (p := (s.rows req.key).phase ts) (r := r) ?_ ?_
        (sys.txns ts).curRow
      · rwa [Function.update_eq_self] at hgot
      · rcases (hi.ok ts).wait _ _ hst' with ⟨hrd, -⟩ | ⟨hwr, hw⟩
        · exact .inl hrd
        · refine .inr ⟨hwr, ?_⟩
          rcases hph with hph | hph
          · rw [hph] at hw
            simp at hw
          · exact hph
      · intro k hk hne
        refine hok.idle (by simp [hst]) (by simp [hst]) k hk fun type' hst'' => ?_
        cases hst.symm.trans hst''
        exact hne rfl
    · cases hs
  · cases hs

/-- The row of the last access is returned and `update_buffer` releases `ws`. -/
theorem returned (h : YcsbSim sys s) (hi : TxnInv g v₀ s) {ts : Nat} {rc : RC} {a : Access} {as : List Access}
    (row : RowSt V) {ws : List Wake} (hst : (sys.txns ts).status = .cleaning rc)
    (hacc : (sys.txns ts).accesses = a :: as) (hg : (s.rows a.key).phase ts = .granted a.data)
    (hph : row.phase = wakeAll (Function.update (s.rows a.key).phase ts .finished) ws)
    (hws : ∀ w ∈ ws, (s.rows a.key).phase w.ts = .waiting w.type) :
    YcsbSim (YcsbSys.setTxn ts { wakeTxns sys.txns ws ts with accesses := as }
        ⟨Function.update sys.rows a.key row.row, wakeTxns sys.txns ws⟩)
      ((s.setRow a.key row).setTxn ts ⟨.cleaning rc, as⟩) := by
  have hcases := wakeTxns_cases (Function.update (s.rows a.key).phase ts .finished) sys.txns ws
  have hself : wakeTxns sys.txns ws ts = sys.txns ts := by
    rcases hcases ts with ⟨-, -, htx⟩ | ⟨w, hw, rfl, -⟩
    · exact htx
    · exact nomatch hg.symm.trans (hws w hw)
  rw [hself]
  refine h.call hi row (by rw [← hst]) (fun t ht => ?_) ((h.ok ts).dropped hst hacc)
  rw [hph]
  rcases hcases t with ⟨-, hsame, htx⟩ | ⟨w, hw, rfl, hwk, htx⟩
  · rw [hsame, htx, Function.update_of_ne ht]
    exact .same
  · rw [hwk, htx]
    exact .woken (hws w hw)

variable [Inhabited V]

/-- The three answers of a read or prewrite request. -/
theorem access_cases {row row' : RowMvcc V} {minTs ts : Nat} {type : AccessT} {o : Outcome}
    (h : row.access g minTs ts type.tsType 0 = some (row', o)) :
    o = ⟨.abort, none, []⟩ ∨ o = ⟨.wait, none, []⟩ ∨ ∃ r, o = ⟨.rcok, some r, []⟩ := by
  unfold AccessT.tsType at h
  split at h
  · rcases RowMvcc.readReq_cases h with ⟨-, -, rfl⟩ | ⟨-, -, -, -, rfl⟩ | ⟨r, -, -, -, rfl⟩ | ⟨r, -, -, -, rfl⟩ <;> simp
  · rcases RowMvcc.prewriteReq_cases h with ⟨-, rfl⟩ | ⟨-, -, -, rfl⟩ | ⟨r, -, -, -, -, rfl⟩ <;> simp

/-- A request of `run_txn` on a row it has not touched is a request of the row's run. -/
theorem step_event_of_access {st : RowSt V} {row : RowMvcc V} {minTs ts : Nat} {type : AccessT} {o : Outcome}
    (hty : type = .rd ∨ type = .wr) (hf : st.Fresh ts)
    (h : st.row.access g minTs ts type.tsType 0 = some (row, o)) :
    st.step g (type.event ts minTs) = some (st.answer ts type.tsType row o) := by
  have hreq : ∀ ty m, st.row.access g m ts ty 0 = some (row, o) →
      st.request g m ts ty = some (st.answer ts ty row o) := by
    intro ty m ha
    simp only [RowSt.Fresh] at hf
    simp [RowSt.request, hf, ha]
  rcases hty with rfl | rfl
  · exact hreq .rReq 0 h
  · exact hreq .pReq minTs h

theorem getRow (h : YcsbSim sys s) (hi : TxnInv g v₀ s) {ts minTs : Nat} (hs : sys.getRow g ts minTs = some sys') :
    ∃ s', TxnInv g v₀ s' ∧ YcsbSim sys' s' := by
  unfold YcsbSys.getRow at hs
  split at hs
  · rename_i req rest hst hrow htodo
    simp only [Option.bind_eq_bind, Option.bind_eq_some_iff, Prod.exists] at hs
    obtain ⟨row, o, ha, hs⟩ := hs
    have hok := h.ok ts
    have hty := hok.types req (by rw [htodo]; exact List.mem_cons_self)
    have hidle : ∀ k, (∀ a ∈ (sys.txns ts).accesses, a.key ≠ k) → (s.rows k).phase ts = .idle := by
      intro k hk
      exact hok.idle (by simp [hst]) (by simp [hst]) k hk (by simp [hst])
    have hfresh : (s.rows req.key).Fresh ts :=
      ⟨(hok.range (by simp [hst])).1, (hok.range (by simp [hst])).2, hidle req.key (hok.key_ne hrow htodo)⟩
    rw [← h.rows] at ha
    have hinv := hi.getRow (by rw [h.txns ts]; exact hst) hty (step_event_of_access hty hfresh ha)
    refine ⟨_, hinv, ?_⟩
    have hother : ∀ p t, t ≠ ts → YcsbMoved (sys.txns t) ((s.rows req.key).phase t) (sys.txns t)
        (Function.update (s.rows req.key).phase ts p t) := by
      intro p t ht
      rw [Function.update_of_ne ht]
      exact .same
    rcases access_cases ha with rfl | rfl | ⟨r, rfl⟩ <;> cases hs
    · refine h.call hi ((s.rows req.key).answer ts req.rtype.tsType row ⟨.abort, none, []⟩) ?_ (hother .finished)
        (hok.refused hrow hst htodo)
      simp [RowSt.answer, TxnMan.answered, h.txns ts]
    · refine h.call hi ((s.rows req.key).answer ts req.rtype.tsType row ⟨.wait, none, []⟩) ?_
        (hother (.waiting req.rtype.tsType)) (hok.queued hrow hst htodo)
      simp [RowSt.answer, TxnMan.answered, h.txns ts]
    · refine h.call hi ((s.rows req.key).answer ts req.rtype.tsType row ⟨.rcok, some r, []⟩) ?_
        (hother (Wake.phase ⟨ts, req.rtype.tsType, r⟩))
        (hok.got hrow (by simp [hst]) htodo ?_ (fun k hk _ => hidle k hk) (some r)) <;>
        rcases hty with hty | hty <;>
        simp [RowSt.answer, TxnMan.answered, Wake.phase, AccessT.tsType, YcsbTxn.got, h.txns ts, hty]
  · cases hs

theorem compute (h : YcsbSim sys s) (hi : TxnInv g v₀ s) {ts : Nat} {stamp : Nat → V → V}
    (hs : sys.compute stamp ts = some sys') : ∃ s', TxnInv g v₀ s' ∧ YcsbSim sys' s' := by
  unfold YcsbSys.compute at hs
  split at hs
  · rename_i r req rest hrow htodo
    have hok := h.ok ts
    obtain ⟨hst, req', rest', as, htodo', hacc⟩ := hok.computing r hrow
    cases htodo.symm.trans htodo'
    obtain ⟨hit, hman⟩ := hok.iterated hrow htodo
    split at hs
    · rename_i hwr
      simp only [Option.bind_eq_bind, Option.bind_eq_some_iff] at hs
      obtain ⟨v, hv, hs⟩ := hs
      cases hs
      -- the row is the one granted to the transaction
      have hgr : (s.rows req.key).phase ts = .granted r := by
        rcases hok.held ⟨req.key, req.rtype, r⟩ (by rw [hacc]; exact List.mem_cons_self) with hrd | ⟨-, hg⟩
        · exact nomatch hrd.symm.trans hwr.1
        · exact hg
      let row : RowSt V := { s.rows req.key with row := (s.rows req.key).row.setRow r (stamp ts v) }
      have hstep : s.step g (.modify ts req.key (stamp ts v)) = some (s.setRow req.key row) := by
        have hrun : (s.txns ts).status = .running := by rw [h.txns ts]; exact hst
        simp [TxnSys.step, hrun, RowSt.step, hgr, row]
      refine ⟨_, hi.step hstep, ?_⟩
      rw [← TxnSys.setTxn_self ts (s.setRow req.key row), ← h.rows]
      refine h.call hi row ((h.txns ts).trans hman.symm) (fun t _ => .same) ?_
      rwa [Function.update_eq_self]
    · cases hs
      refine ⟨s, hi, ?_⟩
      rw [← TxnSys.setTxn_self ts s, h.txns ts, ← hman]
      exact h.setTxn hit
  · cases hs

theorem returnRow (h : YcsbSim sys s) (hi : TxnInv g v₀ s) {ts minTs : Nat} {rc : RC} {a : Access} {as : List Access}
    {type : TsType} (htype : type = .xpReq ∨ type = .wReq) (hst : (sys.txns ts).status = .cleaning rc)
    (hacc : (sys.txns ts).accesses = a :: as) (hg : (s.rows a.key).phase ts = .granted a.data)
    (hs : sys.returnRow g ts minTs type a as = some sys') : ∃ s', TxnInv g v₀ s' ∧ YcsbSim sys' s' := by
  have hst' : (s.txns ts).status = .cleaning rc := by rw [h.txns ts]; exact hst
  have hacc' : (s.txns ts).accesses = a :: as := by rw [h.txns ts]; exact hacc
  have hrow := hi.row a.key
  unfold YcsbSys.returnRow at hs
  simp only [Option.bind_eq_bind, Option.bind_eq_some_iff, Prod.exists] at hs
  obtain ⟨row, o, ha, hs⟩ := hs
  cases hs
  rw [← h.rows] at ha
  rcases htype with rfl | rfl
  · obtain ⟨u, hc, hu⟩ := RowMvcc.access_xpReq ha
    have hstep : (s.rows a.key).step g (.undo ts minTs) = some ((s.rows a.key).resume ts row o.woken) := by
      simp [RowSt.step, hg, ha]
    refine ⟨_, hi.call hstep (hi.returned hst' hacc' (.inr hstep)), ?_⟩
    exact h.returned hi ((s.rows a.key).resume ts row o.woken) hst hacc hg rfl fun w hw =>
      ((hrow.ended_release hg hc).released hrow hu hw).1
  · obtain ⟨u, hc, hu⟩ := RowMvcc.access_wReq ha
    obtain ⟨e, v, -, hv, -⟩ := RowMvcc.commit_cases hc
    have hstep : (s.rows a.key).step g (.write ts minTs) =
        some ({ s.rows a.key with commits := (ts, v) :: (s.rows a.key).commits }.resume ts row o.woken) := by
      simp [RowSt.step, hg, hv, ha]
    refine ⟨_, hi.call hstep (hi.returned hst' hacc' (.inl hstep)), ?_⟩
    exact h.returned hi
      ({ s.rows a.key with commits := (ts, v) :: (s.rows a.key).commits }.resume ts row o.woken) hst hacc hg rfl
      fun w hw => ((hrow.ended_commit hg hv hc).1.released hrow hu hw).1

theorem cleanup (h : YcsbSim sys s) (hi : TxnInv g v₀ s) {ts minTs : Nat} (hs : sys.cleanup g ts minTs = some sys') :
    ∃ s', TxnInv g v₀ s' ∧ YcsbSim sys' s' := by
  have hok := h.ok ts
  unfold YcsbSys.cleanup at hs
  split at hs
  · rename_i rc hst hacc
    cases hs
    have hstep : s.step g (.cleanup ts 0) = some (s.setTxn ts ⟨.done, []⟩) := by
      simp [TxnSys.step, TxnSys.cleanup, h.txns ts, hst, hacc]
    refine ⟨_, hi.step hstep, ?_⟩
    rw [← hacc]
    refine h.setTxn (hok.ended (.inr rfl) (by simp [hst]) fun r hr => ?_)
    cases hst.symm.trans (hok.computing r hr).1
  · rename_i rc a as hst hacc
    rcases hok.held a (by rw [hacc]; exact List.mem_cons_self) with hrd | ⟨hwr, hg⟩
    · -- nothing is done for a row that was read
      have hret : a.type.returned rc = .rd := by simp [AccessT.returned, hrd]
      simp only [hret] at hs
      cases hs
      have hstep : s.step g (.cleanup ts 0) = some (s.setTxn ts ⟨.cleaning rc, as⟩) := by
        simp [TxnSys.step, TxnSys.cleanup, h.txns ts, hst, hacc, hret]
      refine ⟨_, hi.step hstep, ?_⟩
      have hdrop := hok.dropped (p := (s.rows a.key).phase ts) hst hacc
      rw [Function.update_eq_self] at hdrop
      rw [← hst]
      exact h.setTxn hdrop
    · split at hs
      · exact h.returnRow hi (.inl rfl) hst hacc hg hs
      · exact h.returnRow hi (.inr rfl) hst hacc hg hs
      · rename_i hxp hwr'
        unfold AccessT.returned at hxp hwr'
        split at hxp <;> simp_all
  · cases hs

theorem step (h : YcsbSim sys s) (hi : TxnInv g v₀ s) {cfg : YcsbConfig} {stamp : Nat → V → V} {a : YcsbEv}
    (hg : NoScan cfg sys a) (hs : sys.step cfg g stamp a = some sys') : ∃ s', TxnInv g v₀ s' ∧ YcsbSim sys' s' := by
  cases a with
  | start ts draws =>
    simp only [YcsbSys.step] at hs
    split at hs
    · rename_i hf
      obtain ⟨hst, hpos, hmax⟩ := hf
      simp only [Option.bind_eq_bind, Option.bind_eq_some_iff] at hs
      obtain ⟨reqs, hreqs, hs⟩ := hs
      cases hs
      obtain ⟨hnodup, htypes⟩ := genRequests_nodup hreqs (hg reqs hreqs)
      have hstep : s.step g (.start ts) = some (s.setTxn ts ⟨.running, []⟩) := by
        simp [TxnSys.step, h.txns ts, hst]
      have hacc : (sys.txns ts).accesses = [] := by
        have := (hi.ok ts).empty (.inl (by rw [h.txns ts]; exact hst))
        rwa [h.txns ts] at this
      refine ⟨_, hi.step hstep, h.setTxn ⟨fun _ => ⟨hpos, hmax⟩, htypes, ?_, by simp, fun _ _ k _ _ => ?_, by simp,
        by simp⟩⟩
      · simpa [YcsbTxn.rest] using hnodup
      · exact (h.ok ts).idle (by simp [hst]) (by simp [hst]) k (by simp [hacc]) (by simp [hst])
    · cases hs
  | lockAbort ts =>
    simp only [YcsbSys.step] at hs
    split at hs
    · rename_i hf
      obtain ⟨hst, hrow, hacc⟩ := hf
      cases hs
      have hfin : s.step g (.finish ts) = some (s.setTxn ts ⟨.cleaning .rcok, []⟩) := by
        simp [TxnSys.step, h.txns ts, hst, hacc]
      have hdone : (s.setTxn ts ⟨.cleaning .rcok, []⟩).step g (.cleanup ts 0) = some (s.setTxn ts ⟨.done, []⟩) := by
        simp [TxnSys.step, TxnSys.cleanup, TxnSys.setTxn]
      refine ⟨_, (hi.step hfin).step hdone, ?_⟩
      rw [← hacc]
      exact h.setTxn ((h.ok ts).ended (.inr rfl) (by simp [hst]) (by simp [hrow]))
    · cases hs
  | getRow ts minTs => exact h.getRow hi hs
  | resume ts => exact h.resume hi hs
  | compute ts => exact h.compute hi hs
  | finish ts =>
    simp only [YcsbSys.step] at hs
    split at hs
    · rename_i hf
      obtain ⟨hst, hrow, -⟩ := hf
      cases hs
      have hstep : s.step g (.finish ts) = some (s.setTxn ts ⟨.cleaning .rcok, (sys.txns ts).accesses⟩) := by
        simp [TxnSys.step, h.txns ts, hst]
      exact ⟨_, hi.step hstep, h.setTxn ((h.ok ts).ended (.inl ⟨_, rfl⟩) (by simp [hst]) (by simp [hrow]))⟩
    · cases hs
  | cleanup ts minTs => exact h.cleanup hi hs

end YcsbSim

/-! ### Every prewrite is released -/

/-- No request is queued behind a prewrite of its own transaction, and a transaction that has ended
holds no prewrite. -/
structure PrewritesReleased (sys : YcsbSys V) : Prop where
  queue : ∀ k, (sys.rows k).existsPrewrite = true → ∀ q ∈ (sys.rows k).pending, q.ts ≠ (sys.rows k).prewriteTs
  done : ∀ t, (sys.txns t).status = .done → ∀ k, (sys.rows k).existsPrewrite = true → (sys.rows k).prewriteTs ≠ t

theorem YcsbSim.prewritesReleased {sys : YcsbSys V} {s : TxnSys V} {g : Nat} {v₀ : Nat → V} (h : YcsbSim sys s)
    (hi : TxnInv g v₀ s) : PrewritesReleased sys := by
  constructor
  · intro k _ q hq
    rw [← h.rows] at hq ⊢
    exact (Nat.ne_of_lt ((hi.row k).pend q hq).2.1).symm
  · intro t ht k hp hpt
    rw [← h.rows] at hp hpt
    have hun : s.Unfinished t := hi.holder_unfinished ⟨hp, hpt⟩
    exact hun.2 (by rw [h.txns t]; exact ht)

variable [Inhabited V]

theorem prewrites_released_of_noScan {cfg : YcsbConfig} {gThreadCnt : Nat} {stamp : Nat → V → V} {v₀ : Nat → V}
    {sys : YcsbSys V} (h : (ycsbLts cfg gThreadCnt stamp v₀).Reach (NoScan cfg) sys) : PrewritesReleased sys := by
  have hsim : ∃ s, TxnInv gThreadCnt v₀ s ∧ YcsbSim sys s := by
    refine h.inv (P := fun sys => ∃ s, TxnInv gThreadCnt v₀ s ∧ YcsbSim sys s) ?_ ?_
    · rintro _ rfl
      exact ⟨.init v₀, .init v₀, .init v₀⟩
    · rintro sys a sys' ⟨s, hi, hsim⟩ hg hs
      exact hsim.step hi hg hs
  obtain ⟨s, hi, hsim⟩ := hsim
  exact hsim.prewritesReleased hi

/-- `config.h`. -/
def ycsbConfig : YcsbConfig := ⟨1, 1, 20, false⟩

/-- Transaction 2 reads row 5 and writes row 7; transaction 4 waits for row 7. -/
def noScanRun : List YcsbEv :=
  [.start 2 [⟨.rd, 5, 0⟩, ⟨.wr, 7, 0⟩], .start 4 [⟨.wr, 7, 0⟩, ⟨.rd, 7, 0⟩], .getRow 2 0, .compute 2, .getRow 2 0,
    .compute 2, .getRow 4 0, .finish 2, .cleanup 2 0, .cleanup 2 0, .cleanup 2 0]

theorem prewrites_released_in_noScanRun : ∃ sys : YcsbSys Nat,
    (ycsbLts ycsbConfig 1 (fun ts _ => ts) fun _ => 0).runIf (fun sys a => decide (NoScan ycsbConfig sys a))
      (.init fun _ => 0) noScanRun = some sys ∧
    (sys.txns 2).status = .done ∧ (sys.rows 7).prewriteTs = 4 ∧ PrewritesReleased sys := by
  have hrun : (((ycsbLts ycsbConfig 1 (fun ts _ => ts) fun _ => (0 : Nat)).runIf
      (fun sys a => decide (NoScan ycsbConfig sys a)) (.init fun _ => 0) noScanRun).any fun sys =>
        decide ((sys.txns 2).status = .done) && decide ((sys.rows 7).prewriteTs = 4)) = true := by decide +kernel
  simp only [Option.any_eq_true, Bool.and_eq_true, decide_eq_true_eq] at hrun
  obtain ⟨sys, hs, hst, hpt⟩ := hrun
  exact ⟨sys, hs, hst, hpt, prewrites_released_of_noScan (.runIf (fun _ _ => of_decide_eq_true) (.init rfl) hs)⟩

/-- The second call of a scan is queued behind the prewrite of the first: the transaction waits for
itself. -/
theorem scan_waits_for_itself : ∃ sys : YcsbSys Nat,
    (ycsbLts ycsbConfig 1 (fun ts _ => ts) fun _ => 0).run (.init fun _ => 0)
      [.start 2 [⟨.scan, 5, 0⟩], .getRow 2 0, .compute 2, .getRow 2 0] = some sys ∧
    (sys.txns 2).status = .waiting 5 .scan ∧ (sys.rows 5).prewriteTs = 2 ∧ ¬ PrewritesReleased sys := by
  have hrun : (((ycsbLts ycsbConfig 1 (fun ts _ => ts) fun _ => (0 : Nat)).run (.init fun _ => 0)
      [.start 2 [⟨.scan, 5, 0⟩], .getRow 2 0, .compute 2, .getRow 2 0]).any fun sys =>
        decide ((sys.txns 2).status = .waiting 5 .scan) && decide ((sys.rows 5).prewriteTs = 2) &&
        (sys.rows 5).existsPrewrite && (sys.rows 5).pending.any fun q => decide (q.ts = 2)) = true := by decide +kernel
  simp only [Option.any_eq_true, Bool.and_eq_true, decide_eq_true_eq, List.any_eq_true] at hrun
  obtain ⟨sys, hs, ⟨⟨hst, hpt⟩, hp⟩, q, hq, hqt⟩ := hrun
  exact ⟨sys, hs, hst, hpt, fun hr => hr.queue 5 hp q hq (hqt.trans hpt.symm)⟩

end Dbx1000
