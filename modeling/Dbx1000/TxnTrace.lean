import Dbx1000.RowReload
import Dbx1000.Txn

/-!
# Committed bytes come from transactions that finish with RCOK

A run of transactions with its history. The bytes a transaction writes into a granted row stay there
until its `cleanup` makes them a version or gives the row back. So the committed versions of a row are a
chain: each is what its transaction, which called `finish` with RCOK, wrote last into the row, or the
version before it if it wrote nothing. `_latest_row`, the page and the valid history entries hold nothing
else.
-/

namespace Dbx1000

open RowMvcc

/-! ### One row -/

section Row

variable {V : Type} {g : Nat} {v₀ : V} {st st' : RowSt V}

variable [Inhabited V]

/-- A transaction that waits or has not called was not further before. -/
theorem RowInv.step_unserved (hi : RowInv g v₀ st) {a : RowEv V} (h : st.step g a = some st') {t : Nat}
    (ht : st'.phase t = .idle ∨ ∃ ty, st'.phase t = .waiting ty) :
    st.phase t = .idle ∨ ∃ ty, st.phase t = .waiting ty :=
  ((QueueStep.of_step hi h).open_of_open ht).1

theorem step_commits {a : RowEv V} (h : st.step g a = some st') : ∀ c ∈ st.commits, c ∈ st'.commits := by
  intro c hc
  cases RowStep.of_step h with
  | write => exact List.mem_cons_of_mem _ hc
  | _ => exact hc

/-! ### The versions of a row -/

/-- The versions, newest first, are what the transactions of `fin` make of `v₀`: each one's last write `lw`, or
the version before. -/
def Produced (fin : Nat → Prop) (lw : Nat → Option V) (v₀ : V) : List (Nat × V) → Prop
  | [] => True
  | (t, v) :: h => fin t ∧ v = (lw t).getD (lastValue v₀ h) ∧ Produced fin lw v₀ h

section Produced

variable {fin fin' : Nat → Prop} {lw lw' : Nat → Option V} {h : List (Nat × V)}

omit [Inhabited V] in
theorem Produced.mono (hp : Produced fin lw v₀ h) (hfin : ∀ t, fin t → fin' t ∧ lw' t = lw t) :
    Produced fin' lw' v₀ h := by
  induction h with
  | nil => trivial
  | cons c h ih =>
    obtain ⟨h1, h2, h3⟩ := hp
    refine ⟨(hfin _ h1).1, ?_, ih h3⟩
    rw [(hfin _ h1).2]; exact h2

omit [Inhabited V] in
/-- Every version is the initial one or was written by a transaction of `fin`. -/
theorem Produced.origin (hp : Produced fin lw v₀ h) :
    (lastValue v₀ h = v₀ ∨ ∃ t, fin t ∧ lw t = some (lastValue v₀ h)) ∧
      ∀ c ∈ h, fin c.1 ∧ (c.2 = v₀ ∨ ∃ t, fin t ∧ lw t = some c.2) := by
  induction h with
  | nil => exact ⟨.inl rfl, nofun⟩
  | cons c h ih =>
    obtain ⟨t, v⟩ := c
    obtain ⟨h1, h2, h3⟩ := hp
    have hv : v = v₀ ∨ ∃ t, fin t ∧ lw t = some v := by
      cases hl : lw t with
      | none =>
        obtain rfl : v = lastValue v₀ h := by rw [h2, hl]; rfl
        exact (ih h3).1
      | some w =>
        obtain rfl : v = w := by rw [h2, hl]; rfl
        exact .inr ⟨t, h1, hl⟩
    refine ⟨hv, fun c hc => ?_⟩
    rcases List.mem_cons.1 hc with rfl | hc
    · exact ⟨h1, hv⟩
    · exact (ih h3).2 c hc

/-- One row in the middle of a run. -/
structure RowTrace (fin : Nat → Prop) (lw : Nat → Option V) (v₀ : V) (st : RowSt V) : Prop where
  produced : Produced fin lw v₀ st.commits
  held : ∀ t r, st.phase t = .granted r → st.row.mem r = some ((lw t).getD st.row.page)
  unwritten : ∀ t, (st.phase t = .idle ∨ ∃ ty, st.phase t = .waiting ty) → lw t = none

namespace RowTrace

omit [Inhabited V] in
theorem init : RowTrace fin (fun _ => none) v₀ (RowSt.init v₀) :=
  ⟨trivial, fun _ _ h => (by cases h), fun _ _ => rfl⟩

omit [Inhabited V] in
theorem mono (ht : RowTrace fin lw v₀ st) (hfin : ∀ t, fin t → fin' t) : RowTrace fin' lw v₀ st :=
  ⟨ht.produced.mono fun t h => ⟨hfin t h, rfl⟩, ht.held, ht.unwritten⟩

theorem step (ht : RowTrace fin lw v₀ st) (hi : RowInv g v₀ st) {a : RowEv V} (h : st.step g a = some st')
    (hmod : ∀ t v, a ≠ .modify t v) (hfin : ∀ t m, a = .write t m → fin t) : RowTrace fin lw v₀ st' := by
  refine ⟨?_, fun t r hr => ?_, fun t hq => ht.unwritten t (hi.step_unserved h hq)⟩
  · cases RowStep.of_step h with
    | write hg hv hc hu =>
      refine ⟨hfin _ _ rfl, ?_, ht.produced⟩
      rw [← hi.page_eq]
      exact Option.some.inj (hv.symm.trans (ht.held _ _ hg))
    | _ => exact ht.produced
  · rcases hi.step_granted h hr with ⟨hg, hpage, ⟨v, rfl, -⟩ | ⟨-, hmem⟩⟩ | ⟨hq, hmem, -⟩
    · exact absurd rfl (hmod t v)
    · rw [hmem, hpage]; exact ht.held t r hg
    · rw [hmem, ht.unwritten t (hq.imp_right fun h' => ⟨_, h'⟩)]; rfl

theorem modify (ht : RowTrace fin lw v₀ st) (hi : RowInv g v₀ st) {ts : Nat} {v : V}
    (h : st.step g (.modify ts v) = some st') (hfin : ¬ fin ts) (hlw : ∀ t, lw' t = if t = ts then some v else lw t) :
    RowTrace fin lw' v₀ st' := by
  have hne : ∀ {t}, t ≠ ts → lw' t = lw t := fun h' => by rw [hlw, if_neg h']
  refine ⟨?_, fun t r hr => ?_, fun t hq => ?_⟩
  · cases RowStep.of_step h with
    | modify hg =>
      refine ht.produced.mono fun t hf => ⟨hf, hne ?_⟩
      rintro rfl; exact hfin hf
  · rcases hi.step_granted h hr with ⟨hg, hpage, ⟨v', heq, hmem⟩ | ⟨hno, hmem⟩⟩ | ⟨hq, hmem, hno⟩
    · cases heq
      rw [hmem, hlw, if_pos rfl]; rfl
    · rw [hmem, hpage, hne (by rintro rfl; exact hno v rfl)]
      exact ht.held t r hg
    · rw [hmem, hne (by rintro rfl; exact hno v rfl), ht.unwritten t (hq.imp_right fun h' => ⟨_, h'⟩)]; rfl
  · cases RowStep.of_step h with
    | @modify _ _ r hg =>
      rw [hne, ht.unwritten t hq]
      rintro rfl
      rw [show st.phase t = .granted r from hg] at hq
      simp at hq

end RowTrace

end Produced

end Row

/-! ### The history of a run -/

section Trace

variable {V : Type} {g : Nat} {v₀ : Nat → V} {sys sys' : TxnSys V} {past : List (TxnEv V)}

/-- The bytes `t` last wrote into the row `k`; the history has the newest event first. -/
def lastWrite (t k : Nat) : List (TxnEv V) → Option V
  | [] => none
  | .modify t' k' v :: past => if t = t' ∧ k = k' then some v else lastWrite t k past
  | _ :: past => lastWrite t k past

/-- The transaction has called `finish(RCOK)`. -/
def FinishedOk (past : List (TxnEv V)) (t : Nat) : Prop := .finish t ∈ past

/-- The transaction ends, or has ended, with `finish(Abort)`. -/
def TxnSys.Aborted (sys : TxnSys V) (past : List (TxnEv V)) (t : Nat) : Prop :=
  ((sys.txns t).status = .cleaning .abort ∨ (sys.txns t).status = .done) ∧ ¬ FinishedOk past t

/-- The row `k` holds nothing but what the `W_REQ`s of transactions that finished with RCOK produced. -/
structure CommittedOnly (past : List (TxnEv V)) (k : Nat) (v₀ : V) (st : RowSt V) : Prop where
  produced : Produced (FinishedOk past) (lastWrite · k past) v₀ st.commits
  origin : ∀ c ∈ st.commits, FinishedOk past c.1 ∧
    (c.2 = v₀ ∨ ∃ t, FinishedOk past t ∧ lastWrite t k past = some c.2)
  page : st.row.page = lastValue v₀ st.commits
  latest : ∀ r, st.row.latestRow = some r → st.row.mem r = some (lastValue v₀ st.commits)
  version : ∀ e ∈ st.row.writeHistory, e.valid = true → ∀ r, e.row = some r →
    ∃ v, (e.ts, v) ∈ st.commits ∧ st.row.mem r = some v

/-- How far a transaction is with the row `k` it asked to write; `fin` says that it has finished with RCOK and
`done` that it has committed the row. -/
def Asked (m : TxnMan) (k : Nat) (fin done : Prop) : Prop :=
  (m.status = .cleaning .abort ∨ m.status = .done) ∧ ¬ fin ∨ m.status = .waiting k .wr ∨
    (∃ a ∈ m.accesses, a.key = k ∧ a.type = .wr) ∨ fin ∧ done

structure TraceInv (g : Nat) (v₀ : Nat → V) (sys : TxnSys V) (past : List (TxnEv V)) : Prop where
  inv : TxnInv g v₀ sys
  row : ∀ k, RowTrace (FinishedOk past) (lastWrite · k past) (v₀ k) (sys.rows k)
  ended : ∀ t, FinishedOk past t → (sys.txns t).status = .cleaning .rcok ∨ (sys.txns t).status = .done
  rc : ∀ t rc, (sys.txns t).status = .cleaning rc →
    rc = .abort ∧ ¬ FinishedOk past t ∨ rc = .rcok ∧ FinishedOk past t
  asked : ∀ t k m, .getRow t k .wr m ∈ past →
    Asked (sys.txns t) k (FinishedOk past t) (∃ v, (t, v) ∈ (sys.rows k).commits)

theorem finishedOk_cons {e : TxnEv V} {t : Nat} : FinishedOk (e :: past) t ↔ e = .finish t ∨ FinishedOk past t := by
  unfold FinishedOk
  rw [List.mem_cons, eq_comm]

theorem finishedOk_cons_of_ne {e : TxnEv V} {t : Nat} (he : e ≠ .finish t) :
    FinishedOk (e :: past) t ↔ FinishedOk past t := by
  rw [finishedOk_cons, or_iff_right he]

theorem lastWrite_cons {e : TxnEv V} (he : ∀ t k v, e ≠ .modify t k v) (t k : Nat) :
    lastWrite t k (e :: past) = lastWrite t k past := by
  cases e with
  | modify t k v => exact absurd rfl (he t k v)
  | _ => rfl

/-- The transaction of an event. -/
def TxnEv.ts : TxnEv V → Nat
  | .start ts | .getRow ts _ _ _ | .resume ts | .modify ts _ _ | .finish ts | .cleanup ts _ => ts

namespace TraceInv

theorem init (v₀ : Nat → V) : TraceInv g v₀ (TxnSys.init v₀) [] :=
  ⟨.init v₀, fun _ => .init, nofun, nofun, nofun⟩

/-- A row that no write changes, after any event but a write. -/
theorem row_keep (hi : TraceInv g v₀ sys past) {e : TxnEv V} (he : ∀ t k v, e ≠ .modify t k v) (k : Nat) :
    RowTrace (FinishedOk (e :: past)) (lastWrite · k (e :: past)) (v₀ k) (sys.rows k) := by
  simp only [lastWrite_cons he]
  exact (hi.row k).mono fun t ht => finishedOk_cons.2 (.inr ht)

/-- The event `e` of the transaction `ts`: its own part is left to show. -/
theorem next (hi : TraceInv g v₀ sys past) {e : TxnEv V} {m : TxnMan} (ts : Nat) (hts : e.ts = ts)
    (hm : sys'.txns ts = m) (hother : ∀ t, t ≠ ts → sys'.txns t = sys.txns t) (hinv : TxnInv g v₀ sys')
    (hrow : ∀ k, RowTrace (FinishedOk (e :: past)) (lastWrite · k (e :: past)) (v₀ k) (sys'.rows k))
    (hcommits : ∀ k, ∀ c ∈ (sys.rows k).commits, c ∈ (sys'.rows k).commits)
    (hended : FinishedOk (e :: past) ts → m.status = .cleaning .rcok ∨ m.status = .done)
    (hrc : ∀ rc, m.status = .cleaning rc →
      rc = .abort ∧ ¬ FinishedOk (e :: past) ts ∨ rc = .rcok ∧ FinishedOk (e :: past) ts)
    (hasked : ∀ k minTs, .getRow ts k .wr minTs ∈ e :: past →
      Asked m k (FinishedOk (e :: past) ts) (∃ v, (ts, v) ∈ (sys'.rows k).commits)) :
    TraceInv g v₀ sys' (e :: past) := by
  have hfin : ∀ {t}, t ≠ ts → (FinishedOk (e :: past) t ↔ FinishedOk past t) := by
    intro t hne
    refine finishedOk_cons_of_ne ?_
    rintro rfl; exact hne hts
  refine ⟨hinv, hrow, fun t => ?_, fun t rc => ?_, fun t k minTs hget => ?_⟩ <;> by_cases hne : t = ts
  · rw [hne, hm]; exact hended
  · rw [hfin hne, hother t hne]; exact hi.ended t
  · rw [hne, hm]; exact hrc rc
  · rw [hfin hne, hother t hne]; exact hi.rc t rc
  · rw [hne] at hget ⊢; rw [hm]; exact hasked k minTs hget
  · have hget : .getRow t k .wr minTs ∈ past := (List.mem_cons.1 hget).resolve_left (by rintro rfl; exact hne hts)
    unfold Asked
    rw [hother t hne, hfin hne]
    rcases hi.asked t k minTs hget with h | h | h | ⟨h, v, hv⟩
    · exact .inl h
    · exact .inr (.inl h)
    · exact .inr (.inr (.inl h))
    · exact .inr (.inr (.inr ⟨h, v, hcommits k _ hv⟩))

theorem not_finishedOk (hi : TraceInv g v₀ sys past) {ts : Nat} (hc : (sys.txns ts).status ≠ .cleaning .rcok)
    (hd : (sys.txns ts).status ≠ .done) : ¬ FinishedOk past ts := by
  intro h
  rcases hi.ended ts h with h | h
  · exact hc h
  · exact hd h

/-- A transaction that runs has not finished, and holds the rows it asked to write. -/
theorem running (hi : TraceInv g v₀ sys past) {ts : Nat} (hrun : (sys.txns ts).status = .running) :
    ¬ FinishedOk past ts ∧
      ∀ k m, .getRow ts k .wr m ∈ past → ∃ a ∈ (sys.txns ts).accesses, a.key = k ∧ a.type = .wr := by
  have hfin : ¬ FinishedOk past ts := hi.not_finishedOk (by simp [hrun]) (by simp [hrun])
  refine ⟨hfin, fun k m hm => ?_⟩
  rcases hi.asked ts k m hm with ⟨h | h, -⟩ | h | h | ⟨h, -⟩
  · rw [hrun] at h; cases h
  · rw [hrun] at h; cases h
  · rw [hrun] at h; cases h
  · exact h
  · exact absurd h hfin

theorem resume (hi : TraceInv g v₀ sys past) {ts key : Nat} {type : AccessT} {r : RowId}
    (hst : (sys.txns ts).status = .waiting key type)
    (hr : (sys.rows key).phase ts = .reading r ∨ (sys.rows key).phase ts = .granted r) :
    TraceInv g v₀ (sys.setTxn ts ⟨.running, ⟨key, type, r⟩ :: (sys.txns ts).accesses⟩) (.resume ts :: past) := by
  have hnf : ¬ FinishedOk past ts := hi.not_finishedOk (by simp [hst]) (by simp [hst])
  have hfin : ¬ FinishedOk (.resume ts :: past) ts := fun h => hnf ((finishedOk_cons_of_ne (by simp)).1 h)
  refine hi.next ts rfl (Function.update_self ..) (fun t hne => Function.update_of_ne hne ..) (hi.inv.resume hst hr)
    (hi.row_keep nofun) (fun _ _ h => h) (fun h => absurd h hfin) nofun (fun k m hm => ?_)
  · have hm : .getRow ts k .wr m ∈ past := (List.mem_cons.1 hm).resolve_left nofun
    refine .inr (.inr (.inl ?_))
    rcases hi.asked ts k m hm with ⟨h | h, -⟩ | h | ⟨a, ha, hak⟩ | ⟨h, -⟩
    · rw [hst] at h; cases h
    · rw [hst] at h; cases h
    · rw [hst] at h; cases h
      exact ⟨_, List.mem_cons_self, rfl, rfl⟩
    · exact ⟨a, List.mem_cons_of_mem _ ha, hak⟩
    · exact absurd h hnf

theorem start (hi : TraceInv g v₀ sys past) {ts : Nat} (hf : (sys.txns ts).status = .fresh)
    (hinv : TxnInv g v₀ (sys.setTxn ts ⟨.running, []⟩)) :
    TraceInv g v₀ (sys.setTxn ts ⟨.running, []⟩) (.start ts :: past) := by
  have hnf : ¬ FinishedOk past ts := hi.not_finishedOk (by simp [hf]) (by simp [hf])
  refine hi.next ts rfl (Function.update_self ..) (fun t hne => Function.update_of_ne hne ..) hinv (hi.row_keep nofun)
    (fun _ _ h => h) (fun h' => absurd ((finishedOk_cons_of_ne (by simp)).1 h') hnf) nofun (fun k m hm => ?_)
  rcases hi.asked ts k m ((List.mem_cons.1 hm).resolve_left nofun) with ⟨h' | h', -⟩ | h' | ⟨a, ha, -⟩ | ⟨h', -⟩
  · rw [hf] at h'; cases h'
  · rw [hf] at h'; cases h'
  · rw [hf] at h'; cases h'
  · rw [(hi.inv.ok ts).empty (.inl hf)] at ha; cases ha
  · exact absurd h' hnf

/-- `cleanup` passes over a row that was read. -/
theorem drop (hi : TraceInv g v₀ sys past) {ts minTs : Nat} {rc : RC} {a : Access} {as : List Access}
    (hst : (sys.txns ts).status = .cleaning rc) (hacc : (sys.txns ts).accesses = a :: as)
    (hxp : a.type.returned rc ≠ .xp) (hwr : a.type.returned rc ≠ .wr)
    (hinv : TxnInv g v₀ (sys.setTxn ts ⟨.cleaning rc, as⟩)) :
    TraceInv g v₀ (sys.setTxn ts ⟨.cleaning rc, as⟩) (.cleanup ts minTs :: past) := by
  have hsame : FinishedOk (.cleanup ts minTs :: past) ts ↔ FinishedOk past ts := finishedOk_cons_of_ne nofun
  have hrc := hi.rc ts rc hst
  refine hi.next ts rfl (Function.update_self ..) (fun t hne => Function.update_of_ne hne ..) hinv (hi.row_keep nofun)
    (fun _ _ h => h) (fun h' => ?_) (fun rc' hrc' => ?_) (fun k m hm => ?_)
  · exact .inl (by rw [(hrc.resolve_left fun h'' => h''.2 (hsame.1 h')).1])
  · cases hrc'
    exact hrc.imp (fun h' => ⟨h'.1, fun h'' => h'.2 (hsame.1 h'')⟩) fun h' => ⟨h'.1, hsame.2 h'.2⟩
  · unfold Asked
    rw [hsame]
    rcases hi.asked ts k m ((List.mem_cons.1 hm).resolve_left nofun) with ⟨h' | h', hn⟩ | h' | ⟨b, hb, hbk, hbw⟩ | h'
    · rw [hst] at h'; cases h'
      exact .inl ⟨.inl rfl, hn⟩
    · rw [hst] at h'; cases h'
    · rw [hst] at h'; cases h'
    · rw [hacc] at hb
      rcases List.mem_cons.1 hb with rfl | hb
      · -- a row of a writer is not passed over
        by_cases h' : rc = .abort
        · exact absurd (by rw [AccessT.returned, if_pos ⟨hbw, h'⟩]) hxp
        · exact absurd (by rw [AccessT.returned, if_neg fun h'' => h' h''.2, hbw]) hwr
      · exact .inr (.inr (.inl ⟨b, hb, hbk, hbw⟩))
    · exact .inr (.inr (.inr h'))

variable [Inhabited V]

/-- A call on the row `k` by an event that is not a write. -/
theorem row_step (hi : TraceInv g v₀ sys past) {e : TxnEv V} (he : ∀ t k v, e ≠ .modify t k v) {k : Nat} {a : RowEv V}
    {row : RowSt V} (hs : (sys.rows k).step g a = some row) (hmod : ∀ t v, a ≠ .modify t v)
    (hfin : ∀ t m, a = .write t m → FinishedOk past t) (k' : Nat) :
    RowTrace (FinishedOk (e :: past)) (lastWrite · k' (e :: past)) (v₀ k') (Function.update sys.rows k row k') := by
  by_cases hk : k' = k
  · rw [hk, Function.update_self]
    simp only [lastWrite_cons he]
    exact ((hi.row k).step (hi.inv.row k) hs hmod hfin).mono fun t ht => finishedOk_cons.2 (.inr ht)
  · rw [Function.update_of_ne hk]
    exact hi.row_keep he k'

omit [Inhabited V] in
theorem commits_update {k : Nat} {row : RowSt V} (h : ∀ c ∈ (sys.rows k).commits, c ∈ row.commits) (k' : Nat) :
    ∀ c ∈ (sys.rows k').commits, c ∈ (Function.update sys.rows k row k').commits := by
  by_cases hk : k' = k
  · rw [hk, Function.update_self]; exact h
  · rw [Function.update_of_ne hk]; exact fun _ h => h

theorem getRow (hi : TraceInv g v₀ sys past) {ts key minTs : Nat} {type : AccessT} {row : RowSt V}
    (hrun : (sys.txns ts).status = .running) (hty : type = .rd ∨ type = .wr)
    (hs : (sys.rows key).step g (type.event ts minTs) = some row) :
    TraceInv g v₀ ((sys.setRow key row).setTxn ts ((sys.txns ts).answered key type (row.phase ts)))
      (.getRow ts key type minTs :: past) := by
  obtain ⟨hnf, hacc⟩ := hi.running hrun
  have hfin : ¬ FinishedOk (.getRow ts key type minTs :: past) ts := fun h =>
    hnf ((finishedOk_cons_of_ne (by simp)).1 h)
  refine hi.next ts rfl (Function.update_self ..) (fun t hne => Function.update_of_ne hne ..)
    (hi.inv.getRow hrun hty hs) (hi.row_step (by simp) hs ?_ ?_) (commits_update (step_commits hs))
    (fun h => absurd h hfin) (fun rc hrc => .inl ⟨?_, hfin⟩) (fun k m hm => ?_)
  · rcases hty with rfl | rfl <;> simp [AccessT.event]
  · rcases hty with rfl | rfl <;> simp [AccessT.event]
  · unfold TxnMan.answered at hrc
    split at hrc <;> simp at hrc <;> exact hrc.symm
  · rcases List.mem_cons.1 hm with hm | hm
    · -- the row asked for now
      cases hm
      rcases step_event hty hs with h | ⟨h, -⟩ | ⟨-, h | ⟨r, h⟩⟩
      · exact .inl ⟨.inl (by rw [h]; rfl), hfin⟩
      · cases h
      · exact .inr (.inl (by rw [h]; rfl))
      · exact .inr (.inr (.inl ⟨⟨key, .wr, r⟩, by rw [h]; exact List.mem_cons_self, rfl, rfl⟩))
    · obtain ⟨a, ha, hak⟩ := hacc k m hm
      refine .inr (.inr (.inl ⟨a, ?_, hak⟩))
      unfold TxnMan.answered
      split <;> first | exact List.mem_cons_of_mem _ ha | exact ha

/-- The row of the last access is returned, by `W_REQ` or `XP_REQ`. -/
theorem returned (hi : TraceInv g v₀ sys past) {ts minTs : Nat} {rc : RC} {a : Access} {as : List Access}
    {ev : RowEv V} {row : RowSt V} (hst : (sys.txns ts).status = .cleaning rc) (hacc : (sys.txns ts).accesses = a :: as)
    (hs : (sys.rows a.key).step g ev = some row) (hev : ev = .write ts minTs ∨ ev = .undo ts minTs)
    (hret : ev = .write ts minTs → rc = .rcok) (hwr : a.type = .wr → rc = .rcok → ∃ v, (ts, v) ∈ row.commits) :
    TraceInv g v₀ ((sys.setRow a.key row).setTxn ts ⟨.cleaning rc, as⟩) (.cleanup ts minTs :: past) := by
  have hfin : FinishedOk (.cleanup ts minTs :: past) ts ↔ FinishedOk past ts := finishedOk_cons_of_ne nofun
  have hrc := hi.rc ts rc hst
  have hinv : TxnInv g v₀ ((sys.setRow a.key row).setTxn ts ⟨.cleaning rc, as⟩) := by
    rcases hev with rfl | rfl
    · exact hi.inv.call hs (hi.inv.returned hst hacc (.inl hs))
    · exact hi.inv.call hs (hi.inv.returned hst hacc (.inr hs))
  refine hi.next ts rfl (Function.update_self ..) (fun t hne => Function.update_of_ne hne ..) hinv
    (hi.row_step (by simp) hs ?_ ?_) (commits_update (step_commits hs)) (fun h => ?_)
    (fun rc' hrc' => ?_) (fun k m hm => ?_)
  · rcases hev with rfl | rfl <;> simp
  · rintro t m rfl
    obtain ⟨rfl, rfl⟩ : t = ts ∧ m = minTs := by simpa using hev
    exact (hrc.resolve_left fun h => by rw [hret rfl] at h; cases h.1).2
  · rcases hrc with ⟨-, h'⟩ | ⟨rfl, -⟩
    · exact absurd (hfin.1 h) h'
    · exact .inl rfl
  · cases hrc'
    rw [hfin]; exact hrc
  · have hm : .getRow ts k .wr m ∈ past := (List.mem_cons.1 hm).resolve_left nofun
    unfold Asked
    rw [hfin]
    rcases hrc with ⟨rfl, hnf⟩ | ⟨rfl, hf⟩
    · exact .inl ⟨.inl rfl, hnf⟩
    rcases hi.asked ts k m hm with ⟨-, h⟩ | h | ⟨b, hb, hbk, hbw⟩ | ⟨-, v, hv⟩
    · exact absurd hf h
    · rw [hst] at h; cases h
    · rw [hacc] at hb
      rcases List.mem_cons.1 hb with rfl | hb
      · refine .inr (.inr (.inr ⟨hf, ?_⟩))
        rw [← hbk, show TxnSys.rows _ b.key = row from Function.update_self ..]
        exact hwr hbw rfl
      · exact .inr (.inr (.inl ⟨b, hb, hbk, hbw⟩))
    · exact .inr (.inr (.inr ⟨hf, v, commits_update (step_commits hs) k _ hv⟩))

theorem modify (hi : TraceInv g v₀ sys past) {ts key : Nat} {v : V} {row : RowSt V}
    (hrun : (sys.txns ts).status = .running) (hs : (sys.rows key).step g (.modify ts v) = some row)
    (hinv : TxnInv g v₀ (sys.setRow key row)) : TraceInv g v₀ (sys.setRow key row) (.modify ts key v :: past) := by
  obtain ⟨hnf, hacc⟩ := hi.running hrun
  have hfin : ¬ FinishedOk (.modify ts key v :: past) ts := fun h' => hnf ((finishedOk_cons_of_ne (by simp)).1 h')
  refine hi.next ts rfl rfl (fun _ _ => rfl) hinv (fun k => ?_) (commits_update (step_commits hs))
    (fun h' => absurd h' hfin) (fun rc hrc => ?_) (fun k m hm => .inr (.inr (.inl (hacc k m ?_))))
  · have hmono : ∀ t, FinishedOk past t → FinishedOk (.modify ts key v :: past) t := fun t ht =>
      finishedOk_cons.2 (.inr ht)
    show RowTrace _ _ _ (Function.update sys.rows key row k)
    by_cases hk : k = key
    · rw [hk, Function.update_self]
      refine ((hi.row key).modify (hi.inv.row key) hs hnf fun t => ?_).mono hmono
      simp [lastWrite]
    · rw [Function.update_of_ne hk]
      simp only [lastWrite, hk, and_false, if_false]
      exact (hi.row k).mono hmono
  · cases hrun.symm.trans hrc
  · exact (List.mem_cons.1 hm).resolve_left nofun

theorem step (hi : TraceInv g v₀ sys past) {e : TxnEv V} (h : sys.step g e = some sys') :
    TraceInv g v₀ sys' (e :: past) := by
  have hinv := hi.inv.step h
  cases TxnStep.of_step h with
  | start hf => exact hi.start hf hinv
  | getRow hrun hnew hty hs => exact hi.getRow hrun hty hs
  | resume hst hr => exact hi.resume hst hr
  | modify hrun hs => exact hi.modify hrun hs hinv
  | @finish ts hrun =>
    obtain ⟨-, hacc⟩ := hi.running hrun
    have hfin : FinishedOk (.finish ts :: past) ts := finishedOk_cons.2 (.inl rfl)
    refine hi.next ts rfl (Function.update_self ..) (fun t hne => Function.update_of_ne hne ..) hinv (hi.row_keep nofun)
      (fun _ _ h => h) (fun _ => .inl rfl) (fun rc hrc => ?_) (fun k m hm => .inr (.inr (.inl (hacc k m ?_))))
    · cases hrc
      exact .inr ⟨rfl, hfin⟩
    · exact (List.mem_cons.1 hm).resolve_left nofun
  | @cleaned ts minTs rc hst hacc =>
    refine hi.next ts rfl (Function.update_self ..) (fun t hne => Function.update_of_ne hne ..) hinv (hi.row_keep nofun)
      (fun _ _ h => h) (fun _ => .inr rfl) nofun (fun k m hm => ?_)
    rcases hi.asked ts k m ((List.mem_cons.1 hm).resolve_left nofun) with ⟨-, h'⟩ | h' | ⟨a, ha, -⟩ | ⟨h', hv⟩
    · exact .inl ⟨.inr rfl, fun h'' => h' ((finishedOk_cons_of_ne (by simp)).1 h'')⟩
    · rw [hst] at h'; cases h'
    · rw [hacc] at ha; cases ha
    · exact .inr (.inr (.inr ⟨finishedOk_cons.2 (.inr h'), hv⟩))
  | @undo ts minTs rc a as row hst hacc hret hs =>
    refine hi.returned hst hacc hs (.inr rfl) nofun fun hwr hrc => ?_
    rw [AccessT.returned, if_neg (by rw [hrc]; simp), hwr] at hret
    cases hret
  | @write ts minTs rc a as row hst hacc hret hs =>
    refine hi.returned hst hacc hs (.inl rfl) (fun _ => ?_) fun _ _ => ?_
    · rcases hi.rc ts rc hst with ⟨rfl, -⟩ | ⟨h', -⟩
      · unfold AccessT.returned at hret
        split at hret
        · cases hret
        · rename_i hne
          exact absurd ⟨hret, rfl⟩ hne
      · exact h'
    · cases RowStep.of_step hs with
      | write => exact ⟨_, List.mem_cons_self⟩
  | drop hst hacc hxp hwr => exact hi.drop hst hacc hxp hwr hinv

end TraceInv

theorem TraceInv.committedOnly (hi : TraceInv g v₀ sys past) (k : Nat) : CommittedOnly past k (v₀ k) (sys.rows k) := by
  have hd := (hi.inv.row k).core.data
  refine ⟨(hi.row k).produced, (hi.row k).produced.origin.2, hd.page, fun r hr => ?_, hd.version⟩
  rw [hd.latest r hr, hd.page]; rfl

variable [Inhabited V]

theorem TraceInv.reach (h : (txnLts g v₀).traced.Reach Lts.Any (sys, past)) : TraceInv g v₀ sys past :=
  Lts.traced_inv (P := TraceInv g v₀) (fun _ h0 => by rw [h0]; exact .init v₀) (fun _ _ _ _ hi hs => hi.step hs) h

/-- In every run the rows, versions and pages are those of the transactions that finished with RCOK, each of
which has committed every row it asked to write. A transaction that aborts, now or later, is not among them. -/
theorem aborted_leave_no_trace (gThreadCnt : Nat) (v₀ : Nat → V)
    (h : (txnLts gThreadCnt v₀).traced.Reach Lts.Any (sys, past)) :
    (∀ k, CommittedOnly past k (v₀ k) (sys.rows k)) ∧
    (∀ t k m, FinishedOk past t → (sys.txns t).status = .done → .getRow t k .wr m ∈ past →
      ∃ v, (t, v) ∈ (sys.rows k).commits) ∧
    ∀ as sys' past', (txnLts gThreadCnt v₀).traced.run (sys, past) as = some (sys', past') →
      ∀ t, sys'.Aborted past' t → ∀ k v, (t, v) ∉ (sys.rows k).commits := by
  have hi := TraceInv.reach h
  refine ⟨hi.committedOnly, fun t k m hf hd hm => ?_, fun as sys' past' hr t ht k v hv => ?_⟩
  · rcases hi.asked t k m hm with ⟨-, h'⟩ | h' | ⟨a, ha, -⟩ | ⟨-, h'⟩
    · exact absurd hf h'
    · rw [hd] at h'; cases h'
    · rw [(hi.inv.ok t).empty (.inr hd)] at ha; cases ha
    · exact h'
  · exact ht.2 (Lts.traced_run_past hr _ ((hi.committedOnly k).origin _ hv).1)

end Trace

/-- Transaction 2 writes row 7 and is then aborted on row 8, which transaction 3 has committed. -/
def abortRun : List (TxnEv Nat) :=
  [.start 2, .start 3, .getRow 2 7 .wr 0, .modify 2 7 5, .getRow 3 8 .wr 0, .modify 3 8 9, .finish 3, .cleanup 3 0,
    .cleanup 3 0, .getRow 2 8 .wr 0, .cleanup 2 0, .cleanup 2 0]

theorem no_trace_of_abort : ∃ sys : TxnSys Nat, (txnLts 1 fun _ => 0).run (.init fun _ => 0) abortRun = some sys ∧
    sys.Aborted abortRun.reverse 2 ∧ CommittedOnly abortRun.reverse 7 0 (sys.rows 7) ∧
    (∀ v, (2, v) ∉ (sys.rows 7).commits) ∧ ∃ v, (3, v) ∈ (sys.rows 8).commits := by
  have hrun : (((txnLts 1 fun _ => (0 : Nat)).run (.init fun _ => 0) abortRun).any fun sys =>
      decide ((sys.txns 2).status = .done ∧ (sys.txns 3).status = .done)) = true := by decide +kernel
  simp only [Option.any_eq_true, decide_eq_true_eq] at hrun
  obtain ⟨sys, hsys, h2, h3⟩ := hrun
  obtain ⟨honly, hdone, hnone⟩ := aborted_leave_no_trace 1 (fun _ => 0) (Lts.traced_reach rfl hsys)
  have hab : sys.Aborted abortRun.reverse 2 := ⟨.inr h2, by simp [FinishedOk, abortRun]⟩
  exact ⟨sys, hsys, hab, honly 7, hnone [] sys _ rfl 2 hab 7,
    hdone 3 8 0 (by simp [FinishedOk, abortRun]) h3 (by simp [abortRun])⟩

end Dbx1000
