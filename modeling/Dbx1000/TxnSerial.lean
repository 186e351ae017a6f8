import Mathlib.Data.List.Dedup
import Mathlib.Data.List.Sort
import Dbx1000.Lib.Serial
import Dbx1000.RowVersions
import Dbx1000.TxnTrace

/-!
# Transactions over many rows are serializable in the order of their timestamps

A run of transactions with what each of them was given: the bytes of a row at the moment it was handed out,
to be read or as the base of a write. The transactions that have called `finish` with RCOK, executed one after
the other in the order of their timestamps, find in the database what they were given and leave there what they
have committed or are about to commit (`mvcc_serializable`). `cleanup` commits row by row; a transaction in the
middle of it is already in the serial order, since a younger one has to wait for the rows it still holds.

Searching reads are as in `ReadOk`.
-/

namespace Dbx1000

open RowMvcc

/-! ### One row -/

section Row

variable {V : Type} {g : Nat} {v₀ : V} {st st' : RowSt V} {giv : Nat → Option V}

/-- The bytes of the row that `t` holds, for reading or for writing. -/
def RowSt.handed (st : RowSt V) (t : Nat) : Option V :=
  match st.phase t with
  | .reading r | .granted r => st.row.mem r
  | _ => none

theorem handed_of_reading {t : Nat} {r : RowId} (h : st.phase t = .reading r) : st.handed t = st.row.mem r := by
  simp only [RowSt.handed, h]

theorem handed_of_granted {t : Nat} {r : RowId} (h : st.phase t = .granted r) : st.handed t = st.row.mem r := by
  simp only [RowSt.handed, h]

theorem handed_of_open {t : Nat} (h : st.phase t = .idle ∨ ∃ ty, st.phase t = .waiting ty) : st.handed t = none := by
  rcases h with h | ⟨ty, h⟩ <;> simp only [RowSt.handed, h]

/-- `t` has read the row, or holds its prewrite, or has committed it. -/
def RowSt.Has (st : RowSt V) (t : Nat) : Prop :=
  (∃ v, (t, v) ∈ st.served) ∨ (∃ r, st.phase t = .granted r) ∨ ∃ v, (t, v) ∈ st.commits

theorem RowInv.has_of_phase (hi : RowInv g v₀ st) {t : Nat} {r : RowId}
    (h : st.phase t = .reading r ∨ st.phase t = .granted r) : st.Has t :=
  h.elim (fun h => .inl (hi.recorded t r h)) fun h => .inr (.inl ⟨r, h⟩)

/-- A prewrite is above everything that another transaction has of the row. -/
theorem RowInv.has_lt_granted (hi : RowInv g v₀ st) {t t' : Nat} {r : RowId} (hh : st.Has t)
    (hg : st.phase t' = .granted r) (hne : t ≠ t') : t < t' := by
  rcases hh with ⟨v, hv⟩ | ⟨r', hr'⟩ | ⟨v, hv⟩
  · exact hi.served_lt_granted hv hg
  · exact absurd (hi.granted_unique hr' hg) hne
  · obtain ⟨hw, rfl⟩ := hi.granted t' r hg
    exact Nat.lt_of_le_of_lt (hi.core.data.le_wts hv) (hi.core.hist.pre hw.1).2.1

/-- `giv t` is what `t` was given of the row. -/
structure GivenRow (v₀ : V) (st : RowSt V) (giv : Nat → Option V) : Prop where
  unserved : ∀ t, (st.phase t = .idle ∨ ∃ ty, st.phase t = .waiting ty) → giv t = none
  granted : ∀ t r, st.phase t = .granted r → giv t = some st.row.page
  served : ∀ p ∈ st.served, giv p.1 = p.2
  committed : ∀ c ∈ st.commits, ∃ b, giv c.1 = some b ∧ VersionBelow v₀ st.commits c.1 b

namespace GivenRow

theorem init : GivenRow v₀ (RowSt.init v₀) fun _ => none :=
  ⟨fun _ _ => rfl, nofun, nofun, nofun⟩

/-- What a transaction was given of the row is the version below it. -/
theorem right (hg : GivenRow v₀ st giv) (hi : RowInv g v₀ st) (hr : ServedRight v₀ st) {t : Nat} (hh : st.Has t) :
    ∃ v, giv t = some v ∧ VersionBelow v₀ st.commits t v := by
  rcases hh with ⟨v, hv⟩ | ⟨r, h⟩ | ⟨v, hv⟩
  · obtain ⟨w, rfl, hb⟩ := hr _ hv
    exact ⟨w, hg.served _ hv, hb⟩
  · obtain ⟨hw, rfl⟩ := hi.granted t r h
    exact ⟨_, hg.granted _ r h, hi.core.data.versionBelow_page (hi.core.hist.pre hw.1).2.1⟩
  · exact hg.committed _ hv

/-- Who holds the row has been given it before. -/
theorem keep (hg : GivenRow v₀ st giv) (hi : RowInv g v₀ st) (hr : ServedRight v₀ st) :
    (fun t => (giv t).or (st.handed t)) = giv := by
  funext t
  cases hph : st.phase t with
  | reading r =>
    obtain ⟨v, hv, -⟩ := hg.right hi hr (hi.has_of_phase (.inl hph))
    rw [hv]; rfl
  | granted r => rw [hg.granted t r hph]; rfl
  | idle | waiting | finished => simp only [RowSt.handed, hph, Option.or_none]

end GivenRow

variable [Inhabited V]

theorem step_commits_cases {a : RowEv V} (h : st.step g a = some st') :
    ∀ c ∈ st'.commits, c ∈ st.commits ∨ c.1 = a.ts := by
  intro c hc
  cases RowStep.of_step h with
  | write hg hv hcm hu => exact (List.mem_cons.1 hc).symm.imp_right fun h' => by rw [h']; rfl
  | _ => exact .inl hc

theorem step_served_mono {a : RowEv V} (h : st.step g a = some st') : ∀ p ∈ st.served, p ∈ st'.served := by
  intro p hp
  cases RowStep.of_step h with
  | readLatest | readOld => exact List.mem_cons_of_mem _ hp
  | write | undo => exact List.mem_append_right _ hp
  | _ => exact hp

/-- What a transaction has of a row it loses only by `XP_REQ`. -/
theorem RowInv.has_step (hi : RowInv g v₀ st) {a : RowEv V} (h : st.step g a = some st') {t : Nat} (hh : st.Has t)
    (hno : ∀ m, a ≠ .undo t m) : st'.Has t := by
  rcases hh with ⟨v, hv⟩ | ⟨r, hr⟩ | ⟨v, hv⟩
  · exact .inl ⟨v, step_served_mono h _ hv⟩
  · by_cases ht : t = a.ts
    · rw [ht] at hr hno ⊢
      cases RowStep.of_step h with
      | readAbort hf | readWait hf | readLatest hf | readOld hf | preAbort hf | preWait hf | preGrant hf =>
        exact absurd (hf.2.2.symm.trans hr) Phase.noConfusion
      | modify hg => exact .inr (.inl ⟨r, hr⟩)
      | write => exact .inr (.inr ⟨_, List.mem_cons_self⟩)
      | undo => exact absurd rfl (hno _)
      | finish hg => exact absurd (hg.symm.trans hr) Phase.noConfusion
    · rcases step_moved hi h t ht with h' | ⟨h', -⟩ | ⟨h', -⟩
      · exact .inr (.inl ⟨r, h'.trans hr⟩)
      · rw [hr] at h'; cases h'
      · rw [hr] at h'; cases h'
  · exact .inr (.inr ⟨v, Dbx1000.step_commits h _ hv⟩)

/-- A read that is served by a call is one of a transaction that has not been served before. -/
theorem RowInv.step_served (hi : RowInv g v₀ st) {a : RowEv V} (h : st.step g a = some st') :
    ∀ p ∈ st'.served, p ∈ st.served ∨ (st.phase p.1 = .idle ∨ ∃ ty, st.phase p.1 = .waiting ty) ∧
      ∃ r, st'.phase p.1 = .reading r ∧ p.2 = st'.row.mem r := by
  have hresumed : ∀ {ts m : Nat} {c : List (Nat × V)} {u row : RowMvcc V} {ws : List Wake},
      RowInv.Ended g v₀ st ts c u → u.updateBuffer g m ts = some (row, ws) → ∀ p ∈ readsOf row.mem ws ++ st.served,
      p ∈ st.served ∨ (st.phase p.1 = .idle ∨ ∃ ty, st.phase p.1 = .waiting ty) ∧
        ∃ r, wakeAll (Function.update st.phase ts .finished) ws p.1 = .reading r ∧ p.2 = row.mem r := by
    intro ts m c u row ws he hu p hp
    refine (List.mem_append.1 hp).symm.imp_right fun hp => ?_
    obtain ⟨w, hw, hwt, rfl⟩ := mem_readsOf hp
    have hwait := (he.released hi hu hw).1
    obtain ⟨x, hx, hxt, hph⟩ := wakeAll_of_mem (Function.update st.phase ts .finished) hw
    -- the request that is released last for the transaction is one of the same kind
    have hxw := (he.released hi hu hx).1
    rw [hxt, hwait] at hxw
    injection hxw with hty
    refine ⟨.inr ⟨_, hwait⟩, x.row, ?_, ?_⟩
    · rw [hph, Wake.phase, if_neg (by rw [← hty, hwt]; exact TsType.noConfusion)]
    · rw [(he.bytes hi hu).2 w hw, (he.bytes hi hu).2 x hx]
  intro p hp
  cases RowStep.of_step h with
  | readLatest hf hw hp' hs =>
    rcases List.mem_cons.1 hp with rfl | hp
    · exact .inr ⟨.inl hf.2.2, _, Function.update_self .., rfl⟩
    · exact .inl hp
  | readOld hf ho hw hs =>
    rcases List.mem_cons.1 hp with rfl | hp
    · exact .inr ⟨.inl hf.2.2, _, Function.update_self .., rfl⟩
    · exact .inl hp
  | write hg hv hc hu => exact hresumed (hi.ended_commit hg hv hc).1 hu p hp
  | undo hg hc hu => exact hresumed (hi.ended_release hg hc) hu p hp
  | readAbort | preAbort | readWait | preWait | preGrant | modify | finish => exact .inl hp

namespace GivenRow

theorem step (hg : GivenRow v₀ st giv) (hi : RowInv g v₀ st) (hr : ServedRight v₀ st) {a : RowEv V}
    (h : st.step g a = some st') : GivenRow v₀ st' fun t => (giv t).or (st'.handed t) := by
  refine ⟨fun t ht => ?_, fun t r ht => ?_, fun p hp => ?_, fun c hc => ?_⟩
  · rw [hg.unserved t (hi.step_unserved h ht), Option.none_or, handed_of_open ht]
  · rcases hi.step_granted h ht with ⟨hold, hpage, -⟩ | ⟨hopen, hmem, -⟩
    · rw [hg.granted t r hold, hpage]; rfl
    · rw [hg.unserved t (hopen.imp_right fun h' => ⟨_, h'⟩), Option.none_or, handed_of_granted ht, hmem]
  · rcases hi.step_served h p hp with hold | ⟨hopen, r, hph, hmem⟩
    · obtain ⟨v, hv, -⟩ := hr p hold
      rw [hg.served p hold, hv]; rfl
    · rw [hg.unserved _ hopen, Option.none_or, handed_of_reading hph, hmem]
  · have hkept : c ∈ st.commits → ∀ w, c.1 ≤ w.1 →
        ∃ b, (giv c.1).or (st'.handed c.1) = some b ∧ VersionBelow v₀ (w :: st.commits) c.1 b := by
      intro hc w hle
      obtain ⟨b, hb, hbelow⟩ := hg.committed c hc
      exact ⟨b, by rw [hb]; rfl, hbelow.cons hle⟩
    cases RowStep.of_step h with
    | @write ts m r v u row ws hgr hv hcm hu =>
      obtain ⟨hwr, hpt⟩ := hi.granted ts r hgr
      have hlt := (hi.core.hist.pre hwr.1).2.1
      rw [hpt] at hlt
      rcases List.mem_cons.1 hc with rfl | hc
      · refine ⟨st.row.page, ?_, (hi.core.data.versionBelow_page hlt).cons (Nat.le_refl _)⟩
        rw [hg.granted ts r hgr]; rfl
      · exact hkept hc (ts, v) (Nat.le_of_lt (Nat.lt_of_le_of_lt (hi.core.data.le_wts hc) hlt))
    | _ =>
      obtain ⟨b, hb, hbelow⟩ := hg.committed c hc
      exact ⟨b, by rw [hb]; rfl, hbelow⟩

end GivenRow

end Row

/-! ### What a transaction makes of a row -/

section Written

variable {V : Type} {g : Nat} {v₀ : V} {st : RowSt V} {h : List (Nat × V)} {t : Nat} {v : V}

/-- What `t` has committed into the row, or is about to commit. -/
def RowSt.written (st : RowSt V) (t : Nat) : Option V :=
  match st.commits.lookup t with
  | some v => some v
  | none =>
    match st.phase t with
    | .granted r => st.row.mem r
    | _ => none

/-- The versions of a row are found by their timestamps. -/
theorem lookup_commits (hs : h.Pairwise fun a b => b.1 < a.1) : h.lookup t = some v ↔ (t, v) ∈ h := by
  induction h with
  | nil => simp
  | cons c h ih =>
    obtain ⟨hc, hs⟩ := List.pairwise_cons.1 hs
    rw [List.lookup_cons, List.mem_cons]
    by_cases ht : t = c.1
    · rw [ht, beq_self_eq_true]
      have hno : (c.1, v) ∉ h := fun hm => Nat.lt_irrefl c.1 (hc (c.1, v) hm)
      simp only [Option.some.injEq, hno, or_false]
      exact ⟨fun hv => by rw [← hv], fun hv => by rw [← hv]⟩
    · rw [beq_false_of_ne ht]
      have hne : (t, v) ≠ c := fun he => ht (by rw [← he])
      simp only [hne, false_or]
      exact ih hs

theorem RowInv.written_eq_some (hi : RowInv g v₀ st) :
    st.written t = some v ↔ (t, v) ∈ st.commits ∨ ∃ r, st.phase t = .granted r ∧ st.row.mem r = some v := by
  have hcom : ∀ w, st.commits.lookup t = some w ↔ (t, w) ∈ st.commits := fun w => lookup_commits hi.core.data.sorted
  unfold RowSt.written
  split
  · rename_i w hw
    -- a transaction that has committed the row does not hold it
    have hng : ∀ r, st.phase t ≠ .granted r := by
      intro r hr
      obtain ⟨hwr, hpt⟩ := hi.granted t r hr
      have hlt := (hi.core.hist.pre hwr.1).2.1
      have hle := hi.core.data.le_wts ((hcom w).1 hw)
      rw [hpt] at hlt
      exact absurd hlt (Nat.not_lt.2 hle)
    rw [← hcom v, hw]
    exact ⟨.inl, fun h' => h'.resolve_right fun ⟨r, hr, _⟩ => hng r hr⟩
  · rename_i hnone
    have hno : (t, v) ∉ st.commits := fun hm => by rw [(hcom v).2 hm] at hnone; cases hnone
    rw [or_iff_right hno]
    split
    · rename_i r hr
      exact ⟨fun hv => ⟨r, hr, hv⟩, fun ⟨r', hr', hv⟩ => by rw [hr] at hr'; cases hr'; exact hv⟩
    · rename_i hng
      exact ⟨nofun, fun ⟨r, hr, _⟩ => absurd hr (hng r)⟩

/-- The newest version is the one below everything above the versions. -/
theorem VersionBelow.eq_lastValue (hb : VersionBelow v₀ h t v) (hs : h.Pairwise fun a b => b.1 < a.1)
    (hlt : ∀ c ∈ h, c.1 < t) : v = lastValue v₀ h := by
  cases h with
  | nil =>
    rcases hb with ⟨w, hw, -⟩ | ⟨-, hv⟩
    · cases hw
    · exact hv
  | cons c h =>
    have hc : c ∈ c :: h := List.mem_cons_self
    rcases hb with ⟨w, hw, -, hmax⟩ | ⟨hall, -⟩
    · rcases List.mem_cons.1 hw with hw | hw
      · rw [← hw]; rfl
      · have hlt' := (List.pairwise_cons.1 hs).1 _ hw
        exact absurd (hmax c hc (hlt c hc)) (Nat.not_le.2 hlt')
    · exact absurd (hlt c hc) (Nat.not_lt.2 (hall c hc))

/-- A version is what its transaction wrote last, or the version it was given if it wrote nothing. -/
theorem Produced.value {fin : Nat → Prop} {lw : Nat → Option V} {b : V} (hp : Produced fin lw v₀ h)
    (hs : h.Pairwise fun a b => b.1 < a.1) (hm : (t, v) ∈ h) (hb : VersionBelow v₀ h t b) : v = (lw t).getD b := by
  induction h with
  | nil => cases hm
  | cons c h ih =>
    obtain ⟨w, x⟩ := c
    obtain ⟨-, hx, hp⟩ := hp
    obtain ⟨hc, hsh⟩ := List.pairwise_cons.1 hs
    have htw : t ≤ w := by
      rcases List.mem_cons.1 hm with hm | hm
      · cases hm; exact Nat.le_refl _
      · exact Nat.le_of_lt (hc _ hm)
    -- the newest version is not below `t`
    have hb' : VersionBelow v₀ h t b := by
      rcases hb with ⟨u, hu, hut, hmax⟩ | ⟨hall, rfl⟩
      · refine .inl ⟨u, (List.mem_cons.1 hu).resolve_left fun he => ?_, hut, (List.forall_mem_cons.1 hmax).2⟩
        cases he
        exact absurd hut (Nat.not_lt.2 htw)
      · exact .inr ⟨(List.forall_mem_cons.1 hall).2, rfl⟩
    rcases List.mem_cons.1 hm with hm | hm
    · cases hm
      rw [hx, hb'.eq_lastValue hsh hc]
    · exact ih hp hsh hm hb'

end Written

/-! ### Runs with what the transactions were given -/

structure MvccRun (V : Type) where
  sys : TxnSys V
  past : List (TxnEv V)
  given : Nat → Nat → Option V

section Run

variable {V : Type}

/-- The keys that `t` has asked for. -/
def keysOf (t : Nat) (past : List (TxnEv V)) : List Nat :=
  (past.filterMap fun e => match e with
    | .getRow t' k _ _ => if t' = t then some k else none
    | _ => none).dedup

/-- The transactions that have called `finish` with RCOK, in the order of their timestamps. -/
def finishedTxns (past : List (TxnEv V)) : List Nat :=
  (past.filterMap fun e => match e with
    | .finish t => some t
    | _ => none).dedup.insertionSort (· ≤ ·)

namespace MvccRun

def init (v₀ : Nat → V) : MvccRun V := ⟨.init v₀, [], fun _ _ => none⟩

def entry (s : MvccRun V) (t : Nat) : Serial.Entry Nat Nat V where
  txn := t
  ts := t
  reads := Serial.valuesOf (fun k => s.given k t) (keysOf t s.past)
  writes := Serial.valuesOf (fun k => (s.sys.rows k).written t) (keysOf t s.past)

def log (s : MvccRun V) : List (Serial.Entry Nat Nat V) := (finishedTxns s.past).map s.entry

def step [Inhabited V] (g : Nat) (s : MvccRun V) (e : TxnEv V) : Option (MvccRun V) :=
  (s.sys.step g e).map fun sys =>
    { sys := sys, past := e :: s.past, given := fun k t => (s.given k t).or ((sys.rows k).handed t) }

end MvccRun

def mvccLts [Inhabited V] (gThreadCnt : Nat) (v₀ : Nat → V) : Lts (MvccRun V) (TxnEv V) where
  init s := s = .init v₀
  step := MvccRun.step gThreadCnt

/-- A read that has to search the history of its row finds its version there. -/
def MvccOk (s : MvccRun V) : TxnEv V → Prop
  | .getRow t k .rd _ => ReadOk (s.sys.rows k) (.read t)
  | _ => True

instance (s : MvccRun V) (e : TxnEv V) : Decidable (MvccOk s e) :=
  match e with
  | .getRow t k .rd _ => inferInstanceAs (Decidable (ReadOk (s.sys.rows k) (.read t)))
  | .getRow _ _ .wr _ | .getRow _ _ .xp _ | .getRow _ _ .scan _ | .start _ | .resume _ | .modify .. | .finish _
  | .cleanup .. => inferInstanceAs (Decidable True)

theorem mem_keysOf {t k : Nat} {past : List (TxnEv V)} :
    k ∈ keysOf t past ↔ ∃ type m, .getRow t k type m ∈ past := by
  rw [keysOf, List.mem_dedup, List.mem_filterMap]
  constructor
  · rintro ⟨e, he, h⟩
    split at h
    · rename_i t' k' type m
      split at h
      · rename_i ht
        cases h
        exact ⟨type, m, ht ▸ he⟩
      · cases h
    · cases h
  · rintro ⟨type, m, h⟩
    exact ⟨_, h, if_pos rfl⟩

theorem mem_finishedTxns {t : Nat} {past : List (TxnEv V)} : t ∈ finishedTxns past ↔ FinishedOk past t := by
  rw [finishedTxns, List.mem_insertionSort, List.mem_dedup, List.mem_filterMap]
  constructor
  · rintro ⟨e, he, h⟩
    split at h
    · cases h
      exact he
    · cases h
  · exact fun h => ⟨_, h, rfl⟩

theorem finishedTxns_sorted (past : List (TxnEv V)) : (finishedTxns past).Pairwise (· < ·) := by
  have hle := List.pairwise_insertionSort (α := Nat) (· ≤ ·) ((past.filterMap fun e => match e with
    | .finish t => some t
    | _ => none).dedup)
  have hnd : (finishedTxns past).Nodup := (List.perm_insertionSort _ _).nodup_iff.2 (List.nodup_dedup _)
  exact (hle.and hnd).imp fun h => Nat.lt_of_le_of_ne h.1 h.2

end Run

/-! ### The rows along a run -/

section Rows

variable {V : Type} [Inhabited V] {g : Nat} {v₀ : Nat → V} {sys sys' : TxnSys V} {e : TxnEv V}

/-- The call `a` that the event `e` makes on the row `k`: the transaction asks for the row, or it holds the
prewrite, which it releases when its cleanup says so. -/
def Calls (sys : TxnSys V) (e : TxnEv V) (k : Nat) (a : RowEv V) : Prop :=
  (∃ type m, (type = .rd ∨ type = .wr) ∧ a = type.event e.ts m ∧ e = .getRow e.ts k type m) ∨
    (∃ r, (sys.rows k).phase e.ts = .granted r) ∧ (∀ t, a ≠ .read t) ∧
      (∀ t m, a = .undo t m → ∃ rc, ∃ b ∈ (sys.txns t).accesses, (sys.txns t).status = .cleaning rc ∧
        b.type.returned rc = .xp) ∧
      ∀ t v, a = .modify t v → e = .modify t k v

/-- A step calls on at most one row. -/
theorem TxnStep.row_cases (h : TxnStep g sys e sys') (k : Nat) :
    sys'.rows k = sys.rows k ∨ ∃ a, (sys.rows k).step g a = some (sys'.rows k) ∧ a.ts = e.ts ∧ Calls sys e k a := by
  have hcall : ∀ {key : Nat} {a : RowEv V} {row : RowSt V}, (sys.rows key).step g a = some row →
      sys'.rows = Function.update sys.rows key row → a.ts = e.ts → Calls sys e key a →
      sys'.rows k = sys.rows k ∨
        ∃ a, (sys.rows k).step g a = some (sys'.rows k) ∧ a.ts = e.ts ∧ Calls sys e k a := by
    intro key a row hs hrows hts hcase
    rw [hrows]
    by_cases hk : k = key
    · rw [hk, Function.update_self]
      exact .inr ⟨a, hs, hts, hcase⟩
    · exact .inl (Function.update_of_ne hk ..)
  cases h with
  | start | resume | finish | cleaned | drop => exact .inl rfl
  | @getRow ts key minTs type row hrun hnew hty hs =>
    refine hcall hs rfl ?_ (.inl ⟨type, minTs, hty, rfl, rfl⟩)
    rcases hty with rfl | rfl <;> rfl
  | modify hrun hs =>
    refine hcall hs rfl rfl (.inr ⟨?_, nofun, nofun, fun t v heq => ?_⟩)
    · cases RowStep.of_step hs with
      | modify hg => exact ⟨_, hg⟩
    · cases heq
      rfl
  | @undo ts minTs rc b as row hst hacc hret hs =>
    refine hcall hs rfl rfl (.inr ⟨?_, nofun, fun t m heq => ?_, nofun⟩)
    · cases RowStep.of_step hs with
      | undo hg => exact ⟨_, hg⟩
    · cases heq
      exact ⟨rc, b, by rw [hacc]; exact List.mem_cons_self, hst, hret⟩
  | write hst hacc hret hs =>
    refine hcall hs rfl rfl (.inr ⟨?_, nofun, nofun, nofun⟩)
    cases RowStep.of_step hs with
    | write hg => exact ⟨_, hg⟩

theorem TxnStep.txns_of_ne (h : TxnStep g sys e sys') {t : Nat} (ht : t ≠ e.ts) : sys'.txns t = sys.txns t := by
  cases h with
  | modify => rfl
  | start | getRow | resume | finish | cleaned | undo | write | drop => exact Function.update_of_ne ht ..

/-- What a released transaction keeps holds for all of them if it holds for the one that makes the step. -/
theorem TxnStep.keeps {P : (Nat → RowSt V) → Nat → TxnMan → Prop} (h : TxnStep g sys e sys') (hi : TxnInv g v₀ sys)
    (hmoved : ∀ {rows : Nat → RowSt V} {t : Nat} {m : TxnMan} {k : Nat} {row : RowSt V}, P rows t m →
      Moved ((rows k).phase t) (row.phase t) → P (Function.update rows k row) t m)
    (hp : ∀ t, P sys.rows t (sys.txns t)) (hown : P sys'.rows e.ts (sys'.txns e.ts)) (t : Nat) :
    P sys'.rows t (sys'.txns t) := by
  by_cases ht : t = e.ts
  · rw [ht]; exact hown
  have hcall : ∀ {key : Nat} {a : RowEv V} {row : RowSt V}, (sys.rows key).step g a = some row → a.ts = e.ts →
      P (Function.update sys.rows key row) t (sys.txns t) := fun hs ha =>
    hmoved (hp t) (step_moved (hi.row _) hs t (by rw [ha]; exact ht))
  rw [h.txns_of_ne ht]
  cases h with
  | start | resume | finish | cleaned | drop => exact hp t
  | getRow hrun hnew hty hs =>
    refine hcall hs ?_
    rcases hty with rfl | rfl <;> rfl
  | modify hrun hs => exact hcall hs rfl
  | undo hst hacc hret hs | write hst hacc hret hs => exact hcall hs rfl

omit [Inhabited V] in
theorem MvccOk.readOk {s : MvccRun V} (hok : MvccOk s e) {k : Nat} {a : RowEv V} (ha : Calls s.sys e k a) :
    ReadOk (s.sys.rows k) a := by
  rcases ha with ⟨type, m, rfl | rfl, rfl, he⟩ | ⟨-, hno, -⟩
  · rw [he] at hok
    exact hok
  · trivial
  · cases a with
    | read t => exact absurd rfl (hno t)
    | prewrite | modify | write | undo | finish => trivial

/-- The transaction has asked for a row on which it is not idle, or which it has written. -/
def Called (past : List (TxnEv V)) (k : Nat) (st : RowSt V) : Prop :=
  ∀ t, st.phase t ≠ .idle ∨ (∃ v, (t, v) ∈ st.commits) → k ∈ keysOf t past

omit [Inhabited V] in
theorem keysOf_mono {past : List (TxnEv V)} {t k : Nat} (h : k ∈ keysOf t past) : k ∈ keysOf t (e :: past) := by
  obtain ⟨type, m, h⟩ := mem_keysOf.1 h
  exact mem_keysOf.2 ⟨type, m, List.mem_cons_of_mem _ h⟩

theorem Called.step {past : List (TxnEv V)} (hc : ∀ k, Called past k (sys.rows k)) (hi : TxnInv g v₀ sys)
    (h : TxnStep g sys e sys') (k : Nat) : Called (e :: past) k (sys'.rows k) := by
  rcases h.row_cases k with hrow | ⟨a, hs, hts, hcase⟩
  · rw [hrow]
    exact fun t ht => keysOf_mono (hc k t ht)
  · -- who called had asked for the row, or asks for it now
    have hcaller : k ∈ keysOf e.ts (e :: past) := by
      rcases hcase with ⟨type, m, -, -, he⟩ | ⟨⟨r, hr⟩, -⟩
      · exact mem_keysOf.2 ⟨type, m, by rw [← he]; exact List.mem_cons_self⟩
      · exact keysOf_mono (hc k _ (.inl (by rw [hr]; exact Phase.noConfusion)))
    intro t ht
    by_cases hte : t = e.ts
    · rw [hte]; exact hcaller
    refine keysOf_mono (hc k t (ht.imp (fun hph hidle => hph ?_) fun ⟨v, hv⟩ => ⟨v, ?_⟩))
    · rcases step_moved (hi.row k) hs t (by rw [hts]; exact hte) with h' | ⟨h', -⟩ | ⟨h', -⟩
      · exact h'.trans hidle
      · rw [hidle] at h'; cases h'
      · rw [hidle] at h'; cases h'
    · exact (step_commits_cases hs _ hv).resolve_right fun h' => hte (h'.trans hts)

end Rows

/-! ### The transactions along a run -/

section Held

variable {V : Type} {g : Nat} {v₀ : Nat → V} {sys sys' : TxnSys V} {rows : Nat → RowSt V} {t : Nat} {m : TxnMan}

/-- The rows that the transaction `t` has accessed are distinct, and it holds the prewrite of those it writes. -/
structure HeldOk (rows : Nat → RowSt V) (t : Nat) (m : TxnMan) : Prop where
  nodup : (m.accesses.map Access.key).Nodup
  wait : ∀ k type, m.status = .waiting k type → ∀ a ∈ m.accesses, a.key ≠ k
  types : ∀ a ∈ m.accesses, a.type = .rd ∨ a.type = .wr
  held : ∀ a ∈ m.accesses, a.type = .wr → ∃ r, (rows a.key).phase t = .granted r

namespace HeldOk

theorem moved {k : Nat} {row : RowSt V} (hh : HeldOk rows t m) (hm : Moved ((rows k).phase t) (row.phase t)) :
    HeldOk (Function.update rows k row) t m := by
  refine ⟨hh.nodup, hh.wait, hh.types, fun a ha hw => ?_⟩
  obtain ⟨r, hr⟩ := hh.held a ha hw
  by_cases hk : a.key = k
  · rw [hk] at hr
    rw [hk, Function.update_self]
    rcases hm with h | ⟨h, -⟩ | ⟨h, -⟩
    · exact ⟨r, h.trans hr⟩
    · rw [hr] at h; cases h
    · rw [hr] at h; cases h
  · rw [Function.update_of_ne hk]
    exact ⟨r, hr⟩

/-- A transaction without accesses that does not wait. -/
theorem nil {status : TxnStatus} (hs : ∀ k type, status ≠ .waiting k type) : HeldOk rows t ⟨status, []⟩ :=
  ⟨List.nodup_nil, fun k type h => absurd h (hs k type), List.forall_mem_nil _, List.forall_mem_nil _⟩

/-- The accesses stay and the transaction does not wait. -/
theorem status {status : TxnStatus} (hh : HeldOk rows t m) (hs : ∀ k type, status ≠ .waiting k type) :
    HeldOk rows t ⟨status, m.accesses⟩ :=
  ⟨hh.nodup, fun k type h => absurd h (hs k type), hh.types, hh.held⟩

theorem push {key : Nat} {type : AccessT} {r : RowId} (hh : HeldOk rows t m) (hnew : ∀ a ∈ m.accesses, a.key ≠ key)
    (hty : type = .rd ∨ type = .wr) (hwr : type = .wr → ∃ r, (rows key).phase t = .granted r) :
    HeldOk rows t ⟨.running, ⟨key, type, r⟩ :: m.accesses⟩ := by
  refine ⟨List.nodup_cons.2 ⟨fun hmem => ?_, hh.nodup⟩, nofun, List.forall_mem_cons.2 ⟨hty, hh.types⟩,
    List.forall_mem_cons.2 ⟨hwr, hh.held⟩⟩
  obtain ⟨a, ha, hk⟩ := List.mem_map.1 hmem
  exact hnew a ha hk

/-- The row of the last access is returned. -/
theorem pop {rc : RC} {a : Access} {as : List Access} {row : RowSt V} (hh : HeldOk rows t m)
    (hacc : m.accesses = a :: as) : HeldOk (Function.update rows a.key row) t ⟨.cleaning rc, as⟩ := by
  have hnd := hh.nodup
  rw [hacc, List.map_cons, List.nodup_cons] at hnd
  have hsub : ∀ b ∈ as, b ∈ m.accesses := fun b hb => by rw [hacc]; exact List.mem_cons_of_mem _ hb
  refine ⟨hnd.2, nofun, fun b hb => hh.types b (hsub b hb), fun b hb hw => ?_⟩
  have hne : b.key ≠ a.key := fun h => hnd.1 (List.mem_map.2 ⟨b, hb, h⟩)
  rw [Function.update_of_ne hne]
  exact hh.held b (hsub b hb) hw

variable [Inhabited V]

theorem answered {key minTs : Nat} {type : AccessT} {row : RowSt V} (hh : HeldOk rows t m)
    (hnew : ∀ a ∈ m.accesses, a.key ≠ key) (hty : type = .rd ∨ type = .wr)
    (hs : (rows key).step g (type.event t minTs) = some row) :
    HeldOk (Function.update rows key row) t (m.answered key type (row.phase t)) := by
  have hrow : Function.update rows key row key = row := Function.update_self ..
  have hold : HeldOk (Function.update rows key row) t m := by
    refine ⟨hh.nodup, hh.wait, hh.types, fun a ha hw => ?_⟩
    rw [Function.update_of_ne (hnew a ha)]
    exact hh.held a ha hw
  rcases step_event hty hs with h | ⟨rfl, h | ⟨r, h⟩⟩ | ⟨rfl, h | ⟨r, h⟩⟩ <;> rw [h]
  · exact hold.status nofun
  · exact ⟨hold.nodup, fun k type h => by cases h; exact hnew, hold.types, hold.held⟩
  · exact hold.push hnew (.inl rfl) nofun
  · exact ⟨hold.nodup, fun k type h => by cases h; exact hnew, hold.types, hold.held⟩
  · exact hold.push hnew (.inr rfl) fun _ => ⟨r, by rw [hrow]; exact h⟩

theorem step {e : TxnEv V} (hh : ∀ t, HeldOk sys.rows t (sys.txns t)) (hi : TxnInv g v₀ sys)
    (h : TxnStep g sys e sys') : ∀ t, HeldOk sys'.rows t (sys'.txns t) := by
  refine h.keeps hi HeldOk.moved hh ?_
  cases h with
  | start | cleaned =>
    simp only [TxnEv.ts, TxnSys.setTxn, Function.update_self]
    exact .nil (by simp)
  | @getRow ts key minTs type row hrun hnew hty hs =>
    simp only [TxnEv.ts, TxnSys.setTxn, TxnSys.setRow, Function.update_self]
    exact (hh ts).answered hnew hty hs
  | @resume ts key type r hst hr =>
    simp only [TxnEv.ts, TxnSys.setTxn, Function.update_self]
    have hw := (hi.ok ts).wait key type hst
    refine (hh ts).push ((hh ts).wait key type hst) (hw.imp And.left And.left) fun hwr => ?_
    rcases hw with ⟨rfl, -⟩ | ⟨-, h' | h'⟩
    · cases hwr
    · rcases hr with hr | hr <;> rw [hr] at h' <;> cases h'
    · exact h'
  | @modify ts key v row hrun hs =>
    refine (hh ts).moved (.inl ?_)
    cases RowStep.of_step hs with
    | modify hg => rfl
  | @finish ts hrun =>
    simp only [TxnEv.ts, TxnSys.setTxn, Function.update_self]
    exact (hh ts).status (by simp)
  | @undo ts minTs rc a as row hst hacc hret hs | @write ts minTs rc a as row hst hacc hret hs =>
    simp only [TxnEv.ts, TxnSys.setTxn, TxnSys.setRow, Function.update_self]
    exact (hh ts).pop hacc
  | @drop ts minTs rc a as hst hacc hxp hwr =>
    simp only [TxnEv.ts, TxnSys.setTxn, Function.update_self]
    rw [← Function.update_eq_self a.key sys.rows]
    exact (hh ts).pop hacc

end HeldOk

end Held

/-! ### The invariant -/

section Inv

variable {V : Type} {g : Nat} {v₀ : Nat → V} {s s' : MvccRun V} {e : TxnEv V}

/-- How far a transaction is with a row it has asked for; `fin` says that it has finished with RCOK and `has`
that it has the row. -/
def Took (m : TxnMan) (k : Nat) (fin has : Prop) : Prop :=
  has ∨ (∃ type, m.status = .waiting k type) ∨ ¬ fin ∧ (m.status = .cleaning .abort ∨ m.status = .done)

structure SerialInv (g : Nat) (v₀ : Nat → V) (s : MvccRun V) : Prop where
  trace : TraceInv g v₀ s.sys s.past
  row : ∀ k, GivenRow (v₀ k) (s.sys.rows k) (s.given k)
  right : ∀ k, ServedRight (v₀ k) (s.sys.rows k)
  called : ∀ k, Called s.past k (s.sys.rows k)
  held : ∀ t, HeldOk s.sys.rows t (s.sys.txns t)
  took : ∀ t, ∀ k ∈ keysOf t s.past, Took (s.sys.txns t) k (FinishedOk s.past t) ((s.sys.rows k).Has t)

namespace SerialInv

theorem init (v₀ : Nat → V) : SerialInv g v₀ (.init v₀) :=
  ⟨.init v₀, fun _ => .init, fun _ => nofun, fun _ _ h => (by rcases h with h | ⟨v, h⟩; exact absurd rfl h; cases h),
    fun _ => .nil (by simp), nofun⟩

/-- A transaction that runs, or has finished with RCOK, has every row it has asked for. -/
theorem has (hi : SerialInv g v₀ s) {t k : Nat} (hk : k ∈ keysOf t s.past)
    (hs : (s.sys.txns t).status = .fresh ∨ (s.sys.txns t).status = .running ∨ FinishedOk s.past t) :
    (s.sys.rows k).Has t := by
  rcases hi.took t k hk with h | ⟨type, h⟩ | ⟨hnf, h⟩
  · exact h
  · rcases hs with hs | hs | hs
    · rw [hs] at h; cases h
    · rw [hs] at h; cases h
    · rcases hi.trace.ended t hs with h' | h' <;> rw [h'] at h <;> cases h
  · rcases hs with hs | hs | hs
    · rcases h with h | h <;> rw [hs] at h <;> cases h
    · rcases h with h | h <;> rw [hs] at h <;> cases h
    · exact absurd hs hnf

theorem mem_keysOf_cons {past : List (TxnEv V)} {t k : Nat} (h : k ∈ keysOf t (e :: past)) :
    k ∈ keysOf t past ∨ ∃ type m, e = .getRow t k type m := by
  obtain ⟨type, m, h⟩ := mem_keysOf.1 h
  rcases List.mem_cons.1 h with h | h
  · exact .inr ⟨type, m, h.symm⟩
  · exact .inl (mem_keysOf.2 ⟨type, m, h⟩)

variable [Inhabited V]

theorem rows_step (hi : SerialInv g v₀ s) (hok : MvccOk s e) {sys : TxnSys V} (h : s.sys.step g e = some sys)
    (k : Nat) :
    GivenRow (v₀ k) (sys.rows k) (fun t => (s.given k t).or ((sys.rows k).handed t)) ∧
      ServedRight (v₀ k) (sys.rows k) := by
  have hri := hi.trace.inv.row k
  rcases (TxnStep.of_step h).row_cases k with hrow | ⟨a, hs, -, hcase⟩
  · rw [hrow, (hi.row k).keep hri (hi.right k)]
    exact ⟨hi.row k, hi.right k⟩
  · exact ⟨(hi.row k).step hri (hi.right k) hs, served_step hri (hi.right k) (hok.readOk hcase) hs⟩

/-- What a transaction has of a row it keeps, unless it aborts. -/
theorem has_step (hi : SerialInv g v₀ s) {sys : TxnSys V} (h : TxnStep g s.sys e sys) {t k : Nat}
    (hh : (s.sys.rows k).Has t) (hrc : (s.sys.txns t).status ≠ .cleaning .abort) : (sys.rows k).Has t := by
  rcases h.row_cases k with hrow | ⟨a, hs, -, hcase⟩
  · rw [hrow]; exact hh
  refine (hi.trace.inv.row k).has_step hs hh fun m hu => ?_
  -- `XP_REQ` is issued by the cleanup of an aborted transaction
  rcases hcase with ⟨type, m', hty, ha, -⟩ | ⟨-, -, hundo, -⟩
  · rcases hty with rfl | rfl <;> rw [hu] at ha <;> cases ha
  · obtain ⟨rc, b, hb, hst, hret⟩ := hundo t m hu
    have hno : ¬ (b.type = .wr ∧ rc = .abort) := fun h' => hrc (h'.2 ▸ hst)
    rw [AccessT.returned, if_neg hno] at hret
    rcases (hi.held t).types b hb with h' | h' <;> rw [hret] at h' <;> cases h'

/-- The event `e` changes the transaction `ts` only, whose own part is left to show. -/
theorem took_next (hi : SerialInv g v₀ s) {sys : TxnSys V} (h : TxnStep g s.sys e sys) {m : TxnMan} {ts : Nat}
    (hts : e.ts = ts) (hm : sys.txns ts = m) (hother : ∀ t, t ≠ ts → sys.txns t = s.sys.txns t)
    (hown : ∀ k ∈ keysOf ts (e :: s.past), Took m k (FinishedOk (e :: s.past) ts) ((sys.rows k).Has ts)) :
    ∀ t, ∀ k ∈ keysOf t (e :: s.past), Took (sys.txns t) k (FinishedOk (e :: s.past) t) ((sys.rows k).Has t) := by
  intro t k hk
  by_cases hne : t = ts
  · rw [hne] at hk ⊢
    rw [hm]; exact hown k hk
  · have hnot : e ≠ .finish t := by rintro rfl; exact hne hts
    have hk' : k ∈ keysOf t s.past := (mem_keysOf_cons hk).resolve_right (by
      rintro ⟨type, m, rfl⟩; exact hne hts)
    rw [hother t hne, finishedOk_cons_of_ne hnot]
    by_cases hab : (s.sys.txns t).status = .cleaning .abort
    · refine .inr (.inr ⟨fun hf => ?_, .inl hab⟩)
      rcases hi.trace.ended t hf with h' | h' <;> rw [hab] at h' <;> cases h'
    · exact (hi.took t k hk').imp_left fun hh => hi.has_step h hh hab

theorem took_step (hi : SerialInv g v₀ s) {sys : TxnSys V} (h : TxnStep g s.sys e sys) (hinv : TxnInv g v₀ sys) :
    ∀ t, ∀ k ∈ keysOf t (e :: s.past), Took (sys.txns t) k (FinishedOk (e :: s.past) t) ((sys.rows k).Has t) := by
  have hold : ∀ {ts k : Nat}, (∀ type m, e ≠ .getRow ts k type m) → k ∈ keysOf ts (e :: s.past) →
      k ∈ keysOf ts s.past := fun hno hk => (mem_keysOf_cons hk).resolve_right fun ⟨type, m, h'⟩ => hno type m h'
  have hrunning : ∀ {ts k : Nat}, (s.sys.txns ts).status = .fresh ∨ (s.sys.txns ts).status = .running →
      k ∈ keysOf ts s.past → (sys.rows k).Has ts := by
    intro ts k hst hk
    refine hi.has_step h (hi.has hk (hst.imp_right .inl)) ?_
    rcases hst with hst | hst <;> rw [hst] <;> exact TxnStatus.noConfusion
  have hclean : ∀ {ts minTs k : Nat} {rc : RC} {as : List Access}, (s.sys.txns ts).status = .cleaning rc →
      e = .cleanup ts minTs → k ∈ keysOf ts (e :: s.past) →
      Took ⟨.cleaning rc, as⟩ k (FinishedOk (e :: s.past) ts) ((sys.rows k).Has ts) := by
    intro ts minTs k rc as hst he hk
    have hnot : e ≠ .finish ts := by rw [he]; exact nofun
    rw [finishedOk_cons_of_ne hnot]
    rcases hi.trace.rc ts rc hst with ⟨rfl, hnf⟩ | ⟨rfl, hf⟩
    · exact .inr (.inr ⟨hnf, .inl rfl⟩)
    · refine .inl (hi.has_step h (hi.has (hold ?_ hk) (.inr (.inr hf))) ?_)
      · intro type m h'; rw [he] at h'; cases h'
      · rw [hst]; simp
  have hstep := h
  cases h with
  | @start ts hf =>
    exact hi.took_next hstep rfl (Function.update_self ..) (fun t hne => Function.update_of_ne hne ..)
      fun k hk => .inl (hrunning (.inl hf) (hold nofun hk))
  | @getRow ts key minTs type row hrun hnew hty hs =>
    refine hi.took_next hstep rfl (Function.update_self ..) (fun t hne => Function.update_of_ne hne ..) fun k hk => ?_
    rcases mem_keysOf_cons hk with hk | ⟨type', m, heq⟩
    · exact .inl (hrunning (.inr hrun) hk)
    cases heq
    have hrow := hinv.row key
    rw [show TxnSys.rows _ key = row from Function.update_self ..] at hrow ⊢
    have hnf : ¬ FinishedOk (.getRow ts key type minTs :: s.past) ts := fun h' =>
      (hi.trace.running hrun).1 ((finishedOk_cons_of_ne (by simp)).1 h')
    rcases step_event hty hs with h' | ⟨-, h' | ⟨r, h'⟩⟩ | ⟨-, h' | ⟨r, h'⟩⟩
    · exact .inr (.inr ⟨hnf, .inl (by rw [h']; rfl)⟩)
    · exact .inr (.inl ⟨type, by rw [h']; rfl⟩)
    · exact .inl (hrow.has_of_phase (.inl h'))
    · exact .inr (.inl ⟨type, by rw [h']; rfl⟩)
    · exact .inl (hrow.has_of_phase (.inr h'))
  | @resume ts key type r hst hr =>
    refine hi.took_next hstep rfl (Function.update_self ..) (fun t hne => Function.update_of_ne hne ..)
      fun k hk => .inl ?_
    rcases hi.took ts k (hold nofun hk) with h' | ⟨type', h'⟩ | ⟨-, h' | h'⟩
    · exact h'
    · rw [hst] at h'; cases h'
      exact (hi.trace.inv.row key).has_of_phase hr
    · rw [hst] at h'; cases h'
    · rw [hst] at h'; cases h'
  | @modify ts key v row hrun hs =>
    exact hi.took_next hstep (show TxnEv.ts (.modify ts key v) = ts from rfl) rfl (fun _ _ => rfl)
      fun k hk => .inl (hrunning (.inr hrun) (hold nofun hk))
  | @finish ts hrun =>
    exact hi.took_next hstep rfl (Function.update_self ..) (fun t hne => Function.update_of_ne hne ..)
      fun k hk => .inl (hrunning (.inr hrun) (hold nofun hk))
  | @cleaned ts minTs rc hst hacc =>
    refine hi.took_next hstep rfl (Function.update_self ..) (fun t hne => Function.update_of_ne hne ..) fun k hk => ?_
    have hcl : Took ⟨.cleaning rc, []⟩ k _ _ := hclean hst rfl hk
    rcases hcl with h' | ⟨type, h'⟩ | ⟨hnf, -⟩
    · exact .inl h'
    · cases h'
    · exact .inr (.inr ⟨hnf, .inr rfl⟩)
  | undo hst hacc hret hs | write hst hacc hret hs | drop hst hacc hxp hwr =>
    exact hi.took_next hstep rfl (Function.update_self ..) (fun t hne => Function.update_of_ne hne ..)
      fun k hk => hclean hst rfl hk

theorem step (hi : SerialInv g v₀ s) (hok : MvccOk s e) (h : s.step g e = some s') : SerialInv g v₀ s' := by
  obtain ⟨sys, hs, rfl⟩ := Option.map_eq_some_iff.1 h
  have htr := hi.trace.step hs
  have hrows := hi.rows_step hok hs
  exact ⟨htr, fun k => (hrows k).1, fun k => (hrows k).2, Called.step hi.called hi.trace.inv (.of_step hs),
    HeldOk.step hi.held hi.trace.inv (.of_step hs), hi.took_step (.of_step hs) htr.inv⟩

theorem reach (h : (mvccLts g v₀).Reach MvccOk s) : SerialInv g v₀ s :=
  h.inv (fun _ h0 => by rw [h0]; exact .init v₀) fun _ _ _ hi hok hs => hi.step hok hs

end SerialInv

/-! ### The serial order -/

namespace MvccRun

theorem mem_log {d : Serial.Entry Nat Nat V} : d ∈ s.log ↔ ∃ t, FinishedOk s.past t ∧ s.entry t = d := by
  simp only [log, List.mem_map, mem_finishedTxns]

theorem log_sorted (s : MvccRun V) : s.log.Pairwise fun d e => d.ts < e.ts :=
  List.pairwise_map.2 (finishedTxns_sorted s.past)

theorem log_nodup (s : MvccRun V) : ∀ d ∈ s.log, (d.writes.map Prod.fst).Nodup := by
  intro d hd
  obtain ⟨t, -, rfl⟩ := mem_log.1 hd
  exact Serial.nodup_valuesOf (List.nodup_dedup _)

end MvccRun

namespace SerialInv

/-- The committed versions of a row are writes of the serial order. -/
theorem writes_of_commit (hi : SerialInv g v₀ s) {k t : Nat} {v : V} (hc : (t, v) ∈ (s.sys.rows k).commits) :
    FinishedOk s.past t ∧ (k, v) ∈ (s.entry t).writes :=
  ⟨((hi.trace.committedOnly k).origin _ hc).1,
    Serial.mem_valuesOf.2 ⟨hi.called k t (.inr ⟨v, hc⟩), (hi.trace.inv.row k).written_eq_some.2 (.inl hc)⟩⟩

/-- Where no transaction below `bound` is about to commit a row, the version below `bound` is what the serial order
has there. -/
theorem latest_of_version (hi : SerialInv g v₀ s) {k bound : Nat} {v : V}
    (hv : VersionBelow (v₀ k) (s.sys.rows k).commits bound v)
    (hg : ∀ t r, FinishedOk s.past t → (s.sys.rows k).phase t = .granted r → bound ≤ t) :
    Serial.LatestBelow v₀ s.log bound k v := by
  have hcommit : ∀ d ∈ s.log, d.ts < bound → d.Writes k → ∃ w, (d.ts, w) ∈ (s.sys.rows k).commits := by
    rintro d hd hlt ⟨w, hw⟩
    obtain ⟨t, hf, rfl⟩ := MvccRun.mem_log.1 hd
    rcases (hi.trace.inv.row k).written_eq_some.1 (Serial.mem_valuesOf.1 hw).2 with hc | ⟨r, hr, -⟩
    · exact ⟨w, hc⟩
    · exact absurd hlt (Nat.not_lt.2 (hg t r hf hr))
  rcases hv with ⟨w, hw, hlt, hmax⟩ | ⟨hall, rfl⟩
  · obtain ⟨hf, hwr⟩ := hi.writes_of_commit hw
    refine .inl ⟨s.entry w, MvccRun.mem_log.2 ⟨w, hf, rfl⟩, hlt, hwr, fun d hd hdlt hdw => ?_⟩
    obtain ⟨x, hx⟩ := hcommit d hd hdlt hdw
    exact hmax _ hx hdlt
  · refine .inr ⟨fun d hd hdlt hdw => ?_, rfl⟩
    obtain ⟨x, hx⟩ := hcommit d hd hdlt hdw
    exact absurd hdlt (Nat.not_lt.2 (hall _ hx))

/-- What a finished transaction was given is what the serial order has below it. -/
theorem reads_latest (hi : SerialInv g v₀ s) :
    ∀ d ∈ s.log, ∀ p ∈ d.reads, Serial.LatestBelow v₀ s.log d.ts p.1 p.2 := by
  rintro d hd ⟨k, v⟩ hp
  obtain ⟨t, hf, rfl⟩ := MvccRun.mem_log.1 hd
  obtain ⟨hk, hv⟩ := Serial.mem_valuesOf.1 hp
  have hhas := hi.has hk (.inr (.inr hf))
  obtain ⟨w, hw, hb⟩ := (hi.row k).right (hi.trace.inv.row k) (hi.right k) hhas
  obtain rfl : w = v := Option.some.inj (hw.symm.trans hv)
  refine hi.latest_of_version hb fun t' r _ hr => ?_
  by_cases hne : t = t'
  · exact Nat.le_of_eq hne
  · exact Nat.le_of_lt ((hi.trace.inv.row k).has_lt_granted hhas hr hne)

/-- A finished transaction was given every row it asked for, and leaves its last write, or what it was given, in
those it asked to write. -/
theorem entry_complete (hi : SerialInv g v₀ s) {t k m : Nat} {type : AccessT} (hf : FinishedOk s.past t)
    (hget : .getRow t k type m ∈ s.past) :
    ∃ v, (k, v) ∈ (s.entry t).reads ∧ (type = .wr → (k, (lastWrite t k s.past).getD v) ∈ (s.entry t).writes) := by
  have hk : k ∈ keysOf t s.past := mem_keysOf.2 ⟨type, m, hget⟩
  have hri := hi.trace.inv.row k
  obtain ⟨v, hv, hb⟩ := (hi.row k).right hri (hi.right k) (hi.has hk (.inr (.inr hf)))
  refine ⟨v, Serial.mem_valuesOf.2 ⟨hk, hv⟩, ?_⟩
  rintro rfl
  refine Serial.mem_valuesOf.2 ⟨hk, hri.written_eq_some.2 ?_⟩
  rcases hi.trace.asked t k m hget with ⟨-, h⟩ | h | ⟨a, ha, rfl, hwr⟩ | ⟨-, w, hw⟩
  · exact absurd hf h
  · rcases hi.trace.ended t hf with h' | h' <;> rw [h'] at h <;> cases h
  · obtain ⟨r, hr⟩ := (hi.held t).held a ha hwr
    have hpage := (hi.row a.key).granted t r hr
    rw [hv, Option.some.injEq] at hpage
    exact .inr ⟨r, hr, by rw [hpage]; exact (hi.trace.row a.key).held t r hr⟩
  · refine .inl ?_
    rw [← (hi.trace.row k).produced.value hri.core.data.sorted hw hb]
    exact hw

/-- A row that no finished transaction holds has its last value of the serial order in the page. -/
theorem page_eq (hi : SerialInv g v₀ s) {db : Nat → V} (hdb : Serial.Exec v₀ s.log db) {k : Nat}
    (hno : ∀ t r, FinishedOk s.past t → (s.sys.rows k).phase t ≠ .granted r) : (s.sys.rows k).row.page = db k := by
  obtain ⟨bound, hwts, hlog⟩ := Serial.exists_bound s.log (s.sys.rows k).row.latestWts
  have hpage := hi.latest_of_version ((hi.trace.inv.row k).core.data.versionBelow_page hwts)
    fun t r hf hr => absurd hr (hno t r hf)
  exact hpage.unique s.log_sorted s.log_nodup ((hdb.latest s.log_sorted).2 k bound hlog)

end SerialInv

end Inv

/-- The transaction 2 writes the row 7 and reads the row 8, which the transaction 3 writes after it has read what
2 commits in the row 7; 3 has not committed yet. -/
def serialRun : List (TxnEv Nat) :=
  [.start 2, .start 3, .getRow 2 7 .wr 0, .getRow 3 7 .rd 0, .modify 2 7 5, .getRow 2 8 .rd 0, .finish 2, .cleanup 2 0,
    .cleanup 2 0, .resume 3, .getRow 3 8 .wr 0, .modify 3 8 9, .finish 3]

end Dbx1000
