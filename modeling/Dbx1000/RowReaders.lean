import Dbx1000.RowInv

/-!
# Rows in the hands of readers

A read is given a pointer into the store. It stays good while it is `row_` or the row of a valid
entry (`HeldRow`), since a new prewrite takes the row of an entry that is not valid. Three steps end
that: `W_REQ` deletes `row_`; the garbage collection drops every version older than `minTs`, the
newest of them included, which transactions from `minTs` on may still read; and a full history as long
as `g_thread_cnt` gives up its oldest version. `ReaderOk` excludes them.
-/

namespace Dbx1000

open RowMvcc

variable {V : Type} {g minTs : Nat} {v₀ : V} {h : List (Nat × V)} {st st' : RowSt V}

/-- The readers that have not finished, with the row each was given. -/
def RowSt.readers (st : RowSt V) : List (Nat × RowId) :=
  st.served.filterMap fun p => match st.phase p.1 with
    | .reading r => some (p.1, r)
    | _ => none

/-- The transactions of the row that have not finished. -/
def RowSt.unfinished (st : RowSt V) : List Nat :=
  st.readers.map Prod.fst ++ st.row.pending.map ReqEntry.ts ++
    if st.row.existsPrewrite then [st.row.prewriteTs] else []

/-- `GetMinTs` returns no more than the timestamp of a transaction that has not finished. -/
def MinOk (st : RowSt V) : RowEv V → Prop
  | .prewrite ts minTs | .write ts minTs | .undo ts minTs => ∀ t ∈ ts :: st.unfinished, minTs ≤ t
  | _ => True

/-- A full history loses the version `e` to the next prewrite. -/
def Doomed (g minTs : Nat) (s : RowMvcc V) (e : WriteHisEntry) : Prop :=
  e.ts < minTs ∨ g ≤ s.hisLen ∧ ∀ f ∈ s.writeHistory, f.valid = true → minTs ≤ f.ts ∧ e.ts ≤ f.ts

instance (s : RowMvcc V) (e : WriteHisEntry) : Decidable (Doomed g minTs s e) :=
  inferInstanceAs (Decidable (_ ∨ _))

/-- No unfinished reader holds a version that a full history loses. -/
def NoneDoomed (g minTs : Nat) (st : RowSt V) : Prop :=
  ∀ p ∈ st.readers, ∀ e ∈ st.row.writeHistory, e.valid = true → e.row = some p.2 → ¬ Doomed g minTs st.row e

instance : Decidable (NoneDoomed g minTs st) :=
  inferInstanceAs (Decidable (∀ p ∈ st.readers, _))

/-- No reader holds `row_` when a write commits; when a prewrite is granted from a full history, no
reader holds a version the history then loses. -/
def ReaderOk (g : Nat) (st : RowSt V) : RowEv V → Prop
  | .prewrite ts minTs => st.row.numVersions = st.row.hisLen → st.row.latestWts < ts → st.row.maxServedRts < ts →
      NoneDoomed g minTs st
  | .write _ minTs => (∀ p ∈ st.readers, st.row.row ≠ some p.2) ∧
      (st.row.numVersions + 1 = st.row.hisLen → (∃ q ∈ st.row.pending, q.type = .pReq) → NoneDoomed g minTs st)
  | _ => True

instance (a : RowEv V) : Decidable (MinOk st a) :=
  match a with
  | .prewrite .. | .write .. | .undo .. => inferInstanceAs (Decidable (∀ t ∈ _, _))
  | .read _ | .modify .. | .finish _ => inferInstanceAs (Decidable True)

instance (a : RowEv V) : Decidable (ReaderOk g st a) :=
  match a with
  | .prewrite .. => inferInstanceAs (Decidable (_ → _ → _ → _))
  | .write .. => inferInstanceAs (Decidable (_ ∧ (_ → _ → _)))
  | .read _ | .modify .. | .undo .. | .finish _ => inferInstanceAs (Decidable True)

/-- The row of an unfinished reader is not freed and is not the writable row of a prewrite. -/
def RowsStable (st : RowSt V) : Prop :=
  ∀ t r, st.phase t = .reading r → (st.row.mem r).isSome = true ∧ ∀ t', st.phase t' ≠ .granted r

/-! ### Held rows -/

/-- `x` is `row_` or the row of a version. -/
def HeldRow (s : RowMvcc V) (x : RowId) : Prop :=
  s.row = some x ∨ ∃ e ∈ s.writeHistory, e.valid = true ∧ e.row = some x

/-- `x` is held, and a prewrite granted now leaves it held. -/
def SafeRow (g minTs : Nat) (s : RowMvcc V) (x : RowId) : Prop :=
  s.row = some x ∨ ∃ e ∈ s.writeHistory, e.valid = true ∧ e.row = some x ∧
    (s.existsPrewrite = false → s.numVersions = s.hisLen → ¬ Doomed g minTs s e)

section Held

variable {s s' : RowMvcc V} {x r : RowId}

theorem SafeRow.held (hx : SafeRow g minTs s x) : HeldRow s x :=
  hx.imp_right fun ⟨e, he, hv, hr, _⟩ => ⟨e, he, hv, hr⟩

theorem HeldRow.latest (hl : Latest s s' r) (hx : HeldRow s x) : HeldRow s' x := by
  rcases hx with hx | ⟨e, he, hv, hr⟩
  · exact .inl (hl.row x hx)
  · exact .inr ⟨e, by rw [hl.writeHistory]; exact he, hv, hr⟩

theorem heldRow_latestRow (hs : Hist g s) (hr : s.latestRow = some r) : HeldRow s r := by
  rcases hs.latestSome r hr with h' | ⟨e, he, hv, -, her⟩
  · exact .inl h'
  · exact .inr ⟨e, he, hv, her⟩

theorem SafeRow.latest (hs : Hist g s) (hs' : Hist g s') (hl : Latest s s' r) (hx : SafeRow g minTs s x) :
    SafeRow g minTs s' x := by
  rcases hx with hx | ⟨e, he, hv, hr, hd⟩
  · exact .inl (hl.row x hx)
  · refine .inr ⟨e, by rw [hl.writeHistory]; exact he, hv, hr, fun hp hfull hdm => ?_⟩
    have hlen : s'.hisLen = s.hisLen := by rw [hisLen, hl.writeHistory]; rfl
    refine hd (hl.existsPrewrite.symm.trans hp) ?_ ?_
    · rw [hs'.num, hl.writeHistory, ← hs.num, hlen] at hfull; exact hfull
    · unfold Doomed at hdm ⊢
      rwa [hlen, hl.writeHistory] at hdm

/-- The latest version is not lost when it is not older than `minTs`: a full history has an older one. -/
theorem safeRow_latestRow (hs : Hist g s) (hr : s.latestRow = some r)
    (hmin : s.existsPrewrite = false → s.numVersions = s.hisLen → minTs ≤ s.latestWts) : SafeRow g minTs s r := by
  rcases hs.latestSome r hr with h' | ⟨e, he, hv, hts, her⟩
  · exact .inl h'
  refine .inr ⟨e, he, hv, her, fun hp hfull hdm => ?_⟩
  rcases hdm with hlt | ⟨-, hall⟩
  · have := hmin hp hfull
    omega
  · obtain ⟨i, hi⟩ := List.mem_iff_getElem?.1 he
    have h4 := hs.four
    -- some other index holds a version too, and its timestamp is smaller
    have hj : ∃ j, j < s.writeHistory.length ∧ j ≠ i := by
      unfold hisLen at h4
      by_cases hi0 : i = 0
      · exact ⟨1, by omega, by omega⟩
      · exact ⟨0, by omega, fun h' => hi0 h'.symm⟩
    obtain ⟨j, hj, hne⟩ := hj
    have hm := List.getElem_mem hj
    have hjv := hs.valid_of_full hfull hm
    have h1 := (hs.range _ hm hjv).2
    have h2 := (hall _ hm hjv).2
    exact hne (hs.distinct j i _ e (List.getElem?_eq_getElem hj) hi hjv hv (by omega))

variable [Inhabited V]

theorem SafeRow.grant {ts : Nat} (hc : Core g v₀ h s) (hw : s.latestWts < ts) (hm : s.maxServedRts < ts)
    (hr : s.grant g minTs ts = some (s', r)) (hx : SafeRow g minTs s x) : SafeRow g minTs s' x := by
  obtain ⟨-, hg⟩ := grant_spec hc hw hm hr
  have hp := grant_existsPrewrite hr
  rcases hx with hx | ⟨e, he, hv, hex, hd⟩
  · exact .inl (hg.row x hx)
  obtain ⟨t, ht, hroom⟩ := hg.room
  refine .inr ⟨e, hroom e ?_ hv, hv, hex, fun hp' => ?_⟩
  · rcases ht with ⟨-, rfl⟩ | ⟨hfull, d, hdm, hdv, rfl, hdrop⟩ | ⟨-, -, rfl⟩
    · exact he
    · refine mem_dropTo_of_lt he ?_
      by_contra hle
      refine hd hp hfull ?_
      rcases hdrop with hlt | ⟨hgl, hall⟩
      · exact .inl (by omega)
      · refine .inr ⟨hgl, fun f hf _ => ⟨(hall f hf).1, ?_⟩⟩
        have := (hall f hf).2
        omega
    · exact List.mem_append_left _ he
  · have := hg.writable.1
    rw [hp'] at this; cases this

end Held

/-! ### Along a run -/

/-- Every reader's row is held. -/
def ReadersHeld (st : RowSt V) : Prop := ∀ t x, st.phase t = .reading x → HeldRow st.row x

theorem mem_readers {t : Nat} {x : RowId} (hi : RowInv g v₀ st) (ht : st.phase t = .reading x) :
    (t, x) ∈ st.readers := by
  obtain ⟨v, hv⟩ := hi.recorded t x ht
  exact List.mem_filterMap.2 ⟨(t, v), hv, by rw [ht]⟩

theorem ReadersHeld.stable (hi : RowInv g v₀ st) (hh : ReadersHeld st) : RowsStable st := by
  intro t r ht
  have hc := hi.core
  refine ⟨?_, fun t' ht' => ?_⟩
  · rcases hh t r ht with hx | ⟨e, he, -, hx⟩
    · exact (hc.heap.liveRow r hx).2
    · exact (hc.heap.live e he r hx).2
  · obtain ⟨hw, -⟩ := hi.granted t' r ht'
    rcases hh t r ht with hx | ⟨e, he, hv, hx⟩
    · exact hw.ne_row hc.heap hx
    · exact hw.ne_version hc.hist hc.heap he hv hx

/-- A transaction moves on and holds no row, and the held rows stay held. -/
theorem ReadersHeld.move {ts : Nat} {p : Phase} {row : RowMvcc V} (hp : ∀ x, p ≠ .reading x)
    (hrow : ∀ t x, st.phase t = .reading x → HeldRow row x) :
    ReadersHeld { st with row := row, phase := Function.update st.phase ts p } := by
  intro t x ht
  by_cases hne : t = ts
  · rw [hne] at ht
    exact absurd (by simpa using ht) (hp x)
  · exact hrow t x (by simpa [hne] using ht)

theorem ReadersHeld.read {ts : Nat} {row : RowMvcc V} {x : RowId} {served : List (Nat × Option V)} (hx : HeldRow row x)
    (hrow : ∀ t y, st.phase t = .reading y → HeldRow row y) :
    ReadersHeld { st with row := row, phase := Function.update st.phase ts (.reading x), served := served } := by
  intro t y ht
  by_cases hne : t = ts
  · rw [hne] at ht
    obtain rfl : x = y := by simpa using ht
    exact hx
  · exact hrow t y (by simpa [hne] using ht)

variable [Inhabited V]

/-- The invariant of `update_buffer` for the readers of `st` and those it releases; `P` says that a
prewrite is pending. -/
structure HeldLoop (g minTs : Nat) (v₀ : V) (h : List (Nat × V)) (next : Nat) (st : RowSt V) (P : Prop)
    (u s : RowMvcc V) (ws : List Wake) : Prop where
  loop : Loop g v₀ h next u s ws
  min : P → s.existsPrewrite = false → s.numVersions = s.hisLen → minTs ≤ s.latestWts
  old : ∀ t x, st.phase t = .reading x → HeldRow s x ∧ (P → SafeRow g minTs s x)
  new : ∀ w ∈ ws, w.type = .rReq → HeldRow s w.row ∧ (P → SafeRow g minTs s w.row)

theorem held_resume (hi : RowInv g v₀ st) {ts : Nat} {u row : RowMvcc V} {ws : List Wake}
    (he : RowInv.Ended g v₀ st ts h u) (hu : u.updateBuffer g minTs ts = some (row, ws))
    (hmin : u.numVersions = u.hisLen → minTs ≤ u.latestWts)
    (hheld : ∀ t x, st.phase t = .reading x →
      HeldRow u x ∧ ((∃ q ∈ st.row.pending, q.type = .pReq) → SafeRow g minTs u x)) :
    ReadersHeld ({ st with commits := h }.resume ts row ws) := by
  obtain ⟨s, hloop, hrow⟩ := updateBuffer_cases hu
  have hstart : HeldLoop g minTs v₀ h (nextPreTs ts u.requests) st (∃ q ∈ st.row.pending, q.type = .pReq) u u [] :=
    ⟨.start he.core he.existsPrewrite (he.max_lt hi), fun _ _ => hmin, hheld, nofun⟩
  have hl := updateLoop_rule
    (P := HeldLoop g minTs v₀ h (nextPreTs ts u.requests) st (∃ q ∈ st.row.pending, q.type = .pReq) u)
    (fun s ws t s' r hP _ ht hst => ?serve) (fun s ws q s' r hP hq hqv hqt _ hnext hst => ?grant) hstart hloop
  case serve =>
    obtain ⟨hc, hlat, -⟩ := serveLatest_spec hP.loop.core (fun hp => by rw [(hP.loop.pre hp).1]; exact ht) hst
    have hs := hP.loop.core.hist
    have hkeep : ∀ x, HeldRow s x ∧ ((∃ q ∈ st.row.pending, q.type = .pReq) → SafeRow g minTs s x) →
        HeldRow s' x ∧ ((∃ q ∈ st.row.pending, q.type = .pReq) → SafeRow g minTs s' x) :=
      fun x hx => ⟨hx.1.latest hlat, fun hq => (hx.2 hq).latest hs hc.hist hlat⟩
    have hmin' : (∃ q ∈ st.row.pending, q.type = .pReq) → s'.existsPrewrite = false → s'.numVersions = s'.hisLen →
        minTs ≤ s'.latestWts := by
      intro hq hp hfull
      rw [hc.hist.num, hlat.writeHistory, ← hs.num, hisLen, hlat.writeHistory] at hfull
      rw [hlat.latestWts]
      exact hP.min hq (hlat.existsPrewrite.symm.trans hp) hfull
    refine ⟨hP.loop.serve ht hst, hmin', fun t x hx => hkeep x (hP.old t x hx), fun w hw hwt => ?_⟩
    rcases List.mem_append.1 hw with hw | hw
    · exact hkeep _ (hP.new w hw hwt)
    · rw [List.mem_singleton.1 hw]
      exact ⟨heldRow_latestRow hc.hist hlat.latest, fun hq => safeRow_latestRow hc.hist hlat.latest (hmin' hq)⟩
  case grant =>
    have hwts : s.latestWts < nextPreTs ts u.requests := by
      have := he.le
      rw [hP.loop.latestWts]; omega
    have hq' : ∃ q ∈ st.row.pending, q.type = .pReq :=
      ⟨q, by rw [← he.pending]; exact mem_pending.2 ⟨hq, hqv⟩, hqt⟩
    have hkeep : ∀ x, HeldRow s x ∧ ((∃ q ∈ st.row.pending, q.type = .pReq) → SafeRow g minTs s x) →
        HeldRow s' x ∧ ((∃ q ∈ st.row.pending, q.type = .pReq) → SafeRow g minTs s' x) := by
      intro x hx
      have := (hx.2 hq').grant hP.loop.core hwts hP.loop.max hst
      exact ⟨this.held, fun _ => this⟩
    obtain ⟨-, hg⟩ := grant_spec hP.loop.core hwts hP.loop.max hst
    refine ⟨hP.loop.granted (by rw [← hP.loop.latestWts]; exact hwts) hst, fun _ hp => ?_,
      fun t x hx => hkeep x (hP.old t x hx), fun w hw hwt => ?_⟩
    · rw [hg.writable.1] at hp; cases hp
    · rcases List.mem_append.1 hw with hw | hw
      · exact hkeep _ (hP.new w hw hwt)
      · rw [List.mem_singleton.1 hw] at hwt; cases hwt
  intro t x ht
  show HeldRow row x
  rw [hrow]
  rcases woken_cases ht Phase.noConfusion with ⟨w, hw, -, hph⟩ | ⟨-, -, hst⟩
  · obtain ⟨h2, rfl⟩ := Wake.phase_eq_reading hph
    exact (hl.new w hw ((he.released hi hu hw).2.resolve_right h2)).1
  · exact (hl.old t x hst).1

theorem held_step (hi : RowInv g v₀ st) (hh : ReadersHeld st) {a : RowEv V} (hmin : MinOk st a) (hok : ReaderOk g st a)
    (h : st.step g a = some st') : ReadersHeld st' := by
  cases RowStep.of_step h with
  | readAbort hf hlt => exact .move (fun _ => Phase.noConfusion) hh
  | preAbort hf => exact .move (fun _ => Phase.noConfusion) hh
  | finish hr => exact .move (fun _ => Phase.noConfusion) hh
  | readWait hf hw hp hpt hb =>
    obtain ⟨⟨reqs, rfl⟩, -⟩ := bufferReq_cases hb
    exact .move (fun _ => Phase.noConfusion) hh
  | preWait hf hp hpt hb =>
    obtain ⟨⟨reqs, rfl⟩, -⟩ := bufferReq_cases hb
    exact .move (fun _ => Phase.noConfusion) hh
  | modify hg => exact hh
  | readLatest hf hw hp hs =>
    obtain ⟨hc, hl, -⟩ := serveLatest_spec hi.core (hi.lt_prewriteTs hf hp) hs
    exact .read (heldRow_latestRow hc.hist hl.latest) fun t x ht => (hh t x ht).latest hl
  | readOld hf ho hw hs =>
    rcases readHistory_cases hs with ⟨-, hlat⟩ | ⟨e, he, hv, -, hr, rfl, -⟩
    · obtain ⟨hc, hl, -⟩ := withLatest_spec hi.core hlat
      exact .read (heldRow_latestRow hc.hist hl.latest) fun t x ht => (hh t x ht).latest hl
    · exact .read (.inr ⟨e, he, hv, hr⟩) hh
  | preGrant hf hp hw hm hs =>
    obtain ⟨hfw, hfm⟩ := hi.fresh _ hf.1 hf.2.2
    have hw' := Nat.lt_of_le_of_ne hw hfw
    have hm' := Nat.lt_of_le_of_ne hm hfm
    refine .move (fun _ => Phase.noConfusion) fun t x ht => ?_
    have hsafe : SafeRow g _ st.row x := (hh t x ht).imp_right fun ⟨e, he, hv, hx⟩ =>
      ⟨e, he, hv, hx, fun _ hfull => hok hfull hw' hm' _ (mem_readers hi ht) e he hv hx⟩
    exact (hsafe.grant hi.core hw' hm' hs).held
  | @write ts m r v u row ws hg hv hc hu =>
    obtain ⟨he, hcm⟩ := hi.ended_commit hg hv hc
    have hts : m ≤ ts := hmin ts (List.mem_cons_self ..)
    refine held_resume hi he hu (fun _ => by rw [hcm.latestWts]; exact hts) fun t x ht => ?_
    have hx := mem_readers hi ht
    obtain ⟨e, hem, hev, hex⟩ := (hh t x ht).resolve_left (hok.1 _ hx)
    refine ⟨.inr ⟨e, hcm.kept e hem hev, hev, hex⟩,
      fun hq => .inr ⟨e, hcm.kept e hem hev, hev, hex, fun _ hfull hd => ?_⟩⟩
    rw [hcm.numVersions, hcm.hisLen] at hfull
    -- the version just committed is neither older than `minTs` nor the oldest, so nothing else is lost
    refine hok.2 hfull hq _ hx e hem hev hex (hd.imp_right fun ⟨hgl, hall⟩ => ?_)
    rw [hcm.hisLen] at hgl
    exact ⟨hgl, fun f hf hfv => hall f (hcm.kept f hf hfv) hfv⟩
  | @undo ts m r u row ws hg hc hu =>
    obtain ⟨⟨hp, -⟩, -⟩ := hi.granted ts r hg
    obtain ⟨e, he, -, rfl⟩ := release_cases hc
    have hs := hi.core.hist
    -- the released entry is free, so the history is not full
    have hfull : (st.row.released e).numVersions ≠ (st.row.released e).hisLen := by
      intro hf
      have hev := ((hi.core.hist.reserved _ e he).2 ⟨hp, rfl⟩).2
      have hlen : (st.row.released e).hisLen = st.row.hisLen := List.length_set ..
      rw [hlen] at hf
      have := hs.valid_of_full hf (List.mem_of_getElem? he)
      rw [hev] at this; cases this
    refine held_resume hi (hi.ended_release hg hc) hu (fun hf => absurd hf hfull) fun t x ht => ?_
    rcases hh t x ht with hx | ⟨f, hf, hfv, hfx⟩
    · exact ⟨.inl hx, fun _ => .inl hx⟩
    · have hf' := (mem_released hs hp he hfv).2 hf
      exact ⟨.inr ⟨f, hf', hfv, hfx⟩, fun _ => .inr ⟨f, hf', hfv, hfx, fun _ hf => absurd hf hfull⟩⟩

/-- In every run that respects `GetMinTs`' contract and whose steps meet `ReaderOk`, the rows of
readers stay stable. -/
theorem rowsStable_of_readerOk (gThreadCnt : Nat) (v₀ : V)
    (h : (rowLts gThreadCnt v₀).Reach (fun st a => MinOk st a ∧ ReaderOk gThreadCnt st a) st) : RowsStable st := by
  have hh : ReadersHeld st := by
    induction h with
    | init h => rw [h]; exact fun t x ht => by cases ht
    | step hreach hok hs ih => exact held_step (RowInv.reach hreach) ih hok.1 hok.2 hs
  exact hh.stable (RowInv.reach h)

/-- A reader keeps an old version while newer ones are committed. -/
theorem rowsStable_reader_of_old_version : ∃ st : RowSt Nat,
    (rowLts 1 0).runIf (fun st a => decide (MinOk st a ∧ ReaderOk 1 st a)) (.init 0)
      [.prewrite 10 1, .write 10 1, .read 15, .prewrite 20 10, .write 20 10, .prewrite 30 15, .write 30 15] = some st ∧
    (∃ r, st.phase 15 = .reading r) ∧ RowsStable st := by
  have hrun : (((rowLts 1 (0 : Nat)).runIf (fun st a => decide (MinOk st a ∧ ReaderOk 1 st a)) (.init 0)
      [.prewrite 10 1, .write 10 1, .read 15, .prewrite 20 10, .write 20 10, .prewrite 30 15, .write 30 15]).any
      fun st => decide (st.phase 15 = .reading 0)) = true := by decide +kernel
  simp only [Option.any_eq_true, decide_eq_true_eq] at hrun
  obtain ⟨st, hst, hr⟩ := hrun
  exact ⟨st, hst, ⟨_, hr⟩, rowsStable_of_readerOk 1 0 (.runIf (fun _ _ => of_decide_eq_true) (.init rfl) hst)⟩

/-- `GetMinTs` keeps its contract in both runs. In the first the read at 2 holds `row_`, which the
write at 3 deletes. In the second the read at 25 holds version 20, the newest below `minTs`, when the
prewrite at 50 drops it and is given its row. -/
theorem reader_row_freed_and_reused :
    (∃ st : RowSt Nat, (rowLts 1 0).runIf (fun st a => decide (MinOk st a)) (.init 0)
        [.read 2, .prewrite 3 2, .write 3 2] = some st ∧
      st.phase 2 = .reading 0 ∧ st.row.mem 0 = none ∧ ¬ RowsStable st) ∧
    ∃ (st : RowSt Nat) (r : RowId), (rowLts 1 0).runIf (fun st a => decide (MinOk st a)) (.init 0)
        [.prewrite 10 1, .write 10 1, .prewrite 20 1, .write 20 1, .prewrite 30 1, .write 30 1, .prewrite 40 1,
          .write 40 1, .read 25, .prewrite 50 25] = some st ∧
      st.phase 25 = .reading r ∧ st.phase 50 = .granted r ∧ ¬ RowsStable st := by
  refine ⟨?_, ?_⟩
  · have hrun : (((rowLts 1 (0 : Nat)).runIf (fun st a => decide (MinOk st a)) (.init 0)
        [.read 2, .prewrite 3 2, .write 3 2]).any
        fun st => decide (st.phase 2 = .reading 0 ∧ st.row.mem 0 = none)) = true := by decide +kernel
    simp only [Option.any_eq_true, decide_eq_true_eq] at hrun
    obtain ⟨st, hst, hr, hmem⟩ := hrun
    refine ⟨st, hst, hr, hmem, fun hstable => ?_⟩
    have := (hstable 2 0 hr).1
    rw [hmem] at this; cases this
  · have hrun : (((rowLts 1 (0 : Nat)).runIf (fun st a => decide (MinOk st a)) (.init 0)
        [.prewrite 10 1, .write 10 1, .prewrite 20 1, .write 20 1, .prewrite 30 1, .write 30 1, .prewrite 40 1,
          .write 40 1, .read 25, .prewrite 50 25]).any
        fun st => decide (st.phase 25 = .reading 2 ∧ st.phase 50 = .granted 2)) = true := by decide +kernel
    simp only [Option.any_eq_true, decide_eq_true_eq] at hrun
    obtain ⟨st, hst, hr, hg⟩ := hrun
    exact ⟨st, 2, hst, hr, hg, fun hstable => (hstable 25 2 hr).2 50 hg⟩

end Dbx1000
