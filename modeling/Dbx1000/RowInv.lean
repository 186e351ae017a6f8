import Dbx1000.RowRun

/-!
# The invariant of a row's runs

`RowInv` ties the store to the transactions: the outstanding prewrite is the one transaction that was
granted, a pending request belongs to a waiting transaction above it, and no read was served above
both `_latest_wts` and `_max_served_rts`. It holds in every state of every run (`RowInv.reach`); the
representation invariant and the order of reads and writes are read off it.
-/

namespace Dbx1000

open RowMvcc

variable {V : Type} {g : Nat} {v₀ : V} {st st' : RowSt V}

structure RowInv (g : Nat) (v₀ : V) (st : RowSt V) : Prop where
  core : Core g v₀ st.commits st.row
  pre : st.row.existsPrewrite = true → ∃ r, st.phase st.row.prewriteTs = .granted r
  granted : ∀ t r, st.phase t = .granted r → Writable st.row r ∧ st.row.prewriteTs = t
  pend : ∀ q ∈ st.row.pending, st.row.existsPrewrite = true ∧ st.row.prewriteTs < q.ts ∧
    st.phase q.ts = .waiting q.type ∧ (q.type = .rReq ∨ q.type = .pReq)
  waiting : ∀ t ty, st.phase t = .waiting ty → ∃ q ∈ st.row.pending, q.ts = t
  fresh : ∀ t, 0 < t → st.phase t = .idle → st.row.latestWts ≠ t ∧ st.row.maxServedRts ≠ t
  bound : ∀ t, st.phase t ≠ .idle → t ≤ uint64Max
  served : ∀ p ∈ st.served, p.1 ≤ max st.row.latestWts st.row.maxServedRts
  recorded : ∀ t r, st.phase t = .reading r → ∃ v, (t, v) ∈ st.served

/-- The transaction `ts` neither holds the prewrite nor waits. -/
def RowSt.Off (st : RowSt V) (ts : Nat) : Prop :=
  (∀ r, st.phase ts ≠ .granted r) ∧ ∀ ty, st.phase ts ≠ .waiting ty

theorem RowSt.Fresh.off {ts : Nat} (hf : st.Fresh ts) : st.Off ts := by
  unfold RowSt.Off
  rw [hf.2.2]
  exact ⟨fun _ => Phase.noConfusion, fun _ => Phase.noConfusion⟩

namespace RowInv

theorem init (v : V) : RowInv g v (RowSt.init v) where
  core := .init v
  pre hp := by cases hp
  granted t r h := by cases h
  pend q hq := by
    have := (mem_pending.1 hq)
    rw [List.mem_replicate.1 this.1 |>.2] at this
    cases this.2
  waiting t ty h := by cases h
  fresh t ht _ := ⟨Nat.ne_of_lt ht, Nat.ne_of_lt ht⟩
  bound t h := absurd rfl h
  served p hp := by cases hp
  recorded t r h := by cases h

/-- A transaction that neither waits nor holds the prewrite moves on, and the queue stays. -/
theorem move (hi : RowInv g v₀ st) {ts : Nat} {row : RowMvcc V} {served : List (Nat × Option V)} {p : Phase}
    (hts : ts ≤ uint64Max) (hoff : st.Off ts)
    (hp : p = .finished ∨ ∃ r, p = .reading r)
    (hc : Core g v₀ st.commits row) (hpre : row.existsPrewrite = st.row.existsPrewrite)
    (hpt : row.prewriteTs = st.row.prewriteTs) (hreq : row.requests = st.row.requests)
    (hw : ∀ x, Writable st.row x → Writable row x) (hwts : row.latestWts = st.row.latestWts)
    (hmax : row.maxServedRts = st.row.maxServedRts ∨ row.maxServedRts = ts)
    (hsv : ∀ p ∈ served, p.1 ≤ max row.latestWts row.maxServedRts) (hmono : ∀ p ∈ st.served, p ∈ served)
    (hrec : ∀ r, p = .reading r → ∃ v, (ts, v) ∈ served) :
    RowInv g v₀ { st with row := row, phase := Function.update st.phase ts p, served := served } := by
  obtain ⟨hng, hnw⟩ := hoff
  have hpend : row.pending = st.row.pending := by rw [pending, pending, hreq]
  have hold : ∀ t ph, Function.update st.phase ts p t = ph → (∀ r, ph ≠ .reading r) → ph ≠ .finished →
      st.phase t = ph := by
    intro t ph ht hr hfin
    by_cases hne : t = ts
    · rw [hne, Function.update_self] at ht
      rcases hp with rfl | ⟨r, rfl⟩
      · exact absurd ht.symm hfin
      · exact absurd ht.symm (hr r)
    · rwa [Function.update_of_ne hne] at ht
  have hkeep : ∀ t, st.phase t ≠ st.phase ts → Function.update st.phase ts p t = st.phase t := by
    intro t hne
    refine Function.update_of_ne ?_ ..
    rintro rfl; exact hne rfl
  refine ⟨hc, fun hp' => ?_, fun t r ht => ?_, fun q hq => ?_, fun t ty ht => ?_, fun t h0 ht => ?_,
    fun t ht => ?_, hsv,
    fun t r ht => ?_⟩
  · obtain ⟨r, hr⟩ := hi.pre (hpre.symm.trans hp')
    refine ⟨r, ?_⟩
    show Function.update st.phase ts p row.prewriteTs = _
    rw [hpt, hkeep _ (by rw [hr]; exact (hng r).symm), hr]
  · obtain ⟨h1, h2⟩ := hi.granted t r (hold t _ ht (fun _ => Phase.noConfusion) Phase.noConfusion)
    exact ⟨hw r h1, hpt.trans h2⟩
  · rw [show RowMvcc.pending _ = st.row.pending from hpend] at hq
    obtain ⟨h1, h2, h3, h4⟩ := hi.pend q hq
    refine ⟨hpre.trans h1, by rw [hpt]; exact h2, ?_, h4⟩
    show Function.update st.phase ts p q.ts = _
    rw [hkeep _ (by rw [h3]; exact (hnw _).symm), h3]
  · show ∃ q ∈ row.pending, _
    rw [hpend]
    exact hi.waiting t ty (hold t _ ht (fun _ => Phase.noConfusion) Phase.noConfusion)
  · have hne : t ≠ ts := by
      rintro rfl
      have : p = .idle := by simpa using ht
      rcases hp with rfl | ⟨r, rfl⟩ <;> cases this
    obtain ⟨h1, h2⟩ := hi.fresh t h0 (by simpa [hne] using ht)
    refine ⟨by rw [hwts]; exact h1, ?_⟩
    rcases hmax with h | h
    · rw [h]; exact h2
    · rw [h]; exact hne.symm
  · by_cases hne : t = ts
    · rw [hne]; exact hts
    · exact hi.bound t (by simpa [hne] using ht)
  · by_cases hne : t = ts
    · rw [hne] at ht ⊢
      exact hrec r (by simpa using ht)
    · obtain ⟨v, hv⟩ := hi.recorded t r (by simpa [hne] using ht)
      exact ⟨v, hmono _ hv⟩

/-- A transaction joins the queue. -/
theorem enqueue (hi : RowInv g v₀ st) {ts : Nat} {ty : TsType} {row : RowMvcc V} (hf : st.Fresh ts)
    (hty : ty = .rReq ∨ ty = .pReq) (hp : st.row.existsPrewrite = true) (hpt : st.row.prewriteTs ≤ ts)
    (hb : st.row.bufferReq ty ts = some row) :
    RowInv g v₀ { st with row := row, phase := Function.update st.phase ts (.waiting ty) } := by
  obtain ⟨⟨reqs, rfl⟩, hperm⟩ := bufferReq_cases hb
  obtain ⟨-, hmax, hidle⟩ := hf
  have hne : st.row.prewriteTs ≠ ts := by
    rintro rfl
    obtain ⟨r, hr⟩ := hi.pre hp
    rw [hr] at hidle; cases hidle
  have hkeep : ∀ t, st.phase t ≠ .idle → Function.update st.phase ts (.waiting ty) t = st.phase t := by
    intro t ht
    refine Function.update_of_ne ?_ ..
    rintro rfl; exact ht hidle
  refine ⟨hi.core.withRequests, fun _ => ?_, fun t r ht => ?_, fun q hq => ?_, fun t ty' ht => ?_, fun t h0 ht => ?_,
    fun t ht => ?_, hi.served, fun t r ht => ?_⟩
  · obtain ⟨r, hr⟩ := hi.pre hp
    exact ⟨r, (hkeep _ (by rw [hr]; exact Phase.noConfusion)).trans hr⟩
  · by_cases hne : t = ts
    · rw [hne] at ht
      simp at ht
    · exact hi.granted t r (by simpa [hne] using ht)
  · rcases List.mem_cons.1 (hperm.mem_iff.1 hq) with rfl | hq
    · exact ⟨hp, Nat.lt_of_le_of_ne hpt hne, Function.update_self .., hty⟩
    · obtain ⟨h1, h2, h3, h4⟩ := hi.pend q hq
      exact ⟨h1, h2, (hkeep _ (by rw [h3]; exact Phase.noConfusion)).trans h3, h4⟩
  · by_cases hne : t = ts
    · exact ⟨_, hperm.mem_iff.2 (List.mem_cons_self ..), hne.symm⟩
    · obtain ⟨q, hq, hqt⟩ := hi.waiting t ty' (by simpa [hne] using ht)
      exact ⟨q, hperm.mem_iff.2 (List.mem_cons_of_mem _ hq), hqt⟩
  · refine hi.fresh t h0 ?_
    by_cases hne : t = ts
    · rw [hne]; exact hidle
    · simpa [hne] using ht
  · by_cases hne : t = ts
    · rw [hne]; exact hmax
    · exact hi.bound t (by simpa [hne] using ht)
  · by_cases hne : t = ts
    · rw [hne] at ht; simp at ht
    · exact hi.recorded t r (by simpa [hne] using ht)

/-- A transaction that has not called yet is not the one that holds the prewrite. -/
theorem lt_prewriteTs (hi : RowInv g v₀ st) {ts : Nat} (hf : st.Fresh ts)
    (hp : st.row.existsPrewrite = true → ts ≤ st.row.prewriteTs) :
    st.row.existsPrewrite = true → ts < st.row.prewriteTs := by
  intro hp'
  refine Nat.lt_of_le_of_ne (hp hp') ?_
  rintro rfl
  obtain ⟨x, hx⟩ := hi.pre hp'
  have := hf.2.2
  rw [hx] at this; cases this

theorem served_lt_granted (hi : RowInv g v₀ st) {p : Nat × Option V} (hp : p ∈ st.served) {w : Nat} {x : RowId}
    (hw : st.phase w = .granted x) : p.1 < w := by
  obtain ⟨⟨hpre, -⟩, hpt⟩ := hi.granted w x hw
  obtain ⟨-, h1, h2⟩ := hi.core.hist.pre hpre
  have := hi.served p hp
  omega

/-- What `update_buffer` finds when the holder `ts` of the prewrite has committed or released it: the
store `u`, over the versions `h`. -/
structure Ended (g : Nat) (v₀ : V) (st : RowSt V) (ts : Nat) (h : List (Nat × V)) (u : RowMvcc V) : Prop where
  holder : ∃ r, st.phase ts = .granted r
  core : Core g v₀ h u
  existsPrewrite : u.existsPrewrite = false
  requests : u.requests = st.row.requests
  maxServedRts : u.maxServedRts = st.row.maxServedRts
  latestWts : u.latestWts = ts ∨ u.latestWts = st.row.latestWts
  le : u.latestWts ≤ ts
  mono : st.row.latestWts ≤ u.latestWts

theorem ended_commit (hi : RowInv g v₀ st) {ts : Nat} {r : RowId} {v : V} {u : RowMvcc V}
    (hg : st.phase ts = .granted r) (hv : st.row.mem r = some v) (hc : st.row.commit ts r = some u) :
    Ended g v₀ st ts ((ts, v) :: st.commits) u ∧ Committed st.row u ts v := by
  obtain ⟨⟨hp, -⟩, -⟩ := hi.granted ts r hg
  obtain ⟨w, hw, -, hcu, hcm⟩ := commit_spec hi.core hp hc
  rw [hv] at hw; cases hw
  have := hcm.lt
  exact ⟨⟨⟨r, hg⟩, hcu, hcm.existsPrewrite, hcm.requests, hcm.maxServedRts, .inl hcm.latestWts,
    Nat.le_of_eq hcm.latestWts, by rw [hcm.latestWts]; omega⟩, hcm⟩

theorem ended_release (hi : RowInv g v₀ st) {ts : Nat} {r : RowId} {u : RowMvcc V}
    (hg : st.phase ts = .granted r) (hc : st.row.release r = some u) : Ended g v₀ st ts st.commits u := by
  obtain ⟨⟨hp, -⟩, rfl⟩ := hi.granted ts r hg
  obtain ⟨e, he, -, rfl⟩ := release_cases hc
  exact ⟨⟨r, hg⟩, hi.core.release hp he, rfl, rfl, rfl, .inr rfl, Nat.le_of_lt (hi.core.hist.pre hp).2.1, Nat.le_refl _⟩

theorem Ended.max_lt (hi : RowInv g v₀ st) {ts : Nat} {h : List (Nat × V)} {u : RowMvcc V}
    (he : Ended g v₀ st ts h u) : u.maxServedRts < nextPreTs ts u.requests := by
  obtain ⟨r, hr⟩ := he.holder
  obtain ⟨⟨hp, -⟩, hpt⟩ := hi.granted ts r hr
  have h1 := (hi.core.hist.pre hp).2.2
  have h2 : ts ≤ nextPreTs ts u.requests := le_nextPreTs (hi.bound ts (by rw [hr]; exact Phase.noConfusion))
  rw [he.maxServedRts]; omega

theorem Ended.pending {ts : Nat} {h : List (Nat × V)} {u : RowMvcc V} (he : Ended g v₀ st ts h u) :
    u.pending = st.row.pending := by
  rw [RowMvcc.pending, RowMvcc.pending, he.requests]

variable [Inhabited V]

/-- A prewrite is granted at once. -/
theorem grant (hi : RowInv g v₀ st) {ts m : Nat} {row : RowMvcc V} {r : RowId} (hf : st.Fresh ts)
    (hp : st.row.existsPrewrite = false) (hw : st.row.latestWts ≤ ts) (hm : st.row.maxServedRts ≤ ts)
    (hs : st.row.grant g m ts = some (row, r)) :
    RowInv g v₀ { st with row := row, phase := Function.update st.phase ts (.granted r) } := by
  obtain ⟨hpos, hmax, hidle⟩ := hf
  obtain ⟨hfw, hfm⟩ := hi.fresh ts hpos hidle
  obtain ⟨hc, hg⟩ := grant_spec hi.core (Nat.lt_of_le_of_ne hw hfw) (Nat.lt_of_le_of_ne hm hfm) hs
  have hnone : ∀ q, q ∉ st.row.pending := by
    intro q hq
    have := (hi.pend q hq).1
    rw [hp] at this; cases this
  have hpend : row.pending = st.row.pending := by rw [pending, pending, hg.requests]
  have hng : ∀ t r, st.phase t ≠ .granted r := by
    intro t r ht
    have := (hi.granted t r ht).1.1
    rw [hp] at this; cases this
  refine ⟨hc, fun _ => ⟨r, ?_⟩, fun t x ht => ?_, fun q hq => ?_, fun t ty ht => ?_, fun t h0 ht => ?_,
    fun t ht => ?_, ?_,
    fun t x ht => ?_⟩
  · show Function.update st.phase ts _ row.prewriteTs = _
    rw [hg.preTs, Function.update_self]
  · by_cases hne : t = ts
    · rw [hne] at ht ⊢
      obtain rfl : r = x := by simpa using ht
      exact ⟨hg.writable, hg.preTs⟩
    · exact absurd (by simpa [hne] using ht) (hng t x)
  · rw [show RowMvcc.pending _ = st.row.pending from hpend] at hq
    exact absurd hq (hnone q)
  · by_cases hne : t = ts
    · rw [hne] at ht; simp at ht
    · obtain ⟨q, hq, -⟩ := hi.waiting t ty (by simpa [hne] using ht)
      exact absurd hq (hnone q)
  · show row.latestWts ≠ t ∧ row.maxServedRts ≠ t
    rw [hg.latestWts, hg.maxServedRts]
    by_cases hne : t = ts
    · rw [hne] at ht; simp at ht
    · exact hi.fresh t h0 (by simpa [hne] using ht)
  · by_cases hne : t = ts
    · rw [hne]; exact hmax
    · exact hi.bound t (by simpa [hne] using ht)
  · show ∀ p ∈ st.served, p.1 ≤ max row.latestWts row.maxServedRts
    rw [hg.latestWts, hg.maxServedRts]
    exact hi.served
  · by_cases hne : t = ts
    · rw [hne] at ht; simp at ht
    · exact hi.recorded t x (by simpa [hne] using ht)

theorem Ended.updated (hi : RowInv g v₀ st) {ts m : Nat} {h : List (Nat × V)} {u row : RowMvcc V} {ws : List Wake}
    (he : Ended g v₀ st ts h u) (hu : u.updateBuffer g m ts = some (row, ws)) :
    Updated g v₀ h (nextPreTs ts u.requests) u row ws ∧ ∀ q ∈ u.pending, ts < q.ts :=
  updateBuffer_spec he.core he.existsPrewrite (he.max_lt hi) he.le hu

/-- A released request was a waiting read or prewrite. -/
theorem Ended.released (hi : RowInv g v₀ st) {ts m : Nat} {h : List (Nat × V)} {u row : RowMvcc V} {ws : List Wake}
    (he : Ended g v₀ st ts h u) (hu : u.updateBuffer g m ts = some (row, ws)) {w : Wake} (hw : w ∈ ws) :
    st.phase w.ts = .waiting w.type ∧ (w.type = .rReq ∨ w.type = .pReq) := by
  obtain ⟨q, hq, -, hqt, hqty⟩ := (he.updated hi hu).1.mem_fired hw
  rw [he.pending] at hq
  obtain ⟨-, -, h3, h4⟩ := hi.pend q hq
  rw [hqt, hqty] at h3
  rw [hqty] at h4
  exact ⟨h3, h4⟩

section Resumed

variable {ts m : Nat} {h : List (Nat × V)} {u row : RowMvcc V} {ws : List Wake}

/-- The prewrite that is outstanding now was released by `update_buffer`. -/
theorem Ended.pre (hi : RowInv g v₀ st) (he : Ended g v₀ st ts h u) (hu : u.updateBuffer g m ts = some (row, ws))
    (hp : row.existsPrewrite = true) :
    ∃ r, wakeAll (Function.update st.phase ts .finished) ws row.prewriteTs = .granted r := by
  obtain ⟨t, hl, hrow⟩ := (he.updated hi hu).1.loop
  rw [hrow] at hp
  obtain ⟨h1, w, hw, hwn, -⟩ := hl.pre hp
  obtain ⟨x, hx, hxt, hph⟩ := wakeAll_of_mem (Function.update st.phase ts .finished) hw
  rw [hwn] at hxt hph
  have hpt : row.prewriteTs = nextPreTs ts u.requests := by rw [hrow]; exact h1
  refine ⟨x.row, ?_⟩
  rw [hpt, hph, Wake.phase, if_pos]
  rcases (he.released hi hu hx).2 with h4 | h4
  · have h5 := (hl.read x hx h4).1
    have h6 := hl.max
    omega
  · exact h4

/-- Nobody above the next prewrite is woken. -/
theorem Ended.wake_le (hi : RowInv g v₀ st) (he : Ended g v₀ st ts h u) (hu : u.updateBuffer g m ts = some (row, ws))
    {w : Wake} (hw : w ∈ ws) : w.ts ≤ nextPreTs ts u.requests := by
  obtain ⟨t, hl, -⟩ := (he.updated hi hu).1.loop
  rcases (he.released hi hu hw).2 with h4 | h4
  · have := (hl.read w hw h4).1
    have := hl.max
    omega
  · exact Nat.le_of_eq (hl.grant w hw h4).1

/-- A request stays behind only if a prewrite below it was released. -/
theorem Ended.pend (hi : RowInv g v₀ st) (he : Ended g v₀ st ts h u) (hu : u.updateBuffer g m ts = some (row, ws))
    {q : ReqEntry} (hq : q ∈ row.pending) :
    row.existsPrewrite = true ∧ row.prewriteTs < q.ts ∧
      wakeAll (Function.update st.phase ts .finished) ws q.ts = .waiting q.type ∧
      (q.type = .rReq ∨ q.type = .pReq) := by
  obtain ⟨hup, hts⟩ := he.updated hi hu
  obtain ⟨t, hl, hrow⟩ := hup.loop
  obtain ⟨hq, hnf⟩ := hup.mem_pending.1 hq
  have hqts := hts q hq
  obtain ⟨hqm, hqv⟩ := mem_pending.1 hq
  rw [he.pending] at hq
  obtain ⟨-, -, h3, h4⟩ := hi.pend q hq
  have hlt : nextPreTs ts u.requests < q.ts := by
    simp only [ReqEntry.fires, hqv, Bool.true_and, Bool.or_eq_false_iff, decide_eq_false_iff_not, not_and] at hnf
    rcases h4 with h4 | h4
    · have := hnf.1 h4
      omega
    · have := nextPreTs_le hqm hqv h4 hqts
      omega
  have hbound := hi.bound q.ts (by rw [h3]; exact Phase.noConfusion)
  rcases nextPreTs_mem ts u.requests with h5 | ⟨q', hq', hv', hp', -, h5⟩
  · omega
  obtain ⟨w, hw, -, hwp⟩ := hup.fired_mem hq' (by simp [ReqEntry.fires, hv', h5])
  obtain ⟨-, ⟨hpw, -⟩, hptw⟩ := hl.grant w hw (hwp.trans hp')
  have hpt : row.prewriteTs = nextPreTs ts u.requests := by rw [hrow]; exact hptw
  refine ⟨by rw [hrow]; exact hpw, by rw [hpt]; exact hlt, ?_, h4⟩
  rcases wakeAll_cases (Function.update st.phase ts .finished) ws q.ts with ⟨-, h1⟩ | ⟨w, hw, hwq, -⟩
  · rw [h1, Function.update_of_ne (Nat.ne_of_gt hqts), h3]
  · have := he.wake_le hi hu hw
    omega

/-- The timestamp of a transaction that has not called yet is in no field. -/
theorem Ended.fresh (hi : RowInv g v₀ st) (he : Ended g v₀ st ts h u) (hu : u.updateBuffer g m ts = some (row, ws))
    {x : Nat} (h0 : 0 < x) (hx : wakeAll (Function.update st.phase ts .finished) ws x = .idle) :
    row.latestWts ≠ x ∧ row.maxServedRts ≠ x := by
  obtain ⟨t, hl, hrow⟩ := (he.updated hi hu).1.loop
  have hwts : row.latestWts = u.latestWts := by rw [hrow]; exact hl.latestWts
  have hmax : row.maxServedRts = t.maxServedRts := by rw [hrow]
  rcases woken_cases hx Phase.noConfusion with ⟨w, hw, hwx, hph⟩ | ⟨hno, hne, hst⟩
  · exact absurd hph w.phase_ne.1
  · obtain ⟨h1, h2⟩ := hi.fresh x h0 hst
    refine ⟨?_, ?_⟩
    · rcases he.latestWts with h3 | h3
      · rw [hwts, h3]; exact hne.symm
      · rw [hwts, h3]; exact h1
    · rcases hl.maxFrom with h3 | ⟨w, hw, h3⟩
      · rw [hmax, h3, he.maxServedRts]; exact h2
      · rw [hmax, ← h3]; exact hno w hw

theorem Ended.served (hi : RowInv g v₀ st) (he : Ended g v₀ st ts h u) (hu : u.updateBuffer g m ts = some (row, ws))
    {p : Nat × Option V} (hp : p ∈ readsOf row.mem ws ++ st.served) : p.1 ≤ max row.latestWts row.maxServedRts := by
  obtain ⟨t, hl, hrow⟩ := (he.updated hi hu).1.loop
  have hwts : row.latestWts = u.latestWts := by rw [hrow]; exact hl.latestWts
  have hmax : row.maxServedRts = t.maxServedRts := by rw [hrow]
  rcases List.mem_append.1 hp with hp | hp
  · obtain ⟨w, hw, hwt, rfl⟩ := mem_readsOf hp
    have := (hl.read w hw hwt).1
    show w.ts ≤ _
    omega
  · have := hi.served p hp
    have h2 := hl.maxMono
    have h3 := he.mono
    have h4 := he.maxServedRts
    omega

/-- The prewrite of `ts` has ended and `update_buffer` has released the next requests. -/
theorem resumed (hi : RowInv g v₀ st) (he : Ended g v₀ st ts h u) (hu : u.updateBuffer g m ts = some (row, ws)) :
    RowInv g v₀ ({ st with commits := h }.resume ts row ws) := by
  obtain ⟨hup, hts⟩ := he.updated hi hu
  obtain ⟨r, hr⟩ := he.holder
  obtain ⟨-, hpt⟩ := hi.granted ts r hr
  obtain ⟨t, hl, hrow⟩ := hup.loop
  refine ⟨?_, (he.pre hi hu :), fun x y hx => ?_, fun q hq => (he.pend hi hu hq :), fun x ty hx => ?_,
    fun x h0 hx => (he.fresh hi hu h0 hx :), fun x hx => ?_, fun p hp => (he.served hi hu hp :), fun x y hx => ?_⟩
  · show Core g v₀ h row
    rw [hrow]; exact hl.core.withRequests
  · rcases woken_cases hx Phase.noConfusion with ⟨w, hw, hwx, hph⟩ | ⟨-, hne, hst⟩
    · obtain ⟨hwp, rfl⟩ := Wake.phase_eq_granted hph
      obtain ⟨h1, h2, h3⟩ := hl.grant w hw hwp
      show Writable row w.row ∧ row.prewriteTs = x
      rw [hrow, ← hwx, h1]
      exact ⟨h2, h3⟩
    · exact absurd ((hi.granted x y hst).2.symm.trans hpt) hne
  · rcases woken_cases hx Phase.noConfusion with ⟨w, hw, hwx, hph⟩ | ⟨hno, hne, hst⟩
    · exact absurd hph (w.phase_ne.2 ty)
    · obtain ⟨q, hq, hqx⟩ := hi.waiting x ty hst
      rw [← he.pending] at hq
      refine ⟨q, hup.mem_pending.2 ⟨hq, ?_⟩, hqx⟩
      by_contra hf
      obtain ⟨w, hw, hwq, -⟩ := hup.fired_mem (mem_pending.1 hq).1 (by simpa using hf)
      exact hno w hw (hwq.trans hqx)
  · rcases wakeAll_cases (Function.update st.phase ts .finished) ws x with ⟨-, h1⟩ | ⟨w, hw, hwx, -⟩
    · by_cases hne : x = ts
      · exact hi.bound x (by rw [hne, hr]; exact Phase.noConfusion)
      · refine hi.bound x fun h => hx ?_
        exact h1.trans ((Function.update_of_ne hne ..).trans h)
    · rw [← hwx]
      exact hi.bound w.ts (by rw [(he.released hi hu hw).1]; exact Phase.noConfusion)
  · rcases woken_cases hx Phase.noConfusion with ⟨w, hw, hwx, hph⟩ | ⟨-, -, hst⟩
    · have hwt := (he.released hi hu hw).2.resolve_right (Wake.phase_eq_reading hph).1
      refine ⟨row.mem w.row, List.mem_append_left _ (List.mem_map.2 ⟨w, List.mem_filter.2 ⟨hw, by simp [hwt]⟩, ?_⟩)⟩
      rw [hwx]
    · obtain ⟨v, hv⟩ := hi.recorded x y hst
      exact ⟨v, List.mem_append_right _ hv⟩

end Resumed

theorem step (hi : RowInv g v₀ st) {a : RowEv V} (h : st.step g a = some st') : RowInv g v₀ st' := by
  cases RowStep.of_step h with
  | readAbort hf hlt =>
    exact hi.move hf.2.1 hf.off
      (.inl rfl) hi.core rfl rfl rfl (fun _ h => h) rfl (.inl rfl) hi.served
      (fun _ h => h) (fun _ => Phase.noConfusion)
  | preAbort hf =>
    exact hi.move hf.2.1 hf.off
      (.inl rfl) hi.core rfl rfl rfl (fun _ h => h) rfl (.inl rfl) hi.served
      (fun _ h => h) (fun _ => Phase.noConfusion)
  | finish hr =>
    exact hi.move (hi.bound _ (by rw [hr]; exact Phase.noConfusion)) 
      ⟨by rw [hr]; exact fun _ => Phase.noConfusion, by rw [hr]; exact fun _ => Phase.noConfusion⟩ (.inl rfl)
      hi.core rfl rfl rfl (fun _ h => h) rfl (.inl rfl) hi.served
      (fun _ h => h) (fun _ => Phase.noConfusion)
  | readWait hf hw hp hpt hb => exact hi.enqueue hf (.inl rfl) hp (Nat.le_of_lt hpt) hb
  | preWait hf hp hpt hb => exact hi.enqueue hf (.inr rfl) hp hpt hb
  | preGrant hf hp hw hm hs => exact hi.grant hf hp hw hm hs
  | @readLatest ts row r hf hw hp hs =>
    obtain ⟨hc, hl, hmax⟩ := serveLatest_spec hi.core (hi.lt_prewriteTs hf hp) hs
    refine hi.move hf.2.1 hf.off
      (.inr ⟨r, rfl⟩) hc hl.existsPrewrite hl.prewriteTs hl.requests (fun x hx => hl.writable hx) hl.latestWts ?_
      (List.forall_mem_cons.2 ⟨?_, fun p hp => ?_⟩) (fun _ => List.mem_cons_of_mem _)
      (fun _ _ => ⟨_, List.mem_cons_self ..⟩)
    · rcases Nat.le_total st.row.maxServedRts ts with hle | hle
      · exact .inr (by omega)
      · exact .inl (by omega)
    · show ts ≤ _
      omega
    · have := hi.served p hp
      have := hl.latestWts
      omega
  | @readOld ts row r hf ho hw hs =>
    have hold : ∀ row : RowMvcc V, row.latestWts = st.row.latestWts → row.maxServedRts = st.row.maxServedRts →
        ∀ p ∈ (ts, row.mem r) :: st.served, p.1 ≤ max row.latestWts row.maxServedRts := by
      intro row h1 h2
      rw [h1, h2]
      exact List.forall_mem_cons.2 ⟨by show ts ≤ _; omega, hi.served⟩
    rcases readHistory_cases hs with ⟨-, hlat⟩ | ⟨e, -, -, -, -, rfl, -⟩
    · obtain ⟨hc, hl, hmax⟩ := withLatest_spec hi.core hlat
      exact hi.move hf.2.1 hf.off
        (.inr ⟨r, rfl⟩) hc hl.existsPrewrite hl.prewriteTs hl.requests (fun x hx => hl.writable hx) hl.latestWts
        (.inl hmax) (hold row hl.latestWts hmax) (fun _ => List.mem_cons_of_mem _)
        (fun _ _ => ⟨_, List.mem_cons_self ..⟩)
    · exact hi.move hf.2.1 hf.off
        (.inr ⟨r, rfl⟩) hi.core rfl rfl rfl (fun _ h => h) rfl (.inl rfl) (hold st.row rfl rfl)
        (fun _ => List.mem_cons_of_mem _) (fun _ _ => ⟨_, List.mem_cons_self ..⟩)
  | modify hg =>
    exact ⟨hi.core.setRow (hi.granted _ _ hg).1 _, hi.pre, hi.granted, hi.pend, hi.waiting, hi.fresh, hi.bound,
      hi.served,
      hi.recorded⟩
  | write hg hv hc hu => exact hi.resumed (hi.ended_commit hg hv hc).1 hu
  | undo hg hc hu => exact hi.resumed (hi.ended_release hg hc) hu

theorem reach {G : RowSt V → RowEv V → Prop} (h : (rowLts g v₀).Reach G st) : RowInv g v₀ st :=
  h.inv (fun _ h0 => by rw [h0]; exact .init v₀) fun _ _ _ hi _ hs => hi.step hs

end RowInv

/-- The bytes of the newest committed version, `v₀` if there is none. -/
def lastValue (v₀ : V) (h : List (Nat × V)) : V := (h.head?.map Prod.snd).getD v₀

theorem RowInv.page_eq (hi : RowInv g v₀ st) : st.row.page = lastValue v₀ st.commits := hi.core.data.page

theorem RowInv.granted_unique (hi : RowInv g v₀ st) {t t' : Nat} {r r' : RowId} (h : st.phase t = .granted r)
    (h' : st.phase t' = .granted r') : t = t' := (hi.granted t r h).2.symm.trans (hi.granted t' r' h').2

/-! ### The representation invariant -/

/-- What the comments and the disabled checks of `row_mvcc.h` and `row_mvcc.cpp` say of the fields. -/
structure RepInv (gThreadCnt : Nat) (s : RowMvcc V) : Prop where
  num : s.numVersions = s.writeHistory.countP (·.valid)
  distinct : ∀ (i j : Nat) (e f : WriteHisEntry), s.writeHistory[i]? = some e → s.writeHistory[j]? = some f →
    e.valid = true → f.valid = true → e.ts = f.ts → i = j
  range : ∀ e ∈ s.writeHistory, e.valid = true → s.oldestWts < e.ts ∧ e.ts ≤ s.latestWts
  top : (∃ e ∈ s.writeHistory, e.valid = true) → ∃ e ∈ s.writeHistory, e.valid = true ∧ e.ts = s.latestWts
  reserved : ∀ (i : Nat) (e : WriteHisEntry), s.writeHistory[i]? = some e →
    (e.reserved = true ∧ e.valid = false ↔ s.existsPrewrite = true ∧ i = s.prewriteHisId)
  pre : s.existsPrewrite = true →
    s.prewriteHisId < s.hisLen ∧ s.latestWts < s.prewriteTs ∧ s.maxServedRts < s.prewriteTs
  pending : ∀ q ∈ s.requests, q.valid = true → s.existsPrewrite = true ∧ s.prewriteTs < q.ts
  latest : s.latestRow = none ∧ s.row = none ∧ s.numVersions = 0 ∨
    ∃ r, s.latestRow = some r ∧
      (s.row = some r ∨ ∃ e ∈ s.writeHistory, e.valid = true ∧ e.ts = s.latestWts ∧ e.row = some r)
  len : s.hisLen = 4 ∨ s.hisLen < 2 * gThreadCnt

variable [Inhabited V]

/-- In every run the representation invariant holds after every call. -/
theorem repInv_of_reach (gThreadCnt : Nat) (v₀ : V) (h : (rowLts gThreadCnt v₀).Reach Lts.Any st) :
    RepInv gThreadCnt st.row := by
  have hi := RowInv.reach h
  have hs := hi.core.hist
  refine ⟨hs.num, hs.distinct, hs.range, fun ⟨e, he, hv⟩ => hs.top e he hv, hs.reserved, hs.pre, fun q hq hv => ?_, ?_,
    hs.len⟩
  · obtain ⟨h1, h2, -⟩ := hi.pend q (mem_pending.2 ⟨hq, hv⟩)
    exact ⟨h1, h2⟩
  · cases hl : st.row.latestRow with
    | none => exact .inl ⟨rfl, hs.latestNone hl⟩
    | some r => exact .inr ⟨r, rfl, hs.latestSome r hl⟩

/-- A run with a released read and a released prewrite. -/
theorem repInv_after_release : ∃ st, (rowLts 1 (0 : Nat)).run (.init 0)
    [.prewrite 2 0, .read 3, .prewrite 4 0, .modify 2 7, .write 2 0] = some st ∧ RepInv 1 st.row := by
  obtain ⟨st, hst⟩ := Option.isSome_iff_exists.1 (show ((rowLts 1 (0 : Nat)).run (.init 0)
    [.prewrite 2 0, .read 3, .prewrite 4 0, .modify 2 7, .write 2 0]).isSome = true by decide +kernel)
  exact ⟨st, hst, repInv_of_reach 1 0 (.run (.init rfl) hst)⟩

/-! ### Reads and writes in timestamp order -/

theorem step_served {a : RowEv V} (h : st.step g a = some st') : ∀ p ∈ st.served, p ∈ st'.served := by
  intro p hp
  cases RowStep.of_step h with
  | readLatest => exact List.mem_cons_of_mem _ hp
  | readOld => exact List.mem_cons_of_mem _ hp
  | write => exact List.mem_append_right _ hp
  | undo => exact List.mem_append_right _ hp
  | _ => exact hp

theorem step_write_granted {w m : Nat} (h : st.step g (.write w m) = some st') : ∃ x, st.phase w = .granted x := by
  cases RowStep.of_step h with
  | write hg => exact ⟨_, hg⟩

/-- Once a read is served, only writes above it commit; the commits are in timestamp order. -/
theorem writes_above_served_reads (gThreadCnt : Nat) (v₀ : V) (h : (rowLts gThreadCnt v₀).Reach Lts.Any st) :
    (∀ (r : Nat) (v : Option V) (evs : List (RowEv V)) (st' st'' : RowSt V) (w minTs : Nat), (r, v) ∈ st.served →
      (rowLts gThreadCnt v₀).run st evs = some st' → st'.step gThreadCnt (.write w minTs) = some st'' → r < w) ∧
    st.commits.Pairwise (fun later earlier => earlier.1 < later.1) := by
  refine ⟨fun r v evs st' st'' w minTs hr hrun hw => ?_, (RowInv.reach h).core.data.sorted⟩
  have hr' : (r, v) ∈ st'.served :=
    Lts.run_keeps (P := fun st => (r, v) ∈ st.served) (fun _ _ _ hs hp => step_served hs _ hp) hrun hr
  obtain ⟨x, hx⟩ := step_write_granted hw
  exact (RowInv.reach (h.run hrun)).served_lt_granted hr' hx

/-- A read at 2 is served, then 3 writes. -/
theorem write_above_served_read : ∃ st st' : RowSt Nat, (rowLts 1 0).run (.init 0) [.read 2] = some st ∧
    (2, some 0) ∈ st.served ∧ (rowLts 1 0).run st [.prewrite 3 0] = some st' ∧
    ∃ st'', st'.step 1 (.write 3 0) = some st'' ∧ 2 < 3 := by
  have hrun : (((rowLts 1 (0 : Nat)).run (.init 0) [.read 2]).any fun st => decide ((2, some 0) ∈ st.served) &&
      ((rowLts 1 (0 : Nat)).run st [.prewrite 3 0]).any fun st' => (st'.step 1 (.write 3 0)).isSome) = true := by
    decide +kernel
  simp only [Option.any_eq_true, Bool.and_eq_true, decide_eq_true_eq, Option.isSome_iff_exists] at hrun
  obtain ⟨st, h1, hr, st', h2, st'', h3⟩ := hrun
  exact ⟨st, st', h1, hr, h2, st'', h3,
    (writes_above_served_reads 1 0 (.run (.init rfl) h1)).1 2 _ _ _ _ 3 0 hr h2 h3⟩

end Dbx1000
