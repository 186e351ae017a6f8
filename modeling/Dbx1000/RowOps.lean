import Dbx1000.RowCore

/-!
# The operations of the version store

One lemma per operation of `Row_mvcc`, in terms of the bundled invariant `Core`: the load of the
latest row, serving a read from it, granting a prewrite, committing and releasing it. Callers
(`access`, `update_buffer` and the runs over them) cite these and never unfold the operations.
-/

namespace Dbx1000
namespace RowMvcc

open WriteHisEntry

variable {V : Type} {g : Nat} {v₀ : V} {h : List (Nat × V)} {s s' t : RowMvcc V}

structure Core (g : Nat) (v₀ : V) (h : List (Nat × V)) (s : RowMvcc V) : Prop where
  hist : Hist g s
  heap : Heap s
  data : Data v₀ h s

theorem Core.init (v : V) : Core g v [] (RowMvcc.init v) := ⟨.init v, .init v, .init v⟩

theorem Core.withRequests {reqs : List ReqEntry} (hc : Core g v₀ h s) : Core g v₀ h { s with requests := reqs } := by
  have hs := hc.hist
  exact ⟨⟨hs.four, hs.len, hs.num, hs.range, hs.distinct, hs.top, hs.oldest, hs.reserved, hs.pre, hs.latestNone,
    hs.latestSome, hs.rowNone, hs.rowLatest⟩, ⟨hc.heap.inj, hc.heap.apart, hc.heap.live, hc.heap.liveRow,
    hc.heap.hasRow⟩, ⟨hc.data.sorted, hc.data.wts, hc.data.page, hc.data.latest, hc.data.version, hc.data.kept⟩⟩

namespace Hist

theorem num_le (hs : Hist g s) : s.numVersions ≤ s.hisLen := by
  rw [hs.num]; exact List.countP_le_length

theorem valid_of_full (hs : Hist g s) (hf : s.numVersions = s.hisLen) {e : WriteHisEntry}
    (he : e ∈ s.writeHistory) : e.valid = true := by
  rw [hs.num] at hf
  exact List.countP_eq_length.1 hf e he

theorem numVersions_dropTo_lt {e : WriteHisEntry} (he : e ∈ s.writeHistory) :
    (s.dropTo e.ts).numVersions < s.hisLen := by
  have hle : (s.writeHistory.map (WriteHisEntry.drop e.ts)).countP (·.valid) ≤ s.hisLen := by
    refine Nat.le_trans List.countP_le_length ?_
    rw [List.length_map]; exact Nat.le_refl _
  refine Nat.lt_of_le_of_ne hle fun heq => ?_
  have := List.countP_eq_length.1 (heq.trans (List.length_map ..).symm) _ (List.mem_map_of_mem he)
  have := (drop_valid.1 this).2
  omega

/-- Dropping the oldest version of a full history changes its entry only, and not `_latest_row`. -/
theorem dropTo_oldest (hs : Hist g s) (hh : Heap s) (hf : s.numVersions = s.hisLen) {idx : Nat}
    {e : WriteHisEntry} (hi : s.writeHistory[idx]? = some e) (hmin : ∀ f ∈ s.writeHistory, e.ts ≤ f.ts) :
    s.dropTo e.ts = { s with oldestWts := e.ts, writeHistory := s.writeHistory.set idx (e.drop e.ts),
                             numVersions := s.numVersions - 1 } := by
  have hev := hs.valid_of_full hf (List.mem_of_getElem? hi)
  have hlt : idx < s.writeHistory.length := (List.getElem?_eq_some_iff.1 hi).1
  have hwh : s.writeHistory.map (WriteHisEntry.drop e.ts) = s.writeHistory.set idx (e.drop e.ts) := by
    apply List.ext_getElem?
    intro j
    rw [List.getElem?_map, List.getElem?_set]
    split
    · subst j; rw [hi]; rfl
    · rename_i hne
      cases hj : s.writeHistory[j]? with
      | none => rfl
      | some f =>
        have hfm := List.mem_of_getElem? hj
        have hne' : f.ts ≠ e.ts := fun hts =>
          hne (hs.distinct _ _ _ _ hi hj hev (hs.valid_of_full hf hfm) hts.symm)
        have := hmin f hfm
        exact congrArg some (drop_of_lt (by omega))
  have hlatest : ¬ ∃ f ∈ s.writeHistory, f.valid = true ∧ f.ts ≤ e.ts ∧ f.row = s.latestRow := by
    rintro ⟨f, hfm, hfv, hfe, hfr⟩
    obtain ⟨r, hr⟩ := Option.isSome_iff_exists.1 (hh.hasRow f hfm (.inl hfv))
    rcases hs.latestSome r (by rw [← hfr, hr]) with h' | ⟨t, ht, htv, htw, htr⟩
    · rw [hs.rowNone f hfm hfv] at h'; cases h'
    · -- the oldest version would be the latest one, but a full history has two versions
      obtain ⟨j, hj⟩ := List.mem_iff_getElem?.1 hfm
      obtain ⟨k, hk⟩ := List.mem_iff_getElem?.1 ht
      obtain rfl := hh.inj j k f t r hj hk hr htr
      rw [hj] at hk; cases hk
      have h4 := hs.four
      have hall : ∀ (i : Nat) (hi : i < s.writeHistory.length), s.writeHistory[i].ts = f.ts := by
        intro i hi
        have hm := List.getElem_mem hi
        have h1 := (hs.range _ hm (hs.valid_of_full hf hm)).2
        have h2 := hmin _ hm
        omega
      have h0 : 0 < s.writeHistory.length := by unfold hisLen at h4; omega
      have h1 : 1 < s.writeHistory.length := by unfold hisLen at h4; omega
      have := hs.distinct 0 1 _ _ (List.getElem?_eq_getElem h0) (List.getElem?_eq_getElem h1)
        (hs.valid_of_full hf (List.getElem_mem h0)) (hs.valid_of_full hf (List.getElem_mem h1))
        ((hall 0 h0).trans (hall 1 h1).symm)
      omega
  have hnum : (s.writeHistory.set idx (e.drop e.ts)).countP (·.valid) = s.numVersions - 1 := by
    have hget : s.writeHistory[idx] = e := (List.getElem?_eq_some_iff.1 hi).2
    have hdr : (e.drop e.ts).valid = false := (drop_free_of hev (Nat.le_refl _)).1
    rw [List.countP_set hlt, hget, hev, hdr, hs.num]; simp
  rw [RowMvcc.dropTo, hwh, if_neg hlatest, hnum]

end Hist

/-! ### `reserveRow` -/

/-- How `reserveRow` makes room: the history it leaves before an entry is taken. -/
def Prepared (g minTs : Nat) (s t : RowMvcc V) : Prop :=
  (s.numVersions < s.hisLen ∧ t = s) ∨
    (s.numVersions = s.hisLen ∧ ∃ e ∈ s.writeHistory, e.valid = true ∧ t = s.dropTo e.ts ∧
      (e.ts < minTs ∨ g ≤ s.hisLen ∧ ∀ f ∈ s.writeHistory, minTs ≤ f.ts ∧ e.ts ≤ f.ts)) ∨
    (s.numVersions = s.hisLen ∧ s.hisLen < g ∧ t = s.doubleHistory)

theorem Prepared.core {minTs : Nat} (hp : s.existsPrewrite = false) (hc : Core g v₀ h s)
    (ht : Prepared g minTs s t) : Core g v₀ h t := by
  rcases ht with ⟨-, rfl⟩ | ⟨-, e, he, hv, rfl, -⟩ | ⟨-, hg, rfl⟩
  · exact hc
  · exact ⟨hc.hist.dropTo hc.heap hp he hv, hc.heap.dropTo _,
      hc.data.dropTo (Nat.le_of_lt (hc.hist.range e he hv).1)⟩
  · exact ⟨hc.hist.doubleHistory hg, hc.heap.doubleHistory, hc.data.doubleHistory⟩

/-- What making room leaves alone. -/
theorem Prepared.frame {minTs : Nat} (ht : Prepared g minTs s t) :
    t.existsPrewrite = s.existsPrewrite ∧ t.latestWts = s.latestWts ∧ t.maxServedRts = s.maxServedRts ∧
      t.requests = s.requests ∧ t.page = s.page ∧ t.mem = s.mem ∧ t.nextRow = s.nextRow ∧ t.row = s.row := by
  rcases ht with ⟨-, rfl⟩ | ⟨-, e, he, hv, rfl, -⟩ | ⟨-, hg, rfl⟩ <;> exact ⟨rfl, rfl, rfl, rfl, rfl, rfl, rfl, rfl⟩

section Reserve

variable [Inhabited V]

theorem reserveEntry_cases {ts idx : Nat} {r : RowId} {e : WriteHisEntry} (hi : s.writeHistory[idx]? = some e)
    (hr : s.reserveEntry ts idx = some (s', r)) :
    (e.row = some r ∧ s' = s.takeEntry ts idx r s.mem s.nextRow) ∨
      (e.row = none ∧ r = s.nextRow ∧
        s' = s.takeEntry ts idx r (Function.update s.mem r (some default)) (s.nextRow + 1)) := by
  unfold reserveEntry at hr
  rw [hi] at hr
  simp only [Option.bind_eq_bind, Option.bind_some] at hr
  split at hr
  · rename_i x hx
    cases hr
    exact .inl ⟨hx, rfl⟩
  · rename_i hx
    cases hr
    exact .inr ⟨hx, rfl, rfl⟩

theorem reserveRow_cases {minTs ts : Nat} {r : RowId} (hc : Core g v₀ h s)
    (hr : s.reserveRow g minTs ts = some (s', r)) :
    s.existsPrewrite = false ∧ ∃ t idx e, Prepared g minTs s t ∧ t.writeHistory[idx]? = some e ∧ e.Free ∧
      ((e.row = some r ∧ s' = t.takeEntry ts idx r t.mem t.nextRow) ∨
        (e.row = none ∧ r = t.nextRow ∧
          s' = t.takeEntry ts idx r (Function.update t.mem r (some default)) (t.nextRow + 1))) := by
  unfold reserveRow at hr
  split at hr
  · cases hr
  rename_i hp
  have hp : s.existsPrewrite = false := by simpa using hp
  refine ⟨hp, ?_⟩
  simp only [Option.bind_eq_bind, Option.bind_eq_some_iff, Prod.exists] at hr
  obtain ⟨u, hu, t, idx, ht, hr⟩ := hr
  have hs := hc.hist
  rcases collect_cases hs.num (fun e he hv => (hs.range e he hv).1) hu with
    ⟨hus, hno⟩ | ⟨hfull, e, he, hv, hlt, -, rfl⟩
  · rw [hus] at ht
    rcases pickEntry_cases ht with ⟨hnum, hts, e, hi, hf⟩ | ⟨hnum, hg, e, hi, hv, hmin, rfl⟩ | ⟨hnum, hg, rfl, rfl⟩
    · rw [hts] at hr
      exact ⟨s, idx, e, .inl ⟨hnum, rfl⟩, hi, hf, reserveEntry_cases hi hr⟩
    · have hfull : s.numVersions = s.hisLen := Nat.le_antisymm hs.num_le hnum
      have hmin' : ∀ f ∈ s.writeHistory, e.ts ≤ f.ts := fun f hf => hmin f hf (hs.valid_of_full hfull hf)
      have heq := hs.dropTo_oldest hc.heap hfull hi hmin'
      have hlt : idx < s.writeHistory.length := (List.getElem?_eq_some_iff.1 hi).1
      have hi' : (s.dropTo e.ts).writeHistory[idx]? = some (e.drop e.ts) := by
        rw [heq]; exact List.getElem?_set_self hlt
      refine ⟨s.dropTo e.ts, idx, e.drop e.ts, .inr (.inl ⟨hfull, e, List.mem_of_getElem? hi, hv, rfl,
        .inr ⟨hg, fun f hf => ⟨hno hfull f hf (hs.valid_of_full hfull hf), hmin' f hf⟩⟩⟩), hi',
        drop_free_of hv (Nat.le_refl _), ?_⟩
      rw [drop_row]
      have hset : ∀ x, (s.writeHistory.set idx (e.drop e.ts)).set idx x = s.writeHistory.set idx x :=
        fun x => List.set_set ..
      rcases reserveEntry_cases (s := { s with oldestWts := e.ts, numVersions := s.numVersions - 1 }) hi hr with
        ⟨h1, rfl⟩ | ⟨h1, rfl, rfl⟩
      · exact .inl ⟨h1, by rw [heq]; simp only [takeEntry, hset]⟩
      · exact .inr ⟨h1, by rw [heq], by rw [heq]; simp only [takeEntry, hset]⟩
    · have hi := getElem?_doubleHistory_hisLen hs.four
      exact ⟨_, _, _, .inr (.inr ⟨Nat.le_antisymm hs.num_le hnum, hg, rfl⟩), hi, ⟨rfl, rfl⟩, reserveEntry_cases hi hr⟩
  · have hlt' := Hist.numVersions_dropTo_lt he
    have hlen : (s.dropTo e.ts).hisLen = s.hisLen := hisLen_dropTo _
    rcases pickEntry_cases ht with ⟨hnum, rfl, f, hi, hf⟩ | ⟨hnum, -⟩ | ⟨hnum, -⟩
    · exact ⟨_, idx, f, .inr (.inl ⟨hfull, e, he, hv, rfl, .inl hlt⟩), hi, hf, reserveEntry_cases hi hr⟩
    · omega
    · omega

/-- `reserveRow` keeps the store's invariant when the new prewrite is above every committed and every
served timestamp. -/
theorem reserveRow_core {minTs ts : Nat} {r : RowId} (hc : Core g v₀ h s) (hw : s.latestWts < ts)
    (hm : s.maxServedRts < ts) (hr : s.reserveRow g minTs ts = some (s', r)) : Core g v₀ h s' := by
  obtain ⟨hp, t, idx, e, ht, hi, hf, hs'⟩ := reserveRow_cases hc hr
  have hct := ht.core hp hc
  obtain ⟨htp, htw, htm, -⟩ := ht.frame
  rw [← htp] at hp
  rw [← htw] at hw
  rw [← htm] at hm
  rcases hs' with ⟨her, rfl⟩ | ⟨her, rfl, rfl⟩
  · have hlive := hct.heap.live e (List.mem_of_getElem? hi) r her
    exact ⟨hct.hist.takeEntry hp hi hf hw hm,
      hct.heap.takeEntry (fun j f hj hfr => hct.heap.inj j idx f e r hj hi hfr her)
        (fun hrow => hct.heap.apart r hrow e (List.mem_of_getElem? hi) her) (fun _ _ hx => hx)
        (Nat.le_refl _) hlive,
      .takeEntry hct.hist hct.heap hct.data hi hf fun _ _ => rfl⟩
  · have hmem : ∀ x, x < t.nextRow → Function.update t.mem t.nextRow (some default) x = t.mem x :=
      fun x hx => Function.update_of_ne (Nat.ne_of_lt hx) ..
    refine ⟨hct.hist.takeEntry hp hi hf hw hm,
      hct.heap.takeEntry (fun j f hj hfr => ?_) (fun hrow => ?_) (fun x hx hsome => by rwa [hmem x hx])
        (Nat.le_succ _) ⟨Nat.lt_succ_self _, by rw [Function.update_self]; rfl⟩,
      .takeEntry hct.hist hct.heap hct.data hi hf hmem⟩
    · exact absurd (hct.heap.live f (List.mem_of_getElem? hj) _ hfr).1 (Nat.lt_irrefl _)
    · exact absurd (hct.heap.liveRow _ hrow).1 (Nat.lt_irrefl _)

end Reserve

/-! ### The latest row -/

/-- The store after `GetLatestRow`. -/
def load (s : RowMvcc V) : RowMvcc V :=
  { s with row := some s.nextRow, latestRow := some s.nextRow,
           mem := Function.update s.mem s.nextRow (some s.page), nextRow := s.nextRow + 1 }

theorem withLatest_cases {r : RowId} (hr : s.withLatest = some (s', r)) :
    (s.latestRow = some r ∧ s' = s) ∨ (s.latestRow = none ∧ r = s.nextRow ∧ s' = s.load) := by
  unfold withLatest at hr
  split at hr
  · rename_i x hx
    cases hr
    exact .inl ⟨hx, rfl⟩
  · rename_i hx
    simp only [Option.bind_eq_bind, Option.bind_eq_some_iff] at hr
    obtain ⟨u, hu, y, hy, hr⟩ := hr
    unfold getLatestRow at hu
    split at hu
    · cases hu; cases hy; cases hr
      exact .inr ⟨hx, rfl, rfl⟩
    · cases hu

theorem Core.load (hc : Core g v₀ h s) (hl : s.latestRow = none) : Core g v₀ h s.load := by
  obtain ⟨hrow, hnum⟩ := hc.hist.latestNone hl
  have hinv : ∀ e ∈ s.writeHistory, e.valid ≠ true := by
    rw [hc.hist.num] at hnum
    exact List.countP_eq_zero.1 hnum
  have hs := hc.hist
  have hmem : ∀ x, x < s.nextRow → s.load.mem x = s.mem x :=
    fun x hx => Function.update_of_ne (Nat.ne_of_lt hx) ..
  have hself : s.load.mem s.nextRow = some s.page := Function.update_self ..
  refine ⟨⟨hs.four, hs.len, hs.num, hs.range, hs.distinct, hs.top, hs.oldest, hs.reserved, hs.pre,
    fun h' => (by cases h'), fun r hr => .inl hr, fun e he hv => absurd hv (hinv e he), fun r hr => hr⟩,
    ⟨hc.heap.inj, fun r hr e he her => ?_, fun e he r hr => ?_, fun r hr => ?_, hc.heap.hasRow⟩,
    ⟨hc.data.sorted, hc.data.wts, hc.data.page, fun r hr => ?_, fun e he hv => absurd hv (hinv e he),
      hc.data.kept⟩⟩
  · cases hr
    exact absurd (hc.heap.live e he _ her).1 (Nat.lt_irrefl _)
  · obtain ⟨h1, h2⟩ := hc.heap.live e he r hr
    exact ⟨Nat.lt_succ_of_lt h1, by rwa [hmem r h1]⟩
  · cases hr
    exact ⟨Nat.lt_succ_self _, by rw [hself]; rfl⟩
  · cases hr
    exact hself

/-- A read of the latest row leaves everything but `row_`, `_latest_row` and `_max_served_rts`. -/
structure Latest (s s' : RowMvcc V) (r : RowId) : Prop where
  latest : s'.latestRow = some r
  bytes : s'.mem r = some s.page
  live : r < s'.nextRow
  page : s'.page = s.page
  writeHistory : s'.writeHistory = s.writeHistory
  latestWts : s'.latestWts = s.latestWts
  oldestWts : s'.oldestWts = s.oldestWts
  existsPrewrite : s'.existsPrewrite = s.existsPrewrite
  prewriteTs : s'.prewriteTs = s.prewriteTs
  prewriteHisId : s'.prewriteHisId = s.prewriteHisId
  requests : s'.requests = s.requests
  nextRow : s.nextRow ≤ s'.nextRow
  mem : ∀ x, x < s.nextRow → s'.mem x = s.mem x
  row : ∀ x, s.row = some x → s'.row = some x

theorem withLatest_spec {r : RowId} (hc : Core g v₀ h s) (hr : s.withLatest = some (s', r)) :
    Core g v₀ h s' ∧ Latest s s' r ∧ s'.maxServedRts = s.maxServedRts := by
  rcases withLatest_cases hr with ⟨hl, rfl⟩ | ⟨hl, rfl, rfl⟩
  · exact ⟨hc, ⟨hl, hc.data.latest r hl, (latest_live hc.hist hc.heap hl).1, rfl, rfl, rfl, rfl, rfl, rfl,
      rfl, rfl, Nat.le_refl _, fun _ _ => rfl, fun _ hx => hx⟩, rfl⟩
  · refine ⟨hc.load hl, ⟨rfl, Function.update_self .., Nat.lt_succ_self _, rfl, rfl, rfl, rfl, rfl, rfl, rfl,
      rfl, Nat.le_succ _, fun x hx => Function.update_of_ne (Nat.ne_of_lt hx) .., fun x hx => ?_⟩, rfl⟩
    rw [(hc.hist.latestNone hl).1] at hx; cases hx

theorem serveLatest_spec {ts : Nat} {r : RowId} (hc : Core g v₀ h s)
    (hts : s.existsPrewrite = true → ts < s.prewriteTs) (hr : s.serveLatest ts = some (s', r)) :
    Core g v₀ h s' ∧ Latest s s' r ∧ s'.maxServedRts = max s.maxServedRts ts := by
  unfold serveLatest at hr
  simp only [Option.bind_eq_bind, Option.bind_eq_some_iff, Prod.exists] at hr
  obtain ⟨u, y, hu, hr⟩ := hr
  cases hr
  obtain ⟨hcu, hl, hmax⟩ := withLatest_spec hc hu
  have hs := hcu.hist
  have heq : (if u.maxServedRts < ts then ts else u.maxServedRts) = max s.maxServedRts ts := by
    rw [hmax]; split <;> omega
  refine ⟨⟨⟨hs.four, hs.len, hs.num, hs.range, hs.distinct, hs.top, hs.oldest, hs.reserved, fun hp => ?_,
    hs.latestNone, hs.latestSome, hs.rowNone, hs.rowLatest⟩,
    ⟨hcu.heap.inj, hcu.heap.apart, hcu.heap.live, hcu.heap.liveRow, hcu.heap.hasRow⟩,
    ⟨hcu.data.sorted, hcu.data.wts, hcu.data.page, hcu.data.latest, hcu.data.version, hcu.data.kept⟩⟩,
    ⟨hl.latest, hl.bytes, hl.live, hl.page, hl.writeHistory, hl.latestWts, hl.oldestWts, hl.existsPrewrite,
      hl.prewriteTs, hl.prewriteHisId, hl.requests, hl.nextRow, hl.mem, hl.row⟩, heq⟩
  obtain ⟨h1, h2, h3⟩ := hs.pre hp
  refine ⟨h1, h2, ?_⟩
  have := hts (by rw [← hl.existsPrewrite]; exact hp)
  show (if u.maxServedRts < ts then ts else u.maxServedRts) < u.prewriteTs
  rw [hl.prewriteTs] at h3 ⊢
  split <;> omega

/-! ### Granting a prewrite -/

/-- `r` is the row reserved for the outstanding prewrite. -/
def Writable (s : RowMvcc V) (r : RowId) : Prop :=
  s.existsPrewrite = true ∧ ∃ e, s.writeHistory[s.prewriteHisId]? = some e ∧ e.row = some r

/-- The bytes `v` copied into the row `r`. -/
def setRow (r : RowId) (v : V) (s : RowMvcc V) : RowMvcc V :=
  { s with mem := Function.update s.mem r (some v) }

section Writable

variable {r x : RowId}

theorem Latest.writable (hl : Latest s s' r) (hw : Writable s x) : Writable s' x := by
  obtain ⟨hp, e, he, her⟩ := hw
  exact ⟨by rw [hl.existsPrewrite]; exact hp, e, by rw [hl.writeHistory, hl.prewriteHisId]; exact he, her⟩

/-- The reserved row is no version's. -/
theorem Writable.ne_version (hs : Hist g s) (hh : Heap s) (hw : Writable s r) {e : WriteHisEntry}
    (he : e ∈ s.writeHistory) (hv : e.valid = true) : e.row ≠ some r := by
  obtain ⟨hp, f, hf, hfr⟩ := hw
  intro her
  obtain ⟨i, hi⟩ := List.mem_iff_getElem?.1 he
  obtain rfl := hh.inj i _ e f r hi hf her hfr
  rw [hi] at hf; cases hf
  have := ((hs.reserved _ e hi).2 ⟨hp, rfl⟩).2
  rw [hv] at this; cases this

theorem Writable.ne_row (hh : Heap s) (hw : Writable s r) : s.row ≠ some r := by
  obtain ⟨-, f, hf, hfr⟩ := hw
  exact fun h' => hh.apart r h' f (List.mem_of_getElem? hf) hfr

theorem Writable.ne_latest (hs : Hist g s) (hh : Heap s) (hw : Writable s r) : s.latestRow ≠ some r := by
  intro hl
  rcases hs.latestSome r hl with h' | ⟨e, he, hv, -, her⟩
  · exact hw.ne_row hh h'
  · exact hw.ne_version hs hh he hv her

/-- Writing into the reserved row changes no version. -/
theorem Core.setRow (hc : Core g v₀ h s) (hw : Writable s r) (v : V) : Core g v₀ h (s.setRow r v) := by
  have hs := hc.hist
  have hsome : ∀ x, (s.mem x).isSome = true → (Function.update s.mem r (some v) x).isSome = true := by
    intro x hx
    by_cases hxr : x = r
    · rw [hxr, Function.update_self]; rfl
    · rwa [Function.update_of_ne hxr]
  refine ⟨⟨hs.four, hs.len, hs.num, hs.range, hs.distinct, hs.top, hs.oldest, hs.reserved, hs.pre, hs.latestNone,
    hs.latestSome, hs.rowNone, hs.rowLatest⟩, ⟨hc.heap.inj, hc.heap.apart, fun e he x hx => ?_, fun x hx => ?_,
    hc.heap.hasRow⟩, ⟨hc.data.sorted, hc.data.wts, hc.data.page, fun x hx => ?_, fun e he hv x hx => ?_,
    hc.data.kept⟩⟩
  · obtain ⟨h1, h2⟩ := hc.heap.live e he x hx
    exact ⟨h1, hsome x h2⟩
  · obtain ⟨h1, h2⟩ := hc.heap.liveRow x hx
    exact ⟨h1, hsome x h2⟩
  · have hne : x ≠ r := fun h' => hw.ne_latest hs hc.heap (by rw [← h']; exact hx)
    show Function.update s.mem r (some v) x = _
    rw [Function.update_of_ne hne]
    exact hc.data.latest x hx
  · have hne : x ≠ r := fun h' => hw.ne_version hs hc.heap he hv (by rw [← h']; exact hx)
    show ∃ v', _ ∧ Function.update s.mem r (some v) x = _
    rw [Function.update_of_ne hne]
    exact hc.data.version e he hv x hx

end Writable

/-- A granted prewrite: `r` is reserved for `ts` and holds the bytes of the page. -/
structure Granted (g minTs ts : Nat) (s s' : RowMvcc V) (r : RowId) : Prop where
  writable : Writable s' r
  preTs : s'.prewriteTs = ts
  bytes : s'.mem r = some s.page
  page : s'.page = s.page
  latestWts : s'.latestWts = s.latestWts
  maxServedRts : s'.maxServedRts = s.maxServedRts
  requests : s'.requests = s.requests
  nextRow : s.nextRow ≤ s'.nextRow
  mem : ∀ x, x < s.nextRow → x ≠ r → s'.mem x = s.mem x
  row : ∀ x, s.row = some x → s'.row = some x
  room : ∃ t, Prepared g minTs s t ∧ ∀ e ∈ t.writeHistory, e.valid = true → e ∈ s'.writeHistory

section Grant

variable [Inhabited V]

theorem reserveRow_granted {minTs ts : Nat} {r : RowId} (hc : Core g v₀ h s)
    (hr : s.reserveRow g minTs ts = some (s', r)) :
    Writable s' r ∧ s'.prewriteTs = ts ∧ s'.page = s.page ∧ s'.latestWts = s.latestWts ∧
      s'.maxServedRts = s.maxServedRts ∧ s'.requests = s.requests ∧ s'.row = s.row ∧
      s.nextRow ≤ s'.nextRow ∧ (∀ x, x < s.nextRow → s'.mem x = s.mem x) ∧
      ∃ t, Prepared g minTs s t ∧ ∀ e ∈ t.writeHistory, e.valid = true → e ∈ s'.writeHistory := by
  obtain ⟨hp, t, idx, e, ht, hi, hf, hs'⟩ := reserveRow_cases hc hr
  obtain ⟨-, htw, htm, htr, htp, hmem, hnext, hrow⟩ := ht.frame
  have hlt : idx < t.writeHistory.length := (List.getElem?_eq_some_iff.1 hi).1
  have hroom : ∀ mem n x, ∀ f ∈ t.writeHistory, f.valid = true →
      f ∈ (t.takeEntry ts idx x mem n).writeHistory := by
    intro mem n x f hft hfv
    obtain ⟨j, hj⟩ := List.mem_iff_getElem?.1 hft
    exact mem_set_of_ne hj (ne_idx_of_valid hj hfv hi hf.1)
  rcases hs' with ⟨her, rfl⟩ | ⟨her, rfl, rfl⟩
  · exact ⟨⟨rfl, _, List.getElem?_set_self hlt, rfl⟩, rfl, htp, htw, htm, htr, hrow, Nat.le_of_eq hnext.symm,
      fun x _ => congrFun hmem x, t, ht, hroom _ _ _⟩
  · refine ⟨⟨rfl, _, List.getElem?_set_self hlt, rfl⟩, rfl, htp, htw, htm, htr, hrow, ?_, fun x hx => ?_, t, ht,
      hroom _ _ _⟩
    · show s.nextRow ≤ t.nextRow + 1
      rw [hnext]; exact Nat.le_succ _
    · show Function.update t.mem t.nextRow _ x = _
      rw [hnext, Function.update_of_ne (Nat.ne_of_lt hx), hmem]

theorem grant_spec {minTs ts : Nat} {r : RowId} (hc : Core g v₀ h s) (hw : s.latestWts < ts)
    (hm : s.maxServedRts < ts) (hr : s.grant g minTs ts = some (s', r)) :
    Core g v₀ h s' ∧ Granted g minTs ts s s' r := by
  unfold grant at hr
  simp only [Option.bind_eq_bind, Option.bind_eq_some_iff, Prod.exists] at hr
  obtain ⟨u, res, hu, w, l, hwl, v, hv, hr⟩ := hr
  cases hr
  have hcu := reserveRow_core hc hw hm hu
  obtain ⟨⟨hup, e, he, her⟩, hut, hpage, hwts, hmax, hreq, hrow, hnext, hmem, t, ht, hroom⟩ :=
    reserveRow_granted hc hu
  obtain ⟨hcw, hl, hlmax⟩ := withLatest_spec hcu hwl
  have hw : Writable w r := ⟨by rw [hl.existsPrewrite]; exact hup, e,
    by rw [hl.writeHistory, hl.prewriteHisId]; exact he, her⟩
  obtain rfl : u.page = v := by
    have := hl.bytes; rw [hv] at this; exact (Option.some.inj this).symm
  refine ⟨hcw.setRow hw u.page, hw, hl.prewriteTs.trans hut, ?_, hl.page.trans hpage, hl.latestWts.trans hwts,
    hlmax.trans hmax, hl.requests.trans hreq, Nat.le_trans hnext hl.nextRow, fun x hx hne => ?_,
    fun x hx => hl.row x (hrow.trans hx), t, ht, fun f hf hfv => ?_⟩
  · rw [← hpage]; exact Function.update_self ..
  · show Function.update w.mem r _ x = _
    rw [Function.update_of_ne hne, hl.mem x (Nat.lt_of_lt_of_le hx hnext), hmem x hx]
  · show f ∈ w.writeHistory
    rw [hl.writeHistory]; exact hroom f hf hfv

end Grant

/-! ### Committing and releasing a prewrite -/

theorem deleteRow_eq : s.deleteRow =
    { s with row := none, mem := fun x => if s.row = some x then none else s.mem x } := by
  unfold deleteRow
  split
  · rename_i r hr
    congr 1
    funext x
    by_cases hx : x = r
    · rw [hx, Function.update_self, if_pos hr]
    · rw [Function.update_of_ne hx, if_neg (by rw [hr]; exact fun h' => hx (Option.some.inj h').symm)]
  · rename_i hr
    have hmem : (fun x => if s.row = some x then none else s.mem x) = s.mem := by
      funext x
      rw [hr, if_neg (by simp)]
    rw [hmem, ← hr]

theorem Data.le_wts (hd : Data v₀ h s) {c : Nat × V} (hc : c ∈ h) : c.1 ≤ s.latestWts := by
  rw [hd.wts]
  match h, hc, hd.sorted with
  | d :: h, hc, hsorted =>
    rcases List.mem_cons.1 hc with rfl | hc
    · exact Nat.le_refl _
    · exact Nat.le_of_lt (List.rel_of_pairwise_cons hsorted hc)

/-- What `W_REQ` leaves before `update_buffer`, besides the invariant. -/
structure Committed (s s' : RowMvcc V) (ts : Nat) (v : V) : Prop where
  lt : s.latestWts < ts
  page : s'.page = v
  latestWts : s'.latestWts = ts
  oldestWts : s'.oldestWts = s.oldestWts
  existsPrewrite : s'.existsPrewrite = false
  maxServedRts : s'.maxServedRts = s.maxServedRts
  requests : s'.requests = s.requests
  nextRow : s'.nextRow = s.nextRow
  numVersions : s'.numVersions = s.numVersions + 1
  hisLen : s'.hisLen = s.hisLen
  mem : ∀ x, s.row ≠ some x → s'.mem x = s.mem x
  kept : ∀ e ∈ s.writeHistory, e.valid = true → e ∈ s'.writeHistory
  versions : ∀ e ∈ s'.writeHistory, e.valid = true → e.ts = ts ∨ e ∈ s.writeHistory
  latest : ∃ e ∈ s'.writeHistory, e.valid = true ∧ e.ts = ts ∧ e.row = s'.latestRow

section Commit

variable {ts : Nat} {row : RowId} {e : WriteHisEntry} {v : V}

/-- The store after `W_REQ` of `ts`, its prewrite being the entry `e`. -/
def committed (ts : Nat) (row : RowId) (e : WriteHisEntry) (v : V) (s : RowMvcc V) : RowMvcc V :=
  { s with
    writeHistory := s.writeHistory.set s.prewriteHisId { e with valid := true, ts := ts }
    latestWts := ts, latestRow := some row, page := v, row := none
    mem := fun x => if s.row = some x then none else s.mem x
    existsPrewrite := false, numVersions := s.numVersions + 1 }

theorem commit_cases (hr : s.commit ts row = some s') :
    ∃ e v, s.writeHistory[s.prewriteHisId]? = some e ∧ s.mem row = some v ∧ s.latestWts < ts ∧
      e.row = some row ∧ s' = s.committed ts row e v := by
  unfold commit at hr
  simp only [Option.bind_eq_bind, Option.bind_eq_some_iff] at hr
  obtain ⟨e, he, v, hv, hr⟩ := hr
  split at hr
  · rename_i hif
    cases hr
    refine ⟨e, v, he, hv, hif.1, hif.2, ?_⟩
    rw [deleteRow_eq, committed]
  · cases hr

theorem Hist.commit (hs : Hist g s) (hp : s.existsPrewrite = true) (hi : s.writeHistory[s.prewriteHisId]? = some e)
    (hlt : s.latestWts < ts) (her : e.row = some row) : Hist g (s.committed ts row e v) := by
  have hidx : s.prewriteHisId < s.writeHistory.length := (List.getElem?_eq_some_iff.1 hi).1
  have hev : e.valid = false := ((hs.reserved _ e hi).2 ⟨hp, rfl⟩).2
  have hlen : (s.committed ts row e v).hisLen = s.hisLen := List.length_set ..
  have hnum : (s.writeHistory.set s.prewriteHisId { e with valid := true, ts := ts }).countP (·.valid) =
      s.writeHistory.countP (·.valid) + 1 := by
    have : s.writeHistory[s.prewriteHisId] = e := (List.getElem?_eq_some_iff.1 hi).2
    rw [List.countP_set hidx, this]; simp [hev]
  have hold := hs.oldest
  refine ⟨by rw [hlen]; exact hs.four, by rw [hlen]; exact hs.len, ?_, fun f hf hv => ?_,
    fun i j a b hia hjb hav hbv hab => ?_, fun f hf hv => ⟨_, mem_set_self hi, rfl, rfl⟩, ?_, fun i a ha => ?_,
    fun hp' => (by cases hp'), fun h' => (by cases h'), fun x hx => ?_, fun _ _ _ => rfl, fun x hx => (by cases hx)⟩
  · show s.numVersions + 1 = _
    rw [hs.num]; exact hnum.symm
  · rcases mem_set hf with rfl | ⟨i, -, hi'⟩
    · exact ⟨by show s.oldestWts < ts; omega, Nat.le_refl _⟩
    · obtain ⟨h1, h2⟩ := hs.range f (List.mem_of_getElem? hi') hv
      exact ⟨h1, by show f.ts ≤ ts; omega⟩
  · rcases getElem?_set_cases hia with ⟨rfl, rfl⟩ | ⟨-, hia⟩ <;>
      rcases getElem?_set_cases hjb with ⟨rfl, rfl⟩ | ⟨-, hjb⟩
    · rfl
    · have : ts = b.ts := hab
      have := (hs.range b (List.mem_of_getElem? hjb) hbv).2
      omega
    · have : a.ts = ts := hab
      have := (hs.range a (List.mem_of_getElem? hia) hav).2
      omega
    · exact hs.distinct i j a b hia hjb hav hbv hab
  · show s.oldestWts ≤ ts
    omega
  · refine ⟨fun h' => ?_, fun h' => (by cases h'.1)⟩
    rcases getElem?_set_cases ha with ⟨-, rfl⟩ | ⟨hne, ha⟩
    · cases h'.2
    · exact absurd ((hs.reserved i a ha).1 h').2 hne
  · cases hx
    exact .inr ⟨_, mem_set_self hi, rfl, rfl, her⟩

theorem Heap.commit (hh : Heap s) (hi : s.writeHistory[s.prewriteHisId]? = some e) (her : e.row = some row) :
    Heap (s.committed ts row e v) := by
  have hmem : ∀ f ∈ s.writeHistory, ∀ x, f.row = some x → (s.committed ts row e v).mem x = s.mem x :=
    fun f hf x hx => if_neg fun h' => hh.apart x h' f hf hx
  refine ⟨fun i j a b x hia hjb hax hbx => ?_, fun x hx => (by cases hx), fun f hf x hx => ?_,
    fun x hx => (by cases hx), fun f hf hv => ?_⟩
  · rcases getElem?_set_cases hia with ⟨rfl, rfl⟩ | ⟨-, hia⟩ <;>
      rcases getElem?_set_cases hjb with ⟨rfl, rfl⟩ | ⟨-, hjb⟩
    · rfl
    · exact hh.inj _ j e b x hi hjb hax hbx
    · exact hh.inj i _ a e x hia hi hax hbx
    · exact hh.inj i j a b x hia hjb hax hbx
  · rcases mem_set hf with rfl | ⟨i, -, hi'⟩
    · have hm := List.mem_of_getElem? hi
      rw [hmem e hm x hx]; exact hh.live e hm x hx
    · have hm := List.mem_of_getElem? hi'
      rw [hmem f hm x hx]; exact hh.live f hm x hx
  · rcases mem_set hf with rfl | ⟨i, -, hi'⟩
    · rw [show _ = e.row from rfl, her]; rfl
    · exact hh.hasRow f (List.mem_of_getElem? hi') hv

theorem Data.commit (hs : Hist g s) (hh : Heap s) (hd : Data v₀ h s) (hp : s.existsPrewrite = true)
    (hi : s.writeHistory[s.prewriteHisId]? = some e) (hlt : s.latestWts < ts) (her : e.row = some row)
    (hv : s.mem row = some v) : Data v₀ ((ts, v) :: h) (s.committed ts row e v) := by
  have hmem : ∀ f ∈ s.writeHistory, ∀ x, f.row = some x → (s.committed ts row e v).mem x = s.mem x :=
    fun f hf x hx => if_neg fun h' => hh.apart x h' f hf hx
  have hev : e.valid = false := ((hs.reserved _ e hi).2 ⟨hp, rfl⟩).2
  have hrow : (s.committed ts row e v).mem row = some v := (hmem e (List.mem_of_getElem? hi) row her).trans hv
  refine ⟨List.pairwise_cons.2 ⟨fun c hc => Nat.lt_of_le_of_lt (hd.le_wts hc) hlt, hd.sorted⟩, rfl, rfl,
    fun x hx => ?_, fun f hf hfv x hx => ?_, fun c hc hco => ?_⟩
  · cases hx; exact hrow
  · rcases mem_set hf with rfl | ⟨i, -, hi'⟩
    · obtain rfl : x = row := by
        have : e.row = some x := hx
        rw [her] at this; exact (Option.some.inj this).symm
      exact ⟨v, List.mem_cons_self .., hrow⟩
    · have hm := List.mem_of_getElem? hi'
      obtain ⟨w, hw, hwx⟩ := hd.version f hm hfv x hx
      exact ⟨w, List.mem_cons_of_mem _ hw, (hmem f hm x hx).trans hwx⟩
  · rcases List.mem_cons.1 hc with rfl | hc
    · exact ⟨_, mem_set_self hi, rfl, rfl⟩
    · obtain ⟨f, hf, hfv, hfc⟩ := hd.kept c hc hco
      obtain ⟨j, hj⟩ := List.mem_iff_getElem?.1 hf
      exact ⟨f, mem_set_of_ne hj (ne_idx_of_valid hj hfv hi hev), hfv, hfc⟩

theorem commit_spec (hc : Core g v₀ h s) (hp : s.existsPrewrite = true) (hr : s.commit ts row = some s') :
    ∃ v, s.mem row = some v ∧ Writable s row ∧ Core g v₀ ((ts, v) :: h) s' ∧ Committed s s' ts v := by
  obtain ⟨e, v, hi, hv, hlt, her, rfl⟩ := commit_cases hr
  have hev : e.valid = false := ((hc.hist.reserved _ e hi).2 ⟨hp, rfl⟩).2
  refine ⟨v, hv, ⟨hp, e, hi, her⟩, ⟨hc.hist.commit hp hi hlt her, hc.heap.commit hi her,
    .commit hc.hist hc.heap hc.data hp hi hlt her hv⟩, hlt, rfl, rfl, rfl, rfl, rfl, rfl, rfl, rfl, List.length_set ..,
    fun x hx => if_neg hx, fun f hf hfv => ?_, fun f hf hfv => ?_, _, mem_set_self hi, rfl, rfl, her⟩
  · obtain ⟨j, hj⟩ := List.mem_iff_getElem?.1 hf
    exact mem_set_of_ne hj (ne_idx_of_valid hj hfv hi hev)
  · rcases mem_set hf with rfl | ⟨i, -, hi'⟩
    · exact .inl rfl
    · exact .inr (List.mem_of_getElem? hi')

/-! ### `XP_REQ` -/

/-- The store after `XP_REQ`, its prewrite being the entry `e`. -/
def released (e : WriteHisEntry) (s : RowMvcc V) : RowMvcc V :=
  { s with
    writeHistory := s.writeHistory.set s.prewriteHisId { e with valid := false, reserved := false }
    existsPrewrite := false }

theorem release_cases (hr : s.release row = some s') :
    ∃ e, s.writeHistory[s.prewriteHisId]? = some e ∧ e.row = some row ∧ s' = s.released e := by
  unfold release at hr
  simp only [Option.bind_eq_bind, Option.bind_eq_some_iff] at hr
  obtain ⟨e, he, hr⟩ := hr
  split at hr
  · cases hr
    exact ⟨e, he, ‹_›, rfl⟩
  · cases hr

theorem mem_released (hs : Hist g s) (hp : s.existsPrewrite = true) (hi : s.writeHistory[s.prewriteHisId]? = some e)
    {f : WriteHisEntry} (hv : f.valid = true) : f ∈ (s.released e).writeHistory ↔ f ∈ s.writeHistory := by
  have hev : e.valid = false := ((hs.reserved _ e hi).2 ⟨hp, rfl⟩).2
  refine ⟨fun hf => ?_, fun hf => ?_⟩
  · rcases mem_set hf with rfl | ⟨i, -, hi'⟩
    · cases hv
    · exact List.mem_of_getElem? hi'
  · obtain ⟨j, hj⟩ := List.mem_iff_getElem?.1 hf
    exact mem_set_of_ne hj (ne_idx_of_valid hj hv hi hev)

theorem Core.release (hc : Core g v₀ h s) (hp : s.existsPrewrite = true)
    (hi : s.writeHistory[s.prewriteHisId]? = some e) : Core g v₀ h (s.released e) := by
  have hs := hc.hist
  have hidx : s.prewriteHisId < s.writeHistory.length := (List.getElem?_eq_some_iff.1 hi).1
  have hev : e.valid = false := ((hs.reserved _ e hi).2 ⟨hp, rfl⟩).2
  have hlen : (s.released e).hisLen = s.hisLen := List.length_set ..
  have hmem := fun f hv => mem_released hs hp hi (f := f) hv
  have hnum : (s.released e).writeHistory.countP (·.valid) = s.writeHistory.countP (·.valid) := by
    have : s.writeHistory[s.prewriteHisId] = e := (List.getElem?_eq_some_iff.1 hi).2
    rw [released, List.countP_set hidx, this]; simp [hev]
  have hrow : ∀ f ∈ (s.released e).writeHistory, ∃ d ∈ s.writeHistory, d.row = f.row := by
    intro f hf
    rcases mem_set hf with rfl | ⟨i, -, hi'⟩
    · exact ⟨e, List.mem_of_getElem? hi, rfl⟩
    · exact ⟨f, List.mem_of_getElem? hi', rfl⟩
  refine ⟨⟨by rw [hlen]; exact hs.four, by rw [hlen]; exact hs.len, hs.num.trans hnum.symm,
    fun f hf hv => hs.range f ((hmem f hv).1 hf) hv, fun i j a b hia hjb hav hbv hab => ?_, fun f hf hv => ?_,
    hs.oldest,
    fun i a ha => ?_, fun hp' => (by cases hp'), hs.latestNone, fun x hx => ?_,
    fun f hf hv => hs.rowNone f ((hmem f hv).1 hf) hv, hs.rowLatest⟩,
    ⟨fun i j a b x hia hjb hax hbx => ?_, fun x hx f hf hfx => ?_, fun f hf x hx => ?_, hc.heap.liveRow,
      fun f hf hv => ?_⟩,
    ⟨hc.data.sorted, hc.data.wts, hc.data.page, hc.data.latest,
      fun f hf hv => hc.data.version f ((hmem f hv).1 hf) hv, fun c hc' hco => ?_⟩⟩
  · rcases getElem?_set_cases hia with ⟨-, rfl⟩ | ⟨-, hia⟩
    · cases hav
    rcases getElem?_set_cases hjb with ⟨-, rfl⟩ | ⟨-, hjb⟩
    · cases hbv
    exact hs.distinct i j a b hia hjb hav hbv hab
  · obtain ⟨t, ht, htv, htw⟩ := hs.top f ((hmem f hv).1 hf) hv
    exact ⟨t, (hmem t htv).2 ht, htv, htw⟩
  · refine ⟨fun h' => ?_, fun h' => (by cases h'.1)⟩
    rcases getElem?_set_cases ha with ⟨-, rfl⟩ | ⟨hne, ha⟩
    · cases h'.1
    · exact absurd ((hs.reserved i a ha).1 h').2 hne
  · rcases hs.latestSome x hx with h' | ⟨t, ht, htv, h'⟩
    · exact .inl h'
    · exact .inr ⟨t, (hmem t htv).2 ht, htv, h'⟩
  · rcases getElem?_set_cases hia with ⟨rfl, rfl⟩ | ⟨-, hia⟩ <;>
      rcases getElem?_set_cases hjb with ⟨rfl, rfl⟩ | ⟨-, hjb⟩
    · rfl
    · exact hc.heap.inj _ j e b x hi hjb hax hbx
    · exact hc.heap.inj i _ a e x hia hi hax hbx
    · exact hc.heap.inj i j a b x hia hjb hax hbx
  · obtain ⟨d, hd, hdf⟩ := hrow f hf
    exact hc.heap.apart x hx d hd (hdf.trans hfx)
  · obtain ⟨d, hd, hdf⟩ := hrow f hf
    exact hc.heap.live d hd x (hdf.trans hx)
  · rcases mem_set hf with rfl | ⟨i, -, hi'⟩
    · simp at hv
    · exact hc.heap.hasRow f (List.mem_of_getElem? hi') hv
  · obtain ⟨f, hf, hfv, hfc⟩ := hc.data.kept c hc' hco
    exact ⟨f, (hmem f hfv).2 hf, hfv, hfc⟩

end Commit

end RowMvcc
end Dbx1000
