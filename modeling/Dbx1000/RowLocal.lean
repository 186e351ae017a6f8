import Dbx1000.RowBuffer

/-!
# A row store whose page is written from outside

When the page of a row moves between instances, its slot changes without the store's doing, while
`_latest_row` and the versions stay what this instance committed last (`own`). A store between two
transactions (`RowOwn`) satisfies the invariant of `RowOps` for the slot it would have alone. One
write transaction is then followed through: the prewrite is granted and holds either `own` or the
slot (the slot if `_latest_row` has to be loaded again), and `W_REQ` makes the new bytes both. No
assertion of the store fails on the way.
-/

namespace Dbx1000
namespace RowMvcc

open WriteHisEntry

variable {V : Type} {g : Nat} {v₀ : V} {h : List (Nat × V)} {s s' : RowMvcc V}

/-! ### No assertion fails -/

theorem recycle_isSome {m : Nat} {wh : List WriteHisEntry} (hrow : ∀ e ∈ wh, e.valid = true → e.row.isSome = true)
    (l : Option RowId) (n : Nat) : ∃ r, recycle m wh l n = some r := by
  induction wh generalizing l n with
  | nil => exact ⟨_, rfl⟩
  | cons e es ih =>
    have hes := ih fun f hf => hrow f (List.mem_cons_of_mem _ hf)
    rw [recycle]
    split
    · rename_i hv
      obtain ⟨r, hr⟩ := hes (if l = e.row then none else l) (n - 1)
      rw [if_pos (hrow e List.mem_cons_self (Bool.and_eq_true_iff.1 hv).1), hr]
      exact ⟨_, rfl⟩
    · obtain ⟨r, hr⟩ := hes l n
      rw [hr]
      exact ⟨_, rfl⟩

theorem collect_isSome (hh : Heap s) (minTs : Nat) : ∃ u, s.collect minTs = some u := by
  unfold collect
  split
  · split
    · obtain ⟨r, hr⟩ := recycle_isSome (fun e he hv => hh.hasRow e he (.inl hv)) s.latestRow s.numVersions
      rw [hr]
      exact ⟨_, rfl⟩
    · exact ⟨_, rfl⟩
  · exact ⟨_, rfl⟩

theorem freeEntry_lt {wh : List WriteHisEntry} (hfree : ∃ e ∈ wh, e.Free) (i idx : Nat) :
    freeEntry wh i idx < i + wh.length := by
  have hlt : ∀ {es : List WriteHisEntry} {j : Nat} {f : WriteHisEntry}, es[j]? = some f → j < es.length :=
    fun hj => (List.getElem?_eq_some_iff.1 hj).1
  induction wh generalizing i idx with
  | nil => obtain ⟨e, he, -⟩ := hfree; cases he
  | cons e es ih =>
    rw [freeEntry, List.length_cons]
    split
    · omega
    split
    · rcases freeEntry_cases es (i + 1) i with hi | ⟨j, f, hj, -, hi⟩
      · omega
      · have := hlt hj
        omega
    · rename_i hno
      obtain ⟨f, hf, hff⟩ := hfree
      rcases List.mem_cons.1 hf with rfl | hf
      · exact absurd hff (by simpa [Free] using hno)
      · have := ih ⟨f, hf, hff⟩ (i + 1) idx
        omega

theorem pickEntry_isSome (hs : Hist g s) (hh : Heap s) (hp : s.existsPrewrite = false)
    (hb : s.latestWts < uint64Max) : ∃ r, s.pickEntry g = some r := by
  unfold pickEntry
  split
  · rename_i hnum
    -- an entry that is not valid is free, there being no prewrite
    have hfree : ∃ e ∈ s.writeHistory, e.Free := by
      by_contra hno
      refine Nat.ne_of_lt hnum ?_
      rw [hs.num]
      refine List.countP_eq_length.2 fun e he => ?_
      by_contra hv
      have hv : e.valid = false := by simpa using hv
      refine hno ⟨e, he, hv, ?_⟩
      obtain ⟨i, hi⟩ := List.mem_iff_getElem?.1 he
      by_contra hr
      have := ((hs.reserved i e hi).1 ⟨by simpa using hr, hv⟩).1
      rw [hp] at this; cases this
    have := freeEntry_lt hfree 0 s.hisLen
    rw [if_pos (by rw [hisLen] at *; omega)]
    exact ⟨_, rfl⟩
  · rename_i hnum
    split
    · have hfull : s.numVersions = s.hisLen := Nat.le_antisymm hs.num_le (Nat.not_lt.1 hnum)
      have hlen := hs.four
      rcases s.minVersion_cases with ⟨-, hmax⟩ | ⟨j, e, hj, hv, hm, -⟩
      · obtain ⟨e, he⟩ : ∃ e, e ∈ s.writeHistory := List.exists_mem_of_length_pos (by rw [hisLen] at hlen; omega)
        have hv := hs.valid_of_full hfull he
        have := hmax e he hv
        have := (hs.range e he hv).2
        omega
      · rw [hm, hj]
        have he := List.mem_of_getElem? hj
        refine ⟨_, if_pos ⟨(hs.range e he hv).1, hh.hasRow e he (.inl hv)⟩⟩
    · exact ⟨_, rfl⟩

section Total

variable [Inhabited V]

theorem reserveRow_isSome (hs : Hist g s) (hh : Heap s) (hp : s.existsPrewrite = false)
    (hb : s.latestWts < uint64Max) (minTs ts : Nat) : ∃ r, s.reserveRow g minTs ts = some r := by
  obtain ⟨u, hu⟩ := collect_isSome hh minTs
  have hok : Hist g u ∧ Heap u ∧ u.existsPrewrite = false ∧ u.latestWts < uint64Max := by
    rcases collect_cases hs.num (fun e he hv => (hs.range e he hv).1) hu with ⟨rfl, -⟩ | ⟨-, e, he, hv, -, -, rfl⟩
    · exact ⟨hs, hh, hp, hb⟩
    · exact ⟨hs.dropTo hh hp he hv, hh.dropTo _, hp, hb⟩
  obtain ⟨⟨t, idx⟩, ht⟩ := pickEntry_isSome hok.1 hok.2.1 hok.2.2.1 hok.2.2.2
  obtain ⟨e, he⟩ : ∃ e, t.writeHistory[idx]? = some e := by
    rcases pickEntry_cases ht with ⟨-, rfl, e, he, -⟩ | ⟨-, -, e, he, -, -, rfl⟩ | ⟨-, -, rfl, rfl⟩
    · exact ⟨e, he⟩
    · exact ⟨e, he⟩
    · exact ⟨_, getElem?_doubleHistory_hisLen hok.1.four⟩
  simp only [reserveRow, hp, Bool.false_eq_true, if_false, hu, ht, Option.bind_eq_bind, Option.bind_some, reserveEntry,
    he]
  cases e.row <;> exact ⟨_, rfl⟩

end Total

/-- Without pending requests `update_buffer` does nothing. -/
theorem updateBuffer_quiet [Inhabited V] (hq : ∀ q ∈ s.requests, q.valid = false) (minTs ts : Nat) :
    s.updateBuffer g minTs ts = some (s, []) := by
  have hloop : ∀ (next : Nat) (qs : List ReqEntry), (∀ q ∈ qs, q.valid = false) →
      updateLoop g minTs ts next qs s = some (qs, s, []) := by
    intro next qs hqs
    induction qs with
    | nil => rfl
    | cons q qs ih =>
      rw [updateLoop, if_neg (by rw [hqs q List.mem_cons_self]; exact Bool.false_ne_true),
        ih fun x hx => hqs x (List.mem_cons_of_mem _ hx)]
      rfl
  rw [updateBuffer, hloop _ _ hq]
  rfl

/-! ### The slot of the row in its page -/

def withPage (w : V) (s : RowMvcc V) : RowMvcc V := { s with page := w }

theorem Hist.withPage (hs : Hist g s) (w : V) : Hist g (s.withPage w) :=
  ⟨hs.four, hs.len, hs.num, hs.range, hs.distinct, hs.top, hs.oldest, hs.reserved, hs.pre, hs.latestNone,
    hs.latestSome, hs.rowNone, hs.rowLatest⟩

theorem Heap.withPage (hh : Heap s) (w : V) : Heap (s.withPage w) :=
  ⟨hh.inj, hh.apart, hh.live, hh.liveRow, hh.hasRow⟩

/-- With no row loaded and no version left, the slot may hold anything. -/
theorem Core.rebase (hc : Core g v₀ h s) (hl : s.latestRow = none) (w : V) :
    ∃ v₁ h₁, Core g v₁ h₁ (s.withPage w) := by
  have hd := hc.data
  have hinv : ∀ e ∈ s.writeHistory, e.valid ≠ true := by
    have hnum := (hc.hist.latestNone hl).2
    rw [hc.hist.num] at hnum
    exact List.countP_eq_zero.1 hnum
  have hlatest : ∀ r, s.latestRow = some r → s.mem r = some w := fun r hr => by rw [hl] at hr; cases hr
  cases h with
  | nil =>
    exact ⟨w, [], hc.hist.withPage w, hc.heap.withPage w, hd.sorted, hd.wts, rfl, hlatest,
      fun e he hv => absurd hv (hinv e he), nofun⟩
  | cons c h =>
    refine ⟨v₀, (c.1, w) :: h, hc.hist.withPage w, hc.heap.withPage w, ?_, hd.wts, rfl, hlatest,
      fun e he hv => absurd hv (hinv e he), fun d hdm hlt => ?_⟩
    · rw [List.pairwise_cons]
      exact List.pairwise_cons.1 hd.sorted
    · rcases List.mem_cons.1 hdm with rfl | hdm
      · exact hd.kept c List.mem_cons_self hlt
      · exact hd.kept d (List.mem_cons_of_mem _ hdm) hlt

theorem collect_withPage (w : V) (minTs : Nat) : (s.withPage w).collect minTs = (s.collect minTs).map (withPage w) := by
  unfold collect
  show (if s.oldestWts < minTs ∧ s.numVersions = s.hisLen then
    if (s.maxRecycle minTs).2 ≠ s.hisLen then _ else _ else _) = _
  split
  · split
    · show (recycle (s.maxRecycle minTs).1 s.writeHistory s.latestRow s.numVersions).bind _ = _
      cases recycle (s.maxRecycle minTs).1 s.writeHistory s.latestRow s.numVersions <;> rfl
    · rfl
  · rfl

theorem pickEntry_withPage (w : V) :
    (s.withPage w).pickEntry g = (s.pickEntry g).map fun r => (r.1.withPage w, r.2) := by
  unfold pickEntry
  show (if s.numVersions < s.hisLen then if freeEntry s.writeHistory 0 s.hisLen < s.hisLen then _ else _
    else if g ≤ s.hisLen then _ else _) = _
  split
  · split <;> rfl
  · split
    · show (s.writeHistory[s.minVersion.2]?).bind _ = _
      cases s.writeHistory[s.minVersion.2]? with
      | none => rfl
      | some e =>
        show (if s.oldestWts < s.minVersion.1 ∧ e.row.isSome then _ else _) = Option.map _ (if _ then _ else _)
        split <;> rfl
    · rfl

section Reserve

variable [Inhabited V]

theorem reserveEntry_withPage (w : V) (ts idx : Nat) :
    (s.withPage w).reserveEntry ts idx = (s.reserveEntry ts idx).map fun r => (r.1.withPage w, r.2) := by
  unfold reserveEntry
  show (s.writeHistory[idx]?).bind _ = _
  cases s.writeHistory[idx]? with
  | none => rfl
  | some e => cases hr : e.row <;> simp only [hr, Option.bind_some, Option.bind_eq_bind] <;> rfl

/-- `reserveRow` does not look at the page. -/
theorem reserveRow_withPage (w : V) (minTs ts : Nat) :
    (s.withPage w).reserveRow g minTs ts = (s.reserveRow g minTs ts).map fun r => (r.1.withPage w, r.2) := by
  unfold reserveRow
  show (if s.existsPrewrite then _ else _) = _
  split
  · rfl
  · rw [collect_withPage]
    cases hu : s.collect minTs with
    | none => rfl
    | some u =>
      simp only [Option.map_some, Option.bind_eq_bind, Option.bind_some, pickEntry_withPage]
      cases ht : u.pickEntry g with
      | none => rfl
      | some t => simp only [Option.map_some, Option.bind_some, reserveEntry_withPage]

end Reserve

/-! ### One write transaction -/

/-- A store between two transactions: `own` are the bytes it committed last, no prewrite is outstanding,
nobody waits and nobody reads. -/
structure RowOwn (g : Nat) (own : V) (s : RowMvcc V) : Prop where
  core : ∃ v₀ h, Core g v₀ h (s.withPage own)
  free : s.existsPrewrite = false
  quiet : ∀ q ∈ s.requests, q.valid = false
  unread : s.maxServedRts = 0
  row : s.row = none

/-- The store of a transaction that holds the row `r`. -/
structure RowPre (g ts : Nat) (r : RowId) (s : RowMvcc V) : Prop where
  core : ∃ w v₀ h, Core g v₀ h (s.withPage w)
  writable : Writable s r
  wts : s.latestWts < ts
  quiet : ∀ q ∈ s.requests, q.valid = false
  unread : s.maxServedRts = 0

theorem RowOwn.init (v : V) : RowOwn g v (RowMvcc.init v) := by
  refine ⟨⟨v, [], .init v⟩, rfl, fun q hq => ?_, rfl, rfl⟩
  rw [(List.mem_replicate.1 hq).2]

/-- The page comes from another instance. -/
theorem RowOwn.withPage {own : V} (ho : RowOwn g own s) (w : V) : RowOwn g own (s.withPage w) :=
  ⟨ho.core, ho.free, ho.quiet, ho.unread, ho.row⟩

/-- A `P_REQ` finds no `_latest_row`, or its garbage collection drops the latest version. -/
def Reloads (minTs : Nat) (s : RowMvcc V) : Prop :=
  s.latestRow = none ∨ s.numVersions = s.hisLen ∧ s.latestWts < minTs

instance (minTs : Nat) (s : RowMvcc V) : Decidable (s.Reloads minTs) :=
  inferInstanceAs (Decidable (_ ∨ _ ∧ _))

theorem RowPre.setRow {ts : Nat} {r : RowId} (hp : RowPre g ts r s) (v : V) : RowPre g ts r (s.setRow r v) := by
  obtain ⟨w, v₀, h, hc⟩ := hp.core
  exact ⟨⟨w, v₀, h, hc.setRow hp.writable v⟩, hp.writable, hp.wts, hp.quiet, hp.unread⟩

/-- When all versions are older than `minTs` and the history is full, none is left. -/
theorem collect_latestRow {minTs : Nat} (hs : Hist g s) (hrow : s.row = none) (hre : s.Reloads minTs)
    {u : RowMvcc V} (hu : s.collect minTs = some u) : u.latestRow = none := by
  rcases collect_cases hs.num (fun e he hv => (hs.range e he hv).1) hu with
    ⟨rfl, hno⟩ | ⟨-, e, he, hv, hlt, hmax, rfl⟩
  · refine hre.elim id fun ⟨hfull, hwts⟩ => ?_
    have hlen := hs.four
    obtain ⟨e, he⟩ : ∃ e, e ∈ u.writeHistory := List.exists_mem_of_length_pos (by rw [hisLen] at hlen; omega)
    have hv := hs.valid_of_full hfull he
    have := hno hfull e he hv
    have := (hs.range e he hv).2
    omega
  · show (if _ then none else s.latestRow) = none
    split
    · rfl
    · rename_i hkeep
      cases hl : s.latestRow with
      | none => rfl
      | some r =>
        -- the latest version is below `minTs` too, so it is dropped with the rest
        rcases hs.latestSome r hl with h' | ⟨f, hf, hfv, hft, hfr⟩
        · rw [hrow] at h'; cases h'
        · have hwts : s.latestWts < minTs := by
            rcases hre with h' | ⟨-, h'⟩
            · rw [hl] at h'; cases h'
            · exact h'
          exact absurd ⟨f, hf, hfv, hmax f hf hfv (by omega), hfr.trans hl.symm⟩ hkeep

theorem commit_eq {ts : Nat} {row : RowId} {e : WriteHisEntry} {v : V} (hi : s.writeHistory[s.prewriteHisId]? = some e)
    (hv : s.mem row = some v) (hlt : s.latestWts < ts) (her : e.row = some row) :
    s.commit ts row = some (s.committed ts row e v) := by
  simp only [commit, hi, hv, Option.bind_eq_bind, Option.bind_some, if_pos (And.intro hlt her), deleteRow_eq]
  rfl

variable [Inhabited V]

theorem reserveRow_latestRow {minTs ts : Nat} {r : RowId} (hs : Hist g s) (hrow : s.row = none)
    (hre : s.Reloads minTs) (hr : s.reserveRow g minTs ts = some (s', r)) : s'.latestRow = none := by
  unfold reserveRow at hr
  split at hr
  · cases hr
  simp only [Option.bind_eq_bind, Option.bind_eq_some_iff, Prod.exists] at hr
  obtain ⟨u, hu, t, idx, ht, hr⟩ := hr
  have hul := collect_latestRow hs hrow hre hu
  have htl : t.latestRow = u.latestRow := by
    rcases pickEntry_cases ht with ⟨-, rfl, -⟩ | ⟨-, -, -, -, -, -, rfl⟩ | ⟨-, -, rfl, -⟩ <;> rfl
  simp only [reserveEntry, Option.bind_eq_bind, Option.bind_eq_some_iff] at hr
  obtain ⟨e, -, hr⟩ := hr
  split at hr <;> cases hr <;> exact htl.trans hul

/-- `grant` hands out the bytes of the store's own last commit or those of the page. -/
theorem RowOwn.grant {own : V} (ho : RowOwn g own s) {ts : Nat} (hw : s.latestWts < ts) (hb : ts < uint64Max)
    (minTs : Nat) :
    ∃ s' r w, s.grant g minTs ts = some (s', r) ∧ s'.mem r = some w ∧ RowPre g ts r s' ∧ s'.page = s.page ∧
      s'.latestWts = s.latestWts ∧ (w = own ∨ w = s.page) ∧ (s.Reloads minTs → w = s.page) := by
  obtain ⟨v₀, h, hc⟩ := ho.core
  have hs : Hist g s := hc.hist.withPage s.page
  obtain ⟨⟨u, r⟩, hu⟩ := reserveRow_isSome hs (hc.heap.withPage s.page) ho.free (Nat.lt_trans hw hb) minTs ts
  have hpage : u.page = s.page := by
    have hu' := reserveRow_withPage (s := s) (g := g) s.page minTs ts
    rw [show s.withPage s.page = s from rfl, hu] at hu'
    have hpages : u = u.withPage s.page := (Prod.ext_iff.1 (Option.some.inj hu')).1
    rw [hpages]; rfl
  have hu' : (s.withPage own).reserveRow g minTs ts = some (u.withPage own, r) := by
    rw [reserveRow_withPage, hu]; rfl
  have hcu := reserveRow_core hc hw (Nat.lt_of_le_of_lt (Nat.le_of_eq ho.unread) (Nat.zero_lt_of_lt hw)) hu'
  obtain ⟨hwr, -, -, hwts, hmax, hreq, -⟩ := reserveRow_granted hc hu'
  have hlt : u.latestWts < ts := Nat.lt_of_le_of_lt (Nat.le_of_eq hwts) hw
  have hquiet : ∀ q ∈ u.requests, q.valid = false := fun q hq => ho.quiet q (hreq ▸ hq)
  have hgrant : s.grant g minTs ts = u.withLatest.bind fun t => (t.1.mem t.2).bind fun v =>
      some (t.1.setRow r v, r) := by rw [RowMvcc.grant, hu]; rfl
  cases hl : u.latestRow with
  | some l =>
    have hml : u.mem l = some own := hcu.data.latest l hl
    refine ⟨u.setRow r own, r, own, ?_, Function.update_self .., ⟨⟨own, v₀, h, hcu.setRow hwr own⟩, hwr,
      hlt, hquiet, hmax.trans ho.unread⟩, hpage, hwts, .inl rfl, fun hre => ?_⟩
    · rw [hgrant, withLatest, hl]
      simp only [Option.bind_some, hml]
    · rw [reserveRow_latestRow hs ho.row hre hu] at hl; cases hl
  | none =>
    -- no version is left: the row is loaded from the page
    obtain ⟨v₁, h₁, hc₁⟩ := hcu.rebase hl s.page
    obtain ⟨hrow, hnum⟩ := hcu.hist.latestNone hl
    have hcl : Core g v₁ h₁ (u.load.withPage s.page) := by
      have := hc₁.load hl
      rwa [show (u.withPage own).withPage s.page = u by rw [← hpage]; rfl,
        show u.load = u.load.withPage s.page by rw [← hpage]; rfl] at this
    refine ⟨u.load.setRow r s.page, r, s.page, ?_, Function.update_self .., ⟨⟨s.page, v₁, h₁, hcl.setRow hwr s.page⟩,
      hwr, hlt, hquiet, hmax.trans ho.unread⟩, hpage, hwts, .inr rfl, fun _ => rfl⟩
    have hwl : u.withLatest = some (u.load, u.nextRow) := by
      rw [withLatest, hl]
      have hnone : u.latestRow = none ∧ u.numVersions = 0 ∧ u.row = none := ⟨hl, hnum, hrow⟩
      simp only [getLatestRow, if_pos hnone]
      rfl
    rw [hgrant, hwl, ← hpage]
    simp only [Option.bind_some, load, Function.update_self]

/-- The prewrite of a transaction above the last commit is granted. -/
theorem RowOwn.prewriteReq {own : V} (ho : RowOwn g own s) {ts : Nat} (hw : s.latestWts < ts) (hb : ts < uint64Max)
    (minTs : Nat) :
    ∃ s' r w, s.prewriteReq g minTs ts = some (s', ⟨.rcok, some r, []⟩) ∧ s'.mem r = some w ∧ RowPre g ts r s' ∧
      s'.page = s.page ∧ s'.latestWts = s.latestWts ∧ (w = own ∨ w = s.page) ∧ (s.Reloads minTs → w = s.page) := by
  obtain ⟨s', r, w, hg, hrest⟩ := ho.grant hw hb minTs
  refine ⟨s', r, w, ?_, hrest⟩
  rw [RowMvcc.prewriteReq, if_neg (by rw [ho.free, ho.unread]; simp; omega),
    if_neg (by rw [ho.free]; exact Bool.false_ne_true), hg]
  rfl

/-- `W_REQ` makes the bytes of the granted row the store's own and the page's. -/
theorem RowPre.wReq {ts : Nat} {r : RowId} {v : V} (hp : RowPre g ts r s) (hv : s.mem r = some v) (minTs : Nat) :
    ∃ s', s.access g minTs ts .wReq r = some (s', ⟨.rcok, none, []⟩) ∧ RowOwn g v s' ∧ s'.page = v ∧
      s'.latestWts = ts := by
  obtain ⟨w, v₀, h, hc⟩ := hp.core
  obtain ⟨hpre, e, hi, her⟩ := hp.writable
  obtain ⟨v', hv', -, hc', -⟩ := commit_spec hc hpre (commit_eq (s := s.withPage w) hi hv hp.wts her)
  obtain rfl : v = v' := Option.some.inj (hv.symm.trans hv')
  refine ⟨s.committed ts r e v, ?_, ⟨⟨v₀, _, hc'⟩, rfl, hp.quiet, hp.unread, rfl⟩, rfl, rfl⟩
  simp only [access, commit_eq hi hv hp.wts her, Option.bind_eq_bind, Option.bind_some,
    updateBuffer_quiet (s := s.committed ts r e v) hp.quiet]
  rfl

end RowMvcc
end Dbx1000
