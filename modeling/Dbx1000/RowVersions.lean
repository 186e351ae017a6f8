import Dbx1000.RowInv

/-!
# Which version a read is given

`VersionBelow v₀ h r v`: among the committed versions `h` of a row that first held `v₀`, a read at
`r` must see `v`. A read above `_latest_wts` sees it, and so does a read released by `update_buffer`.
A read between `_oldest_wts` and `_latest_wts` searches the history, and falls back to `_latest_row`
when it finds nothing below `r`, although every version is then above `r`; the search itself compares
against the low 32 bits of the best timestamp so far. `ReadOk` is what such a read needs.
-/

namespace Dbx1000

open RowMvcc

variable {V : Type} {g : Nat} {v₀ : V} {h : List (Nat × V)} {st st' : RowSt V}

/-- The version with the largest timestamp below `r`, the initial row if there is none. -/
def VersionBelow (v₀ : V) (h : List (Nat × V)) (r : Nat) (v : V) : Prop :=
  (∃ w, (w, v) ∈ h ∧ w < r ∧ ∀ c ∈ h, c.1 < r → c.1 ≤ w) ∨ (∀ c ∈ h, r ≤ c.1) ∧ v = v₀

/-- Every served read was given the version below it. -/
def ServedRight (v₀ : V) (st : RowSt V) : Prop :=
  ∀ p ∈ st.served, ∃ v, p.2 = some v ∧ VersionBelow v₀ st.commits p.1 v

/-- Every transaction that was given a row to read was given the right one. -/
structure ReadsRight (v₀ : V) (st : RowSt V) : Prop where
  right : ServedRight v₀ st
  recorded : ∀ t r, st.phase t = .reading r → ∃ v, (t, v) ∈ st.served

/-- Some version is below `ts`, and no entry behind the newest such version exceeds what `the_ts` keeps of it. -/
def RowMvcc.NewestKept (ts : Nat) (s : RowMvcc V) : Prop :=
  ∃ x ∈ s.writeHistory.zipIdx, x.1.valid = true ∧ x.1.ts < ts ∧
    ∀ y ∈ s.writeHistory.zipIdx, y.1.valid = true → y.1.ts < ts →
      y.1.ts ≤ x.1.ts ∧ (x.2 < y.2 → y.1.ts ≤ x.1.ts % 2 ^ 32)

instance (ts : Nat) (s : RowMvcc V) : Decidable (s.NewestKept ts) := inferInstanceAs (Decidable (∃ _ ∈ _, _))

/-- An `R_REQ` that has to search the history finds its version there. -/
def ReadOk (st : RowSt V) : RowEv V → Prop
  | .read ts => st.row.oldestWts ≤ ts → ts ≤ st.row.latestWts → st.row.NewestKept ts
  | _ => True

instance (st : RowSt V) (a : RowEv V) : Decidable (ReadOk st a) :=
  match a with
  | .read _ => inferInstanceAs (Decidable (_ → _ → _))
  | .prewrite .. | .modify .. | .write .. | .undo .. | .finish _ => inferInstanceAs (Decidable True)

/-! ### The abstract version order -/

/-- A later write above `r` does not change what `r` sees. -/
theorem VersionBelow.cons {r w : Nat} {v x : V} (hv : VersionBelow v₀ h r v) (hw : r ≤ w) :
    VersionBelow v₀ ((w, x) :: h) r v := by
  rcases hv with ⟨c, hc, hcr, hmax⟩ | ⟨hall, rfl⟩
  · refine .inl ⟨c, List.mem_cons_of_mem _ hc, hcr, List.forall_mem_cons.2 ⟨fun hlt => ?_, hmax⟩⟩
    exact absurd hlt (Nat.not_lt.2 hw)
  · exact .inr ⟨List.forall_mem_cons.2 ⟨hw, hall⟩, rfl⟩

namespace RowMvcc

variable {s : RowMvcc V}

/-- Above `_latest_wts` the page holds the version. -/
theorem Data.versionBelow_page (hd : Data v₀ h s) {r : Nat} (hr : s.latestWts < r) : VersionBelow v₀ h r s.page := by
  rw [hd.page]
  match h, hd with
  | [], _ => exact .inr ⟨fun c hc => (by cases hc), rfl⟩
  | c :: h, hd =>
    have hwts : s.latestWts = c.1 := hd.wts
    refine .inl ⟨c.1, List.mem_cons_self .., by omega, fun d hdc _ => ?_⟩
    rw [← hwts]; exact hd.le_wts hdc

/-- A valid entry below `r` that is the newest such entry holds the version. -/
theorem Data.versionBelow_entry (hs : Hist g s) (hd : Data v₀ h s) {r : Nat} {e : WriteHisEntry} {x : RowId}
    (he : e ∈ s.writeHistory) (hv : e.valid = true) (hlt : e.ts < r) (hx : e.row = some x)
    (hmax : ∀ f ∈ s.writeHistory, f.valid = true → f.ts < r → f.ts ≤ e.ts) :
    ∃ v, s.mem x = some v ∧ VersionBelow v₀ h r v := by
  obtain ⟨v, hvh, hmem⟩ := hd.version e he hv x hx
  refine ⟨v, hmem, .inl ⟨e.ts, hvh, hlt, fun c hc hcr => ?_⟩⟩
  by_cases ho : s.oldestWts < c.1
  · obtain ⟨f, hf, hfv, hfc⟩ := hd.kept c hc ho
    have := hmax f hf hfv (by omega)
    omega
  · have := (hs.range e he hv).1
    omega

/-- The search ends on an entry with the largest timestamp below `ts`. -/
theorem searchVersion_of_newestKept {ts : Nat} (h : s.NewestKept ts)
    (hpos : ∃ e ∈ s.writeHistory, e.valid = true ∧ 0 < e.ts ∧ e.ts < ts) :
    ∃ e, s.writeHistory[s.searchVersion ts]? = some e ∧ e.valid = true ∧ e.ts < ts ∧
      ∀ f ∈ s.writeHistory, f.valid = true → f.ts < ts → f.ts ≤ e.ts := by
  obtain ⟨⟨e, j⟩, hj, hv, hlt, hmax⟩ := h
  rw [List.mem_zipIdx_iff_getElem?] at hj
  dsimp only at hj hv hlt hmax
  have hle : ∀ f ∈ s.writeHistory, f.valid = true → f.ts < ts → f.ts ≤ e.ts := by
    intro f hf hfv hfl
    obtain ⟨i, hi⟩ := List.mem_iff_getElem?.1 hf
    exact (hmax (f, i) (List.mem_zipIdx_iff_getElem?.2 hi) hfv hfl).1
  have hpost : ∀ i c, s.writeHistory[i]? = some c → j < i → (c.valid && decide (c.ts < ts)) = true →
      c.ts ≤ e.ts % 2 ^ 32 := by
    intro i c hi hij hq
    simp only [Bool.and_eq_true, decide_eq_true_eq] at hq
    exact (hmax (c, i) (List.mem_zipIdx_iff_getElem?.2 hi) hq.1 hq.2).2 hij
  have hpos : 0 < e.ts := by
    obtain ⟨f, hf, hfv, hfpos, hfl⟩ := hpos
    exact Nat.lt_of_lt_of_le hfpos (hle f hf hfv hfl)
  obtain ⟨c, hc, hcq, hce⟩ := Scan.scan_newest (n := s.hisLen) (fun e : WriteHisEntry => e.valid && decide (e.ts < ts))
    WriteHisEntry.ts (fun n => Nat.mod_le n (2 ^ 32)) hj (by simp [hv, hlt]) hpos (by simpa using hle) hpost
  simp only [Bool.and_eq_true, decide_eq_true_eq] at hcq
  exact ⟨c, hc, hcq.1, hcq.2, hce.symm ▸ hle⟩

/-- The search is right if and only if a newest entry below `ts` is not followed by one that exceeds its low 32 bits:
it ends on a newest entry, or on `_his_len` if no entry is below `ts`. -/
theorem searchVersion_newest (s : RowMvcc V) (ts : Nat) :
    (((∃ e ∈ s.writeHistory, e.valid = true ∧ 0 < e.ts ∧ e.ts < ts) →
      ∃ e, s.writeHistory[s.searchVersion ts]? = some e ∧ e.valid = true ∧ e.ts < ts ∧
        ∀ f ∈ s.writeHistory, f.valid = true → f.ts < ts → f.ts ≤ e.ts) ∧
    ((¬ ∃ e ∈ s.writeHistory, e.valid = true ∧ 0 < e.ts ∧ e.ts < ts) → s.searchVersion ts = s.hisLen)) ↔
    ((∃ e ∈ s.writeHistory, e.valid = true ∧ 0 < e.ts ∧ e.ts < ts) → s.NewestKept ts) := by
  constructor
  · rintro ⟨hfound, -⟩ hpos
    obtain ⟨e, he, hv, hlt, hmax⟩ := hfound hpos
    refine ⟨(e, s.searchVersion ts), List.mem_zipIdx_iff_getElem?.2 he, hv, hlt, ?_⟩
    rintro ⟨f, i⟩ hf hfv hfl
    rw [List.mem_zipIdx_iff_getElem?] at hf
    dsimp only at hf hfv hfl ⊢
    refine ⟨hmax f (List.mem_of_getElem? hf) hfv hfl, fun hi => ?_⟩
    -- the entry was the last one that the loop stored
    rcases Scan.scan_last (fun e : WriteHisEntry => e.valid && decide (e.ts < ts)) WriteHisEntry.ts
      (fun n => n % 2 ^ 32) s.writeHistory 0 (0, s.hisLen) with ⟨hend, -⟩ | ⟨j, c, hj, -, hend, hle⟩
    · have hlast : s.searchVersion ts = s.hisLen := congrArg Prod.snd hend
      rw [hlast, List.getElem?_eq_none (Nat.le_refl s.hisLen)] at he
      cases he
    · have hlast : s.searchVersion ts = j := (congrArg Prod.snd hend).trans (Nat.zero_add j)
      rw [hlast] at he hi
      cases he.symm.trans hj
      exact hle i f hi hf (by simp [hfv, hfl])
  · intro h
    refine ⟨fun hpos => searchVersion_of_newestKept (h hpos) hpos, fun hnone => ?_⟩
    have hskip : ∀ e ∈ s.writeHistory, (e.valid && decide (e.ts < ts) && decide (0 < e.ts)) = false := by
      intro e he
      rw [Bool.and_eq_false_imp]
      intro hq
      simp only [Bool.and_eq_true, decide_eq_true_eq] at hq
      exact decide_eq_false fun hpos => hnone ⟨e, he, hq.1, hpos, hq.2⟩
    exact congrArg Prod.snd (Scan.scan_skip hskip)

/-- Of the versions 9, 2 ^ 32 + 20, 3 and 2 ^ 33 a read at 2 ^ 33 finds 2 ^ 32 + 20. -/
theorem searchVersion_between : ∃ s : RowMvcc Nat,
    s.writeHistory = [⟨true, false, 9, some 0⟩, ⟨true, false, 2 ^ 32 + 20, some 1⟩, ⟨true, false, 3, some 2⟩,
      ⟨true, false, 2 ^ 33, some 3⟩] ∧
      ∃ e, s.writeHistory[s.searchVersion (2 ^ 33)]? = some e ∧ 2 ^ 32 + 20 ≤ e.ts ∧ e.ts < 2 ^ 33 := by
  let s : RowMvcc Nat := { init 0 with writeHistory := [⟨true, false, 9, some 0⟩,
    ⟨true, false, 2 ^ 32 + 20, some 1⟩, ⟨true, false, 3, some 2⟩, ⟨true, false, 2 ^ 33, some 3⟩] }
  have hkept : s.NewestKept (2 ^ 33) := by decide +kernel
  obtain ⟨e, he, -, hlt, hmax⟩ := ((searchVersion_newest s (2 ^ 33)).2 fun _ => hkept).1 (by decide +kernel)
  exact ⟨s, rfl, e, he, hmax ⟨true, false, 2 ^ 32 + 20, some 1⟩ (by decide) rfl (by decide), hlt⟩

/-- The version 2 ^ 32 + 5 leaves 5 in `the_ts`, and the version 7 behind it is taken for a newer one. -/
theorem searchVersion_forgets : ∃ s : RowMvcc Nat,
    s.writeHistory = [⟨true, false, 2 ^ 32 + 5, some 0⟩, ⟨true, false, 7, some 1⟩] ∧ s.searchVersion (2 ^ 33) = 1 :=
  ⟨{ init 0 with writeHistory := [⟨true, false, 2 ^ 32 + 5, some 0⟩, ⟨true, false, 7, some 1⟩] }, rfl, by decide⟩

/-- Under `ReadOk` the search ends on the newest entry below `ts`. -/
theorem readHistory_right {ts : Nat} {x : RowId} {s' : RowMvcc V} (hc : Core g v₀ h s) (hok : s.NewestKept ts)
    (hr : s.readHistory ts = some (s', x)) :
    s' = s ∧ ∃ v, s.mem x = some v ∧ VersionBelow v₀ h ts v := by
  have hs := hc.hist
  have hpos : ∃ e ∈ s.writeHistory, e.valid = true ∧ 0 < e.ts ∧ e.ts < ts := by
    obtain ⟨⟨e, j⟩, hj, hv, hlt, -⟩ := hok
    have he := List.mem_of_getElem? (List.mem_zipIdx_iff_getElem?.1 hj)
    exact ⟨e, he, hv, Nat.lt_of_le_of_lt (Nat.zero_le _) (hs.range e he hv).1, hlt⟩
  obtain ⟨e, he, hv, hlt, hmax⟩ := searchVersion_of_newestKept hok hpos
  have hj : s.searchVersion ts < s.hisLen := (List.getElem?_eq_some_iff.1 he).1
  rcases readHistory_cases hr with ⟨hno, -⟩ | ⟨f, hf, hfv, hfl, hfr, hs', hfi⟩
  · omega
  · rw [he] at hfi
    cases hfi
    exact ⟨hs', Data.versionBelow_entry hs hc.data hf hv hlt hfr hmax⟩

end RowMvcc

/-! ### Along a run -/

variable [Inhabited V]

/-- The reads that `update_buffer` releases see the version below them. -/
theorem served_resume (hi : RowInv g v₀ st) (hr : ServedRight v₀ st) {ts m : Nat} {u row : RowMvcc V} {ws : List Wake}
    (he : RowInv.Ended g v₀ st ts h u) (hu : u.updateBuffer g m ts = some (row, ws))
    (hold : ∀ p ∈ st.served, ∀ v, VersionBelow v₀ st.commits p.1 v → VersionBelow v₀ h p.1 v) :
    ServedRight v₀ ({ st with commits := h }.resume ts row ws) := by
  obtain ⟨hup, hts⟩ := he.updated hi hu
  obtain ⟨t, hl, hrow⟩ := hup.loop
  intro p hp
  rcases List.mem_append.1 hp with hp | hp
  · obtain ⟨w, hw, hwt, rfl⟩ := mem_readsOf hp
    obtain ⟨q, hq, -, hqw, -⟩ := hup.mem_fired hw
    have hlt := hts q hq
    have hle := he.le
    refine ⟨u.page, ?_, he.core.data.versionBelow_page (by omega)⟩
    show row.mem w.row = some u.page
    rw [hrow]; exact (hl.read w hw hwt).2.2
  · obtain ⟨v, hv, hb⟩ := hr p hp
    exact ⟨v, hv, hold p hp v hb⟩

theorem served_step (hi : RowInv g v₀ st) (hr : ServedRight v₀ st) {a : RowEv V} (hok : ReadOk st a)
    (h : st.step g a = some st') : ServedRight v₀ st' := by
  cases RowStep.of_step h with
  | readLatest hf hw hp hs =>
    obtain ⟨-, hl, -⟩ := serveLatest_spec hi.core (hi.lt_prewriteTs hf hp) hs
    exact List.forall_mem_cons.2 ⟨⟨_, hl.bytes, hi.core.data.versionBelow_page hw⟩, hr⟩
  | readOld hf ho hw hs =>
    obtain ⟨rfl, hv⟩ := readHistory_right hi.core (hok ho hw) hs
    exact List.forall_mem_cons.2 ⟨hv, hr⟩
  | write hg hv hc hu =>
    refine served_resume hi hr (hi.ended_commit hg hv hc).1 hu fun p hp v hb => hb.cons ?_
    exact Nat.le_of_lt (hi.served_lt_granted hp hg)
  | undo hg hc hu => exact served_resume hi hr (hi.ended_release hg hc) hu fun _ _ _ hb => hb
  -- no other step serves a read or commits
  | _ => exact hr

/-- In every run whose searching reads meet `ReadOk`, each served read has the version below it. -/
theorem readsRight_of_readOk (gThreadCnt : Nat) (v₀ : V) (h : (rowLts gThreadCnt v₀).Reach ReadOk st) :
    ReadsRight v₀ st := by
  refine ⟨?_, (RowInv.reach h).recorded⟩
  induction h with
  | init h => rw [h]; exact fun p hp => by cases hp
  | step hreach hok hs ih => exact served_step (RowInv.reach hreach) ih hok hs

/-- Two versions are committed and a read between them finds the older one. -/
theorem readsRight_between : ∃ st : RowSt Nat, (rowLts 1 0).runIf (fun st a => decide (ReadOk st a)) (.init 0)
    [.prewrite 10 0, .modify 10 7, .write 10 0, .prewrite 20 0, .modify 20 8, .write 20 0, .read 15] = some st ∧
    (15, some 7) ∈ st.served ∧ ReadsRight 0 st := by
  have hrun : (((rowLts 1 (0 : Nat)).runIf (fun st a => decide (ReadOk st a)) (.init 0)
      [.prewrite 10 0, .modify 10 7, .write 10 0, .prewrite 20 0, .modify 20 8, .write 20 0, .read 15]).any
      fun st => decide ((15, some 7) ∈ st.served)) = true := by decide +kernel
  simp only [Option.any_eq_true, decide_eq_true_eq] at hrun
  obtain ⟨st, hst, hmem⟩ := hrun
  exact ⟨st, hst, hmem, readsRight_of_readOk 1 0 (.runIf (fun _ _ => of_decide_eq_true) (.init rfl) hst)⟩

/-- Transaction 10 commits the bytes 7 over the initial 0; the read at 5 is then given 7. -/
theorem read_before_first_write : ∃ st : RowSt Nat, (rowLts 1 0).run (.init 0)
    [.prewrite 10 0, .modify 10 7, .write 10 0, .read 5] = some st ∧ (5, some 7) ∈ st.served ∧
    st.commits = [(10, 7)] ∧ ¬ ReadsRight 0 st := by
  have hrun : (((rowLts 1 (0 : Nat)).run (.init 0) [.prewrite 10 0, .modify 10 7, .write 10 0, .read 5]).any
      fun st => decide ((5, some 7) ∈ st.served) && decide (st.commits = [(10, 7)])) = true := by decide +kernel
  simp only [Option.any_eq_true, Bool.and_eq_true, decide_eq_true_eq] at hrun
  obtain ⟨st, hst, hmem, hcom⟩ := hrun
  refine ⟨st, hst, hmem, hcom, fun hr => ?_⟩
  obtain ⟨v, hv, hb⟩ := hr.right _ hmem
  cases hv
  simp [VersionBelow, hcom] at hb

end Dbx1000
