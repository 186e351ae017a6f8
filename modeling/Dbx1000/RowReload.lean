import Dbx1000.RowQueue

/-!
# Loading the latest row again

When the garbage collection has dropped the latest version, `_latest_row` is null and the next use
of it loads the row from its page (`GetLatestRow`). `loads` are the stores on which a call of
`access` executes it. The bytes loaded are those committed last, so whoever is given the latest row,
or a copy of it, sees the bytes it would see had the version stayed in memory.
-/

namespace Dbx1000
namespace RowMvcc

variable {V : Type} {g minTs ts next : Nat} {v₀ : V} {h : List (Nat × V)} {s s' u : RowMvcc V} {ws : List Wake}

/-- `if (nullptr == _latest_row) GetLatestRow(txn)` -/
def loadsHere (s : RowMvcc V) : List (RowMvcc V) := if s.latestRow = none then [s] else []

/-- `GetLatestRow` loads the bytes of the newest version of `h`, whose timestamp is `_latest_wts`. -/
def LoadsNewest (v₀ : V) (h : List (Nat × V)) (u : RowMvcc V) : Prop :=
  u.latestWts = (h.head?.map Prod.fst).getD 0 ∧
    ∃ u' r, u.getLatestRow = some u' ∧ u'.latestRow = some r ∧ u'.mem r = some (lastValue v₀ h)

theorem Core.loadsHere (hc : Core g v₀ h s) : ∀ u ∈ s.loadsHere, LoadsNewest v₀ h u := by
  intro u hu
  unfold RowMvcc.loadsHere at hu
  split at hu
  · rename_i hl
    obtain rfl := List.mem_singleton.1 hu
    obtain ⟨hrow, hnum⟩ := hc.hist.latestNone hl
    refine ⟨hc.data.wts, u.load, u.nextRow, ?_, rfl, ?_⟩
    · rw [getLatestRow, if_pos ⟨hl, hnum, hrow⟩]
      rfl
    · rw [lastValue, ← hc.data.page]
      exact Function.update_self ..
  · cases hu

variable [Inhabited V]

/-- The load in granting a prewrite, after `reserveRow`. -/
def loadsGrant (gThreadCnt minTs ts : Nat) (s : RowMvcc V) : List (RowMvcc V) :=
  ((s.reserveRow gThreadCnt minTs ts).map fun p => p.1.loadsHere).getD []

/-- The loads in the loop of `update_buffer`. -/
def loadsLoop (gThreadCnt minTs ts next : Nat) : List ReqEntry → RowMvcc V → List (RowMvcc V)
  | [], _ => []
  | q :: qs, s =>
    if q.valid then
      if ts < q.ts then
        if q.type = .rReq ∧ q.ts < next then
          s.loadsHere ++ ((s.serveLatest q.ts).map fun p => loadsLoop gThreadCnt minTs ts next qs p.1).getD []
        else if q.ts = next then
          if q.type = .pReq then
            s.loadsGrant gThreadCnt minTs q.ts ++
              ((s.grant gThreadCnt minTs q.ts).map fun p => loadsLoop gThreadCnt minTs ts next qs p.1).getD []
          else []
        else loadsLoop gThreadCnt minTs ts next qs s
      else []
    else loadsLoop gThreadCnt minTs ts next qs s

def loadsBuffer (gThreadCnt minTs ts : Nat) (s : RowMvcc V) : List (RowMvcc V) :=
  s.loadsLoop gThreadCnt minTs ts (nextPreTs ts s.requests) s.requests

/-- The stores on which `access` executes `GetLatestRow`. -/
def loads (gThreadCnt minTs : Nat) (s : RowMvcc V) (ts : Nat) (type : TsType) (row : RowId) : List (RowMvcc V) :=
  match type with
  | .rReq =>
    if ts < s.oldestWts then []
    else if s.latestWts < ts then
      if s.existsPrewrite ∧ s.prewriteTs < ts then [] else s.loadsHere
    else if s.searchVersion ts = s.hisLen then s.loadsHere
    else []
  | .pReq =>
    if ts < s.latestWts ∨ ts < s.maxServedRts ∨ s.existsPrewrite ∧ ts < s.prewriteTs then []
    else if s.existsPrewrite then []
    else s.loadsGrant gThreadCnt minTs ts
  | .wReq => ((s.commit ts row).map (loadsBuffer gThreadCnt minTs ts)).getD []
  | .xpReq => ((s.release row).map (loadsBuffer gThreadCnt minTs ts)).getD []

theorem Core.loadsGrant (hc : Core g v₀ h s) (hw : s.latestWts < ts) (hm : s.maxServedRts < ts) :
    ∀ u ∈ s.loadsGrant g minTs ts, LoadsNewest v₀ h u := by
  unfold RowMvcc.loadsGrant
  cases hr : s.reserveRow g minTs ts with
  | none => exact fun _ hu => absurd hu List.not_mem_nil
  | some p => exact (reserveRow_core hc hw hm hr).loadsHere

theorem Loop.loads {s₀ : RowMvcc V} {qs : List ReqEntry} (hw : s₀.latestWts ≤ ts) (hl : Loop g v₀ h next s₀ s ws) :
    ∀ u ∈ loadsLoop g minTs ts next qs s, LoadsNewest v₀ h u := by
  induction qs generalizing s ws with
  | nil => exact fun _ hu => absurd hu List.not_mem_nil
  | cons q qs ih =>
    intro u hu
    rw [loadsLoop] at hu
    split at hu
    · split at hu
      · rename_i hts
        split at hu
        · rename_i hrd
          rcases List.mem_append.1 hu with hu | hu
          · exact hl.core.loadsHere u hu
          · cases hst : s.serveLatest q.ts with
            | none => simp [hst] at hu
            | some p =>
              rw [hst] at hu
              exact ih (hl.serve hrd.2 hst) u hu
        · split at hu
          · rename_i hnext
            have hlt : s₀.latestWts < next := by omega
            split at hu
            · rw [hnext] at hu
              rcases List.mem_append.1 hu with hu | hu
              · exact hl.core.loadsGrant (by rw [hl.latestWts]; exact hlt) hl.max u hu
              · cases hst : s.grant g minTs next with
                | none => simp [hst] at hu
                | some p =>
                  rw [hst] at hu
                  exact ih (hl.granted hlt hst) u hu
            · cases hu
          · exact ih hl u hu
      · cases hu
    · exact ih hl u hu

end RowMvcc

open RowMvcc

variable {V : Type} {g : Nat} {v₀ : V} {st st' : RowSt V} [Inhabited V]

/-- The stores on which the step `a` executes `GetLatestRow`. -/
def RowSt.loads (gThreadCnt : Nat) (st : RowSt V) : RowEv V → List (RowMvcc V)
  | .read ts =>
    if 0 < ts ∧ ts ≤ uint64Max ∧ st.phase ts = .idle then st.row.loads gThreadCnt 0 ts .rReq 0 else []
  | .prewrite ts minTs =>
    if 0 < ts ∧ ts ≤ uint64Max ∧ st.phase ts = .idle then st.row.loads gThreadCnt minTs ts .pReq 0 else []
  | .write ts minTs =>
    match st.phase ts with
    | .granted r => st.row.loads gThreadCnt minTs ts .wReq r
    | _ => []
  | .undo ts minTs =>
    match st.phase ts with
    | .granted r => st.row.loads gThreadCnt minTs ts .xpReq r
    | _ => []
  | .modify _ _ => []
  | .finish _ => []

/-- The versions committed when the step `a` calls `update_buffer`, if it does. -/
def RowSt.committed (st : RowSt V) : RowEv V → List (Nat × V)
  | .write ts _ =>
    match st.phase ts with
    | .granted r => ((st.row.mem r).map fun v => (ts, v) :: st.commits).getD st.commits
    | _ => st.commits
  | _ => st.commits

namespace RowInv

theorem Ended.loads {ts m : Nat} {c : List (Nat × V)} {u : RowMvcc V} (hi : RowInv g v₀ st)
    (he : Ended g v₀ st ts c u) : ∀ x ∈ u.loadsBuffer g m ts, LoadsNewest v₀ c x :=
  Loop.loads he.le (.start he.core he.existsPrewrite (he.max_lt hi))

/-- Everyone released is given the bytes of the page. -/
theorem Ended.bytes {ts m : Nat} {c : List (Nat × V)} {u row : RowMvcc V} {ws : List Wake} (hi : RowInv g v₀ st)
    (he : Ended g v₀ st ts c u) (hu : u.updateBuffer g m ts = some (row, ws)) :
    row.page = u.page ∧ ∀ w ∈ ws, row.mem w.row = some u.page := by
  obtain ⟨t, hloop, rfl⟩ := updateBuffer_cases hu
  obtain ⟨hl, hh⟩ := updateLoop_handed he.core he.existsPrewrite (he.max_lt hi) he.le hloop
  refine ⟨hl.page, fun w hw => ?_⟩
  rcases (he.released hi hu hw).2 with hr | hp
  · exact (hl.read w hw hr).2.2
  · exact hh.bytes w hw hp

theorem loads (hi : RowInv g v₀ st) (a : RowEv V) : ∀ u ∈ st.loads g a, LoadsNewest v₀ (st.committed a) u := by
  have hhere := hi.core.loadsHere
  cases a with
  | read ts =>
    intro u hu
    simp only [RowSt.loads, RowMvcc.loads] at hu
    split_ifs at hu <;> first | exact hhere u hu | exact absurd hu List.not_mem_nil
  | prewrite ts m =>
    intro u hu
    simp only [RowSt.loads, RowMvcc.loads] at hu
    split_ifs at hu with hf hno hp
    · cases hu
    · cases hu
    · simp only [not_or, Nat.not_lt] at hno
      obtain ⟨hfw, hfm⟩ := hi.fresh ts hf.1 hf.2.2
      exact hi.core.loadsGrant (Nat.lt_of_le_of_ne hno.1 hfw) (Nat.lt_of_le_of_ne hno.2.1 hfm) u hu
    · cases hu
  | write ts m =>
    simp only [RowSt.loads, RowSt.committed]
    split
    · rename_i r hg
      obtain ⟨v, hv⟩ := Option.isSome_iff_exists.1 ((hi.granted ts r hg).1.live hi.core.heap).2
      simp only [RowMvcc.loads, hv, Option.map_some, Option.getD_some]
      cases hc : st.row.commit ts r with
      | none => simp
      | some u => exact (hi.ended_commit hg hv hc).1.loads hi
    · simp
  | undo ts m =>
    simp only [RowSt.loads, RowSt.committed]
    split
    · rename_i r hg
      simp only [RowMvcc.loads]
      cases hc : st.row.release r with
      | none => simp
      | some u => exact (hi.ended_release hg hc).loads hi
    · simp
  | modify ts v => exact fun _ hu => absurd hu List.not_mem_nil
  | finish ts => exact fun _ hu => absurd hu List.not_mem_nil

theorem step_commits {a : RowEv V} (h : st.step g a = some st') : st'.commits = st.committed a := by
  cases RowStep.of_step h with
  | write hg hv hc hu => simp [RowSt.resume, RowSt.committed, hg, hv]
  | _ => rfl

/-- A row that is granted after a call was granted before, with the same bytes unless its transaction wrote
them, or is granted now, with the bytes of the page. -/
theorem step_granted (hi : RowInv g v₀ st) {a : RowEv V} (h : st.step g a = some st') {t : Nat} {r : RowId}
    (ht : st'.phase t = .granted r) :
    (st.phase t = .granted r ∧ st'.row.page = st.row.page ∧
      ((∃ v, a = .modify t v ∧ st'.row.mem r = some v) ∨ (∀ v, a ≠ .modify t v) ∧ st'.row.mem r = st.row.mem r)) ∨
    (st.phase t = .idle ∨ st.phase t = .waiting .pReq) ∧ st'.row.mem r = some st'.row.page ∧ ∀ v, a ≠ .modify t v := by
  have hkept : ∀ {ts : Nat} {p : Phase}, (∀ r, p ≠ .granted r) → Function.update st.phase ts p t = .granted r →
      st.phase t = .granted r := by
    intro ts p hp h'
    by_cases hne : t = ts
    · rw [hne, Function.update_self] at h'
      exact absurd h' (hp r)
    · rwa [Function.update_of_ne hne] at h'
  have hlive : st.phase t = .granted r → r < st.row.nextRow := fun h' =>
    ((hi.granted t r h').1.live hi.core.heap).1
  have hresumed : ∀ {ts m : Nat} {c : List (Nat × V)} {u row : RowMvcc V} {ws : List Wake},
      Ended g v₀ st ts c u → u.updateBuffer g m ts = some (row, ws) →
      wakeAll (Function.update st.phase ts .finished) ws t = .granted r →
      (st.phase t = .idle ∨ st.phase t = .waiting .pReq) ∧ row.mem r = some row.page := by
    intro ts m c u row ws he hu h'
    obtain ⟨x, hx⟩ := he.holder
    obtain ⟨hpage, hbytes⟩ := he.bytes hi hu
    rcases woken_cases h' Phase.noConfusion with ⟨w, hw, hwt, hph⟩ | ⟨-, hne, hst⟩
    · obtain ⟨hty, rfl⟩ := Wake.phase_eq_granted hph
      refine ⟨.inr ?_, by rw [hpage]; exact hbytes w hw⟩
      rw [← hwt, ← hty]
      exact (he.released hi hu hw).1
    · exact absurd (hi.granted_unique hst hx) hne
  cases RowStep.of_step h with
  | readAbort hf hlt => exact .inl ⟨hkept (fun _ => Phase.noConfusion) ht, rfl, .inr ⟨nofun, rfl⟩⟩
  | preAbort hf => exact .inl ⟨hkept (fun _ => Phase.noConfusion) ht, rfl, .inr ⟨nofun, rfl⟩⟩
  | finish hr => exact .inl ⟨hkept (fun _ => Phase.noConfusion) ht, rfl, .inr ⟨nofun, rfl⟩⟩
  | readWait hf hw hp hpt hb =>
    obtain ⟨⟨reqs, rfl⟩, -⟩ := bufferReq_cases hb
    exact .inl ⟨hkept (fun _ => Phase.noConfusion) ht, rfl, .inr ⟨nofun, rfl⟩⟩
  | preWait hf hp hpt hb =>
    obtain ⟨⟨reqs, rfl⟩, -⟩ := bufferReq_cases hb
    exact .inl ⟨hkept (fun _ => Phase.noConfusion) ht, rfl, .inr ⟨nofun, rfl⟩⟩
  | readLatest hf hw hp hs =>
    obtain ⟨-, hl, -⟩ := serveLatest_spec hi.core (hi.lt_prewriteTs hf hp) hs
    have hg := hkept (fun _ => Phase.noConfusion) ht
    exact .inl ⟨hg, hl.page, .inr ⟨nofun, hl.mem r (hlive hg)⟩⟩
  | readOld hf ho hw hs =>
    have hg := hkept (fun _ => Phase.noConfusion) ht
    rcases readHistory_cases hs with ⟨-, hlat⟩ | ⟨e, -, -, -, -, rfl, -⟩
    · obtain ⟨-, hl, -⟩ := withLatest_spec hi.core hlat
      exact .inl ⟨hg, hl.page, .inr ⟨nofun, hl.mem r (hlive hg)⟩⟩
    · exact .inl ⟨hg, rfl, .inr ⟨nofun, rfl⟩⟩
  | @preGrant ts m row x hf hp hw hm hs =>
    obtain ⟨hfw, hfm⟩ := hi.fresh ts hf.1 hf.2.2
    obtain ⟨-, hg⟩ := grant_spec hi.core (Nat.lt_of_le_of_ne hw hfw) (Nat.lt_of_le_of_ne hm hfm) hs
    by_cases hne : t = ts
    · rw [hne] at ht ⊢
      obtain rfl : x = r := by simpa using ht
      exact .inr ⟨.inl hf.2.2, hg.bytes.trans (by rw [hg.page]), nofun⟩
    · have h1 := (hi.granted t r (by simpa [hne] using ht)).1.1
      rw [hp] at h1; cases h1
  | @modify ts v x hg =>
    obtain rfl := hi.granted_unique ht hg
    obtain rfl : r = x := by rw [show st.phase t = .granted r from ht] at hg; cases hg; rfl
    exact .inl ⟨ht, rfl, .inl ⟨v, rfl, Function.update_self ..⟩⟩
  | write hg hv hc hu =>
    obtain ⟨h1, h2⟩ := hresumed (hi.ended_commit hg hv hc).1 hu ht
    exact .inr ⟨h1, h2, nofun⟩
  | undo hg hc hu =>
    obtain ⟨h1, h2⟩ := hresumed (hi.ended_release hg hc) hu ht
    exact .inr ⟨h1, h2, nofun⟩

/-- Who is granted a prewrite holds a copy of the bytes committed last. -/
theorem granted_bytes (hi : RowInv g v₀ st) {a : RowEv V} (h : st.step g a = some st') {t : Nat} {r : RowId}
    (hg : st'.phase t = .granted r) (hnew : st.phase t ≠ .granted r) :
    st'.row.mem r = some (lastValue v₀ st'.commits) := by
  rcases hi.step_granted h hg with ⟨hold, -⟩ | ⟨-, hmem, -⟩
  · exact absurd hold hnew
  · rw [hmem, (hi.step h).page_eq]

/-- Who has waited for a read is given the bytes committed last. -/
theorem released_bytes (hi : RowInv g v₀ st) {a : RowEv V} (h : st.step g a = some st') {t : Nat} {r : RowId}
    {ty : TsType} (hr : st'.phase t = .reading r) (hold : st.phase t = .waiting ty) :
    st'.row.mem r = some (lastValue v₀ st'.commits) := by
  have hnew : st.phase t ≠ .reading r := by simp [hold]
  have hkept : ∀ {x : Nat} {p : Phase}, (∀ ty, st.phase x ≠ .waiting ty) →
      Function.update st.phase x p t ≠ .reading r := by
    intro x p hx
    have hne : t ≠ x := by
      rintro rfl
      exact hx ty hold
    rw [Function.update_of_ne hne]
    exact hnew
  have hresumed : ∀ {ts m : Nat} {c : List (Nat × V)} {u row : RowMvcc V} {ws : List Wake},
      Ended g v₀ st ts c u → u.updateBuffer g m ts = some (row, ws) →
      wakeAll (Function.update st.phase ts .finished) ws t = .reading r → row.mem r = some (lastValue v₀ c) := by
    intro ts m c u row ws he hu h'
    rcases woken_cases h' Phase.noConfusion with ⟨w, hw, -, hph⟩ | ⟨-, -, hst⟩
    · obtain ⟨-, rfl⟩ := Wake.phase_eq_reading hph
      rw [lastValue, ← he.core.data.page]
      exact (he.bytes hi hu).2 w hw
    · exact absurd hst hnew
  cases RowStep.of_step h with
  | modify => exact absurd hr hnew
  | finish hr' => exact absurd hr (hkept (by simp [hr']))
  | write hg hv hc hu => exact hresumed (hi.ended_commit hg hv hc).1 hu hr
  | undo hg hc hu => exact hresumed (hi.ended_release hg hc) hu hr
  | readAbort hf | preAbort hf | readWait hf | preWait hf | readLatest hf | readOld hf | preGrant hf =>
    exact absurd hr (hkept hf.off.2)

end RowInv

/-- Whenever a call executes `GetLatestRow`, it loads the bytes of the version committed last. So a granted
prewrite starts from them, and a read that has waited or is given `_latest_row` sees them. -/
theorem reload_agrees_with_memory (gThreadCnt : Nat) (v₀ : V) (h : (rowLts gThreadCnt v₀).Reach Lts.Any st)
    (a : RowEv V) :
    (∀ u ∈ st.loads gThreadCnt a, LoadsNewest v₀ (st.committed a) u) ∧
    ∀ st', st.step gThreadCnt a = some st' → st'.commits = st.committed a ∧
      (∀ t r, st'.phase t = .granted r → st.phase t ≠ .granted r →
        st'.row.mem r = some (lastValue v₀ st'.commits)) ∧
      ∀ t r, st'.phase t = .reading r → st.phase t ≠ .reading r →
        st.phase t = .waiting .rReq ∨ st'.row.latestRow = some r →
          st'.row.mem r = some (lastValue v₀ st'.commits) := by
  have hi := RowInv.reach h
  refine ⟨hi.loads a, fun st' hs => ⟨RowInv.step_commits hs, fun t r hg hnew => hi.granted_bytes hs hg hnew, ?_⟩⟩
  rintro t r hr - (hold | hl)
  · exact hi.released_bytes hs hr hold
  · have hd := (hi.step hs).core.data
    rw [lastValue, ← hd.page]
    exact hd.latest r hl

/-- The prewrite at 9 drops all four versions and loads the row again: it starts from what 4 wrote. -/
theorem reload_after_collect : ∃ st : RowSt Nat, (rowLts 1 0).run (.init 0)
      [.prewrite 1 0, .modify 1 11, .write 1 0, .prewrite 2 0, .modify 2 12, .write 2 0,
       .prewrite 3 0, .modify 3 13, .write 3 0, .prewrite 4 0, .modify 4 14, .write 4 0] = some st ∧
    (st.loads 1 (.prewrite 9 9)).length = 1 ∧ st.commits.head? = some (4, 14) ∧
    ∀ u ∈ st.loads 1 (.prewrite 9 9), LoadsNewest 0 st.commits u := by
  have hrun : (((rowLts 1 (0 : Nat)).run (.init 0)
      [.prewrite 1 0, .modify 1 11, .write 1 0, .prewrite 2 0, .modify 2 12, .write 2 0,
       .prewrite 3 0, .modify 3 13, .write 3 0, .prewrite 4 0, .modify 4 14, .write 4 0]).any fun st =>
      decide ((st.loads 1 (.prewrite 9 9)).length = 1 ∧ st.commits.head? = some (4, 14))) = true := by decide +kernel
  simp only [Option.any_eq_true, decide_eq_true_eq] at hrun
  obtain ⟨st, hst, hlen, hhead⟩ := hrun
  exact ⟨st, hst, hlen, hhead, (reload_agrees_with_memory 1 0 (.run (.init rfl) hst) (.prewrite 9 9)).1⟩

end Dbx1000
