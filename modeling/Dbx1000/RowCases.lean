import Dbx1000.RowMvcc

/-!
# What one pass over the version store can do

Every way `reserveRow` prepares an entry is one of three changes of the history: nothing, dropping
the versions up to a timestamp (`dropTo`: the garbage collection, and the recycling of the oldest
version), or doubling it. `reserveRow_cases` says once which of them happens and when, and that the
entry taken is then a free one; every invariant is proved for the three changes and for the taking of
a free entry (`takeEntry`) only. `withLatest_cases` does the same for the lazy load of the latest row.
-/

namespace Dbx1000

namespace WriteHisEntry

/-- The entry after a pass that drops the versions up to `m`. -/
def drop (m : Nat) (e : WriteHisEntry) : WriteHisEntry :=
  if e.valid && decide (e.ts ≤ m) then { e with valid := false, reserved := false } else e

/-- Neither a version nor reserved. -/
def Free (e : WriteHisEntry) : Prop := e.valid = false ∧ e.reserved = false

variable {m : Nat} {e : WriteHisEntry}

@[simp] theorem drop_row : (e.drop m).row = e.row := by unfold drop; split <;> rfl

@[simp] theorem drop_ts : (e.drop m).ts = e.ts := by unfold drop; split <;> rfl

theorem drop_valid : (e.drop m).valid = true ↔ e.valid = true ∧ m < e.ts := by
  unfold drop
  split
  · rename_i h
    simp only [Bool.and_eq_true, decide_eq_true_eq] at h
    simp only [Bool.false_eq_true, false_iff, not_and]; omega
  · rename_i h
    simp only [Bool.and_eq_true, decide_eq_true_eq, not_and] at h
    exact ⟨fun hv => ⟨hv, by have := h hv; omega⟩, fun hv => hv.1⟩

theorem drop_of_lt (h : m < e.ts) : e.drop m = e := by
  unfold drop; rw [if_neg]; simp only [Bool.and_eq_true, decide_eq_true_eq]; omega

theorem drop_free_of (hv : e.valid = true) (hm : e.ts ≤ m) : (e.drop m).Free := by
  unfold drop; rw [if_pos (by simp [hv, hm])]; exact ⟨rfl, rfl⟩

theorem drop_reserved (hr : (e.drop m).reserved = true) : e.reserved = true ∧ e.drop m = e := by
  unfold drop at hr ⊢
  split at hr
  · cases hr
  · rename_i h; rw [if_neg h]; exact ⟨hr, rfl⟩

end WriteHisEntry

namespace RowMvcc

open WriteHisEntry

variable {V : Type} {s s' : RowMvcc V}

/-- The store after dropping the versions up to `m`. -/
def dropTo (m : Nat) (s : RowMvcc V) : RowMvcc V :=
  { s with
    oldestWts := m
    writeHistory := s.writeHistory.map (WriteHisEntry.drop m)
    latestRow := if ∃ e ∈ s.writeHistory, e.valid = true ∧ e.ts ≤ m ∧ e.row = s.latestRow then none
      else s.latestRow
    numVersions := (s.writeHistory.map (WriteHisEntry.drop m)).countP (·.valid) }

theorem countP_drop (m : Nat) (wh : List WriteHisEntry) :
    wh.countP (·.valid) = (wh.map (WriteHisEntry.drop m)).countP (·.valid) +
      wh.countP (fun e => e.valid && decide (e.ts ≤ m)) := by
  induction wh with
  | nil => rfl
  | cons e es ih =>
    simp only [List.map_cons, List.countP_cons, ih]
    have : (e.drop m).valid = (e.valid && !decide (e.ts ≤ m)) := by
      rw [Bool.eq_iff_iff, drop_valid]; simp
    rw [this]
    cases e.valid <;> by_cases h : e.ts ≤ m <;> simp [h] <;> omega

theorem recycle_cases {m n n' : Nat} {wh wh' : List WriteHisEntry} {l l' : Option RowId}
    (h : recycle m wh l n = some (wh', l', n')) :
    wh' = wh.map (WriteHisEntry.drop m) ∧
      n' = n - wh.countP (fun e => e.valid && decide (e.ts ≤ m)) ∧
      l' = (if ∃ e ∈ wh, e.valid = true ∧ e.ts ≤ m ∧ e.row = l then none else l) := by
  induction wh generalizing l n wh' l' n' with
  | nil => simp [recycle] at h; obtain ⟨rfl, rfl, rfl⟩ := h; simp
  | cons e es ih =>
    rw [recycle] at h
    split at h
    · rename_i hd
      have hd' : e.valid = true ∧ e.ts ≤ m := by simpa using hd
      split at h
      · rename_i hrow
        simp only [Option.bind_eq_bind, Option.bind_eq_some_iff, Prod.exists, Option.pure_def,
          Option.some.injEq, Prod.mk.injEq] at h
        obtain ⟨a, b, c, hrec, rfl, rfl, rfl⟩ := h
        obtain ⟨rfl, rfl, rfl⟩ := ih hrec
        refine ⟨?_, ?_, ?_⟩
        · rw [List.map_cons, WriteHisEntry.drop, if_pos hd]
        · simp only [List.countP_cons, hd, if_true]; omega
        · by_cases hl : l = e.row
          · rw [if_pos hl, if_pos (show ∃ e' ∈ e :: es, _ from ⟨e, by simp, hd'.1, hd'.2, hl.symm⟩)]
            split <;> rfl
          · rw [if_neg hl]
            congr 1
            simp only [List.mem_cons, exists_eq_or_imp, eq_iff_iff]
            constructor
            · exact .inr
            · rintro (⟨-, -, h⟩ | h)
              · exact absurd h.symm hl
              · exact h
      · cases h
    · rename_i hd
      simp only [Option.bind_eq_bind, Option.bind_eq_some_iff, Prod.exists, Option.pure_def,
        Option.some.injEq, Prod.mk.injEq] at h
      obtain ⟨a, b, c, hrec, rfl, rfl, rfl⟩ := h
      obtain ⟨rfl, rfl, rfl⟩ := ih hrec
      refine ⟨?_, ?_, ?_⟩
      · rw [List.map_cons, WriteHisEntry.drop, if_neg hd]
      · simp only [List.countP_cons, hd]; rfl
      · congr 1
        simp only [List.mem_cons, exists_eq_or_imp, eq_iff_iff]
        constructor
        · exact .inr
        · rintro (⟨h1, h2, -⟩ | h)
          · exact absurd (by simp [h1, h2]) hd
          · exact h

theorem maxRecycle_cases (minTs : Nat) (hpos : ∀ e ∈ s.writeHistory, e.valid = true → 0 < e.ts) :
    ((s.maxRecycle minTs).2 = s.hisLen ∧ ∀ e ∈ s.writeHistory, e.valid = true → minTs ≤ e.ts) ∨
      (s.maxRecycle minTs).2 ≠ s.hisLen ∧ ∃ e ∈ s.writeHistory, e.valid = true ∧ e.ts < minTs ∧
        (s.maxRecycle minTs).1 = e.ts ∧
        ∀ f ∈ s.writeHistory, f.valid = true → f.ts < minTs → f.ts ≤ e.ts := by
  obtain ⟨h1, h2⟩ := Scan.scan_best (fun e : WriteHisEntry => e.valid && decide (e.ts < minTs))
    WriteHisEntry.ts (fun x b => decide (b < x)) (by simp)
    (fun x y z hxy hyz => by simp only [decide_eq_true_eq] at *; omega) s.writeHistory 0 (0, s.hisLen) _ rfl
  simp only [Bool.and_eq_true, decide_eq_true_eq, decide_eq_false_iff_not, Nat.not_lt] at h1 h2
  change s.maxRecycle minTs = _ ∨ ∃ j e, _ ∧ _ ∧ s.maxRecycle minTs = _ ∧ _ at h1
  change ∀ e ∈ s.writeHistory, e.valid = true ∧ e.ts < minTs → e.ts ≤ (s.maxRecycle minTs).1 at h2
  rcases h1 with h1 | ⟨j, e, hj, ⟨hv, hlt⟩, h1, -⟩
  · refine .inl ⟨by rw [h1], fun e he hv => ?_⟩
    by_contra hlt
    have h := h2 e he ⟨hv, by omega⟩
    have := hpos e he hv
    rw [h1] at h
    exact absurd h (by show ¬ e.ts ≤ 0; omega)
  · have hjlt : j < s.hisLen := (List.getElem?_eq_some_iff.1 hj).1
    refine .inr ⟨by rw [h1]; show 0 + j ≠ _; omega, e, List.mem_of_getElem? hj, hv, hlt, by rw [h1], ?_⟩
    intro f hf hfv hfl
    have := h2 f hf ⟨hfv, hfl⟩
    rwa [h1] at this

/-- The garbage collection drops nothing, or everything up to the newest version older than
`minTs`; it only acts on a full history. -/
theorem collect_cases {minTs : Nat} (hnum : s.numVersions = s.writeHistory.countP (·.valid))
    (hpos : ∀ e ∈ s.writeHistory, e.valid = true → s.oldestWts < e.ts) (h : s.collect minTs = some s') :
    (s' = s ∧ (s.numVersions = s.hisLen → ∀ e ∈ s.writeHistory, e.valid = true → minTs ≤ e.ts)) ∨
      (s.numVersions = s.hisLen ∧ ∃ e ∈ s.writeHistory, e.valid = true ∧ e.ts < minTs ∧
        (∀ f ∈ s.writeHistory, f.valid = true → f.ts < minTs → f.ts ≤ e.ts) ∧ s' = s.dropTo e.ts) := by
  unfold collect at h
  have hmr := maxRecycle_cases minTs fun e he hv => Nat.lt_of_le_of_lt (Nat.zero_le _) (hpos e he hv)
  split at h
  · rename_i hfull
    rcases hmr with ⟨hidx, hno⟩ | ⟨hidx, e, he, hv, hlt, hm, hmax⟩
    · rw [if_neg (by simpa using hidx)] at h
      cases h
      exact .inl ⟨rfl, fun _ => hno⟩
    · rw [if_pos hidx] at h
      simp only [Option.bind_eq_bind, Option.bind_eq_some_iff, Prod.exists, Option.pure_def,
        Option.some.injEq] at h
      obtain ⟨wh, l, n, hrec, rfl⟩ := h
      obtain ⟨rfl, rfl, rfl⟩ := recycle_cases hrec
      refine .inr ⟨hfull.2, e, he, hv, hlt, hmax, ?_⟩
      have := countP_drop e.ts s.writeHistory
      rw [dropTo, ← hm]
      congr 1
      rw [hnum, hm]; omega
  · rename_i hno
    cases h
    refine .inl ⟨rfl, fun hfull e he hv => ?_⟩
    have := hpos e he hv
    by_contra hlt
    exact hno ⟨by omega, hfull⟩

theorem freeEntry_cases (wh : List WriteHisEntry) (i idx : Nat) :
    freeEntry wh i idx = idx ∨ ∃ j e, wh[j]? = some e ∧ e.Free ∧ freeEntry wh i idx = i + j := by
  induction wh generalizing i idx with
  | nil => exact .inl rfl
  | cons e es ih =>
    rw [freeEntry]
    split
    · rename_i h
      simp only [Bool.and_eq_true, Bool.not_eq_eq_eq_not, Bool.not_true] at h
      exact .inr ⟨0, e, rfl, h.1, rfl⟩
    · split
      · rename_i h
        simp only [Bool.and_eq_true, Bool.not_eq_eq_eq_not, Bool.not_true] at h
        rcases ih (i + 1) i with hi | ⟨j, f, hj, hf, hi⟩
        · exact .inr ⟨0, e, rfl, h, hi⟩
        · exact .inr ⟨j + 1, f, by simpa using hj, hf, by omega⟩
      · rcases ih (i + 1) idx with hi | ⟨j, f, hj, hf, hi⟩
        · exact .inl hi
        · exact .inr ⟨j + 1, f, by simpa using hj, hf, by omega⟩

theorem minVersion_cases :
    (s.minVersion = (uint64Max, s.hisLen) ∧ ∀ f ∈ s.writeHistory, f.valid = true → uint64Max ≤ f.ts) ∨
      ∃ j e, s.writeHistory[j]? = some e ∧ e.valid = true ∧ s.minVersion = (e.ts, j) ∧
        ∀ f ∈ s.writeHistory, f.valid = true → e.ts ≤ f.ts := by
  obtain ⟨h1, h2⟩ := Scan.scan_best (fun e : WriteHisEntry => e.valid)
    WriteHisEntry.ts (fun x b => decide (x < b)) (by simp)
    (fun x y z hxy hyz => by simp only [decide_eq_true_eq] at *; omega) s.writeHistory 0
    (uint64Max, s.hisLen) _ rfl
  simp only [decide_eq_true_eq, decide_eq_false_iff_not, Nat.not_lt] at h1 h2
  change s.minVersion = _ ∨ ∃ j e, _ ∧ _ ∧ s.minVersion = _ ∧ _ at h1
  change ∀ e ∈ s.writeHistory, e.valid = true → s.minVersion.1 ≤ e.ts at h2
  rcases h1 with h1 | ⟨j, e, hj, hv, h1, -⟩
  · rw [h1] at h2
    exact .inl ⟨h1, h2⟩
  · rw [Nat.zero_add] at h1
    rw [h1] at h2
    exact .inr ⟨j, e, hj, hv, h1, h2⟩

theorem pickEntry_cases {g idx : Nat} (h : s.pickEntry g = some (s', idx)) :
    (s.numVersions < s.hisLen ∧ s' = s ∧ ∃ e, s.writeHistory[idx]? = some e ∧ e.Free) ∨
      (s.hisLen ≤ s.numVersions ∧ g ≤ s.hisLen ∧ ∃ e, s.writeHistory[idx]? = some e ∧ e.valid = true ∧
        (∀ f ∈ s.writeHistory, f.valid = true → e.ts ≤ f.ts) ∧
        s' = { s with oldestWts := e.ts, numVersions := s.numVersions - 1 }) ∨
      (s.hisLen ≤ s.numVersions ∧ s.hisLen < g ∧ s' = s.doubleHistory ∧ idx = s.hisLen) := by
  unfold pickEntry at h
  split at h
  · rename_i hnum
    split at h
    · rename_i hlt
      cases h
      rcases freeEntry_cases s.writeHistory 0 s.hisLen with hf | ⟨j, e, hj, hf, hi⟩
      · omega
      · exact .inl ⟨hnum, rfl, e, by rw [hi, Nat.zero_add]; exact hj, hf⟩
    · cases h
  · rename_i hnum
    split at h
    · rename_i hg
      rcases s.minVersion_cases with ⟨hm, -⟩ | ⟨j, e, hj, hv, hm, hmin⟩
      · have hnone : s.writeHistory[s.hisLen]? = none := List.getElem?_eq_none (Nat.le_refl _)
        rw [hm] at h; simp [hnone] at h
      · rw [hm, hj] at h
        simp only [Option.bind_eq_bind, Option.bind_some] at h
        split at h
        · cases h
          exact .inr (.inl ⟨by omega, hg, e, hj, hv, hmin, rfl⟩)
        · cases h
    · rename_i hg
      cases h
      exact .inr (.inr ⟨by omega, by omega, rfl, rfl⟩)

/-! ### The request array -/

/-- The pending requests: the valid entries of `_requests`. -/
def pending (s : RowMvcc V) : List ReqEntry := s.requests.filter (·.valid)

theorem mem_pending {q : ReqEntry} : q ∈ s.pending ↔ q ∈ s.requests ∧ q.valid = true := List.mem_filter

theorem placeReq_perm {q : ReqEntry} (hq : q.valid = true) {reqs reqs' : List ReqEntry}
    (h : placeReq q reqs = some reqs') :
    List.Perm (reqs'.filter (·.valid)) (q :: reqs.filter (·.valid)) := by
  induction reqs generalizing reqs' with
  | nil => cases h
  | cons e es ih =>
    rw [placeReq] at h
    split at h
    · rename_i he
      obtain ⟨es', hes, rfl⟩ := Option.map_eq_some_iff.1 h
      rw [List.filter_cons_of_pos he, List.filter_cons_of_pos he]
      exact ((ih hes).cons e).trans (.swap ..)
    · rename_i he
      cases h
      rw [List.filter_cons_of_pos hq, List.filter_cons_of_neg he]

/-- `buffer_req` adds the request to the pending ones and changes nothing else. -/
theorem bufferReq_cases {type : TsType} {ts : Nat} (h : s.bufferReq type ts = some s') :
    (∃ reqs, s' = { s with requests := reqs }) ∧ List.Perm s'.pending (⟨true, type, ts⟩ :: s.pending) := by
  unfold bufferReq at h
  split at h
  · rename_i reqs hp
    cases h
    exact ⟨⟨reqs, rfl⟩, placeReq_perm rfl hp⟩
  · obtain ⟨reqs, hp, rfl⟩ := Option.map_eq_some_iff.1 h
    refine ⟨⟨reqs, rfl⟩, ?_⟩
    have hrep : (List.replicate s.requests.length (⟨false, .rReq, 0⟩ : ReqEntry)).filter (·.valid) = [] := by
      simp
    have := placeReq_perm rfl hp
    rwa [doubleRequests, List.filter_append, hrep, List.append_nil] at this

end RowMvcc

end Dbx1000
