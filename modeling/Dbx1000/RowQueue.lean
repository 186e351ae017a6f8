import Mathlib.Data.List.Nodup
import Dbx1000.RowInv
import Dbx1000.RowLocal

/-!
# The release of queued requests

`update_buffer` in every reachable store: the call returns, it releases the pending reads below the
first pending prewrite and that prewrite, all with the bytes committed last, and leaves the other
entries of `_requests` as they are (`Released`). The reserved row of the granted prewrite may be the
row a read was given earlier in the same pass; both then hold the same bytes. Over a run nobody is
answered twice, since a transaction that was answered does not wait again.
-/

namespace Dbx1000

/-- A read below the first pending prewrite, or that prewrite. -/
def ReqEntry.due (first : Option Nat) (q : ReqEntry) : Bool :=
  decide (q.type = .rReq) && first.all (fun n => decide (q.ts < n)) || decide (q.type = .pReq ∧ first = some q.ts)

namespace RowMvcc

variable {V : Type} {g minTs ts next : Nat} {v₀ : V} {h : List (Nat × V)}
  {s s' : RowMvcc V} {qs qs' : List ReqEntry} {ws : List Wake}

/-- The smallest timestamp of a pending `P_REQ`; `none` if there is none. -/
def firstPrewrite (s : RowMvcc V) : Option Nat :=
  ((s.pending.filter fun q => q.type = .pReq).map ReqEntry.ts).min?

/-- The requests `ws` are released exactly as they should, `v` being the bytes committed last. -/
structure Released (s s' : RowMvcc V) (v : V) (ws : List Wake) : Prop where
  due : ws.map (fun w => (w.ts, w.type)) =
    (s.pending.filter (ReqEntry.due s.firstPrewrite)).map fun q => (q.ts, q.type)
  once : (ws.map Wake.ts).Nodup
  read : ∀ w ∈ ws, w.type = .rReq → s'.mem w.row = some v
  granted : ∀ w ∈ ws, w.type = .pReq → Writable s' w.row ∧ s'.prewriteTs = w.ts ∧ s'.mem w.row = some v
  max : s'.maxServedRts = ((ws.filter fun w => w.type = .rReq).map Wake.ts).foldl max s.maxServedRts
  kept : s'.requests = s.requests.map fun q =>
    if q.valid && q.due s.firstPrewrite then { q with valid := false } else q

/-! ### The next prewrite -/

theorem firstPrewrite_eq_some {n : Nat} (hn : s.firstPrewrite = some n) :
    (∃ q ∈ s.pending, q.type = .pReq ∧ q.ts = n) ∧ ∀ q ∈ s.pending, q.type = .pReq → n ≤ q.ts := by
  rw [firstPrewrite, List.min?_eq_some_iff] at hn
  obtain ⟨hmem, hle⟩ := hn
  simp only [List.mem_map, List.mem_filter, decide_eq_true_eq] at hmem hle
  obtain ⟨q, ⟨hq, hqp⟩, hqn⟩ := hmem
  exact ⟨⟨q, hq, hqp, hqn⟩, fun q' hq' hp' => hle q'.ts ⟨q', ⟨hq', hp'⟩, rfl⟩⟩

theorem firstPrewrite_eq_none (hn : s.firstPrewrite = none) : ∀ q ∈ s.pending, q.type ≠ .pReq := by
  rw [firstPrewrite, List.min?_eq_none_iff, List.map_eq_nil_iff, List.filter_eq_nil_iff] at hn
  intro q hq
  simpa using hn q hq

/-- What `update_buffer` may assume of the pending requests. -/
structure Queue (ts : Nat) (s : RowMvcc V) : Prop where
  above : ∀ q ∈ s.pending, ts < q.ts
  le : ∀ q ∈ s.pending, q.ts ≤ uint64Max
  type : ∀ q ∈ s.pending, q.type = .rReq ∨ q.type = .pReq
  nodup : (s.pending.map ReqEntry.ts).Nodup

theorem Queue.eq_of_ts (hq : Queue ts s) {q q' : ReqEntry} (h : q ∈ s.pending) (h' : q' ∈ s.pending)
    (he : q.ts = q'.ts) : q = q' :=
  List.inj_on_of_nodup_map hq.nodup h h' he

/-- `next_pre_ts` is the first pending prewrite, with `UINT64_MAX` for none. -/
theorem Queue.nextPreTs (hq : Queue ts s) : nextPreTs ts s.requests = s.firstPrewrite.getD uint64Max := by
  cases hf : s.firstPrewrite with
  | none =>
    rcases nextPreTs_mem ts s.requests with h1 | ⟨q, hqm, hv, hp, -⟩
    · exact h1
    · exact absurd hp (firstPrewrite_eq_none hf q (mem_pending.2 ⟨hqm, hv⟩))
  | some n =>
    obtain ⟨⟨q, hqm, hqp, rfl⟩, hmin⟩ := firstPrewrite_eq_some hf
    obtain ⟨hqr, hqv⟩ := mem_pending.1 hqm
    have hle := nextPreTs_le hqr hqv hqp (hq.above q hqm)
    show RowMvcc.nextPreTs ts s.requests = q.ts
    rcases nextPreTs_mem ts s.requests with h1 | ⟨q', hqm', hv', hp', -, h1⟩
    · have := hq.le q hqm
      omega
    · have := hmin q' (mem_pending.2 ⟨hqm', hv'⟩) hp'
      omega

/-- The loop releases what is due. -/
theorem Queue.fires_eq_due (hq : Queue ts s) {q : ReqEntry} (hqm : q ∈ s.pending) :
    q.fires (RowMvcc.nextPreTs ts s.requests) = q.due s.firstPrewrite := by
  have hv := (mem_pending.1 hqm).2
  have hle := hq.le q hqm
  rw [hq.nextPreTs, Bool.eq_iff_iff]
  simp only [ReqEntry.fires, ReqEntry.due, hv, Bool.true_and, Bool.or_eq_true, Bool.and_eq_true, decide_eq_true_eq]
  cases hf : s.firstPrewrite with
  | none =>
    have hr := (hq.type q hqm).resolve_right (firstPrewrite_eq_none hf q hqm)
    simp only [hr, Option.all_none, Option.getD_none, true_and, true_or, iff_true]
    omega
  | some n =>
    obtain ⟨⟨p, hpm, hpp, rfl⟩, -⟩ := firstPrewrite_eq_some hf
    simp only [Option.all_some, Option.getD_some, decide_eq_true_eq, Option.some.injEq]
    refine or_congr_right ⟨fun he => ?_, fun he => he.2.symm⟩
    rw [hq.eq_of_ts hqm hpm he]
    exact ⟨hpp, rfl⟩

theorem Queue.fires_eq (hq : Queue ts s) {q : ReqEntry} (hqr : q ∈ s.requests) :
    q.fires (RowMvcc.nextPreTs ts s.requests) = (q.valid && q.due s.firstPrewrite) := by
  cases hv : q.valid with
  | true => rw [hq.fires_eq_due (mem_pending.2 ⟨hqr, hv⟩), Bool.true_and]
  | false => simp [ReqEntry.fires, hv]

theorem Queue.filter_fires (hq : Queue ts s) :
    s.requests.filter (ReqEntry.fires (RowMvcc.nextPreTs ts s.requests)) =
      s.pending.filter (ReqEntry.due s.firstPrewrite) := by
  rw [pending, List.filter_filter]
  refine List.filter_congr fun q hqr => ?_
  rw [hq.fires_eq hqr, Bool.and_comm]

theorem Queue.nextPreTs_le_max (hq : Queue ts s) : RowMvcc.nextPreTs ts s.requests ≤ uint64Max := by
  rcases nextPreTs_mem ts s.requests with h1 | ⟨q, hqr, hv, -, -, h1⟩
  · exact Nat.le_of_eq h1
  · rw [← h1]; exact hq.le q (mem_pending.2 ⟨hqr, hv⟩)

/-- With the reads below `UINT64_MAX`, only a prewrite is at `next_pre_ts`. -/
theorem Queue.pReq_of_next (hq : Queue ts s) (hread : ∀ q ∈ s.pending, q.type = .rReq → q.ts < uint64Max)
    {q : ReqEntry} (hqm : q ∈ s.pending) (he : q.ts = RowMvcc.nextPreTs ts s.requests) : q.type = .pReq := by
  rcases nextPreTs_mem ts s.requests with h1 | ⟨p, hpr, hv, hp, -, h1⟩
  · refine (hq.type q hqm).resolve_left fun hr => ?_
    have := hread q hqm hr
    omega
  · rw [hq.eq_of_ts hqm (mem_pending.2 ⟨hpr, hv⟩) (he.trans h1.symm)]
    exact hp

/-! ### What is handed out -/

theorem pending_clear_sublist (next : Nat) (qs : List ReqEntry) :
    List.Sublist (((qs.map (ReqEntry.clear next)).filter (·.valid)).map ReqEntry.ts)
      ((qs.filter (·.valid)).map ReqEntry.ts) := by
  induction qs with
  | nil => exact .slnil
  | cons q qs ih =>
    simp only [List.map_cons, ReqEntry.clear]
    split
    · rename_i hf
      rw [List.filter_cons_of_neg (by simp), List.filter_cons_of_pos (Bool.and_eq_true_iff.1 hf).1]
      exact ih.cons _
    · by_cases hv : q.valid = true
      · rw [List.filter_cons_of_pos hv, List.filter_cons_of_pos hv]
        exact ih.cons_cons _
      · rw [List.filter_cons_of_neg hv, List.filter_cons_of_neg hv]
        exact ih

theorem Updated.nodup {next : Nat} (hu : Updated g v₀ h next s s' ws) (hnd : (s.pending.map ReqEntry.ts).Nodup) :
    (s'.pending.map ReqEntry.ts).Nodup ∧ (ws.map Wake.ts).Nodup := by
  obtain ⟨t, -, rfl⟩ := hu.loop
  refine ⟨hnd.sublist (pending_clear_sublist next s.requests), ?_⟩
  have hfired : s.requests.filter (ReqEntry.fires next) = s.pending.filter (ReqEntry.fires next) := by
    rw [pending, List.filter_filter]
    refine List.filter_congr fun q _ => ?_
    cases hv : q.valid <;> simp [ReqEntry.fires, hv]
  have hmap : ws.map Wake.ts = (s.pending.filter (ReqEntry.fires next)).map ReqEntry.ts := by
    rw [← hfired]
    simpa [Function.comp_def] using congrArg (List.map Prod.fst) hu.fired
  rw [hmap]
  exact hnd.sublist (List.filter_sublist.map _)

/-- Beside `Loop`: the granted row holds the page's bytes, and `_max_served_rts` is the largest of
the reads released so far. -/
structure Handed (s₀ s : RowMvcc V) (ws : List Wake) : Prop where
  bytes : ∀ w ∈ ws, w.type = .pReq → s.mem w.row = some s₀.page
  max : s.maxServedRts = ((ws.filter fun w => w.type = .rReq).map Wake.ts).foldl max s₀.maxServedRts

theorem Handed.start : Handed s s [] := ⟨nofun, rfl⟩

theorem Writable.live {r : RowId} (hh : Heap s) (hw : Writable s r) : r < s.nextRow ∧ (s.mem r).isSome = true := by
  obtain ⟨-, e, he, her⟩ := hw
  exact hh.live e (List.mem_of_getElem? he) r her

theorem Handed.serve {s₀ : RowMvcc V} {t : Nat} {r : RowId} (hl : Loop g v₀ h next s₀ s ws) (hi : Handed s₀ s ws)
    (ht : t < next) (hr : s.serveLatest t = some (s', r)) : Handed s₀ s' (ws ++ [⟨t, .rReq, r⟩]) := by
  obtain ⟨-, hlat, hmax⟩ := serveLatest_spec hl.core (fun hp => by rw [(hl.pre hp).1]; exact ht) hr
  refine ⟨fun w hw hwt => ?_, ?_⟩
  · rcases List.mem_append.1 hw with hw | hw
    · rw [hlat.mem _ ((hl.grant w hw hwt).2.1.live hl.core.heap).1]
      exact hi.bytes w hw hwt
    · rw [List.mem_singleton.1 hw] at hwt
      cases hwt
  · rw [hmax, hi.max, List.filter_append, List.map_append, List.foldl_append]
    simp

theorem withLatest_isSome (hs : Hist g s) : ∃ s' r, s.withLatest = some (s', r) := by
  unfold withLatest
  cases hl : s.latestRow with
  | some r => exact ⟨s, r, rfl⟩
  | none =>
    obtain ⟨hrow, hnum⟩ := hs.latestNone hl
    simp only [getLatestRow, hl, hrow, hnum, and_self, if_true]
    exact ⟨_, _, rfl⟩

theorem serveLatest_isSome (hs : Hist g s) (t : Nat) : ∃ s' r, s.serveLatest t = some (s', r) := by
  obtain ⟨u, r, hu⟩ := withLatest_isSome hs
  rw [serveLatest, hu]
  exact ⟨_, _, rfl⟩

variable [Inhabited V]

theorem Handed.granted {s₀ : RowMvcc V} {r : RowId} (hl : Loop g v₀ h next s₀ s ws) (hi : Handed s₀ s ws)
    (ht : s₀.latestWts < next) (hr : s.grant g minTs next = some (s', r)) :
    Handed s₀ s' (ws ++ [⟨next, .pReq, r⟩]) := by
  obtain ⟨-, hg⟩ := grant_spec hl.core (by rw [hl.latestWts]; exact ht) hl.max hr
  refine ⟨fun w hw hwt => ?_, ?_⟩
  · rcases List.mem_append.1 hw with hw | hw
    · -- there was no prewrite before
      have := (hl.grant w hw hwt).2.1.1
      rw [grant_existsPrewrite hr] at this
      cases this
    · rw [List.mem_singleton.1 hw, hg.bytes, hl.page]
  · rw [hg.maxServedRts, hi.max, List.filter_append]
    simp

/-! ### The loop returns -/

theorem grant_isSome (hc : Core g v₀ h s) (hp : s.existsPrewrite = false) (hw : s.latestWts < ts)
    (hm : s.maxServedRts < ts) (hts : ts ≤ uint64Max) (minTs : Nat) : ∃ s' r, s.grant g minTs ts = some (s', r) := by
  obtain ⟨⟨u, r⟩, hu⟩ := reserveRow_isSome hc.hist hc.heap hp (by omega) minTs ts
  have hcu := reserveRow_core hc hw hm hu
  obtain ⟨t, l, ht⟩ := withLatest_isSome hcu.hist
  obtain ⟨-, hlat, -⟩ := withLatest_spec hcu ht
  simp only [grant, hu, ht, hlat.bytes, Option.bind_eq_bind, Option.bind_some]
  exact ⟨_, _, rfl⟩

/-- The loop returns: no assertion of it fails, and it grants at most once. -/
theorem updateLoop_isSome {s₀ : RowMvcc V} (hw : s₀.latestWts ≤ ts) (hmax : next ≤ uint64Max)
    (hts : ∀ q ∈ qs, q.valid = true → ts < q.ts)
    (hty : ∀ q ∈ qs, q.valid = true → q.ts = next → q.type = .pReq)
    (hnd : ((qs.filter (·.valid)).map ReqEntry.ts).Nodup) (hl : Loop g v₀ h next s₀ s ws)
    (hnew : ∀ w ∈ ws, ∀ q ∈ qs, q.valid = true → w.ts ≠ q.ts) (minTs : Nat) :
    ∃ qs' s' ws', updateLoop g minTs ts next qs s = some (qs', s', ws') := by
  induction qs generalizing s ws with
  | nil => exact ⟨[], s, [], rfl⟩
  | cons q qs ih =>
    have hts' := fun x hx => hts x (List.mem_cons_of_mem q hx)
    have hty' := fun x hx => hty x (List.mem_cons_of_mem q hx)
    have hnew' := fun w hw x hx => hnew w hw x (List.mem_cons_of_mem q hx)
    rw [updateLoop]
    by_cases hv : q.valid = true
    · rw [List.filter_cons_of_pos hv, List.map_cons, List.nodup_cons] at hnd
      -- what is released here is not released again further on
      have hself : ∀ r, ∀ w ∈ ws ++ [⟨q.ts, q.type, r⟩], ∀ x ∈ qs, x.valid = true → w.ts ≠ x.ts := by
        intro r w hw x hx hxv
        rcases List.mem_append.1 hw with hw | hw
        · exact hnew' w hw x hx hxv
        · rw [List.mem_singleton.1 hw]
          intro he
          exact hnd.1 (List.mem_map.2 ⟨x, List.mem_filter.2 ⟨hx, hxv⟩, he.symm⟩)
      rw [if_pos hv, if_pos (hts q List.mem_cons_self hv)]
      by_cases hrd : q.type = .rReq ∧ q.ts < next
      · obtain ⟨u, r, hu⟩ := serveLatest_isSome hl.core.hist q.ts
        have hlu := hl.serve hrd.2 hu
        obtain ⟨qs', s', ws', hrec⟩ := ih hts' hty' hnd.2 hlu (hrd.1 ▸ hself r)
        rw [if_pos hrd, hu]
        simp only [Option.bind_eq_bind, Option.bind_some, hrec]
        exact ⟨_, _, _, rfl⟩
      · rw [if_neg hrd]
        by_cases hnext : q.ts = next
        · have hp := hty q List.mem_cons_self hv hnext
          have hlt : s₀.latestWts < next := by
            have := hts q List.mem_cons_self hv
            omega
          have hpre : s.existsPrewrite = false := by
            by_contra hpre
            obtain ⟨-, w, hw, hwt, -⟩ := hl.pre (by simpa using hpre)
            exact hnew w hw q List.mem_cons_self hv (hwt.trans hnext.symm)
          obtain ⟨u, r, hu⟩ := grant_isSome hl.core hpre (by rw [hl.latestWts]; exact hlt) hl.max hmax minTs
          have hlu := hl.granted hlt hu
          obtain ⟨qs', s', ws', hrec⟩ := ih hts' hty' hnd.2 hlu (by rw [← hp, ← hnext]; exact hself r)
          rw [if_pos hnext, if_pos hp, hnext, hu]
          simp only [Option.bind_eq_bind, Option.bind_some, hrec]
          exact ⟨_, _, _, rfl⟩
        · obtain ⟨qs', s', ws', hrec⟩ := ih hts' hty' hnd.2 hl hnew'
          rw [if_neg hnext]
          simp only [Option.bind_eq_bind, Option.bind_some, hrec]
          exact ⟨_, _, _, rfl⟩
    · rw [List.filter_cons_of_neg hv] at hnd
      obtain ⟨qs', s', ws', hrec⟩ := ih hts' hty' hnd hl hnew'
      rw [if_neg hv]
      simp only [Option.bind_eq_bind, Option.bind_some, hrec]
      exact ⟨_, _, _, rfl⟩

theorem updateLoop_handed (hc : Core g v₀ h s) (hp : s.existsPrewrite = false)
    (hm : s.maxServedRts < RowMvcc.nextPreTs ts s.requests) (hw : s.latestWts ≤ ts)
    (hr : updateLoop g minTs ts (RowMvcc.nextPreTs ts s.requests) s.requests s = some (qs', s', ws)) :
    Loop g v₀ h (RowMvcc.nextPreTs ts s.requests) s s' ws ∧ Handed s s' ws :=
  updateLoop_rule (P := fun u ws => Loop g v₀ h (RowMvcc.nextPreTs ts s.requests) s u ws ∧ Handed s u ws)
    (fun u ws t u' r hi _ ht hst => ⟨hi.1.serve ht hst, hi.2.serve hi.1 ht hst⟩)
    (fun u ws q u' r hi _ _ _ _ ht hst => ⟨hi.1.granted (by omega) hst, hi.2.granted hi.1 (by omega) hst⟩)
    ⟨.start hc hp hm, .start⟩ hr

/-- `update_buffer` returns and releases what is due. -/
theorem updateBuffer_released (hc : Core g v₀ h s) (hp : s.existsPrewrite = false) (hts : ts ≤ uint64Max)
    (hm : s.maxServedRts < ts) (hw : s.latestWts ≤ ts) (hq : Queue ts s)
    (hread : ∀ q ∈ s.pending, q.type = .rReq → q.ts < uint64Max) (minTs : Nat) :
    ∃ s' ws, s.updateBuffer g minTs ts = some (s', ws) ∧ Released s s' s.page ws := by
  have hnext : s.maxServedRts < RowMvcc.nextPreTs ts s.requests := Nat.lt_of_lt_of_le hm (le_nextPreTs hts)
  obtain ⟨qs', t, ws, hrun⟩ := updateLoop_isSome (g := g) hw hq.nextPreTs_le_max
    (fun q hqr hv => hq.above q (mem_pending.2 ⟨hqr, hv⟩))
    (fun q hqr hv he => hq.pReq_of_next hread (mem_pending.2 ⟨hqr, hv⟩) he) hq.nodup
    (.start hc hp hnext) nofun minTs
  obtain ⟨rfl, hws, -⟩ := updateLoop_reqs hrun
  obtain ⟨hl, hh⟩ := updateLoop_handed hc hp hnext hw hrun
  refine ⟨{ t with requests := s.requests.map (ReqEntry.clear _) }, ws, by rw [updateBuffer, hrun]; rfl,
    by rw [hws, hq.filter_fires], (Updated.nodup ⟨⟨t, hl, rfl⟩, hws⟩ hq.nodup).2,
    fun w hw hwt => (hl.read w hw hwt).2.2, fun w hw hwt => ?_, hh.max, List.map_congr_left fun q hqr => ?_⟩
  · obtain ⟨h1, h2, h3⟩ := hl.grant w hw hwt
    exact ⟨h2, h3.trans h1.symm, hh.bytes w hw hwt⟩
  · rw [ReqEntry.clear, hq.fires_eq hqr]

end RowMvcc

/-! ### The queue of a run -/

open RowMvcc

namespace RowSt

variable {V : Type} [Inhabited V]

/-- The requests that `a` releases. -/
def wakes (gThreadCnt : Nat) (st : RowSt V) : RowEv V → List Wake
  | .write ts minTs =>
    match st.phase ts with
    | .granted r => ((st.row.access gThreadCnt minTs ts .wReq r).map fun p => p.2.woken).getD []
    | _ => []
  | .undo ts minTs =>
    match st.phase ts with
    | .granted r => ((st.row.access gThreadCnt minTs ts .xpReq r).map fun p => p.2.woken).getD []
    | _ => []
  | _ => []

/-- The requests released along a run. -/
def answers (gThreadCnt : Nat) : RowSt V → List (RowEv V) → List Wake
  | _, [] => []
  | st, a :: as => st.wakes gThreadCnt a ++ ((st.step gThreadCnt a).map fun st' => st'.answers gThreadCnt as).getD []

end RowSt

/-- A transaction that has not been answered. -/
def Phase.Open (p : Phase) : Prop := p = .idle ∨ ∃ ty, p = .waiting ty

@[simp] theorem Phase.not_open_reading (r : RowId) : ¬ (Phase.reading r).Open := by simp [Open]

@[simp] theorem Phase.not_open_granted (r : RowId) : ¬ (Phase.granted r).Open := by simp [Open]

@[simp] theorem Phase.not_open_finished : ¬ Phase.finished.Open := by simp [Open]

theorem Wake.not_open_phase (w : Wake) : ¬ w.phase.Open := by
  rintro (h | ⟨ty, h⟩)
  · exact w.phase_ne.1 h
  · exact w.phase_ne.2 ty h

variable {V : Type} {g : Nat} {v₀ : V} {st st' : RowSt V}

/-- A transaction that does not wait moves to a phase after its answer. -/
theorem phase_update {t : Nat} {p : Phase} (ht : ∀ ty, st.phase t ≠ .waiting ty) (hp : ¬ p.Open) (x : Nat) :
    Function.update st.phase t p x = st.phase x ∨
      (∀ ty, st.phase x ≠ .waiting ty) ∧ ¬ (Function.update st.phase t p x).Open := by
  by_cases hx : x = t
  · rw [hx, Function.update_self]
    exact .inr ⟨ht, hp⟩
  · exact .inl (Function.update_of_ne hx ..)

theorem RowInv.Ended.queue {ts : Nat} {c : List (Nat × V)} {u : RowMvcc V} (hi : RowInv g v₀ st)
    (hnd : (st.row.pending.map ReqEntry.ts).Nodup) (he : RowInv.Ended g v₀ st ts c u) : Queue ts u := by
  obtain ⟨r, hr⟩ := he.holder
  obtain ⟨-, rfl⟩ := hi.granted ts r hr
  constructor <;> rw [he.pending]
  · exact fun q hq => (hi.pend q hq).2.1
  · exact fun q hq => hi.bound q.ts (by rw [(hi.pend q hq).2.2.1]; exact Phase.noConfusion)
  · exact fun q hq => (hi.pend q hq).2.2.2
  · exact hnd

variable [Inhabited V]

/-- What a step does to the queue, `ws` being released. -/
inductive QueueStep (g : Nat) (v₀ : V) (st : RowSt V) : List Wake → RowSt V → Prop
  | quiet {st' : RowSt V} (hreq : st'.row.requests = st.row.requests)
      (hph : ∀ t, st'.phase t = st.phase t ∨ (∀ ty, st.phase t ≠ .waiting ty) ∧ ¬ (st'.phase t).Open) :
      QueueStep g v₀ st [] st'
  | enqueue {st' : RowSt V} {ts : Nat} {ty : TsType} (hf : st.Fresh ts)
      (hperm : List.Perm st'.row.pending (⟨true, ty, ts⟩ :: st.row.pending))
      (hph : st'.phase = Function.update st.phase ts (.waiting ty)) : QueueStep g v₀ st [] st'
  | resumed {ts m : Nat} {c : List (Nat × V)} {u row : RowMvcc V} {ws : List Wake} (he : RowInv.Ended g v₀ st ts c u)
      (hu : u.updateBuffer g m ts = some (row, ws)) : QueueStep g v₀ st ws ({ st with commits := c }.resume ts row ws)

theorem QueueStep.of_step (hi : RowInv g v₀ st) {a : RowEv V} (h : st.step g a = some st') :
    QueueStep g v₀ st (st.wakes g a) st' := by
  cases RowStep.of_step h with
  | readAbort hf _ => exact .quiet rfl (phase_update hf.off.2 (by simp))
  | preAbort hf => exact .quiet rfl (phase_update hf.off.2 (by simp))
  | readWait hf _ _ _ hb => exact .enqueue hf (bufferReq_cases hb).2 rfl
  | preWait hf _ _ hb => exact .enqueue hf (bufferReq_cases hb).2 rfl
  | readLatest hf _ hp hs =>
    exact .quiet (serveLatest_spec hi.core (hi.lt_prewriteTs hf hp) hs).2.1.requests (phase_update hf.off.2 (by simp))
  | readOld hf _ _ hs =>
    refine .quiet ?_ (phase_update hf.off.2 (by simp))
    rcases readHistory_cases hs with ⟨-, hlat⟩ | ⟨e, -, -, -, -, rfl, -⟩
    · exact (withLatest_spec hi.core hlat).2.1.requests
    · rfl
  | preGrant hf hp hw hm hs =>
    obtain ⟨hfw, hfm⟩ := hi.fresh _ hf.1 hf.2.2
    exact .quiet (grant_spec hi.core (Nat.lt_of_le_of_ne hw hfw) (Nat.lt_of_le_of_ne hm hfm) hs).2.requests
      (phase_update hf.off.2 (by simp))
  | modify hg => exact .quiet rfl fun t => .inl rfl
  | finish hr => exact .quiet rfl (phase_update (by simp [hr]) (by simp))
  | @write ts m r v u row ws hg hv hc hu =>
    have hws : st.wakes g (.write ts m) = ws := by simp [RowSt.wakes, hg, RowMvcc.access, hc, hu]
    rw [hws]
    exact .resumed (hi.ended_commit hg hv hc).1 hu
  | @undo ts m r u row ws hg hc hu =>
    have hws : st.wakes g (.undo ts m) = ws := by simp [RowSt.wakes, hg, RowMvcc.access, hc, hu]
    rw [hws]
    exact .resumed (hi.ended_release hg hc) hu

section QueueStep

variable {ws : List Wake} (hq : QueueStep g v₀ st ws st')

include hq

/-- Who is open afterwards was open and is not released. -/
theorem QueueStep.open_of_open {t : Nat} (ht : (st'.phase t).Open) : (st.phase t).Open ∧ ∀ w ∈ ws, w.ts ≠ t := by
  cases hq with
  | quiet hreq hph =>
    rcases hph t with h | ⟨-, h⟩
    · exact ⟨h ▸ ht, nofun⟩
    · exact absurd ht h
  | @enqueue _ ts ty hf hperm hph =>
    refine ⟨?_, nofun⟩
    by_cases hne : t = ts
    · rw [hne]; exact .inl hf.2.2
    · rwa [hph, Function.update_of_ne hne] at ht
  | @resumed ts m c u row ws he hu =>
    have ht : (wakeAll (Function.update st.phase ts .finished) ws t).Open := ht
    have hfin : wakeAll (Function.update st.phase ts .finished) ws t ≠ .finished := by
      intro h
      rw [h] at ht
      exact Phase.not_open_finished ht
    rcases woken_cases rfl hfin with ⟨w, -, -, hph⟩ | ⟨hno, -, hst⟩
    · rw [← hph] at ht
      exact absurd ht w.not_open_phase
    · rw [← hst] at ht
      exact ⟨ht, hno⟩

/-- Who is released is not open any more. -/
theorem QueueStep.released_closed {w : Wake} (hw : w ∈ ws) : ¬ (st'.phase w.ts).Open :=
  fun ht => (hq.open_of_open ht).2 w hw rfl

variable (hi : RowInv g v₀ st)

include hi

/-- The pending requests have distinct timestamps, and nobody is released twice in a pass. -/
theorem QueueStep.nodup (hnd : (st.row.pending.map ReqEntry.ts).Nodup) :
    (st'.row.pending.map ReqEntry.ts).Nodup ∧ (ws.map Wake.ts).Nodup := by
  cases hq with
  | quiet hreq hph =>
    refine ⟨?_, List.nodup_nil⟩
    rwa [pending, hreq]
  | @enqueue _ ts ty hf hperm hph =>
    refine ⟨(hperm.map ReqEntry.ts).nodup_iff.2 (List.nodup_cons.2 ⟨?_, hnd⟩), List.nodup_nil⟩
    intro hmem
    obtain ⟨q, hqm, hqt⟩ := List.mem_map.1 hmem
    have hwait := (hi.pend q hqm).2.2.1
    rw [show q.ts = ts from hqt, hf.2.2] at hwait
    cases hwait
  | resumed he hu => exact (he.updated hi hu).1.nodup (by rwa [he.pending])

/-- Who waits is released or waits on. -/
theorem QueueStep.waiting {t : Nat} {ty : TsType} (ht : st.phase t = .waiting ty) :
    (∃ w ∈ ws, w.ts = t ∧ w.type = ty) ∨ st'.phase t = .waiting ty := by
  cases hq with
  | quiet hreq hph =>
    rcases hph t with h | ⟨h, -⟩
    · exact .inr (h.trans ht)
    · exact absurd ht (h ty)
  | @enqueue _ ts ty' hf hperm hph =>
    have hne : t ≠ ts := by
      rintro rfl
      rw [hf.2.2] at ht; cases ht
    exact .inr (by rw [hph, Function.update_of_ne hne, ht])
  | @resumed ts m c u row ws he hu =>
    rcases wakeAll_cases (Function.update st.phase ts .finished) ws t with ⟨-, h1⟩ | ⟨w, hw, hwt, -⟩
    · have hne : t ≠ ts := by
        rintro rfl
        obtain ⟨r, hr⟩ := he.holder
        rw [hr] at ht; cases ht
      exact .inr (h1.trans (by rw [Function.update_of_ne hne, ht]))
    · have hrel := (he.released hi hu hw).1
      rw [hwt, ht] at hrel
      exact .inl ⟨w, hw, hwt, (Phase.waiting.inj hrel).symm⟩

/-- Who is released was waiting. -/
theorem QueueStep.released_open {w : Wake} (hw : w ∈ ws) : (st.phase w.ts).Open := by
  cases hq with
  | quiet => cases hw
  | enqueue => cases hw
  | resumed he hu => exact .inr ⟨w.type, (he.released hi hu hw).1⟩

end QueueStep

theorem RowSt.answers_cons {a : RowEv V} {as : List (RowEv V)} (h : st.step g a = some st') :
    st.answers g (a :: as) = st.wakes g a ++ st'.answers g as := by
  rw [RowSt.answers, h]
  rfl

/-- Along a run only open transactions are answered, and each at most once. -/
theorem RowInv.answers_nodup {evs : List (RowEv V)} (hi : RowInv g v₀ st)
    (hnd : (st.row.pending.map ReqEntry.ts).Nodup) (hr : (rowLts g v₀).run st evs = some st') :
    ((st.answers g evs).map Wake.ts).Nodup ∧ ∀ w ∈ st.answers g evs, (st.phase w.ts).Open := by
  induction evs generalizing st with
  | nil => exact ⟨List.nodup_nil, nofun⟩
  | cons a as ih =>
    obtain ⟨t, ht, hr⟩ := Lts.run_cons_eq_some.1 hr
    have hq := QueueStep.of_step hi ht
    obtain ⟨hnd', hws⟩ := hq.nodup hi hnd
    obtain ⟨ih1, ih2⟩ := ih (hi.step ht) hnd' hr
    rw [RowSt.answers_cons ht, List.map_append]
    refine ⟨hws.append ih1 ?_, fun w hw => ?_⟩
    · intro x hx hx'
      obtain ⟨w, hw, rfl⟩ := List.mem_map.1 hx
      obtain ⟨w', hw', he⟩ := List.mem_map.1 hx'
      exact hq.released_closed hw (he ▸ ih2 w' hw')
    · rcases List.mem_append.1 hw with hw | hw
      · exact hq.released_open hi hw
      · exact (hq.open_of_open (ih2 w hw)).1

/-- Along a run a waiting transaction is answered or waits on. -/
theorem RowInv.answered_or_waiting {evs : List (RowEv V)} (hi : RowInv g v₀ st)
    (hr : (rowLts g v₀).run st evs = some st') {t : Nat} {ty : TsType} (ht : st.phase t = .waiting ty) :
    (∃ w ∈ st.answers g evs, w.ts = t ∧ w.type = ty) ∨ st'.phase t = .waiting ty := by
  induction evs generalizing st with
  | nil => cases hr; exact .inr ht
  | cons a as ih =>
    obtain ⟨u, hu, hr⟩ := Lts.run_cons_eq_some.1 hr
    rw [RowSt.answers_cons hu]
    rcases (QueueStep.of_step hi hu).waiting hi ht with ⟨w, hw, hwt⟩ | hu'
    · exact .inl ⟨w, List.mem_append_left _ hw, hwt⟩
    · rcases ih (hi.step hu) hr hu' with ⟨w, hw, hwt⟩ | h
      · exact .inl ⟨w, List.mem_append_right _ hw, hwt⟩
      · exact .inr h

theorem RowInv.pending_nodup {G : RowSt V → RowEv V → Prop} (h : (rowLts g v₀).Reach G st) :
    RowInv g v₀ st ∧ (st.row.pending.map ReqEntry.ts).Nodup := by
  refine h.inv (P := fun st => RowInv g v₀ st ∧ (st.row.pending.map ReqEntry.ts).Nodup) ?_ ?_
  · rintro s rfl
    refine ⟨.init v₀, ?_⟩
    rw [show (RowSt.init v₀).row.pending = [] from by simp [pending, RowSt.init, RowMvcc.init]]
    exact List.nodup_nil
  · rintro s a s' ⟨hi, hnd⟩ - hs
    exact ⟨hi.step hs, ((QueueStep.of_step hi hs).nodup hi hnd).1⟩

/-- When the holder of the prewrite has ended it, `update_buffer` releases what is due. -/
theorem RowInv.Ended.released_due {ts : Nat} {c : List (Nat × V)} {u : RowMvcc V} (hi : RowInv g v₀ st)
    (hnd : (st.row.pending.map ReqEntry.ts).Nodup)
    (hread : ∀ q ∈ st.row.pending, q.type = .rReq → q.ts < uint64Max) (he : RowInv.Ended g v₀ st ts c u) (minTs : Nat) :
    ∃ row ws, u.updateBuffer g minTs ts = some (row, ws) ∧ Released st.row row (lastValue v₀ c) ws := by
  obtain ⟨r, hr⟩ := he.holder
  obtain ⟨⟨hp, -⟩, hpt⟩ := hi.granted ts r hr
  have hm : u.maxServedRts < ts := by
    rw [he.maxServedRts, ← hpt]
    exact (hi.core.hist.pre hp).2.2
  obtain ⟨row, ws, hu, hrel⟩ := updateBuffer_released he.core he.existsPrewrite
    (hi.bound ts (by rw [hr]; exact Phase.noConfusion)) hm he.le (he.queue hi hnd)
    (by rw [he.pending]; exact hread) minTs
  have hfirst : u.firstPrewrite = st.row.firstPrewrite := by rw [firstPrewrite, he.pending, ← firstPrewrite]
  refine ⟨row, ws, hu, ?_, hrel.once, ?_, ?_, ?_, ?_⟩
  · rw [← hfirst, ← he.pending]; exact hrel.due
  · rw [lastValue, ← he.core.data.page]; exact hrel.read
  · rw [lastValue, ← he.core.data.page]; exact hrel.granted
  · rw [← he.maxServedRts]; exact hrel.max
  · rw [← hfirst, ← he.requests]; exact hrel.kept

/-- In every reachable state `W_REQ` and `XP_REQ` of the transaction that holds the prewrite return and
release exactly what is due; along every run a request is answered at most once, and it waits only
behind a smaller prewrite. `UINT64_MAX` stands for no prewrite, so a read's timestamp is below it. -/
theorem queue_release_exact (gThreadCnt : Nat) (v₀ : V) (h : (rowLts gThreadCnt v₀).Reach Lts.Any st) :
    (∀ ts r minTs, st.phase ts = .granted r → (∀ q ∈ st.row.pending, q.type = .rReq → q.ts < uint64Max) →
      (∃ v row ws, st.row.mem r = some v ∧
        st.row.access gThreadCnt minTs ts .wReq r = some (row, ⟨.rcok, none, ws⟩) ∧ Released st.row row v ws) ∧
      ∃ row ws, st.row.access gThreadCnt minTs ts .xpReq r = some (row, ⟨.rcok, none, ws⟩) ∧
        Released st.row row (lastValue v₀ st.commits) ws) ∧
    ∀ (evs : List (RowEv V)) (st' : RowSt V), (rowLts gThreadCnt v₀).run st evs = some st' →
      ((st.answers gThreadCnt evs).map Wake.ts).Nodup ∧
      ∀ t ty, st.phase t = .waiting ty →
        (∃ w ∈ st.answers gThreadCnt evs, w.ts = t ∧ w.type = ty) ∨
          st'.phase t = .waiting ty ∧ st'.row.existsPrewrite = true ∧ st'.row.prewriteTs < t := by
  obtain ⟨hi, hnd⟩ := RowInv.pending_nodup h
  refine ⟨fun ts r minTs hg hread => ?_, fun evs st' hr => ⟨(hi.answers_nodup hnd hr).1, fun t ty ht => ?_⟩⟩
  · obtain ⟨hw, hpt⟩ := hi.granted ts r hg
    obtain ⟨v, hv⟩ := Option.isSome_iff_exists.1 (hw.live hi.core.heap).2
    obtain ⟨hp, e, he, her⟩ := hw
    have hlt : st.row.latestWts < ts := hpt ▸ (hi.core.hist.pre hp).2.1
    have hcommit := commit_eq he hv hlt her
    have hrelease : st.row.release r = some (st.row.released e) := by simp [release, he, her, released]
    refine ⟨?_, ?_⟩
    · obtain ⟨row, ws, hu, hrel⟩ := (hi.ended_commit hg hv hcommit).1.released_due hi hnd hread minTs
      exact ⟨v, row, ws, hv, by simp [RowMvcc.access, hcommit, hu], hrel⟩
    · obtain ⟨row, ws, hu, hrel⟩ := (hi.ended_release hg hrelease).released_due hi hnd hread minTs
      exact ⟨row, ws, by simp [RowMvcc.access, hrelease, hu], hrel⟩
  · refine (hi.answered_or_waiting hr ht).imp_right fun hw => ?_
    obtain ⟨q, hq, rfl⟩ := (RowInv.reach (h.run hr)).waiting t ty hw
    obtain ⟨hp, hlt, -⟩ := (RowInv.reach (h.run hr)).pend q hq
    exact ⟨hw, hp, hlt⟩

/-- 2 commits while a read at 3, a prewrite at 4 and a read at 5 are queued. -/
theorem queue_release_after_write : ∃ st : RowSt Nat, (rowLts 1 0).run (.init 0)
      [.prewrite 2 0, .read 3, .prewrite 4 0, .read 5, .modify 2 7] = some st ∧
    st.phase 2 = .granted 0 ∧ st.row.firstPrewrite = some 4 ∧ ∃ v row ws, st.row.mem 0 = some v ∧
      st.row.access 1 0 2 .wReq 0 = some (row, ⟨.rcok, none, ws⟩) ∧ Released st.row row v ws := by
  have hrun : (((rowLts 1 (0 : Nat)).run (.init 0)
      [.prewrite 2 0, .read 3, .prewrite 4 0, .read 5, .modify 2 7]).any fun st =>
      decide (st.phase 2 = .granted 0 ∧ st.row.firstPrewrite = some 4 ∧
        ∀ q ∈ st.row.pending, q.type = .rReq → q.ts < uint64Max)) = true := by decide +kernel
  simp only [Option.any_eq_true, decide_eq_true_eq] at hrun
  obtain ⟨st, hst, hg, hfirst, hread⟩ := hrun
  exact ⟨st, hst, hg, hfirst, ((queue_release_exact 1 0 (.run (.init rfl) hst)).1 2 0 0 hg hread).1⟩

end Dbx1000
