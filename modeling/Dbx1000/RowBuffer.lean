import Dbx1000.RowOps

/-!
# `update_buffer`

The loop releases the pending reads below the next pending prewrite and that prewrite itself. Which
requests it releases does not depend on the store (`updateLoop_reqs`); what it does to the store is a
sequence of `serveLatest` and `grant`, so that an invariant of the two is one of the loop
(`updateLoop_rule`). `Loop` is the invariant all later results rest on.
-/

namespace Dbx1000

/-- The loop of `update_buffer` releases this request. -/
def ReqEntry.fires (next : Nat) (q : ReqEntry) : Bool :=
  q.valid && (decide (q.type = .rReq ∧ q.ts < next) || decide (q.ts = next))

def ReqEntry.clear (next : Nat) (q : ReqEntry) : ReqEntry :=
  if q.fires next then { q with valid := false } else q

namespace RowMvcc

variable {V : Type} {g minTs ts next : Nat} {v₀ : V} {h : List (Nat × V)}
  {s s' : RowMvcc V} {qs qs' : List ReqEntry} {ws : List Wake}

/-- The invariant of the loop over the store `s₀` it started from, `ws` being released so far. -/
structure Loop (g : Nat) (v₀ : V) (h : List (Nat × V)) (next : Nat) (s₀ s : RowMvcc V) (ws : List Wake) : Prop where
  core : Core g v₀ h s
  page : s.page = s₀.page
  latestWts : s.latestWts = s₀.latestWts
  requests : s.requests = s₀.requests
  max : s.maxServedRts < next
  pre : s.existsPrewrite = true → s.prewriteTs = next ∧ ∃ w ∈ ws, w.ts = next ∧ w.type = .pReq
  read : ∀ w ∈ ws, w.type = .rReq → w.ts ≤ s.maxServedRts ∧ w.row < s.nextRow ∧ s.mem w.row = some s₀.page
  grant : ∀ w ∈ ws, w.type = .pReq → w.ts = next ∧ Writable s w.row ∧ s.prewriteTs = next
  maxFrom : s.maxServedRts = s₀.maxServedRts ∨ ∃ w ∈ ws, w.ts = s.maxServedRts
  maxMono : s₀.maxServedRts ≤ s.maxServedRts

theorem Loop.start (hc : Core g v₀ h s) (hp : s.existsPrewrite = false) (hm : s.maxServedRts < next) :
    Loop g v₀ h next s s [] where
  core := hc
  page := rfl
  latestWts := rfl
  requests := rfl
  max := hm
  pre hp' := by rw [hp] at hp'; cases hp'
  read w hw := by cases hw
  grant w hw := by cases hw
  maxFrom := .inl rfl
  maxMono := Nat.le_refl _

theorem Loop.serve {s₀ : RowMvcc V} {t : Nat} {r : RowId} (hi : Loop g v₀ h next s₀ s ws) (ht : t < next)
    (hr : s.serveLatest t = some (s', r)) : Loop g v₀ h next s₀ s' (ws ++ [⟨t, .rReq, r⟩]) := by
  obtain ⟨hc, hl, hmax⟩ := serveLatest_spec hi.core (fun hp => by rw [(hi.pre hp).1]; exact ht) hr
  have hm := hi.max
  refine ⟨hc, hl.page.trans hi.page, hl.latestWts.trans hi.latestWts, hl.requests.trans hi.requests, by omega,
    fun hp => ?_, fun w hw hwt => ?_, fun w hw hwt => ?_, ?_, by have := hi.maxMono; omega⟩
  · rw [hl.existsPrewrite] at hp
    obtain ⟨h1, w, hw, h2⟩ := hi.pre hp
    exact ⟨hl.prewriteTs.trans h1, w, List.mem_append_left _ hw, h2⟩
  · rcases List.mem_append.1 hw with hw | hw
    · obtain ⟨h1, h2, h3⟩ := hi.read w hw hwt
      exact ⟨by omega, Nat.lt_of_lt_of_le h2 hl.nextRow, (hl.mem _ h2).trans h3⟩
    · rw [List.mem_singleton.1 hw]
      exact ⟨by show t ≤ _; omega, hl.live, by rw [← hi.page]; exact hl.bytes⟩
  · rcases List.mem_append.1 hw with hw | hw
    · obtain ⟨h1, h2, h3⟩ := hi.grant w hw hwt
      exact ⟨h1, hl.writable h2, hl.prewriteTs.trans h3⟩
    · rw [List.mem_singleton.1 hw] at hwt; cases hwt
  · rcases Nat.le_total s.maxServedRts t with hle | hle
    · exact .inr ⟨_, List.mem_append_right _ (List.mem_singleton_self _), by show t = _; omega⟩
    · rcases hi.maxFrom with h1 | ⟨w, hw, h1⟩
      · exact .inl (by omega)
      · exact .inr ⟨w, List.mem_append_left _ hw, by omega⟩

/-- `next_pre_ts` is no larger than any pending prewrite after `ts`. -/
theorem nextPreTs_le {q : ReqEntry} (hq : q ∈ qs) (hv : q.valid = true) (hp : q.type = .pReq) (ht : ts < q.ts) :
    nextPreTs ts qs ≤ q.ts := by
  obtain ⟨-, h2⟩ := Scan.scan_best (fun q : ReqEntry => q.valid && decide (q.type = .pReq) && decide (ts < q.ts))
    ReqEntry.ts (fun x b => decide (x < b)) (by simp)
    (fun x y z hxy hyz => by simp only [decide_eq_true_eq] at *; omega) qs 0 (uint64Max, qs.length) _ rfl
  have := h2 q hq (by simp [hv, hp, ht])
  simp only [decide_eq_false_iff_not, Nat.not_lt] at this
  exact this

/-- `next_pre_ts` is `UINT64_MAX` or a pending prewrite after `ts`. -/
theorem nextPreTs_mem (ts : Nat) (qs : List ReqEntry) : nextPreTs ts qs = uint64Max ∨
    ∃ q ∈ qs, q.valid = true ∧ q.type = .pReq ∧ ts < q.ts ∧ q.ts = nextPreTs ts qs := by
  rcases Scan.scan_cases (p := fun b (q : ReqEntry) =>
    (q.valid && decide (q.type = .pReq) && decide (ts < q.ts)) && decide (q.ts < b)) (f := ReqEntry.ts) qs 0
    (uint64Max, qs.length) with h1 | ⟨j, q, b, hj, hq, h1⟩
  · exact .inl (by rw [nextPreTs, h1])
  · simp only [Bool.and_eq_true, decide_eq_true_eq] at hq
    exact .inr ⟨q, List.mem_of_getElem? hj, hq.1.1.1, hq.1.1.2, hq.1.2, by rw [nextPreTs, h1]⟩

/-- `next_pre_ts` is not below `ts`. -/
theorem le_nextPreTs (ht : ts ≤ uint64Max) : ts ≤ nextPreTs ts qs := by
  rcases nextPreTs_mem ts qs with h1 | ⟨q, -, -, -, hlt, h1⟩
  · rw [h1]; exact ht
  · rw [← h1]; exact Nat.le_of_lt hlt

/-- `update_buffer` by the transaction `ts`, whose prewrite has just ended. -/
structure Updated (g : Nat) (v₀ : V) (h : List (Nat × V)) (next : Nat) (s s' : RowMvcc V) (ws : List Wake) : Prop where
  loop : ∃ t, Loop g v₀ h next s t ws ∧ s' = { t with requests := s.requests.map (ReqEntry.clear next) }
  fired : ws.map (fun w => (w.ts, w.type)) =
    (s.requests.filter (ReqEntry.fires next)).map (fun q => (q.ts, q.type))

section Updated

variable (hu : Updated g v₀ h next s s' ws)

include hu

/-- Everything released was pending. -/
theorem Updated.mem_fired {w : Wake} (hw : w ∈ ws) :
    ∃ q ∈ s.pending, q.fires next = true ∧ q.ts = w.ts ∧ q.type = w.type := by
  have : (w.ts, w.type) ∈ (s.requests.filter (ReqEntry.fires next)).map (fun q => (q.ts, q.type)) := by
    rw [← hu.fired]; exact List.mem_map.2 ⟨w, hw, rfl⟩
  obtain ⟨q, hq, heq⟩ := List.mem_map.1 this
  obtain ⟨hq, hf⟩ := List.mem_filter.1 hq
  obtain ⟨h1, h2⟩ := Prod.mk.inj heq
  exact ⟨q, mem_pending.2 ⟨hq, (Bool.and_eq_true_iff.1 hf).1⟩, hf, h1, h2⟩

theorem Updated.fired_mem {q : ReqEntry} (hq : q ∈ s.requests) (hf : q.fires next = true) :
    ∃ w ∈ ws, w.ts = q.ts ∧ w.type = q.type := by
  have : (q.ts, q.type) ∈ ws.map (fun w => (w.ts, w.type)) := by
    rw [hu.fired]; exact List.mem_map.2 ⟨q, List.mem_filter.2 ⟨hq, hf⟩, rfl⟩
  obtain ⟨w, hw, heq⟩ := List.mem_map.1 this
  exact ⟨w, hw, Prod.mk.inj heq⟩

/-- What is still pending was pending and is not released. -/
theorem Updated.mem_pending {q : ReqEntry} : q ∈ s'.pending ↔ q ∈ s.pending ∧ q.fires next = false := by
  obtain ⟨t, -, rfl⟩ := hu.loop
  rw [RowMvcc.mem_pending, RowMvcc.mem_pending]
  refine ⟨fun ⟨hq, hv⟩ => ?_, fun ⟨⟨hq, hv⟩, hf⟩ => ⟨List.mem_map.2 ⟨q, hq, by rw [ReqEntry.clear, hf]; rfl⟩, hv⟩⟩
  obtain ⟨q, hq', rfl⟩ := List.mem_map.1 hq
  unfold ReqEntry.clear at hv ⊢
  split at hv
  · cases hv
  · rename_i hf
    rw [if_neg hf]
    exact ⟨⟨hq', hv⟩, by simpa using hf⟩

end Updated

variable [Inhabited V]

/-- What one iteration of the loop can do. -/
theorem updateLoop_cons {q : ReqEntry} (hr : updateLoop g minTs ts next (q :: qs) s = some (qs', s', ws)) :
    (q.fires next = false ∧ (q.valid = true → ts < q.ts) ∧
        ∃ qs'', updateLoop g minTs ts next qs s = some (qs'', s', ws) ∧ qs' = q :: qs'') ∨
      (q.fires next = true ∧ ts < q.ts ∧ ∃ t r qs'' ws', updateLoop g minTs ts next qs t = some (qs'', s', ws') ∧
        qs' = { q with valid := false } :: qs'' ∧ ws = ⟨q.ts, q.type, r⟩ :: ws' ∧
        (q.type = .rReq ∧ q.ts < next ∧ s.serveLatest q.ts = some (t, r) ∨
          q.type = .pReq ∧ q.ts = next ∧ s.grant g minTs q.ts = some (t, r))) := by
  rw [updateLoop] at hr
  by_cases hv : q.valid = true
  · rw [if_pos hv] at hr
    by_cases hts : ts < q.ts
    · rw [if_pos hts] at hr
      by_cases hrd : q.type = .rReq ∧ q.ts < next
      · rw [if_pos hrd] at hr
        simp only [Option.bind_eq_bind, Option.bind_eq_some_iff, Prod.exists] at hr
        obtain ⟨t, r, hst, qs'', u, ws', hrec, hr⟩ := hr
        cases hr
        exact .inr ⟨by simp [ReqEntry.fires, hv, hrd], hts, t, r, qs'', ws', hrec, rfl, rfl, .inl ⟨hrd.1, hrd.2, hst⟩⟩
      · rw [if_neg hrd] at hr
        by_cases hnext : q.ts = next
        · rw [if_pos hnext] at hr
          by_cases hp : q.type = .pReq
          · rw [if_pos hp] at hr
            simp only [Option.bind_eq_bind, Option.bind_eq_some_iff, Prod.exists] at hr
            obtain ⟨t, r, hst, qs'', u, ws', hrec, hr⟩ := hr
            cases hr
            exact .inr ⟨by simp [ReqEntry.fires, hv, hnext], hts, t, r, qs'', ws', hrec, rfl, rfl,
              .inr ⟨hp, hnext, hst⟩⟩
          · rw [if_neg hp] at hr; cases hr
        · rw [if_neg hnext] at hr
          simp only [Option.bind_eq_bind, Option.bind_eq_some_iff, Prod.exists] at hr
          obtain ⟨qs'', u, ws', hrec, hr⟩ := hr
          cases hr
          exact .inl ⟨by simp only [ReqEntry.fires, hrd, hnext]; simp, fun _ => hts, qs'', hrec, rfl⟩
    · rw [if_neg hts] at hr; cases hr
  · rw [if_neg hv] at hr
    simp only [Option.bind_eq_bind, Option.bind_eq_some_iff, Prod.exists] at hr
    obtain ⟨qs'', u, ws', hrec, hr⟩ := hr
    cases hr
    exact .inl ⟨by simp [ReqEntry.fires, hv], fun h' => absurd h' hv, qs'', hrec, rfl⟩

/-- The requests the loop releases and those it leaves. -/
theorem updateLoop_reqs (hr : updateLoop g minTs ts next qs s = some (qs', s', ws)) :
    qs' = qs.map (ReqEntry.clear next) ∧
      ws.map (fun w => (w.ts, w.type)) = (qs.filter (ReqEntry.fires next)).map (fun q => (q.ts, q.type)) ∧
      ∀ q ∈ qs, q.valid = true → ts < q.ts := by
  induction qs generalizing s qs' ws with
  | nil =>
    rw [updateLoop] at hr; cases hr
    exact ⟨rfl, rfl, fun q hq => (by cases hq)⟩
  | cons q qs ih =>
    rcases updateLoop_cons hr with ⟨hf, hts, qs'', hrec, rfl⟩ | ⟨hf, hts, t, r, qs'', ws', hrec, rfl, rfl, -⟩
    · obtain ⟨h1, h2, h3⟩ := ih hrec
      refine ⟨by rw [List.map_cons, ReqEntry.clear, hf, h1]; rfl, ?_, List.forall_mem_cons.2 ⟨hts, h3⟩⟩
      rw [List.filter_cons_of_neg (by rw [hf]; exact Bool.false_ne_true)]; exact h2
    · obtain ⟨h1, h2, h3⟩ := ih hrec
      refine ⟨by rw [List.map_cons, ReqEntry.clear, hf, h1]; rfl, ?_, List.forall_mem_cons.2 ⟨fun _ => hts, h3⟩⟩
      rw [List.filter_cons_of_pos hf, List.map_cons, List.map_cons, h2]

/-- An invariant of serving a pending read and of granting the pending prewrite is one of the loop. -/
theorem updateLoop_rule {P : RowMvcc V → List Wake → Prop}
    (hserve : ∀ s ws t s' r, P s ws → ts < t → t < next → s.serveLatest t = some (s', r) →
      P s' (ws ++ [⟨t, .rReq, r⟩]))
    (hgrant : ∀ s ws q s' r, P s ws → q ∈ qs → q.valid = true → q.type = .pReq → q.ts = next → ts < next →
      s.grant g minTs next = some (s', r) → P s' (ws ++ [⟨next, .pReq, r⟩]))
    {ws₀ : List Wake} (h0 : P s ws₀) (hr : updateLoop g minTs ts next qs s = some (qs', s', ws)) :
    P s' (ws₀ ++ ws) := by
  induction qs generalizing s qs' ws ws₀ with
  | nil => rw [updateLoop] at hr; cases hr; rwa [List.append_nil]
  | cons q qs ih =>
    have hgrant' := fun s ws x s' r hP hx => hgrant s ws x s' r hP (List.mem_cons_of_mem q hx)
    rcases updateLoop_cons hr with ⟨-, -, qs'', hrec, rfl⟩ | ⟨hf, hts, t, r, qs'', ws', hrec, rfl, rfl, hst⟩
    · exact ih hgrant' h0 hrec
    · rw [List.append_cons]
      rcases hst with ⟨hty, hlt, hst⟩ | ⟨hty, heq, hst⟩
      · rw [hty]
        exact ih hgrant' (hserve s ws₀ q.ts t r h0 hts hlt hst) hrec
      · rw [hty, heq]
        rw [heq] at hst hts
        exact ih hgrant'
          (hgrant s ws₀ q t r h0 (List.mem_cons_self ..) (Bool.and_eq_true_iff.1 hf).1 hty heq hts hst) hrec

theorem grant_existsPrewrite {r : RowId} (hr : s.grant g minTs ts = some (s', r)) : s.existsPrewrite = false := by
  unfold RowMvcc.grant reserveRow at hr
  split at hr
  · cases hr
  · rename_i hp; simpa using hp

theorem Loop.granted {s₀ : RowMvcc V} {r : RowId} (hi : Loop g v₀ h next s₀ s ws) (ht : s₀.latestWts < next)
    (hr : s.grant g minTs next = some (s', r)) : Loop g v₀ h next s₀ s' (ws ++ [⟨next, .pReq, r⟩]) := by
  obtain ⟨hc, hg⟩ := grant_spec hi.core (by rw [hi.latestWts]; exact ht) hi.max hr
  have hp := grant_existsPrewrite hr
  refine ⟨hc, hg.page.trans hi.page, hg.latestWts.trans hi.latestWts, hg.requests.trans hi.requests, ?_,
    fun _ => ⟨hg.preTs, _, List.mem_append_right _ (List.mem_singleton_self _), rfl, rfl⟩,
    fun w hw hwt => ?_, fun w hw hwt => ?_, ?_, ?_⟩
  · rw [hg.maxServedRts]; exact hi.max
  · rcases List.mem_append.1 hw with hw | hw
    · obtain ⟨h1, h2, h3⟩ := hi.read w hw hwt
      refine ⟨by rw [hg.maxServedRts]; exact h1, Nat.lt_of_lt_of_le h2 hg.nextRow, ?_⟩
      -- the reserved row may be the very row just handed to the read; it then holds the same bytes
      by_cases hwr : w.row = r
      · rw [hwr, hg.bytes, hi.page]
      · rw [hg.mem _ h2 hwr]; exact h3
    · rw [List.mem_singleton.1 hw] at hwt; cases hwt
  · rcases List.mem_append.1 hw with hw | hw
    · have := (hi.grant w hw hwt).2.1.1
      rw [hp] at this; cases this
    · rw [List.mem_singleton.1 hw]
      exact ⟨rfl, hg.writable, hg.preTs⟩
  · rw [hg.maxServedRts]
    exact hi.maxFrom.imp_right fun ⟨w, hw, h1⟩ => ⟨w, List.mem_append_left _ hw, h1⟩
  · rw [hg.maxServedRts]; exact hi.maxMono

theorem updateBuffer_cases (hr : s.updateBuffer g minTs ts = some (s', ws)) :
    ∃ t, updateLoop g minTs ts (nextPreTs ts s.requests) s.requests s =
        some (s.requests.map (ReqEntry.clear (nextPreTs ts s.requests)), t, ws) ∧
      s' = { t with requests := s.requests.map (ReqEntry.clear (nextPreTs ts s.requests)) } := by
  unfold updateBuffer at hr
  simp only [Option.bind_eq_bind, Option.bind_eq_some_iff, Prod.exists] at hr
  obtain ⟨qs', t, ws', hloop, hr⟩ := hr
  cases hr
  obtain ⟨rfl, -⟩ := updateLoop_reqs hloop
  exact ⟨t, hloop, rfl⟩

theorem updateBuffer_spec (hc : Core g v₀ h s) (hp : s.existsPrewrite = false)
    (hm : s.maxServedRts < nextPreTs ts s.requests) (hw : s.latestWts ≤ ts)
    (hr : s.updateBuffer g minTs ts = some (s', ws)) :
    Updated g v₀ h (nextPreTs ts s.requests) s s' ws ∧ ∀ q ∈ s.pending, ts < q.ts := by
  obtain ⟨t, hloop, rfl⟩ := updateBuffer_cases hr
  obtain ⟨-, hws, hpend⟩ := updateLoop_reqs hloop
  have hl := updateLoop_rule (P := Loop g v₀ h (nextPreTs ts s.requests) s)
    (fun s ws t s' r hi _ ht hst => hi.serve ht hst) (fun s ws q s' r hi _ _ _ _ ht hst => hi.granted (by omega) hst)
    (.start hc hp hm) hloop
  exact ⟨⟨⟨t, hl, rfl⟩, hws⟩, fun q hq => hpend q (mem_pending.1 hq).1 (mem_pending.1 hq).2⟩

end RowMvcc
end Dbx1000
