import Dbx1000.Global
import Dbx1000.Lib.Lts

/-!
# The abort buffer of a thread (`instance/thread.cpp`, `Query_thd` of `instance/benchmarks/query.cpp`)

A thread takes a query, runs a transaction for it and starts over until `MAX_TXN_PER_PART` transactions are
committed. The query of an aborted transaction waits in a slot of the abort buffer until its ready time; without the
buffer it is run again at once. The events are a turn of the selection loop at some time of the clock, and the end
of a transaction; `committed` is a ghost. A failed assertion is the phase `failed`. The queries that were drawn are
the committed ones, those in the slots and the one at hand, each once (`ThreadInv.queries`); so the draws are
bounded by the commits and the slots.
-/

namespace Dbx1000

structure AbortBufferEntry where
  readyTime : Nat
  query : Option Nat
deriving DecidableEq, Repr

/-- `ABORT_BUFFER_SIZE`, `MAX_TXN_PER_PART`, `WARMUP`, `g_thread_cnt` and `_abort_buffer_enable`. -/
structure ThreadConfig where
  abortBufferSize : Nat
  maxTxnPerPart : Nat
  warmup : Nat
  threadCnt : Nat
  enable : Bool
  maxTxnPerPart_pos : 0 < maxTxnPerPart

/-- `query_cnt` of `Query_thd::init`; `buffered` is the macro `ABORT_BUFFER_ENABLE`. -/
def ThreadConfig.queryCnt (cfg : ThreadConfig) (buffered : Bool) : Nat :=
  cfg.warmup / cfg.threadCnt + cfg.maxTxnPerPart + 4 + if buffered then cfg.abortBufferSize else 0

inductive ThreadPhase
  | selecting | running | finished | failed
deriving DecidableEq, Repr

/-- The variables of `thread_t::run`; a query is its index in `queries`, and `qIdx` is `q_idx` of `Query_thd`. -/
structure ThreadT where
  abortBuffer : List AbortBufferEntry
  emptySlots : Nat
  mQuery : Option Nat
  rc : RC
  txnCnt : Nat
  qIdx : Nat
  trial : Nat
  phase : ThreadPhase
  committed : List Nat
deriving DecidableEq, Repr

/-! ### The buffer -/

/-- The loop over the buffer: the first query whose time has come and the buffer without it, and
`min_ready_time`, which is kept up to date while no slot is empty. -/
def pickReady (currTime emptySlots : Nat) :
    List AbortBufferEntry → Nat → Option (Nat × List AbortBufferEntry) × Nat
  | [], minReadyTime => (none, minReadyTime)
  | e :: es, minReadyTime =>
    match e.query, decide (e.readyTime < currTime) with
    | some q, true => (some (q, { e with query := none } :: es), minReadyTime)
    | _, _ =>
      let r := pickReady currTime emptySlots es
        (if emptySlots = 0 ∧ e.readyTime < minReadyTime then e.readyTime else minReadyTime)
      (r.1.map fun p => (p.1, e :: p.2), r.2)

/-- The query goes to the first empty slot. -/
def storeQuery (query readyTime : Nat) : List AbortBufferEntry → Option (List AbortBufferEntry)
  | [] => none
  | e :: es =>
    if e.query = none then some (⟨readyTime, some query⟩ :: es) else (storeQuery query readyTime es).map (e :: ·)

/-! ### `thread_t::run` -/

namespace ThreadT

/-- `thread_t::init` -/
def init (cfg : ThreadConfig) : ThreadT where
  abortBuffer := List.replicate cfg.abortBufferSize ⟨0, none⟩
  emptySlots := cfg.abortBufferSize
  mQuery := none
  rc := .rcok
  txnCnt := 0
  qIdx := 0
  trial := 0
  phase := .selecting
  committed := []

/-- `get_next_query` -/
def draw (s : ThreadT) : ThreadT := { s with mQuery := some s.qIdx, qIdx := s.qIdx + 1, phase := .running }

/-- The selection of `m_query`: one turn of `while (trial < 2)`, or the branch without the buffer. -/
def select (cfg : ThreadConfig) (now : Nat) (s : ThreadT) : ThreadT :=
  if cfg.enable then
    let currTime := now % 2 ^ 64
    let (found, minReadyTime) :=
      if s.emptySlots < cfg.abortBufferSize then pickReady currTime s.emptySlots s.abortBuffer uint64Max
      else (none, uint64Max)
    match found with
    | some (q, buffer) =>
      { s with abortBuffer := buffer, emptySlots := s.emptySlots + 1, mQuery := some q, phase := .running }
    | none =>
      if s.emptySlots = 0 then
        -- the two assertions, and `usleep`
        if s.trial = 0 ∧ currTime ≤ minReadyTime then { s with mQuery := none } else { s with phase := .failed }
      else s.draw
  else if s.rc = .rcok then s.draw
  else { s with phase := .running }

/-- The end of the loop body. -/
def leave (cfg : ThreadConfig) (s : ThreadT) : ThreadT :=
  if cfg.maxTxnPerPart ≤ s.txnCnt then
    { s with phase := if s.txnCnt = cfg.maxTxnPerPart then .finished else .failed }
  else { s with phase := .selecting, trial := 0 }

/-- The transaction of `q` is committed. -/
def commit (cfg : ThreadConfig) (q : Nat) (s : ThreadT) : ThreadT :=
  leave cfg { s with rc := .rcok, txnCnt := s.txnCnt + 1, committed := s.committed ++ [q] }

/-- The transaction of `q` is aborted. -/
def abort (cfg : ThreadConfig) (q now penalty : Nat) (s : ThreadT) : ThreadT :=
  if cfg.enable then
    if 0 < s.emptySlots then
      match storeQuery q ((now + penalty) % 2 ^ 64) s.abortBuffer with
      | some buffer => leave cfg { s with rc := .abort, abortBuffer := buffer, emptySlots := s.emptySlots - 1 }
      | none => leave cfg { s with rc := .abort }
    else { s with phase := .failed }
  else leave cfg { s with rc := .abort }

end ThreadT

inductive ThreadEv
  | select (now : Nat)
  | txnEnd (rc : RC) (now penalty : Nat)
deriving DecidableEq, Repr

def ThreadT.step (cfg : ThreadConfig) (s : ThreadT) : ThreadEv → Option ThreadT
  | .select now => if s.phase = .selecting then some (s.select cfg now) else none
  | .txnEnd rc now penalty =>
    if s.phase = .running then
      match s.mQuery, rc with
      | some q, .rcok => some (s.commit cfg q)
      | some q, .abort => some (s.abort cfg q now penalty)
      | some _, _ => none
      -- `run_txn(NULL)`
      | none, _ => some { s with phase := .failed }
    else none

def threadLts (cfg : ThreadConfig) : Lts ThreadT ThreadEv where
  init s := s = .init cfg
  step := ThreadT.step cfg

/-! ### The slots -/

/-- The queries in the slots. -/
def stored (es : List AbortBufferEntry) : List Nat := es.filterMap AbortBufferEntry.query

/-- The number of slots whose query is `NULL`. -/
def nulls (es : List AbortBufferEntry) : Nat := es.countP fun e => e.query.isNone

section Buffer

variable {currTime emptySlots q readyTime m : Nat} {es buffer : List AbortBufferEntry} {e : AbortBufferEntry}

theorem stored_cons (e : AbortBufferEntry) (es : List AbortBufferEntry) :
    stored (e :: es) = e.query.toList ++ stored es := by
  unfold stored
  rw [List.filterMap_cons]
  cases e.query <;> rfl

theorem nulls_cons (e : AbortBufferEntry) (es : List AbortBufferEntry) :
    nulls (e :: es) = nulls es + if e.query = none then 1 else 0 := by
  unfold nulls
  rw [List.countP_cons]
  cases e.query <;> rfl

theorem nulls_add_stored (es : List AbortBufferEntry) : nulls es + (stored es).length = es.length := by
  induction es with
  | nil => rfl
  | cons e es ih =>
    rw [nulls_cons, stored_cons, List.length_append, List.length_cons]
    cases e.query <;> simp <;> omega

theorem stored_replicate (n : Nat) : stored (List.replicate n ⟨0, none⟩) = [] :=
  List.filterMap_eq_nil_iff.2 fun e he => by rw [List.eq_of_mem_replicate he]

/-- The query that is picked leaves its slot. -/
theorem pickReady_some (h : (pickReady currTime emptySlots es m).1 = some (q, buffer)) :
    buffer.length = es.length ∧ nulls buffer = nulls es + 1 ∧ (q :: stored buffer).Perm (stored es) := by
  induction es generalizing m buffer with
  | nil => cases h
  | cons e es ih =>
    rw [pickReady] at h
    split at h
    · rename_i q' hq _
      cases h
      refine ⟨rfl, ?_, ?_⟩
      · rw [nulls_cons, nulls_cons, hq]
        simp
      · rw [stored_cons, stored_cons, hq]
        simp
    · obtain ⟨⟨q', buffer'⟩, hrest, heq⟩ := Option.map_eq_some_iff.1 h
      cases heq
      obtain ⟨hlen, hnulls, hperm⟩ := ih hrest
      refine ⟨by rw [List.length_cons, List.length_cons, hlen], ?_, ?_⟩
      · rw [nulls_cons, nulls_cons, hnulls, Nat.add_right_comm]
      · rw [stored_cons, stored_cons]
        exact List.perm_middle.symm.trans (hperm.append_left _)

/-- No query is ready in a full buffer: then no ready time is over. -/
theorem pickReady_none (h : (pickReady currTime emptySlots es m).1 = none) (hfull : nulls es = 0) (hm : currTime ≤ m) :
    currTime ≤ (pickReady currTime emptySlots es m).2 := by
  induction es generalizing m with
  | nil => exact hm
  | cons e es ih =>
    rw [nulls_cons] at hfull
    cases hq : e.query with
    | none =>
      rw [hq] at hfull
      cases hfull
    | some q =>
      by_cases hready : e.readyTime < currTime
      · rw [pickReady, hq, decide_eq_true hready] at h
        cases h
      · rw [pickReady, hq, decide_eq_false hready] at h ⊢
        refine ih (Option.map_eq_none_iff.1 h) (by omega) ?_
        split
        · exact Nat.not_lt.1 hready
        · exact hm

theorem storeQuery_some (q readyTime : Nat) (h : 0 < nulls es) : ∃ buffer, storeQuery q readyTime es = some buffer ∧
    buffer.length = es.length ∧ nulls buffer + 1 = nulls es ∧ (stored buffer).Perm (q :: stored es) := by
  induction es with
  | nil => exact absurd h (Nat.lt_irrefl 0)
  | cons e es ih =>
    rw [storeQuery]
    split
    · rename_i hnull
      refine ⟨_, rfl, rfl, ?_, ?_⟩
      · rw [nulls_cons, nulls_cons, hnull]
        rfl
      · rw [stored_cons, stored_cons, hnull]
        exact .refl _
    · rename_i hquery
      rw [nulls_cons, if_neg hquery] at h ⊢
      obtain ⟨buffer, hstore, hlen, hnulls, hperm⟩ := ih h
      refine ⟨e :: buffer, by rw [hstore]; rfl, by rw [List.length_cons, List.length_cons, hlen], ?_, ?_⟩
      · rw [nulls_cons, if_neg hquery]
        exact hnulls
      · rw [stored_cons, stored_cons]
        exact (hperm.append_left _).trans List.perm_middle

end Buffer

/-! ### Conservation -/

/-- The query that runs, or is to run again at once. -/
def ThreadT.inHand (cfg : ThreadConfig) (s : ThreadT) : List Nat :=
  if s.phase = .running ∨ (cfg.enable = false ∧ s.rc = .abort) then s.mQuery.toList else []

structure ThreadInv (cfg : ThreadConfig) (s : ThreadT) : Prop where
  length : s.abortBuffer.length = cfg.abortBufferSize
  slots : s.emptySlots = nulls s.abortBuffer
  queries : (s.committed ++ (stored s.abortBuffer ++ s.inHand cfg)).Perm (List.range s.qIdx)
  commits : s.txnCnt = s.committed.length
  unfinished : s.phase ≠ .finished → s.txnCnt < cfg.maxTxnPerPart
  finished : s.txnCnt ≤ cfg.maxTxnPerPart
  safe : s.phase ≠ .failed
  trial : s.trial = 0
  outcome : s.rc = .rcok ∨ s.rc = .abort
  hand : s.phase = .running ∨ (cfg.enable = false ∧ s.rc = .abort) → s.mQuery.isSome
  room : s.phase = .running → cfg.enable = true → 0 < s.emptySlots
  unused : cfg.enable = false → stored s.abortBuffer = []

namespace ThreadInv

variable {cfg : ThreadConfig} {s s' : ThreadT} {now penalty q : Nat}

theorem init : ThreadInv cfg (.init cfg) where
  length := List.length_replicate
  slots := by
    show cfg.abortBufferSize = nulls (List.replicate _ _)
    rw [nulls, List.countP_replicate]
    rfl
  queries := by
    have hhand : (ThreadT.init cfg).inHand cfg = [] := ite_self _
    rw [hhand]
    show (stored (List.replicate cfg.abortBufferSize ⟨0, none⟩) ++ []).Perm []
    rw [stored_replicate]
    exact .refl _
  commits := rfl
  unfinished _ := cfg.maxTxnPerPart_pos
  finished := Nat.zero_le _
  safe := nofun
  trial := rfl
  outcome := .inl rfl
  hand := by
    rintro (h | ⟨-, h⟩)
    · cases h
    · cases h
  room := nofun
  unused _ := stored_replicate _

theorem on_off {p : Prop} (hon : cfg.enable = true) (hoff : cfg.enable = false) : p := nomatch hon.symm.trans hoff

theorem idle_inHand (hphase : s.phase = .selecting) (hidle : cfg.enable = true ∨ s.rc = .rcok) :
    s.inHand cfg = [] := by
  refine if_neg ?_
  rw [hphase]
  rintro (hrun | ⟨hoff, hrc⟩)
  · cases hrun
  · rcases hidle with hon | hok
    · exact on_off hon hoff
    · rw [hok] at hrc
      cases hrc

/-- A query has been selected. -/
theorem selected {buffer : List AbortBufferEntry} {emptySlots qIdx : Nat} {mQuery : Option Nat} (h : ThreadInv cfg s)
    (hphase : s.phase = .selecting) (hlen : buffer.length = cfg.abortBufferSize) (hslots : emptySlots = nulls buffer)
    (hqueries : (s.committed ++ (stored buffer ++ mQuery.toList)).Perm (List.range qIdx)) (hhand : mQuery.isSome)
    (hroom : cfg.enable = true → 0 < emptySlots) (hunused : cfg.enable = false → stored buffer = []) :
    ThreadInv cfg { s with
      abortBuffer := buffer, emptySlots := emptySlots, mQuery := mQuery, qIdx := qIdx, phase := .running } := by
  have hlt := h.unfinished (by rw [hphase]; exact nofun)
  constructor
  case length => exact hlen
  case slots => exact hslots
  case queries => exact hqueries
  case commits => exact h.commits
  case unfinished => exact fun _ => hlt
  case finished => exact h.finished
  case safe => exact nofun
  case trial => exact h.trial
  case outcome => exact h.outcome
  case hand => exact fun _ => hhand
  case room => exact fun _ => hroom
  case unused => exact hunused

/-- A query is drawn while none is at hand. -/
theorem draw (h : ThreadInv cfg s) (hphase : s.phase = .selecting) (hidle : cfg.enable = true ∨ s.rc = .rcok)
    (hroom : cfg.enable = true → 0 < s.emptySlots) : ThreadInv cfg s.draw := by
  refine h.selected hphase h.length h.slots ?_ rfl hroom h.unused
  have hq := h.queries
  rw [idle_inHand hphase hidle, List.append_nil] at hq
  show (s.committed ++ (stored s.abortBuffer ++ [s.qIdx])).Perm (List.range (s.qIdx + 1))
  rw [List.range_succ, ← List.append_assoc]
  exact hq.append_right _

/-- A query is taken out of the buffer. -/
theorem pick {buffer : List AbortBufferEntry} (h : ThreadInv cfg s) (hphase : s.phase = .selecting)
    (hon : cfg.enable = true) {currTime m : Nat}
    (hpick : (pickReady currTime s.emptySlots s.abortBuffer m).1 = some (q, buffer)) :
    ThreadInv cfg { s with
      abortBuffer := buffer, emptySlots := s.emptySlots + 1, mQuery := some q, phase := .running } := by
  obtain ⟨hlen, hnulls, hperm⟩ := pickReady_some hpick
  refine h.selected hphase (hlen.trans h.length) ?_ ?_ rfl (fun _ => Nat.succ_pos _) (on_off hon)
  · rw [hnulls, h.slots]
  · have hq := h.queries
    rw [idle_inHand hphase (.inl hon), List.append_nil] at hq
    refine .trans (.append_left _ ?_) hq
    exact List.perm_append_comm.trans hperm

/-- An aborted query is run again. -/
theorem retry (h : ThreadInv cfg s) (hphase : s.phase = .selecting) (hoff : cfg.enable = false)
    (habort : s.rc = .abort) : ThreadInv cfg { s with phase := .running } := by
  have hq := h.queries
  rw [ThreadT.inHand, if_pos (.inr ⟨hoff, habort⟩)] at hq
  exact h.selected hphase h.length h.slots hq (h.hand (.inr ⟨hoff, habort⟩)) (fun hon => on_off hon hoff) h.unused

/-- `usleep` -/
theorem sleep (h : ThreadInv cfg s) (hphase : s.phase = .selecting) (hon : cfg.enable = true) :
    ThreadInv cfg { s with mQuery := none } := by
  constructor
  case queries =>
    have hq := h.queries
    rw [idle_inHand hphase (.inl hon)] at hq
    rw [idle_inHand (s := { s with mQuery := none }) hphase (.inl hon)]
    exact hq
  case hand =>
    rintro (hrun | ⟨hoff, -⟩)
    · rw [show s.phase = .running from hrun] at hphase
      cases hphase
    · exact on_off hon hoff
  case length => exact h.length
  case slots => exact h.slots
  case commits => exact h.commits
  case unfinished => exact h.unfinished
  case finished => exact h.finished
  case safe => exact h.safe
  case trial => exact h.trial
  case outcome => exact h.outcome
  case room => exact h.room
  case unused => exact h.unused

/-- No query is ready: the thread sleeps if the buffer is full, and draws a query if not. -/
theorem sleep_or_draw (h : ThreadInv cfg s) (hphase : s.phase = .selecting) (hon : cfg.enable = true)
    {currTime minReadyTime : Nat} (hmin : s.emptySlots = 0 → currTime ≤ minReadyTime) :
    ThreadInv cfg (if s.emptySlots = 0 then
      if s.trial = 0 ∧ currTime ≤ minReadyTime then { s with mQuery := none } else { s with phase := .failed }
    else s.draw) := by
  by_cases hfull : s.emptySlots = 0
  · rw [if_pos hfull, if_pos ⟨h.trial, hmin hfull⟩]
    exact h.sleep hphase hon
  · rw [if_neg hfull]
    exact h.draw hphase (.inl hon) fun _ => Nat.pos_of_ne_zero hfull

theorem select (h : ThreadInv cfg s) (hphase : s.phase = .selecting) (now : Nat) :
    ThreadInv cfg (s.select cfg now) := by
  have htime : now % 2 ^ 64 ≤ uint64Max := Nat.le_pred_of_lt (Nat.mod_lt _ (Nat.two_pow_pos 64))
  unfold ThreadT.select
  cases henable : cfg.enable with
  | true =>
    rw [if_pos rfl]
    by_cases hused : s.emptySlots < cfg.abortBufferSize
    · simp only [if_pos hused]
      cases hpick : (pickReady (now % 2 ^ 64) s.emptySlots s.abortBuffer uint64Max).1 with
      | some p => exact h.pick hphase henable hpick
      | none =>
        refine h.sleep_or_draw hphase henable fun hfull => pickReady_none hpick ?_ htime
        rw [← h.slots, hfull]
    · simp only [if_neg hused]
      exact h.sleep_or_draw hphase henable fun _ => htime
  | false =>
    rw [if_neg Bool.false_ne_true]
    by_cases hok : s.rc = .rcok
    · rw [if_pos hok]
      exact h.draw hphase (.inr hok) fun hon => on_off hon henable
    · rw [if_neg hok]
      exact h.retry hphase henable (h.outcome.resolve_left hok)

/-- The end of the loop body, with nothing at hand but a query to run again. -/
theorem leave {t : ThreadT} (hlen : t.abortBuffer.length = cfg.abortBufferSize)
    (hslots : t.emptySlots = nulls t.abortBuffer)
    (hqueries : (t.committed ++ (stored t.abortBuffer ++
      if cfg.enable = false ∧ t.rc = .abort then t.mQuery.toList else [])).Perm (List.range t.qIdx))
    (hcommits : t.txnCnt = t.committed.length) (hle : t.txnCnt ≤ cfg.maxTxnPerPart) (htrial : t.trial = 0)
    (houtcome : t.rc = .rcok ∨ t.rc = .abort) (hhand : t.mQuery.isSome)
    (hunused : cfg.enable = false → stored t.abortBuffer = []) : ThreadInv cfg (t.leave cfg) := by
  have hphase : ∀ (phase : ThreadPhase) (trial : Nat), phase ≠ .running → phase ≠ .failed →
      (phase ≠ .finished → t.txnCnt < cfg.maxTxnPerPart) → trial = 0 →
      ThreadInv cfg { t with phase := phase, trial := trial } := by
    intro phase trial hrun hsafe hunfinished htrial
    constructor
    case queries => simpa only [ThreadT.inHand, hrun, false_or] using hqueries
    case hand => exact fun _ => hhand
    case room => exact fun h => absurd h hrun
    all_goals assumption
  unfold ThreadT.leave
  split
  · rename_i hge
    rw [if_pos (Nat.le_antisymm hle hge)]
    exact hphase .finished t.trial nofun nofun (fun h => absurd rfl h) htrial
  · rename_i hlt
    exact hphase .selecting 0 nofun nofun (fun _ => Nat.not_le.1 hlt) rfl

theorem commit (h : ThreadInv cfg s) (hphase : s.phase = .running) (hq : s.mQuery = some q) :
    ThreadInv cfg (s.commit cfg q) := by
  have hlt := h.unfinished (by rw [hphase]; exact nofun)
  have hqueries := h.queries
  rw [ThreadT.inHand, if_pos (.inl hphase), hq] at hqueries
  refine leave h.length h.slots ?_ ?_ hlt h.trial (.inl rfl) (by rw [hq]; rfl) h.unused
  · rw [if_neg (by simp), List.append_nil]
    refine .trans ?_ hqueries
    show (s.committed ++ [q] ++ stored s.abortBuffer).Perm (s.committed ++ (stored s.abortBuffer ++ [q]))
    rw [List.append_assoc]
    exact .append_left _ List.perm_append_comm
  · show s.txnCnt + 1 = (s.committed ++ [q]).length
    rw [List.length_append, h.commits]
    rfl

theorem abort (h : ThreadInv cfg s) (hphase : s.phase = .running) (hq : s.mQuery = some q) :
    ThreadInv cfg (s.abort cfg q now penalty) := by
  have hlt := h.unfinished (by rw [hphase]; exact nofun)
  have hqueries := h.queries
  have hsome : s.mQuery.isSome := by rw [hq]; rfl
  rw [ThreadT.inHand, if_pos (.inl hphase), hq] at hqueries
  unfold ThreadT.abort
  cases henable : cfg.enable with
  | true =>
    have hroom := h.room hphase henable
    obtain ⟨buffer, hstore, hlen, hnulls, hperm⟩ :=
      storeQuery_some q ((now + penalty) % 2 ^ 64) (h.slots ▸ hroom)
    rw [if_pos rfl, if_pos hroom, hstore]
    refine leave (hlen.trans h.length) ?_ ?_ h.commits h.finished h.trial (.inr rfl) hsome ?_
    · show s.emptySlots - 1 = nulls buffer
      rw [h.slots]
      omega
    · rw [if_neg (by rw [henable]; simp), List.append_nil]
      refine .trans (.append_left _ ?_) hqueries
      exact hperm.trans (List.perm_append_singleton q _).symm
    · exact on_off henable
  | false =>
    rw [if_neg Bool.false_ne_true]
    refine leave h.length h.slots ?_ h.commits h.finished h.trial (.inr rfl) hsome h.unused
    rw [if_pos ⟨henable, rfl⟩]
    show (s.committed ++ (stored s.abortBuffer ++ s.mQuery.toList)).Perm (List.range s.qIdx)
    rw [hq]
    exact hqueries

theorem step {e : ThreadEv} (h : ThreadInv cfg s) (hs : s.step cfg e = some s') : ThreadInv cfg s' := by
  cases e with
  | select now =>
    dsimp only [ThreadT.step] at hs
    split at hs
    · rename_i hphase
      cases hs
      exact h.select hphase now
    · cases hs
  | txnEnd rc now penalty =>
    dsimp only [ThreadT.step] at hs
    split at hs
    · rename_i hphase
      obtain ⟨q, hq⟩ := Option.isSome_iff_exists.1 (h.hand (.inl hphase))
      rw [hq] at hs
      cases rc with
      | rcok =>
        cases hs
        exact h.commit hphase hq
      | abort =>
        cases hs
        exact h.abort hphase hq
      | _ => cases hs
    · cases hs

theorem reach (h : (threadLts cfg).Reach Lts.Any s) : ThreadInv cfg s := by
  refine h.inv (P := ThreadInv cfg) ?_ fun _ _ _ hinv _ hs => hinv.step hs
  rintro _ rfl
  exact init

/-- The draws are the commits, the slots that are in use and the query at hand. -/
theorem draws (h : ThreadInv cfg s) :
    s.qIdx = s.txnCnt + ((stored s.abortBuffer).length + (s.inHand cfg).length) := by
  have hlen := h.queries.length_eq
  rw [List.length_append, List.length_append, List.length_range, ← h.commits] at hlen
  exact hlen.symm

theorem inHand_le (cfg : ThreadConfig) (s : ThreadT) : (s.inHand cfg).length ≤ 1 := by
  unfold ThreadT.inHand
  split
  · cases s.mQuery <;> simp
  · exact Nat.zero_le 1

end ThreadInv

/-- Whatever the outcomes and the times: no assertion fails, a slot is counted as empty if and only if its query is
`NULL`, no query is lost or there twice, and the draws stay within the queries that were allocated. -/
theorem abortBuffer_conserves (cfg : ThreadConfig) {s : ThreadT} (h : (threadLts cfg).Reach Lts.Any s) :
    s.phase ≠ .failed ∧ s.emptySlots = nulls s.abortBuffer ∧
      (s.committed ++ (stored s.abortBuffer ++ s.inHand cfg)).Perm (List.range s.qIdx) ∧
      s.qIdx ≤ cfg.queryCnt true ∧ (cfg.enable = false → s.qIdx ≤ cfg.queryCnt false) := by
  have hinv := ThreadInv.reach h
  have hdraws := hinv.draws
  have hfinished := hinv.finished
  have hhand := ThreadInv.inHand_le cfg s
  refine ⟨hinv.safe, hinv.slots, hinv.queries, ?_, fun hoff => ?_⟩
  · have hslots := nulls_add_stored s.abortBuffer
    rw [hinv.length] at hslots
    rw [ThreadConfig.queryCnt, if_pos rfl]
    generalize cfg.warmup / cfg.threadCnt = w
    omega
  · rw [hinv.unused hoff, List.length_nil] at hdraws
    rw [ThreadConfig.queryCnt, if_neg Bool.false_ne_true]
    generalize cfg.warmup / cfg.threadCnt = w
    omega

/-- One slot: the query 0 is aborted and stored, not ready at time 7 while the buffer is full, run again at time 9
and committed. -/
theorem abortBuffer_conserves_one_slot : ∃ s, (threadLts ⟨1, 2, 0, 4, true, by decide⟩).Reach Lts.Any s ∧
    s.committed = [0] ∧ s.emptySlots = nulls s.abortBuffer ∧
      s.qIdx ≤ ThreadConfig.queryCnt ⟨1, 2, 0, 4, true, by decide⟩ true := by
  have hrun : ((threadLts ⟨1, 2, 0, 4, true, by decide⟩).run (.init ⟨1, 2, 0, 4, true, by decide⟩)
      [.select 5, .txnEnd .abort 6 2, .select 7, .select 9, .txnEnd .rcok 10 0]).any
        (fun s => decide (s.committed = [0])) = true := by decide
  simp only [Option.any_eq_true, decide_eq_true_eq] at hrun
  obtain ⟨s, hs, hcommitted⟩ := hrun
  have hreach : (threadLts ⟨1, 2, 0, 4, true, by decide⟩).Reach Lts.Any s := .run (.init rfl) hs
  obtain ⟨-, hslots, -, hdraws, -⟩ := abortBuffer_conserves _ hreach
  exact ⟨s, hreach, hcommitted, hslots, hdraws⟩

end Dbx1000
