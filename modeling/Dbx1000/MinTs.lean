import Mathlib.Data.Nat.Basic
import Mathlib.Order.Basic
import Dbx1000.Global
import Dbx1000.Lib.Lts

/-!
# `GetMinTs` (`instance/manager_instance.cpp`, `instance/thread.cpp`)

Every thread draws the timestamp of its next transaction (`get_next_ts` counts twice and returns the second
number), publishes it in `all_ts_` and runs the transaction, in which it may call `GetMinTs`. The scan of
`GetMinTs` reads an entry to compare it and again to take it over; each read is a step. `began` remembers
the timestamps that were drawn and not finished when the scan began. Before a thread has published its
first timestamp its entry is `UINT64_MAX`, and the scan does not see the transaction.
-/

namespace Dbx1000

/-- A call of `GetMinTs`; `assigning` is set between the two reads of the entry `idx`. -/
structure Scan (nt : Nat) where
  began : Fin nt → Option Nat
  idx : Nat
  minTs : Nat
  assigning : Bool

/-- Where a thread is in `thread_t::run`. -/
inductive TsPc (nt : Nat)
  | idle
  | fetched
  | drawn (ts : Nat)
  | running (ts : Nat)
  | scanning (ts : Nat) (sc : Scan nt)

namespace TsPc

variable {nt : Nat}

/-- The timestamp of the transaction that is not finished. -/
def ts? : TsPc nt → Option Nat
  | .idle | .fetched => none
  | .drawn ts | .running ts | .scanning ts _ => some ts

def scan? : TsPc nt → Option (Scan nt)
  | .scanning _ sc => some sc
  | _ => none

end TsPc

structure TsSys (nt : Nat) where
  timestamp : Nat
  allTs : Fin nt → Nat
  pc : Fin nt → TsPc nt

/-- `fetch` is `timestamp_.fetch_add(1)` and `read` the next read of a scan. -/
inductive TsEv (nt : Nat)
  | fetch (k : Fin nt)
  | publish (k : Fin nt)
  | finish (k : Fin nt)
  | startScan (j : Fin nt)
  | read (j : Fin nt)
  | endScan (j : Fin nt)
deriving DecidableEq, Repr

namespace TsSys

variable {nt : Nat}

/-- `ManagerInstance::Init`. -/
def init : TsSys nt := ⟨1, fun _ => uint64Max, fun _ => .idle⟩

def goto (k : Fin nt) (pc : TsPc nt) (s : TsSys nt) : TsSys nt := { s with pc := Function.update s.pc k pc }

/-- The next read of the loop in `GetMinTs`. -/
def readEntry (sc : Scan nt) (s : TsSys nt) : Option (Scan nt) :=
  if h : sc.idx < nt then
    if sc.assigning then some { sc with minTs := s.allTs ⟨sc.idx, h⟩, assigning := false, idx := sc.idx + 1 }
    else if s.allTs ⟨sc.idx, h⟩ < sc.minTs then some { sc with assigning := true }
    else some { sc with idx := sc.idx + 1 }
  else none

def step (s : TsSys nt) : TsEv nt → Option (TsSys nt)
  | .fetch k =>
    match s.pc k with
    | .idle => some { s.goto k .fetched with timestamp := s.timestamp + 1 }
    | .fetched => some { s.goto k (.drawn s.timestamp) with timestamp := s.timestamp + 1 }
    | _ => none
  | .publish k =>
    match s.pc k with
    | .drawn ts => some { s.goto k (.running ts) with allTs := Function.update s.allTs k ts }
    | _ => none
  | .finish k =>
    match s.pc k with
    | .running _ => some (s.goto k .idle)
    | _ => none
  | .startScan j =>
    match s.pc j with
    | .running ts => some (s.goto j (.scanning ts ⟨fun k => (s.pc k).ts?, 0, uint64Max, false⟩))
    | _ => none
  | .read j =>
    match s.pc j with
    | .scanning ts sc => (s.readEntry sc).map fun sc => s.goto j (.scanning ts sc)
    | _ => none
  | .endScan j =>
    match s.pc j with
    | .scanning ts sc => if sc.idx = nt then some (s.goto j (.running ts)) else none
    | _ => none

def lts : Lts (TsSys nt) (TsEv nt) := ⟨(· = init), step⟩

/-- A scan begins only when no drawn timestamp is below the entry of its thread, as the first one of a thread is
until it is published; and no entry is published between the two reads that a scan makes of it. -/
def Seen (s : TsSys nt) : TsEv nt → Prop
  | .startScan _ => ∀ k, ∀ ts ∈ (s.pc k).ts?, s.allTs k ≤ ts
  | .publish k => ∀ j, ∀ sc ∈ (s.pc j).scan?, sc.assigning = true → sc.idx ≠ k.val
  | _ => True

instance (s : TsSys nt) : ∀ e, Decidable (s.Seen e)
  | .startScan _ => inferInstanceAs (Decidable (∀ k, ∀ ts ∈ (s.pc k).ts?, s.allTs k ≤ ts))
  | .publish k => inferInstanceAs (Decidable (∀ j, ∀ sc ∈ (s.pc j).scan?, sc.assigning = true → sc.idx ≠ k.val))
  | .fetch _ | .finish _ | .read _ | .endScan _ => .isTrue trivial

/-! ### The invariant of a scan -/

structure ScanOk (s : TsSys nt) (sc : Scan nt) : Prop where
  old : ∀ k ts, sc.began k = some ts → ts < s.timestamp
  entry : ∀ k ts, sc.began k = some ts → (s.pc k).ts? = some ts → s.allTs k ≤ ts
  passed : ∀ k ts, k.val < sc.idx → sc.began k = some ts → (s.pc k).ts? = some ts → sc.minTs ≤ ts
  smaller : sc.assigning = true → ∀ k, k.val = sc.idx → s.allTs k < sc.minTs

/-- What the other threads may do during a scan. -/
structure Keeps (s s' : TsSys nt) : Prop where
  timestamp : s.timestamp ≤ s'.timestamp
  live : ∀ k ts, ts < s.timestamp → (s'.pc k).ts? = some ts → (s.pc k).ts? = some ts
  entry : ∀ k, s'.allTs k = s.allTs k ∨ (s.pc k).ts? = some (s'.allTs k)

variable {s s' : TsSys nt} {sc sc' : Scan nt}

theorem ScanOk.frame (h : s.ScanOk sc) (hk : Keeps s s')
    (hsm : sc.assigning = true → ∀ k : Fin nt, k.val = sc.idx → s'.allTs k = s.allTs k) : s'.ScanOk sc where
  old k ts hb := (h.old k ts hb).trans_le hk.timestamp
  entry k ts hb hl := by
    have hlive := hk.live k ts (h.old k ts hb) hl
    rcases hk.entry k with he | he
    · rw [he]
      exact h.entry k ts hb hlive
    · rw [hlive] at he
      exact (Option.some.inj he).ge
  passed k ts hi hb hl := h.passed k ts hi hb (hk.live k ts (h.old k ts hb) hl)
  smaller ha k hi := by
    rw [hsm ha k hi]
    exact h.smaller ha k hi

/-- The reads of a scan. -/
theorem ScanOk.read (h : s.ScanOk sc) (hs : s.readEntry sc = some sc') : s.ScanOk sc' := by
  unfold readEntry at hs
  split at hs
  · rename_i hi
    have hidx : ∀ k : Fin nt, k.val < sc.idx + 1 → k.val < sc.idx ∨ k = ⟨sc.idx, hi⟩ := by
      intro k hk
      rcases Nat.lt_succ_iff_lt_or_eq.1 hk with hk | hk
      · exact .inl hk
      · exact .inr (Fin.ext hk)
    split at hs
    · -- the entry is taken over: it is below the minimum so far
      rename_i ha
      cases hs
      refine ⟨h.old, h.entry, fun k ts hk hb hl => ?_, by simp⟩
      have hlt := h.smaller ha ⟨sc.idx, hi⟩ rfl
      rcases hidx k hk with hk | rfl
      · exact hlt.le.trans (h.passed k ts hk hb hl)
      · exact h.entry _ ts hb hl
    · split at hs
      · rename_i hlt
        cases hs
        refine ⟨h.old, h.entry, h.passed, fun _ k hk => ?_⟩
        obtain rfl : k = ⟨sc.idx, hi⟩ := Fin.ext hk
        exact hlt
      · rename_i ha hge
        cases hs
        refine ⟨h.old, h.entry, fun k ts hk hb hl => ?_, fun ha' => absurd ha' ha⟩
        rcases hidx k hk with hk | rfl
        · exact h.passed k ts hk hb hl
        · exact (not_lt.1 hge).trans (h.entry _ ts hb hl)
  · cases hs

/-! ### Runs -/

structure Inv (s : TsSys nt) : Prop where
  drawn : ∀ k ts, (s.pc k).ts? = some ts → ts < s.timestamp
  scan : ∀ j sc, (s.pc j).scan? = some sc → s.ScanOk sc

@[simp] theorem pc_goto_self {k : Fin nt} {pc : TsPc nt} : (s.goto k pc).pc k = pc := Function.update_self ..

theorem pc_goto_of_ne {k j : Fin nt} {pc : TsPc nt} (h : j ≠ k) : (s.goto k pc).pc j = s.pc j :=
  Function.update_of_ne h ..

theorem Keeps.goto {k : Fin nt} {pc : TsPc nt} (hlive : ∀ ts, pc.ts? = some ts → (s.pc k).ts? = some ts) :
    Keeps s (s.goto k pc) := by
  refine ⟨le_rfl, fun j ts _ hj => ?_, fun j => .inl rfl⟩
  by_cases hjk : j = k
  · subst hjk
    rw [pc_goto_self] at hj
    exact hlive ts hj
  · rwa [pc_goto_of_ne hjk] at hj

/-- Thread `k` moves, and the entries that some scan is about to take over stay. -/
theorem Inv.move (h : s.Inv) {k : Fin nt} (hpc : ∀ j, j ≠ k → s'.pc j = s.pc j)
    (htime : s.timestamp ≤ s'.timestamp)
    (hlive : ∀ ts, (s'.pc k).ts? = some ts → (s.pc k).ts? = some ts ∨ s.timestamp ≤ ts ∧ ts < s'.timestamp)
    (hentry : ∀ j, s'.allTs j = s.allTs j ∨
      (s.pc j).ts? = some (s'.allTs j) ∧ ∀ i, ∀ sc ∈ (s.pc i).scan?, sc.assigning = true → sc.idx ≠ j.val)
    (hscan : ∀ sc, (s'.pc k).scan? = some sc → s'.ScanOk sc) : s'.Inv := by
  have hk : Keeps s s' := by
    refine ⟨htime, fun j ts hlt hj => ?_, fun j => (hentry j).imp_right And.left⟩
    by_cases hjk : j = k
    · subst hjk
      exact (hlive ts hj).resolve_right fun hnew => Nat.not_lt.2 hnew.1 hlt
    · rwa [hpc j hjk] at hj
  refine ⟨fun j ts hj => ?_, fun j sc hj => ?_⟩
  · by_cases hjk : j = k
    · subst hjk
      rcases hlive ts hj with hold | hnew
      · exact (h.drawn j ts hold).trans_le htime
      · exact hnew.2
    · rw [hpc j hjk] at hj
      exact (h.drawn j ts hj).trans_le htime
  · by_cases hjk : j = k
    · subst hjk
      exact hscan sc hj
    · rw [hpc j hjk] at hj
      refine (h.scan j sc hj).frame hk fun ha i hi => ?_
      rcases hentry i with he | ⟨-, he⟩
      · exact he
      · exact absurd hi.symm (he j sc hj ha)

/-- A step that leaves the counter and the entries alone. -/
theorem Inv.goto (h : s.Inv) {k : Fin nt} {pc : TsPc nt} (hlive : ∀ ts, pc.ts? = some ts → (s.pc k).ts? = some ts)
    (hscan : ∀ sc, pc.scan? = some sc → (s.goto k pc).ScanOk sc) : (s.goto k pc).Inv := by
  refine h.move (fun j hj => pc_goto_of_ne hj) le_rfl ?_ (fun j => .inl rfl) ?_
  · simpa using fun ts hts => .inl (hlive ts hts)
  · simpa using hscan

theorem Inv.step (h : s.Inv) {e : TsEv nt} (hg : s.Seen e) (hs : s.step e = some s') : s'.Inv := by
  cases e with
  | fetch k =>
    simp only [TsSys.step] at hs
    split at hs
    · cases hs
      exact h.move (fun j hj => pc_goto_of_ne hj) (Nat.le_succ _) (by simp [TsPc.ts?]) (fun j => .inl rfl)
        (by simp [TsPc.scan?])
    · cases hs
      exact h.move (fun j hj => pc_goto_of_ne hj) (Nat.le_succ _) (by simp [TsPc.ts?]) (fun j => .inl rfl)
        (by simp [TsPc.scan?])
    · cases hs
  | publish k =>
    simp only [TsSys.step] at hs
    split at hs
    · rename_i ts hpc
      cases hs
      refine h.move (fun j hj => pc_goto_of_ne hj) le_rfl ?_ (fun j => ?_) (by simp [TsPc.scan?])
      · simp [TsPc.ts?, hpc]
      · by_cases hjk : j = k
        · subst hjk
          exact .inr ⟨by simp [hpc, TsPc.ts?], hg⟩
        · exact .inl (Function.update_of_ne hjk ..)
    · cases hs
  | finish k =>
    simp only [TsSys.step] at hs
    split at hs
    · cases hs
      exact h.goto (by simp [TsPc.ts?]) (by simp [TsPc.scan?])
    · cases hs
  | startScan j =>
    simp only [TsSys.step] at hs
    split at hs
    · rename_i ts hpc
      cases hs
      refine h.goto (by simp [TsPc.ts?, hpc]) fun sc hsc => ?_
      obtain rfl := Option.some.inj hsc
      exact ⟨h.drawn, fun k ts hb _ => hg k ts hb, fun k ts hk => absurd hk (Nat.not_lt_zero _), by simp⟩
    · cases hs
  | read j =>
    simp only [TsSys.step] at hs
    split at hs
    · rename_i ts sc hpc
      obtain ⟨sc', hsc, rfl⟩ := Option.map_eq_some_iff.1 hs
      have hlive : ∀ ts', (TsPc.scanning ts sc').ts? = some ts' → (s.pc j).ts? = some ts' := by simp [TsPc.ts?, hpc]
      refine h.goto hlive fun sc₁ hsc₁ => ?_
      obtain rfl := Option.some.inj hsc₁
      have hok := (h.scan j sc (by rw [hpc]; rfl)).read hsc
      exact hok.frame (.goto hlive) fun _ _ _ => rfl
    · cases hs
  | endScan j =>
    simp only [TsSys.step] at hs
    split at hs
    · rename_i ts sc hpc
      split at hs
      · cases hs
        exact h.goto (by simp [TsPc.ts?, hpc]) (by simp [TsPc.scan?])
      · cases hs
    · cases hs

theorem Inv.reach (h : lts.Reach Seen s) : s.Inv := by
  refine h.inv (P := Inv) ?_ fun s e s' h hg hs => h.step hg hs
  rintro s rfl
  exact ⟨by simp [init, TsPc.ts?], by simp [init, TsPc.scan?]⟩

end TsSys

/-- When a scan has passed all entries, its minimum is at most the timestamp of any transaction that had its
timestamp when the scan began and is not finished. -/
theorem getMinTs_le_unfinished {nt : Nat} {s : TsSys nt} (h : TsSys.lts.Reach TsSys.Seen s) {j k : Fin nt}
    {ts ts' : Nat} {sc : Scan nt} (hscan : s.pc j = .scanning ts' sc) (hend : sc.idx = nt)
    (hbegan : sc.began k = some ts) (hlive : (s.pc k).ts? = some ts) : sc.minTs ≤ ts :=
  ((TsSys.Inv.reach h).scan j sc (by rw [hscan]; rfl)).passed k ts (k.isLt.trans_eq hend.symm) hbegan hlive

/-- The value that the scan of thread `j` returns, and the timestamp of thread `k`, if it was drawn before the scan
and its transaction is not finished. -/
def TsSys.scanned {nt : Nat} (s : TsSys nt) (j k : Fin nt) : Option (Nat × Nat) :=
  (s.pc j).scan?.bind fun sc =>
    if sc.idx = nt ∧ sc.began k = (s.pc k).ts? then (sc.began k).map fun ts => (sc.minTs, ts) else none

theorem TsSys.scanned_eq_some {nt : Nat} {s : TsSys nt} {j k : Fin nt} {minTs ts : Nat}
    (h : s.scanned j k = some (minTs, ts)) : ∃ ts' sc, s.pc j = .scanning ts' sc ∧ sc.idx = nt ∧
      sc.began k = some ts ∧ (s.pc k).ts? = some ts ∧ sc.minTs = minTs := by
  obtain ⟨sc, hsc, h⟩ := Option.bind_eq_some_iff.1 h
  rw [Option.ite_none_right_eq_some, Option.map_eq_some_iff] at h
  obtain ⟨⟨hidx, heq⟩, ts₁, hts, heq'⟩ := h
  cases heq'
  cases hpc : s.pc j with
  | scanning ts' sc' =>
    rw [hpc] at hsc
    cases hsc
    exact ⟨ts', sc, rfl, hidx, hts, heq ▸ hts, rfl⟩
  | idle | fetched | drawn | running =>
    rw [hpc] at hsc
    cases hsc

/-- Both threads have published before the scan of thread 0. -/
theorem getMinTs_of_published : ∃ s : TsSys 2, TsSys.lts.Reach TsSys.Seen s ∧ s.scanned 0 1 = some (2, 2) ∧
    ∀ minTs ts, s.scanned 0 1 = some (minTs, ts) → minTs ≤ ts := by
  have hrun : ((TsSys.lts : Lts (TsSys 2) _).runIf (fun s e => decide (s.Seen e)) .init
      [.fetch 1, .fetch 1, .publish 1, .fetch 0, .fetch 0, .publish 0, .startScan 0, .read 0, .read 0, .read 0,
        .read 0]).any (fun s => decide (s.scanned 0 1 = some (2, 2))) = true := by
    decide +kernel
  simp only [Option.any_eq_true, decide_eq_true_eq] at hrun
  obtain ⟨s, hs, hscan⟩ := hrun
  have hreach := Lts.Reach.runIf (G := TsSys.Seen) (fun _ _ => of_decide_eq_true) (.init rfl) hs
  refine ⟨s, hreach, hscan, fun minTs ts hts => ?_⟩
  obtain ⟨ts', sc, hpc, hidx, hbegan, hlive, rfl⟩ := TsSys.scanned_eq_some hts
  exact getMinTs_le_unfinished hreach hpc hidx hbegan hlive

/-- Thread 1 has drawn 2 as its first timestamp and not published it; thread 0 publishes 4 and scans. The second
run: entry 1 is 2 when it is compared and 6 when it is taken over, which is more than the 4 of thread 0. -/
theorem getMinTs_misses_first : (∃ s : TsSys 2, TsSys.lts.Reach Lts.Any s ∧ s.scanned 0 1 = some (4, 2)) ∧
    ∃ s : TsSys 2, TsSys.lts.Reach Lts.Any s ∧ s.scanned 0 0 = some (6, 4) := by
  have hrun : ((TsSys.lts : Lts (TsSys 2) _).run .init
      [.fetch 1, .fetch 1, .fetch 0, .fetch 0, .publish 0, .startScan 0, .read 0, .read 0, .read 0]).any
        (fun s => decide (s.scanned 0 1 = some (4, 2))) = true := by
    decide +kernel
  have hrun' : ((TsSys.lts : Lts (TsSys 2) _).run .init
      [.fetch 1, .fetch 1, .publish 1, .finish 1, .fetch 0, .fetch 0, .publish 0, .fetch 1, .fetch 1, .startScan 0,
        .read 0, .read 0, .read 0, .publish 1, .read 0]).any
        (fun s => decide (s.scanned 0 0 = some (6, 4))) = true := by
    decide +kernel
  simp only [Option.any_eq_true, decide_eq_true_eq] at hrun hrun'
  obtain ⟨s, hs, hscan⟩ := hrun
  obtain ⟨s', hs', hscan'⟩ := hrun'
  exact ⟨⟨s, .run (.init rfl) hs, hscan⟩, s', .run (.init rfl) hs', hscan'⟩

end Dbx1000
