import Mathlib.Data.List.Nodup
import Dbx1000.Lib.Lts
import Dbx1000.Page

/-!
# Page ids (`common/storage/tablespace/tablespace.cpp`)

`GetNextPageId` counts under a mutex and reads `last_page_id_` for its result after the mutex is
released. `AllocSys` has any number of threads in that function, each call in these two steps. Where no
thread counts between the two steps of another one, the calls return 0, 1, 2, … (`getNextPageId_distinct`).
`last_page_id_` and `table_size_` are unbounded here; the 64-bit counters agree with them for less than 2 ^ 50 calls,
when `table_size_` counts less than 2 ^ 64 bytes.
-/

namespace Dbx1000

structure TableSpace where
  tableSize : Nat
  rowSize : Nat
  lastPageId : Int
deriving DecidableEq, Repr

namespace TableSpace

/-- `TableSpace::TableSpace`. -/
def new : TableSpace := ⟨0, 0, -1⟩

/-- `GetNextPageId` between `mtx_.lock()` and `mtx_.unlock()`. -/
def count (ts : TableSpace) : TableSpace :=
  { ts with lastPageId := ts.lastPageId + 1, tableSize := ts.tableSize + myPageSize }

/-- `return last_page_id_`, a negative `int64_t` as the `uint64_t` that it becomes. -/
def getLastPageId (ts : TableSpace) : Nat :=
  (if ts.lastPageId < 0 then ts.lastPageId + 2 ^ 64 else ts.lastPageId).toNat

/-- A call that no other thread disturbs. -/
def getNextPageId (ts : TableSpace) : Nat × TableSpace := (ts.count.getLastPageId, ts.count)

theorem getLastPageId_of_nonneg {ts : TableSpace} (h : 0 ≤ ts.lastPageId) :
    (ts.getLastPageId : Int) = ts.lastPageId := by
  rw [getLastPageId, if_neg (Int.not_lt.2 h), Int.toNat_of_nonneg h]

end TableSpace

/-! ### Any number of threads -/

/-- `counted`: the thread has released the mutex and not yet read its result. -/
inductive AllocPc
  | idle
  | counted
deriving DecidableEq, Repr

/-- `returned` are the results of the calls, newest first. -/
structure AllocSys (nt : Nat) where
  tableSpace : TableSpace
  pc : Fin nt → AllocPc
  returned : List Nat

inductive AllocEv (nt : Nat)
  | count (i : Fin nt)
  | ret (i : Fin nt)
deriving DecidableEq, Repr

namespace AllocSys

variable {nt : Nat}

def init : AllocSys nt := ⟨.new, fun _ => .idle, []⟩

def step (s : AllocSys nt) : AllocEv nt → Option (AllocSys nt)
  | .count i =>
    if s.pc i = .idle then
      some { s with tableSpace := s.tableSpace.count, pc := Function.update s.pc i .counted }
    else none
  | .ret i =>
    if s.pc i = .counted then
      some { s with pc := Function.update s.pc i .idle, returned := s.tableSpace.getLastPageId :: s.returned }
    else none

def lts : Lts (AllocSys nt) (AllocEv nt) := ⟨(· = init), step⟩

/-- No thread counts while another one has still to read its result. -/
def Alone (s : AllocSys nt) : AllocEv nt → Prop
  | .count _ => ∀ j, s.pc j = .idle
  | .ret _ => True

instance (s : AllocSys nt) : ∀ e, Decidable (s.Alone e)
  | .count _ => inferInstanceAs (Decidable (∀ j, s.pc j = .idle))
  | .ret _ => inferInstanceAs (Decidable True)

/-- After `n` results: either all threads are out of the function, or one of them has counted. -/
structure Inv (s : AllocSys nt) : Prop where
  returned : s.returned = (List.range s.returned.length).reverse
  size : ∃ k, s.tableSpace.tableSize = k * myPageSize ∧ s.tableSpace.lastPageId = k - 1 ∧
    ((∀ i, s.pc i = .idle) ∧ k = s.returned.length ∨
      (∃ i, s.pc i = .counted ∧ ∀ j, j ≠ i → s.pc j = .idle) ∧ k = s.returned.length + 1)

namespace Inv

theorem init : (AllocSys.init : AllocSys nt).Inv :=
  ⟨rfl, 0, rfl, rfl, .inl ⟨fun _ => rfl, rfl⟩⟩

theorem step {s s' : AllocSys nt} {e : AllocEv nt} (h : s.Inv) (hg : s.Alone e) (hs : s.step e = some s') :
    s'.Inv := by
  obtain ⟨hret, k, hsize, hlast, hpc⟩ := h
  cases e with
  | count i =>
    simp only [AllocSys.step, Option.ite_none_right_eq_some, Option.some.injEq] at hs
    obtain ⟨-, rfl⟩ := hs
    -- the guard leaves only the case in which nobody is inside
    have hk : k = s.returned.length := by
      rcases hpc with ⟨-, hk⟩ | ⟨⟨j, hj, -⟩, -⟩
      · exact hk
      · simp [hg j] at hj
    refine ⟨hret, k + 1, ?_, ?_, .inr ⟨⟨i, by simp, fun j hj => ?_⟩, by rw [hk]⟩⟩
    · simp only [TableSpace.count, hsize, Nat.succ_mul]
    · simp only [TableSpace.count, hlast]
      omega
    · exact (Function.update_of_ne hj ..).trans (hg j)
  | ret i =>
    simp only [AllocSys.step, Option.ite_none_right_eq_some, Option.some.injEq] at hs
    obtain ⟨hi, rfl⟩ := hs
    rcases hpc with ⟨hidle, -⟩ | ⟨⟨j, hj, hothers⟩, hk⟩
    · simp [hidle i] at hi
    have hij : i = j := by
      by_contra hne
      simp [hothers i hne] at hi
    subst hij
    have hid : s.tableSpace.getLastPageId = s.returned.length := by
      have := TableSpace.getLastPageId_of_nonneg (show 0 ≤ s.tableSpace.lastPageId by omega)
      omega
    refine ⟨?_, k, hsize, hlast, .inl ⟨fun j => ?_, by simp [hk]⟩⟩
    · rw [List.length_cons, List.range_succ, List.reverse_append, ← hret, hid]
      rfl
    · by_cases hne : j = i
      · subst hne
        simp
      · exact (Function.update_of_ne hne ..).trans (hothers j hne)

theorem reach {s : AllocSys nt} (h : lts.Reach Alone s) : s.Inv := by
  refine h.inv (P := Inv) ?_ fun s e s' h hg hs => h.step hg hs
  rintro s rfl
  exact init

end Inv

end AllocSys

/-- The results of all calls are distinct. They are 0 to n - 1 after n calls, and when no call is under way
`table_size_` counts their pages (as a `uint64_t` while n < 2 ^ 50). -/
theorem getNextPageId_distinct {nt : Nat} {s : AllocSys nt} (h : AllocSys.lts.Reach AllocSys.Alone s) :
    s.returned.Nodup ∧ (∀ id, id ∈ s.returned ↔ id < s.returned.length) ∧
      ((∀ i, s.pc i = .idle) → s.tableSpace.tableSize = s.returned.length * myPageSize) := by
  obtain ⟨hret, k, hsize, -, hpc⟩ := AllocSys.Inv.reach h
  refine ⟨?_, fun id => ?_, fun hidle => ?_⟩
  · rw [hret]
    exact List.pairwise_reverse.2 (List.nodup_range.imp fun hne => hne.symm)
  · rw [hret]
    simp
  · rcases hpc with ⟨-, hk⟩ | ⟨⟨i, hi, -⟩, -⟩
    · rw [hsize, hk]
    · simp [hidle i] at hi

/-- Two threads, one call after the other. -/
theorem getNextPageId_distinct_alone : ∃ s : AllocSys 2, AllocSys.lts.Reach AllocSys.Alone s ∧
    s.returned = [1, 0] ∧ s.returned.Nodup := by
  have hrun : ((AllocSys.lts : Lts (AllocSys 2) _).runIf (fun s e => decide (s.Alone e)) AllocSys.init
      [.count 0, .ret 0, .count 1, .ret 1]).any (fun s => decide (s.returned = [1, 0])) = true := by
    decide +kernel
  simp only [Option.any_eq_true, decide_eq_true_eq] at hrun
  obtain ⟨s, hs, hret⟩ := hrun
  have hreach := Lts.Reach.runIf (G := AllocSys.Alone) (fun _ _ => of_decide_eq_true) (.init rfl) hs
  exact ⟨s, hreach, hret, (getNextPageId_distinct hreach).1⟩

/-- Both threads count before either of them reads: both get page 1, and page 0 is lost. -/
theorem getNextPageId_twice : ∃ s : AllocSys 2, AllocSys.lts.Reach Lts.Any s ∧ s.returned = [1, 1] ∧
    ¬ s.returned.Nodup ∧ ¬ (0 ∈ s.returned) := by
  have hrun : ((AllocSys.lts : Lts (AllocSys 2) _).run AllocSys.init [.count 0, .count 1, .ret 0, .ret 1]).any
      (fun s => decide (s.returned = [1, 1])) = true := by
    decide +kernel
  simp only [Option.any_eq_true, decide_eq_true_eq] at hrun
  obtain ⟨s, hs, hret⟩ := hrun
  exact ⟨s, .run (.init rfl) hs, hret, by simp [hret], by simp [hret]⟩

end Dbx1000
