import Dbx1000.Global

/-!
# The lock table of an instance (`common/lock_table/lock_table.cpp`)

One `LockNode` per page. Every call of `LockTable` runs under the node's mutex; `Lock` and
`LockInvalid` first wait for a condition, which is a separate test here (`canLock`, `canInvalid`), so
that `none` is a failed assertion only. `LockInvalid` copies the page out between two changes of the
node and is therefore cut in three: the request flag, the invalidation, and the return. Between the
last two it keeps the mutex (`mtx`), which stops every other call but not the direct accesses to
`lock_mode` and `lock_remoting` in `GetWritePageLock`.
-/

namespace Dbx1000

inductive LockMode
  | O | P | S | X
deriving DecidableEq, Repr

structure LockNode where
  lockMode : LockMode
  count : Nat
  threadCount : Nat
  threadSet : List Nat
  invalidReq : Bool
  lockRemoting : Bool
  mtx : Bool
deriving DecidableEq, Repr

namespace LockNode

def init : LockNode := ⟨.O, 0, 0, [], false, false, false⟩

/-- The condition `Lock` waits for. -/
def canLock (mode : LockMode) (n : LockNode) : Bool :=
  !n.mtx && match mode with
    | .X => decide (n.lockMode = .P)
    | _ => decide (n.lockMode ≠ .X)

def lock (mode : LockMode) (n : LockNode) : Option LockNode :=
  match mode with
  | .X => if n.count = 0 then some { n with lockMode := .X, count := 1 } else none
  | .S =>
    match n.lockMode with
    | .O => some n
    | .P => if n.count = 0 then some { n with lockMode := .S, count := 1 } else none
    | .S => if 0 < n.count then some { n with count := n.count + 1 } else none
    | .X => none
  | .P | .O => none

def unLock (n : LockNode) : Option LockNode :=
  match n.lockMode with
  | .X => if n.count = 1 then some { n with lockMode := .P, count := 0 } else none
  | .S =>
    if 0 < n.count then
      some { n with lockMode := if n.count = 1 then .P else .S, count := n.count - 1 }
    else none
  | .O | .P => some n

def addThread (thdId : Nat) (n : LockNode) : LockNode :=
  if thdId ∈ n.threadSet then n
  else { n with threadSet := thdId :: n.threadSet, threadCount := n.threadCount + 1 }

/-- `RemoveThread` after its assertion on `lock_mode`. -/
def removeThread (thdId : Nat) (n : LockNode) : Option LockNode :=
  if thdId ∈ n.threadSet then
    if 0 < n.threadCount then
      some { n with threadSet := n.threadSet.erase thdId, threadCount := n.threadCount - 1 }
    else none
  else some n

/-! ### `LockInvalid` -/

/-- The condition of the untimed `cv.wait`. -/
def canInvalid (n : LockNode) : Bool := !n.mtx && decide (n.threadCount = 0)

/-- The timed wait under the same mutex, and the invalidation if it succeeds. -/
def invalidate (n : LockNode) : Option (LockNode × RC) :=
  if n.threadCount = 0 then
    if n.count = 0 then some ({ n with lockMode := .O, mtx := true }, .rcok) else none
  else some ({ n with mtx := true }, .timeOut)

/-- The last lines: the request flag is cleared and the mutex released. -/
def endInvalid (n : LockNode) : LockNode := { n with invalidReq := false, mtx := false }

/-! ### What the calls keep -/

/-- `thread_count` counts `thread_set`. -/
def Counted (n : LockNode) : Prop := n.threadCount = n.threadSet.length

variable {n n' : LockNode} {thd thd' : Nat}

theorem addThread_frame (n : LockNode) (thd : Nat) :
    (n.addThread thd).lockMode = n.lockMode ∧ (n.addThread thd).lockRemoting = n.lockRemoting ∧
    (n.addThread thd).count = n.count ∧ (n.addThread thd).mtx = n.mtx := by
  unfold addThread; split <;> exact ⟨rfl, rfl, rfl, rfl⟩

theorem mem_addThread : thd' ∈ (n.addThread thd).threadSet ↔ thd' = thd ∨ thd' ∈ n.threadSet := by
  unfold addThread
  split
  · rename_i h
    exact ⟨.inr, fun h' => h'.elim (fun h' => h' ▸ h) id⟩
  · exact List.mem_cons

theorem Counted.addThread (h : n.Counted) : (n.addThread thd).Counted := by
  unfold LockNode.addThread
  split
  · exact h
  · show n.threadCount + 1 = (thd :: n.threadSet).length
    rw [List.length_cons, h]

theorem removeThread_frame (h : n.removeThread thd = some n') :
    n'.lockMode = n.lockMode ∧ n'.lockRemoting = n.lockRemoting ∧ n'.count = n.count ∧ n'.mtx = n.mtx := by
  unfold removeThread at h
  split at h
  · split at h
    · cases h; exact ⟨rfl, rfl, rfl, rfl⟩
    · cases h
  · cases h; exact ⟨rfl, rfl, rfl, rfl⟩

theorem mem_removeThread (h : n.removeThread thd = some n') (hne : thd' ≠ thd) (hm : thd' ∈ n.threadSet) :
    thd' ∈ n'.threadSet := by
  unfold removeThread at h
  split at h
  · split at h
    · cases h; exact (List.mem_erase_of_ne hne).2 hm
    · cases h
  · cases h; exact hm

theorem Counted.removeThread (hc : n.Counted) (h : n.removeThread thd = some n') : n'.Counted := by
  unfold LockNode.removeThread at h
  split at h
  · rename_i hm
    split at h
    · cases h
      show n.threadCount - 1 = (n.threadSet.erase thd).length
      rw [List.length_erase_of_mem hm, hc]
    · cases h
  · cases h; exact hc

theorem lock_frame {mode : LockMode} (h : n.lock mode = some n') :
    n'.threadSet = n.threadSet ∧ n'.threadCount = n.threadCount := by
  unfold lock at h
  split at h
  · split at h <;> cases h
    exact ⟨rfl, rfl⟩
  · split at h
    · cases h
      exact ⟨rfl, rfl⟩
    · split at h <;> cases h
      exact ⟨rfl, rfl⟩
    · split at h <;> cases h
      exact ⟨rfl, rfl⟩
    · cases h
  · cases h
  · cases h

/-- The node after a call that changes the mode between `P` and `X`. -/
theorem lock_X_frame (hcan : n.canLock .X = true) (h : n.lock .X = some n') :
    n.lockMode = .P ∧ n'.lockMode = .X ∧ n'.lockRemoting = n.lockRemoting ∧ n'.threadSet = n.threadSet ∧
      n'.threadCount = n.threadCount := by
  simp only [canLock, Bool.and_eq_true, decide_eq_true_eq] at hcan
  simp only [lock] at h
  split at h
  · cases h; exact ⟨hcan.2, rfl, rfl, rfl, rfl⟩
  · cases h

/-- An X lock taken and given back leaves the node as it was. -/
theorem lock_unLock (hmode : n.lockMode = .P) (hcount : n.count = 0) :
    ∃ m, n.lock .X = some m ∧ m.unLock = some n := by
  refine ⟨{ n with lockMode := .X, count := 1 }, if_pos hcount, ?_⟩
  simp only [unLock, if_true]
  rw [← hmode, ← hcount]

theorem unLock_frame (h : n.unLock = some n') :
    (n'.lockMode = .O ↔ n.lockMode = .O) ∧ n'.lockRemoting = n.lockRemoting ∧ n'.threadSet = n.threadSet ∧
      n'.threadCount = n.threadCount := by
  unfold unLock at h
  split at h
  · rename_i hm
    split at h
    · cases h; rw [hm]; exact ⟨⟨LockMode.noConfusion, LockMode.noConfusion⟩, rfl, rfl, rfl⟩
    · cases h
  · rename_i hm
    split at h
    · cases h
      refine ⟨⟨fun h' => ?_, fun h' => ?_⟩, rfl, rfl, rfl⟩
      · dsimp only at h'
        split at h' <;> cases h'
      · rw [hm] at h'; cases h'
    · cases h
  · cases h; exact ⟨.rfl, rfl, rfl, rfl⟩
  · cases h; exact ⟨.rfl, rfl, rfl, rfl⟩

/-- The flags of `LockInvalid`, which the other calls leave alone. -/
def SameFlags (n n' : LockNode) : Prop := n'.invalidReq = n.invalidReq ∧ n'.mtx = n.mtx

theorem sameFlags_addThread (n : LockNode) (thd : Nat) : n.SameFlags (n.addThread thd) := by
  unfold addThread
  split <;> exact ⟨rfl, rfl⟩

theorem sameFlags_removeThread (h : n.removeThread thd = some n') : n.SameFlags n' := by
  unfold removeThread at h
  split at h
  · split at h <;> cases h
    exact ⟨rfl, rfl⟩
  · cases h; exact ⟨rfl, rfl⟩

theorem sameFlags_lock_X (h : n.lock .X = some n') : n.SameFlags n' := by
  simp only [lock] at h
  split at h <;> cases h
  exact ⟨rfl, rfl⟩

theorem sameFlags_unLock (h : n.unLock = some n') : n.SameFlags n' := by
  unfold unLock at h
  split at h
  · split at h <;> cases h
    exact ⟨rfl, rfl⟩
  · split at h <;> cases h
    exact ⟨rfl, rfl⟩
  · cases h; exact ⟨rfl, rfl⟩
  · cases h; exact ⟨rfl, rfl⟩

/-- A registered thread keeps `LockInvalid` waiting. -/
theorem not_canInvalid (hc : n.Counted) (hm : thd ∈ n.threadSet) : n.canInvalid = false := by
  have h : n.threadCount ≠ 0 := by
    rw [hc]
    exact fun h0 => by rw [List.length_eq_zero_iff.1 h0] at hm; cases hm
  rw [canInvalid, decide_eq_false h, Bool.and_false]

/-- The timed wait cannot fail after the untimed one: both test `thread_count` under the mutex. -/
theorem invalidate_eq (hcan : n.canInvalid = true) {rc : RC} (h : n.invalidate = some (n', rc)) :
    rc = .rcok ∧ n.count = 0 ∧ n' = { n with lockMode := .O, mtx := true } := by
  simp only [canInvalid, Bool.and_eq_true, decide_eq_true_eq] at hcan
  unfold invalidate at h
  rw [if_pos hcan.2] at h
  split at h
  · cases h; exact ⟨rfl, ‹_›, rfl⟩
  · cases h

end LockNode

end Dbx1000
