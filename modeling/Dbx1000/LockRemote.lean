import Mathlib.Logic.Function.Basic
import Dbx1000.Lib.Lts
import Dbx1000.PageLock

/-!
# A `LockRemote` that fails

A request for a page passes `GetWritePageLock` of the instance, `GlobalLockServiceImpl::LockRemote`,
`GlobalLock::LockRemote` and the `Invalid` call to the owner. The result of that call is an input here, so
that every answer of the owner is possible. `GlobalLock::LockRemote` writes the new owner whatever the
answer was; a failed request therefore changes nothing only if the instance that makes it is the recorded
owner already. `lastOk` is the instance that last received RCOK for a page.
-/

namespace Dbx1000

variable {ni : Nat}

/-- `GlobalLock::LockRemote` on `write_ins_id` of the pages; `invalid` is what `Invalid` returns if it is called. -/
def globalLockRemote (insId : Fin ni) (pageId : Nat) (invalid : RC) (writeInsId : Nat → Option (Fin ni)) :
    RC × (Nat → Option (Fin ni)) :=
  match writeInsId pageId with
  | some _ => (invalid, Function.update writeInsId pageId (some insId))
  | none => (.rcok, Function.update writeInsId pageId (some insId))

structure LockSys (ni : Nat) where
  writeInsId : Nat → Option (Fin ni)
  node : Fin ni → Nat → LockNode
  lastOk : Nat → Option (Fin ni)

/-- A call of `GetWritePageLock` that finds the page in mode O, and the answer of the owner. -/
structure LockRequest (ni : Nat) where
  ins : Fin ni
  page : Nat
  invalid : RC
deriving DecidableEq, Repr

namespace LockSys

def setNode (i : Fin ni) (p : Nat) (n : LockNode) (s : LockSys ni) : LockSys ni :=
  { s with node := Function.update s.node i (Function.update (s.node i) p n) }

/-- `LockInvalid` at the owner of the page, if there is one and it answers RCOK. -/
def lockInvalid (p : Nat) (invalid : RC) (s : LockSys ni) : LockSys ni :=
  match s.writeInsId p with
  | some o => if invalid = .rcok then s.setNode o p { s.node o p with lockMode := .O } else s
  | none => s

/-- `GetWritePageLock` after the reply. -/
def afterReply (i : Fin ni) (p : Nat) (rc : RC) (s : LockSys ni) : Option (LockSys ni) :=
  if rc = .abort ∨ rc = .timeOut then some (s.setNode i p { s.node i p with lockRemoting := false })
  else if rc = .rcok ∧ (s.node i p).lockMode = .O then
    some { s.setNode i p { s.node i p with lockMode := .P, lockRemoting := false } with
      lastOk := Function.update s.lastOk p (some i) }
  else none

/-- The page is in mode O and no other thread of the instance has asked for it. -/
def Free (s : LockSys ni) (r : LockRequest ni) : Prop :=
  (s.node r.ins r.page).lockMode = .O ∧ (s.node r.ins r.page).lockRemoting = false

instance (s : LockSys ni) (r : LockRequest ni) : Decidable (s.Free r) := inferInstanceAs (Decidable (_ ∧ _))

/-- The whole request; `none` is a failed assertion. -/
def step (s : LockSys ni) (r : LockRequest ni) : Option (LockSys ni) :=
  if s.Free r then do
    let s := s.setNode r.ins r.page { s.node r.ins r.page with lockRemoting := true }
    let (rc, writeInsId) := globalLockRemote r.ins r.page r.invalid s.writeInsId
    let s := { s.lockInvalid r.page r.invalid with writeInsId := writeInsId }
    let rc ← replyRc rc
    s.afterReply r.ins r.page rc
  else none

/-- Any owners, and all lock tables as they are at the start. -/
def lts : Lts (LockSys ni) (LockRequest ni) where
  init s := s.lastOk = s.writeInsId ∧ ∀ i p, s.node i p = .init
  step := step

/-- The page has no owner, or the owner answers RCOK, or the owner asks for its own page and is answered Abort. -/
def AnswerOk (s : LockSys ni) (r : LockRequest ni) : Prop :=
  s.writeInsId r.page = none ∨ r.invalid = .rcok ∨ r.invalid = .abort ∧ s.writeInsId r.page = some r.ins

/-! ### What a request does -/

variable {s s' : LockSys ni} {r : LockRequest ni} {i : Fin ni} {p : Nat}

theorem setNode_eq_self : s.setNode i p (s.node i p) = s := by simp [setNode]

@[simp] theorem lastOk_lockInvalid {rc : RC} : (s.lockInvalid p rc).lastOk = s.lastOk := by
  unfold lockInvalid
  split
  · split <;> rfl
  · rfl

theorem lockInvalid_of_ne {rc : RC} (h : rc ≠ .rcok) : s.lockInvalid p rc = s := by
  unfold lockInvalid
  split
  · rw [if_neg h]
  · rfl

theorem afterReply_rcok (h : s.afterReply i p .rcok = some s') :
    s'.writeInsId = s.writeInsId ∧ s'.lastOk = Function.update s.lastOk p (some i) := by
  simp only [afterReply, reduceCtorEq, or_self, if_false, true_and, Option.ite_none_right_eq_some,
    Option.some.injEq] at h
  obtain ⟨-, rfl⟩ := h
  exact ⟨rfl, rfl⟩

/-- The new owner is written in every case. -/
theorem globalLockRemote_snd {rc : RC} {w : Nat → Option (Fin ni)} :
    (globalLockRemote i p rc w).2 = Function.update w p (some i) := by
  unfold globalLockRemote
  split <;> rfl

/-- A request that fails was made by the recorded owner. -/
theorem AnswerOk.of_failed (h : s.AnswerOk r)
    (hrc : (globalLockRemote r.ins r.page r.invalid s.writeInsId).1 ≠ .rcok) :
    r.invalid = .abort ∧ s.writeInsId r.page = some r.ins := by
  rcases h with h | h | h
  · simp [globalLockRemote, h] at hrc
  · refine absurd ?_ hrc
    unfold globalLockRemote
    split
    · exact h
    · rfl
  · exact h

/-- Such a request leaves everything as it was. -/
theorem step_of_failed (hfree : s.Free r) (hinv : r.invalid = .abort) (hown : s.writeInsId r.page = some r.ins) :
    s.step r = some s := by
  have hsame : Function.update s.writeInsId r.page (some r.ins) = s.writeInsId := by
    rw [← hown, Function.update_eq_self]
  have hnode : ({ s.node r.ins r.page with lockRemoting := false } : LockNode) = s.node r.ins r.page := by
    rw [← hfree.2]
  simp only [step, if_pos hfree, globalLockRemote, setNode, hown, hinv, hsame,
    lockInvalid_of_ne (show RC.abort ≠ .rcok by decide), replyRc, Option.bind_eq_bind, Option.bind_some, afterReply,
    true_or, if_true]
  refine congrArg some (.trans ?_ (setNode_eq_self (i := r.ins) (p := r.page)))
  rw [← hnode]
  simp [setNode]

/-- The recorded owner is the one that last received RCOK. -/
theorem step_owner (h : s.writeInsId = s.lastOk) (hg : s.AnswerOk r) (hs : s.step r = some s') :
    s'.writeInsId = s'.lastOk := by
  by_cases hrc : (globalLockRemote r.ins r.page r.invalid s.writeInsId).1 = .rcok
  · simp only [step, setNode, Option.ite_none_right_eq_some, Option.bind_eq_bind] at hs
    obtain ⟨-, hs⟩ := hs
    rw [hrc, globalLockRemote_snd] at hs
    rw [replyRc, Option.bind_some] at hs
    obtain ⟨howner, hlast⟩ := afterReply_rcok hs
    rw [howner, hlast, lastOk_lockInvalid, h]
  · obtain ⟨hinv, hown⟩ := hg.of_failed hrc
    by_cases hfree : s.Free r
    · rw [step_of_failed hfree hinv hown] at hs
      cases hs
      exact h
    · rw [step, if_neg hfree] at hs
      cases hs

theorem reach_owner (h : lts.Reach AnswerOk s) : s.writeInsId = s.lastOk := by
  refine h.inv (P := fun s => s.writeInsId = s.lastOk) ?_ fun s r s' h hg hs => step_owner h hg hs
  rintro s ⟨h, -⟩
  exact h.symm

end LockSys

/-- Where the owners answer as `AnswerOk` says, a request that fails is answered with the code of
`GlobalLock::LockRemote`, leaves all owners as they were and the page of the requester in mode O, to be asked for
again; and the recorded owner is always the instance that last received RCOK. -/
theorem failed_lockRemote_changes_nothing {s : LockSys ni} (h : LockSys.lts.Reach LockSys.AnswerOk s) :
    (∀ p, s.writeInsId p = s.lastOk p) ∧
    ∀ r : LockRequest ni, s.AnswerOk r → s.Free r →
      (globalLockRemote r.ins r.page r.invalid s.writeInsId).1 ≠ .rcok →
      (globalLockRemote r.ins r.page r.invalid s.writeInsId).2 = s.writeInsId ∧
      replyRc (globalLockRemote r.ins r.page r.invalid s.writeInsId).1 =
        some (globalLockRemote r.ins r.page r.invalid s.writeInsId).1 ∧
      ∃ s', s.step r = some s' ∧ (s'.node r.ins r.page).lockMode = .O ∧
        (s'.node r.ins r.page).lockRemoting = false := by
  refine ⟨fun p => congrFun (LockSys.reach_owner h) p, fun r hg hfree hrc => ?_⟩
  obtain ⟨hinv, hown⟩ := hg.of_failed hrc
  refine ⟨?_, ?_, s, LockSys.step_of_failed hfree hinv hown, hfree⟩
  · rw [LockSys.globalLockRemote_snd, ← hown, Function.update_eq_self]
  · simp [globalLockRemote, hown, hinv, replyRc]

/-- Instance `i` is recorded as owner of every page and has them in mode O. -/
def ownedBy (i : Fin ni) : LockSys ni := ⟨fun _ => some i, fun _ _ => .init, fun _ => some i⟩

/-- The owner asks for its own page and is answered Abort. -/
theorem failed_lockRemote_of_owner : ∃ s : LockSys 2, LockSys.lts.Reach LockSys.AnswerOk s ∧
    (globalLockRemote 0 0 .abort s.writeInsId).1 = .abort ∧
    (globalLockRemote 0 0 .abort s.writeInsId).2 = s.writeInsId := by
  have hreach : LockSys.lts.Reach LockSys.AnswerOk (ownedBy (0 : Fin 2)) := .init ⟨rfl, fun _ _ => rfl⟩
  obtain ⟨h, -⟩ := (failed_lockRemote_changes_nothing hreach).2 ⟨0, 0, .abort⟩ (.inr (.inr ⟨rfl, rfl⟩)) ⟨rfl, rfl⟩
    (by decide)
  exact ⟨_, hreach, rfl, h⟩

/-- Instance 1 asks for a page of instance 0. If the owner answers Abort, instance 1 is told so and recorded as
owner; if it answers TIME_OUT, it is recorded too, and the assertion of the service fails. -/
theorem failed_lockRemote_takes_page : ∃ s s' : LockSys 2, LockSys.lts.Reach Lts.Any s ∧
    s.step ⟨1, 0, .abort⟩ = some s' ∧ s.writeInsId 0 = some 0 ∧ s'.writeInsId 0 = some 1 ∧ s'.lastOk 0 = some 0 ∧
    (globalLockRemote 1 0 .timeOut s.writeInsId).1 = .timeOut ∧
    (globalLockRemote 1 0 .timeOut s.writeInsId).2 0 = some 1 ∧ s.step ⟨1, 0, .timeOut⟩ = none := by
  have hreach : LockSys.lts.Reach Lts.Any (ownedBy (0 : Fin 2)) := .init ⟨rfl, fun _ _ => rfl⟩
  exact ⟨_, _, hreach, rfl, rfl, rfl, rfl, rfl, rfl, rfl⟩

end Dbx1000
