import Dbx1000.RwLock

/-!
# `ReadRow` and `WriteRow` beside the page locks

`Lock(S)` on a page in mode `O` lets the reader in and records nothing, while `UnLock` acts on the mode
it finds. One page with readers, writers registered by `AddThread`, the installation of mode `P` and
`LockInvalid` in any order: holds stay intact when `P` is installed while no reader without a share is
inside and `LockInvalid` takes effect while no reader with a share is (`AccessOk`).
-/

namespace Dbx1000

/-- Where a thread is in `ReadRow` or `WriteRow`. A reader with `share` is in the count of the node. -/
inductive RowCall
  | none
  | admitted (share : Bool)
  | reading (share : Bool)
  | asserted
  | writing
deriving DecidableEq, Repr

namespace RowCall

def hold : RowCall → Option Hold
  | .admitted true | .reading true => some .reader
  | .writing => some .writer
  | _ => .none

/-- The call is between `Lock(S)` and `UnLock` of `ReadRow`. -/
def reads : RowCall → Bool
  | .admitted _ | .reading _ => true
  | _ => false

/-- The reader was let in on a page in mode `O`. -/
def unrecorded : RowCall → Bool
  | .admitted false | .reading false => true
  | _ => false

theorem hold_of_unrecorded {c : RowCall} (h : c.unrecorded = true) : c.hold = .none := by
  rcases c with _ | (_ | _) | (_ | _) | _ | _ <;> first | rfl | cases h

theorem reads_cases {c : RowCall} (h : c.reads = true) : c.unrecorded = true ∨ c.hold = some .reader := by
  rcases c with _ | (_ | _) | (_ | _) | _ | _ <;> first | exact .inl rfl | exact .inr rfl | cases h

end RowCall

structure AccessThread where
  registered : Bool
  call : RowCall

/-- `waiting` is the number of `LockInvalid` calls that wait on the node. -/
structure AccessSys (nt : Nat) where
  node : LockNode
  waiting : Nat
  threads : Fin nt → AccessThread

inductive AccessEv (nt : Nat)
  | install
  | addThread (t : Fin nt)
  | removeThread (t : Fin nt)
  | readLock (t : Fin nt)
  | readAssert (t : Fin nt)
  | readUnLock (t : Fin nt)
  | writeAssert (t : Fin nt)
  | writeLock (t : Fin nt)
  | writeUnLock (t : Fin nt)
  | invalidArrive
  | invalidate
  | invalidReturn

namespace AccessSys

variable {nt : Nat}

def init : AccessSys nt := ⟨.init, 0, fun _ => ⟨false, .none⟩⟩

def held (s : AccessSys nt) (t : Fin nt) : Option Hold := (s.threads t).call.hold

/-- The node changes and `t` moves. -/
def set (n : LockNode) (t : Fin nt) (th : AccessThread) (s : AccessSys nt) : AccessSys nt :=
  { s with node := n, threads := Function.update s.threads t th }

def goto (n : LockNode) (t : Fin nt) (call : RowCall) (s : AccessSys nt) : AccessSys nt :=
  s.set n t { s.threads t with call := call }

def step (s : AccessSys nt) : AccessEv nt → Option (AccessSys nt)
  -- `GetWritePageLock` after `LockRemote`, which asserts mode O
  | .install => if s.node.lockMode = .O then some { s with node := { s.node with lockMode := .P } } else none
  | .addThread t =>
    if s.node.mtx ∨ (s.threads t).registered ∨ (s.threads t).call ≠ .none then none
    else some (s.set (s.node.addThread t) t ⟨true, .none⟩)
  | .removeThread t =>
    if s.node.mtx ∨ (s.threads t).registered = false ∨ (s.threads t).call ≠ .none ∨ s.node.lockMode = .O then none
    else (s.node.removeThread t).map fun n => s.set n t ⟨false, .none⟩
  | .readLock t =>
    if (s.threads t).call = .none ∧ s.node.canLock .S then
      (s.node.lock .S).map fun n => s.goto n t (.admitted (decide (s.node.lockMode ≠ .O)))
    else none
  | .readAssert t =>
    match (s.threads t).call with
    | .admitted share =>
      if s.node.lockMode = .O ∨ s.node.lockMode = .S then some (s.goto s.node t (.reading share)) else none
    | _ => none
  | .readUnLock t =>
    match (s.threads t).call with
    | .reading _ => if s.node.mtx then none else s.node.unLock.map fun n => s.goto n t .none
    | _ => none
  | .writeAssert t =>
    if (s.threads t).registered ∧ (s.threads t).call = .none ∧ s.node.lockMode ≠ .O then
      some (s.goto s.node t .asserted)
    else none
  | .writeLock t =>
    if (s.threads t).call = .asserted ∧ s.node.canLock .X then (s.node.lock .X).map fun n => s.goto n t .writing
    else none
  | .writeUnLock t =>
    if (s.threads t).call = .writing ∧ s.node.mtx = false then s.node.unLock.map fun n => s.goto n t .none else none
  | .invalidArrive => some { s with node := { s.node with invalidReq := true }, waiting := s.waiting + 1 }
  | .invalidate =>
    if 0 < s.waiting ∧ s.node.canInvalid then
      s.node.invalidate.map fun (n, _) => { s with node := n, waiting := s.waiting - 1 }
    else none
  | .invalidReturn => if s.node.mtx then some { s with node := s.node.endInvalid } else none

end AccessSys

def accessLts (nt : Nat) : Lts (AccessSys nt) (AccessEv nt) where
  init s := s = .init
  step := AccessSys.step

/-- `P` is installed while every reader inside has its share, and the page is invalidated while none has. -/
def AccessOk {nt : Nat} (s : AccessSys nt) : AccessEv nt → Prop
  | .install => ∀ t, (s.threads t).call.unrecorded = false
  | .invalidate => ∀ t, s.held t ≠ some .reader
  | _ => True

instance {nt : Nat} (s : AccessSys nt) (e : AccessEv nt) : Decidable (AccessOk s e) :=
  match e with
  | .install => inferInstanceAs (Decidable (∀ t, (s.threads t).call.unrecorded = false))
  | .invalidate => inferInstanceAs (Decidable (∀ t, s.held t ≠ some .reader))
  | .addThread _ | .removeThread _ | .readLock _ | .readAssert _ | .readUnLock _ | .writeAssert _ | .writeLock _
  | .writeUnLock _ | .invalidArrive | .invalidReturn => .isTrue trivial

/-! ### The invariant -/

/-- Mode and count of the node are those of the holds; in mode `O` there are none. -/
inductive HoldInv {nt : Nat} (n : LockNode) (held : Fin nt → Option Hold) : Prop
  | invalid (hmode : n.lockMode = .O) (hcount : n.count = 0) (hheld : ∀ t, held t = none)
  | valid (h : RwInv n held)

structure AccessInv {nt : Nat} (s : AccessSys nt) : Prop where
  hold : HoldInv s.node s.held
  outside : ∀ t, (s.threads t).call.unrecorded = true → s.node.lockMode = .O
  counted : s.node.Counted
  member : ∀ t, (s.threads t).registered = true → t.val ∈ s.node.threadSet
  writer : ∀ t, (s.threads t).call = .asserted ∨ (s.threads t).call = .writing → (s.threads t).registered = true

section Holds

variable {nt : Nat} {n n' : LockNode} {held : Fin nt → Option Hold} {t : Fin nt}

theorem RwInv.of_eq (h : RwInv n held) (hmode : n'.lockMode = n.lockMode) (hcount : n'.count = n.count) :
    RwInv n' held := by
  cases h with
  | free h₁ h₂ h₃ => exact .free (hmode.trans h₁) (hcount.trans h₂) h₃
  | shared h₁ h₂ h₃ h₄ => exact .shared (hmode.trans h₁) (hcount.trans h₂) (hcount ▸ h₃) h₄
  | exclusive t h₁ h₂ h₃ h₄ => exact .exclusive t (hmode.trans h₁) (hcount.trans h₂) h₃ h₄

namespace HoldInv

theorem of_eq (h : HoldInv n held) (hmode : n'.lockMode = n.lockMode) (hcount : n'.count = n.count) :
    HoldInv n' held := by
  cases h with
  | invalid h₁ h₂ h₃ => exact .invalid (hmode.trans h₁) (hcount.trans h₂) h₃
  | valid h => exact .valid (h.of_eq hmode hcount)

theorem rw (h : HoldInv n held) (hmode : n.lockMode ≠ .O) : RwInv n held := by
  cases h with
  | invalid hO => exact absurd hO hmode
  | valid h => exact h

theorem rw_of_held (h : HoldInv n held) (ht : held t ≠ none) : RwInv n held := by
  cases h with
  | invalid _ _ hheld => exact absurd (hheld t) ht
  | valid h => exact h

/-- `LockInvalid` finds the page free when no thread holds it. -/
theorem count_eq_zero (h : HoldInv n held) (hheld : ∀ t, held t = none) : n.count = 0 := by
  cases h with
  | invalid _ hcount => exact hcount
  | valid h =>
    cases h with
    | free _ hcount => exact hcount
    | shared _ hcount hpos =>
      have hempty : readers held = ∅ := by
        ext t
        simp [mem_readers_iff, hheld t]
      simp [hempty] at hcount
      omega
    | exclusive t _ _ ht => simp [hheld t] at ht

end HoldInv

end Holds

namespace AccessInv

variable {nt : Nat} {s s' : AccessSys nt} {t : Fin nt} {n : LockNode}

theorem init : AccessInv (.init : AccessSys nt) where
  hold := .invalid rfl rfl fun _ => rfl
  outside t h := by cases h
  counted := rfl
  member t h := by cases h
  writer t h := by rcases h with h | h <;> cases h

/-- A thread moves and the node changes. -/
theorem set (hi : AccessInv s) {th : AccessThread} (hhold : HoldInv n (Function.update s.held t th.call.hold))
    (hO : s.node.lockMode = .O → n.lockMode = .O) (hself : th.call.unrecorded = true → n.lockMode = .O)
    (hcounted : n.Counted) (hmember : ∀ t', t' ≠ t → t'.val ∈ s.node.threadSet → t'.val ∈ n.threadSet)
    (hmemself : th.registered = true → t.val ∈ n.threadSet)
    (hwriter : th.call = .asserted ∨ th.call = .writing → th.registered = true) : AccessInv (s.set n t th) := by
  have hthread : ∀ t', t' ≠ t → (s.set n t th).threads t' = s.threads t' := fun t' h => Function.update_of_ne h ..
  have hthreadSelf : (s.set n t th).threads t = th := Function.update_self ..
  have hheld : (s.set n t th).held = Function.update s.held t th.call.hold := by
    funext t'
    by_cases h : t' = t
    · rw [h, AccessSys.held, hthreadSelf, Function.update_self]
    · rw [AccessSys.held, hthread t' h, Function.update_of_ne h, AccessSys.held]
  refine ⟨by rw [hheld]; exact hhold, fun t' h => ?_, hcounted, fun t' h => ?_, fun t' h => ?_⟩
  all_goals by_cases hne : t' = t
  · rw [hne, hthreadSelf] at h
    exact hself h
  · rw [hthread t' hne] at h
    exact hO (hi.outside t' h)
  · rw [hne, hthreadSelf] at h
    rw [hne]
    exact hmemself h
  · rw [hthread t' hne] at h
    exact hmember t' hne (hi.member t' h)
  · rw [hne, hthreadSelf] at h ⊢
    exact hwriter h
  · rw [hthread t' hne] at h ⊢
    exact hi.writer t' h

/-- A thread moves on within its call; who is registered stays. -/
theorem goto (hi : AccessInv s) {call : RowCall} (hset : n.threadSet = s.node.threadSet)
    (hcount : n.threadCount = s.node.threadCount) (hhold : HoldInv n (Function.update s.held t call.hold))
    (hO : s.node.lockMode = .O → n.lockMode = .O) (hself : call.unrecorded = true → n.lockMode = .O)
    (hwriter : call = .asserted ∨ call = .writing → (s.threads t).registered = true) :
    AccessInv (s.goto n t call) := by
  refine hi.set hhold hO hself ?_ ?_ ?_ hwriter
  · rw [LockNode.Counted, hset, hcount]
    exact hi.counted
  · rw [hset]
    exact fun _ _ => id
  · rw [hset]
    exact hi.member t

/-- The node changes without a thread. -/
theorem withNode (hi : AccessInv s) (waiting : Nat) (hset : n.threadSet = s.node.threadSet)
    (hcount : n.threadCount = s.node.threadCount) (hhold : HoldInv n s.held)
    (hO : ∀ t, (s.threads t).call.unrecorded = true → n.lockMode = .O) :
    AccessInv { s with node := n, waiting := waiting } := by
  refine ⟨hhold, hO, ?_, fun t h => ?_, hi.writer⟩
  · rw [LockNode.Counted, hset, hcount]
    exact hi.counted
  · rw [hset]
    exact hi.member t h

theorem held_update (h : s.held t = none) : Function.update s.held t none = s.held := by
  rw [← h, Function.update_eq_self]

/-- `Lock` on a valid page records the caller. -/
theorem lock (hi : AccessInv s) {m : Hold} {call : RowCall} (hm : call.hold = some m) (hheld : s.held t = none)
    (hO : s.node.lockMode ≠ .O) (hcan : s.node.canLock m.mode = true) (hn : s.node.lock m.mode = some n)
    (hwriter : call = .asserted ∨ call = .writing → (s.threads t).registered = true) : AccessInv (s.goto n t call) := by
  obtain ⟨hset, hcount⟩ := LockNode.lock_frame hn
  obtain ⟨n', hn', hrw⟩ := (hi.hold.rw hO).lock hheld hcan
  obtain rfl : n = n' := Option.some.inj (hn.symm.trans hn')
  refine hi.goto hset hcount (.valid (hm ▸ hrw)) (fun h => absurd h hO) (fun h => ?_) hwriter
  rw [RowCall.hold_of_unrecorded h] at hm
  cases hm

/-- `UnLock` of a recorded caller. -/
theorem unLock (hi : AccessInv s) (hheld : s.held t ≠ none) (hn : s.node.unLock = some n) :
    AccessInv (s.goto n t .none) := by
  obtain ⟨hmode, -, hset, hcount⟩ := LockNode.unLock_frame hn
  obtain ⟨n', hn', hrw⟩ := (hi.hold.rw_of_held hheld).unLock hheld
  obtain rfl : n = n' := Option.some.inj (hn.symm.trans hn')
  exact hi.goto hset hcount (.valid hrw) hmode.2 (by simp [RowCall.unrecorded]) (by simp)

theorem readLock (hi : AccessInv s) (hcall : (s.threads t).call = .none) (hcan : s.node.canLock .S = true)
    (hn : s.node.lock .S = some n) : AccessInv (s.goto n t (.admitted (decide (s.node.lockMode ≠ .O)))) := by
  have hheld : s.held t = none := by rw [AccessSys.held, hcall]; rfl
  by_cases hO : s.node.lockMode = .O
  · -- nothing is recorded
    obtain rfl : s.node = n := by simpa only [LockNode.lock, hO, Option.some.injEq] using hn
    have hshare : decide (s.node.lockMode ≠ .O) = false := by simp [hO]
    rw [hshare]
    refine hi.goto rfl rfl ?_ id (fun _ => hO) (by simp)
    show HoldInv s.node (Function.update s.held t none)
    rw [held_update hheld]
    exact hi.hold
  · have hshare : decide (s.node.lockMode ≠ .O) = true := by simp [hO]
    rw [hshare]
    exact hi.lock (m := .reader) rfl hheld hO hcan hn (by simp)

theorem readUnLock (hi : AccessInv s) {share : Bool} (hcall : (s.threads t).call = .reading share)
    (hn : s.node.unLock = some n) : AccessInv (s.goto n t .none) := by
  cases share with
  | false =>
    -- the mode is still `O`: the call does nothing
    have hO := hi.outside t (by rw [hcall]; rfl)
    obtain rfl : s.node = n := by simpa only [LockNode.unLock, hO, Option.some.injEq] using hn
    refine hi.goto rfl rfl ?_ id (by simp [RowCall.unrecorded]) (by simp)
    show HoldInv s.node (Function.update s.held t none)
    rw [held_update (by rw [AccessSys.held, hcall]; rfl)]
    exact hi.hold
  | true => exact hi.unLock (by simp [AccessSys.held, hcall, RowCall.hold]) hn

/-- When `LockInvalid` has waited, no writer is inside; the guard excludes the readers. -/
theorem no_hold (hi : AccessInv s) (hg : AccessOk s .invalidate) (hcan : s.node.canInvalid = true) (t : Fin nt) :
    s.held t = none := by
  rcases ht : s.held t with _ | _ | _
  · rfl
  · exact absurd ht (hg t)
  · have hwriting : (s.threads t).call = .writing := by
      unfold AccessSys.held RowCall.hold at ht
      split at ht <;> first | assumption | cases ht
    have hno := LockNode.not_canInvalid hi.counted (hi.member t (hi.writer t (.inr hwriting)))
    rw [hcan] at hno
    cases hno

theorem step {e : AccessEv nt} (hi : AccessInv s) (hg : AccessOk s e) (h : s.step e = some s') : AccessInv s' := by
  cases e <;> simp only [AccessSys.step] at h
  case install =>
    split at h
    · rename_i hO
      cases h
      refine hi.withNode s.waiting rfl rfl ?_ fun t ht => ?_
      · cases hi.hold with
        | invalid _ hcount hheld => exact .valid (.free rfl hcount hheld)
        | valid hrw => exact absurd hO hrw.mode_ne_O
      · simp [hg t] at ht
    · cases h
  case addThread t =>
    split at h
    · cases h
    · rename_i hfree
      simp only [not_or, not_not] at hfree
      cases h
      obtain ⟨hmode, -, hcount, -⟩ := LockNode.addThread_frame s.node t
      refine hi.set ?_ (fun hO => by rw [hmode, hO]) (by simp [RowCall.unrecorded]) hi.counted.addThread
        (fun _ _ hm => LockNode.mem_addThread.2 (.inr hm)) (fun _ => LockNode.mem_addThread.2 (.inl rfl)) (by simp)
      show HoldInv _ (Function.update s.held t none)
      rw [held_update (by rw [AccessSys.held, hfree.2.2]; rfl)]
      exact hi.hold.of_eq hmode hcount
  case removeThread t =>
    split at h
    · cases h
    · rename_i hfree
      simp only [not_or, not_not] at hfree
      obtain ⟨n, hn, rfl⟩ := Option.map_eq_some_iff.1 h
      obtain ⟨hmode, -, hcount, -⟩ := LockNode.removeThread_frame hn
      refine hi.set ?_ (fun hO => by rw [hmode, hO]) (by simp [RowCall.unrecorded]) (hi.counted.removeThread hn)
        (fun t' hne hm => LockNode.mem_removeThread hn (fun he => hne (Fin.ext he)) hm) (by simp) (by simp)
      show HoldInv _ (Function.update s.held t none)
      rw [held_update (by rw [AccessSys.held, hfree.2.2.1]; rfl)]
      exact hi.hold.of_eq hmode hcount
  case readLock t =>
    split at h
    · rename_i hcan
      obtain ⟨n, hn, rfl⟩ := Option.map_eq_some_iff.1 h
      exact hi.readLock hcan.1 hcan.2 hn
    · cases h
  case readAssert t =>
    split at h
    · rename_i share hcall
      split at h
      · cases h
        refine hi.goto rfl rfl ?_ id (fun hu => hi.outside t ?_) (by simp)
        · have hsame : (RowCall.reading share).hold = s.held t := by
            rw [AccessSys.held, hcall]
            cases share <;> rfl
          rw [hsame, Function.update_eq_self]
          exact hi.hold
        · rw [hcall]
          cases share
          · rfl
          · cases hu
      · cases h
    · cases h
  case readUnLock t =>
    split at h
    · rename_i share hcall
      split at h
      · cases h
      · obtain ⟨n, hn, rfl⟩ := Option.map_eq_some_iff.1 h
        exact hi.readUnLock hcall hn
    · cases h
  case writeAssert t =>
    split at h
    · rename_i hreg
      cases h
      refine hi.goto rfl rfl ?_ id (by simp [RowCall.unrecorded]) fun _ => hreg.1
      show HoldInv _ (Function.update s.held t none)
      rw [held_update (by rw [AccessSys.held, hreg.2.1]; rfl)]
      exact hi.hold
    · cases h
  case writeLock t =>
    split at h
    · rename_i hcan
      obtain ⟨n, hn, rfl⟩ := Option.map_eq_some_iff.1 h
      have hP := (LockNode.lock_X_frame hcan.2 hn).1
      exact hi.lock (m := .writer) rfl (by rw [AccessSys.held, hcan.1]; rfl) (by simp [hP]) hcan.2 hn
        fun _ => hi.writer t (.inl hcan.1)
    · cases h
  case writeUnLock t =>
    split at h
    · rename_i hcall
      obtain ⟨n, hn, rfl⟩ := Option.map_eq_some_iff.1 h
      exact hi.unLock (by simp [AccessSys.held, hcall.1, RowCall.hold]) hn
    · cases h
  case invalidArrive =>
    cases h
    exact hi.withNode _ rfl rfl (hi.hold.of_eq rfl rfl) hi.outside
  case invalidate =>
    split at h
    · rename_i hcan
      obtain ⟨⟨n, rc⟩, hn, rfl⟩ := Option.map_eq_some_iff.1 h
      obtain ⟨-, hzero, rfl⟩ := LockNode.invalidate_eq hcan.2 hn
      exact hi.withNode _ rfl rfl (.invalid rfl hzero (hi.no_hold hg hcan.2)) fun _ _ => rfl
    · cases h
  case invalidReturn =>
    split at h
    · cases h
      exact hi.withNode _ rfl rfl (hi.hold.of_eq rfl rfl) hi.outside
    · cases h

theorem reach (h : (accessLts nt).Reach AccessOk s) : AccessInv s := by
  refine h.inv ?_ fun _ _ _ hi hg hs => hi.step hg hs
  rintro _ rfl
  exact init

end AccessInv

/-- Every hold is as its thread acquired it. `UnLock` of a reader without a share does nothing, and the
assertions of `ReadRow` and `UnLock` hold wherever they are evaluated. -/
structure HoldsIntact {nt : Nat} (s : AccessSys nt) : Prop where
  writer : ∀ t, s.held t = some .writer →
    s.node.lockMode = .X ∧ s.node.count = 1 ∧ ∀ t', t' ≠ t → s.held t' = none
  reader : ∀ t, s.held t = some .reader → s.node.lockMode = .S ∧ s.node.count = (readers s.held).card
  unrecorded : ∀ t, (s.threads t).call.unrecorded = true → s.node.unLock = some s.node
  readAssert : ∀ t, (s.threads t).call.reads = true → s.node.lockMode = .O ∨ s.node.lockMode = .S
  unLock : ∀ t, s.held t ≠ none → s.node.unLock.isSome = true

theorem AccessInv.intact {nt : Nat} {s : AccessSys nt} (hi : AccessInv s) : HoldsIntact s := by
  have hrw : ∀ t m, s.held t = some m → RwInv s.node s.held := fun t m ht => hi.hold.rw_of_held (t := t) (by simp [ht])
  refine ⟨fun t ht => ?_, fun t ht => (hrw t _ ht).of_reader ht, fun t ht => ?_, fun t ht => ?_, fun t ht => ?_⟩
  · obtain ⟨hmode, hcount⟩ := (hrw t _ ht).of_writer ht
    exact ⟨hmode, hcount, (hrw t _ ht).alone ht⟩
  · simp [LockNode.unLock, hi.outside t ht]
  · rcases RowCall.reads_cases ht with ht | ht
    · exact .inl (hi.outside t ht)
    · exact .inr ((hrw t _ ht).of_reader ht).1
  · obtain ⟨n, hn, -⟩ := (hi.hold.rw_of_held ht).unLock ht
    rw [hn]
    rfl

/-- A thread moves from a call that holds nothing. -/
theorem AccessSys.held_set {nt : Nat} {s : AccessSys nt} {n : LockNode} {t t' : Fin nt} {th : AccessThread}
    (ht : s.held t' ≠ none) (h : s.held t = none ∨ th.call.hold = s.held t) : (s.set n t th).held t' = s.held t' := by
  by_cases hne : t' = t
  · rw [hne] at ht ⊢
    rcases h with h | h
    · exact absurd h ht
    · rw [← h]
      exact congrArg (fun th : AccessThread => th.call.hold) (Function.update_self ..)
  · exact congrArg (fun th : AccessThread => th.call.hold) (Function.update_of_ne hne ..)

/-- Only its own `UnLock` ends the hold of a thread. -/
theorem AccessSys.held_step {nt : Nat} {s s' : AccessSys nt} {e : AccessEv nt} (h : s.step e = some s') {t : Fin nt}
    (ht : s.held t ≠ none) : s'.held t = s.held t ∨ e = .readUnLock t ∨ e = .writeUnLock t := by
  have hcall : ∀ {u : Fin nt} {c : RowCall}, (s.threads u).call = c → c.hold = none → s.held u = none := by
    intro u c hc hnone
    rw [held, hc, hnone]
  cases e <;> simp only [step] at h
  case install | invalidReturn =>
    split at h <;> cases h
    exact .inl rfl
  case invalidArrive =>
    cases h
    exact .inl rfl
  case invalidate =>
    split at h
    · obtain ⟨_, -, rfl⟩ := Option.map_eq_some_iff.1 h
      exact .inl rfl
    · cases h
  case addThread u =>
    split at h
    · cases h
    · rename_i hfree
      simp only [not_or, not_not] at hfree
      cases h
      exact .inl (held_set ht (.inl (hcall hfree.2.2 rfl)))
  case removeThread u =>
    split at h
    · cases h
    · rename_i hfree
      simp only [not_or, not_not] at hfree
      obtain ⟨n, -, rfl⟩ := Option.map_eq_some_iff.1 h
      exact .inl (held_set ht (.inl (hcall hfree.2.2.1 rfl)))
  case readLock u | writeLock u =>
    split at h
    · rename_i hcan
      obtain ⟨n, -, rfl⟩ := Option.map_eq_some_iff.1 h
      exact .inl (held_set ht (.inl (hcall hcan.1 rfl)))
    · cases h
  case readAssert u =>
    split at h
    · rename_i share hu
      split at h
      · cases h
        refine .inl (held_set ht (.inr ?_))
        rw [held, hu]
        cases share <;> rfl
      · cases h
    · cases h
  case writeAssert u =>
    split at h
    · rename_i hreg
      cases h
      exact .inl (held_set ht (.inl (hcall hreg.2.1 rfl)))
    · cases h
  case readUnLock u =>
    split at h
    · split at h
      · cases h
      · obtain ⟨n, -, rfl⟩ := Option.map_eq_some_iff.1 h
        by_cases hne : t = u
        · exact .inr (.inl (by rw [hne]))
        · exact .inl (congrArg (fun th : AccessThread => th.call.hold) (Function.update_of_ne hne ..))
    · cases h
  case writeUnLock u =>
    split at h
    · obtain ⟨n, -, rfl⟩ := Option.map_eq_some_iff.1 h
      by_cases hne : t = u
      · exact .inr (.inr (by rw [hne]))
      · exact .inl (congrArg (fun th : AccessThread => th.call.hold) (Function.update_of_ne hne ..))
    · cases h

/-- Within `AccessOk` holds are intact, each lasts until the `UnLock` of its own thread, and the assertion of
`LockInvalid` holds. -/
theorem holds_intact_of_accessOk {nt : Nat} {s : AccessSys nt} (h : (accessLts nt).Reach AccessOk s) :
    HoldsIntact s ∧
    (∀ e s', (accessLts nt).step s e = some s' → ∀ t, s.held t ≠ none →
      s'.held t = s.held t ∨ e = .readUnLock t ∨ e = .writeUnLock t) ∧
    (AccessOk s .invalidate → s.node.canInvalid = true → s.node.threadCount = 0 ∧ s.node.count = 0) := by
  have hi := AccessInv.reach h
  refine ⟨hi.intact, fun _ _ hs _ ht => AccessSys.held_step hs ht,
    fun hg hcan => ⟨?_, hi.hold.count_eq_zero (hi.no_hold hg hcan)⟩⟩
  simp only [LockNode.canInvalid, Bool.and_eq_true, decide_eq_true_eq] at hcan
  exact hcan.2

/-- A reader comes and goes in mode `O`, then `P` is installed and thread 1 writes. -/
theorem holds_intact_while_writing : ∃ s : AccessSys 2,
    (accessLts 2).runIf (fun s e => decide (AccessOk s e)) .init
      [.readLock 0, .readAssert 0, .readUnLock 0, .install, .addThread 1, .writeAssert 1, .writeLock 1] = some s ∧
    s.held 1 = some .writer ∧ s.node.lockMode = .X := by
  have hrun : ((accessLts 2).runIf (fun s e => decide (AccessOk s e)) .init
      [.readLock 0, .readAssert 0, .readUnLock 0, .install, .addThread 1, .writeAssert 1, .writeLock 1]).any
      (fun s => decide (s.held 1 = some .writer)) = true := by decide +kernel
  simp only [Option.any_eq_true, decide_eq_true_eq] at hrun
  obtain ⟨s, hs, hheld⟩ := hrun
  obtain ⟨hintact, -⟩ := holds_intact_of_accessOk (.runIf (fun _ _ => of_decide_eq_true) (.init rfl) hs)
  exact ⟨s, hs, hheld, (hintact.writer 1 hheld).1⟩

/-- A reader that came in mode `O` takes the X lock of the writer away with its `UnLock`; and a reader with a
share makes the assertion of `LockInvalid` fail. -/
theorem unLock_ends_foreign_hold :
    (∃ s : AccessSys 2, (accessLts 2).run .init [.readLock 0, .readAssert 0, .install, .addThread 1, .writeAssert 1,
      .writeLock 1, .readUnLock 0] = some s ∧ s.held 1 = some .writer ∧ s.node.lockMode = .P) ∧
    ∃ s : AccessSys 2, (accessLts 2).run .init [.install, .readLock 0, .readAssert 0, .invalidArrive] = some s ∧
      s.node.canInvalid = true ∧ s.node.count = 1 ∧ s.node.invalidate = none := by
  have hforeign : ((accessLts 2).run .init [.readLock 0, .readAssert 0, .install, .addThread 1, .writeAssert 1,
      .writeLock 1, .readUnLock 0]).any (fun s : AccessSys 2 => decide (s.held 1 = some .writer) &&
        decide (s.node.lockMode = .P)) = true := by decide +kernel
  have hcount : ((accessLts 2).run .init [.install, .readLock 0, .readAssert 0, .invalidArrive]).any
      (fun s : AccessSys 2 => s.node.canInvalid && decide (s.node.count = 1) &&
        decide (s.node.invalidate = none)) = true := by decide +kernel
  simp only [Option.any_eq_true, Bool.and_eq_true, decide_eq_true_eq] at hforeign hcount
  obtain ⟨s, hs, hheld, hmode⟩ := hforeign
  obtain ⟨s', hs', ⟨hcan, hone⟩, hnone⟩ := hcount
  exact ⟨⟨s, hs, hheld, hmode⟩, s', hs', hcan, hone, hnone⟩

end Dbx1000
