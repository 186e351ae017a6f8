import Mathlib.Data.Finset.Card
import Mathlib.Data.Fintype.Basic
import Mathlib.Logic.Function.Basic
import Dbx1000.Lib.Lts
import Dbx1000.LockTable

/-!
# `Lock` and `UnLock` as a readers-writer lock

`UnLock` knows neither its caller nor the mode the caller locked with: it goes by the mode of the node.
`RwInv` links mode and count of the node to what the threads hold; `Lock` and `UnLock` keep it, and so
every call ends the hold of its own caller.
-/

namespace Dbx1000

/-- What a thread has the page locked for. -/
inductive Hold
  | reader | writer
deriving DecidableEq, Repr

def Hold.mode : Hold → LockMode
  | .reader => .S
  | .writer => .X

/-! ### Counting the readers -/

section Readers

variable {τ : Type} [Fintype τ] {held : τ → Option Hold} {t : τ}

def readers (held : τ → Option Hold) : Finset τ := Finset.univ.filter fun t => held t = some .reader

theorem mem_readers_iff : t ∈ readers held ↔ held t = some .reader := by simp [readers]

variable [DecidableEq τ]

theorem readers_add (t : τ) : readers (Function.update held t (some .reader)) = insert t (readers held) := by
  ext t'
  rw [mem_readers_iff, Finset.mem_insert, mem_readers_iff]
  by_cases h : t' = t
  · simp [h]
  · simp [h]

theorem readers_remove (t : τ) : readers (Function.update held t none) = (readers held).erase t := by
  ext t'
  rw [mem_readers_iff, Finset.mem_erase, mem_readers_iff]
  by_cases h : t' = t
  · simp [h]
  · simp [h]

theorem card_readers_add (h : held t ≠ some .reader) :
    (readers (Function.update held t (some .reader))).card = (readers held).card + 1 := by
  rw [readers_add, Finset.card_insert_of_notMem (fun hm => h (mem_readers_iff.1 hm))]

theorem card_readers_remove (h : held t = some .reader) :
    (readers (Function.update held t none)).card + 1 = (readers held).card := by
  rw [readers_remove, Finset.card_erase_add_one (mem_readers_iff.2 h)]

end Readers

/-! ### The node and its holders -/

/-- The node and what the threads hold. -/
inductive RwInv {τ : Type} [Fintype τ] (n : LockNode) (held : τ → Option Hold) : Prop
  | free (hmode : n.lockMode = .P) (hcount : n.count = 0) (hheld : ∀ t, held t = none)
  | shared (hmode : n.lockMode = .S) (hcount : n.count = (readers held).card) (hpos : 0 < n.count)
      (hheld : ∀ t, held t ≠ some .writer)
  | exclusive (t : τ) (hmode : n.lockMode = .X) (hcount : n.count = 1) (hheld : held t = some .writer)
      (hother : ∀ t', t' ≠ t → held t' = none)

namespace RwInv

variable {τ : Type} [Fintype τ] {n : LockNode} {held : τ → Option Hold} {t : τ}

theorem mode_X (hi : RwInv n held) : n.lockMode = .X ↔
    (∃ t, held t = some .writer ∧ ∀ t', t' ≠ t → held t' = none) ∧ n.count = 1 := by
  constructor
  · intro hX
    cases hi with
    | free hmode | shared hmode => simp [hX] at hmode
    | exclusive t hmode hcount hheld hother => exact ⟨⟨t, hheld, hother⟩, hcount⟩
  · rintro ⟨⟨t, ht, -⟩, -⟩
    cases hi with
    | free _ _ hheld => simp [hheld t] at ht
    | shared _ _ _ hheld => exact absurd ht (hheld t)
    | exclusive _ hmode => exact hmode

theorem mode_S (hi : RwInv n held) : n.lockMode = .S ↔
    (∀ t, held t ≠ some .writer) ∧ n.count = (readers held).card ∧ 1 ≤ n.count := by
  constructor
  · intro hS
    cases hi with
    | free hmode | exclusive _ hmode => simp [hS] at hmode
    | shared hmode hcount hpos hheld => exact ⟨hheld, hcount, hpos⟩
  · rintro ⟨hno, -, hpos⟩
    cases hi with
    | free _ hcount => omega
    | shared hmode => exact hmode
    | exclusive t _ _ hheld => exact absurd hheld (hno t)

theorem mode_P (hi : RwInv n held) : n.lockMode = .P ↔ (∀ t, held t = none) ∧ n.count = 0 := by
  constructor
  · intro hP
    cases hi with
    | free hmode hcount hheld => exact ⟨hheld, hcount⟩
    | shared hmode | exclusive _ hmode => simp [hP] at hmode
  · rintro ⟨-, hzero⟩
    cases hi with
    | free hmode => exact hmode
    | shared _ _ hpos => omega
    | exclusive _ _ hcount => omega

theorem mode_ne_O (hi : RwInv n held) : n.lockMode ≠ .O := by
  cases hi with
  | free hmode | shared hmode | exclusive _ hmode => simp [hmode]

theorem of_writer (hi : RwInv n held) (h : held t = some .writer) : n.lockMode = .X ∧ n.count = 1 := by
  cases hi with
  | free _ _ hheld => simp [hheld t] at h
  | shared _ _ _ hheld => exact absurd h (hheld t)
  | exclusive _ hmode hcount => exact ⟨hmode, hcount⟩

theorem of_reader (hi : RwInv n held) (h : held t = some .reader) :
    n.lockMode = .S ∧ n.count = (readers held).card := by
  cases hi with
  | free _ _ hheld => simp [hheld t] at h
  | shared hmode hcount => exact ⟨hmode, hcount⟩
  | exclusive u _ _ hu hother =>
    by_cases hne : t = u
    · simp [hne, hu] at h
    · simp [hother t hne] at h

/-- A write section excludes all others. -/
theorem alone (hi : RwInv n held) (h : held t = some .writer) (t' : τ) (hne : t' ≠ t) : held t' = none := by
  cases hi with
  | free _ _ hheld => exact hheld t'
  | shared _ _ _ hheld => exact absurd h (hheld t)
  | exclusive u _ _ hu hother =>
    have htu : t = u := by
      by_contra hn
      simp [hother t hn] at h
    exact hother t' (htu ▸ hne)

variable [DecidableEq τ]

theorem lock (hi : RwInv n held) (hfree : held t = none) {m : Hold} (hcan : n.canLock m.mode = true) :
    ∃ n', n.lock m.mode = some n' ∧ RwInv n' (Function.update held t (some m)) := by
  cases m with
  | writer =>
    simp only [Hold.mode, LockNode.canLock, Bool.and_eq_true, decide_eq_true_eq] at hcan
    obtain ⟨hheld, hzero⟩ := hi.mode_P.1 hcan.2
    refine ⟨{ n with lockMode := .X, count := 1 }, if_pos hzero, ?_⟩
    refine .exclusive t rfl rfl (Function.update_self ..) fun t' hne => ?_
    rw [Function.update_of_ne hne]
    exact hheld t'
  | reader =>
    have hcard : (readers (Function.update held t (some .reader))).card = (readers held).card + 1 :=
      card_readers_add (by simp [hfree])
    cases hi with
    | free hmode hcount hheld =>
      have hnone : (readers held).card = 0 := by
        rw [Finset.card_eq_zero, Finset.eq_empty_iff_forall_notMem]
        intro t' ht'
        simp [mem_readers_iff, hheld t'] at ht'
      refine ⟨{ n with lockMode := .S, count := 1 }, by simp [Hold.mode, LockNode.lock, hmode, hcount], ?_⟩
      refine .shared rfl (by rw [hcard, hnone]) Nat.one_pos fun t' => ?_
      by_cases hne : t' = t
      · simp [hne]
      · simp [hne, hheld t']
    | shared hmode hcount hpos hheld =>
      refine ⟨{ n with count := n.count + 1 }, by simp [Hold.mode, LockNode.lock, hmode, hpos], ?_⟩
      refine .shared hmode (by rw [hcard, ← hcount]) (Nat.succ_pos _) fun t' => ?_
      by_cases hne : t' = t
      · simp [hne]
      · simpa [hne] using hheld t'
    | exclusive _ hmode => simp [Hold.mode, LockNode.canLock, hmode] at hcan

theorem unLock (hi : RwInv n held) (h : held t ≠ none) :
    ∃ n', n.unLock = some n' ∧ RwInv n' (Function.update held t none) := by
  cases hi with
  | free _ _ hheld => exact absurd (hheld t) h
  | shared hmode hcount hpos hheld =>
    have ht : held t = some .reader := by
      rcases ht : held t with _ | _ | _
      · exact absurd ht h
      · rfl
      · exact absurd ht (hheld t)
    have hcard := card_readers_remove ht
    refine ⟨{ n with lockMode := if n.count = 1 then .P else .S, count := n.count - 1 },
      by simp [LockNode.unLock, hmode, hpos], ?_⟩
    by_cases hone : n.count = 1
    · -- the last reader
      refine .free (by simp [hone]) (by simp [hone]) fun t' => ?_
      by_cases hne : t' = t
      · rw [hne, Function.update_self]
      · rw [Function.update_of_ne hne]
        have hempty : readers (Function.update held t none) = ∅ := Finset.card_eq_zero.1 (by omega)
        rcases ht' : held t' with _ | _ | _
        · rfl
        · have hmem : t' ∈ readers (Function.update held t none) := by
            rw [mem_readers_iff, Function.update_of_ne hne, ht']
          simp [hempty] at hmem
        · exact absurd ht' (hheld t')
    · refine .shared (by simp [hone]) ?_ ?_ fun t' => ?_
      · show n.count - 1 = _
        omega
      · show 0 < n.count - 1
        omega
      · by_cases hne : t' = t
        · simp [hne]
        · simpa [hne] using hheld t'
  | exclusive u hmode hcount hheld hother =>
    have htu : t = u := by
      by_contra hn
      exact h (hother t hn)
    refine ⟨{ n with lockMode := .P, count := 0 }, by simp [LockNode.unLock, hmode, hcount], ?_⟩
    refine .free rfl rfl fun t' => ?_
    by_cases hne : t' = t
    · simp [hne]
    · simp [hne, hother t' (htu ▸ hne)]

end RwInv

/-! ### Threads that lock and unlock -/

structure RwSys (nt : Nat) where
  node : LockNode
  held : Fin nt → Option Hold

inductive RwEv (nt : Nat)
  | lock (t : Fin nt) (m : Hold)
  | unLock (t : Fin nt)

namespace RwSys

variable {nt : Nat}

def step (s : RwSys nt) : RwEv nt → Option (RwSys nt)
  | .lock t m =>
    if s.held t = none ∧ s.node.canLock m.mode then
      (s.node.lock m.mode).map fun n => ⟨n, Function.update s.held t (some m)⟩
    else none
  | .unLock t =>
    if s.held t ≠ none then s.node.unLock.map fun n => ⟨n, Function.update s.held t none⟩ else none

end RwSys

def rwLts (nt : Nat) : Lts (RwSys nt) (RwEv nt) where
  init s := s.node.lockMode = .P ∧ s.node.count = 0 ∧ s.node.mtx = false ∧ s.held = fun _ => none
  step := RwSys.step

theorem RwInv.step {nt : Nat} {s s' : RwSys nt} {e : RwEv nt} (hi : RwInv s.node s.held) (h : s.step e = some s') :
    RwInv s'.node s'.held := by
  cases e with
  | lock t m =>
    simp only [RwSys.step] at h
    split at h
    · rename_i hcan
      obtain ⟨n, hn, hi'⟩ := hi.lock hcan.1 hcan.2
      rw [hn] at h
      cases h
      exact hi'
    · cases h
  | unLock t =>
    simp only [RwSys.step] at h
    split at h
    · rename_i hheld
      obtain ⟨n, hn, hi'⟩ := hi.unLock hheld
      rw [hn] at h
      cases h
      exact hi'
    · cases h

/-- In every state that threads reach by `Lock` and `UnLock`: the modes say who holds the lock, and the
assertions of the next calls hold. -/
theorem readers_writer_lock {nt : Nat} {s : RwSys nt} (h : (rwLts nt).Reach Lts.Any s) :
    (s.node.lockMode = .X ↔ (∃ t, s.held t = some .writer ∧ ∀ t', t' ≠ t → s.held t' = none) ∧ s.node.count = 1) ∧
    (s.node.lockMode = .S ↔
      (∀ t, s.held t ≠ some .writer) ∧ s.node.count = (readers s.held).card ∧ 1 ≤ s.node.count) ∧
    (s.node.lockMode = .P ↔ (∀ t, s.held t = none) ∧ s.node.count = 0) ∧
    s.node.lockMode ≠ .O ∧
    (∀ t (m : Hold), s.held t = none → s.node.canLock m.mode = true → (s.node.lock m.mode).isSome = true) ∧
    (∀ t, s.held t ≠ none → s.node.unLock.isSome = true) ∧
    ∀ t, s.held t = some .writer → ∀ t', t' ≠ t → s.held t' = none := by
  have hi : RwInv s.node s.held := by
    refine Lts.Reach.inv (P := fun s => RwInv s.node s.held) ?_ (fun _ _ _ hi _ hs => hi.step hs) h
    rintro s ⟨hmode, hcount, -, hheld⟩
    exact .free hmode hcount fun t => congrFun hheld t
  refine ⟨hi.mode_X, hi.mode_S, hi.mode_P, hi.mode_ne_O, fun t m hfree hcan => ?_, fun t hheld => ?_,
    fun t ht => hi.alone ht⟩
  · obtain ⟨n, hn, -⟩ := hi.lock hfree hcan
    rw [hn]
    rfl
  · obtain ⟨n, hn, -⟩ := hi.unLock hheld
    rw [hn]
    rfl

/-- Two readers, then a writer. -/
theorem readers_then_writer : ∃ s : RwSys 3,
    (rwLts 3).run ⟨{ LockNode.init with lockMode := .P }, fun _ => none⟩
      [.lock 0 .reader, .lock 1 .reader, .unLock 0, .unLock 1, .lock 2 .writer] = some s ∧
    s.node.lockMode = .X ∧ ∀ t', t' ≠ 2 → s.held t' = none := by
  have hrun : ((rwLts 3).run ⟨{ LockNode.init with lockMode := .P }, fun _ => none⟩
      [.lock 0 .reader, .lock 1 .reader, .unLock 0, .unLock 1, .lock 2 .writer]).any (fun s =>
        decide (s.node.lockMode = .X) && decide (s.held 2 = some .writer)) = true := by decide
  simp only [Option.any_eq_true, Bool.and_eq_true, decide_eq_true_eq] at hrun
  obtain ⟨s, hs, hmode, hheld⟩ := hrun
  have hreach : (rwLts 3).Reach Lts.Any s := .run (.init ⟨rfl, rfl, rfl, rfl⟩) hs
  exact ⟨s, hs, hmode, (readers_writer_lock hreach).2.2.2.2.2.2 2 hheld⟩

end Dbx1000
