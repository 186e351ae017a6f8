import Mathlib.Logic.Relation

/-!
# Transition systems with a partial step function

`Lts σ α`: initial states and `step s a`, the state after action `a`, or `none` when `a` is not
possible in `s`. Every choice of the environment (which thread moves, which message is delivered,
what a call returns) is part of the action, so that a run is a list of actions and can be evaluated
(`Lts.run`). `Reach G` collects the states reached by actions that all meet the guard `G`; a result
about every run takes `G` to be `fun _ _ => True`, a result about the runs that avoid some step
names that step in `G`.
-/

structure Lts (σ α : Type*) where
  init : σ → Prop
  step : σ → α → Option σ

namespace Lts

variable {σ α : Type*} {M : Lts σ α} {G : σ → α → Prop} {s s' : σ}

/-- The states reached from an initial one by actions that all meet `G`. -/
inductive Reach (M : Lts σ α) (G : σ → α → Prop) : σ → Prop
  | init {s : σ} (h : M.init s) : M.Reach G s
  | step {s s' : σ} {a : α} (h : M.Reach G s) (hg : G s a) (hs : M.step s a = some s') : M.Reach G s'

/-- The guard that every action meets. -/
def Any : σ → α → Prop := fun _ _ => True

/-- What holds initially and survives every guarded step holds in every reached state. -/
theorem Reach.inv {P : σ → Prop} (h0 : ∀ s, M.init s → P s)
    (hstep : ∀ s a s', P s → G s a → M.step s a = some s' → P s') (h : M.Reach G s) : P s := by
  induction h with
  | init h => exact h0 _ h
  | step _ hg hs ih => exact hstep _ _ _ ih hg hs

/-! ### Runs -/

/-- The state after the actions `as`, in order. -/
def run (M : Lts σ α) : σ → List α → Option σ
  | s, [] => some s
  | s, a :: as => (M.step s a).bind fun s' => M.run s' as

/-- `run`, stopped at the first action that fails the test `g`. -/
def runIf (M : Lts σ α) (g : σ → α → Bool) : σ → List α → Option σ
  | s, [] => some s
  | s, a :: as => if g s a then (M.step s a).bind fun s' => M.runIf g s' as else none

theorem run_cons_eq_some {a : α} {as : List α} :
    M.run s (a :: as) = some s' ↔ ∃ t, M.step s a = some t ∧ M.run t as = some s' := by
  simp [run, Option.bind_eq_some_iff]

/-- Along a run, what every step keeps is kept. -/
theorem run_keeps {P : σ → Prop} (hstep : ∀ s a s', M.step s a = some s' → P s → P s')
    {as : List α} (hr : M.run s as = some s') (h : P s) : P s' := by
  induction as generalizing s with
  | nil => cases hr; exact h
  | cons a as ih =>
    obtain ⟨t, ht, hr⟩ := run_cons_eq_some.1 hr
    exact ih hr (hstep _ _ _ ht h)

/-- Along a run that passes a test, what every step that passes keeps is kept. -/
theorem runIf_keeps {g : σ → α → Bool} {P : σ → Prop}
    (hstep : ∀ s a s', g s a = true → M.step s a = some s' → P s → P s') {as : List α}
    (hr : M.runIf g s as = some s') (h : P s) : P s' := by
  induction as generalizing s with
  | nil => cases hr; exact h
  | cons a as ih =>
    simp only [Lts.runIf] at hr
    split at hr
    · obtain ⟨t, ht, hr⟩ := Option.bind_eq_some_iff.1 hr
      exact ih hr (hstep _ _ _ ‹_› ht h)
    · cases hr

theorem Reach.run {as : List α} (h : M.Reach Any s) (hr : M.run s as = some s') : M.Reach Any s' :=
  run_keeps (fun _ _ _ hs h => .step h trivial hs) hr h

/-- A run that passes a test implying the guard stays in the guarded states. -/
theorem Reach.runIf {g : σ → α → Bool} {as : List α} (hg : ∀ s a, g s a = true → G s a)
    (h : M.Reach G s) (hr : M.runIf g s as = some s') : M.Reach G s' :=
  runIf_keeps (fun s a _ hpass hs h => .step h (hg s a hpass) hs) hr h

/-! ### Runs with their history -/

/-- The system that remembers its actions, newest first. -/
def traced (M : Lts σ α) : Lts (σ × List α) α where
  init p := M.init p.1 ∧ p.2 = []
  step p a := (M.step p.1 a).map fun s => (s, a :: p.2)

/-- `Reach.inv` for the system with its history. -/
theorem traced_inv {P : σ → List α → Prop} (h0 : ∀ s, M.init s → P s [])
    (hstep : ∀ s past a s', P s past → M.step s a = some s' → P s' (a :: past)) {p : σ × List α}
    (h : M.traced.Reach Any p) : P p.1 p.2 := by
  refine h.inv (P := fun q => P q.1 q.2) ?_ ?_
  · rintro ⟨s, past⟩ ⟨hs, rfl⟩
    exact h0 s hs
  · rintro ⟨s, past⟩ a p' hp - hs
    obtain ⟨s', hs', rfl⟩ := Option.map_eq_some_iff.1 hs
    exact hstep s past a s' hp hs'

theorem traced_run {as past : List α} (h : M.run s as = some s') :
    M.traced.run (s, past) as = some (s', as.reverse ++ past) := by
  induction as generalizing s past with
  | nil => cases h; rfl
  | cons a as ih =>
    obtain ⟨t, ht, h⟩ := run_cons_eq_some.1 h
    refine run_cons_eq_some.2 ⟨(t, a :: past), by simp [traced, ht], ?_⟩
    rw [ih h, List.reverse_cons, List.append_assoc, List.singleton_append]

theorem traced_reach {as : List α} (h0 : M.init s) (h : M.run s as = some s') :
    M.traced.Reach Any (s', as.reverse) := by
  have hrun : M.traced.run (s, []) as = some (s', as.reverse ++ []) := traced_run h
  rw [List.append_nil] at hrun
  exact .run (.init ⟨h0, rfl⟩) hrun

/-- What has happened stays in the history. -/
theorem traced_run_past {as : List α} {p p' : σ × List α} (h : M.traced.run p as = some p') :
    ∀ a ∈ p.2, a ∈ p'.2 := by
  refine run_keeps (P := fun q => ∀ a ∈ p.2, a ∈ q.2) ?_ h fun a ha => ha
  rintro q a q' hq hp b hb
  obtain ⟨s', -, rfl⟩ := Option.map_eq_some_iff.1 hq
  exact List.mem_cons_of_mem _ (hp b hb)

end Lts
