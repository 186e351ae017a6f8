import Mathlib.Data.List.Forall2

/-!
# Runs with outputs

A partial machine `step : σ → ι → Option (ο × σ)` takes an input and gives an output, or fails. A total
machine `spec : τ → ι → ο × τ` is what it is compared with: `run_sim` carries a simulation of single
steps over to whole runs, in which the partial machine never fails and gives the same outputs.
-/

variable {σ τ ι ο : Type*}

/-- The outputs of the inputs `is` and the state after them. -/
def runOut (step : σ → ι → Option (ο × σ)) : σ → List ι → Option (List ο × σ)
  | s, [] => some ([], s)
  | s, i :: is => do
    let (o, s) ← step s i
    let (os, s) ← runOut step s is
    return (o :: os, s)

def specOut (spec : τ → ι → ο × τ) : τ → List ι → List ο × τ
  | t, [] => ([], t)
  | t, i :: is => ((spec t i).1 :: (specOut spec (spec t i).2 is).1, (specOut spec (spec t i).2 is).2)

theorem run_sim {step : σ → ι → Option (ο × σ)} {spec : τ → ι → ο × τ} {R : σ → τ → Prop} {ok : ι → Prop}
    (hstep : ∀ s t i, R s t → ok i → ∃ s', step s i = some ((spec t i).1, s') ∧ R s' (spec t i).2)
    {is : List ι} (his : ∀ i ∈ is, ok i) {s : σ} {t : τ} (h : R s t) :
    ∃ s', runOut step s is = some ((specOut spec t is).1, s') ∧ R s' (specOut spec t is).2 := by
  induction is generalizing s t with
  | nil => exact ⟨s, rfl, h⟩
  | cons i is ih =>
    obtain ⟨s₁, h₁, hR⟩ := hstep s t i h (his i List.mem_cons_self)
    obtain ⟨s₂, h₂, hR⟩ := ih (fun j hj => his j (List.mem_cons_of_mem _ hj)) hR
    refine ⟨s₂, ?_, hR⟩
    rw [runOut, h₁]
    show (runOut step s₁ is).bind _ = _
    rw [h₂]
    rfl

theorem runOut_cons_eq_some {step : σ → ι → Option (ο × σ)} {s s' : σ} {i : ι} {is : List ι} {os : List ο} :
    runOut step s (i :: is) = some (os, s') ↔
      ∃ o t os', step s i = some (o, t) ∧ runOut step t is = some (os', s') ∧ os = o :: os' := by
  simp only [runOut, Option.bind_eq_bind, Option.bind_eq_some_iff, Option.pure_def, Option.some.injEq, Prod.mk.injEq,
    Prod.exists]
  constructor
  · rintro ⟨o, t, h₁, os', t', h₂, rfl, rfl⟩
    exact ⟨o, t, os', h₁, h₂, rfl⟩
  · rintro ⟨o, t, os', h₁, h₂, rfl⟩
    exact ⟨o, t, h₁, os', s', h₂, rfl, rfl⟩

/-- A machine that does what another one does, on the steps in which that one's output is `ok`. -/
theorem runOut_of_forall₂ {step step' : σ → ι → Option (ο × σ)} {ok : ι → ο → Prop}
    (hstep : ∀ s i o s', step s i = some (o, s') → ok i o → step' s i = some (o, s')) {is : List ι} {os : List ο}
    (hok : List.Forall₂ ok is os) {s s' : σ} (h : runOut step s is = some (os, s')) :
    runOut step' s is = some (os, s') := by
  induction hok generalizing s with
  | nil => exact h
  | cons ho _ ih =>
    obtain ⟨o, t, os', h₁, h₂, heq⟩ := runOut_cons_eq_some.1 h
    obtain ⟨rfl, rfl⟩ := List.cons.inj heq
    exact runOut_cons_eq_some.2 ⟨_, t, _, hstep _ _ _ _ h₁ ho, ih h₂, rfl⟩

/-- Inputs that only differ in what the machine does not look at can be exchanged. -/
theorem runOut_congr {κ : Type*} {step : σ → ι → Option (ο × σ)} {P : σ → Prop} {ok : ι → Prop} {f : ι → κ}
    (hstep : ∀ s i j, P s → f i = f j → step s i = step s j)
    (hP : ∀ s i o s', P s → ok i → step s i = some (o, s') → P s') {is js : List ι} (his : ∀ i ∈ is, ok i)
    (hf : is.map f = js.map f) {s : σ} (h : P s) : runOut step s is = runOut step s js := by
  induction is generalizing s js with
  | nil => rw [List.map_nil, eq_comm, List.map_eq_nil_iff] at hf; rw [hf]
  | cons i is ih =>
    cases js with
    | nil => cases hf
    | cons j js =>
      rw [List.map_cons, List.map_cons, List.cons.injEq] at hf
      rw [runOut, runOut, ← hstep s i j h hf.1]
      cases hs : step s i with
      | none => rfl
      | some r =>
        have hnext := hP s i r.1 r.2 h (his i List.mem_cons_self) hs
        exact congrArg (Option.bind · _) (ih (fun k hk => his k (List.mem_cons_of_mem _ hk)) hf.2 hnext)
