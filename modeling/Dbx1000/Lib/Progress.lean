import Mathlib.Algebra.BigOperators.Group.Finset.Basic
import Mathlib.Algebra.Order.BigOperators.Group.Finset
import Dbx1000.Lib.Lts

/-!
# Goals within reach

From a state in which an invariant holds, a goal can be reached if, short of it, some step keeps the invariant and
lowers a measure (`Lts.exists_goal`). Where the state has a part for each of finitely many parties, the measure is
the sum of what is left to each of them, and a step of one party has only its own part to look at
(`sum_lt_sum_of_one`).
-/

namespace Dbx1000

theorem sum_lt_sum_of_one {ι : Type*} {I : Finset ι} {f f' : ι → Nat} {j : ι} (hj : j ∈ I)
    (hother : ∀ i, i ≠ j → f' i = f i) (hlt : f' j < f j) : ∑ i ∈ I, f' i < ∑ i ∈ I, f i := by
  refine Finset.sum_lt_sum (fun i _ => ?_) ⟨j, hj, hlt⟩
  by_cases h : i = j
  · rw [h]; exact Nat.le_of_lt hlt
  · exact Nat.le_of_eq (hother i h)

end Dbx1000

namespace Lts

variable {σ α : Type*} {M : Lts σ α} {s : σ}

/-- A goal is within reach of the actions `A` if, short of it, one of them keeps `I` and lowers a measure. -/
theorem exists_goal {I : σ → Prop} {A : α → Prop} (Goal : σ → Prop) (μ : σ → Nat)
    (hstep : ∀ s, I s → ¬ Goal s → ∃ a s', A a ∧ M.step s a = some s' ∧ I s' ∧ μ s' < μ s) (h : I s) :
    ∃ as s', (∀ a ∈ as, A a) ∧ M.run s as = some s' ∧ I s' ∧ Goal s' := by
  induction hn : μ s using Nat.strongRecOn generalizing s with
  | ind n ih =>
    by_cases hgoal : Goal s
    · exact ⟨[], s, List.forall_mem_nil _, rfl, h, hgoal⟩
    · obtain ⟨a, t, ha, ht, hi, hlt⟩ := hstep s h hgoal
      obtain ⟨as, s', has, hr, hi', hgoal'⟩ := ih (μ t) (hn ▸ hlt) hi rfl
      exact ⟨a :: as, s', List.forall_mem_cons.2 ⟨ha, has⟩, run_cons_eq_some.2 ⟨t, ht, hr⟩, hi', hgoal'⟩

end Lts
