import Mathlib.Order.Nat

/-!
# Loops that need not end

`loop body n s` makes at most `n` turns from the state `s`; a turn goes on (`inl`) or leaves the loop
(`inr`). A program made of such loops is a function of the bound: it returns `a` when every large enough
bound gives `done a` (`Returns`), it terminates when every large enough bound gives an end, be it a failed
assertion (`Terminates`), and it diverges when no bound does (`Diverges`). `loop_inv` takes an invariant for what
the loop comes to if it ends, `loop_finishes` an invariant and a measure that every turn makes smaller, and
`loop_diverges` an invariant that no turn leaves.
-/

/-- What a program has come to within a bound on the turns of its loops. -/
inductive Run (α : Type)
  | done (a : α)
  | failed
  | unfinished
deriving DecidableEq, Repr

namespace Run

variable {α β σ : Type}

def bind (x : Run α) (f : α → Run β) : Run β :=
  match x with
  | done a => f a
  | failed => failed
  | unfinished => unfinished

instance : Monad Run where
  pure := done
  bind := bind

/-- `assert(p)` -/
def assert (p : Prop) [Decidable p] : Run Unit := if p then done () else failed

/-- `l[i]`; a read outside the array fails. -/
def get (l : List α) (i : Nat) : Run α :=
  match l[i]? with
  | some a => done a
  | none => failed

@[simp] theorem pure_eq (a : α) : (pure a : Run α) = done a := rfl

@[simp] theorem done_bind (a : α) (f : α → Run β) : (done a >>= f) = f a := rfl

@[simp] theorem failed_bind (f : α → Run β) : ((failed : Run α) >>= f) = failed := rfl

theorem assert_of {p : Prop} {_ : Decidable p} (h : p) : assert p = done () := if_pos h

theorem of_assert {p : Prop} {_ : Decidable p} {u : Unit} (h : assert p = done u) : p := by
  unfold assert at h
  split at h
  · assumption
  · cases h

theorem assert_ne_unfinished {p : Prop} [Decidable p] : assert p ≠ unfinished := by
  unfold assert
  split <;> exact nofun

theorem bind_ne_unfinished {x : Run α} {f : α → Run β} (hx : x ≠ unfinished)
    (hf : ∀ a, x = done a → f a ≠ unfinished) : (x >>= f) ≠ unfinished := by
  cases x with
  | done a => exact hf a rfl
  | failed => exact nofun
  | unfinished => exact absurd rfl hx

theorem bind_ne_failed {x : Run α} {f : α → Run β} (hx : x ≠ failed) (hf : ∀ a, x = done a → f a ≠ failed) :
    (x >>= f) ≠ failed := by
  cases x with
  | done a => exact hf a rfl
  | failed => exact absurd rfl hx
  | unfinished => exact nofun

theorem bind_eq_done {x : Run α} {f : α → Run β} {b : β} : (x >>= f) = done b ↔ ∃ a, x = done a ∧ f a = done b := by
  cases x with
  | done a => exact ⟨fun h => ⟨a, rfl, h⟩, fun ⟨_, h, h'⟩ => by cases h; exact h'⟩
  | failed => exact ⟨nofun, fun ⟨_, h, _⟩ => nomatch h⟩
  | unfinished => exact ⟨nofun, fun ⟨_, h, _⟩ => nomatch h⟩

theorem foldlM_ne_unfinished {f : β → α → Run β} {l : List α} (h : ∀ a ∈ l, ∀ b, f b a ≠ unfinished) (b : β) :
    l.foldlM f b ≠ unfinished := by
  induction l generalizing b with
  | nil => exact nofun
  | cons a l ih =>
    rw [List.foldlM_cons]
    exact bind_ne_unfinished (h a List.mem_cons_self b) fun b' _ => ih (fun a ha => h a (List.mem_cons_of_mem _ ha)) b'

theorem get_of {l : List α} {i : Nat} {a : α} (h : l[i]? = some a) : get l i = done a := by
  rw [get, h]

theorem forM_done {l : List α} {f : α → Run PUnit} (h : ∀ a ∈ l, f a = done ⟨⟩) : l.forM f = done ⟨⟩ := by
  induction l with
  | nil => rfl
  | cons a l ih =>
    rw [List.forM, h a List.mem_cons_self, done_bind]
    exact ih fun a ha => h a (List.mem_cons_of_mem _ ha)

/-- `for (i = 0; i < l.length; i++)` goes over the elements of `l`, whatever is behind them. -/
theorem foldlM_range_get (l rest : List α) (f : β → α → Run β) (b : β) :
    (List.range l.length).foldlM (fun b i => get (l ++ rest) i >>= f b) b = l.foldlM f b := by
  suffices h : ∀ (pre l : List α) (b : β), (List.range' pre.length l.length).foldlM
      (fun b i => get (pre ++ l ++ rest) i >>= f b) b = l.foldlM f b by
    rw [List.range_eq_range']
    exact h [] l b
  intro pre l
  induction l generalizing pre with
  | nil => exact fun _ => rfl
  | cons a l ih =>
    intro b
    have hget : get (pre ++ a :: l ++ rest) pre.length = done a := get_of (by simp)
    have hstep := ih (pre ++ [a])
    rw [List.length_append, List.length_singleton, List.append_assoc pre, List.singleton_append] at hstep
    rw [List.length_cons, List.range'_succ, List.foldlM_cons, List.foldlM_cons, hget, done_bind]
    cases f b a with
    | done b' => exact hstep b'
    | failed => rfl
    | unfinished => rfl

/-! ### Programs -/

/-- With enough turns the program returns `a`. -/
def Returns (prog : Nat → Run α) (a : α) : Prop := ∃ bound, ∀ n, bound ≤ n → prog n = done a

/-- With enough turns the program comes to an end. -/
def Terminates (prog : Nat → Run α) : Prop := ∃ bound, ∀ n, bound ≤ n → prog n ≠ unfinished

def Diverges (prog : Nat → Run α) : Prop := ∀ n, prog n = unfinished

theorem Diverges.not_terminates {prog : Nat → Run α} (h : Diverges prog) : ¬ Terminates prog :=
  fun ⟨bound, hbound⟩ => hbound bound (Nat.le_refl bound) (h bound)

/-! ### The loop -/

/-- At most `n` turns. -/
def loop (body : σ → Run (σ ⊕ β)) : Nat → σ → Run β
  | 0, _ => unfinished
  | n + 1, s => body s >>= fun
    | .inl s' => loop body n s'
    | .inr b => done b

variable {body : σ → Run (σ ⊕ β)} {I : σ → Prop} {n : Nat} {s s' : σ} {b : β}

theorem loop_next (h : body s = done (.inl s')) : loop body (n + 1) s = loop body n s' := by
  rw [loop, h]
  rfl

theorem loop_exit (h : body s = done (.inr b)) : loop body (n + 1) s = done b := by
  rw [loop, h]
  rfl

/-- Every turn keeps `I` or leaves the loop with a result that meets `Q`, and it fails only if `F` holds. -/
theorem loop_inv {Q : β → Prop} {F : Prop} (hbody : ∀ s, I s → (∀ s', body s = done (.inl s') → I s') ∧
      (∀ b, body s = done (.inr b) → Q b) ∧ (body s = failed → F)) (hs : I s) :
    (∀ b, loop body n s = done b → Q b) ∧ (loop body n s = failed → F) := by
  induction n generalizing s with
  | zero => exact ⟨nofun, nofun⟩
  | succ n ih =>
    obtain ⟨hnext, hexit, hfail⟩ := hbody s hs
    rw [loop]
    match hr : body s with
    | done (.inl s') => exact ih (hnext s' hr)
    | done (.inr b) =>
      refine ⟨fun b' hb => ?_, nofun⟩
      cases hb
      exact hexit b hr
    | failed => exact ⟨nofun, fun _ => hfail hr⟩
    | unfinished => exact ⟨nofun, nofun⟩

/-- Every turn ends, and goes on in `I` with a smaller `μ` only. -/
theorem loop_finishes (μ : σ → Nat) (hbody : ∀ s, I s →
      body s ≠ unfinished ∧ ∀ s', body s = done (.inl s') → I s' ∧ μ s' < μ s)
    (hs : I s) (hn : μ s < n) : loop body n s ≠ unfinished := by
  induction n generalizing s with
  | zero => exact absurd hn (Nat.not_lt_zero _)
  | succ n ih =>
    obtain ⟨hne, hnext⟩ := hbody s hs
    refine bind_ne_unfinished hne fun r hr => ?_
    match r with
    | .inl s' =>
      obtain ⟨hI, hlt⟩ := hnext s' hr
      exact ih hI (by omega)
    | .inr b => exact nofun

/-- No turn leaves the loop. -/
theorem loop_diverges (hbody : ∀ s, I s → ∃ s', body s = done (.inl s') ∧ I s') (hs : I s) :
    loop body n s = unfinished := by
  induction n generalizing s with
  | zero => rfl
  | succ n ih =>
    obtain ⟨s', hs', hI⟩ := hbody s hs
    rw [loop_next hs']
    exact ih hI

end Run
