import Dbx1000.PagePin

/-!
# Threads that share a remote fetch

One instance and an environment that answers `LockRemote` in any way and calls `LockInvalid` at any
time. Of the threads that find a page in mode `O` one wins the compare-and-swap on `lock_remoting` and
fetches the page; the others spin on `lock_mode`. Flag and mode are not read together: `FetchOk` names
the orders that break the sharing, and in runs without them every assertion of `GetWritePageLock` holds
and a spinning thread has a fetcher.
-/

namespace Dbx1000

variable {nt : Nat} {B : Type}

/-- `waiting p` is the number of `LockInvalid` calls that wait on the node of `p`. -/
structure FetchSys (nt : Nat) (B : Type) where
  inst : Inst nt B
  waiting : Nat → Nat

inductive FetchEv (nt : Nat) (B : Type)
  | start (t : Fin nt) (set : List Nat)
  | thread (t : Fin nt)
  | write (t : Fin nt) (p : Nat) (f : B → B)
  | finish (t : Fin nt)
  | reply (t : Fin nt) (rc : RC) (buf : B)
  | invalidArrive (p : Nat)
  | invalidate (p : Nat)
  | invalidReturn (p : Nat)

namespace FetchSys

def init (buf : Nat → B) : FetchSys nt B := ⟨⟨fun _ => .init, buf, fun _ => .idle⟩, fun _ => 0⟩

def goto (t : Fin nt) (pc : Pc B) (s : FetchSys nt B) : FetchSys nt B := { s with inst := s.inst.goto t pc }

def setNode (p : Nat) (n : LockNode) (s : FetchSys nt B) : FetchSys nt B := { s with inst := s.inst.setNode p n }

def step (s : FetchSys nt B) : FetchEv nt B → Option (FetchSys nt B)
  | .start t set =>
    match s.inst.threads t with
    | .idle => if set.Pairwise (· < ·) then some (s.goto t (.scan set set)) else none
    | _ => none
  | .thread t => (s.inst.threadStep t).map fun inst => { s with inst := inst }
  | .write t p f =>
    match s.inst.threads t with
    | .body set => if p ∈ set ∧ (s.inst.nodes p).lockMode ≠ .O then some (s.goto t (.writing set p f)) else none
    | _ => none
  | .finish t =>
    match s.inst.threads t with
    | .body set => some (s.goto t (.unpin set))
    | _ => none
  | .reply t rc buf =>
    match s.inst.threads t with
    | .requested done p rest =>
      if rc = .rcok ∨ rc = .abort ∨ rc = .timeOut then some (s.goto t (.replied done p rest rc buf)) else none
    | _ => none
  | .invalidArrive p =>
    some { s.setNode p { s.inst.nodes p with invalidReq := true } with
      waiting := Function.update s.waiting p (s.waiting p + 1) }
  | .invalidate p =>
    if 0 < s.waiting p ∧ (s.inst.nodes p).canInvalid then
      (s.inst.nodes p).invalidate.map fun (n, _) =>
        { s.setNode p n with waiting := Function.update s.waiting p (s.waiting p - 1) }
    else none
  | .invalidReturn p => if (s.inst.nodes p).mtx then some (s.setNode p (s.inst.nodes p).endInvalid) else none

end FetchSys

def fetchLts (nt : Nat) (B : Type) : Lts (FetchSys nt B) (FetchEv nt B) where
  init s := ∃ buf, s = .init buf
  step := FetchSys.step

/-! ### The threads at a page in mode `O` -/

namespace Pc

/-- The page of the next compare-and-swap. -/
def swaps : Pc B → Option Nat
  | .cas _ p _ => some p
  | _ => none

/-- The page for which the thread has lost the compare-and-swap and not yet looked at the flag again. -/
def lost : Pc B → Option Nat
  | .failed _ p _ => some p
  | _ => none

/-- The page whose fetch by another thread the thread relies on. -/
def waitsFor : Pc B → Option Nat
  | .failed _ p _ | .spin _ p _ => some p
  | _ => none

/-- The page of a `LockRemote` call that is not answered, or whose answer is not looked at yet. -/
def asks : Pc B → Option Nat
  | .requested _ p _ | .replied _ p _ _ _ => some p
  | _ => none

/-- The page of an answer other than `RCOK`. -/
def refused : Pc B → Option Nat
  | .replied _ p _ rc _ => if rc = .rcok then none else some p
  | _ => none

/-- The page of which `lock_remoting` is cleared next, after the installation. -/
def clears : Pc B → Option Nat
  | .clear _ p _ => some p
  | _ => none

/-- The assertions of `GetWritePageLock`, where the thread evaluates them. -/
def FetchAssert (nodes : Nat → LockNode) : Pc B → Prop
  | .requested _ p _ | .failed _ p _ => (nodes p).lockRemoting = true
  | .replied _ p _ rc _ => ¬ (rc = .abort ∨ rc = .timeOut) → rc = .rcok ∧ (nodes p).lockMode = .O
  | .spun _ p _ => (nodes p).lockMode ≠ .O
  | .check _ (p :: _) => (nodes p).lockMode ≠ .O
  | _ => True

variable {pc : Pc B} {p : Nat}

theorem waitsFor_of_lost (h : pc.lost = some p) : pc.waitsFor = some p := by
  unfold lost at h
  split at h <;> cases h
  rfl

theorem fetching_of_asks (h : pc.asks = some p) : pc.fetching = some p := by
  unfold asks at h
  split at h <;> first | exact h | cases h

theorem mem_passed_of_clears (h : pc.clears = some p) : p ∈ pc.passed := by
  unfold clears at h
  split at h <;> cases h
  exact List.mem_append_right _ (List.mem_singleton_self _)

theorem fetching_cases (h : pc.fetching = some p) : pc.asks = some p ∨ p ∈ pc.passed := by
  unfold fetching at h
  split at h <;> cases h
  · exact .inl rfl
  · exact .inl rfl
  · exact .inr (List.mem_append_right _ (List.mem_singleton_self _))
  · exact .inr (List.mem_append_right _ (List.mem_singleton_self _))

end Pc

/-- The orders that keep the sharing intact: a lost compare-and-swap finds a fetch that has not failed, a won
one the page still in mode `O`; when the flag is cleared, no thread is between losing the compare-and-swap and
its assertion; no fetch fails while another thread relies on it; and a page is invalidated when no thread
relies on its fetch or has seen it and is not registered. -/
def FetchOk (s : FetchSys nt B) : FetchEv nt B → Prop
  | .thread t =>
    (∀ p ∈ (s.inst.threads t).swaps,
      if (s.inst.nodes p).lockRemoting then ∀ t', (s.inst.threads t').refused ≠ some p
      else (s.inst.nodes p).lockMode = .O) ∧
    ∀ p ∈ (s.inst.threads t).clears, ∀ t', (s.inst.threads t').lost ≠ some p
  | .reply t rc _ => rc ≠ .rcok → ∀ p ∈ (s.inst.threads t).asks, ∀ t', (s.inst.threads t').waitsFor ≠ some p
  | .invalidate p => (s.inst.nodes p).lockMode ≠ .O →
      ∀ t, (s.inst.threads t).waitsFor ≠ some p ∧ p ∉ (s.inst.threads t).passed
  | _ => True

instance (s : FetchSys nt B) (e : FetchEv nt B) : Decidable (FetchOk s e) :=
  match e with
  | .thread t => inferInstanceAs (Decidable ((∀ p ∈ (s.inst.threads t).swaps,
      if (s.inst.nodes p).lockRemoting then ∀ t', (s.inst.threads t').refused ≠ some p
      else (s.inst.nodes p).lockMode = .O) ∧
      ∀ p ∈ (s.inst.threads t).clears, ∀ t', (s.inst.threads t').lost ≠ some p))
  | .reply t rc _ => inferInstanceAs (Decidable (rc ≠ .rcok → ∀ p ∈ (s.inst.threads t).asks,
      ∀ t', (s.inst.threads t').waitsFor ≠ some p))
  | .invalidate p => inferInstanceAs (Decidable ((s.inst.nodes p).lockMode ≠ .O →
      ∀ t, (s.inst.threads t).waitsFor ≠ some p ∧ p ∉ (s.inst.threads t).passed))
  | .start .. | .write .. | .finish _ | .invalidArrive _ | .invalidReturn _ => .isTrue trivial

/-! ### What a thread does to the flags -/

/-- The effect of a step of `t` on the flags and on what the threads wait for. -/
structure FetchFrame (t : Fin nt) (s s' : Inst nt B) : Prop where
  noReplied : ∀ done p rest rc buf, s'.threads t ≠ .replied done p rest rc buf
  asks : ∀ p, (s'.threads t).asks = some p → (∃ done rest, s.threads t = .cas done p rest) ∧
    (s.nodes p).lockRemoting = false ∧ (s'.nodes p).lockMode = (s.nodes p).lockMode
  kept : ∀ p, (s'.nodes p).lockRemoting = true →
    (s'.threads t).fetching = some p ∨ (s.nodes p).lockRemoting = true ∧ (s.threads t).fetching ≠ some p
  cleared : ∀ p, (s.nodes p).lockRemoting = true →
    (s'.nodes p).lockRemoting = true ∨ (s.threads t).clears = some p ∨ (s.threads t).refused = some p
  waits : ∀ p, (s'.threads t).waitsFor = some p → (s'.nodes p).lockRemoting = true ∧
    ((s.threads t).waitsFor = some p ∨ (s.nodes p).lockRemoting = true ∧ ∃ done rest, s.threads t = .cas done p rest)

namespace FetchFrame

variable {s s' : Inst nt B} {t : Fin nt} {pc : Pc B}

/-- A step that leaves the flags alone. -/
theorem of_remoting_eq (hrem : ∀ q, (s'.nodes q).lockRemoting = (s.nodes q).lockRemoting)
    (ht : s'.threads t = pc) (hasks : pc.asks = none)
    (hfetch : ∀ p, (s.threads t).fetching = some p → pc.fetching = some p)
    (hwaits : ∀ p, pc.waitsFor = some p → (s.nodes p).lockRemoting = true ∧
      ((s.threads t).waitsFor = some p ∨ ∃ done rest, s.threads t = .cas done p rest)) : FetchFrame t s s' := by
  refine ⟨fun done p rest rc buf h => ?_, fun p h => ?_, fun p h => ?_, fun p h => ?_, fun p h => ?_⟩
  · rw [ht] at h
    rw [h] at hasks
    cases hasks
  · rw [ht, hasks] at h
    cases h
  · rw [hrem] at h
    by_cases hp : (s.threads t).fetching = some p
    · rw [ht]
      exact .inl (hfetch p hp)
    · exact .inr ⟨h, hp⟩
  · rw [hrem]
    exact .inl h
  · rw [ht] at h
    obtain ⟨h₁, h₂⟩ := hwaits p h
    rw [hrem]
    exact ⟨h₁, h₂.imp_right fun h => ⟨h₁, h⟩⟩

theorem goto (hasks : pc.asks = none) (hfetch : ∀ p, (s.threads t).fetching = some p → pc.fetching = some p)
    (hwaits : ∀ p, pc.waitsFor = some p → (s.nodes p).lockRemoting = true ∧
      ((s.threads t).waitsFor = some p ∨ ∃ done rest, s.threads t = .cas done p rest)) :
    FetchFrame t s (s.goto t pc) :=
  of_remoting_eq (fun _ => rfl) Inst.threads_goto_self hasks hfetch hwaits

/-- A step on a node that leaves its flag alone. -/
theorem setNode {p : Nat} {n : LockNode} (hrem : n.lockRemoting = (s.nodes p).lockRemoting) (hasks : pc.asks = none)
    (hfetch : ∀ p, (s.threads t).fetching = some p → pc.fetching = some p) (hwaits : pc.waitsFor = none) :
    FetchFrame t s ((s.setNode p n).goto t pc) := by
  refine of_remoting_eq (fun q => ?_) Inst.threads_goto_self hasks hfetch (fun q hq => by rw [hwaits] at hq; cases hq)
  rw [Inst.nodes_goto]
  by_cases hq : q = p
  · rw [hq, Inst.nodes_setNode_self, hrem]
  · rw [Inst.nodes_setNode_of_ne hq]

/-- The fetcher of `p` gives up the flag. -/
theorem giveUp {p : Nat} (hp : (s.threads t).fetching = some p)
    (hwhy : (s.threads t).clears = some p ∨ (s.threads t).refused = some p) (hasks : pc.asks = none)
    (hwaits : pc.waitsFor = none) :
    FetchFrame t s ((s.setNode p { s.nodes p with lockRemoting := false }).goto t pc) := by
  refine ⟨fun done q rest rc buf h => ?_, fun q h => ?_, fun q h => ?_, fun q h => ?_, fun q h => ?_⟩
  · rw [Inst.threads_goto_self] at h
    rw [h] at hasks
    cases hasks
  · rw [Inst.threads_goto_self, hasks] at h
    cases h
  · rw [Inst.nodes_goto] at h
    by_cases hq : q = p
    · rw [hq, Inst.nodes_setNode_self] at h
      cases h
    · rw [Inst.nodes_setNode_of_ne hq] at h
      refine .inr ⟨h, fun hf => hq ?_⟩
      rw [hp] at hf
      exact (Option.some.inj hf).symm
  · by_cases hq : q = p
    · rw [hq]
      exact .inr hwhy
    · rw [Inst.nodes_goto, Inst.nodes_setNode_of_ne hq]
      exact .inl h
  · rw [Inst.threads_goto_self, hwaits] at h
    cases h

theorem casWon {done rest : List Nat} {p : Nat} (hpc : s.threads t = .cas done p rest)
    (hrem : (s.nodes p).lockRemoting = false) :
    FetchFrame t s ((s.setNode p { s.nodes p with lockRemoting := true }).goto t (.requested done p rest)) := by
  refine ⟨?_, fun q h => ?_, fun q h => ?_, fun q h => ?_, ?_⟩
  · simp
  · rw [Inst.threads_goto_self] at h
    cases h
    exact ⟨⟨done, rest, hpc⟩, hrem, by rw [Inst.nodes_goto, Inst.nodes_setNode_self]⟩
  · by_cases hq : q = p
    · rw [Inst.threads_goto_self, hq]
      exact .inl rfl
    · rw [Inst.nodes_goto, Inst.nodes_setNode_of_ne hq] at h
      exact .inr ⟨h, by rw [hpc]; exact nofun⟩
  · have hq : q ≠ p := by
      rintro rfl
      rw [hrem] at h
      cases h
    rw [Inst.nodes_goto, Inst.nodes_setNode_of_ne hq]
    exact .inl h
  · simp [Pc.waitsFor]

theorem of_threadStep (h : ThreadStep t s s') : FetchFrame t s s' := by
  cases h with
  | scanned hpc | scanAgain hpc | scanNext hpc | got hpc | getRemote hpc | getLocal hpc | spin hpc | spun hpc
  | checked hpc | check hpc | unpinned hpc | unpin hpc => exact goto rfl (by rw [hpc]; exact nofun) nofun
  | casLost hpc hrem =>
    refine goto rfl (by rw [hpc]; exact nofun) fun q hq => ?_
    cases hq
    exact ⟨hrem, .inr ⟨_, _, hpc⟩⟩
  | casWon hpc hrem => exact casWon hpc hrem
  | failed hpc hrem =>
    refine goto rfl (by rw [hpc]; exact nofun) fun q hq => ?_
    cases hq
    exact ⟨hrem, .inl (by rw [hpc]; rfl)⟩
  | refused hpc hrc =>
    refine giveUp (by rw [hpc]; rfl) (.inr ?_) rfl rfl
    rcases hrc with rfl | rfl <;> rw [hpc] <;> rfl
  | install hpc => exact setNode rfl rfl (by rw [hpc]; exact fun _ => id) rfl
  | put hpc => exact of_remoting_eq (fun _ => rfl) Inst.threads_goto_self rfl (by rw [hpc]; exact fun _ => id) nofun
  | clear hpc => exact giveUp (by rw [hpc]; rfl) (.inl (by rw [hpc]; rfl)) rfl rfl
  | @add added rest p hpc hmtx =>
    exact setNode (LockNode.addThread_frame (s.nodes p) t).2.1 rfl (by rw [hpc]; exact nofun) rfl
  | write hpc hcan hn => exact setNode (LockNode.lock_X_frame hcan hn).2.2.1 rfl (by rw [hpc]; exact nofun) rfl
  | locked hpc => exact of_remoting_eq (fun _ => rfl) Inst.threads_goto_self rfl (by rw [hpc]; exact nofun) nofun
  | written hpc hmtx hn => exact setNode (LockNode.unLock_frame hn).2.1 rfl (by rw [hpc]; exact nofun) rfl
  | remove hpc hmtx hn => exact setNode (LockNode.removeThread_frame hn).2.1 rfl (by rw [hpc]; exact nofun) rfl

end FetchFrame

/-! ### The invariant -/

structure FetchInv (s : Inst nt B) : Prop where
  inst : InstOk s
  asked : ∀ t p, (s.threads t).asks = some p → (s.nodes p).lockMode = .O
  answer : ∀ t done p rest rc buf, s.threads t = .replied done p rest rc buf → rc = .rcok ∨ rc = .abort ∨ rc = .timeOut
  fetcher : ∀ p, (s.nodes p).lockRemoting = true → ∃ t, (s.threads t).fetching = some p
  lost : ∀ t p, (s.threads t).lost = some p → (s.nodes p).lockRemoting = true
  waits : ∀ t p, (s.threads t).waitsFor = some p → (s.nodes p).lockMode ≠ .O ∨ (s.nodes p).lockRemoting = true
  refused : ∀ t t' p, (s.threads t).waitsFor = some p → (s.threads t').refused ≠ some p

namespace FetchInv

variable {s s' : Inst nt B} {t : Fin nt}

theorem init (buf : Nat → B) : FetchInv (⟨fun _ => .init, buf, fun _ => .idle⟩ : Inst nt B) where
  inst := ⟨fun _ => rfl, fun _ => ⟨List.nodup_nil, nofun, nofun, nofun, nofun⟩, nofun⟩
  asked := nofun
  answer := nofun
  fetcher := nofun
  lost := nofun
  waits := nofun
  refused := nofun

/-- A thread moves. -/
theorem move (hi : FetchInv s) (hf : ThreadFrame t s s') (hff : FetchFrame t s s')
    (ht : ThreadOk s'.nodes t (s'.threads t))
    (hcas : ∀ done p rest, s.threads t = .cas done p rest →
      if (s.nodes p).lockRemoting then ∀ t', (s.threads t').refused ≠ some p else (s.nodes p).lockMode = .O)
    (hclear : ∀ p, (s.threads t).clears = some p → ∀ t', (s.threads t').lost ≠ some p) : FetchInv s' := by
  have hrefused : ∀ t' p, (s'.threads t').refused = some p → (s.threads t').refused = some p := by
    intro t' p h
    by_cases hne : t' = t
    · rw [hne] at h
      unfold Pc.refused at h
      split at h
      · exact absurd ‹_› (hff.noReplied _ _ _ _ _)
      · cases h
    · rwa [hf.others t' hne] at h
  refine ⟨hi.inst.move hf ht, fun t' p h => ?_, fun t' done p rest rc buf h => ?_, fun p h => ?_, fun t' p h => ?_,
    fun t' p h => ?_, fun t₁ t₂ p h₁ h₂ => ?_⟩
  · by_cases hne : t' = t
    · rw [hne] at h
      obtain ⟨⟨done, rest, hpc⟩, hrem, hmode⟩ := hff.asks p h
      have hO := hcas done p rest hpc
      rw [hrem] at hO
      rw [hmode]
      simpa using hO
    · -- the page is installed by its fetcher only
      rw [hf.others t' hne] at h
      by_contra hm
      rcases hf.installs p hm with hm | hm
      · exact hm (hi.asked t' p h)
      · exact hne (hi.inst.fetcher t' t p (Pc.fetching_of_asks h) (Pc.fetching_of_reply hm))
  · by_cases hne : t' = t
    · rw [hne] at h
      exact absurd h (hff.noReplied _ _ _ _ _)
    · rw [hf.others t' hne] at h
      exact hi.answer t' done p rest rc buf h
  · rcases hff.kept p h with h | ⟨h, hnot⟩
    · exact ⟨t, h⟩
    · obtain ⟨t', ht'⟩ := hi.fetcher p h
      refine ⟨t', ?_⟩
      rw [hf.others t' (by rintro rfl; exact hnot ht')]
      exact ht'
  · by_cases hne : t' = t
    · rw [hne] at h
      exact (hff.waits p (Pc.waitsFor_of_lost h)).1
    · rw [hf.others t' hne] at h
      rcases hff.cleared p (hi.lost t' p h) with h' | h' | h'
      · exact h'
      · exact absurd h (hclear p h' t')
      · exact absurd h' (hi.refused t' t p (Pc.waitsFor_of_lost h))
  · by_cases hne : t' = t
    · rw [hne] at h
      exact .inr (hff.waits p h).1
    · rw [hf.others t' hne] at h
      rcases hi.waits t' p h with hm | hrem
      · exact .inl (hf.keeps p hm)
      · rcases hff.cleared p hrem with h' | h' | h'
        · exact .inr h'
        · exact .inl (hf.keeps p ((hi.inst.thread t).passed p (Pc.mem_passed_of_clears h')))
        · exact absurd h' (hi.refused t' t p h)
  · have h₂ := hrefused t₂ p h₂
    by_cases hne : t₁ = t
    · rw [hne] at h₁
      rcases (hff.waits p h₁).2 with h₁ | ⟨hrem, done, rest, hpc⟩
      · exact hi.refused t t₂ p h₁ h₂
      · have hok := hcas done p rest hpc
        rw [hrem] at hok
        exact hok t₂ h₂
    · rw [hf.others t₁ hne] at h₁
      exact hi.refused t₁ t₂ p h₁ h₂

/-- A thread that is not at the locks moves and leaves the nodes alone. -/
theorem goto (hi : FetchInv s) {pc : Pc B} (hcas : ∀ done p rest, s.threads t ≠ .cas done p rest)
    (hclear : (s.threads t).clears = none) (hfetch : (s.threads t).fetching = none) (hreply : pc.reply? = none)
    (hpcfetch : pc.fetching = none) (hasks : pc.asks = none) (hwaits : pc.waitsFor = none)
    (ht : ThreadOk s.nodes t pc) : FetchInv (s.goto t pc) := by
  refine hi.move (.goto hreply (by rw [hpcfetch]; exact nofun)) (.goto hasks (by rw [hfetch]; exact nofun)
    (by rw [hwaits]; exact nofun)) (by rw [Inst.threads_goto_self]; exact ht)
    (fun done p rest h => absurd h (hcas done p rest)) ?_
  rw [hclear]
  exact nofun

/-- `LockRemote` returns to the thread. -/
theorem reply (hi : FetchInv s) {done rest : List Nat} {p : Nat} {rc : RC} {buf : B}
    (hpc : s.threads t = .requested done p rest) (hrc : rc = .rcok ∨ rc = .abort ∨ rc = .timeOut)
    (hok : rc ≠ .rcok → ∀ t', (s.threads t').waitsFor ≠ some p) :
    FetchInv (s.goto t (.replied done p rest rc buf)) := by
  have hasks : ∀ t', ((s.goto t (.replied done p rest rc buf)).threads t').asks = (s.threads t').asks ∧
      ((s.goto t (.replied done p rest rc buf)).threads t').fetching = (s.threads t').fetching ∧
      ((s.goto t (.replied done p rest rc buf)).threads t').waitsFor = (s.threads t').waitsFor ∧
      ((s.goto t (.replied done p rest rc buf)).threads t').lost = (s.threads t').lost := by
    intro t'
    by_cases hne : t' = t
    · rw [hne, Inst.threads_goto_self, hpc]
      exact ⟨rfl, rfl, rfl, rfl⟩
    · rw [Inst.threads_goto_of_ne hne]
      exact ⟨rfl, rfl, rfl, rfl⟩
  refine ⟨hi.inst.answer hpc (hi.asked t p (by rw [hpc]; rfl)), fun t' q h => ?_, fun t' done' q rest' rc' buf' h => ?_,
    fun q h => ?_, fun t' q h => ?_, fun t' q h => ?_, fun t₁ t₂ q h₁ h₂ => ?_⟩
  · rw [(hasks t').1] at h
    exact hi.asked t' q h
  · by_cases hne : t' = t
    · rw [hne, Inst.threads_goto_self] at h
      cases h
      exact hrc
    · rw [Inst.threads_goto_of_ne hne] at h
      exact hi.answer t' done' q rest' rc' buf' h
  · obtain ⟨t', ht'⟩ := hi.fetcher q h
    exact ⟨t', by rw [(hasks t').2.1]; exact ht'⟩
  · rw [(hasks t').2.2.2] at h
    exact hi.lost t' q h
  · rw [(hasks t').2.2.1] at h
    exact hi.waits t' q h
  · rw [(hasks t₁).2.2.1] at h₁
    by_cases hne : t₂ = t
    · rw [hne, Inst.threads_goto_self] at h₂
      simp only [Pc.refused] at h₂
      split at h₂
      · cases h₂
      · cases h₂
        exact hok ‹_› t₁ h₁
    · rw [Inst.threads_goto_of_ne hne] at h₂
      exact hi.refused t₁ t₂ q h₁ h₂

/-- `LockInvalid` changes the node of `p`. -/
theorem invalid (hi : FetchInv s) {p : Nat} {n : LockNode} (hset : n.threadSet = (s.nodes p).threadSet)
    (hcount : n.threadCount = (s.nodes p).threadCount) (hrem : n.lockRemoting = (s.nodes p).lockRemoting)
    (hmode : n.lockMode = (s.nodes p).lockMode ∨ n.lockMode = .O ∧
      ∀ t, (s.threads t).waitsFor ≠ some p ∧ p ∉ (s.threads t).passed ∧ p ∉ (s.threads t).pinned) :
    FetchInv (s.setNode p n) := by
  have hremq : ∀ q, ((s.setNode p n).nodes q).lockRemoting = (s.nodes q).lockRemoting := by
    intro q
    by_cases hq : q = p
    · rw [hq, Inst.nodes_setNode_self, hrem]
    · rw [Inst.nodes_setNode_of_ne hq]
  refine ⟨hi.inst.invalid hset hcount hrem (hmode.imp_right fun h => ⟨h.1, fun t => (h.2 t).2⟩), fun t q h => ?_,
    hi.answer, fun q h => hi.fetcher q (by rwa [hremq] at h), fun t q h => by rw [hremq]; exact hi.lost t q h,
    fun t q h => ?_, hi.refused⟩
  · have hO := hi.asked t q h
    by_cases hq : q = p
    · rw [hq] at hO
      rw [hq, Inst.nodes_setNode_self]
      exact hmode.elim (fun hm => hm.trans hO) fun hm => hm.1
    · rwa [Inst.nodes_setNode_of_ne hq]
  · rw [hremq]
    by_cases hq : q = p
    · rw [hq] at h
      rw [hq, Inst.nodes_setNode_self]
      rcases hmode with hm | ⟨-, hm⟩
      · rw [hm]
        exact hi.waits t p h
      · exact absurd h (hm t).1
    · rw [Inst.nodes_setNode_of_ne hq]
      exact hi.waits t q h

theorem step {s s' : FetchSys nt B} {e : FetchEv nt B} (hi : FetchInv s.inst) (hg : FetchOk s e)
    (h : s.step e = some s') : FetchInv s'.inst := by
  cases e with
  | start t set =>
    simp only [FetchSys.step] at h
    split at h
    · split at h
      · rename_i hpc hset
        cases h
        refine hi.goto (by simp [hpc]) (by rw [hpc]; rfl) (by rw [hpc]; rfl) rfl rfl rfl rfl ?_
        exact ⟨hset.imp Nat.ne_of_lt, nofun, nofun, nofun, nofun⟩
      · cases h
    · cases h
  | thread t =>
    obtain ⟨inst, hstep, rfl⟩ := Option.map_eq_some_iff.1 h
    have ht := ThreadStep.of_threadStep hstep
    refine hi.move (.of_threadStep ht) (.of_threadStep ht) ((hi.inst.thread t).of_threadStep ht) ?_ ?_
    · intro done p rest hpc
      exact hg.1 p (by rw [hpc]; rfl)
    · exact hg.2
  | write t p f =>
    simp only [FetchSys.step] at h
    split at h
    · split at h
      · rename_i hpc hp
        cases h
        have hok := hi.inst.thread t
        rw [hpc] at hok
        exact hi.goto (by simp [hpc]) (by rw [hpc]; rfl) (by rw [hpc]; rfl) rfl rfl rfl rfl
          (hok.goto (.refl _) nofun (fun _ => id) nofun rfl)
      · cases h
    · cases h
  | finish t =>
    simp only [FetchSys.step] at h
    split at h
    · rename_i hpc
      cases h
      have hok := hi.inst.thread t
      rw [hpc] at hok
      exact hi.goto (by simp [hpc]) (by rw [hpc]; rfl) (by rw [hpc]; rfl) rfl rfl rfl rfl
        (hok.goto (.refl _) nofun (fun _ => id) nofun rfl)
    · cases h
  | reply t rc buf =>
    simp only [FetchSys.step] at h
    split at h
    · split at h
      · rename_i hpc hrc
        cases h
        exact hi.reply hpc hrc fun hne => hg hne _ (by rw [hpc]; rfl)
      · cases h
    · cases h
  | invalidArrive p =>
    cases h
    exact hi.invalid rfl rfl rfl (.inl rfl)
  | invalidate p =>
    simp only [FetchSys.step] at h
    split at h
    · rename_i hcan
      obtain ⟨⟨n, rc⟩, hn, rfl⟩ := Option.map_eq_some_iff.1 h
      obtain ⟨-, -, rfl⟩ := LockNode.invalidate_eq hcan.2 hn
      refine hi.invalid rfl rfl rfl ?_
      by_cases hO : (s.inst.nodes p).lockMode = .O
      · exact .inl hO.symm
      · refine .inr ⟨rfl, fun t => ⟨(hg hO t).1, (hg hO t).2, fun hp => ?_⟩⟩
        -- a registered thread keeps `LockInvalid` waiting
        have hno := LockNode.not_canInvalid (hi.inst.counted p) ((hi.inst.thread t).pinned p hp).2
        rw [hcan.2] at hno
        cases hno
    · cases h
  | invalidReturn p =>
    simp only [FetchSys.step] at h
    split at h
    · cases h
      exact hi.invalid rfl rfl rfl (.inl rfl)
    · cases h

theorem reach {s : FetchSys nt B} (h : (fetchLts nt B).Reach FetchOk s) : FetchInv s.inst := by
  refine Lts.Reach.inv (P := fun s => FetchInv s.inst) ?_ (fun _ _ _ hi hg hs => hi.step hg hs) h
  rintro _ ⟨buf, rfl⟩
  exact init buf

theorem fetchAssert (hi : FetchInv s) (t : Fin nt) : (s.threads t).FetchAssert s.nodes := by
  have hok := hi.inst.thread t
  unfold Pc.FetchAssert
  split
  · rename_i hpc
    exact hok.remoting _ (by rw [hpc]; rfl)
  · rename_i hpc
    exact hi.lost t _ (by rw [hpc]; rfl)
  · rename_i hpc
    intro hne
    exact ⟨(hi.answer t _ _ _ _ _ hpc).resolve_right hne, hi.asked t _ (by rw [hpc]; rfl)⟩
  · rename_i hpc
    rw [hpc] at hok
    exact hok.passed _ (List.mem_append_right _ (List.mem_singleton_self _))
  · rename_i hpc
    rw [hpc] at hok
    exact hok.passed _ List.mem_cons_self
  · trivial

end FetchInv

/-- `LockRemote` for `p` is outstanding at `t`, or has granted the page and `t` is about to install `P`. -/
def Fetches (s : Inst nt B) (t : Fin nt) (p : Nat) : Prop :=
  ∃ done rest, s.threads t = .requested done p rest ∨ ∃ buf, s.threads t = .replied done p rest .rcok buf

theorem Fetches.asks {s : Inst nt B} {t : Fin nt} {p : Nat} (h : Fetches s t p) : (s.threads t).asks = some p := by
  obtain ⟨done, rest, h | ⟨buf, h⟩⟩ := h
  · rw [h]
    rfl
  · rw [h]
    rfl

theorem FetchInv.fetches {s : Inst nt B} (hi : FetchInv s) {t : Fin nt} {p : Nat}
    (hw : (s.threads t).waitsFor = some p) (hO : (s.nodes p).lockMode = .O) :
    (s.nodes p).lockRemoting = true ∧ ∃ t', t' ≠ t ∧ Fetches s t' p := by
  have hrem := (hi.waits t p hw).resolve_left fun h => h hO
  obtain ⟨t', ht'⟩ := hi.fetcher p hrem
  have hasks := (Pc.fetching_cases ht').resolve_right fun h => (hi.inst.thread t').passed p h hO
  refine ⟨hrem, t', ?_, ?_⟩
  · rintro rfl
    unfold Pc.waitsFor at hw
    split at hw <;> rename_i hpc
    · simp [hpc, Pc.asks] at hasks
    · simp [hpc, Pc.asks] at hasks
    · cases hw
  · have hnot := hi.refused t t' p hw
    unfold Pc.asks at hasks
    split at hasks
    · cases hasks
      exact ⟨_, _, .inl ‹_›⟩
    · rename_i hpc
      cases hasks
      rw [hpc] at hnot
      simp only [Pc.refused] at hnot
      split at hnot
      · rename_i hrc
        rw [hrc] at hpc
        exact ⟨_, _, .inr ⟨_, hpc⟩⟩
      · exact absurd rfl hnot
    · cases hasks

/-- In runs within `FetchOk` no assertion of `GetWritePageLock` fails, and a thread that spins on a page in
mode `O` has another one that fetches it. -/
theorem fetch_shared_of_fetchOk {s : FetchSys nt B} (h : (fetchLts nt B).Reach FetchOk s) :
    (∀ t, (s.inst.threads t).FetchAssert s.inst.nodes) ∧
      ∀ t done p rest, s.inst.threads t = .spin done p rest → (s.inst.nodes p).lockMode = .O →
        (s.inst.nodes p).lockRemoting = true ∧ ∃ t', t' ≠ t ∧ Fetches s.inst t' p := by
  have hi := FetchInv.reach h
  exact ⟨hi.fetchAssert, fun t done p rest hpc hO => hi.fetches (by rw [hpc]; rfl) hO⟩

/-- The threads `t` and `u` find page 5 in mode `O`; `t` wins the compare-and-swap. -/
def contend (t u : Fin 2) : List (FetchEv 2 Nat) :=
  [.start t [5], .start u [5]] ++ (List.replicate 4 [.thread t, .thread u]).flatten

/-- The page of a thread that spins, with the pages before and behind it. -/
def Pc.spin? : Pc B → Option (List Nat × Nat × List Nat)
  | .spin done p rest => some (done, p, rest)
  | _ => none

theorem Pc.spin?_eq_some {pc : Pc B} {done rest : List Nat} {p : Nat} (h : pc.spin? = some (done, p, rest)) :
    pc = .spin done p rest := by
  cases pc <;> cases h
  rfl

theorem Pc.lost_eq_some {pc : Pc B} {p : Nat} (h : pc.lost = some p) : ∃ done rest, pc = .failed done p rest := by
  cases pc <;> cases h
  exact ⟨_, _, rfl⟩

/-- Thread 1 spins while the call of thread 0 is outstanding. -/
theorem fetch_shared_in_contend : ∃ s : FetchSys 2 Nat,
    (fetchLts 2 Nat).runIf (fun s e => decide (FetchOk s e)) (.init fun _ => 0) (contend 0 1 ++ [.thread 1]) = some s ∧
      (s.inst.threads 1).waitsFor = some 5 ∧ ∃ t', t' ≠ 1 ∧ Fetches s.inst t' 5 := by
  have hrun : (((fetchLts 2 Nat).runIf (fun s e => decide (FetchOk s e)) (.init fun _ => 0)
      (contend 0 1 ++ [.thread 1])).any fun s => decide ((s.inst.nodes 5).lockMode = .O) &&
        decide ((s.inst.threads 1).spin? = some ([], 5, []))) = true := by decide +kernel
  simp only [Option.any_eq_true, Bool.and_eq_true, decide_eq_true_eq] at hrun
  obtain ⟨s, hs, hO, hspin⟩ := hrun
  have hpc := Pc.spin?_eq_some hspin
  obtain ⟨-, hwait⟩ := fetch_shared_of_fetchOk (.runIf (fun _ _ => of_decide_eq_true) (.init ⟨_, rfl⟩) hs)
  exact ⟨s, hs, by rw [hpc]; rfl, (hwait 1 [] 5 [] hpc hO).2⟩

/-- When the fetch of thread 0 fails, thread 1 spins on; and when it succeeds before thread 1 has looked at the
flag again, the assertion of thread 1 fails. -/
theorem waiter_left_alone :
    (∃ s : FetchSys 2 Nat,
      (fetchLts 2 Nat).run (.init fun _ => 0) (contend 0 1 ++ [.thread 1, .reply 0 .abort 0, .thread 0]) =
      some s ∧ s.inst.threads 1 = .spin [] 5 [] ∧ (s.inst.nodes 5).lockMode = .O ∧ ∀ t', ¬ Fetches s.inst t' 5) ∧
    ∃ s : FetchSys 2 Nat, (fetchLts 2 Nat).run (.init fun _ => 0)
      (contend 0 1 ++ [.reply 0 .rcok 0, .thread 0, .thread 0, .thread 0]) = some s ∧
      (s.inst.threads 1).lost = some 5 ∧ (s.inst.nodes 5).lockRemoting = false ∧ s.inst.threadStep 1 = none := by
  have hspin : (((fetchLts 2 Nat).run (.init fun _ => 0) (contend 0 1 ++ [.thread 1, .reply 0 .abort 0, .thread 0])).any
      fun s => decide ((s.inst.nodes 5).lockMode = .O) && decide ((s.inst.threads 0).asks = none) &&
        decide ((s.inst.threads 1).spin? = some ([], 5, []))) = true := by decide +kernel
  have hfail : (((fetchLts 2 Nat).run (.init fun _ => 0)
      (contend 0 1 ++ [.reply 0 .rcok 0, .thread 0, .thread 0, .thread 0])).any fun s =>
        decide ((s.inst.nodes 5).lockRemoting = false) && decide ((s.inst.threads 1).lost = some 5)) = true := by
    decide +kernel
  simp only [Option.any_eq_true, Bool.and_eq_true, decide_eq_true_eq] at hspin hfail
  obtain ⟨s, hs, ⟨hO, hasks⟩, hspin⟩ := hspin
  obtain ⟨s', hs', hrem, hlost⟩ := hfail
  have hpc := Pc.spin?_eq_some hspin
  obtain ⟨done, rest, hpc'⟩ := Pc.lost_eq_some hlost
  refine ⟨⟨s, hs, hpc, hO, Fin.forall_fin_two.2 ⟨fun hf => ?_, fun hf => ?_⟩⟩, s', hs', hlost, hrem, ?_⟩
  · have hsome := hf.asks
    rw [hasks] at hsome
    cases hsome
  · have hsome := hf.asks
    rw [hpc] at hsome
    cases hsome
  · simp [Inst.threadStep, hpc', hrem]

end Dbx1000
