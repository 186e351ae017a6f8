import Dbx1000.Fetch
import Dbx1000.PageAccess

/-!
# Page locks and the threads behind them

What a page lock says about the threads: the count of a node is that of its holder, the set that of the registered
threads, `lock_remoting` has a thread that fetches the page, and a thread that spins for a page finds it installed or
another one that asks for it. Behind the flags of `LockInvalid` there is an `Invalid` call, and the recorded owner of a
page has it or is about to have it (`ServeInv`). All this holds in the runs of `PinOk` in which no page is invalidated
that a thread still spins for and no thread is between its failed compare-and-swap and the assertion behind it when
`lock_remoting` is cleared (`FinishOk`).
-/

namespace Dbx1000

variable {ni nt : Nat} {B : Type}

/-! ### One instance -/

namespace Pc

/-- The X lock of `WriteRow` on the page `p`. -/
def hold (p : Nat) : Pc B → Option Hold
  | .locked _ q _ | .written _ q => if q = p then some .writer else none
  | _ => none

/-- The page of `WriteRow`. -/
def target : Pc B → Option Nat
  | .writing _ p _ | .locked _ p _ | .written _ p => some p
  | _ => none

theorem asks_of_reply {pc : Pc B} {p : Nat} (h : pc.reply? = some p) : pc.asks = some p := by
  unfold reply? at h
  split at h
  · exact h
  · cases h

end Pc

namespace Inst

def held (p : Nat) (s : Inst nt B) (t : Fin nt) : Option Hold := (s.threads t).hold p

variable {s : Inst nt B} {t : Fin nt} {pc : Pc B} {p q : Nat} {n : LockNode}

theorem held_goto : (s.goto t pc).held p = Function.update (s.held p) t (pc.hold p) := by
  funext t'
  by_cases h : t' = t
  · rw [h, held, threads_goto_self, Function.update_self]
  · rw [held, threads_goto_of_ne h, Function.update_of_ne h, held]

/-- What a call leaves alone in one node is left alone in all. -/
theorem setNode_congr {β : Type} (f : LockNode → β) (h : f n = f (s.nodes q)) :
    f ((s.setNode q n).nodes p) = f (s.nodes p) := by
  by_cases hq : p = q
  · rw [hq, nodes_setNode_self, h]
  · rw [nodes_setNode_of_ne hq]

end Inst

section Step

variable {s s' : Inst nt B} {t : Fin nt} {p : Nat}

theorem ThreadStep.pages_sublist (h : ThreadStep t s s') : (s'.threads t).pages.Sublist (s.threads t).pages := by
  cases h <;> rw [‹s.threads t = _›, Inst.threads_goto_self]
  case scanned | scanAgain | scanNext | getRemote | casLost | casWon | failed | install | put | spin | check | write
    | locked | written | unpinned | unpin => exact .refl _
  case got done hpc =>
    show List.Sublist ([] ++ done) (done ++ [])
    rw [List.append_nil]
    exact .refl _
  case getLocal | clear | spun | add => exact append_cons_sublist ..
  case refused => exact List.nil_sublist _
  case checked => exact List.sublist_append_left ..
  case remove => exact List.sublist_cons_self ..

/-- The thread that has its answer installs the page. -/
theorem ThreadStep.answered (h : ThreadStep t s s') (hasks : (s.threads t).asks = some p)
    (hrc : (s.threads t).refused = none) : (s'.nodes p).lockMode ≠ .O := by
  cases h <;> rw [‹s.threads t = _›] at hasks hrc <;> cases hasks
  case refused hrc' hpc =>
    rcases hrc' with rfl | rfl <;> cases hrc
  case install =>
    rw [Inst.nodes_goto, Inst.nodes_setNode_self]
    exact LockMode.noConfusion

/-- A thread leaves the flags of `LockInvalid` alone. -/
theorem ThreadStep.sameFlags (h : ThreadStep t s s') (p : Nat) : (s.nodes p).SameFlags (s'.nodes p) := by
  have hset : ∀ {q : Nat} {n : LockNode}, (s.nodes q).SameFlags n →
      (s.nodes p).SameFlags ((s.setNode q n).nodes p) := fun hn =>
    ⟨Inst.setNode_congr LockNode.invalidReq hn.1, Inst.setNode_congr LockNode.mtx hn.2⟩
  cases h
  case casWon | refused | install | clear => exact hset ⟨rfl, rfl⟩
  case add q hpc hmtx => exact hset (LockNode.sameFlags_addThread (s.nodes q) t)
  case write hpc hcan hn => exact hset (LockNode.sameFlags_lock_X hn)
  case written hpc hmtx hn => exact hset (LockNode.sameFlags_unLock hn)
  case remove hpc hmtx hn => exact hset (LockNode.sameFlags_removeThread hn)
  all_goals exact ⟨rfl, rfl⟩

end Step

/-! ### The X locks -/

section Hold

variable {s s' : Inst nt B} {t : Fin nt} {p q : Nat} {pc : Pc B} {n : LockNode}

/-- The thread goes on with what it holds. -/
theorem HoldInv.goto (hi : HoldInv (s.nodes p) (s.held p)) {nodes : Nat → LockNode} {buffer : Nat → B}
    (hmode : (nodes p).lockMode = (s.nodes p).lockMode) (hcount : (nodes p).count = (s.nodes p).count)
    (hpc : pc.hold p = (s.threads t).hold p) :
    HoldInv (nodes p) (Inst.held p (⟨nodes, buffer, Function.update s.threads t pc⟩ : Inst nt B)) := by
  have hheld : Inst.held p (⟨nodes, buffer, Function.update s.threads t pc⟩ : Inst nt B) = s.held p := by
    have hgoto : (s.goto t pc).held p = s.held p := by
      rw [Inst.held_goto, hpc]
      exact Function.update_eq_self ..
    exact hgoto
  rw [hheld]
  exact hi.of_eq hmode hcount

/-- Nobody holds a page in mode `O`, and mode `P` is set beside it. -/
theorem HoldInv.install (hi : HoldInv (s.nodes p) (s.held p)) (hmode : (s.nodes p).lockMode = .O) :
    HoldInv { s.nodes p with lockMode := .P } (s.held p) := by
  cases hi with
  | invalid _ hcount hheld => exact .valid (.free rfl hcount hheld)
  | valid h => exact absurd hmode h.mode_ne_O

theorem ThreadStep.holdInv (h : ThreadStep t s s') (hi : ∀ p, HoldInv (s.nodes p) (s.held p)) (p : Nat) :
    HoldInv (s'.nodes p) (s'.held p) := by
  have hset : ∀ {q : Nat} {n : LockNode} {pc : Pc B}, n.lockMode = (s.nodes q).lockMode →
      n.count = (s.nodes q).count → pc.hold p = (s.threads t).hold p →
      HoldInv (((s.setNode q n).goto t pc).nodes p) (((s.setNode q n).goto t pc).held p) := fun hmode hcount hpc =>
    (hi p).goto (Inst.setNode_congr LockNode.lockMode hmode) (Inst.setNode_congr LockNode.count hcount) hpc
  -- a call that changes what the thread holds of the page `q`
  have hcall : ∀ {q : Nat} {n : LockNode} {pc : Pc B}, HoldInv n (Function.update (s.held q) t (pc.hold q)) →
      (p ≠ q → pc.hold p = (s.threads t).hold p) →
      HoldInv (((s.setNode q n).goto t pc).nodes p) (((s.setNode q n).goto t pc).held p) := by
    intro q n pc hn hpc
    by_cases hq : p = q
    · rw [Inst.held_goto, Inst.nodes_goto, hq, Inst.nodes_setNode_self]
      exact hn
    · have hnode := Inst.nodes_setNode_of_ne (s := s) (n := n) hq
      exact (hi p).goto (congrArg LockNode.lockMode hnode) (congrArg LockNode.count hnode) (hpc hq)
  cases h
  case casWon hpc hrem | refused hpc hrem | clear hpc => exact hset rfl rfl (by rw [hpc]; rfl)
  case install q buf hpc hmode =>
    refine hcall ?_ fun _ => by rw [hpc]; rfl
    have hnone : s.held q t = none := by rw [Inst.held, hpc]; rfl
    show HoldInv _ (Function.update (s.held q) t none)
    rw [← hnone, Function.update_eq_self]
    exact (hi q).install hmode
  case add q hpc hmtx =>
    obtain ⟨hmode, -, hcount, -⟩ := LockNode.addThread_frame (s.nodes q) t
    exact hset hmode hcount (by rw [hpc]; rfl)
  case remove hpc hmtx hn =>
    obtain ⟨hmode, -, hcount, -⟩ := LockNode.removeThread_frame hn
    exact hset hmode hcount (by rw [hpc]; rfl)
  case write set q f n hpc hcan hn =>
    refine hcall ?_ fun hq => by rw [hpc]; exact if_neg fun h => hq h.symm
    have hP := (LockNode.lock_X_frame hcan hn).1
    have hnone : s.held q t = none := by rw [Inst.held, hpc]; rfl
    obtain ⟨n', hn', hrw⟩ := ((hi q).rw (by rw [hP]; exact LockMode.noConfusion)).lock (m := .writer) hnone hcan
    obtain rfl : n = n' := Option.some.inj (hn.symm.trans hn')
    rw [Pc.hold, if_pos rfl]
    exact .valid hrw
  case written set q n hpc hmtx hn =>
    refine hcall ?_ fun hq => by rw [hpc]; exact (if_neg fun h => hq h.symm).symm
    have hheld : s.held q t ≠ none := by
      rw [Inst.held, hpc, Pc.hold, if_pos rfl]
      exact nofun
    obtain ⟨n', hn', hrw⟩ := ((hi q).rw_of_held hheld).unLock hheld
    obtain rfl : n = n' := Option.some.inj (hn.symm.trans hn')
    exact .valid hrw
  all_goals exact (hi p).goto rfl rfl (by rw [‹s.threads t = _›]; rfl)

end Hold

/-! ### The registered threads -/

namespace LockNode

variable {n n' : LockNode} {thd : Nat}

theorem nodup_addThread (h : n.threadSet.Nodup) : (n.addThread thd).threadSet.Nodup := by
  unfold addThread
  split
  · exact h
  · exact List.nodup_cons.2 ⟨‹_›, h⟩

theorem threadSet_removeThread (h : n.removeThread thd = some n') (hnodup : n.threadSet.Nodup) :
    n'.threadSet.Nodup ∧ thd ∉ n'.threadSet ∧ n'.threadSet ⊆ n.threadSet := by
  unfold removeThread at h
  split at h
  · split at h <;> cases h
    exact ⟨hnodup.erase thd, hnodup.not_mem_erase, List.erase_subset⟩
  · cases h
    exact ⟨hnodup, ‹_›, fun _ => id⟩

end LockNode

/-- The set of `p` after a step of `t`: without double entries, with no new entry but `t`, and with `t` only if it is
registered there. -/
structure Pins (t : Fin nt) (p : Nat) (s s' : Inst nt B) : Prop where
  nodup : (s'.nodes p).threadSet.Nodup
  others : ∀ thd ∈ (s'.nodes p).threadSet, thd ≠ t.val → thd ∈ (s.nodes p).threadSet
  self : t.val ∈ (s'.nodes p).threadSet → p ∈ (s'.threads t).pinned

section Pins

variable {s s' : Inst nt B} {t : Fin nt} {p : Nat}

theorem ThreadStep.pins (h : ThreadStep t s s') (hnodup : (s.nodes p).threadSet.Nodup)
    (hself : t.val ∈ (s.nodes p).threadSet → p ∈ (s.threads t).pinned) : Pins t p s s' := by
  have hkeep : (s'.nodes p).threadSet = (s.nodes p).threadSet → (s.threads t).pinned ⊆ (s'.threads t).pinned →
      Pins t p s s' := by
    intro hset hpinned
    refine ⟨by rw [hset]; exact hnodup, fun thd h _ => by rwa [hset] at h, fun h => hpinned (hself ?_)⟩
    rwa [hset] at h
  cases h
  case casWon hpc hrem | refused hpc hrem | install hpc hmode | clear hpc =>
    exact hkeep (Inst.setNode_congr LockNode.threadSet rfl) (by rw [hpc]; exact List.nil_subset _)
  case write hpc hcan hn =>
    refine hkeep (Inst.setNode_congr LockNode.threadSet (LockNode.lock_frame hn).1) ?_
    rw [hpc, Inst.threads_goto_self]
    exact fun _ => id
  case written hpc hmtx hn =>
    refine hkeep (Inst.setNode_congr LockNode.threadSet (LockNode.unLock_frame hn).2.2.1) ?_
    rw [hpc, Inst.threads_goto_self]
    exact fun _ => id
  case add q hpc hmtx =>
    by_cases hq : p = q
    · subst hq
      refine ⟨?_, fun thd h hne => ?_, fun _ => ?_⟩
      · rw [Inst.nodes_goto, Inst.nodes_setNode_self]
        exact LockNode.nodup_addThread hnodup
      · rw [Inst.nodes_goto, Inst.nodes_setNode_self, LockNode.mem_addThread] at h
        exact h.resolve_left hne
      · rw [Inst.threads_goto_self]
        exact List.mem_append_right _ (List.mem_singleton_self _)
    · refine hkeep (congrArg _ (Inst.nodes_setNode_of_ne hq)) ?_
      rw [hpc, Inst.threads_goto_self]
      exact List.subset_append_left ..
  case remove q n hpc hmtx hn =>
    by_cases hq : p = q
    · subst hq
      obtain ⟨hnodup', hnot, hsub⟩ := LockNode.threadSet_removeThread hn hnodup
      rw [← Inst.nodes_setNode_self (s := s) (p := p) (n := n)] at hnodup' hnot hsub
      exact ⟨hnodup', fun thd h _ => hsub h, fun h => absurd h hnot⟩
    · have hset : ((s.setNode q n).nodes p).threadSet = (s.nodes p).threadSet :=
        congrArg _ (Inst.nodes_setNode_of_ne hq)
      refine ⟨by rw [Inst.nodes_goto, hset]; exact hnodup, fun thd h _ => ?_, fun h => ?_⟩ <;>
        rw [Inst.nodes_goto, hset] at h
      · exact h
      · have hmem := hself h
        rw [hpc] at hmem
        rw [Inst.threads_goto_self]
        exact (List.mem_cons.1 hmem).resolve_left hq
  all_goals
    refine hkeep rfl ?_
    rw [‹s.threads t = _›, Inst.threads_goto_self]
    exact fun _ => id

end Pins

/-! ### What holds in an instance -/

/-- The set is in ascending order, an answer is RCOK, and the page of `WriteRow` is in the set. -/
structure Pc.Ok (pc : Pc B) : Prop where
  sorted : pc.pages.Pairwise (· < ·)
  rcok : pc.refused = none
  target : ∀ p, pc.target = some p → p ∈ pc.pinned

structure RunOk (s : Inst nt B) : Prop where
  pc : ∀ t, (s.threads t).Ok
  hold : ∀ p, HoldInv (s.nodes p) (s.held p)
  nodup : ∀ p, (s.nodes p).threadSet.Nodup
  member : ∀ p, ∀ thd ∈ (s.nodes p).threadSet, ∃ t : Fin nt, t.val = thd ∧ p ∈ (s.threads t).pinned
  fetcher : ∀ p, (s.nodes p).lockRemoting = true → ∃ t, (s.threads t).fetching = some p
  lost : ∀ t p, (s.threads t).lost = some p → (s.nodes p).lockRemoting = true
  waits : ∀ t p, (s.threads t).waitsFor = some p →
    (s.nodes p).lockMode ≠ .O ∨ ∃ t', (s.threads t').asks = some p

theorem Pc.Ok.of_threadStep {s s' : Inst nt B} {t : Fin nt} (h : ThreadStep t s s') (hff : FetchFrame t s s')
    (hok : (s.threads t).Ok) : (s'.threads t).Ok := by
  refine ⟨hok.sorted.sublist h.pages_sublist, ?_, fun p hp => ?_⟩
  · unfold Pc.refused
    split
    · exact absurd ‹_› (hff.noReplied _ _ _ _ _)
    · rfl
  · have htarget := hok.target
    cases h <;> rw [Inst.threads_goto_self] at hp ⊢ <;> cases hp <;> rw [‹s.threads t = _›] at htarget
    all_goals exact htarget _ rfl

namespace RunOk

variable {s s' : Inst nt B} {t : Fin nt} {p : Nat}

theorem init (buf : Nat → B) : RunOk (⟨fun _ => .init, buf, fun _ => .idle⟩ : Inst nt B) where
  pc _ := ⟨List.Pairwise.nil, rfl, nofun⟩
  hold _ := .invalid rfl rfl fun _ => rfl
  nodup _ := List.nodup_nil
  member := nofun
  fetcher := nofun
  lost := nofun
  waits := nofun

theorem pinned_of_mem (hi : RunOk s) (h : t.val ∈ (s.nodes p).threadSet) : p ∈ (s.threads t).pinned := by
  obtain ⟨t', ht', hp⟩ := hi.member p t.val h
  rwa [Fin.ext ht'] at hp

/-- A thread moves: it installs what it has asked for, and clears `lock_remoting` when no other one has just lost the
compare-and-swap. -/
theorem move (hi : RunOk s) (hinst : InstOk s) (hf : ThreadFrame t s s') (hff : FetchFrame t s s')
    (hpc : (s'.threads t).Ok) (hhold : ∀ p, HoldInv (s'.nodes p) (s'.held p)) (hpins : ∀ p, Pins t p s s')
    (hclear : ∀ p, (s.threads t).clears = some p → ∀ t', (s.threads t').lost ≠ some p)
    (hasks : ∀ p, (s.threads t).asks = some p → (s'.nodes p).lockMode ≠ .O) : RunOk s' := by
  have hkeep : ∀ p, ((s.nodes p).lockMode ≠ .O ∨ ∃ t', (s.threads t').asks = some p) →
      (s'.nodes p).lockMode ≠ .O ∨ ∃ t', (s'.threads t').asks = some p := by
    rintro p (hm | ⟨t', ht'⟩)
    · exact .inl (hf.keeps p hm)
    · by_cases hne : t' = t
      · rw [hne] at ht'
        exact .inl (hasks p ht')
      · exact .inr ⟨t', by rw [hf.others t' hne]; exact ht'⟩
  refine ⟨fun t' => ?_, hhold, fun p => (hpins p).nodup, fun p thd h => ?_, fun p h => ?_, fun t' p h => ?_,
    fun t' p h => hkeep p ?_⟩
  · by_cases hne : t' = t
    · rw [hne]; exact hpc
    · rw [hf.others t' hne]; exact hi.pc t'
  · by_cases hthd : thd = t.val
    · rw [hthd] at h
      exact ⟨t, hthd.symm, (hpins p).self h⟩
    · obtain ⟨t', ht', hp⟩ := hi.member p thd ((hpins p).others thd h hthd)
      exact ⟨t', ht', by rw [hf.others t' fun h => hthd (by rw [← ht', h])]; exact hp⟩
  · rcases hff.kept p h with h | ⟨h, hnot⟩
    · exact ⟨t, h⟩
    · obtain ⟨t', ht'⟩ := hi.fetcher p h
      exact ⟨t', by rw [hf.others t' (by rintro rfl; exact hnot ht')]; exact ht'⟩
  · by_cases hne : t' = t
    · rw [hne] at h
      exact (hff.waits p (Pc.waitsFor_of_lost h)).1
    · rw [hf.others t' hne] at h
      rcases hff.cleared p (hi.lost t' p h) with h' | h' | h'
      · exact h'
      · exact absurd h (hclear p h' t')
      · rw [(hi.pc t).rcok] at h'
        cases h'
  · by_cases hne : t' = t
    · rw [hne] at h
      rcases (hff.waits p h).2 with h | ⟨hrem, -⟩
      · exact hi.waits t p h
      · obtain ⟨t', ht'⟩ := hi.fetcher p hrem
        exact (Pc.fetching_cases ht').elim (fun h => .inr ⟨t', h⟩) fun h => .inl ((hinst.thread t').passed p h)
    · rw [hf.others t' hne] at h
      exact hi.waits t' p h

theorem threadStep (hi : RunOk s) (hinst : InstOk s) (h : ThreadStep t s s')
    (hclear : ∀ p, (s.threads t).clears = some p → ∀ t', (s.threads t').lost ≠ some p) : RunOk s' :=
  hi.move hinst (.of_threadStep h) (.of_threadStep h) ((hi.pc t).of_threadStep h (.of_threadStep h)) (h.holdInv hi.hold)
    (fun p => h.pins (hi.nodup p) hi.pinned_of_mem) hclear fun _ hp => h.answered hp (hi.pc t).rcok

/-- A transaction starts, or goes on in its body. -/
theorem goto (hi : RunOk s) (hinst : InstOk s) {pc : Pc B} (hfetch₀ : (s.threads t).fetching = none) (hpc : pc.Ok)
    (hfetch : pc.fetching = none) (hwaits : pc.waitsFor = none) (hhold : ∀ p, pc.hold p = (s.threads t).hold p)
    (hpinned : (s.threads t).pinned ⊆ pc.pinned) : RunOk (s.goto t pc) := by
  have hasks : pc.asks = none := Option.eq_none_iff_forall_ne_some.2 fun p h => by
    rw [Pc.fetching_of_asks h] at hfetch
    cases hfetch
  have hreply : pc.reply? = none := Option.eq_none_iff_forall_ne_some.2 fun p h => by
    rw [Pc.fetching_of_reply h] at hfetch
    cases hfetch
  refine hi.move hinst (.goto hreply (by rw [hfetch]; exact nofun)) (.goto hasks (by rw [hfetch₀]; exact nofun)
    (by rw [hwaits]; exact nofun)) (by rw [Inst.threads_goto_self]; exact hpc)
    (fun p => (hi.hold p).goto rfl rfl (hhold p)) (fun p => ⟨hi.nodup p, fun _ h _ => h, fun h => ?_⟩) ?_ ?_
  · rw [Inst.threads_goto_self]
    exact hpinned (hi.pinned_of_mem h)
  · intro p hp
    have : (s.threads t).fetching = some p := by
      unfold Pc.clears at hp
      split at hp <;> cases hp
      rw [‹s.threads t = _›]
      rfl
    rw [hfetch₀] at this
    cases this
  · intro p hp
    rw [Pc.fetching_of_asks hp] at hfetch₀
    cases hfetch₀

/-- The reply of the global lock reaches the thread. -/
theorem answer (hi : RunOk s) {done rest : List Nat} {buf : B} (hpc : s.threads t = .requested done p rest) :
    RunOk (s.goto t (.replied done p rest .rcok buf)) := by
  have hsame : ∀ {β : Type} (f : Pc B → β), f (.replied done p rest .rcok buf) = f (.requested done p rest) →
      ∀ t', f ((s.goto t (.replied done p rest .rcok buf)).threads t') = f (s.threads t') := by
    intro β f hf t'
    by_cases hne : t' = t
    · rw [hne, Inst.threads_goto_self, hpc, hf]
    · rw [Inst.threads_goto_of_ne hne]
  have hasks := hsame Pc.asks rfl
  refine ⟨fun t' => ⟨?_, ?_, fun q hq => ?_⟩, fun q => (hi.hold q).goto rfl rfl (by rw [hpc]; rfl), hi.nodup,
    fun q thd h => ?_, fun q h => ?_, fun t' q h => ?_, fun t' q h => ?_⟩
  · rw [hsame Pc.pages rfl]
    exact (hi.pc t').sorted
  · rw [hsame Pc.refused rfl]
    exact (hi.pc t').rcok
  · rw [hsame Pc.target rfl] at hq
    rw [hsame Pc.pinned rfl]
    exact (hi.pc t').target q hq
  · obtain ⟨t', ht', hq⟩ := hi.member q thd h
    exact ⟨t', ht', by rw [hsame Pc.pinned rfl]; exact hq⟩
  · obtain ⟨t', ht'⟩ := hi.fetcher q h
    exact ⟨t', by rw [hsame Pc.fetching rfl]; exact ht'⟩
  · rw [hsame Pc.lost rfl] at h
    exact hi.lost t' q h
  · rw [hsame Pc.waitsFor rfl] at h
    simp only [hasks]
    exact hi.waits t' q h

/-- `LockInvalid` changes a node; it lowers the mode of a page that no thread holds or spins for. -/
theorem invalid (hi : RunOk s) {n : LockNode} (hset : n.threadSet = (s.nodes p).threadSet)
    (hrem : n.lockRemoting = (s.nodes p).lockRemoting) (hcount : n.count = (s.nodes p).count)
    (hmode : n.lockMode = (s.nodes p).lockMode ∨ n.lockMode = .O ∧
      ∀ t, (s.threads t).waitsFor ≠ some p ∧ s.held p t = none) : RunOk (s.setNode p n) := by
  have hsets : ∀ q, ((s.setNode p n).nodes q).threadSet = (s.nodes q).threadSet := fun q =>
    Inst.setNode_congr LockNode.threadSet hset
  have hrems : ∀ q, ((s.setNode p n).nodes q).lockRemoting = (s.nodes q).lockRemoting := fun q =>
    Inst.setNode_congr LockNode.lockRemoting hrem
  have hmodes : ∀ q, ((s.setNode p n).nodes q).lockMode = (s.nodes q).lockMode ∨ q = p ∧
      ((s.setNode p n).nodes q).lockMode = .O ∧ ∀ t, (s.threads t).waitsFor ≠ some q ∧ s.held q t = none := by
    intro q
    by_cases hq : q = p
    · rw [hq, Inst.nodes_setNode_self]
      exact hmode.imp_right fun h => ⟨rfl, h⟩
    · rw [Inst.nodes_setNode_of_ne hq]
      exact .inl rfl
  have hcounts : ∀ q, ((s.setNode p n).nodes q).count = (s.nodes q).count := fun q =>
    Inst.setNode_congr LockNode.count hcount
  refine ⟨hi.pc, fun q => ?_, fun q => by rw [hsets]; exact hi.nodup q, fun q thd h => ?_, fun q h => ?_,
    fun t q h => ?_, fun t q h => ?_⟩
  · rcases hmodes q with hm | ⟨-, hO, hfree⟩
    · exact (hi.hold q).of_eq hm (hcounts q)
    · have hheld : ∀ t, s.held q t = none := fun t => (hfree t).2
      exact .invalid hO ((hcounts q).trans ((hi.hold q).count_eq_zero hheld)) hheld
  · rw [hsets] at h
    exact hi.member q thd h
  · rw [hrems] at h
    exact hi.fetcher q h
  · rw [hrems]
    exact hi.lost t q h
  · rcases hmodes q with hm | ⟨-, -, hfree⟩
    · rw [hm]
      exact hi.waits t q h
    · exact absurd h (hfree t).1

end RunOk

/-! ### The `Invalid` calls -/

namespace InvalidStage

/-- `LockInvalid` has been called at the owner and has not returned. -/
def called : InvalidStage B → Bool
  | .waiting | .invalidated _ => true
  | .sent | .returned _ _ => false

/-- `LockInvalid` has the mutex of the node. -/
def locks : InvalidStage B → Bool
  | .invalidated _ => true
  | _ => false

def Rcok : InvalidStage B → Prop
  | .invalidated rc | .returned rc _ => rc = .rcok
  | _ => True

theorem called_of_locks {stage : InvalidStage B} (h : stage.locks = true) : stage.called = true := by
  cases stage <;> first | rfl | cases h

end InvalidStage

section InvalidStep

variable {s : PageSys ni nt B} {p q : Nat} {v : Serving ni nt B} {stage : InvalidStage B} {n : LockNode}

theorem invalidStep_serving : ((s.invalidStep p v stage n).global p).serving = some { v with stage := stage } := by
  rw [PageSys.invalidStep, setGlobal_self]

theorem invalidStep_global (hq : q ≠ p) : (s.invalidStep p v stage n).global q = s.global q := by
  rw [PageSys.invalidStep, setGlobal_of_ne hq, setInst_global]

theorem invalidStep_writeInsId : ((s.invalidStep p v stage n).global q).writeInsId = (s.global q).writeInsId := by
  by_cases hq : q = p
  · rw [hq, PageSys.invalidStep, setGlobal_self]
  · rw [invalidStep_global hq]

theorem invalidStep_nodes (j : Fin ni) (q : Nat) : ((s.invalidStep p v stage n).insts j).nodes q =
    if j = v.owner ∧ q = p then n else (s.insts j).nodes q := by
  rw [PageSys.invalidStep, setGlobal_insts]
  by_cases hj : j = v.owner
  · rw [hj, setInst_self]
    by_cases hq : q = p
    · rw [if_pos ⟨rfl, hq⟩, hq, Inst.nodes_setNode_self]
    · rw [if_neg fun h => hq h.2, Inst.nodes_setNode_of_ne hq]
  · rw [setInst_of_ne hj, if_neg fun h => hj h.1]

end InvalidStep

/-- The recorded owner has the page, or its reply is on the way, or it has given the page up for the call that is
served; `LockInvalid` is what the flags of a node say. -/
structure ServeInv (s : PageSys ni nt B) : Prop where
  rcok : ∀ p v, (s.global p).serving = some v → v.stage.Rcok
  owner : ∀ i p, (s.global p).writeInsId = some i → s.mode i p ≠ .O ∨
    (∃ t, ((s.insts i).threads t).reply? = some p) ∨ ∃ v, (s.global p).serving = some v ∧ v.stage.past = true
  req : ∀ i p, ((s.insts i).nodes p).invalidReq = true →
    ∃ v, (s.global p).serving = some v ∧ v.owner = i ∧ v.stage.called = true
  mtx : ∀ i p, ((s.insts i).nodes p).mtx = true →
    ∃ v, (s.global p).serving = some v ∧ v.owner = i ∧ v.stage.locks = true

namespace ServeInv

variable {s : PageSys ni nt B} {i : Fin ni} {t : Fin nt} {p : Nat}

theorem init (buf : Nat → B) (ibuf : Fin ni → Nat → B) : ServeInv (PageSys.init buf ibuf : PageSys ni nt B) :=
  ⟨nofun, nofun, nofun, nofun⟩

/-- A thread of `i` moves. -/
theorem setInst (hi : ServeInv s) {inst : Inst nt B}
    (hkeeps : ∀ p, s.mode i p ≠ .O → (inst.nodes p).lockMode ≠ .O)
    (hflags : ∀ p, ((s.insts i).nodes p).SameFlags (inst.nodes p))
    (hreply : ∀ t p, ((s.insts i).threads t).reply? = some p →
      (inst.nodes p).lockMode ≠ .O ∨ (inst.threads t).reply? = some p) : ServeInv (s.setInst i inst) := by
  refine ⟨hi.rcok, fun j q h => ?_, fun j q h => ?_, fun j q h => ?_⟩ <;> by_cases hj : j = i
  · subst hj
    rw [PageSys.mode, setInst_self]
    rcases hi.owner j q h with h | ⟨t, h⟩ | h
    · exact .inl (hkeeps q h)
    · exact (hreply t q h).imp_right fun h => .inl ⟨t, h⟩
    · exact .inr (.inr h)
  · rw [PageSys.mode, setInst_of_ne hj]
    exact hi.owner j q h
  · subst hj
    rw [setInst_self, (hflags q).1] at h
    exact hi.req j q h
  · rw [setInst_of_ne hj] at h
    exact hi.req j q h
  · subst hj
    rw [setInst_self, (hflags q).2] at h
    exact hi.mtx j q h
  · rw [setInst_of_ne hj] at h
    exact hi.mtx j q h

/-- A transaction starts, or goes on in its body. -/
theorem goto (hi : ServeInv s) {pc : Pc B} (hpc : ((s.insts i).threads t).reply? = none) :
    ServeInv (s.setInst i ((s.insts i).goto t pc)) := by
  refine hi.setInst (fun _ => id) (fun _ => ⟨rfl, rfl⟩) fun t' q h => .inr ?_
  have hne : t' ≠ t := by
    rintro rfl
    rw [hpc] at h
    cases h
  rwa [Inst.threads_goto_of_ne hne]

theorem threadStep (hi : ServeInv s) {inst : Inst nt B} (h : ThreadStep t (s.insts i) inst)
    (hrc : ((s.insts i).threads t).refused = none) : ServeInv (s.setInst i inst) := by
  have hf := ThreadFrame.of_threadStep h
  refine hi.setInst hf.keeps h.sameFlags fun t' q hq => ?_
  by_cases hne : t' = t
  · rw [hne] at hq
    exact .inl (h.answered (Pc.asks_of_reply hq) hrc)
  · rw [hf.others t' hne]
    exact .inr hq

/-- The global lock answers the request of `(i, t)` for `p`. -/
theorem answer (hi : ServeInv s) {done rest : List Nat} {buf : B}
    (hpc : (s.insts i).threads t = .requested done p rest)
    (hfree : ∀ v, (s.global p).serving = some v → v.stage.called = false) :
    ServeInv ((s.setGlobal p ⟨some i, none⟩).setInst i ((s.insts i).goto t (.replied done p rest .rcok buf))) := by
  have hgoto : ServeInv (s.setInst i ((s.insts i).goto t (.replied done p rest .rcok buf))) :=
    hi.goto (by rw [hpc]; rfl)
  refine ⟨fun q v h => ?_, fun j q h => ?_, fun j q h => ?_, fun j q h => ?_⟩ <;> by_cases hq : q = p
  · rw [hq, setInst_global, setGlobal_self] at h
    cases h
  · rw [setInst_global, setGlobal_of_ne hq] at h
    exact hi.rcok q v h
  · rw [hq, setInst_global, setGlobal_self] at h
    cases h
    refine .inr (.inl ⟨t, ?_⟩)
    rw [setInst_self, Inst.threads_goto_self, hq]
    rfl
  · rw [setInst_global, setGlobal_of_ne hq] at h ⊢
    exact hgoto.owner j q h
  · obtain ⟨v, hv, -, hcall⟩ := hgoto.req j q h
    rw [hq] at hv
    rw [hfree v hv] at hcall
    cases hcall
  · rw [setInst_global, setGlobal_of_ne hq]
    exact hgoto.req j q h
  · obtain ⟨v, hv, -, hlock⟩ := hgoto.mtx j q h
    rw [hq] at hv
    have hcall := InvalidStage.called_of_locks hlock
    rw [hfree v hv] at hcall
    cases hcall
  · rw [setInst_global, setGlobal_of_ne hq]
    exact hgoto.mtx j q h

/-- The owner of `p` is sent `Invalid`. -/
theorem send (hi : ServeInv s) {o : Fin ni} (hg : s.global p = ⟨some o, none⟩) :
    ServeInv (s.setGlobal p ⟨some o, some ⟨i, t, o, .sent⟩⟩) := by
  have hnone : ∀ {v}, (s.global p).serving ≠ some v := by rw [hg]; exact nofun
  refine ⟨fun q v h => ?_, fun j q h => ?_, fun j q h => ?_, fun j q h => ?_⟩ <;> by_cases hq : q = p
  · rw [hq, setGlobal_self] at h
    cases h
    trivial
  · rw [setGlobal_of_ne hq] at h
    exact hi.rcok q v h
  · subst hq
    rw [setGlobal_self] at h ⊢
    rcases hi.owner j q (by rw [hg]; exact h) with h | h | ⟨v, hv, -⟩
    · exact .inl h
    · exact .inr (.inl h)
    · exact absurd hv hnone
  · rw [setGlobal_of_ne hq] at h ⊢
    exact hi.owner j q h
  · obtain ⟨v, hv, -⟩ := hi.req j q h
    rw [hq] at hv
    exact absurd hv hnone
  · rw [setGlobal_of_ne hq]
    exact hi.req j q h
  · obtain ⟨v, hv, -⟩ := hi.mtx j q h
    rw [hq] at hv
    exact absurd hv hnone
  · rw [setGlobal_of_ne hq]
    exact hi.mtx j q h

/-- The `Invalid` call of `p` moves on. -/
theorem invalid (hi : ServeInv s) {v : Serving ni nt B} {stage : InvalidStage B} {n : LockNode}
    (hs : (s.global p).serving = some v) (hrc : stage.Rcok)
    (hmode : stage.past = true ∨ v.stage.past = false ∧ n.lockMode = s.mode v.owner p)
    (hreq : n.invalidReq = true → stage.called = true) (hmtx : n.mtx = true → stage.locks = true) :
    ServeInv (s.invalidStep p v stage n) := by
  -- the flags of the page are set at the owner only
  have hflag : ∀ {j : Fin ni} {stage' : InvalidStage B → Bool}, j ≠ v.owner →
      ¬ ∃ w, (s.global p).serving = some w ∧ w.owner = j ∧ stage' w.stage = true := by
    rintro j stage' hj ⟨w, hw, rfl, -⟩
    rw [hs] at hw
    cases hw
    exact hj rfl
  refine ⟨fun q w h => ?_, fun j q h => ?_, fun j q h => ?_, fun j q h => ?_⟩ <;> by_cases hq : q = p
  · rw [hq, invalidStep_serving] at h
    cases h
    exact hrc
  · rw [invalidStep_global hq] at h
    exact hi.rcok q w h
  · subst hq
    rcases hmode with hpast | ⟨hnot, hm⟩
    · exact .inr (.inr ⟨_, invalidStep_serving, hpast⟩)
    · rw [invalidStep_writeInsId] at h
      rw [PageSys.mode, invalidStep_nodes, invalidStep_threads]
      rcases hi.owner j q h with h | h | ⟨w, hw, hpast⟩
      · refine .inl ?_
        split
        · rename_i hj
          rw [hm, ← hj.1]
          exact h
        · exact h
      · exact .inr (.inl h)
      · rw [hs] at hw
        cases hw
        rw [hnot] at hpast
        cases hpast
  · rw [invalidStep_global hq] at h ⊢
    rw [PageSys.mode, invalidStep_nodes, if_neg fun h => hq h.2, invalidStep_threads]
    exact hi.owner j q h
  · subst hq
    rw [invalidStep_nodes] at h
    split at h
    · rename_i hj
      exact ⟨_, invalidStep_serving, hj.1.symm, hreq h⟩
    · rename_i hj
      exact absurd (hi.req j q h) (hflag fun h => hj ⟨h, rfl⟩)
  · rw [invalidStep_nodes, if_neg fun h => hq h.2] at h
    rw [invalidStep_global hq]
    exact hi.req j q h
  · subst hq
    rw [invalidStep_nodes] at h
    split at h
    · rename_i hj
      exact ⟨_, invalidStep_serving, hj.1.symm, hmtx h⟩
    · rename_i hj
      exact absurd (hi.mtx j q h) (hflag fun h => hj ⟨h, rfl⟩)
  · rw [invalidStep_nodes, if_neg fun h => hq h.2] at h
    rw [invalidStep_global hq]
    exact hi.mtx j q h

end ServeInv

/-! ### The system -/

/-- No thread is between its failed compare-and-swap and the assertion behind it when `lock_remoting` is cleared, and
none spins for a page that is invalidated. -/
def SpinOk (s : PageSys ni nt B) : PageEv ni nt B → Prop
  | .thread i t => ∀ p ∈ ((s.insts i).threads t).clears, ∀ t', ((s.insts i).threads t').lost ≠ some p
  | .invalidate p => ∀ v ∈ (s.global p).serving, ∀ t, ((s.insts v.owner).threads t).waitsFor ≠ some p
  | _ => True

instance (s : PageSys ni nt B) (e : PageEv ni nt B) : Decidable (SpinOk s e) :=
  match e with
  | .thread i t => inferInstanceAs (Decidable
      (∀ p ∈ ((s.insts i).threads t).clears, ∀ t', ((s.insts i).threads t').lost ≠ some p))
  | .invalidate p => inferInstanceAs (Decidable
      (∀ v ∈ (s.global p).serving, ∀ t, ((s.insts v.owner).threads t).waitsFor ≠ some p))
  | .start .. | .write .. | .finish .. | .serve .. | .invalidArrive _ | .invalidReturn _ | .grant _ => .isTrue trivial

def FinishOk (s : PageSys ni nt B) (e : PageEv ni nt B) : Prop := PinOk s e ∧ SpinOk s e

instance (s : PageSys ni nt B) (e : PageEv ni nt B) : Decidable (FinishOk s e) := inferInstanceAs (Decidable (_ ∧ _))

structure FinishInv (s : PageSys ni nt B) : Prop where
  pin : PinInv s
  run : ∀ i, RunOk (s.insts i)
  serve : ServeInv s

namespace FinishInv

variable {s s' : PageSys ni nt B} {e : PageEv ni nt B}

theorem init (buf : Nat → B) (ibuf : Fin ni → Nat → B) : FinishInv (PageSys.init buf ibuf : PageSys ni nt B) :=
  ⟨.init buf ibuf, fun i => .init (ibuf i), .init buf ibuf⟩

theorem setInst {i : Fin ni} {inst : Inst nt B} (hi : ∀ j, RunOk (s.insts j)) (h : RunOk inst) (j : Fin ni) :
    RunOk ((s.setInst i inst).insts j) := by
  by_cases hj : j = i
  · rw [hj, setInst_self]; exact h
  · rw [setInst_of_ne hj]; exact hi j

/-- Nobody holds a page when `LockInvalid` has waited. -/
theorem held_eq_none (hi : FinishInv s) {i : Fin ni} {p : Nat} (hcan : ((s.insts i).nodes p).canInvalid = true)
    (t : Fin nt) : (s.insts i).held p t = none := by
  rcases hheld : (s.insts i).held p t with _ | h
  · rfl
  · have hp : ((s.insts i).threads t).target = some p := by
      unfold Inst.held Pc.hold at hheld
      split at hheld
      · split at hheld <;> cases hheld
        rename_i heq hq
        rw [heq, ← hq]
        rfl
      · split at hheld <;> cases hheld
        rename_i heq hq
        rw [heq, ← hq]
        rfl
      · cases hheld
    have hinst := hi.pin.inst i
    have hpin := (hinst.thread t).pinned p (((hi.run i).pc t).target p hp)
    rw [LockNode.not_canInvalid (hinst.counted p) hpin.2] at hcan
    cases hcan

theorem run_step (hi : FinishInv s) (hg : FinishOk s e) (h : s.step e = some s') : ∀ i, RunOk (s'.insts i) := by
  cases PageStep.of_step h with
  | @start i t set hpc hset =>
    refine setInst hi.run ((hi.run i).goto (hi.pin.inst i) (by rw [hpc]; rfl) ⟨hset, rfl, nofun⟩ rfl rfl
      (fun _ => by rw [hpc]; rfl) ?_)
    rw [hpc]
    exact fun _ => id
  | @thread i t inst ht => exact setInst hi.run ((hi.run i).threadStep (hi.pin.inst i) ht fun p hp => hg.2 p hp)
  | @write i t p f set hpc hp =>
    have hok := (hi.run i).pc t
    rw [hpc] at hok
    refine setInst hi.run ((hi.run i).goto (hi.pin.inst i) (by rw [hpc]; rfl) ⟨hok.sorted, rfl, ?_⟩ rfl rfl
      (fun _ => by rw [hpc]; rfl) ?_)
    · rintro q ⟨⟩
      exact hp
    · rw [hpc]
      exact fun _ => id
  | @finish i t set hpc =>
    have hok := (hi.run i).pc t
    rw [hpc] at hok
    refine setInst hi.run ((hi.run i).goto (hi.pin.inst i) (by rw [hpc]; rfl) ⟨hok.sorted, rfl, nofun⟩ rfl rfl
      (fun _ => by rw [hpc]; rfl) ?_)
    rw [hpc]
    exact fun _ => id
  | serveFree hpc hgl => exact setInst hi.run ((hi.run _).answer hpc)
  | serveOwned hpc hgl => exact hi.run
  | invalidArrive hs hv => exact setInst hi.run ((hi.run _).invalid rfl rfl rfl (.inl rfl))
  | @invalidate p v hs hv hcan =>
    exact setInst hi.run ((hi.run _).invalid rfl rfl rfl
      (.inr ⟨rfl, fun t => ⟨hg.2 v hs t, hi.held_eq_none hcan t⟩⟩))
  | invalidReturn hs hv => exact setInst hi.run ((hi.run _).invalid rfl rfl rfl (.inl rfl))
  | @grant p q v rc rc' buf done rest hs hv hrc hpc =>
    have hok := hi.serve.rcok p v hs
    rw [hv] at hok
    obtain rfl : rc = .rcok := hok
    cases hrc
    exact setInst hi.run ((hi.run _).answer hpc)

theorem serve_step (hi : FinishInv s) (h : s.step e = some s') : ServeInv s' := by
  cases PageStep.of_step h with
  | start hpc hset => exact hi.serve.goto (by rw [hpc]; rfl)
  | thread ht => exact hi.serve.threadStep ht ((hi.run _).pc _).rcok
  | write hpc hp => exact hi.serve.goto (by rw [hpc]; rfl)
  | finish hpc => exact hi.serve.goto (by rw [hpc]; rfl)
  | serveFree hpc hgl => exact hi.serve.answer hpc (by rw [hgl]; exact nofun)
  | serveOwned hpc hgl => exact hi.serve.send hgl
  | @invalidArrive p v hs hv =>
    refine hi.serve.invalid hs trivial (.inr ⟨by rw [hv]; rfl, rfl⟩) (fun _ => rfl) fun hm => ?_
    obtain ⟨w, hw, -, hlock⟩ := hi.serve.mtx v.owner p hm
    rw [hs] at hw
    cases hw
    rw [hv] at hlock
    cases hlock
  | invalidate hs hv hcan => exact hi.serve.invalid hs rfl (.inl rfl) (fun _ => rfl) fun _ => rfl
  | invalidReturn hs hv => exact hi.serve.invalid hs rfl (.inl rfl) nofun nofun
  | @grant p q v rc rc' buf done rest hs hv hrc hpc =>
    obtain ⟨-, done', rest', hpc'⟩ := hi.pin.own.serving p v hs
    rw [hpc] at hpc'
    cases hpc'
    have hok := hi.serve.rcok _ v hs
    rw [hv] at hok
    obtain rfl : rc = .rcok := hok
    cases hrc
    refine hi.serve.answer hpc fun w hw => ?_
    rw [hs] at hw
    cases hw
    rw [hv]
    rfl

theorem step (hi : FinishInv s) (hg : FinishOk s e) (h : s.step e = some s') : FinishInv s' :=
  ⟨⟨hi.pin.own.step hg.1.replyOk h, hi.pin.inst_step hg.1 h⟩, hi.run_step hg h, hi.serve_step h⟩

theorem reach (h : (pageLts ni nt B).Reach FinishOk s) : FinishInv s := by
  refine h.inv ?_ fun _ _ _ hi hg hs => hi.step hg hs
  rintro _ ⟨buf, ibuf, rfl⟩
  exact init buf ibuf

end FinishInv

end Dbx1000
