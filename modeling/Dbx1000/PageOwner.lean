import Dbx1000.PageLock

/-!
# One owner per page

The global lock believes that the instance it answered last holds the page. The instance believes so
only when it has installed the reply, and an `Invalid` that overtakes the reply finds mode `O`, takes
effect at once and lets the next instance in; the late reply then installs `P` beside it. When no
`Invalid` takes effect at an instance that a granting reply is still on its way to (`ReplyOk`), the
mode of an instance and the recorded owner agree.
-/

namespace Dbx1000

variable {ni nt : Nat} {B : Type}

/-- The page of a granting `LockRemote` reply that is not installed yet. -/
def Pc.reply? : Pc B → Option Nat
  | .replied _ p _ .rcok _ => some p
  | _ => none

/-- The page the thread fetches: it has set `lock_remoting` and not cleared it. -/
def Pc.fetching : Pc B → Option Nat
  | .requested _ p _ | .replied _ p _ _ _ | .put _ p _ _ | .clear _ p _ => some p
  | _ => none

/-! ### What a thread can do to its instance -/

/-- The effect of a step of the thread `t` on its instance. -/
structure ThreadFrame (t : Fin nt) (s s' : Inst nt B) : Prop where
  others : ∀ t', t' ≠ t → s'.threads t' = s.threads t'
  noReply : (s'.threads t).reply? = none
  keeps : ∀ p, (s.nodes p).lockMode ≠ .O → (s'.nodes p).lockMode ≠ .O
  installs : ∀ p, (s'.nodes p).lockMode ≠ .O → (s.nodes p).lockMode ≠ .O ∨ (s.threads t).reply? = some p
  remoting : ∀ p, (s.nodes p).lockRemoting = true →
    (s'.nodes p).lockRemoting = true ∨ (s.threads t).fetching = some p
  fetches : ∀ p, (s'.threads t).fetching = some p →
    (s.threads t).fetching = some p ∨ (s.nodes p).lockRemoting = false
  members : ∀ p (t' : Fin nt), t' ≠ t → t'.val ∈ (s.nodes p).threadSet → t'.val ∈ (s'.nodes p).threadSet
  counted : ∀ p, (s.nodes p).Counted → (s'.nodes p).Counted

namespace ThreadFrame

variable {s s' : Inst nt B} {t : Fin nt} {pc : Pc B}

theorem of_nodes_eq (hn : s'.nodes = s.nodes) (ht : s'.threads = Function.update s.threads t pc)
    (hpc : pc.reply? = none) (hfetch : ∀ p, pc.fetching = some p → (s.threads t).fetching = some p) :
    ThreadFrame t s s' where
  others t' h := by rw [ht]; exact Function.update_of_ne h ..
  noReply := by rw [ht, Function.update_self]; exact hpc
  keeps p h := by rw [hn]; exact h
  installs p h := by rw [hn] at h; exact .inl h
  remoting p h := by rw [hn]; exact .inl h
  fetches p h := by rw [ht, Function.update_self] at h; exact .inl (hfetch p h)
  members p t' _ h := by rw [hn]; exact h
  counted p h := by rw [hn]; exact h

theorem goto (hpc : pc.reply? = none) (hfetch : ∀ p, pc.fetching = some p → (s.threads t).fetching = some p) :
    ThreadFrame t s (s.goto t pc) := of_nodes_eq rfl rfl hpc hfetch

/-- A step that changes the node of one page. -/
theorem setNode {p : Nat} {n : LockNode} (hpc : pc.reply? = none)
    (hkeeps : (s.nodes p).lockMode ≠ .O → n.lockMode ≠ .O)
    (hinst : n.lockMode ≠ .O → (s.nodes p).lockMode ≠ .O ∨ (s.threads t).reply? = some p)
    (hrem : (s.nodes p).lockRemoting = true → n.lockRemoting = true ∨ (s.threads t).fetching = some p)
    (hfetch : ∀ q, pc.fetching = some q → (s.threads t).fetching = some q ∨ (s.nodes q).lockRemoting = false)
    (hmem : ∀ t' : Fin nt, t' ≠ t → t'.val ∈ (s.nodes p).threadSet → t'.val ∈ n.threadSet)
    (hcount : (s.nodes p).Counted → n.Counted) : ThreadFrame t s ((s.setNode p n).goto t pc) := by
  refine ⟨fun t' h => Inst.threads_goto_of_ne h, by rw [Inst.threads_goto_self]; exact hpc, fun q h => ?_,
    fun q h => ?_, fun q h => ?_, fun q h => hfetch q (by rwa [Inst.threads_goto_self] at h), fun q t' ht h => ?_,
    fun q h => ?_⟩
  all_goals
    rw [Inst.nodes_goto] at *
    by_cases hq : q = p
    · rw [hq] at h ⊢
      rw [Inst.nodes_setNode_self] at *
      first | exact hkeeps h | exact hinst h | exact hrem h | exact hmem t' ht h | exact hcount h
    · rw [Inst.nodes_setNode_of_ne hq] at *
      first | exact h | exact .inl h

/-- A step that leaves mode and threads alone. -/
theorem remote {p : Nat} {b : Bool} (hpc : pc.reply? = none) (hb : b = true ∨ (s.threads t).fetching = some p)
    (hfetch : ∀ q, pc.fetching = some q → (s.nodes q).lockRemoting = false) :
    ThreadFrame t s ((s.setNode p { s.nodes p with lockRemoting := b }).goto t pc) :=
  setNode hpc id .inl (fun _ => hb) (fun q h => .inr (hfetch q h)) (fun _ _ => id) id

theorem of_threadStep (h : ThreadStep t s s') : ThreadFrame t s s' := by
  cases h with
  | scanned | scanAgain | scanNext | got | getRemote | getLocal | casLost | failed | spin | spun | checked | check
  | unpinned | unpin => exact goto rfl nofun
  | casWon hpc hrem =>
    refine remote rfl (.inl rfl) fun q hq => ?_
    cases hq
    exact hrem
  | refused hpc hrc => exact remote rfl (.inr (by rw [hpc]; rfl)) nofun
  | install hpc =>
    refine setNode rfl (fun _ => LockMode.noConfusion) (fun _ => .inr ?_) .inl (fun q h => .inl ?_) (fun _ _ => id) id
    · rw [hpc]; rfl
    · rw [hpc]; exact h
  | put hpc => exact of_nodes_eq rfl rfl rfl fun q h => by rw [hpc]; exact h
  | clear hpc => exact remote rfl (.inr (by rw [hpc]; rfl)) nofun
  | @add added rest p hpc hmtx =>
    obtain ⟨h1, h2, -⟩ := LockNode.addThread_frame (s.nodes p) t
    exact setNode rfl (by rw [h1]; exact id) (by rw [h1]; exact .inl) (by rw [h2]; exact .inl) nofun
      (fun _ _ h => LockNode.mem_addThread.2 (.inr h)) (fun h => h.addThread)
  | write hpc hcan hn =>
    obtain ⟨h1, h2, h3, h4, h5⟩ := LockNode.lock_X_frame hcan hn
    refine setNode rfl (fun _ => ?_) (fun _ => .inl ?_) (by rw [h3]; exact .inl) nofun
      (by rw [h4]; exact fun _ _ => id) ?_
    · rw [h2]; exact LockMode.noConfusion
    · rw [h1]; exact LockMode.noConfusion
    · unfold LockNode.Counted; rw [h4, h5]; exact id
  | locked => exact of_nodes_eq rfl rfl rfl nofun
  | written hpc hmtx hn =>
    obtain ⟨h1, h2, h3, h4⟩ := LockNode.unLock_frame hn
    refine setNode rfl (fun h h' => h (h1.1 h')) (fun h => .inl fun h' => h (h1.2 h')) (by rw [h2]; exact .inl)
      nofun (by rw [h3]; exact fun _ _ => id) ?_
    unfold LockNode.Counted; rw [h3, h4]; exact id
  | remove hpc hmtx hn =>
    obtain ⟨h1, h2, -⟩ := LockNode.removeThread_frame hn
    exact setNode rfl (by rw [h1]; exact id) (by rw [h1]; exact .inl) (by rw [h2]; exact .inl) nofun
      (fun t' ht h => LockNode.mem_removeThread hn (fun h' => ht (Fin.ext h')) h) (fun h => h.removeThread hn)

end ThreadFrame

/-! ### The two parts of the system -/

section Frame

variable {s : PageSys ni nt B} {i j : Fin ni} {p q : Nat} {inst : Inst nt B} {n : GlobalNode ni nt B}

@[simp] theorem setInst_global : (s.setInst i inst).global = s.global := rfl

@[simp] theorem setGlobal_insts : (s.setGlobal p n).insts = s.insts := rfl

@[simp] theorem setInst_self : (s.setInst i inst).insts i = inst := Function.update_self ..

theorem setInst_of_ne (h : j ≠ i) : (s.setInst i inst).insts j = s.insts j := Function.update_of_ne h ..

@[simp] theorem setGlobal_self : (s.setGlobal p n).global p = n := Function.update_self ..

theorem setGlobal_of_ne (h : q ≠ p) : (s.setGlobal p n).global q = s.global q := Function.update_of_ne h ..

end Frame

theorem invalidStep_threads {s : PageSys ni nt B} {p : Nat} {v : Serving ni nt B} {stage : InvalidStage B}
    {n : LockNode} (j : Fin ni) : ((s.invalidStep p v stage n).insts j).threads = (s.insts j).threads := by
  rw [PageSys.invalidStep, setGlobal_insts]
  by_cases hj : j = v.owner
  · subst hj
    rw [setInst_self]
    rfl
  · rw [setInst_of_ne hj]

/-! ### The invariant -/

/-- The owner has set its mode to `O` for this call. -/
def InvalidStage.past : InvalidStage B → Bool
  | .sent | .waiting => false
  | .invalidated _ | .returned _ _ => true

structure OwnInv (s : PageSys ni nt B) : Prop where
  owner : ∀ i p, s.mode i p ≠ .O → (s.global p).writeInsId = some i
  reply : ∀ i t p, ((s.insts i).threads t).reply? = some p → (s.global p).writeInsId = some i
  serving : ∀ p v, (s.global p).serving = some v →
    (s.global p).writeInsId = some v.owner ∧ ∃ done rest, (s.insts v.ins).threads v.thd = .requested done p rest
  past : ∀ p v, (s.global p).serving = some v → v.stage.past = true →
    s.mode v.owner p = .O ∧ ∀ t, ((s.insts v.owner).threads t).reply? ≠ some p

namespace OwnInv

variable {s s' : PageSys ni nt B}

theorem init (buf : Nat → B) (ibuf : Fin ni → Nat → B) : OwnInv (PageSys.init buf ibuf : PageSys ni nt B) where
  owner i p h := absurd rfl h
  reply i t p h := by cases h
  serving p v h := by cases h
  past p v h := by cases h

/-- A thread of `i` moves by itself. -/
theorem move (hi : OwnInv s) {i : Fin ni} {t : Fin nt} {inst : Inst nt B} (hf : ThreadFrame t (s.insts i) inst)
    (hreq : ∀ done p rest, (s.insts i).threads t ≠ .requested done p rest) : OwnInv (s.setInst i inst) := by
  have hmode : ∀ j p, (s.setInst i inst).mode j p ≠ .O →
      s.mode j p ≠ .O ∨ j = i ∧ ((s.insts i).threads t).reply? = some p := by
    intro j p h
    by_cases hj : j = i
    · rw [hj] at h ⊢
      rw [PageSys.mode, setInst_self] at h
      exact (hf.installs p h).imp_right fun h' => ⟨rfl, h'⟩
    · rw [PageSys.mode, setInst_of_ne hj] at h
      exact .inl h
  have hreply : ∀ j t' p, (((s.setInst i inst).insts j).threads t').reply? = some p →
      ((s.insts j).threads t').reply? = some p := by
    intro j t' p h
    by_cases hj : j = i
    · rw [hj, setInst_self] at h
      rw [hj]
      by_cases ht : t' = t
      · rw [ht, hf.noReply] at h; cases h
      · rwa [hf.others t' ht] at h
    · rwa [setInst_of_ne hj] at h
  refine ⟨fun j p h => ?_, fun j t' p h => hi.reply j t' p (hreply j t' p h), fun p v hv => ?_, fun p v hv hp => ?_⟩
  · rcases hmode j p h with h | ⟨rfl, h⟩
    · exact hi.owner j p h
    · exact hi.reply j t p h
  · obtain ⟨h1, done, rest, h2⟩ := hi.serving p v hv
    refine ⟨h1, done, rest, ?_⟩
    by_cases hj : v.ins = i
    · rw [hj, setInst_self]
      rw [hj] at h2
      by_cases ht : v.thd = t
      · rw [ht] at h2; exact absurd h2 (hreq _ _ _)
      · rw [hf.others _ ht]; exact h2
    · rw [setInst_of_ne hj]; exact h2
  · obtain ⟨h1, h2⟩ := hi.past p v hv hp
    refine ⟨?_, fun t' h => h2 t' (hreply _ t' p h)⟩
    by_contra h
    rcases hmode v.owner p h with h | ⟨hj, h⟩
    · exact h h1
    · rw [← hj] at h
      exact h2 t h

/-- The global lock answers the request of `(i, t)` for `p`, which nobody else holds any more. -/
theorem answer (hi : OwnInv s) {i : Fin ni} {t : Fin nt} {p : Nat} {done rest : List Nat} {rc : RC} {buf : B}
    (hpc : (s.insts i).threads t = .requested done p rest) (hmode : ∀ j, s.mode j p = .O)
    (hreply : ∀ j t', ((s.insts j).threads t').reply? ≠ some p) :
    OwnInv ((s.setGlobal p ⟨some i, none⟩).setInst i ((s.insts i).goto t (.replied done p rest rc buf))) := by
  have hthread : ∀ j t' q, ((((s.setGlobal p ⟨some i, none⟩).setInst i
      ((s.insts i).goto t (.replied done p rest rc buf))).insts j).threads t').reply? = some q →
      (j = i ∧ q = p) ∨ (q ≠ p ∧ ((s.insts j).threads t').reply? = some q) := by
    intro j t' q h
    have hold : ((s.insts j).threads t').reply? = some q → q ≠ p := fun h' hq => hreply j t' (by rw [h', hq])
    by_cases hj : j = i
    · rw [hj, setInst_self] at h
      by_cases ht : t' = t
      · rw [ht, Inst.threads_goto_self] at h
        refine .inl ⟨hj, ?_⟩
        unfold Pc.reply? at h
        split at h
        · rename_i heq; cases heq; cases h; rfl
        · cases h
      · rw [Inst.threads_goto_of_ne ht, ← hj] at h
        exact .inr ⟨hold h, h⟩
    · rw [setInst_of_ne hj] at h
      exact .inr ⟨hold h, h⟩
  have hmode' : ∀ j q, ((s.setGlobal p ⟨some i, none⟩).setInst i
      ((s.insts i).goto t (.replied done p rest rc buf))).mode j q = s.mode j q := by
    intro j q
    by_cases hj : j = i
    · rw [hj]; unfold PageSys.mode; rw [setInst_self]; rfl
    · unfold PageSys.mode; rw [setInst_of_ne hj]; rfl
  refine ⟨fun j q h => ?_, fun j t' q h => ?_, fun q v hv => ?_, fun q v hv hp => ?_⟩
  · rw [hmode'] at h
    have hq : q ≠ p := fun h' => h (by rw [h']; exact hmode j)
    rw [setInst_global, setGlobal_of_ne hq]
    exact hi.owner j q h
  · rcases hthread j t' q h with ⟨rfl, rfl⟩ | ⟨hq, h⟩
    · rw [setInst_global, setGlobal_self]
    · rw [setInst_global, setGlobal_of_ne hq]
      exact hi.reply j t' q h
  · rw [setInst_global] at hv ⊢
    by_cases hq : q = p
    · rw [hq, setGlobal_self] at hv; cases hv
    · rw [setGlobal_of_ne hq] at hv ⊢
      obtain ⟨h1, done', rest', h2⟩ := hi.serving q v hv
      refine ⟨h1, done', rest', ?_⟩
      by_cases hj : v.ins = i
      · rw [hj, setInst_self]
        rw [hj] at h2
        have ht : v.thd ≠ t := by
          intro ht
          rw [ht, hpc] at h2
          cases h2
          exact hq rfl
        rw [Inst.threads_goto_of_ne ht]; exact h2
      · rw [setInst_of_ne hj]; exact h2
  · rw [setInst_global] at hv
    by_cases hq : q = p
    · rw [hq, setGlobal_self] at hv; cases hv
    · rw [setGlobal_of_ne hq] at hv
      obtain ⟨h1, h2⟩ := hi.past q v hv hp
      refine ⟨by rw [hmode']; exact h1, fun t' h => ?_⟩
      rcases hthread _ t' q h with ⟨-, h⟩ | ⟨-, h⟩
      · exact hq h
      · exact h2 t' h

/-- The `Invalid` call of `p` moves on and may lower the owner's mode. -/
theorem invalid (hi : OwnInv s) {p : Nat} {v : Serving ni nt B} {stage : InvalidStage B} {n : LockNode}
    (hs : (s.global p).serving = some v) (hn : n.lockMode ≠ .O → s.mode v.owner p ≠ .O)
    (hp : stage.past = true → n.lockMode = .O ∧ ∀ t, ((s.insts v.owner).threads t).reply? ≠ some p) :
    OwnInv (s.invalidStep p v stage n) := by
  have hthreads : ∀ j, ((s.invalidStep p v stage n).insts j).threads = (s.insts j).threads := by
    intro j
    by_cases hj : j = v.owner
    · rw [hj]; unfold PageSys.invalidStep; rw [setGlobal_insts, setInst_self]; rfl
    · unfold PageSys.invalidStep; rw [setGlobal_insts, setInst_of_ne hj]
  have hmode : ∀ j q, (s.invalidStep p v stage n).mode j q =
      if j = v.owner ∧ q = p then n.lockMode else s.mode j q := by
    intro j q
    unfold PageSys.mode PageSys.invalidStep
    rw [setGlobal_insts]
    by_cases hj : j = v.owner
    · rw [hj, setInst_self]
      by_cases hq : q = p
      · rw [if_pos ⟨rfl, hq⟩, hq]; exact congrArg LockNode.lockMode (Function.update_self ..)
      · rw [if_neg fun h => hq h.2]; exact congrArg LockNode.lockMode (Function.update_of_ne hq ..)
    · rw [setInst_of_ne hj, if_neg fun h => hj h.1]
  have hwrite : ∀ q, ((s.invalidStep p v stage n).global q).writeInsId = (s.global q).writeInsId := by
    intro q
    unfold PageSys.invalidStep
    by_cases hq : q = p
    · rw [hq, setGlobal_self]
    · rw [setGlobal_of_ne hq, setInst_global]
  have hserving : ∀ q w, ((s.invalidStep p v stage n).global q).serving = some w →
      (q = p ∧ w = { v with stage := stage }) ∨ (q ≠ p ∧ (s.global q).serving = some w) := by
    intro q w h
    unfold PageSys.invalidStep at h
    by_cases hq : q = p
    · rw [hq, setGlobal_self] at h
      exact .inl ⟨hq, (Option.some.inj h).symm⟩
    · rw [setGlobal_of_ne hq, setInst_global] at h
      exact .inr ⟨hq, h⟩
  refine ⟨fun j q h => ?_, fun j t' q h => ?_, fun q w hw => ?_, fun q w hw hpast => ?_⟩
  · rw [hwrite]
    rw [hmode] at h
    split at h
    · rename_i hjq
      rw [hjq.1, hjq.2]
      exact hi.owner _ p (hn h)
    · exact hi.owner j q h
  · rw [hwrite]
    rw [hthreads] at h
    exact hi.reply j t' q h
  · rw [hwrite, hthreads]
    rcases hserving q w hw with ⟨rfl, rfl⟩ | ⟨-, hw⟩
    · exact hi.serving q v hs
    · exact hi.serving q w hw
  · rw [hthreads]
    rcases hserving q w hw with ⟨rfl, rfl⟩ | ⟨hq, hw⟩
    · rw [hmode, if_pos ⟨rfl, rfl⟩]
      exact hp hpast
    · rw [hmode, if_neg fun h => hq h.2]
      exact hi.past q w hw hpast

end OwnInv

/-! ### One owner -/

/-- When `Invalid` takes effect, no granting reply for the page is on its way to the owner. -/
def ReplyOk (s : PageSys ni nt B) : PageEv ni nt B → Prop
  | .invalidate p =>
    match (s.global p).serving with
    | some v => ∀ t, ((s.insts v.owner).threads t).reply? ≠ some p
    | none => True
  | _ => True

instance (s : PageSys ni nt B) (a : PageEv ni nt B) : Decidable (ReplyOk s a) :=
  match a with
  | .invalidate p =>
    match h : (s.global p).serving with
    | some v => decidable_of_iff (∀ t, ((s.insts v.owner).threads t).reply? ≠ some p) (by simp only [ReplyOk, h])
    | none => .isTrue (by simp only [ReplyOk, h])
  | .start .. | .thread .. | .write .. | .finish .. | .serve .. | .invalidArrive _ | .invalidReturn _ | .grant _ =>
    .isTrue trivial

theorem ReplyOk.reply_ne {s : PageSys ni nt B} {p : Nat} {v : Serving ni nt B} (hg : ReplyOk s (.invalidate p))
    (hs : (s.global p).serving = some v) (t : Fin nt) : ((s.insts v.owner).threads t).reply? ≠ some p := by
  simp only [ReplyOk, hs] at hg
  exact hg t

theorem OwnInv.step {s s' : PageSys ni nt B} {a : PageEv ni nt B} (hi : OwnInv s) (hg : ReplyOk s a)
    (h : s.step a = some s') : OwnInv s' := by
  cases PageStep.of_step h with
  | start hpc hset => exact hi.move (.goto rfl nofun) fun _ _ _ h' => by rw [hpc] at h'; cases h'
  | thread ht => exact hi.move (.of_threadStep ht) fun _ _ _ => ht.ne_requested
  | write hpc hp => exact hi.move (.goto rfl nofun) fun _ _ _ h' => by rw [hpc] at h'; cases h'
  | finish hpc => exact hi.move (.goto rfl nofun) fun _ _ _ h' => by rw [hpc] at h'; cases h'
  | @serveFree i t p done rest hpc hgl =>
    refine hi.answer hpc (fun j => ?_) fun j t' h' => ?_
    · by_contra h'
      have := hi.owner j p h'
      rw [hgl] at this; cases this
    · have := hi.reply j t' p h'
      rw [hgl] at this; cases this
  | @serveOwned i o t p done rest hpc hgl =>
    have hwrite : ∀ q, ((s.setGlobal p ⟨some o, some ⟨i, t, o, .sent⟩⟩).global q).writeInsId =
        (s.global q).writeInsId := by
      intro q
      by_cases hq : q = p
      · rw [hq, setGlobal_self, hgl]
      · rw [setGlobal_of_ne hq]
    refine ⟨fun j q h' => (hwrite q).trans (hi.owner j q h'), fun j t' q h' => (hwrite q).trans (hi.reply j t' q h'),
      fun q v hv => ?_, fun q v hv hp => ?_⟩
    · rw [hwrite]
      by_cases hq : q = p
      · rw [hq, setGlobal_self] at hv
        cases hv
        rw [hq, hgl]
        exact ⟨rfl, done, rest, hpc⟩
      · rw [setGlobal_of_ne hq] at hv
        exact hi.serving q v hv
    · by_cases hq : q = p
      · rw [hq, setGlobal_self] at hv
        cases hv; cases hp
      · rw [setGlobal_of_ne hq] at hv
        exact hi.past q v hv hp
  | invalidArrive hs hv => exact hi.invalid hs id fun h' => Bool.noConfusion h'
  | invalidate hs hv hcan => exact hi.invalid hs (fun h' => absurd rfl h') fun _ => ⟨rfl, hg.reply_ne hs⟩
  | invalidReturn hs hv => exact hi.invalid hs id fun _ => hi.past _ _ hs (by rw [hv]; rfl)
  | @grant p q v rc rc' buf done rest hs hv hrc hpc =>
    obtain ⟨hown, done', rest', hpc'⟩ := hi.serving p v hs
    obtain ⟨hO, hno⟩ := hi.past p v hs (by rw [hv]; rfl)
    rw [hpc] at hpc'
    cases hpc'
    refine hi.answer hpc (fun j => ?_) fun j t' h' => ?_
    · by_contra h'
      have hj := Option.some.inj ((hi.owner j p h').symm.trans hown)
      rw [hj] at h'
      exact h' hO
    · have hj := Option.some.inj ((hi.reply j t' p h').symm.trans hown)
      rw [hj] at h'
      exact hno t' h'

theorem OwnInv.reach {s : PageSys ni nt B} {G : PageSys ni nt B → PageEv ni nt B → Prop}
    (hG : ∀ s a, G s a → ReplyOk s a) (h : (pageLts ni nt B).Reach G s) : OwnInv s := by
  refine h.inv ?_ fun _ _ _ hi hg hs => hi.step (hG _ _ hg) hs
  rintro _ ⟨buf, ibuf, rfl⟩
  exact .init buf ibuf

/-- At most one instance has a mode other than `O`, and the global lock knows which. -/
structure SingleOwner (s : PageSys ni nt B) : Prop where
  unique : ∀ p i j, s.mode i p ≠ .O → s.mode j p ≠ .O → i = j
  recorded : ∀ p i, s.mode i p ≠ .O → (s.global p).writeInsId = some i

theorem OwnInv.singleOwner {s : PageSys ni nt B} (hi : OwnInv s) : SingleOwner s where
  unique p i j h h' := Option.some.inj ((hi.owner i p h).symm.trans (hi.owner j p h'))
  recorded p i := hi.owner i p

theorem singleOwner_of_replyOk {s : PageSys ni nt B} (h : (pageLts ni nt B).Reach ReplyOk s) : SingleOwner s :=
  (OwnInv.reach (fun _ _ => id) h).singleOwner

/-- The thread of `i` asks the global lock for `p` and the request is taken up. -/
def askFor (i : Fin 2) (p : Nat) : List (PageEv 2 1 Nat) :=
  [.start i 0 [p], .thread i 0, .thread i 0, .thread i 0, .thread i 0, .serve i 0]

/-- `n` steps of the thread of instance `i`. -/
def steps (i : Fin 2) (n : Nat) : List (PageEv 2 1 Nat) := List.replicate n (.thread i 0)

theorem singleOwner_after_move : ∃ s : PageSys 2 1 Nat,
    (pageLts 2 1 Nat).runIf (fun s a => decide (ReplyOk s a)) (.init (fun _ => 0) fun _ _ => 0)
      (askFor 0 7 ++ ([.thread 0 0] : List (PageEv 2 1 Nat)) ++ askFor 1 7 ++
        ([.invalidArrive 7, .invalidate 7, .invalidReturn 7, .grant 7, .thread 1 0] : List (PageEv 2 1 Nat))) = some s ∧
    s.mode 1 7 = .P ∧ SingleOwner s := by
  have hrun : (((pageLts 2 1 Nat).runIf (fun s a => decide (ReplyOk s a)) (.init (fun _ => 0) fun _ _ => 0)
      (askFor 0 7 ++ ([.thread 0 0] : List (PageEv 2 1 Nat)) ++ askFor 1 7 ++
        ([.invalidArrive 7, .invalidate 7, .invalidReturn 7, .grant 7, .thread 1 0] : List (PageEv 2 1 Nat)))).any
      fun s => decide (s.mode 1 7 = .P)) = true := by decide +kernel
  simp only [Option.any_eq_true, decide_eq_true_eq] at hrun
  obtain ⟨s, hs, hm⟩ := hrun
  exact ⟨s, hs, hm, singleOwner_of_replyOk (.runIf (fun _ _ => of_decide_eq_true) (.init ⟨_, _, rfl⟩) hs)⟩

/-- The reply to instance 0 is overtaken by the `Invalid` for instance 1 and installed after it. -/
theorem two_owners : ∃ s : PageSys 2 1 Nat, (pageLts 2 1 Nat).run (.init (fun _ => 0) fun _ _ => 0)
    (askFor 0 7 ++ askFor 1 7 ++
      ([.invalidArrive 7, .invalidate 7, .invalidReturn 7, .grant 7, .thread 1 0, .thread 0 0] :
        List (PageEv 2 1 Nat))) = some s ∧
    s.mode 0 7 = .P ∧ s.mode 1 7 = .P ∧ ¬ SingleOwner s := by
  have hrun : (((pageLts 2 1 Nat).run (.init (fun _ => 0) fun _ _ => 0)
      (askFor 0 7 ++ askFor 1 7 ++
        ([.invalidArrive 7, .invalidate 7, .invalidReturn 7, .grant 7, .thread 1 0, .thread 0 0] :
          List (PageEv 2 1 Nat)))).any
      fun s => decide (s.mode 0 7 = .P) && decide (s.mode 1 7 = .P)) = true := by decide +kernel
  simp only [Option.any_eq_true, Bool.and_eq_true, decide_eq_true_eq] at hrun
  obtain ⟨s, hs, h0, h1⟩ := hrun
  refine ⟨s, hs, h0, h1, fun hso => ?_⟩
  have := hso.unique 7 0 1 (by rw [h0]; exact LockMode.noConfusion) (by rw [h1]; exact LockMode.noConfusion)
  cases this

end Dbx1000
