import Mathlib.Data.Finset.Max
import Mathlib.Data.Fintype.Prod
import Dbx1000.Lib.Progress
import Dbx1000.PageRun

/-!
# The page locks do not deadlock

A thread asks for the pages of its set in ascending order and registers when it has all of them; until then an
`Invalid` for a page that it has passed waits. So threads wait for each other across instances, also those that only
spin until another thread of the instance has fetched the page. A thread that is in nobody's way is found at the
largest page that is asked for: whoever keeps its `Invalid` waiting is registered, or asks for a larger page. From every
state all transactions under way can therefore be brought to their end (`page_locks_all_finish`).
-/

namespace Dbx1000

variable {ni nt : Nat} {B : Type}

/-! ### What is left to do -/

/-- The steps of an `Invalid` call that are left. -/
def InvalidStage.left : InvalidStage B → Nat
  | .sent => 4
  | .waiting => 3
  | .invalidated _ => 2
  | .returned _ _ => 1

/-- The steps until the request of `(i, t)` for `p` is answered. -/
def PageSys.callLeft (s : PageSys ni nt B) (i : Fin ni) (t : Fin nt) (p : Nat) : Nat :=
  match (s.global p).serving with
  | some v => if v.ins = i ∧ v.thd = t then v.stage.left else 5
  | none => 5

/-- The steps that a thread has left at most, when its body writes nothing more; `call p` are those of a request. -/
def Pc.left (call : Nat → Nat) : Pc B → Nat
  | .idle => 0
  | .scan set rest => rest.length + 14 * set.length + 5
  | .get done rest => 4 * done.length + 14 * rest.length + 4
  | .cas done _ rest => 4 * done.length + 14 * rest.length + 17
  | .failed done _ rest => 4 * done.length + 14 * rest.length + 11
  | .requested done p rest => 4 * done.length + 14 * rest.length + 11 + call p
  | .replied done _ rest _ _ => 4 * done.length + 14 * rest.length + 11
  | .put done _ rest _ => 4 * done.length + 14 * rest.length + 10
  | .clear done _ rest => 4 * done.length + 14 * rest.length + 9
  | .spin done _ rest => 4 * done.length + 14 * rest.length + 10
  | .spun done _ rest => 4 * done.length + 14 * rest.length + 9
  | .check added rest => 2 * added.length + 4 * rest.length + 3
  | .add added _ rest => 2 * added.length + 4 * rest.length + 6
  | .body set => 2 * set.length + 2
  | .writing set _ _ => 2 * set.length + 5
  | .locked set _ _ => 2 * set.length + 4
  | .written set _ => 2 * set.length + 3
  | .unpin rest => 2 * rest.length + 1
  | .remove _ rest => 2 * rest.length + 2

theorem callLeft_bounds (s : PageSys ni nt B) (i : Fin ni) (t : Fin nt) (p : Nat) :
    0 < s.callLeft i t p ∧ s.callLeft i t p ≤ 5 := by
  unfold PageSys.callLeft
  split
  · rename_i v hv
    split
    · cases v.stage <;> simp [InvalidStage.left]
    · decide
  · decide

/-- What a thread waits for: work or an answer, the end of an `Invalid` call, the thread that fetches its page, or the
X lock. -/
def Inst.Waits (s : Inst nt B) : Pc B → Prop
  | .idle | .requested .. | .body _ => True
  | .scan _ (p :: _) => (s.nodes p).invalidReq = true
  | .spin _ p _ => (s.nodes p).lockMode = .O
  | .writing _ p _ => (s.nodes p).lockMode = .X
  | _ => False

theorem ThreadStep.left_lt {s s' : Inst nt B} {t : Fin nt} {call : Nat → Nat} (h : ThreadStep t s s')
    (hcall : ∀ p, call p ≤ 5) (hwaits : ¬ s.Waits (s.threads t)) :
    (s'.threads t).left call < (s.threads t).left call := by
  cases h
  case scanAgain hpc hreq =>
    rw [hpc] at hwaits
    exact absurd hreq hwaits
  case casWon p hpc hrem =>
    have := hcall p
    rw [hpc, Inst.threads_goto_self]
    simp only [Pc.left]
    omega
  all_goals
    rw [‹s.threads t = _›, Inst.threads_goto_self]
    simp only [Pc.left, List.length_append, List.length_cons, List.length_nil]
    omega

/-- Nobody reads in a run of transactions. -/
theorem RunOk.mode_cases {s : Inst nt B} {p : Nat} (hi : RunOk s) (hO : (s.nodes p).lockMode ≠ .O) :
    (s.nodes p).lockMode = .P ∧ (s.nodes p).count = 0 ∨
      (s.nodes p).lockMode = .X ∧ ∃ t, s.held p t = some .writer := by
  cases (hi.hold p).rw hO with
  | free hmode hcount => exact .inl ⟨hmode, hcount⟩
  | shared hmode hcount hpos hheld =>
    have hempty : readers (s.held p) = ∅ := by
      ext t
      rw [mem_readers_iff]
      refine iff_of_false (fun h => ?_) (Finset.notMem_empty t)
      unfold Inst.held Pc.hold at h
      split at h
      · split at h <;> cases h
      · split at h <;> cases h
      · cases h
    rw [hcount, hempty] at hpos
    cases hpos
  | exclusive t hmode hcount hheld => exact .inr ⟨hmode, t, hheld⟩

/-- No assertion fails: a thread that does not wait goes on. -/
theorem RunOk.threadStep_isSome {s : Inst nt B} {t : Fin nt} (hi : RunOk s) (hinst : InstOk s)
    (hmtx : ∀ p, (s.nodes p).lockMode ≠ .O → (s.nodes p).mtx = false) (h : ¬ s.Waits (s.threads t)) :
    ∃ s', s.threadStep t = some s' := by
  have hok := hinst.thread t
  have hpc := hi.pc t
  have hlost := hi.lost t
  have hunlock : ∀ p, (s.threads t).hold p ≠ none → ∃ n, (s.nodes p).unLock = some n := fun p h =>
    (((hi.hold p).rw_of_held h).unLock h).imp fun _ => And.left
  unfold Inst.threadStep
  generalize s.threads t = pc at h hok hpc hlost hunlock
  cases pc with
  | idle | requested | body => exact absurd trivial h
  | scan set rest | get done rest => cases rest <;> exact ⟨_, rfl⟩
  | cas done p rest =>
    dsimp only
    split <;> exact ⟨_, rfl⟩
  | failed done p rest => exact ⟨_, if_pos (hlost p rfl)⟩
  | replied done p rest rc buf =>
    obtain rfl : rc = .rcok := by
      have := hpc.rcok
      unfold Pc.refused at this
      dsimp only at this
      split at this
      · assumption
      · cases this
    exact ⟨_, (if_neg (by simp)).trans (if_pos ⟨rfl, hok.reply p rfl⟩)⟩
  | put | clear | locked => exact ⟨_, rfl⟩
  | spin done p rest => exact ⟨_, if_neg h⟩
  | spun done p rest => exact ⟨_, if_neg (hok.passed p (List.mem_append_right _ (List.mem_singleton_self p)))⟩
  | check added rest =>
    cases rest with
    | nil => exact ⟨_, rfl⟩
    | cons p rest => exact ⟨_, if_neg (hok.passed p List.mem_cons_self)⟩
  | add added p rest =>
    exact ⟨_, if_neg (by rw [hmtx p (hok.passed p List.mem_cons_self)]; exact Bool.false_ne_true)⟩
  | writing set p f =>
    have hp := (hok.pinned p (hpc.target p rfl)).1
    obtain ⟨hP, hcount⟩ := (hi.mode_cases hp).resolve_right fun hX => h hX.1
    dsimp only
    rw [if_pos (by rw [LockNode.canLock, hmtx p hp, hP]; rfl), LockNode.lock, if_pos hcount]
    exact ⟨_, rfl⟩
  | written set p =>
    obtain ⟨n, hn⟩ := hunlock p (by rw [Pc.hold, if_pos rfl]; exact Option.some_ne_none _)
    dsimp only
    rw [hmtx p (hok.pinned p (hpc.target p rfl)).1, hn]
    exact ⟨_, rfl⟩
  | unpin rest =>
    cases rest with
    | nil => exact ⟨_, rfl⟩
    | cons p rest => exact ⟨_, if_neg (hok.pinned p List.mem_cons_self).1⟩
  | remove p rest =>
    obtain ⟨hO, hmem⟩ := hok.pinned p List.mem_cons_self
    have hcount : 0 < (s.nodes p).threadCount := by
      rw [hinst.counted p]
      exact List.length_pos_of_mem hmem
    dsimp only
    rw [hmtx p hO, LockNode.removeThread, if_pos hmem, if_pos hcount]
    exact ⟨_, rfl⟩

/-! ### The work of the system -/

namespace PageSys

/-- The steps that the thread `x` has left. -/
def left (s : PageSys ni nt B) (x : Fin ni × Fin nt) : Nat := ((s.insts x.1).threads x.2).left (s.callLeft x.1 x.2)

def workLeft (s : PageSys ni nt B) : Nat := ∑ x, s.left x

variable {s s' : PageSys ni nt B} {i : Fin ni} {t : Fin nt} {p : Nat}

/-- A step of the thread `t` of `i`. -/
theorem workLeft_thread {inst : Inst nt B} (hothers : ∀ t', t' ≠ t → inst.threads t' = (s.insts i).threads t')
    (hlt : (inst.threads t).left (s.callLeft i t) < ((s.insts i).threads t).left (s.callLeft i t)) :
    (s.setInst i inst).workLeft < s.workLeft := by
  refine sum_lt_sum_of_one (Finset.mem_univ (i, t)) (fun x hx => ?_) ?_
  · show (((s.setInst i inst).insts x.1).threads x.2).left (s.callLeft x.1 x.2) = s.left x
    by_cases hj : x.1 = i
    · have ht : x.2 ≠ t := fun h => hx (Prod.ext hj h)
      rw [hj, setInst_self, hothers _ ht, left, hj]
    · rw [setInst_of_ne hj, left]
  · show (((s.setInst i inst).insts i).threads t).left (s.callLeft i t) < s.left (i, t)
    rw [setInst_self]
    exact hlt

/-- The call for `p` is that of `(i, t)`, if there is one. -/
def CallOf (s : PageSys ni nt B) (p : Nat) (i : Fin ni) (t : Fin nt) : Prop :=
  ∀ v, (s.global p).serving = some v → v.ins = i ∧ v.thd = t

theorem CallOf.callLeft_eq (h : s.CallOf p i t) {x : Fin ni × Fin nt} (hx : x ≠ (i, t)) :
    s.callLeft x.1 x.2 p = 5 := by
  unfold PageSys.callLeft
  split
  · rename_i v hv
    obtain ⟨rfl, rfl⟩ := h v hv
    exact if_neg fun h => hx (Prod.ext h.1.symm h.2.symm)
  · rfl

/-- A step in the call of `(i, t)` for `p`. -/
theorem workLeft_call (hcall : s.CallOf p i t) (hcall' : s'.CallOf p i t)
    (hglobal : ∀ q, q ≠ p → s'.global q = s.global q)
    (hothers : ∀ x : Fin ni × Fin nt, x ≠ (i, t) → (s'.insts x.1).threads x.2 = (s.insts x.1).threads x.2)
    (hlt : s'.left (i, t) < s.left (i, t)) : s'.workLeft < s.workLeft := by
  refine sum_lt_sum_of_one (Finset.mem_univ (i, t)) (fun x hx => ?_) hlt
  have hsame : s'.callLeft x.1 x.2 = s.callLeft x.1 x.2 := by
    funext q
    by_cases hq : q = p
    · rw [hq, hcall.callLeft_eq hx, hcall'.callLeft_eq hx]
    · rw [callLeft, callLeft, hglobal q hq]
  rw [left, left, hothers x hx, hsame]

end PageSys

/-- An event of a transaction under way, or of the global lock; in the body nothing more is written. -/
def PageEv.Ends : PageEv ni nt B → Prop
  | .start .. | .write .. => False
  | _ => True

/-- A step towards the end of all transactions. -/
def PageSys.Advances (s : PageSys ni nt B) : Prop :=
  ∃ e s', e.Ends ∧ FinishOk s e ∧ s.step e = some s' ∧ s'.workLeft < s.workLeft

namespace FinishInv

variable {s : PageSys ni nt B} {i : Fin ni} {t : Fin nt} {p : Nat}

/-- The mutex of a node is free unless the page is being invalidated. -/
theorem mtx_eq_false (hi : FinishInv s) (h : s.mode i p ≠ .O) : ((s.insts i).nodes p).mtx = false := by
  refine Bool.eq_false_iff.2 fun hm => ?_
  obtain ⟨v, hv, rfl, hlock⟩ := hi.serve.mtx i p hm
  refine h (hi.pin.own.past p v hv ?_).1
  cases hstage : v.stage <;> rw [hstage] at hlock <;> first | rfl | cases hlock

/-- A thread that does not wait goes on, or the one does that has just lost the compare-and-swap. -/
theorem advances_of_not_waits (hi : FinishInv s) (h : ¬ (s.insts i).Waits ((s.insts i).threads t)) : s.Advances := by
  have hone : ∀ u, ¬ (s.insts i).Waits ((s.insts i).threads u) →
      (∀ q ∈ ((s.insts i).threads u).clears, ∀ t', ((s.insts i).threads t').lost ≠ some q) → s.Advances := by
    intro u hu hclear
    obtain ⟨inst, hinst⟩ := (hi.run i).threadStep_isSome (hi.pin.inst i) (fun _ => hi.mtx_eq_false) hu
    have hstep := ThreadStep.of_threadStep hinst
    refine ⟨.thread i u, s.setInst i inst, trivial, ⟨trivial, hclear⟩, by simp [PageSys.step, hinst], ?_⟩
    exact PageSys.workLeft_thread (ThreadFrame.of_threadStep hstep).others
      (hstep.left_lt (fun p => (callLeft_bounds s i u p).2) hu)
  by_cases hclear : ∀ q ∈ ((s.insts i).threads t).clears, ∀ t', ((s.insts i).threads t').lost ≠ some q
  · exact hone t h hclear
  · simp only [not_forall, not_not] at hclear
    obtain ⟨q, -, u, hu⟩ := hclear
    obtain ⟨done, rest, hpc⟩ := Pc.lost_eq_some hu
    exact hone u (by rw [hpc]; exact id) (by simp [hpc, Pc.clears])

theorem advances_of_body {set : List Nat} (hpc : (s.insts i).threads t = .body set) : s.Advances := by
  refine ⟨.finish i t, s.setInst i ((s.insts i).goto t (.unpin set)), trivial, ⟨trivial, trivial⟩,
    by simp [PageSys.step, hpc], PageSys.workLeft_thread (fun _ h => Inst.threads_goto_of_ne h) ?_⟩
  rw [Inst.threads_goto_self, hpc]
  exact Nat.lt_succ_self _

/-- The request of `(i, t)` is answered. -/
theorem advances_of_answer {e : PageEv ni nt B} {done rest : List Nat} (buf : B) (he : e.Ends) (hok : FinishOk s e)
    (hpc : (s.insts i).threads t = .requested done p rest) (hcall : s.CallOf p i t)
    (hstep : s.step e = some ((s.setGlobal p ⟨some i, none⟩).setInst i
      ((s.insts i).goto t (.replied done p rest .rcok buf)))) : s.Advances := by
  refine ⟨e, _, he, hok, hstep, PageSys.workLeft_call hcall (fun w hw => ?_) (fun q hq => ?_) (fun x hx => ?_) ?_⟩
  · rw [setInst_global, setGlobal_self] at hw
    cases hw
  · rw [setInst_global, setGlobal_of_ne hq]
  · by_cases hj : x.1 = i
    · rw [hj, setInst_self, Inst.threads_goto_of_ne fun h => hx (Prod.ext hj h)]
    · rw [setInst_of_ne hj, setGlobal_insts]
  · have := (callLeft_bounds s i t p).1
    simpa [PageSys.left, hpc, Pc.left] using this

/-- A call under way goes on, unless it has to wait at the owner. -/
theorem advances_of_serving (hi : FinishInv s) {v : Serving ni nt B} (hs : (s.global p).serving = some v)
    (hready : v.stage = .waiting → FinishOk s (.invalidate p) ∧ ((s.insts v.owner).nodes p).canInvalid = true ∧
      ((s.insts v.owner).nodes p).count = 0) : s.Advances := by
  obtain ⟨-, done, rest, hpc⟩ := hi.pin.own.serving p v hs
  have hrc := hi.serve.rcok p v hs
  have hcall : s.CallOf p v.ins v.thd := fun w hw => by rw [hs] at hw; cases hw; exact ⟨rfl, rfl⟩
  have hleft : s.left (v.ins, v.thd) = 4 * done.length + 14 * rest.length + 11 + v.stage.left := by
    simp [PageSys.left, hpc, Pc.left, PageSys.callLeft, hs]
  have hinvalid : ∀ e stage n, e.Ends → FinishOk s e → s.step e = some (s.invalidStep p v stage n) →
      stage.left < v.stage.left → s.Advances := by
    intro e stage n he hok hstep hlt
    refine ⟨e, _, he, hok, hstep, PageSys.workLeft_call hcall (fun w hw => ?_) (fun q => invalidStep_global)
      (fun x _ => by rw [invalidStep_threads]) ?_⟩
    · rw [invalidStep_serving] at hw
      cases hw
      exact ⟨rfl, rfl⟩
    · rw [hleft]
      simpa [PageSys.left, invalidStep_threads, hpc, Pc.left, PageSys.callLeft, invalidStep_serving] using hlt
  obtain ⟨j, u, o, stage⟩ := v
  cases stage with
  | sent =>
    exact hinvalid (.invalidArrive p) .waiting { (s.insts o).nodes p with invalidReq := true } trivial
      ⟨trivial, trivial⟩ (by simp only [PageSys.step, hs]) (Nat.lt_succ_self 3)
  | waiting =>
    obtain ⟨hok, hcan, hcount⟩ := hready rfl
    refine hinvalid (.invalidate p) (.invalidated .rcok) { (s.insts o).nodes p with lockMode := .O, mtx := true }
      trivial hok ?_ (Nat.lt_succ_self 2)
    have hzero : ((s.insts o).nodes p).threadCount = 0 := by
      simp only [LockNode.canInvalid, Bool.and_eq_true, decide_eq_true_eq] at hcan
      exact hcan.2
    simp only [PageSys.step, hs]
    rw [if_pos hcan, LockNode.invalidate, if_pos hzero, if_pos hcount]
    rfl
  | invalidated rc =>
    obtain rfl : rc = .rcok := hrc
    exact hinvalid (.invalidReturn p) (.returned .rcok ((s.insts o).buffer p)) ((s.insts o).nodes p).endInvalid trivial
      ⟨trivial, trivial⟩ (by simp only [PageSys.step, hs, if_true]) (Nat.lt_succ_self 1)
  | returned rc buf =>
    obtain rfl : rc = .rcok := hrc
    dsimp only at hpc hcall
    exact advances_of_answer (e := .grant p) buf trivial ⟨trivial, trivial⟩ hpc hcall
      (by simp [PageSys.step, hs, replyRc, PageSys.reply, hpc])

/-- A request goes on, unless it has to wait at the owner. -/
theorem advances_of_requested (hi : FinishInv s) {done rest : List Nat}
    (hpc : (s.insts i).threads t = .requested done p rest)
    (hready : ∀ v, (s.global p).serving = some v → v.stage = .waiting → FinishOk s (.invalidate p) ∧
      ((s.insts v.owner).nodes p).canInvalid = true ∧ ((s.insts v.owner).nodes p).count = 0) : s.Advances := by
  rcases hg : s.global p with ⟨_ | o, _ | v⟩
  · refine advances_of_answer (e := .serve i t) (s.globalBuffer p) trivial ⟨trivial, trivial⟩ hpc ?_ ?_
    · intro w hw
      rw [hg] at hw
      cases hw
    · simp [PageSys.step, PageSys.serve, PageSys.reply, hpc, hg]
  · exact hi.advances_of_serving (by rw [hg]) (hready v (by rw [hg]))
  · refine ⟨.serve i t, s.setGlobal p ⟨some o, some ⟨i, t, o, .sent⟩⟩, trivial, ⟨trivial, trivial⟩,
      by simp [PageSys.step, PageSys.serve, hpc, hg], PageSys.workLeft_call (p := p) (i := i) (t := t) (fun w hw => ?_)
      (fun w hw => ?_) (fun q => setGlobal_of_ne) (fun _ _ => rfl) ?_⟩
    · rw [hg] at hw
      cases hw
    · rw [setGlobal_self] at hw
      cases hw
      exact ⟨rfl, rfl⟩
    · simp [PageSys.left, hpc, Pc.left, PageSys.callLeft, hg, InvalidStage.left]
  · exact hi.advances_of_serving (by rw [hg]) (hready v (by rw [hg]))

/-- Where a thread can be when no step leads on. -/
inductive Stuck (s : PageSys ni nt B) (i : Fin ni) : Pc B → Prop
  | idle : Stuck s i .idle
  | scan {set rest : List Nat} {p : Nat} (hreq : ((s.insts i).nodes p).invalidReq = true) :
      Stuck s i (.scan set (p :: rest))
  | requested {done rest : List Nat} {p : Nat} : Stuck s i (.requested done p rest)
  | spin {done rest : List Nat} {p : Nat} (hmode : s.mode i p = .O) : Stuck s i (.spin done p rest)

/-- The holder of an X lock does not wait. -/
theorem stuck_of_not_advances (hi : FinishInv s) (h : ¬ s.Advances) (i : Fin ni) (t : Fin nt) :
    Stuck s i ((s.insts i).threads t) := by
  have hwaits : ∀ u, (s.insts i).Waits ((s.insts i).threads u) := fun u =>
    Classical.not_not.1 fun hu => h (hi.advances_of_not_waits hu)
  have hw := hwaits t
  cases hpc : (s.insts i).threads t with
  | idle => exact .idle
  | requested => exact .requested
  | body => exact absurd (advances_of_body hpc) h
  | scan set rest =>
    rw [hpc] at hw
    cases rest with
    | nil => exact hw.elim
    | cons => exact .scan hw
  | spin =>
    rw [hpc] at hw
    exact .spin hw
  | writing set p f =>
    rw [hpc] at hw
    obtain ⟨hP, -⟩ | ⟨-, u, hu⟩ := (hi.run i).mode_cases (p := p) (by rw [hw]; exact LockMode.noConfusion)
    · rw [hw] at hP
      cases hP
    · have hu' := hwaits u
      unfold Inst.held Pc.hold at hu
      split at hu
      · rw [‹(s.insts i).threads u = _›] at hu'
        exact hu'.elim
      · rw [‹(s.insts i).threads u = _›] at hu'
        exact hu'.elim
      · cases hu
  | _ =>
    rw [hpc] at hw
    exact hw.elim

namespace Stuck

variable {pc : Pc B}

theorem pinned_eq (h : Stuck s i pc) : pc.pinned = [] := by cases h <;> rfl

theorem hold_eq (h : Stuck s i pc) : pc.hold p = none := by cases h <;> rfl

theorem reply_eq (h : Stuck s i pc) : pc.reply? = none := by cases h <;> rfl

theorem requested_of_asks (h : Stuck s i pc) (hasks : pc.asks = some p) : ∃ done rest, pc = .requested done p rest := by
  cases h <;> cases hasks
  exact ⟨_, _, rfl⟩

end Stuck

/-- A thread that has passed a page asks for a larger one, or waits for one that does. -/
theorem lt_of_passed (hi : FinishInv s) (hstuck : ∀ i t, Stuck s i ((s.insts i).threads t))
    (hp : p ∈ ((s.insts i).threads t).passed) : ∃ u q, ((s.insts i).threads u).asks = some q ∧ p < q := by
  have hsorted := ((hi.run i).pc t).sorted
  have hwaits := (hi.run i).waits t
  have hthis := hstuck i t
  cases hpc : (s.insts i).threads t <;> rw [hpc] at hp hsorted hwaits hthis <;> cases hthis
  case idle | scan => cases hp
  case requested done q rest =>
    exact ⟨t, q, by rw [hpc]; rfl, (List.pairwise_append.1 hsorted).2.2 p hp q List.mem_cons_self⟩
  case spin done q rest hmode =>
    obtain ⟨u, hu⟩ := (hwaits q rfl).resolve_left fun h => h hmode
    exact ⟨u, q, hu, (List.pairwise_append.1 hsorted).2.2 p hp q List.mem_cons_self⟩

/-- At the largest page that is asked for `LockInvalid` does not wait. -/
theorem ready (hi : FinishInv s) (hstuck : ∀ i t, Stuck s i ((s.insts i).threads t))
    (hmax : ∀ i t q, ((s.insts i).threads t).asks = some q → q ≤ p) {v : Serving ni nt B}
    (hs : (s.global p).serving = some v) (hv : v.stage = .waiting) :
    FinishOk s (.invalidate p) ∧ ((s.insts v.owner).nodes p).canInvalid = true ∧
      ((s.insts v.owner).nodes p).count = 0 := by
  refine ⟨⟨?_, fun w hw t ht => ?_⟩, ?_, ((hi.run v.owner).hold p).count_eq_zero fun t => (hstuck v.owner t).hold_eq⟩
  · simp only [PinOk, hs]
    intro t
    rw [(hstuck v.owner t).reply_eq]
    refine ⟨nofun, fun hp => ?_⟩
    obtain ⟨u, q, hu, hlt⟩ := hi.lt_of_passed hstuck hp
    exact absurd (hmax _ _ _ hu) (Nat.not_le.2 hlt)
  · -- the owner has the page, so nobody spins for it
    rw [hs] at hw
    cases hw
    have hO : s.mode v.owner p = .O := by
      have hthis := hstuck v.owner t
      cases hpc : (s.insts v.owner).threads t <;> rw [hpc] at ht hthis <;> cases hthis <;> cases ht
      assumption
    rcases hi.serve.owner v.owner p (hi.pin.own.serving p v hs).1 with h | ⟨u, hu⟩ | ⟨w, hw, hpast⟩
    · exact h hO
    · rw [(hstuck v.owner u).reply_eq] at hu
      cases hu
    · rw [hs] at hw
      cases hw
      rw [hv] at hpast
      cases hpast
  · have hmtx : ((s.insts v.owner).nodes p).mtx = false := Bool.eq_false_iff.2 fun hm => by
      obtain ⟨w, hw, -, hlock⟩ := hi.serve.mtx v.owner p hm
      rw [hs] at hw
      cases hw
      rw [hv] at hlock
      cases hlock
    have hempty : ((s.insts v.owner).nodes p).threadSet = [] := List.eq_nil_iff_forall_not_mem.2 fun thd h => by
      obtain ⟨u, -, hu⟩ := (hi.run v.owner).member p thd h
      rw [(hstuck v.owner u).pinned_eq] at hu
      cases hu
    rw [LockNode.canInvalid, hmtx, (hi.pin.inst v.owner).counted p, hempty]
    rfl

/-- Someone asks for a page when a transaction is under way. -/
theorem exists_asks (hi : FinishInv s) (hstuck : ∀ i t, Stuck s i ((s.insts i).threads t))
    (h : (s.insts i).threads t ≠ .idle) : ∃ j u q, ((s.insts j).threads u).asks = some q := by
  have hwaits := (hi.run i).waits t
  have hthis := hstuck i t
  cases hpc : (s.insts i).threads t <;> rw [hpc] at h hwaits hthis <;> cases hthis
  case idle => exact absurd rfl h
  case scan hreq =>
    obtain ⟨v, hv, -⟩ := hi.serve.req i _ hreq
    obtain ⟨-, done, rest, hreq⟩ := hi.pin.own.serving _ v hv
    exact ⟨v.ins, v.thd, _, by rw [hreq]; rfl⟩
  case requested => exact ⟨i, t, _, by rw [hpc]; rfl⟩
  case spin done q rest hmode =>
    obtain ⟨u, hu⟩ := (hwaits q rfl).resolve_left fun h => h hmode
    exact ⟨i, u, q, hu⟩

theorem advances (hi : FinishInv s) (h : ¬ ∀ i t, (s.insts i).threads t = .idle) : s.Advances := by
  by_contra hno
  have hstuck := hi.stuck_of_not_advances hno
  simp only [not_forall] at h
  obtain ⟨i, t, h⟩ := h
  obtain ⟨j, u, q, hq⟩ := hi.exists_asks hstuck h
  -- the request for the largest page
  let page : Fin ni × Fin nt → Option Nat := fun x => ((s.insts x.1).threads x.2).asks
  obtain ⟨x, hx, hmax⟩ := (Finset.univ.filter fun x => page x ≠ none).exists_max_image (fun x => (page x).getD 0)
    ⟨(j, u), by simp [page, hq]⟩
  obtain ⟨p, hp⟩ := Option.ne_none_iff_exists'.1 (Finset.mem_filter.1 hx).2
  obtain ⟨done, rest, hpc⟩ := (hstuck x.1 x.2).requested_of_asks hp
  refine hno (hi.advances_of_requested hpc fun v hs hv => hi.ready hstuck (fun i t q hq => ?_) hs hv)
  have hle := hmax (i, t) (by simp [page, hq])
  simpa [page, hq, hp] using hle

end FinishInv

/-- In the runs of `FinishOk`, the transactions that are under way in any state can all be brought to their end: the
threads of all instances become idle, by steps of these transactions and of the global lock only. -/
theorem page_locks_all_finish {s : PageSys ni nt B} (h : (pageLts ni nt B).Reach FinishOk s) :
    ∃ evs s', (∀ e ∈ evs, e.Ends) ∧ (pageLts ni nt B).run s evs = some s' ∧ (pageLts ni nt B).Reach FinishOk s' ∧
      ∀ i t, (s'.insts i).threads t = .idle := by
  refine Lts.exists_goal _ PageSys.workLeft (fun s hs hnot => ?_) h
  obtain ⟨e, s', he, hok, hstep, hlt⟩ := (FinishInv.reach hs).advances hnot
  exact ⟨e, s', he, hstep, .step hs hok hstep, hlt⟩

/-- Instance `i` is in the body of a transaction on the pages 3 and 7, instance `j` asks for page 3. -/
def openLocks (i j : Fin 2) (t : Fin 1) : List (PageEv 2 1 Nat) :=
  (.start i t [3, 7] :: steps i 5) ++ (.serve i t :: steps i 5) ++ (.serve i t :: steps i 9) ++
    (askFor j 3).concat (.invalidArrive 3)

theorem page_locks_all_finish_two : ∃ s : PageSys 2 1 Nat, (pageLts 2 1 Nat).Reach FinishOk s ∧
    ((s.insts 0).threads 0).bodySet? = some [3, 7] ∧ ((s.insts 1).threads 0).asks = some 3 ∧
    ∃ evs s', (∀ e ∈ evs, e.Ends) ∧ (pageLts 2 1 Nat).run s evs = some s' ∧ (pageLts 2 1 Nat).Reach FinishOk s' ∧
      ∀ i t, (s'.insts i).threads t = .idle := by
  have hrun : ((pageLts 2 1 Nat).runIf (fun s e => decide (FinishOk s e)) (.init (fun _ => 0) fun _ _ => 0)
      (openLocks 0 1 0)).any (fun s => decide (((s.insts 0).threads 0).bodySet? = some [3, 7] ∧
        ((s.insts 1).threads 0).asks = some 3)) = true := by decide +kernel
  simp only [Option.any_eq_true, decide_eq_true_eq] at hrun
  obtain ⟨s, hs, h0, h1⟩ := hrun
  have hreach : (pageLts 2 1 Nat).Reach FinishOk s := .runIf (fun _ _ => of_decide_eq_true) (.init ⟨_, _, rfl⟩) hs
  exact ⟨s, hreach, h0, h1, page_locks_all_finish hreach⟩

end Dbx1000
