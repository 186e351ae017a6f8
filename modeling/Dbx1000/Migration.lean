import Dbx1000.Page
import Dbx1000.PagePin

/-!
# Where the bytes of a page are

Transactions run one after another: a thread starts only when all others are idle. The bytes of a page
then stand in one place, which moves with every step of the hand-over: the buffer of the global lock
while no instance has asked for the page, the reply on its way to the instance (and with the thread
that installs it), the buffer of the owner, and the answer of `Invalid`. `Home` follows them, and with
the rows written on the way `page_has_last_rows` says what is in a page after any transaction.
-/

namespace Dbx1000

variable {ni nt : Nat} {B : Type}

namespace Pc

def isIdle : Pc B → Bool
  | .idle => true
  | _ => false

/-- What the thread still has to do to a page in the buffer: replace it by the bytes it was sent, or
bring in the row of the `WriteRow` that it has called. -/
def due : Pc B → Option (Nat × (B → B))
  | .replied _ p _ .rcok buf | .put _ p _ buf => some (p, fun _ => buf)
  | .writing _ p f | .locked _ p f => some (p, f)
  | _ => none

theorem of_isIdle {pc : Pc B} (h : pc.isIdle = true) : pc.reply? = none ∧ pc.passed = [] ∧ pc.due = none := by
  cases pc <;> first | exact ⟨rfl, rfl, rfl⟩ | cases h

theorem not_idle_of_due {pc : Pc B} {x : Nat × (B → B)} (h : pc.due = some x) : pc.isIdle = false := by
  by_contra hidle
  rw [(of_isIdle (Bool.eq_true_of_not_eq_false hidle)).2.2] at h
  cases h

end Pc

/-! ### One thread at a time -/

def PageSys.Idle (s : PageSys ni nt B) : Prop := ∀ i t, ((s.insts i).threads t).isIdle = true

instance (s : PageSys ni nt B) : Decidable s.Idle :=
  inferInstanceAs (Decidable (∀ i t, ((s.insts i).threads t).isIdle = true))

/-- Transactions one after another. -/
def SerialOk (s : PageSys ni nt B) : PageEv ni nt B → Prop
  | .start .. => s.Idle
  | _ => True

instance (s : PageSys ni nt B) (a : PageEv ni nt B) : Decidable (SerialOk s a) :=
  match a with
  | .start .. => inferInstanceAs (Decidable s.Idle)
  | .thread .. | .write .. | .finish .. | .serve .. | .invalidArrive _ | .invalidate _ | .invalidReturn _
  | .grant _ => .isTrue trivial

/-- All threads but `t` of `i` are idle. -/
def Solo (s : PageSys ni nt B) (i : Fin ni) (t : Fin nt) : Prop :=
  ∀ j u, ((s.insts j).threads u).isIdle = false → j = i ∧ u = t

/-- Whoever is not idle is alone. -/
def Serial (s : PageSys ni nt B) : Prop := ∀ i t, ((s.insts i).threads t).isIdle = false → Solo s i t

section Solo

variable {s s' : PageSys ni nt B} {i : Fin ni} {t : Fin nt}

theorem Solo.serial (h : Solo s i t) : Serial s := by
  intro j u hne
  obtain ⟨rfl, rfl⟩ := h j u hne
  exact h

theorem Serial.solo (h : Serial s) {pc : Pc B} (hpc : (s.insts i).threads t = pc) (hidle : pc.isIdle = false) :
    Solo s i t :=
  h i t (by rw [hpc]; exact hidle)

/-- The thread moves that is the only one not idle. -/
theorem Solo.move (h : Solo s i t) {inst : Inst nt B} (hother : ∀ u, u ≠ t → inst.threads u = (s.insts i).threads u)
    (hinsts : s'.insts = (s.setInst i inst).insts) : Solo s' i t := by
  intro j u hne
  rw [hinsts] at hne
  by_cases hj : j = i
  · subst hj
    rw [setInst_self] at hne
    by_contra hu
    have hu' : u ≠ t := fun h' => hu ⟨rfl, h'⟩
    rw [hother u hu'] at hne
    exact hu' (h j u hne).2
  · rw [setInst_of_ne hj] at hne
    exact absurd (h j u hne).1 hj

theorem Solo.goto (h : Solo s i t) {pc : Pc B} (hinsts : s'.insts = (s.setInst i ((s.insts i).goto t pc)).insts) :
    Solo s' i t :=
  h.move (fun _ hu => Inst.threads_goto_of_ne hu) hinsts

theorem Serial.of_threads (h : Serial s) (hthreads : ∀ j, (s'.insts j).threads = (s.insts j).threads) :
    Serial s' := by
  intro i t hne j u hne'
  rw [hthreads] at hne hne'
  exact h i t hne j u hne'

end Solo

theorem PageSys.Idle.solo {s : PageSys ni nt B} (h : s.Idle) (i : Fin ni) (t : Fin nt) : Solo s i t := by
  intro j u hne
  rw [h j u] at hne
  cases hne

theorem ThreadStep.not_idle {t : Fin nt} {s s' : Inst nt B} (h : ThreadStep t s s') : (s.threads t).isIdle = false := by
  cases h <;> rw [‹s.threads t = _›] <;> rfl

theorem Serial.step {s s' : PageSys ni nt B} {a : PageEv ni nt B} (h : Serial s) (hg : SerialOk s a)
    (hs : s.step a = some s') : Serial s' := by
  cases PageStep.of_step hs with
  | @start i t => exact ((hg.solo i t).goto rfl).serial
  | thread ht => exact ((h _ _ ht.not_idle).move (ThreadFrame.of_threadStep ht).others rfl).serial
  | write hpc | finish hpc | serveFree hpc | grant _ _ _ hpc => exact ((h.solo hpc rfl).goto rfl).serial
  | serveOwned => exact h.of_threads fun _ => rfl
  | invalidArrive | invalidate | invalidReturn => exact h.of_threads invalidStep_threads

/-- The window that `PinOk` excludes is never open: the thread that waits for `Invalid` is the only one
that is not idle, and the page it asks for is not among those it has passed. -/
theorem SerialOk.pinOk {s : PageSys ni nt B} {a : PageEv ni nt B} (hp : PinInv s) (h : Serial s) : PinOk s a := by
  cases a with
  | invalidate p =>
    unfold PinOk
    dsimp only
    split
    · rename_i v hs
      intro t
      obtain ⟨-, done, rest, hpc⟩ := hp.own.serving p v hs
      by_cases hidle : ((s.insts v.owner).threads t).isIdle = true
      · obtain ⟨hreply, hpassed, -⟩ := Pc.of_isIdle hidle
        rw [hreply, hpassed]
        exact ⟨nofun, List.not_mem_nil⟩
      · obtain ⟨ho, ht⟩ := h.solo hpc rfl _ _ (Bool.eq_false_iff.2 hidle)
        have hnodup := ((hp.inst v.ins).thread v.thd).nodup
        rw [hpc] at hnodup
        rw [ho, ht, hpc]
        exact ⟨nofun, fun hmem => (List.nodup_append.1 hnodup).2.2 p hmem p List.mem_cons_self rfl⟩
    · trivial
  | _ => trivial

/-! ### The place of the bytes -/

/-- What a step of a thread does to the buffer: nothing, or what was due. -/
inductive ThreadStep.Moved (t : Fin nt) (s s' : Inst nt B) : Prop
  | same (hbuf : s'.buffer = s.buffer) (hdue : (s'.threads t).due = (s.threads t).due)
  | done {p : Nat} {f : B → B} (hpc : (s.threads t).due = some (p, f))
      (hbuf : s'.buffer = Function.update s.buffer p (f (s.buffer p))) (hdue : (s'.threads t).due = none)

theorem ThreadStep.moved {t : Fin nt} {s s' : Inst nt B} (h : ThreadStep t s s') : ThreadStep.Moved t s s' := by
  cases h
  case put hpc | locked hpc => exact .done (by rw [hpc]; rfl) rfl (by rw [Inst.threads_goto_self]; rfl)
  case refused hpc hrc =>
    refine .same rfl ?_
    rw [Inst.threads_goto_self, hpc]
    rcases hrc with rfl | rfl <;> rfl
  all_goals exact .same rfl (by rw [Inst.threads_goto_self, ‹s.threads t = _›]; rfl)

/-- `val p` is what page `p` holds when all that is due is done. It is found where the hand-over of `p`
has come to. -/
structure Home (val : Nat → B) (s : PageSys ni nt B) : Prop where
  global : ∀ p, (s.global p).writeInsId = none → s.globalBuffer p = val p
  returned : ∀ p v rc buf, (s.global p).serving = some v → v.stage = .returned rc buf → rc = .rcok ∧ buf = val p
  due : ∀ i t p f, ((s.insts i).threads t).due = some (p, f) → f ((s.insts i).buffer p) = val p
  owner : ∀ p i, (s.global p).writeInsId = some i → (∀ t f, ((s.insts i).threads t).due ≠ some (p, f)) →
    (s.insts i).buffer p = val p

namespace Home

variable {val : Nat → B} {s s' : PageSys ni nt B} {i : Fin ni} {t : Fin nt}

theorem init (buf : Nat → B) (ibuf : Fin ni → Nat → B) : Home buf (PageSys.init buf ibuf : PageSys ni nt B) :=
  ⟨fun _ _ => rfl, nofun, nofun, nofun⟩

/-- With nothing due the bytes of `p` are in the owner's buffer. -/
theorem at_owner (h : Home val s) {p : Nat} {o : Fin ni} (hsolo : Solo s i t)
    (ho : (s.global p).writeInsId = some o) (hdue : ((s.insts i).threads t).due = none) :
    (s.insts o).buffer p = val p := by
  refine h.owner p o ho fun u f hu => ?_
  obtain ⟨rfl, rfl⟩ := hsolo o u (Pc.not_idle_of_due hu)
  rw [hdue] at hu
  cases hu

/-- The thread that is not idle moves by itself. -/
theorem move (h : Home val s) (hsolo : Solo s i t) {inst : Inst nt B}
    (hother : ∀ u, u ≠ t → inst.threads u = (s.insts i).threads u) (hm : ThreadStep.Moved t (s.insts i) inst) :
    Home val (s.setInst i inst) := by
  refine ⟨h.global, h.returned, fun j u p f hdue => ?_, fun p j hj hdue => ?_⟩
  · obtain ⟨rfl, rfl⟩ := (hsolo.move hother rfl) j u (Pc.not_idle_of_due hdue)
    rw [setInst_self] at hdue ⊢
    cases hm with
    | same hbuf hdue' =>
      rw [hbuf]
      exact h.due j u p f (by rw [← hdue', hdue])
    | done _ _ hnone =>
      rw [hnone] at hdue
      cases hdue
  by_cases hji : j = i
  · subst hji
    rw [setInst_self] at hdue ⊢
    cases hm with
    | same hbuf hdue' =>
      rw [hbuf]
      refine h.owner p j hj fun u f hu => hdue u f ?_
      by_cases hut : u = t
      · rw [hut, hdue', ← hut, hu]
      · rw [hother u hut, hu]
    | @done q f hpc hbuf _ =>
      rw [hbuf]
      by_cases hpq : p = q
      · subst hpq
        rw [Function.update_self]
        exact h.due j t p f hpc
      · rw [Function.update_of_ne hpq]
        refine h.owner p j hj fun u g hu => ?_
        by_cases hut : u = t
        · rw [hut, hpc] at hu
          cases hu
          exact hpq rfl
        · exact hdue u g (by rw [hother u hut, hu])
  · rw [setInst_of_ne hji] at hdue ⊢
    exact h.owner p j hj hdue

/-- A step of the thread that leaves its instance alone. -/
theorem goto (h : Home val s) (hsolo : Solo s i t) {pc : Pc B} (hdue : pc.due = ((s.insts i).threads t).due) :
    Home val (s.setInst i ((s.insts i).goto t pc)) :=
  h.move hsolo (fun _ hu => Inst.threads_goto_of_ne hu) (.same rfl (by rw [Inst.threads_goto_self, hdue]))

/-- The reply with the bytes of `p` is sent to the new owner. -/
theorem answer (h : Home val s) (hsolo : Solo s i t) {p : Nat} {done rest : List Nat} {buf : B}
    (hpc : (s.insts i).threads t = .requested done p rest) (hbuf : buf = val p) :
    Home val ((s.setGlobal p ⟨some i, none⟩).setInst i ((s.insts i).goto t (.replied done p rest .rcok buf))) := by
  have hsolo' : Solo ((s.setGlobal p ⟨some i, none⟩).setInst i
      ((s.insts i).goto t (.replied done p rest .rcok buf))) i t := hsolo.goto rfl
  refine ⟨fun q hq => ?_, fun q v rc b hs hv => ?_, fun j u q f hdue => ?_, fun q j hj hdue => ?_⟩
  · by_cases hqp : q = p
    · rw [hqp, setInst_global, setGlobal_self] at hq
      cases hq
    · rw [setInst_global, setGlobal_of_ne hqp] at hq
      exact h.global q hq
  · by_cases hqp : q = p
    · rw [hqp, setInst_global, setGlobal_self] at hs
      cases hs
    · rw [setInst_global, setGlobal_of_ne hqp] at hs
      exact h.returned q v rc b hs hv
  · obtain ⟨rfl, rfl⟩ := hsolo' j u (Pc.not_idle_of_due hdue)
    rw [setInst_self, Inst.threads_goto_self] at hdue
    cases hdue
    exact hbuf
  · by_cases hji : j = i
    · subst hji
      rw [setInst_self] at hdue ⊢
      by_cases hqp : q = p
      · subst hqp
        exact absurd (by rw [Inst.threads_goto_self]; rfl) (hdue t fun _ => buf)
      · rw [setInst_global, setGlobal_of_ne hqp] at hj
        exact h.at_owner hsolo hj (by rw [hpc]; rfl)
    · rw [setInst_of_ne hji] at hdue ⊢
      by_cases hqp : q = p
      · rw [hqp, setInst_global, setGlobal_self] at hj
        exact absurd (Option.some.inj hj).symm hji
      · rw [setInst_global, setGlobal_of_ne hqp] at hj
        exact h.owner q j hj hdue

/-- `WriteRow` is called: its row is due. -/
theorem write (h : Home val s) (hown : OwnInv s) (hsolo : Solo s i t) {set : List Nat} {p : Nat} {f : B → B}
    (hpc : (s.insts i).threads t = .body set) (hp : (s.global p).writeInsId = some i) :
    Home (Function.update val p (f (val p))) (s.setInst i ((s.insts i).goto t (.writing set p f))) := by
  have hsolo' : Solo (s.setInst i ((s.insts i).goto t (.writing set p f))) i t := hsolo.goto rfl
  have hbuf : (s.insts i).buffer p = val p := h.at_owner hsolo hp (by rw [hpc]; rfl)
  refine ⟨fun q hq => ?_, fun q v rc b hs hv => ?_, fun j u q g hdue => ?_, fun q j hj hdue => ?_⟩
  · rw [Function.update_of_ne]
    · exact h.global q hq
    · rintro rfl
      rw [setInst_global, hp] at hq
      cases hq
  · -- nobody asks for a page: the only thread is in the body
    obtain ⟨-, done, rest, hreq⟩ := hown.serving q v hs
    have hv := hsolo v.ins v.thd (by rw [hreq]; rfl)
    rw [hv.1, hv.2, hpc] at hreq
    cases hreq
  · obtain ⟨rfl, rfl⟩ := hsolo' j u (Pc.not_idle_of_due hdue)
    rw [setInst_self] at hdue ⊢
    rw [Inst.threads_goto_self] at hdue
    cases hdue
    rw [Function.update_self, ← hbuf]
    rfl
  · rw [setInst_global] at hj
    by_cases hqp : q = p
    · subst hqp
      rw [hp] at hj
      cases hj
      rw [setInst_self] at hdue
      exact absurd (by rw [Inst.threads_goto_self]; rfl) (hdue t f)
    · rw [Function.update_of_ne hqp, ← h.at_owner hsolo hj (by rw [hpc]; rfl)]
      by_cases hji : j = i
      · subst hji
        rw [setInst_self]
        rfl
      · rw [setInst_of_ne hji]

/-- The `Invalid` call moves on; when it returns, it brings the bytes of `p`. -/
theorem invalid (h : Home val s) {p : Nat} {v : Serving ni nt B} {stage : InvalidStage B} {n : LockNode}
    (hret : ∀ rc buf, stage = .returned rc buf → rc = .rcok ∧ buf = val p) : Home val (s.invalidStep p v stage n) := by
  have hwrite : ∀ q, ((s.invalidStep p v stage n).global q).writeInsId = (s.global q).writeInsId := by
    intro q
    rw [PageSys.invalidStep]
    by_cases hq : q = p
    · rw [hq, setGlobal_self]
    · rw [setGlobal_of_ne hq, setInst_global]
  have hbuf : ∀ j, ((s.invalidStep p v stage n).insts j).buffer = (s.insts j).buffer := by
    intro j
    rw [PageSys.invalidStep, setGlobal_insts]
    by_cases hj : j = v.owner
    · rw [hj, setInst_self]
      rfl
    · rw [setInst_of_ne hj]
  refine ⟨fun q hq => ?_, fun q w rc b hs hw => ?_, fun j u q f hdue => ?_, fun q j hj hdue => ?_⟩
  · rw [hwrite] at hq
    exact h.global q hq
  · rw [PageSys.invalidStep] at hs
    by_cases hq : q = p
    · rw [hq, setGlobal_self] at hs
      cases hs
      rw [hq]
      exact hret rc b hw
    · rw [setGlobal_of_ne hq, setInst_global] at hs
      exact h.returned q w rc b hs hw
  · rw [invalidStep_threads] at hdue
    rw [hbuf]
    exact h.due j u q f hdue
  · rw [invalidStep_threads] at hdue
    rw [hwrite] at hj
    rw [hbuf]
    exact h.owner q j hj hdue

end Home

/-- The contents of the pages after the event, as the calls of `WriteRow` give them. -/
def PageEv.applied (val : Nat → B) : PageEv ni nt B → Nat → B
  | .write _ _ p f => Function.update val p (f (val p))
  | _ => val

theorem Home.step {val : Nat → B} {s s' : PageSys ni nt B} {a : PageEv ni nt B} (h : Home val s) (hp : PinInv s)
    (hser : Serial s) (hg : SerialOk s a) (hstep : s.step a = some s') : Home (a.applied val) s' := by
  cases PageStep.of_step hstep with
  | @start i t set hpc hset => exact h.goto (hg.solo i t) (by rw [hpc]; rfl)
  | thread ht => exact h.move (hser _ _ ht.not_idle) (ThreadFrame.of_threadStep ht).others ht.moved
  | @write i t p f set hpc hmem =>
    have hok := (hp.inst i).thread t
    rw [hpc] at hok
    exact h.write hp.own (hser.solo hpc rfl) hpc (hp.own.owner i p (hok.pinned p hmem).1)
  | finish hpc => exact h.goto (hser.solo hpc rfl) (by rw [hpc]; rfl)
  | serveFree hpc hgl => exact h.answer (hser.solo hpc rfl) hpc (h.global _ (by rw [hgl]))
  | @serveOwned i o t p done rest hpc hgl =>
    refine ⟨fun q hq => ?_, fun q v rc b hv hst => ?_, h.due, fun q j hj hdue => ?_⟩ <;>
      by_cases hqp : q = p
    · rw [hqp, setGlobal_self] at hq
      cases hq
    · rw [setGlobal_of_ne hqp] at hq
      exact h.global q hq
    · rw [hqp, setGlobal_self] at hv
      cases hv
      cases hst
    · rw [setGlobal_of_ne hqp] at hv
      exact h.returned q v rc b hv hst
    · subst hqp
      rw [setGlobal_self] at hj
      exact h.owner q j (by rw [hgl]; exact hj) hdue
    · rw [setGlobal_of_ne hqp] at hj
      exact h.owner q j hj hdue
  | invalidArrive | invalidate => exact h.invalid nofun
  | @invalidReturn p v hs hv =>
    refine h.invalid ?_
    rintro _ _ ⟨⟩
    obtain ⟨ho, done, rest, hpc⟩ := hp.own.serving p v hs
    exact ⟨rfl, h.at_owner (hser.solo hpc rfl) ho (by rw [hpc]; rfl)⟩
  | @grant p q v rc rc' buf done rest hs hv hrc hpc =>
    obtain ⟨rfl, hbuf⟩ := h.returned p v rc buf hs hv
    obtain ⟨-, done', rest', hpc'⟩ := hp.own.serving p v hs
    rw [hpc] at hpc'
    cases hpc'
    cases hrc
    exact h.answer (hser.solo hpc rfl) hpc hbuf

/-! ### Rows -/

/-- The steps of the page locks, with `WriteRow` called for a row. -/
inductive MigrationEv (ni nt : Nat) (L : Layout)
  | page (a : PageEv ni nt PageBuf)
  | writeRow (i : Fin ni) (t : Fin nt) (key : Nat) (row : L.Row key)

namespace MigrationEv

variable {L : Layout}

def toPageEv : MigrationEv ni nt L → PageEv ni nt PageBuf
  | .page a => a
  | .writeRow i t key row => .write i t (L.pageOf key) (L.writeRow key row)

/-- `WriteRow` is the only way to write a page. -/
def Ok : MigrationEv ni nt L → Bool
  | .page (.write ..) => false
  | _ => true

/-- The row of the most recent `WriteRow` of `key`, on any instance. -/
def lastRow : List (MigrationEv ni nt L) → ∀ key, Option (L.Row key)
  | [] => fun _ => none
  | .page _ :: past => lastRow past
  | .writeRow _ _ key row :: past => Function.update (lastRow past) key (some row)

end MigrationEv

/-- Transactions one after another, on pages that are `buf` in the buffer of the global lock at first. -/
def migrationLts (ni nt : Nat) (L : Layout) (buf : Nat → PageBuf) :
    Lts (PageSys ni nt PageBuf) (MigrationEv ni nt L) where
  init s := ∃ ibuf, s = .init buf ibuf
  step s a := if a.Ok ∧ SerialOk s a.toPageEv then s.step a.toPageEv else none

/-- The bytes of `p`: at its owner, or at the global lock while it has none. -/
def PageSys.current (s : PageSys ni nt B) (p : Nat) : B :=
  match (s.global p).writeInsId with
  | none => s.globalBuffer p
  | some i => (s.insts i).buffer p

theorem Home.current {val : Nat → B} {s : PageSys ni nt B} (h : Home val s) (hidle : s.Idle) (p : Nat) :
    s.current p = val p := by
  unfold PageSys.current
  split
  · exact h.global p ‹_›
  · rename_i i hi
    refine h.owner p i hi fun t f hdue => ?_
    have := Pc.not_idle_of_due hdue
    rw [hidle i t] at this
    cases this

section Migration

variable {L : Layout} {buf : Nat → PageBuf}

structure MigrationInv (L : Layout) (buf : Nat → PageBuf) (s : PageSys ni nt PageBuf)
    (past : List (MigrationEv ni nt L)) : Prop where
  pin : PinInv s
  serial : Serial s
  home : ∃ val, Home val s ∧ ∀ p, L.Latest p (buf p) (MigrationEv.lastRow past) (val p)

namespace MigrationInv

variable {s s' : PageSys ni nt PageBuf} {past : List (MigrationEv ni nt L)} {a : MigrationEv ni nt L}

theorem init (ibuf : Fin ni → Nat → PageBuf) : MigrationInv L buf (.init buf ibuf : PageSys ni nt PageBuf) [] :=
  ⟨.init buf ibuf, nofun, buf, .init buf ibuf, fun _ => .refl⟩

theorem step (hi : MigrationInv L buf s past) (hs : (migrationLts ni nt L buf).step s a = some s') :
    MigrationInv L buf s' (a :: past) := by
  simp only [migrationLts] at hs
  split at hs
  · rename_i hg
    obtain ⟨hok, hg⟩ := hg
    have hpin : PinOk s a.toPageEv := SerialOk.pinOk hi.pin hi.serial
    refine ⟨⟨hi.pin.own.step hpin.replyOk hs, hi.pin.inst_step hpin hs⟩, hi.serial.step hg hs, ?_⟩
    obtain ⟨val, hhome, hlast⟩ := hi.home
    refine ⟨a.toPageEv.applied val, hhome.step hi.pin hi.serial hg hs, fun p => ?_⟩
    cases a with
    | page a =>
      cases a with
      | write => cases hok
      | _ => exact hlast p
    | writeRow i t key row =>
      simp only [MigrationEv.toPageEv, PageEv.applied, MigrationEv.lastRow]
      by_cases hp : L.pageOf key = p
      · subst hp
        rw [Function.update_self]
        exact (hlast _).write rfl
      · rw [Function.update_of_ne (Ne.symm hp)]
        exact (hlast p).write_other hp
  · cases hs

theorem reach {p : PageSys ni nt PageBuf × List (MigrationEv ni nt L)}
    (h : (migrationLts ni nt L buf).traced.Reach Lts.Any p) : MigrationInv L buf p.1 p.2 := by
  refine Lts.traced_inv ?_ (fun _ _ _ _ hi hs => hi.step hs) h
  rintro _ ⟨ibuf, rfl⟩
  exact init ibuf

end MigrationInv

/-- After every transaction a page holds the last row of each key and its header. -/
theorem page_has_last_rows {s : PageSys ni nt PageBuf} {past : List (MigrationEv ni nt L)}
    (h : (migrationLts ni nt L buf).traced.Reach Lts.Any (s, past)) (hidle : s.Idle) (p : Nat) :
    L.Latest p (buf p) (MigrationEv.lastRow past) (s.current p) ∧ (s.current p).header = (buf p).header := by
  obtain ⟨val, hhome, hlast⟩ := (MigrationInv.reach h).home
  rw [hhome.current hidle p]
  exact ⟨hlast p, (hlast p).header⟩

/-- `n` steps of the thread `t` of instance `i`. -/
def threadSteps (i : Fin 2) (t : Fin 1) (n : Nat) : List (MigrationEv 2 1 pairLayout) :=
  List.replicate n (.page (.thread i t))

/-- Instance `i` fetches page 0, with `handover` at the global lock, and writes a row. -/
def writeTxn (i : Fin 2) (t : Fin 1) (handover : List (MigrationEv 2 1 pairLayout)) (key : Nat)
    (row : pairLayout.Row key) : List (MigrationEv 2 1 pairLayout) :=
  .page (.start i t [0]) :: threadSteps i t 4 ++ .page (.serve i t) :: handover ++ threadSteps i t 7 ++
    .writeRow i t key row :: threadSteps i t 3 ++ .page (.finish i t) :: threadSteps i t 3

/-- Instance `i` writes row 0 of page 0, then instance `j` takes the page over and writes row 1. -/
def handoverRun (i j : Fin 2) (t : Fin 1) : List (MigrationEv 2 1 pairLayout) :=
  writeTxn i t [] 0 (fillRow 0 7) ++ writeTxn j t
    [.page (.invalidArrive 0), .page (.invalidate 0), .page (.invalidReturn 0), .page (.grant 0)] 1 (fillRow 1 8)

theorem rows_survive_handover : ∃ s : PageSys 2 1 PageBuf,
    (migrationLts 2 1 pairLayout fun _ => fillPage 0).run (.init (fun _ => fillPage 0) fun _ _ => fillPage 1)
      (handoverRun 0 1 0) = some s ∧
    s.Idle ∧ (s.global 0).writeInsId = some 1 ∧ pairLayout.rowAt 0 (s.current 0) = List.replicate 16 7 ∧
    pairLayout.rowAt 1 (s.current 0) = List.replicate 16 8 := by
  have hrun : (((migrationLts 2 1 pairLayout fun _ => fillPage 0).run
      (.init (fun _ => fillPage 0) fun _ _ => fillPage 1) (handoverRun 0 1 0)).any
      fun s => decide s.Idle && decide ((s.global 0).writeInsId = some 1)) = true := by decide +kernel
  simp only [Option.any_eq_true, Bool.and_eq_true, decide_eq_true_eq] at hrun
  obtain ⟨s, hs, hidle, howner⟩ := hrun
  obtain ⟨hlast, -⟩ := page_has_last_rows (Lts.traced_reach ⟨_, rfl⟩ hs) hidle 0
  exact ⟨s, hs, hidle, howner, hlast.row 0 rfl, hlast.row 1 rfl⟩

end Migration

end Dbx1000
