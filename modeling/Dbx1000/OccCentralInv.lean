import Mathlib.Order.Nat
import Dbx1000.OccCentral

/-!
# Central validation is serializable where nothing was changed

In the runs of `CentralSys.Unchanged` the committed transactions are serializable in the order in which
they entered the validation (`central_validate_serializable`). The invariant `CentralInv` carries
`key`: whoever entered before a committed transaction and writes a row of it was over before the
transaction began. It comes from the tests for those that were active when the transaction entered, and
from `Unchanged` for those that had already left.
-/

namespace Dbx1000

variable {ρ V : Type}

/-! ### Where a transaction is -/

namespace CentralPc

def Started : CentralPc ρ V → Prop
  | .idle | .fetched => False
  | _ => True

/-- The transaction has passed the first section under the latch. -/
def Entered : CentralPc ρ V → Prop
  | .idle | .fetched | .running => False
  | _ => True

def Finished : CentralPc ρ V → Prop
  | .finished _ => True
  | _ => False

/-- The transaction has passed the tests. -/
def Committed : CentralPc ρ V → Prop
  | .installing _ => True
  | .leaving valid => valid = true
  | .finished rc => rc = .rcok
  | _ => False

theorem Committed.entered {pc : CentralPc ρ V} (h : pc.Committed) : pc.Entered := by
  cases pc <;> simp_all [Committed, Entered]

theorem Entered.started {pc : CentralPc ρ V} (h : pc.Entered) : pc.Started := by
  cases pc <;> simp_all [Started, Entered]

theorem Finished.entered {pc : CentralPc ρ V} (h : pc.Finished) : pc.Entered := by
  cases pc <;> simp_all [Finished, Entered]

end CentralPc

namespace CentralTxn

/-- The rows the transaction has accessed. -/
def rows (x : CentralTxn ρ V) : List ρ := x.accs.map CentralAccess.row

theorem mem_rows_of_mem_wset {x : CentralTxn ρ V} {r : ρ} (h : r ∈ x.wset) : r ∈ x.rows := by
  simp only [wset, rows, List.mem_map, List.mem_filter] at h ⊢
  obtain ⟨a, ⟨ha, -⟩, har⟩ := h
  exact ⟨a, ha, har⟩

theorem mem_rset_or_mem_wset {x : CentralTxn ρ V} {r : ρ} (h : r ∈ x.rows) : r ∈ x.rset ∨ r ∈ x.wset := by
  simp only [wset, rset, rows, List.mem_map, List.mem_filter, decide_eq_true_eq] at h ⊢
  obtain ⟨a, ha, har⟩ := h
  by_cases hw : a.type = .wr
  · exact .inr ⟨a, ⟨ha, hw⟩, har⟩
  · exact .inl ⟨a, ⟨ha, hw⟩, har⟩

/-- The times and numbers of a transaction, when the clock shows `clock`, and what it has to install. -/
structure TxnOk (x : CentralTxn ρ V) (clock tnc : Nat) : Prop where
  tn : x.tnAtStart ≤ tnc
  began : x.began < clock
  entered : x.pc.Entered → x.began < x.entered ∧ x.entered < clock
  left : x.pc.Finished → x.entered < x.left ∧ x.left < clock
  todo : ∀ todo, x.pc = .installing todo → ∀ a ∈ todo, a.row ∈ x.wset

/-- A read or write of the transaction `x` in the history of the run. -/
structure OpOk (x : CentralTxn ρ V) (o : Serial.Op Nat ρ) : Prop where
  started : x.pc.Started
  began : x.began ≤ o.time
  row : o.row ∈ x.rows
  read : o.write = false → x.pc.Entered → o.time < x.entered
  write : o.write = true → x.pc.Committed ∧ x.entered < o.time ∧ o.row ∈ x.wset ∧ (x.pc.Finished → o.time < x.left)

/-- A running transaction that keeps its rows keeps its reads, and has written nothing. -/
theorem OpOk.of_running {x : CentralTxn ρ V} {o : Serial.Op Nat ρ} (hok : x.OpOk o) (hpc : x.pc = .running)
    {accs : List (CentralAccess ρ V)} (hrows : ∀ r ∈ x.rows, r ∈ accs.map CentralAccess.row) :
    OpOk { x with accs := accs } o := by
  refine ⟨hok.started, hok.began, hrows _ hok.row, hok.read, fun ho => ?_⟩
  have hc := (hok.write ho).1
  rw [hpc] at hc
  exact hc.elim

/-- The transaction `x` has only moved on. -/
structure Keeps (x x' : CentralTxn ρ V) : Prop where
  accs : x'.accs = x.accs
  tnAtStart : x'.tnAtStart = x.tnAtStart
  began : x'.began = x.began
  entered : x'.entered = x.entered
  inside : x'.pc.Entered ↔ x.pc.Entered

theorem Keeps.wset {x x' : CentralTxn ρ V} (h : x.Keeps x') : x'.wset = x.wset := by
  simp only [CentralTxn.wset, h.accs]

theorem Keeps.rows {x x' : CentralTxn ρ V} (h : x.Keeps x') : x'.rows = x.rows := by
  simp only [CentralTxn.rows, h.accs]

theorem Keeps.goto {x : CentralTxn ρ V} {pc : CentralPc ρ V} {left : Nat} (h₀ : x.pc.Entered) (h : pc.Entered) :
    x.Keeps { x with pc := pc, left := left } :=
  ⟨rfl, rfl, rfl, rfl, iff_of_true h h₀⟩

/-- `u` is over, and if it committed it was over before `x` began. -/
def Precedes (u x : CentralTxn ρ V) : Prop := u.pc.Finished ∧ (u.pc.Committed → u.left < x.began)

end CentralTxn

theorem not_testValid {set1 set2 : List ρ} [DecidableEq ρ] {r : ρ} (h1 : r ∈ set1) (h2 : r ∈ set2) :
    testValid set1 set2 = false := by
  simp only [testValid, List.all_eq_false, Bool.not_eq_true, decide_eq_false_iff_not, not_not]
  exact ⟨r, h1, r, h2, rfl⟩

/-- The active writers that passed the tests have no row of the transaction. -/
theorem notMem_of_centralTest [DecidableEq ρ] {x : CentralTxn ρ V} {finishTn : Nat} {his act : List (SetEnt ρ)}
    (h : centralTest x.startTs finishTn his act x.rset x.wset = true) {e : SetEnt ρ} (he : e ∈ act) {r : ρ}
    (hr : r ∈ e.rows) : r ∉ x.rows := by
  intro hx
  simp only [centralTest, Bool.and_eq_true, List.all_eq_true] at h
  obtain ⟨hrd, hwr⟩ := h.2 e he
  rcases CentralTxn.mem_rset_or_mem_wset hx with hx | hx
  · exact Bool.false_ne_true ((not_testValid hr hx).symm.trans hrd)
  · exact Bool.false_ne_true ((not_testValid hr hx).symm.trans hwr)

namespace OptCC

theorem mem_removeActive {t : Nat} {es es' : List (SetEnt ρ)} (h : removeActive t es = some es') {e : SetEnt ρ}
    (he : e ∈ es) (ht : e.txn ≠ t) : e ∈ es' := by
  induction es generalizing es' with
  | nil => cases he
  | cons d es ih =>
    simp only [removeActive] at h
    split at h
    · rename_i hd
      cases h
      rcases List.mem_cons.1 he with rfl | he
      · exact absurd hd ht
      · exact he
    · obtain ⟨es₁, hes, rfl⟩ := Option.map_eq_some_iff.1 h
      rcases List.mem_cons.1 he with rfl | he
      · exact List.mem_cons_self
      · exact List.mem_cons_of_mem _ (ih hes he)

/-- What a step of the transaction `t` inside the validation, to `x`, does to the lists: the others stay in them,
and `t` is put into the history when it is over and has committed. -/
structure Updates (cc cc' : OptCC ρ) (t : Nat) (x : CentralTxn ρ V) : Prop where
  tnc : cc.tnc ≤ cc'.tnc
  active : ∀ e ∈ cc.active, (e.txn = t → ¬ x.pc.Finished) → e ∈ cc'.active
  history : ∀ e ∈ cc.history, e ∈ cc'.history
  own : x.pc.Finished → x.pc.Committed → ∀ r ∈ x.wset,
    ∃ e ∈ cc'.history, e.rows = x.wset ∧ cc.tnc < e.tn

theorem Updates.refl (cc : OptCC ρ) {t : Nat} {x : CentralTxn ρ V}
    (h : x.pc.Finished → x.wset = []) : cc.Updates cc t x where
  tnc := le_rfl
  active _ he _ := he
  history _ he := he
  own hf _ r hr := by
    rw [h hf] at hr
    cases hr

theorem Updates.of_leave {cc cc' : OptCC ρ} {t : Nat} {x : CentralTxn ρ V} {valid : Bool}
    (h : cc.leave t x.wset valid = some cc') (hx : x.pc = .finished (if valid then .rcok else .abort)) :
    cc.Updates cc' t x := by
  simp only [leave, Option.bind_eq_bind, Option.bind_eq_some_iff] at h
  obtain ⟨active, hact, h⟩ := h
  have hkept : ∀ e ∈ cc.active, (e.txn = t → ¬ x.pc.Finished) → e ∈ active := by
    intro e he ht
    refine mem_removeActive hact he fun het => ht het ?_
    rw [hx]
    trivial
  split at h
  · split at h
    · cases h
      refine ⟨Nat.le_succ _, hkept, fun e he => List.mem_cons_of_mem _ he, fun _ _ r _ => ?_⟩
      exact ⟨_, List.mem_cons_self, rfl, Nat.lt_succ_self _⟩
    · cases h
  · rename_i hv
    cases h
    refine ⟨le_rfl, hkept, fun _ he => he, fun _ hc => ?_⟩
    rw [hx, if_neg hv] at hc
    cases hc

end OptCC

/-! ### The invariant -/

structure CentralInv (s : CentralSys ρ V) : Prop where
  txn : ∀ t, (s.txns t).TxnOk s.clock s.cc.tnc
  inj : ∀ t u, (s.txns t).pc.Entered → (s.txns u).pc.Entered → (s.txns t).entered = (s.txns u).entered → t = u
  ops : ∀ o ∈ s.ops, o.time < s.clock ∧ (s.txns o.txn).OpOk o
  -- whoever is in the validation with something to write is active
  active : ∀ u, (s.txns u).pc.Entered → ¬ (s.txns u).pc.Finished → ∀ r ∈ (s.txns u).wset,
    ∃ e ∈ s.cc.active, e.txn = u ∧ e.rows = (s.txns u).wset
  -- whoever committed a write is in the history, with a number that tells who started before
  history : ∀ u, (s.txns u).pc.Finished → (s.txns u).pc.Committed → ∀ r ∈ (s.txns u).wset,
    ∃ e ∈ s.cc.history, e.rows = (s.txns u).wset ∧
      ∀ t, e.tn ≤ (s.txns t).tnAtStart → (s.txns u).left < (s.txns t).began
  -- the writers that entered before are among those taken for the tests, or have left
  taken : ∀ t finishTn his act, (s.txns t).pc = .testing finishTn his act → ∀ u, (s.txns u).pc.Entered →
    (s.txns u).entered < (s.txns t).entered → ∀ r ∈ (s.txns u).wset,
      (∃ e ∈ act, e.rows = (s.txns u).wset) ∨ (s.txns u).pc.Finished ∧ (s.txns u).left < (s.txns t).entered
  seen : ∀ t, (s.txns t).pc.Entered → ∀ u, (s.txns u).pc.Finished → (s.txns u).pc.Committed →
    (s.txns u).left < (s.txns t).entered → ∀ r ∈ (s.txns u).wset, r ∈ (s.txns t).rows →
      (s.txns u).left < (s.txns t).began
  key : ∀ t, (s.txns t).pc.Committed → ∀ u, (s.txns u).pc.Entered → (s.txns u).entered < (s.txns t).entered →
    ∀ r ∈ (s.txns u).wset, r ∈ (s.txns t).rows → (s.txns u).Precedes (s.txns t)

namespace CentralInv

theorem initial (v₀ : ρ → V) : CentralInv (CentralSys.init v₀) where
  txn _ := ⟨le_rfl, Nat.one_pos, False.elim, False.elim, by simp [CentralSys.init, CentralTxn.init]⟩
  inj _ _ h := h.elim
  ops := by simp [CentralSys.init]
  active _ h := h.elim
  history _ h := h.elim
  taken t _ _ _ h := by simp [CentralSys.init, CentralTxn.init] at h
  seen _ h := h.elim
  key _ h := h.elim

end CentralInv

/-- In one step the transaction `t` moves to `x` and adds `new` to the history of the run. -/
structure CentralSys.Moves (s s' : CentralSys ρ V) (t : Nat) (x : CentralTxn ρ V) (new : List (Serial.Op Nat ρ)) :
    Prop where
  txns : s'.txns = Function.update s.txns t x
  clock : s'.clock = s.clock + 1
  ops : s'.ops = s.ops ++ new

namespace CentralSys.Moves

variable {s s' : CentralSys ρ V} {t u : Nat} {x : CentralTxn ρ V} {new : List (Serial.Op Nat ρ)}

theorem self (h : s.Moves s' t x new) : s'.txns t = x := by
  rw [h.txns, Function.update_self]

theorem other (h : s.Moves s' t x new) (hu : u ≠ t) : s'.txns u = s.txns u := by
  rw [h.txns, Function.update_of_ne hu]

theorem keeps (h : s.Moves s' t x new) (hx : (s.txns t).Keeps x) (u : Nat) : (s.txns u).Keeps (s'.txns u) := by
  by_cases hu : u = t
  · rw [hu, h.self]
    exact hx
  · rw [h.other hu]
    exact ⟨rfl, rfl, rfl, rfl, Iff.rfl⟩

/-- The reads and writes of the run, given those of `t`. -/
theorem opsOk (h : s.Moves s' t x new) (hi : CentralInv s)
    (hold : ∀ o, o.time < s.clock → (s.txns t).OpOk o → x.OpOk o)
    (hnew : ∀ o ∈ new, o.time = s.clock ∧ o.txn = t ∧ x.OpOk o) :
    ∀ o ∈ s'.ops, o.time < s'.clock ∧ (s'.txns o.txn).OpOk o := by
  intro o ho
  rw [h.ops] at ho
  rw [h.clock]
  rcases List.mem_append.1 ho with ho | ho
  · obtain ⟨htime, hok⟩ := hi.ops o ho
    refine ⟨Nat.lt_succ_of_lt htime, ?_⟩
    by_cases hu : o.txn = t
    · rw [hu] at hok ⊢
      rw [h.self]
      exact hold o htime hok
    · rw [h.other hu]
      exact hok
  · obtain ⟨htime, hu, hok⟩ := hnew o ho
    rw [hu, h.self, htime]
    exact ⟨Nat.lt_succ_self _, hok⟩

theorem txnOk (h : s.Moves s' t x new) (hi : CentralInv s) (hx : x.TxnOk (s.clock + 1) s'.cc.tnc)
    (htn : s.cc.tnc ≤ s'.cc.tnc) (u : Nat) : (s'.txns u).TxnOk s'.clock s'.cc.tnc := by
  rw [h.clock]
  by_cases hu : u = t
  · rw [hu, h.self]
    exact hx
  · rw [h.other hu]
    have ht := hi.txn u
    exact ⟨ht.tn.trans htn, Nat.lt_succ_of_lt ht.began,
      fun he => ⟨(ht.entered he).1, Nat.lt_succ_of_lt (ht.entered he).2⟩,
      fun hf => ⟨(ht.left hf).1, Nat.lt_succ_of_lt (ht.left hf).2⟩, ht.todo⟩

end CentralSys.Moves

namespace CentralInv

variable {s s' : CentralSys ρ V} {t : Nat} {x : CentralTxn ρ V}

/-- A step of a transaction that has not entered the validation. -/
theorem early (hi : CentralInv s) (new : List (Serial.Op Nat ρ)) (hm : s.Moves s' t x new) (hcc : s'.cc = s.cc)
    (h : ¬ x.pc.Entered)
    (hb : x.began = (s.txns t).began ∧ x.tnAtStart = (s.txns t).tnAtStart ∨ x.began = s.clock ∧ x.tnAtStart = s.cc.tnc)
    (hold : ∀ o, o.time < s.clock → (s.txns t).OpOk o → x.OpOk o)
    (hnew : ∀ o ∈ new, o.time = s.clock ∧ o.txn = t ∧ x.OpOk o) : CentralInv s' := by
  have hother : ∀ {u}, (s'.txns u).pc.Entered → s'.txns u = s.txns u := by
    intro u hu
    refine hm.other ?_
    rintro rfl
    rw [hm.self] at hu
    exact h hu
  constructor
  case txn =>
    refine hm.txnOk hi ?_ (by rw [hcc])
    have ht := hi.txn t
    rw [hcc]
    refine ⟨?_, ?_, fun he => absurd he h, fun hf => absurd hf.entered h, fun todo hp => ?_⟩
    · rcases hb with ⟨-, hb⟩ | ⟨-, hb⟩
      · rw [hb]
        exact ht.tn
      · exact hb.le
    · rcases hb with ⟨hb, -⟩ | ⟨hb, -⟩
      · rw [hb]
        exact Nat.lt_succ_of_lt ht.began
      · exact Nat.lt_succ_of_le hb.le
    · rw [hp] at h
      exact absurd trivial h
  case inj =>
    intro u w hu hw he
    have hu' := hother hu
    have hw' := hother hw
    rw [hu'] at hu he
    rw [hw'] at hw he
    exact hi.inj u w hu hw he
  case active =>
    intro u hu
    have hu' := hother hu
    rw [hu'] at hu ⊢
    rw [hcc]
    exact hi.active u hu
  case history =>
    intro u hf hc r hr
    have hu' := hother hf.entered
    rw [hu'] at hf hc hr ⊢
    obtain ⟨e, he, hrows, hbefore⟩ := hi.history u hf hc r hr
    rw [hcc]
    refine ⟨e, he, hrows, fun w hw => ?_⟩
    by_cases hwt : w = t
    · subst hwt
      rw [hm.self] at hw ⊢
      rcases hb with ⟨hb, hbt⟩ | ⟨hb, -⟩
      · rw [hbt] at hw
        rw [hb]
        exact hbefore w hw
      · rw [hb]
        exact ((hi.txn u).left hf).2
    · rw [hm.other hwt] at hw ⊢
      exact hbefore w hw
  case taken =>
    intro w f his act hw u hu
    have hw' := hother (u := w) (by simp [hw, CentralPc.Entered])
    have hu' := hother hu
    rw [hw'] at hw ⊢
    rw [hu'] at hu ⊢
    exact hi.taken w f his act hw u hu
  case seen =>
    intro w hw u hf
    have hw' := hother hw
    have hu' := hother hf.entered
    rw [hw'] at hw ⊢
    rw [hu'] at hf ⊢
    exact hi.seen w hw u hf
  case key =>
    intro w hc u hu
    have hw' := hother hc.entered
    have hu' := hother hu
    rw [hw'] at hc ⊢
    rw [hu'] at hu ⊢
    exact hi.key w hc u hu
  case ops => exact hm.opsOk hi hold hnew

/-- The transaction `t` enters the validation, when nobody who entered the history since it started wrote a row of
it. -/
theorem enter (hi : CentralInv s)
    (hm : s.Moves s' t { s.txns t with pc := .testing s.cc.tnc s.cc.history s.cc.active, entered := s.clock } [])
    (hcc : s'.cc = s.cc.enter t (s.txns t).wset) (hpc : (s.txns t).pc = .running)
    (hun : ∀ e ∈ s.cc.history, (s.txns t).tnAtStart < e.tn → ∀ a ∈ (s.txns t).accs, a.row ∉ e.rows) :
    CentralInv s' := by
  have hrows : (s'.txns t).rows = (s.txns t).rows := by rw [hm.self]; rfl
  have hwset : (s'.txns t).wset = (s.txns t).wset := by rw [hm.self]; rfl
  have hent : (s'.txns t).entered = s.clock := by rw [hm.self]
  have hbeg : (s'.txns t).began = (s.txns t).began := by rw [hm.self]
  have hnf : ¬ (s'.txns t).pc.Finished := by rw [hm.self]; exact id
  have hnc : ¬ (s'.txns t).pc.Committed := by rw [hm.self]; exact id
  have htnc : s'.cc.tnc = s.cc.tnc := by rw [hcc, OptCC.enter]; split <;> rfl
  have hhist : s'.cc.history = s.cc.history := by rw [hcc, OptCC.enter]; split <;> rfl
  have hlt : ∀ {u}, u ≠ t → (s'.txns u).pc.Entered → (s'.txns u).entered < s.clock := by
    intro u hu he
    rw [hm.other hu] at he ⊢
    exact ((hi.txn u).entered he).2
  have ht := hi.txn t
  constructor
  case txn =>
    refine hm.txnOk hi ?_ htnc.ge
    rw [htnc]
    exact ⟨ht.tn, Nat.lt_succ_of_lt ht.began, fun _ => ⟨ht.began, Nat.lt_succ_self _⟩, False.elim, by simp⟩
  case inj =>
    intro u w hu hw he
    by_cases hut : u = t <;> by_cases hwt : w = t
    · rw [hut, hwt]
    · rw [hut, hent] at he
      exact absurd he (hlt hwt hw).ne'
    · rw [hwt, hent] at he
      exact absurd he (hlt hut hu).ne
    · rw [hm.other hut] at hu he
      rw [hm.other hwt] at hw he
      exact hi.inj u w hu hw he
  case ops =>
    refine hm.opsOk hi ?_ (by simp)
    intro o htime hok
    refine ⟨trivial, hok.began, hok.row, fun _ _ => htime, fun ho => ?_⟩
    have hc := (hok.write ho).1
    rw [hpc] at hc
    exact hc.elim
  case active =>
    intro u hu hf r hr
    by_cases hut : u = t
    · subst hut
      rw [hwset] at hr ⊢
      rw [hcc, OptCC.enter, if_neg (by simpa using List.ne_nil_of_mem hr)]
      exact ⟨_, List.mem_cons_self, rfl, rfl⟩
    · rw [hm.other hut] at hu hf hr ⊢
      obtain ⟨e, he, htxn, hrw⟩ := hi.active u hu hf r hr
      refine ⟨e, ?_, htxn, hrw⟩
      rw [hcc, OptCC.enter]
      split
      · exact he
      · exact List.mem_cons_of_mem _ he
  case history =>
    intro u hf hc r hr
    have hut : u ≠ t := by rintro rfl; exact hnf hf
    rw [hm.other hut] at hf hc hr ⊢
    obtain ⟨e, he, hrw, hbefore⟩ := hi.history u hf hc r hr
    rw [hhist]
    refine ⟨e, he, hrw, fun w hw => ?_⟩
    by_cases hwt : w = t
    · subst hwt
      rw [hm.self] at hw ⊢
      exact hbefore w hw
    · rw [hm.other hwt] at hw ⊢
      exact hbefore w hw
  case taken =>
    intro w f his act hw u hu hlt' r hr
    have hut : u ≠ t := by
      rintro rfl
      rw [hent] at hlt'
      by_cases hwu : w = u
      · rw [hwu, hent] at hlt'
        exact lt_irrefl _ hlt'
      · exact lt_asymm hlt' (hlt hwu (by simp [hw, CentralPc.Entered]))
    rw [hm.other hut] at hu hlt' hr ⊢
    by_cases hwt : w = t
    · -- the transaction takes all that are active; the others have left
      subst hwt
      rw [hm.self] at hw ⊢
      cases hw
      by_cases hf : (s.txns u).pc.Finished
      · exact .inr ⟨hf, ((hi.txn u).left hf).2⟩
      · obtain ⟨e, he, -, hrw⟩ := hi.active u hu hf r hr
        exact .inl ⟨e, he, hrw⟩
    · rw [hm.other hwt] at hw hlt' ⊢
      exact hi.taken w f his act hw u hu hlt' r hr
  case seen =>
    intro w hw u hf hc hlt' r hr hx
    have hut : u ≠ t := by rintro rfl; exact hnf hf
    rw [hm.other hut] at hf hc hlt' hr ⊢
    by_cases hwt : w = t
    · subst hwt
      rw [hrows] at hx
      rw [hbeg]
      obtain ⟨e, he, hrw, hbefore⟩ := hi.history u hf hc r hr
      refine hbefore w (not_lt.1 fun htn => ?_)
      obtain ⟨a, ha, rfl⟩ := List.mem_map.1 hx
      exact hun e he htn a ha (hrw ▸ hr)
    · rw [hm.other hwt] at hw hlt' hx ⊢
      exact hi.seen w hw u hf hc hlt' r hr hx
  case key =>
    intro w hc u hu hlt' r hr hx
    have hwt : w ≠ t := by rintro rfl; exact hnc hc
    have hut : u ≠ t := by
      rintro rfl
      rw [hent] at hlt'
      exact lt_asymm hlt' (hlt hwt hc.entered)
    rw [hm.other hwt] at hc hlt' hx ⊢
    rw [hm.other hut] at hu hlt' hr ⊢
    exact hi.key w hc u hu hlt' r hr hx

/-- A step of the transaction `t` inside the validation, out of it included. -/
theorem late (hi : CentralInv s) (new : List (Serial.Op Nat ρ)) (hm : s.Moves s' t x new)
    (hx : (s.txns t).Keeps x) (hcc : s.cc.Updates s'.cc t x)
    (h₀ : (s.txns t).pc.Entered) (hf₀ : ¬ (s.txns t).pc.Finished) (hleft : x.pc.Finished → x.left = s.clock)
    (htest : ∀ finishTn his act, x.pc ≠ .testing finishTn his act)
    (htodo : ∀ todo, x.pc = .installing todo → ∀ a ∈ todo, a.row ∈ x.wset)
    (hcom : (s.txns t).pc.Committed → x.pc.Committed)
    (hkey : x.pc.Committed → ∀ u, (s.txns u).pc.Entered → (s.txns u).entered < (s.txns t).entered →
      ∀ r ∈ (s.txns u).wset, r ∈ (s.txns t).rows → (s.txns u).Precedes (s.txns t))
    (hnew : ∀ o ∈ new, o.time = s.clock ∧ o.txn = t ∧ x.OpOk o) : CentralInv s' := by
  have hk := hm.keeps hx
  have hne : ∀ {u}, (s.txns u).pc.Finished → u ≠ t := by
    rintro u hu rfl
    exact hf₀ hu
  have ht := hi.txn t
  obtain ⟨hbe, hec⟩ := ht.entered h₀
  constructor
  case txn =>
    refine hm.txnOk hi ?_ hcc.tnc
    refine ⟨?_, ?_, fun _ => ?_, fun hf => ?_, htodo⟩
    · rw [hx.tnAtStart]
      exact ht.tn.trans hcc.tnc
    · rw [hx.began]
      exact Nat.lt_succ_of_lt ht.began
    · rw [hx.began, hx.entered]
      exact ⟨hbe, Nat.lt_succ_of_lt hec⟩
    · rw [hx.entered, hleft hf]
      exact ⟨hec, Nat.lt_succ_self _⟩
  case inj =>
    simp only [(hk _).inside, (hk _).entered]
    exact hi.inj
  case ops =>
    refine hm.opsOk hi ?_ hnew
    intro o htime hok
    refine ⟨(hx.inside.2 h₀).started, ?_, ?_, fun ho _ => ?_, fun ho => ?_⟩
    · rw [hx.began]
      exact hok.began
    · rw [hx.rows]
      exact hok.row
    · rw [hx.entered]
      exact hok.read ho h₀
    · obtain ⟨hc, hlt, hrow, -⟩ := hok.write ho
      rw [hx.entered, hx.wset]
      exact ⟨hcom hc, hlt, hrow, fun hf => hleft hf ▸ htime⟩
  case active =>
    intro u hu hf r hr
    rw [(hk u).inside] at hu
    rw [(hk u).wset] at hr ⊢
    have hf' : ¬ (s.txns u).pc.Finished := by
      intro h
      rw [hm.other (hne h)] at hf
      exact hf h
    obtain ⟨e, he, htxn, hrw⟩ := hi.active u hu hf' r hr
    refine ⟨e, hcc.active e he fun het => ?_, htxn, hrw⟩
    rw [← htxn, het, hm.self] at hf
    exact hf
  case history =>
    intro u hf hc r hr
    simp only [(hk _).tnAtStart, (hk _).began]
    by_cases hut : u = t
    · -- its own number is above that of everybody who has started
      subst hut
      rw [hm.self] at hf hc hr ⊢
      obtain ⟨e, he, hrw, hlt⟩ := hcc.own hf hc r hr
      refine ⟨e, he, hrw, fun w hw => ?_⟩
      exact absurd (hi.txn w).tn (not_le.2 (lt_of_lt_of_le hlt hw))
    · rw [hm.other hut] at hf hc hr ⊢
      obtain ⟨e, he, hrw, hbefore⟩ := hi.history u hf hc r hr
      exact ⟨e, hcc.history e he, hrw, hbefore⟩
  case taken =>
    intro w f his act hw u hu hlt r hr
    have hwt : w ≠ t := by
      rintro rfl
      rw [hm.self] at hw
      exact htest f his act hw
    rw [hm.other hwt] at hw hlt ⊢
    rw [(hk u).inside] at hu
    rw [(hk u).entered] at hlt
    rw [(hk u).wset] at hr ⊢
    rcases hi.taken w f his act hw u hu hlt r hr with h | ⟨hf, hlt'⟩
    · exact .inl h
    · rw [hm.other (hne hf)]
      exact .inr ⟨hf, hlt'⟩
  case seen =>
    intro w hw u hf hc hlt r hr hx'
    rw [(hk w).inside] at hw
    rw [(hk w).entered] at hlt
    rw [(hk w).rows] at hx'
    rw [(hk w).began]
    -- `t` is not over before this step
    have hut : u ≠ t := by
      rintro rfl
      rw [hm.self] at hf hlt
      rw [hleft hf] at hlt
      exact lt_asymm hlt ((hi.txn w).entered hw).2
    rw [hm.other hut] at hf hc hlt hr ⊢
    exact hi.seen w hw u hf hc hlt r hr hx'
  case key =>
    intro w hc u hu hlt r hr hx'
    rw [(hk u).inside] at hu
    rw [(hk u).entered, (hk w).entered] at hlt
    rw [(hk u).wset] at hr
    rw [(hk w).rows] at hx'
    have hp : (s.txns u).Precedes (s.txns w) := by
      by_cases hwt : w = t
      · subst hwt
        rw [hm.self] at hc
        exact hkey hc u hu hlt r hr hx'
      · rw [hm.other hwt] at hc
        exact hi.key w hc u hu hlt r hr hx'
    rw [hm.other (hne hp.1)]
    exact ⟨hp.1, fun hcu => (hp.2 hcu).trans_eq (hk w).began.symm⟩

/-- Conflicts go from who entered the validation first to who entered it later. -/
theorem entered_lt_of_conflict (hi : CentralInv s) {a b : Nat} (ha : (s.txns a).pc.Committed)
    (hb : (s.txns b).pc.Committed) (h : Serial.Conflict s.ops a b) : (s.txns a).entered < (s.txns b).entered := by
  obtain ⟨hne, o, ho, p, hp, rfl, rfl, hrow, htime, hw⟩ := h
  obtain ⟨-, hoko⟩ := hi.ops o ho
  obtain ⟨-, hokp⟩ := hi.ops p hp
  by_contra hle
  have hlt : (s.txns p.txn).entered < (s.txns o.txn).entered :=
    lt_of_le_of_ne (not_lt.1 hle) fun h => hne (hi.inj _ _ ha.entered hb.entered h.symm)
  cases hpw : p.write with
  | false =>
    -- the read was made before its transaction entered, the write after the other one did
    have hrd := hokp.read hpw hb.entered
    have hwr := hoko.write (by simpa [hpw] using hw)
    omega
  | true =>
    -- the later writer entered first, so that it was over before the other transaction began
    obtain ⟨-, -, hpr, hpl⟩ := hokp.write hpw
    have hprec := hi.key o.txn ha p.txn hb.entered hlt p.row hpr (hrow ▸ hoko.row)
    have h1 := hpl hprec.1
    have h2 := hprec.2 hb
    have h3 := hoko.began
    omega

variable [DecidableEq ρ]

/-- After the tests, whoever entered before and writes a row of the transaction was over before it began. -/
theorem key_of_test (hi : CentralInv s) {finishTn : Nat} {his act : List (SetEnt ρ)}
    (hpc : (s.txns t).pc = .testing finishTn his act)
    (htest : centralTest (s.txns t).startTs finishTn his act (s.txns t).rset (s.txns t).wset = true) :
    ∀ u, (s.txns u).pc.Entered → (s.txns u).entered < (s.txns t).entered →
      ∀ r ∈ (s.txns u).wset, r ∈ (s.txns t).rows → (s.txns u).Precedes (s.txns t) := by
  intro u hu hlt r hr hx
  rcases hi.taken t _ _ _ hpc u hu hlt r hr with ⟨e, he, hrw⟩ | ⟨hf, hleft⟩
  · exact absurd hx (notMem_of_centralTest htest he (hrw ▸ hr))
  · refine ⟨hf, fun hc => hi.seen t ?_ u hf hc hleft r hr hx⟩
    rw [hpc]
    trivial

theorem fetch (hi : CentralInv s) (h : s.step (.fetch t) = some s') : CentralInv s' := by
  simp only [CentralSys.step] at h
  -- nothing has been read or written before the start
  have hnone : ¬ (s.txns t).pc.Started → ∀ o, ¬ (s.txns t).OpOk o := fun hst o hok => hst hok.started
  split at h
  · rename_i hpc
    cases h
    exact hi.early [] ⟨rfl, rfl, by simp [CentralSys.goto]⟩ rfl id (.inl ⟨rfl, rfl⟩)
      (fun o _ hok => absurd hok (hnone (by simp [hpc, CentralPc.Started]) o)) (by simp)
  · rename_i hpc
    cases h
    exact hi.early [] ⟨rfl, rfl, by simp [CentralSys.goto]⟩ rfl id (.inr ⟨rfl, rfl⟩)
      (fun o _ hok => absurd hok (hnone (by simp [hpc, CentralPc.Started]) o)) (by simp)
  · cases h

theorem read (hi : CentralInv s) {r : ρ} {type : AccessT} (h : s.step (.read t r type) = some s') :
    CentralInv s' := by
  simp only [CentralSys.step] at h
  split at h
  · rename_i hpc
    cases h
    have hne : ¬ (s.txns t).pc.Entered := by rw [hpc]; exact id
    refine hi.early _ ⟨rfl, rfl, rfl⟩ rfl hne (.inl ⟨rfl, rfl⟩) (fun o _ hok => ?_) (fun o ho => ?_)
    · refine hok.of_running hpc fun x hx => ?_
      rw [List.map_append]
      exact List.mem_append_left _ hx
    · obtain rfl := List.mem_singleton.1 ho
      refine ⟨rfl, rfl, ?_, (hi.txn t).began.le, ?_, fun _ he => absurd he hne, by simp⟩
      · simp [hpc, CentralPc.Started]
      · simp [CentralTxn.rows]
  · cases h

theorem modify (hi : CentralInv s) {r : ρ} {v : V} (h : s.step (.modify t r v) = some s') : CentralInv s' := by
  simp only [CentralSys.step] at h
  split at h
  · rename_i hpc
    cases h
    have hne : ¬ (s.txns t).pc.Entered := by rw [hpc]; exact id
    refine hi.early [] ⟨rfl, rfl, by simp [CentralSys.goto]⟩ rfl hne (.inl ⟨rfl, rfl⟩) (fun o _ hok => ?_) (by simp)
    refine hok.of_running hpc fun x hx => ?_
    simp only [CentralTxn.rows, List.mem_map, exists_exists_and_eq_and] at hx ⊢
    obtain ⟨a, ha, har⟩ := hx
    refine ⟨a, ha, ?_⟩
    split <;> exact har
  · cases h

theorem test (hi : CentralInv s) (h : s.step (.test t) = some s') : CentralInv s' := by
  simp only [CentralSys.step] at h
  split at h
  · rename_i hpc
    have h₀ : (s.txns t).pc.Entered := by rw [hpc]; trivial
    have hf₀ : ¬ (s.txns t).pc.Finished := by rw [hpc]; exact id
    have hc₀ : ¬ (s.txns t).pc.Committed := by rw [hpc]; exact id
    split at h
    · rename_i htest
      cases h
      refine hi.late [] ⟨rfl, rfl, by simp [CentralSys.goto]⟩ (.goto h₀ trivial) (.refl _ False.elim) h₀ hf₀ False.elim
        (by simp) ?_ (fun h => absurd h hc₀) (fun _ => hi.key_of_test hpc htest) (by simp)
      intro todo htodo a ha
      cases htodo
      exact List.mem_map_of_mem (List.mem_reverse.1 ha)
    · cases h
      exact hi.late [] ⟨rfl, rfl, by simp [CentralSys.goto]⟩ (.goto h₀ trivial) (.refl _ False.elim) h₀ hf₀ False.elim
        (by simp) (by simp) (fun h => absurd h hc₀) (by simp [CentralPc.Committed]) (by simp)
  · cases h

theorem install (hi : CentralInv s) (h : s.step (.install t) = some s') : CentralInv s' := by
  simp only [CentralSys.step] at h
  split at h
  · rename_i a todo hpc
    cases h
    have h₀ : (s.txns t).pc.Entered := by rw [hpc]; trivial
    have hf₀ : ¬ (s.txns t).pc.Finished := by rw [hpc]; exact id
    have hc₀ : (s.txns t).pc.Committed := by rw [hpc]; trivial
    have htodo := (hi.txn t).todo _ hpc
    refine hi.late _ ⟨rfl, rfl, rfl⟩ (.goto h₀ trivial) (.refl _ False.elim) h₀ hf₀ False.elim (by simp) ?_
      (fun _ => trivial) (fun _ => hi.key t hc₀) (fun o ho => ?_)
    · intro todo' htodo' b hb
      cases htodo'
      exact htodo b (List.mem_cons_of_mem _ hb)
    · obtain rfl := List.mem_singleton.1 ho
      have hrow := htodo a List.mem_cons_self
      exact ⟨rfl, rfl, trivial, (hi.txn t).began.le, CentralTxn.mem_rows_of_mem_wset hrow, by simp,
        fun _ => ⟨trivial, ((hi.txn t).entered h₀).2, hrow, False.elim⟩⟩
  · rename_i hpc
    cases h
    have h₀ : (s.txns t).pc.Entered := by rw [hpc]; trivial
    have hf₀ : ¬ (s.txns t).pc.Finished := by rw [hpc]; exact id
    have hc₀ : (s.txns t).pc.Committed := by rw [hpc]; trivial
    exact hi.late [] ⟨rfl, rfl, by simp [CentralSys.goto]⟩ (.goto h₀ trivial) (.refl _ False.elim) h₀ hf₀ False.elim
      (by simp) (by simp) (fun _ => rfl) (fun _ => hi.key t hc₀) (by simp)
  · cases h

theorem leave (hi : CentralInv s) (h : s.step (.leave t) = some s') : CentralInv s' := by
  simp only [CentralSys.step] at h
  split at h
  · rename_i valid hpc
    have h₀ : (s.txns t).pc.Entered := by rw [hpc]; trivial
    have hf₀ : ¬ (s.txns t).pc.Finished := by rw [hpc]; exact id
    have hcom : (s.txns t).pc.Committed ↔
        (CentralPc.finished (if valid then .rcok else .abort) : CentralPc ρ V).Committed := by
      rw [hpc]
      cases valid <;> simp [CentralPc.Committed]
    split at h
    · rename_i hw
      cases h
      exact hi.late [] ⟨rfl, rfl, by simp [CentralSys.goto]⟩ (.goto h₀ trivial)
        (.refl _ fun _ => List.isEmpty_iff.1 hw) h₀ hf₀ (fun _ => rfl) (by simp) (by simp) hcom.1
        (fun hc => hi.key t (hcom.2 hc)) (by simp)
    · obtain ⟨cc, hcc, rfl⟩ := Option.map_eq_some_iff.1 h
      exact hi.late [] ⟨rfl, rfl, by simp [CentralSys.goto]⟩ (.goto h₀ trivial) (.of_leave hcc rfl) h₀ hf₀
        (fun _ => rfl) (by simp) (by simp) hcom.1 (fun hc => hi.key t (hcom.2 hc)) (by simp)
  · cases h

theorem step (hi : CentralInv s) {ev : CentralEv ρ V} (hg : s.Unchanged ev) (h : s.step ev = some s') :
    CentralInv s' := by
  cases ev with
  | fetch t => exact hi.fetch h
  | read t r type => exact hi.read h
  | modify t r v => exact hi.modify h
  | enter t =>
    simp only [CentralSys.step] at h
    split at h
    · rename_i hpc
      cases h
      exact hi.enter ⟨rfl, rfl, by simp [CentralSys.goto]⟩ rfl hpc hg
    · cases h
  | test t => exact hi.test h
  | install t => exact hi.install h
  | leave t => exact hi.leave h

theorem reach {v₀ : ρ → V} (h : (CentralSys.lts v₀).Reach CentralSys.Unchanged s) : CentralInv s := by
  refine h.inv (P := CentralInv) ?_ ?_
  · rintro s rfl
    exact initial v₀
  · intro s ev s' hi hg hs
    exact hi.step hg hs

end CentralInv

/-! ### Serializability -/

instance : ∀ pc : CentralPc ρ V, Decidable pc.Committed
  | .installing _ => .isTrue trivial
  | .leaving valid => inferInstanceAs (Decidable (valid = true))
  | .finished rc => inferInstanceAs (Decidable (rc = .rcok))
  | .idle | .fetched | .running | .testing _ _ _ => .isFalse id

/-- Where nobody validates after a row of it was changed, the committed transactions are conflict-serializable:
none overwrites what was written since it read the row, and no two read a row before the other one writes it. -/
theorem central_validate_serializable [DecidableEq ρ] {v₀ : ρ → V} {s : CentralSys ρ V}
    (h : (CentralSys.lts v₀).Reach CentralSys.Unchanged s) :
    Serial.ConflictSerializable s.ops (fun t => (s.txns t).pc.Committed) ∧
      (∀ t, (s.txns t).pc.Committed → ¬ Serial.LostUpdate s.ops t) ∧
      ∀ t u, t ≠ u → (s.txns t).pc.Committed → (s.txns u).pc.Committed →
        ¬ (Serial.ReadBefore s.ops t u ∧ Serial.ReadBefore s.ops u t) := by
  have hi := CentralInv.reach h
  have hser : Serial.ConflictSerializable s.ops (fun t => (s.txns t).pc.Committed) :=
    Serial.conflictSerializable_of_rank fun _ _ ha hb => hi.entered_lt_of_conflict ha hb
  refine ⟨hser, fun t ht => ?_, ?_⟩
  · refine hser.not_lostUpdate (fun q hq hw => ?_) ht
    exact ((hi.ops q hq).2.write hw).1
  · rintro t u hne ht hu ⟨htu, hut⟩
    exact hser.not_readBefore_symm ht hu hne htu hut

/-- Two transactions add to row 0, the second one started when the first one has committed. -/
theorem central_validate_two : ∃ s : CentralSys Nat Nat,
    (CentralSys.lts fun _ => 5).Reach CentralSys.Unchanged s ∧ s.rows 0 = 7 ∧
      (s.txns 0).pc.Committed ∧ (s.txns 1).pc.Committed ∧ ¬ Serial.LostUpdate s.ops 1 := by
  have hrun : ((CentralSys.lts fun _ => 5 : Lts (CentralSys Nat Nat) _).runIf (fun s e => decide (s.Unchanged e))
      (.init fun _ => 5)
      [.fetch 0, .fetch 0, .read 0 0 .wr, .modify 0 0 6, .enter 0, .test 0, .install 0, .install 0, .leave 0,
        .fetch 1, .fetch 1, .read 1 0 .wr, .modify 1 0 7, .enter 1, .test 1, .install 1, .install 1, .leave 1]).any
        (fun s => decide (s.rows 0 = 7 ∧ (s.txns 0).pc.Committed ∧ (s.txns 1).pc.Committed)) = true := by
    decide +kernel
  simp only [Option.any_eq_true, decide_eq_true_eq] at hrun
  obtain ⟨s, hs, hrow, h0, h1⟩ := hrun
  have hreach := Lts.Reach.runIf (G := CentralSys.Unchanged) (fun _ _ => of_decide_eq_true) (.init rfl) hs
  exact ⟨s, hreach, hrow, h0, h1, (central_validate_serializable hreach).2.1 1 h1⟩

/-- Two transactions read row 0 as 5, for writing; both commit, and the 6 of the second one is lost. In the second run
each reads a row that the other one then writes. The numbers 2 and 4 of the starts are above every `tnc`. -/
theorem central_validate_loses_update : (∃ s : CentralSys Nat Nat, (CentralSys.lts fun _ => 5).Reach Lts.Any s ∧
      (s.txns 0).pc.Committed ∧ (s.txns 1).pc.Committed ∧ Serial.LostUpdate s.ops 0) ∧
    ∃ s : CentralSys Nat Nat, (CentralSys.lts fun _ => 5).Reach Lts.Any s ∧ (s.txns 0).pc.Committed ∧
      (s.txns 1).pc.Committed ∧ Serial.ReadBefore s.ops 0 1 ∧ Serial.ReadBefore s.ops 1 0 := by
  have hrun : ((CentralSys.lts fun _ => 5 : Lts (CentralSys Nat Nat) _).run (.init fun _ => 5)
      [.fetch 0, .fetch 0, .fetch 1, .fetch 1, .read 0 0 .wr, .read 1 0 .wr, .modify 1 0 6, .enter 1, .test 1,
        .install 1, .install 1, .leave 1, .modify 0 0 7, .enter 0, .test 0, .install 0, .install 0, .leave 0]).any
        (fun s => decide ((s.txns 0).pc.Committed ∧ (s.txns 1).pc.Committed ∧
          s.ops = [⟨5, 0, 0, false⟩, ⟨6, 1, 0, false⟩, ⟨10, 1, 0, true⟩, ⟨16, 0, 0, true⟩])) = true := by
    decide +kernel
  have hrun' : ((CentralSys.lts fun _ => 5 : Lts (CentralSys Nat Nat) _).run (.init fun _ => 5)
      [.fetch 0, .fetch 0, .fetch 1, .fetch 1, .read 0 0 .rd, .read 0 1 .wr, .read 1 1 .rd, .read 1 0 .wr, .enter 1,
        .test 1, .install 1, .install 1, .leave 1, .enter 0, .test 0, .install 0, .install 0, .leave 0]).any
        (fun s => decide ((s.txns 0).pc.Committed ∧ (s.txns 1).pc.Committed ∧
          s.ops = [⟨5, 0, 0, false⟩, ⟨6, 0, 1, false⟩, ⟨7, 1, 1, false⟩, ⟨8, 1, 0, false⟩, ⟨11, 1, 0, true⟩,
            ⟨16, 0, 1, true⟩])) = true := by
    decide +kernel
  simp only [Option.any_eq_true, decide_eq_true_eq] at hrun hrun'
  obtain ⟨s, hs, h0, h1, hops⟩ := hrun
  obtain ⟨s', hs', h0', h1', hops'⟩ := hrun'
  refine ⟨⟨s, .run (.init rfl) hs, h0, h1, ?_⟩, s', .run (.init rfl) hs', h0', h1', ?_, ?_⟩
  · rw [hops]
    exact ⟨⟨5, 0, 0, false⟩, by simp, ⟨10, 1, 0, true⟩, by simp, ⟨16, 0, 0, true⟩, by simp, by simp⟩
  · rw [hops']
    exact ⟨⟨5, 0, 0, false⟩, by simp, ⟨11, 1, 0, true⟩, by simp, by simp⟩
  · rw [hops']
    exact ⟨⟨7, 1, 1, false⟩, by simp, ⟨16, 0, 1, true⟩, by simp, by simp⟩

end Dbx1000
