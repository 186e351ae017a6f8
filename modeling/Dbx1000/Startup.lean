import Dbx1000.Lib.Progress

/-!
# The start of the cluster (`test/main_instance.cpp`, `GlobalLock` of `global_lock/global_lock.cpp`)

Every process initialises itself, starts its server thread, reports to the lock service by `InstanceInitDone`, polls
`GlobalLockInitDone` and then runs its transactions, whose `LockRemote` requests make the lock service call `Invalid`
on the owner of a page. The handlers of the service run concurrently and without a lock: `set_instance_i` and the
loop of `init_done` are taken step by step. A failed assertion, a connection that nobody accepts and a call through
a client that is not set leave the service in `failed`.

No process runs before all ids have reported, and then every `Invalid` goes to a process that listens
(`running_all_ready`). If every id is started once and the server threads listen when the processes report, nothing
fails and all processes come to run (`startup_completes`).
-/

namespace Dbx1000

/-- `PROCESS_CNT`, the number of processes that are started, and the `-instance_id` of each. -/
structure StartConfig where
  processCnt : Nat
  procs : Nat
  ids : Nat → Int

/-- `InstanceInfo` of `GlobalLock`; a host stands for the id it has in `config.json`, a client for the host it is
connected to. -/
structure InstanceInfo where
  instanceId : Int
  host : Option Int
  initDone : Bool
  client : Option Int
deriving DecidableEq, Repr

/-- Where `main` of an instance is. From `check` to `publish` it waits for `InstanceInitDone`, and the phase is the
one of `set_instance_i`; `polling i` is in the loop of `init_done`. -/
inductive ProcPc
  | launched | inited | check | fill | connect | publish
  | polling (i : Nat)
  | running
deriving DecidableEq, Repr

structure Startup where
  instances : Int → InstanceInfo
  initDone : Bool
  pc : Nat → ProcPc
  serving : Nat → Bool
  writeInsId : Nat → Int
  failed : Bool

inductive StartEv
  | serve (j : Nat)
  | main (j : Nat)
  | lockRemote (j page : Nat)

namespace Startup

variable (cfg : StartConfig)

/-- The constructor of `GlobalLock`. -/
def init : Startup where
  instances _ := ⟨-1, none, false, none⟩
  initDone := false
  pc _ := .launched
  serving _ := false
  writeInsId _ := -1
  failed := false

def goto (s : Startup) (j : Nat) (pc : ProcPc) : Startup := { s with pc := Function.update s.pc j pc }

def setInstance (s : Startup) (id : Int) (info : InstanceInfo) : Startup :=
  { s with instances := Function.update s.instances id info }

def fail (s : Startup) : Startup := { s with failed := true }

/-- A process listens on the host. -/
def Listening (s : Startup) (host : Int) : Prop := ∃ j < cfg.procs, s.serving j = true ∧ cfg.ids j = host

instance (s : Startup) (host : Int) : Decidable (Listening cfg s host) :=
  inferInstanceAs (Decidable (∃ j < cfg.procs, _))

/-- A step of `main`, or of the handler it waits for. -/
def advance (s : Startup) (j : Nat) : Option Startup :=
  let id := cfg.ids j
  let info := s.instances id
  match s.pc j with
  | .launched => some (s.goto j .inited)
  | .inited => some (s.goto j .check)
  | .check => some (if 0 ≤ id ∧ id < cfg.processCnt ∧ info.initDone = false then s.goto j .fill else s.fail)
  | .fill => some ((s.setInstance id { info with instanceId := id, host := some id }).goto j .connect)
  | .connect =>
    match info.host with
    | some host =>
      some (if Listening cfg s host then (s.setInstance id { info with client := some host }).goto j .publish
        else s.fail)
    | none => some s.fail
  | .publish => some ((s.setInstance id { info with initDone := true }).goto j (.polling 0))
  | .polling i =>
    some (if i < cfg.processCnt then
      if (s.instances i).initDone = true then s.goto j (.polling (i + 1)) else s.goto j (.polling 0)
    else { s.goto j .running with initDone := true })
  | .running => none

/-- `GlobalLock::LockRemote` for the process `j`. -/
def lockRemote (s : Startup) (j page : Nat) : Startup :=
  if 0 ≤ s.writeInsId page then
    match (s.instances (s.writeInsId page)).client with
    | some host =>
      if Listening cfg s host then { s with writeInsId := Function.update s.writeInsId page (cfg.ids j) } else s.fail
    | none => s.fail
  else { s with writeInsId := Function.update s.writeInsId page (cfg.ids j) }

def step (s : Startup) (e : StartEv) : Option Startup :=
  if s.failed = true then none
  else
    match e with
    | .serve j =>
      if j < cfg.procs ∧ s.pc j ≠ .launched then some { s with serving := Function.update s.serving j true } else none
    | .main j => if j < cfg.procs then s.advance cfg j else none
    | .lockRemote j page => if j < cfg.procs ∧ s.pc j = .running then some (s.lockRemote cfg j page) else none

end Startup

def startLts (cfg : StartConfig) : Lts Startup StartEv where
  init s := s = .init
  step := Startup.step cfg

/-- The server thread of an instance listens after the two seconds that `main` sleeps. -/
def ServeOk (s : Startup) : StartEv → Prop
  | .main j => s.pc j = .inited → s.serving j = true
  | _ => True

instance (s : Startup) (e : StartEv) : Decidable (ServeOk s e) :=
  match e with
  | .main j => inferInstanceAs (Decidable (s.pc j = .inited → s.serving j = true))
  | .serve _ | .lockRemote .. => inferInstanceAs (Decidable True)

/-! ### What a step does -/

section Step

variable {cfg : StartConfig} {s s' : Startup} {j : Nat}

def StartConfig.InRange (cfg : StartConfig) (id : Int) : Prop := 0 ≤ id ∧ id < cfg.processCnt

inductive Advance (cfg : StartConfig) (s : Startup) (j : Nat) : Startup → Prop
  | init (h : s.pc j = .launched) : Advance cfg s j (s.goto j .inited)
  | report (h : s.pc j = .inited) : Advance cfg s j (s.goto j .check)
  | accept (h : s.pc j = .check) (hr : cfg.InRange (cfg.ids j)) (hd : (s.instances (cfg.ids j)).initDone = false) :
    Advance cfg s j (s.goto j .fill)
  | reject (h : s.pc j = .check)
      (hn : ¬ (cfg.InRange (cfg.ids j) ∧ (s.instances (cfg.ids j)).initDone = false)) : Advance cfg s j s.fail
  | fill (h : s.pc j = .fill) : Advance cfg s j ((s.setInstance (cfg.ids j)
      { s.instances (cfg.ids j) with instanceId := cfg.ids j, host := some (cfg.ids j) }).goto j .connect)
  | connect {host : Int} (h : s.pc j = .connect) (hh : (s.instances (cfg.ids j)).host = some host)
      (hl : Startup.Listening cfg s host) : Advance cfg s j ((s.setInstance (cfg.ids j)
      { s.instances (cfg.ids j) with client := some host }).goto j .publish)
  | refused (h : s.pc j = .connect)
      (hn : ∀ host, (s.instances (cfg.ids j)).host = some host → ¬ Startup.Listening cfg s host) :
    Advance cfg s j s.fail
  | publish (h : s.pc j = .publish) : Advance cfg s j ((s.setInstance (cfg.ids j)
      { s.instances (cfg.ids j) with initDone := true }).goto j (.polling 0))
  | seen {i : Nat} (h : s.pc j = .polling i) (hi : i < cfg.processCnt) (hd : (s.instances i).initDone = true) :
    Advance cfg s j (s.goto j (.polling (i + 1)))
  | missed {i : Nat} (h : s.pc j = .polling i) (hi : i < cfg.processCnt) (hd : (s.instances i).initDone = false) :
    Advance cfg s j (s.goto j (.polling 0))
  | run {i : Nat} (h : s.pc j = .polling i) (hi : cfg.processCnt ≤ i) :
    Advance cfg s j { s.goto j .running with initDone := true }

theorem Advance.of_advance (h : s.advance cfg j = some s') : Advance cfg s j s' := by
  unfold Startup.advance at h
  dsimp only at h
  split at h
  · cases h
    exact .init ‹_›
  · cases h
    exact .report ‹_›
  · rename_i hpc
    cases h
    split
    · rename_i hc
      exact .accept hpc ⟨hc.1, hc.2.1⟩ hc.2.2
    · rename_i hc
      exact .reject hpc fun h => hc ⟨h.1.1, h.1.2, h.2⟩
  · cases h
    exact .fill ‹_›
  · rename_i hpc
    split at h
    · rename_i host hh
      cases h
      split
      · exact .connect hpc hh ‹_›
      · rename_i hl
        refine .refused hpc fun host' hh' => ?_
        rw [hh] at hh'
        cases hh'
        exact hl
    · rename_i hh
      cases h
      exact .refused hpc fun host hh' => by rw [hh] at hh'; cases hh'
  · cases h
    exact .publish ‹_›
  · rename_i i hpc
    cases h
    split
    · split
      · exact .seen hpc ‹_› ‹_›
      · exact .missed hpc ‹_› (Bool.eq_false_of_not_eq_true ‹_›)
    · exact .run hpc (Nat.not_lt.1 ‹_›)
  · cases h

inductive StartStep (cfg : StartConfig) (s : Startup) : StartEv → Startup → Prop
  | serve {j : Nat} (hj : j < cfg.procs) (hpc : s.pc j ≠ .launched) :
    StartStep cfg s (.serve j) { s with serving := Function.update s.serving j true }
  | main {j : Nat} {s' : Startup} (hj : j < cfg.procs) (h : Advance cfg s j s') : StartStep cfg s (.main j) s'
  | lockRemote {j page : Nat} (hj : j < cfg.procs) (hpc : s.pc j = .running) :
    StartStep cfg s (.lockRemote j page) (s.lockRemote cfg j page)

theorem StartStep.of_step {e : StartEv} (h : s.step cfg e = some s') : s.failed = false ∧ StartStep cfg s e s' := by
  unfold Startup.step at h
  split at h
  · cases h
  · rename_i hf
    refine ⟨Bool.eq_false_of_not_eq_true hf, ?_⟩
    split at h
    · split at h
      · rename_i hc
        cases h
        exact .serve hc.1 hc.2
      · cases h
    · split at h
      · exact .main ‹_› (.of_advance h)
      · cases h
    · split at h
      · rename_i hc
        cases h
        exact .lockRemote hc.1 hc.2
      · cases h

end Step

/-! ### What holds in every run -/

namespace StartConfig

variable (cfg : StartConfig)

/-- What the phase of a process says about the table of the instances. -/
def ProcOk (s : Startup) (j : Nat) : Prop :=
  match s.pc j with
  | .launched | .inited | .check => True
  | .fill => cfg.InRange (cfg.ids j)
  | .connect => cfg.InRange (cfg.ids j) ∧ (s.instances (cfg.ids j)).host = some (cfg.ids j)
  | .publish => cfg.InRange (cfg.ids j) ∧ (s.instances (cfg.ids j)).client = some (cfg.ids j)
  | .polling i => cfg.InRange (cfg.ids j) ∧ (s.instances (cfg.ids j)).initDone = true ∧
    ∀ k < i, (s.instances (k : Nat)).initDone = true
  | .running => cfg.InRange (cfg.ids j) ∧ ∀ k < cfg.processCnt, (s.instances (k : Nat)).initDone = true

end StartConfig

/-- An entry of the table of the instances. -/
structure InfoOk (cfg : StartConfig) (s : Startup) (id : Int) : Prop where
  host : ∀ h, (s.instances id).host = some h → h = id
  client : ∀ h, (s.instances id).client = some h → h = id ∧ Startup.Listening cfg s h
  done : (s.instances id).initDone = true → (s.instances id).client = some id

structure StartInv (cfg : StartConfig) (s : Startup) : Prop where
  proc : ∀ j < cfg.procs, cfg.ProcOk s j
  info : ∀ id, InfoOk cfg s id
  serving : ∀ j < cfg.procs, s.serving j = true → s.pc j ≠ .launched
  owner : ∀ page, 0 ≤ s.writeInsId page → ∃ j < cfg.procs, s.pc j = .running ∧ cfg.ids j = s.writeInsId page

section Inv

variable {cfg : StartConfig} {s s' : Startup} {j : Nat} {pc : ProcPc}

/-- What the table has of an instance is not taken back. -/
structure Grows (s s' : Startup) : Prop where
  host : ∀ id h, (s.instances id).host = some h → h = id → (s'.instances id).host = some h
  client : ∀ id h, (s.instances id).client = some h → h = id → (s'.instances id).client = some h
  done : ∀ id, (s.instances id).initDone = true → (s'.instances id).initDone = true

theorem StartConfig.ProcOk.grows (h : cfg.ProcOk s j) (hpc : s'.pc j = s.pc j) (hg : Grows s s') : cfg.ProcOk s' j := by
  unfold ProcOk at h ⊢
  rw [hpc]
  split at h
  · trivial
  · trivial
  · trivial
  · exact h
  · exact ⟨h.1, hg.host _ _ h.2 rfl⟩
  · exact ⟨h.1, hg.client _ _ h.2 rfl⟩
  · exact ⟨h.1, hg.done _ h.2.1, fun k hk => hg.done _ (h.2.2 k hk)⟩
  · exact ⟨h.1, fun k hk => hg.done _ (h.2 k hk)⟩

theorem Grows.set {id : Int} {info : InstanceInfo} (hh : (s.instances id).host = some id → info.host = some id)
    (hc : (s.instances id).client = some id → info.client = some id)
    (hd : (s.instances id).initDone = true → info.initDone = true) : Grows s (s.setInstance id info) := by
  have hset : (s.setInstance id info).instances id = info := Function.update_self ..
  have hne : ∀ {i : Int}, i ≠ id → (s.setInstance id info).instances i = s.instances i := fun h =>
    Function.update_of_ne h ..
  refine ⟨fun i h hi he => ?_, fun i h hi he => ?_, fun i hi => ?_⟩ <;> by_cases heq : i = id
  · rw [he, heq] at hi ⊢; rw [hset]; exact hh hi
  · rw [hne heq]; exact hi
  · rw [he, heq] at hi ⊢; rw [hset]; exact hc hi
  · rw [hne heq]; exact hi
  · rw [heq] at hi ⊢; rw [hset]; exact hd hi
  · rw [hne heq]; exact hi

namespace StartInv

theorem init : StartInv cfg .init :=
  ⟨fun _ _ => trivial, fun _ => ⟨nofun, nofun, nofun⟩, fun _ _ => nofun,
    fun _ h => absurd (show (0 : Int) ≤ -1 from h) (by decide)⟩

/-- The process `j` moves on and changes the entry of its id. -/
theorem next (hi : StartInv cfg s) (info : InstanceInfo) (pc : ProcPc) (hrun : s.pc j ≠ .running)
    (hg : Grows s (s.setInstance (cfg.ids j) info)) (hinfo : InfoOk cfg (s.setInstance (cfg.ids j) info) (cfg.ids j))
    (hpc : pc ≠ .launched) (hok : cfg.ProcOk ((s.setInstance (cfg.ids j) info).goto j pc) j) :
    StartInv cfg ((s.setInstance (cfg.ids j) info).goto j pc) := by
  have hother : ∀ {i}, i ≠ j → ((s.setInstance (cfg.ids j) info).goto j pc).pc i = s.pc i := fun h =>
    Function.update_of_ne h ..
  have hgrows : Grows s ((s.setInstance (cfg.ids j) info).goto j pc) := ⟨hg.host, hg.client, hg.done⟩
  refine ⟨fun i hij => ?_, fun id => ?_, fun i hij hs => ?_, fun page h => ?_⟩
  · by_cases h : i = j
    · rw [h]; exact hok
    · exact (hi.proc i hij).grows (hother h) hgrows
  · by_cases h : id = cfg.ids j
    · rw [h]; exact ⟨hinfo.host, hinfo.client, hinfo.done⟩
    · have hsame : ((s.setInstance (cfg.ids j) info).goto j pc).instances id = s.instances id :=
        Function.update_of_ne h ..
      refine ⟨?_, ?_, ?_⟩ <;> rw [hsame]
      · exact (hi.info id).host
      · exact (hi.info id).client
      · exact (hi.info id).done
  · by_cases h : i = j
    · rw [h, show Startup.pc _ j = pc from Function.update_self ..]; exact hpc
    · rw [hother h]; exact hi.serving i hij hs
  · obtain ⟨i, hij, hr, hid⟩ := hi.owner page h
    refine ⟨i, hij, ?_, hid⟩
    rw [hother fun h => hrun (h ▸ hr)]
    exact hr

/-- The process `j` moves on. -/
theorem goto (hi : StartInv cfg s) (hrun : s.pc j ≠ .running) (hpc : pc ≠ .launched)
    (hok : cfg.ProcOk (s.goto j pc) j) : StartInv cfg (s.goto j pc) := by
  have hself : s.setInstance (cfg.ids j) (s.instances (cfg.ids j)) = s := by
    unfold Startup.setInstance
    rw [Function.update_eq_self]
  have hnext := hi.next (s.instances (cfg.ids j)) pc hrun
  rw [hself] at hnext
  exact hnext ⟨fun _ _ h _ => h, fun _ _ h _ => h, fun _ h => h⟩ (hi.info _) hpc hok

theorem advance (hi : StartInv cfg s) (hj : j < cfg.procs) (h : Advance cfg s j s') : StartInv cfg s' := by
  have hproc := hi.proc j hj
  have hinfo := hi.info (cfg.ids j)
  unfold StartConfig.ProcOk at hproc
  have hok : ∀ {t : Startup} {pc : ProcPc},
      (cfg.ProcOk (t.goto j pc) j ↔ cfg.ProcOk { t with pc := fun _ => pc } j) := by
    intro t pc
    unfold StartConfig.ProcOk
    rw [show (t.goto j pc).pc j = pc from Function.update_self ..]
    rfl
  have hset : ∀ {info : InstanceInfo}, (s.setInstance (cfg.ids j) info).instances (cfg.ids j) = info :=
    Function.update_self ..
  cases h with
  | init h | report h =>
    exact hi.goto (by rw [h]; exact ProcPc.noConfusion) ProcPc.noConfusion (hok.2 trivial)
  | accept h hr hd => exact hi.goto (by rw [h]; exact ProcPc.noConfusion) ProcPc.noConfusion (hok.2 hr)
  | reject | refused =>
    exact ⟨hi.proc, fun id => ⟨(hi.info id).host, (hi.info id).client, (hi.info id).done⟩, hi.serving, hi.owner⟩
  | fill h =>
    rw [h] at hproc
    refine hi.next _ _ (by rw [h]; exact ProcPc.noConfusion) (.set (fun _ => rfl) id id) ⟨?_, ?_, ?_⟩
      ProcPc.noConfusion (hok.2 ⟨hproc, by dsimp only; rw [hset]⟩) <;> rw [hset]
    · exact fun h hh => (Option.some.inj hh).symm
    · exact hinfo.client
    · exact hinfo.done
  | @connect host h hh hl =>
    rw [h] at hproc
    obtain rfl : host = cfg.ids j := hinfo.host host hh
    refine hi.next _ _ (by rw [h]; exact ProcPc.noConfusion) (.set id (fun _ => rfl) id) ⟨?_, ?_, ?_⟩
      ProcPc.noConfusion (hok.2 ⟨hproc.1, by dsimp only; rw [hset]⟩) <;> rw [hset]
    · exact hinfo.host
    · intro h hh
      cases hh
      exact ⟨rfl, hl⟩
    · exact fun _ => rfl
  | publish h =>
    rw [h] at hproc
    refine hi.next _ _ (by rw [h]; exact ProcPc.noConfusion) (.set id id fun _ => rfl) ⟨?_, ?_, ?_⟩
      ProcPc.noConfusion (hok.2 ⟨hproc.1, by dsimp only; rw [hset], nofun⟩) <;> rw [hset]
    · exact hinfo.host
    · exact hinfo.client
    · exact fun _ => hproc.2
  | @seen i h hlt hd =>
    rw [h] at hproc
    refine hi.goto (by rw [h]; exact ProcPc.noConfusion) ProcPc.noConfusion (hok.2 ⟨hproc.1, hproc.2.1, fun k hk => ?_⟩)
    rcases Nat.lt_succ_iff_lt_or_eq.1 hk with hk | rfl
    · exact hproc.2.2 k hk
    · exact hd
  | missed h hlt hd =>
    rw [h] at hproc
    exact hi.goto (by rw [h]; exact ProcPc.noConfusion) ProcPc.noConfusion (hok.2 ⟨hproc.1, hproc.2.1, nofun⟩)
  | @run i h hle =>
    rw [h] at hproc
    have hrun : StartInv cfg (s.goto j .running) := hi.goto (by rw [h]; exact ProcPc.noConfusion) ProcPc.noConfusion
      (hok.2 ⟨hproc.1, fun k hk => hproc.2.2 k (Nat.lt_of_lt_of_le hk hle)⟩)
    exact ⟨hrun.proc, fun id => ⟨(hrun.info id).host, (hrun.info id).client, (hrun.info id).done⟩, hrun.serving,
      hrun.owner⟩

theorem serve (hi : StartInv cfg s) (hpc : s.pc j ≠ .launched) :
    StartInv cfg { s with serving := Function.update s.serving j true } := by
  have hserve : ∀ i, s.serving i = true → Function.update s.serving j true i = true := by
    intro i h
    by_cases hij : i = j
    · rw [hij, Function.update_self]
    · rw [Function.update_of_ne hij]; exact h
  refine ⟨hi.proc, fun id => ⟨(hi.info id).host, fun h hc => ?_, (hi.info id).done⟩, fun i hij hs => ?_, hi.owner⟩
  · obtain ⟨heq, i, hlt, hs, hid⟩ := (hi.info id).client h hc
    exact ⟨heq, i, hlt, hserve i hs, hid⟩
  · by_cases h : i = j
    · rw [h]; exact hpc
    · exact hi.serving i hij (by rwa [show Startup.serving _ i = _ from Function.update_of_ne h ..] at hs)

/-- A process runs: every id has reported, and its client is connected to a process that listens. -/
theorem ready (hi : StartInv cfg s) (hj : j < cfg.procs) (hpc : s.pc j = .running) {id : Int} (hid : cfg.InRange id) :
    (s.instances id).initDone = true ∧ (s.instances id).client = some id ∧ Startup.Listening cfg s id := by
  have hproc := hi.proc j hj
  unfold StartConfig.ProcOk at hproc
  rw [hpc] at hproc
  have hnat : ((id.toNat : Nat) : Int) = id := Int.toNat_of_nonneg hid.1
  have hdone := hproc.2 id.toNat (by have := hid.2; omega)
  rw [hnat] at hdone
  have hclient := (hi.info id).done hdone
  exact ⟨hdone, hclient, ((hi.info id).client id hclient).2⟩

theorem inRange (hi : StartInv cfg s) (hj : j < cfg.procs) (hpc : s.pc j = .running) : cfg.InRange (cfg.ids j) := by
  have hproc := hi.proc j hj
  unfold StartConfig.ProcOk at hproc
  rw [hpc] at hproc
  exact hproc.1

/-- `Invalid` goes to a process that runs. -/
theorem lockRemote_eq (hi : StartInv cfg s) (j page : Nat) :
    s.lockRemote cfg j page = { s with writeInsId := Function.update s.writeInsId page (cfg.ids j) } := by
  unfold Startup.lockRemote
  split
  · rename_i hw
    obtain ⟨i, hij, hr, hid⟩ := hi.owner page hw
    obtain ⟨-, hclient, hl⟩ := hi.ready hij hr (hi.inRange hij hr)
    rw [hid] at hclient hl
    rw [hclient]
    exact if_pos hl
  · rfl

theorem step (hi : StartInv cfg s) {e : StartEv} (h : s.step cfg e = some s') : StartInv cfg s' := by
  cases (StartStep.of_step h).2 with
  | serve hj hpc => exact hi.serve hpc
  | main hj h => exact hi.advance hj h
  | @lockRemote j page hj hpc =>
    rw [hi.lockRemote_eq j page]
    refine ⟨hi.proc, fun id => ⟨(hi.info id).host, (hi.info id).client, (hi.info id).done⟩, hi.serving, fun p hp => ?_⟩
    by_cases hpp : p = page
    · refine ⟨j, hj, hpc, ?_⟩
      show cfg.ids j = Function.update s.writeInsId page (cfg.ids j) p
      rw [hpp, Function.update_self]
    · have hsame : Function.update s.writeInsId page (cfg.ids j) p = s.writeInsId p := Function.update_of_ne hpp ..
      dsimp only at hp ⊢
      rw [hsame] at hp ⊢
      exact hi.owner p hp

theorem reach {G : Startup → StartEv → Prop} (h : (startLts cfg).Reach G s) : StartInv cfg s :=
  h.inv (fun _ h0 => by rw [h0]; exact .init) fun _ _ _ hi _ hs => hi.step hs

end StartInv

end Inv

/-- The processes have the ids below `PROCESS_CNT`, each once. -/
structure StartConfig.Complete (cfg : StartConfig) : Prop where
  inRange : ∀ j < cfg.procs, cfg.InRange (cfg.ids j)
  distinct : ∀ i < cfg.procs, ∀ j < cfg.procs, cfg.ids i = cfg.ids j → i = j
  all : ∀ id, cfg.InRange id → ∃ j < cfg.procs, cfg.ids j = id

/-- The process has returned from `InstanceInitDone`. -/
def ProcPc.Reported : ProcPc → Prop
  | .polling _ | .running => True
  | _ => False

structure OnceInv (cfg : StartConfig) (s : Startup) : Prop where
  inv : StartInv cfg s
  failed : s.failed = false
  served : ∀ j < cfg.procs, s.pc j ≠ .launched → s.pc j ≠ .inited → s.serving j = true
  reported : ∀ id, (s.instances id).initDone = true → ∃ j < cfg.procs, cfg.ids j = id ∧ (s.pc j).Reported
  bound : ∀ j < cfg.procs, ∀ i, s.pc j = .polling i → i ≤ cfg.processCnt

section Once

variable {cfg : StartConfig} {s s' : Startup} {j : Nat}

namespace OnceInv

theorem init : OnceInv cfg .init :=
  ⟨.init, rfl, fun _ _ h => absurd rfl h, fun _ => nofun, fun _ _ _ => nofun⟩

/-- The table changes at the id of the process `j` only, which is behind the report if it is marked there. -/
theorem next (ho : OnceInv cfg s) (hinv : StartInv cfg s') {pc : ProcPc} (hf : s'.failed = false)
    (hserving : s'.serving = s.serving) (hpcs : s'.pc = Function.update s.pc j pc)
    (hdone : ∀ id, (s'.instances id).initDone = true →
      (s.instances id).initDone = true ∨ id = cfg.ids j ∧ j < cfg.procs ∧ pc.Reported)
    (hkeep : (s.pc j).Reported → pc.Reported)
    (hserved : pc ≠ .launched → pc ≠ .inited → s.serving j = true)
    (hbound : ∀ i, pc = .polling i → i ≤ cfg.processCnt) : OnceInv cfg s' := by
  refine ⟨hinv, hf, fun i hij => ?_, fun id hid => ?_, fun i hij => ?_⟩
  · rw [hserving, hpcs]
    by_cases h : i = j
    · rw [h, Function.update_self]; exact hserved
    · rw [Function.update_of_ne h]; exact ho.served i hij
  · rw [hpcs]
    rcases hdone id hid with hid | ⟨rfl, hj, hrep⟩
    · obtain ⟨i, hij, hidi, hrep⟩ := ho.reported id hid
      refine ⟨i, hij, hidi, ?_⟩
      by_cases h : i = j
      · rw [h] at hrep ⊢
        rw [Function.update_self]; exact hkeep hrep
      · rw [Function.update_of_ne h]; exact hrep
    · exact ⟨j, hj, rfl, by rw [Function.update_self]; exact hrep⟩
  · rw [hpcs]
    by_cases h : i = j
    · rw [h, Function.update_self]; exact hbound
    · rw [Function.update_of_ne h]; exact ho.bound i hij

/-- The id of a process that has not returned from its report is not marked. -/
theorem initDone_eq_false (ho : OnceInv cfg s) (hc : cfg.Complete) (hj : j < cfg.procs) (hpc : ¬ (s.pc j).Reported) :
    (s.instances (cfg.ids j)).initDone = false := by
  refine Bool.eq_false_of_not_eq_true fun hd => ?_
  obtain ⟨i, hij, hid, hrep⟩ := ho.reported _ hd
  rw [hc.distinct i hij j hj hid] at hrep
  exact hpc hrep

theorem advance (ho : OnceInv cfg s) (hc : cfg.Complete) (hj : j < cfg.procs)
    (hok : s.pc j = .inited → s.serving j = true) (h : Advance cfg s j s') : OnceInv cfg s' := by
  have hinv := ho.inv.advance hj h
  have hproc := ho.inv.proc j hj
  unfold StartConfig.ProcOk at hproc
  have hserved : ∀ {pc : ProcPc}, s.pc j = pc → pc ≠ .launched → pc ≠ .inited → s.serving j = true := by
    rintro _ rfl
    exact ho.served j hj
  have hsame : ∀ {info : InstanceInfo} {id : Int}, ((s.setInstance (cfg.ids j) info).instances id).initDone = true →
      info.initDone = (s.instances (cfg.ids j)).initDone → (s.instances id).initDone = true := by
    intro info id hd hinfo
    by_cases h : id = cfg.ids j
    · rw [h] at hd ⊢
      rwa [show Startup.instances _ _ = info from Function.update_self .., hinfo] at hd
    · rwa [show Startup.instances _ id = _ from Function.update_of_ne h ..] at hd
  cases h with
  | init h => exact ho.next hinv ho.failed rfl rfl (fun _ => .inl) (by rw [h]; exact id) (fun _ h => absurd rfl h) nofun
  | report h => exact ho.next hinv ho.failed rfl rfl (fun _ => .inl) (by rw [h]; exact id) (fun _ _ => hok h) nofun
  | accept h hr hd =>
    exact ho.next hinv ho.failed rfl rfl (fun _ => .inl) (by rw [h]; exact id)
      (fun _ _ => hserved h nofun nofun) nofun
  | reject h hn =>
    exact absurd ⟨hc.inRange j hj, ho.initDone_eq_false hc hj (by rw [h]; exact id)⟩ hn
  | fill h =>
    exact ho.next hinv ho.failed rfl rfl (fun i hi => .inl (hsame hi rfl)) (by rw [h]; exact id)
      (fun _ _ => hserved h nofun nofun) nofun
  | connect h hh hl =>
    exact ho.next hinv ho.failed rfl rfl (fun i hi => .inl (hsame hi rfl)) (by rw [h]; exact id)
      (fun _ _ => hserved h nofun nofun) nofun
  | refused h hn =>
    rw [h] at hproc
    exact absurd ⟨j, hj, hserved h nofun nofun, rfl⟩ (hn _ hproc.2)
  | publish h =>
    refine ho.next hinv ho.failed rfl rfl (fun i hi => ?_) (fun _ => trivial)
      (fun _ _ => hserved h nofun nofun) ?_
    · by_cases hid : i = cfg.ids j
      · exact .inr ⟨hid, hj, trivial⟩
      · exact .inl (by rwa [show Startup.instances _ i = _ from Function.update_of_ne hid ..] at hi)
    · intro i hi
      cases hi
      exact Nat.zero_le _
  | @seen i h hlt hd =>
    refine ho.next hinv ho.failed rfl rfl (fun _ => .inl) (fun _ => trivial)
      (fun _ _ => hserved h nofun nofun) ?_
    intro k hk
    cases hk
    exact hlt
  | missed h hlt hd =>
    refine ho.next hinv ho.failed rfl rfl (fun _ => .inl) (fun _ => trivial)
      (fun _ _ => hserved h nofun nofun) ?_
    intro k hk
    cases hk
    exact Nat.zero_le _
  | run h hle =>
    exact ho.next hinv ho.failed rfl rfl (fun _ => .inl) (fun _ => trivial)
      (fun _ _ => hserved h nofun nofun) nofun

theorem step (ho : OnceInv cfg s) (hc : cfg.Complete) {e : StartEv} (hok : ServeOk s e) (h : s.step cfg e = some s') :
    OnceInv cfg s' := by
  have hinv := ho.inv.step h
  cases (StartStep.of_step h).2 with
  | @serve j hj hpc =>
    refine ⟨hinv, ho.failed, fun i hij h h' => ?_, ho.reported, ho.bound⟩
    by_cases hij : i = j
    · rw [hij]; exact Function.update_self ..
    · exact (Function.update_of_ne hij ..).trans (ho.served i ‹_› h h')
  | main hj h => exact ho.advance hc hj hok h
  | @lockRemote j page hj hpc =>
    rw [ho.inv.lockRemote_eq] at hinv ⊢
    exact ⟨hinv, ho.failed, ho.served, ho.reported, ho.bound⟩

theorem reach (hc : cfg.Complete) (h : (startLts cfg).Reach ServeOk s) : OnceInv cfg s :=
  h.inv (fun _ h0 => by rw [h0]; exact .init) fun _ _ _ ho hok hs => ho.step hc hok hs

end OnceInv

/-- The steps that a process still has to make if it does not miss a report. -/
def ProcPc.rank (n : Nat) : ProcPc → Nat
  | .launched => n + 7
  | .inited => n + 6
  | .check => n + 5
  | .fill => n + 4
  | .connect => n + 3
  | .publish => n + 2
  | .polling i => n - i + 1
  | .running => 0

def Startup.work (cfg : StartConfig) (s : Startup) (j : Nat) : Nat :=
  (s.pc j).rank cfg.processCnt + (!s.serving j).toNat

def Startup.workLeft (cfg : StartConfig) (s : Startup) : Nat := ∑ j ∈ Finset.range cfg.procs, s.work cfg j

/-- A step of a process other than a missed poll is progress. -/
theorem workLeft_advance (hj : j < cfg.procs) (h : Advance cfg s j s') (hf : s'.failed = false)
    (hall : ∀ k : Nat, s.pc j = .polling k → k < cfg.processCnt → (s.instances k).initDone = true) :
    s'.workLeft cfg < s.workLeft cfg := by
  have hgoto : ∀ {t : Startup} {pc : ProcPc}, t.serving = s.serving → t.pc = Function.update s.pc j pc →
      pc.rank cfg.processCnt < (s.pc j).rank cfg.processCnt → t.workLeft cfg < s.workLeft cfg := by
    intro t pc hser hpc hlt
    refine sum_lt_sum_of_one (Finset.mem_range.2 hj) (fun i hne => ?_) ?_
    · unfold Startup.work
      rw [hser, hpc, Function.update_of_ne hne]
    · unfold Startup.work
      rw [hser, hpc, Function.update_self]
      omega
  cases h with
  | init h | report h | accept h | fill h | connect h | publish h =>
    refine hgoto rfl rfl ?_
    rw [h]
    simp only [ProcPc.rank]
    omega
  | reject | refused => cases hf
  | seen h hlt hd =>
    refine hgoto rfl rfl ?_
    rw [h]
    simp only [ProcPc.rank]
    omega
  | missed h hlt hd =>
    rw [hall _ h hlt] at hd
    cases hd
  | run h hle =>
    refine hgoto rfl rfl ?_
    rw [h]
    simp only [ProcPc.rank]
    omega

theorem exists_advance (cfg : StartConfig) (h : s.pc j ≠ .running) : ∃ s', s.advance cfg j = some s' := by
  unfold Startup.advance
  cases hpc : s.pc j with
  | running => exact absurd hpc h
  | connect =>
    dsimp only
    split <;> exact ⟨_, rfl⟩
  | launched | inited | check | fill | publish | polling => exact ⟨_, rfl⟩

/-- Short of the goal some process can move on: one that has not reported, or else any one that polls. -/
theorem exists_progress (hc : cfg.Complete) (ho : OnceInv cfg s) (hnot : ¬ ∀ j < cfg.procs, s.pc j = .running) :
    ∃ e s', ServeOk s e ∧ s.step cfg e = some s' ∧ s'.workLeft cfg < s.workLeft cfg := by
  have hnf : ¬ s.failed = true := by rw [ho.failed]; exact Bool.noConfusion
  have hmain : ∀ {j : Nat}, j < cfg.procs → (s.pc j = .inited → s.serving j = true) → s.pc j ≠ .running →
      (∀ k : Nat, s.pc j = .polling k → k < cfg.processCnt → (s.instances k).initDone = true) →
      ∃ e s', ServeOk s e ∧ s.step cfg e = some s' ∧ s'.workLeft cfg < s.workLeft cfg := by
    intro j hj hok hrun hall
    obtain ⟨s', hs'⟩ := exists_advance cfg hrun
    have hadv := Advance.of_advance hs'
    refine ⟨.main j, s', hok, ?_, workLeft_advance hj hadv (ho.advance hc hj hok hadv).failed hall⟩
    rw [Startup.step, if_neg hnf]
    exact (if_pos hj).trans hs'
  by_cases hrep : ∀ j < cfg.procs, (s.pc j).Reported
  · have hall : ∀ k < cfg.processCnt, (s.instances (k : Nat)).initDone = true := by
      intro k hk
      obtain ⟨j, hj, hid⟩ := hc.all k ⟨Int.natCast_nonneg k, by exact_mod_cast hk⟩
      have hr := hrep j hj
      have hproc := ho.inv.proc j hj
      unfold StartConfig.ProcOk at hproc
      cases hpc : s.pc j <;> rw [hpc] at hr hproc
      case polling => rw [← hid]; exact hproc.2.1
      case running => exact hproc.2 k hk
      all_goals exact hr.elim
    obtain ⟨j, hj⟩ := not_forall.1 hnot
    obtain ⟨hj, hrun⟩ := Classical.not_imp.1 hj
    exact hmain hj (fun h => by have := hrep j hj; rw [h] at this; exact this.elim) hrun fun k _ hk => hall k hk
  · obtain ⟨j, hj⟩ := not_forall.1 hrep
    obtain ⟨hj, hnr⟩ := Classical.not_imp.1 hj
    by_cases hserve : s.pc j = .inited ∧ s.serving j = false
    · refine ⟨.serve j, { s with serving := Function.update s.serving j true }, trivial, ?_, ?_⟩
      · rw [Startup.step, if_neg hnf]
        exact if_pos ⟨hj, by rw [hserve.1]; exact nofun⟩
      · refine sum_lt_sum_of_one (Finset.mem_range.2 hj) (fun i hne => ?_) ?_ <;> unfold Startup.work <;> dsimp only
        · rw [Function.update_of_ne hne]
        · rw [Function.update_self, hserve.2]
          exact Nat.lt_succ_self _
    · refine hmain hj (fun h => ?_) (fun h => ?_) fun k h => ?_
      · exact Bool.eq_true_of_not_eq_false fun h' => hserve ⟨h, h'⟩
      · rw [h] at hnr; exact absurd trivial hnr
      · rw [h] at hnr; exact absurd trivial hnr

end Once

/-- If every id is started once and the server threads listen when the processes report, no assertion of
`set_instance_i` fails, every connection is accepted, and from every state that is reached all processes can come
to run. -/
theorem startup_completes {cfg : StartConfig} (hc : cfg.Complete) {s : Startup} (h : (startLts cfg).Reach ServeOk s) :
    s.failed = false ∧ ∃ as s', (startLts cfg).run s as = some s' ∧ s'.failed = false ∧
      ∀ j < cfg.procs, s'.pc j = .running := by
  refine ⟨(OnceInv.reach hc h).failed, ?_⟩
  have hstep : ∀ s, (startLts cfg).Reach ServeOk s → ¬ (∀ j < cfg.procs, s.pc j = .running) →
      ∃ e s', True ∧ (startLts cfg).step s e = some s' ∧ (startLts cfg).Reach ServeOk s' ∧
        s'.workLeft cfg < s.workLeft cfg := by
    intro s hs hnot
    obtain ⟨e, s', hok, hs', hlt⟩ := exists_progress hc (OnceInv.reach hc hs) hnot
    exact ⟨e, s', trivial, hs', .step hs hok hs', hlt⟩
  obtain ⟨as, s', -, hr, hs', hgoal⟩ := Lts.exists_goal _ (Startup.workLeft cfg) hstep h
  exact ⟨as, s', hr, (OnceInv.reach hc hs').failed, hgoal⟩

/-- Two processes with the ids 1 and 0. -/
def twoProcs : StartConfig := ⟨2, 2, fun j => 1 - (j : Int)⟩

theorem twoProcs_complete : twoProcs.Complete := by
  refine ⟨fun j hj => ?_, fun i _ j _ h => ?_, fun id hid => ?_⟩
  · have : j < 2 := hj
    show 0 ≤ 1 - (j : Int) ∧ 1 - (j : Int) < 2
    omega
  · have : 1 - (i : Int) = 1 - (j : Int) := h
    omega
  · obtain ⟨h0, h2⟩ : 0 ≤ id ∧ id < 2 := hid
    refine ⟨(1 - id).toNat, ?_, ?_⟩
    · show (1 - id).toNat < 2
      omega
    · show 1 - ((1 - id).toNat : Int) = id
      omega

/-- Both processes report before either polls. -/
def twoStarts : List StartEv :=
  [.main 0, .main 1, .serve 0, .serve 1, .main 0, .main 1, .main 0, .main 1, .main 0, .main 1, .main 1, .main 0,
    .main 0, .main 1, .main 0, .main 0, .main 0, .lockRemote 0 7]

theorem startup_completes_two : ∃ s : Startup, (startLts twoProcs).Reach ServeOk s ∧ s.pc 0 = .running ∧
    s.pc 1 = .polling 0 ∧ ∃ as s', (startLts twoProcs).run s as = some s' ∧ s'.failed = false ∧
      ∀ j < twoProcs.procs, s'.pc j = .running := by
  have hrun : ((startLts twoProcs).runIf (fun s e => decide (ServeOk s e)) .init twoStarts).any
      (fun s => decide (s.pc 0 = .running ∧ s.pc 1 = .polling 0)) = true := by decide +kernel
  simp only [Option.any_eq_true, decide_eq_true_eq] at hrun
  obtain ⟨s, hs, h0, h1⟩ := hrun
  have hreach : (startLts twoProcs).Reach ServeOk s := .runIf (fun _ _ => of_decide_eq_true) (.init rfl) hs
  exact ⟨s, hreach, h0, h1, (startup_completes twoProcs_complete hreach).2⟩

end Dbx1000
