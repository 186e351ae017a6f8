import Mathlib.Logic.Function.Basic
import Dbx1000.Lib.Lts
import Dbx1000.LockTable

/-!
# Page locks across instances

`ni` instances with `nt` threads each, and the global lock. A thread runs `GetWritePageLock` over its
write page set, the body of its transaction (`WriteRow` on pages of the set) and the `RemoveThread`
loop (`instance/txn/ycsb_txn.cpp`); `GlobalLock::LockRemote` hands a page over after an `Invalid` call
to its owner. Every read or write of a shared field is a step of its own, except where a mutex makes
several of them one. A thread has at most one call under way, so a `LockRemote` request or reply on
the network is a program point of its caller, and the `Invalid` request or reply of a page is a stage
of the global lock's node: deliveries are steps and happen in any order. Both services run one call
of a page at a time because the node's mutex is held across `Invalid`. `B` is the type of a page's
bytes.
-/

namespace Dbx1000

/-- Where a thread is. `done` and `added` are the pages of the set that the loop has passed, `rest`
the pages it still has to visit. -/
inductive Pc (B : Type)
  | idle
  | scan (set rest : List Nat)
  | get (done rest : List Nat)
  | cas (done : List Nat) (p : Nat) (rest : List Nat)
  | failed (done : List Nat) (p : Nat) (rest : List Nat)
  | requested (done : List Nat) (p : Nat) (rest : List Nat)
  | replied (done : List Nat) (p : Nat) (rest : List Nat) (rc : RC) (buf : B)
  | put (done : List Nat) (p : Nat) (rest : List Nat) (buf : B)
  | clear (done : List Nat) (p : Nat) (rest : List Nat)
  | spin (done : List Nat) (p : Nat) (rest : List Nat)
  | spun (done : List Nat) (p : Nat) (rest : List Nat)
  | check (added rest : List Nat)
  | add (added : List Nat) (p : Nat) (rest : List Nat)
  | body (set : List Nat)
  | writing (set : List Nat) (p : Nat) (f : B → B)
  | locked (set : List Nat) (p : Nat) (f : B → B)
  | written (set : List Nat) (p : Nat)
  | unpin (rest : List Nat)
  | remove (p : Nat) (rest : List Nat)

structure Inst (nt : Nat) (B : Type) where
  nodes : Nat → LockNode
  buffer : Nat → B
  threads : Fin nt → Pc B

namespace Inst

variable {nt : Nat} {B : Type}

def goto (t : Fin nt) (pc : Pc B) (s : Inst nt B) : Inst nt B :=
  { s with threads := Function.update s.threads t pc }

def setNode (p : Nat) (n : LockNode) (s : Inst nt B) : Inst nt B :=
  { s with nodes := Function.update s.nodes p n }

section Update

variable {s : Inst nt B} {t t' : Fin nt} {pc : Pc B} {p q : Nat} {n : LockNode}

@[simp] theorem threads_goto_self : (s.goto t pc).threads t = pc := Function.update_self ..

theorem threads_goto_of_ne (h : t' ≠ t) : (s.goto t pc).threads t' = s.threads t' := Function.update_of_ne h ..

@[simp] theorem nodes_goto : (s.goto t pc).nodes = s.nodes := rfl

@[simp] theorem nodes_setNode_self : (s.setNode p n).nodes p = n := Function.update_self ..

theorem nodes_setNode_of_ne (h : q ≠ p) : (s.setNode p n).nodes q = s.nodes q := Function.update_of_ne h ..

end Update

/-- The next step of a thread by itself. A thread that waits for a reply or for work has none. -/
def threadStep (t : Fin nt) (s : Inst nt B) : Option (Inst nt B) :=
  match s.threads t with
  | .idle | .requested .. | .body _ => none
  -- while(has_invalid_req())
  | .scan set [] => some (s.goto t (.get [] set))
  | .scan set (p :: rest) => some (s.goto t (if (s.nodes p).invalidReq then .scan set set else .scan set rest))
  | .get done [] => some (s.goto t (.check [] done))
  | .get done (p :: rest) =>
    some (s.goto t (if (s.nodes p).lockMode = .O then .cas done p rest else .get (done ++ [p]) rest))
  | .cas done p rest =>
    if (s.nodes p).lockRemoting then some (s.goto t (.failed done p rest))
    else some ((s.setNode p { s.nodes p with lockRemoting := true }).goto t (.requested done p rest))
  | .failed done p rest =>
    if (s.nodes p).lockRemoting then some (s.goto t (.spin done p rest)) else none
  | .replied done p rest rc buf =>
    if rc = .abort ∨ rc = .timeOut then
      some ((s.setNode p { s.nodes p with lockRemoting := false }).goto t .idle)
    else if rc = .rcok ∧ (s.nodes p).lockMode = .O then
      some ((s.setNode p { s.nodes p with lockMode := .P }).goto t (.put done p rest buf))
    else none
  | .put done p rest buf => some ({ s with buffer := Function.update s.buffer p buf }.goto t (.clear done p rest))
  | .clear done p rest =>
    some ((s.setNode p { s.nodes p with lockRemoting := false }).goto t (.get (done ++ [p]) rest))
  | .spin done p rest => if (s.nodes p).lockMode = .O then none else some (s.goto t (.spun done p rest))
  | .spun done p rest => if (s.nodes p).lockMode = .O then none else some (s.goto t (.get (done ++ [p]) rest))
  | .check added [] => some (s.goto t (.body added))
  | .check added (p :: rest) => if (s.nodes p).lockMode = .O then none else some (s.goto t (.add added p rest))
  | .add added p rest =>
    if (s.nodes p).mtx then none
    else some ((s.setNode p ((s.nodes p).addThread t)).goto t (.check (added ++ [p]) rest))
  | .writing set p f =>
    if (s.nodes p).canLock .X then
      ((s.nodes p).lock .X).map fun n => (s.setNode p n).goto t (.locked set p f)
    else none
  | .locked set p f =>
    some ({ s with buffer := Function.update s.buffer p (f (s.buffer p)) }.goto t (.written set p))
  | .written set p =>
    if (s.nodes p).mtx then none else (s.nodes p).unLock.map fun n => (s.setNode p n).goto t (.body set)
  | .unpin [] => some (s.goto t .idle)
  | .unpin (p :: rest) => if (s.nodes p).lockMode = .O then none else some (s.goto t (.remove p rest))
  | .remove p rest =>
    if (s.nodes p).mtx then none
    else ((s.nodes p).removeThread t).map fun n => (s.setNode p n).goto t (.unpin rest)

end Inst

/-- How far the `Invalid` call of a page is. -/
inductive InvalidStage (B : Type)
  | sent
  | waiting
  | invalidated (rc : RC)
  | returned (rc : RC) (buf : B)

/-- The `LockRemote` call that holds the mutex of a page's node during `Invalid`. -/
structure Serving (ni nt : Nat) (B : Type) where
  ins : Fin ni
  thd : Fin nt
  owner : Fin ni
  stage : InvalidStage B

structure GlobalNode (ni nt : Nat) (B : Type) where
  writeInsId : Option (Fin ni)
  serving : Option (Serving ni nt B)

structure PageSys (ni nt : Nat) (B : Type) where
  insts : Fin ni → Inst nt B
  global : Nat → GlobalNode ni nt B
  globalBuffer : Nat → B

inductive PageEv (ni nt : Nat) (B : Type)
  | start (i : Fin ni) (t : Fin nt) (set : List Nat)
  | thread (i : Fin ni) (t : Fin nt)
  | write (i : Fin ni) (t : Fin nt) (p : Nat) (f : B → B)
  | finish (i : Fin ni) (t : Fin nt)
  | serve (i : Fin ni) (t : Fin nt)
  | invalidArrive (p : Nat)
  | invalidate (p : Nat)
  | invalidReturn (p : Nat)
  | grant (p : Nat)

/-- `GlobalLockServiceImpl::LockRemote` after the call: the code sent back. -/
def replyRc : RC → Option RC
  | .abort => some .abort
  | .rcok => some .rcok
  | _ => none

namespace PageSys

variable {ni nt : Nat} {B : Type}

def init (buf : Nat → B) (ibuf : Fin ni → Nat → B) : PageSys ni nt B where
  insts i := ⟨fun _ => .init, ibuf i, fun _ => .idle⟩
  global _ := ⟨none, none⟩
  globalBuffer := buf

def mode (s : PageSys ni nt B) (i : Fin ni) (p : Nat) : LockMode := ((s.insts i).nodes p).lockMode

def setInst (i : Fin ni) (inst : Inst nt B) (s : PageSys ni nt B) : PageSys ni nt B :=
  { s with insts := Function.update s.insts i inst }

def setGlobal (p : Nat) (n : GlobalNode ni nt B) (s : PageSys ni nt B) : PageSys ni nt B :=
  { s with global := Function.update s.global p n }

/-- The reply of `LockRemote` to the thread `t` of `i`. -/
def reply (i : Fin ni) (t : Fin nt) (rc : RC) (buf : B) (s : PageSys ni nt B) : Option (PageSys ni nt B) :=
  match (s.insts i).threads t with
  | .requested done p rest => some (s.setInst i ((s.insts i).goto t (.replied done p rest rc buf)))
  | _ => none

/-- `GlobalLock::LockRemote` takes the node's mutex for the request of `t`: a page nobody holds is
answered at once, else its owner is sent `Invalid`. -/
def serve (i : Fin ni) (t : Fin nt) (s : PageSys ni nt B) : Option (PageSys ni nt B) :=
  match (s.insts i).threads t with
  | .requested _ p _ =>
    match s.global p with
    | ⟨none, none⟩ => (s.setGlobal p ⟨some i, none⟩).reply i t .rcok (s.globalBuffer p)
    | ⟨some o, none⟩ => some (s.setGlobal p ⟨some o, some ⟨i, t, o, .sent⟩⟩)
    | ⟨_, some _⟩ => none
  | _ => none

/-- The `Invalid` call of `p` moves on: `stage` is its new stage and `n` the owner's node. -/
def invalidStep (p : Nat) (v : Serving ni nt B) (stage : InvalidStage B) (n : LockNode) (s : PageSys ni nt B) :
    PageSys ni nt B :=
  (s.setInst v.owner ((s.insts v.owner).setNode p n)).setGlobal p
    { s.global p with serving := some { v with stage := stage } }

def step (s : PageSys ni nt B) : PageEv ni nt B → Option (PageSys ni nt B)
  | .start i t set =>
    match (s.insts i).threads t with
    | .idle => if set.Pairwise (· < ·) then some (s.setInst i ((s.insts i).goto t (.scan set set))) else none
    | _ => none
  | .thread i t => ((s.insts i).threadStep t).map fun inst => s.setInst i inst
  | .write i t p f =>
    match (s.insts i).threads t with
    | .body set =>
      -- `WriteRow` asserts that the mode is not O
      if p ∈ set ∧ ((s.insts i).nodes p).lockMode ≠ .O then
        some (s.setInst i ((s.insts i).goto t (.writing set p f)))
      else none
    | _ => none
  | .finish i t =>
    match (s.insts i).threads t with
    | .body set => some (s.setInst i ((s.insts i).goto t (.unpin set)))
    | _ => none
  | .serve i t => s.serve i t
  | .invalidArrive p =>
    match (s.global p).serving with
    | some ⟨i, t, o, .sent⟩ =>
      some (s.invalidStep p ⟨i, t, o, .sent⟩ .waiting { (s.insts o).nodes p with invalidReq := true })
    | _ => none
  | .invalidate p =>
    match (s.global p).serving with
    | some ⟨i, t, o, .waiting⟩ =>
      if ((s.insts o).nodes p).canInvalid then
        ((s.insts o).nodes p).invalidate.map fun (n, rc) =>
          s.invalidStep p ⟨i, t, o, .waiting⟩ (.invalidated rc) n
      else none
    | _ => none
  | .invalidReturn p =>
    match (s.global p).serving with
    | some ⟨i, t, o, .invalidated rc⟩ =>
      -- the service asserts RCOK
      if rc = .rcok then
        some (s.invalidStep p ⟨i, t, o, .invalidated rc⟩ (.returned rc ((s.insts o).buffer p))
          ((s.insts o).nodes p).endInvalid)
      else none
    | _ => none
  | .grant p =>
    match (s.global p).serving with
    | some ⟨i, t, _, .returned rc buf⟩ => do
      let rc ← replyRc rc
      (s.setGlobal p ⟨some i, none⟩).reply i t rc buf
    | _ => none

end PageSys

/-! ### The steps of a thread -/

section ThreadStep

variable {nt : Nat} {B : Type} {t : Fin nt} {s s' : Inst nt B}

/-- `Inst.threadStep` with its branches as constructors. -/
inductive ThreadStep (t : Fin nt) (s : Inst nt B) : Inst nt B → Prop
  | scanned {set : List Nat} (hpc : s.threads t = .scan set []) : ThreadStep t s (s.goto t (.get [] set))
  | scanAgain {set rest : List Nat} {p : Nat} (hpc : s.threads t = .scan set (p :: rest))
      (hreq : (s.nodes p).invalidReq = true) : ThreadStep t s (s.goto t (.scan set set))
  | scanNext {set rest : List Nat} {p : Nat} (hpc : s.threads t = .scan set (p :: rest))
      (hreq : (s.nodes p).invalidReq = false) : ThreadStep t s (s.goto t (.scan set rest))
  | got {done : List Nat} (hpc : s.threads t = .get done []) : ThreadStep t s (s.goto t (.check [] done))
  | getRemote {done rest : List Nat} {p : Nat} (hpc : s.threads t = .get done (p :: rest))
      (hmode : (s.nodes p).lockMode = .O) : ThreadStep t s (s.goto t (.cas done p rest))
  | getLocal {done rest : List Nat} {p : Nat} (hpc : s.threads t = .get done (p :: rest))
      (hmode : (s.nodes p).lockMode ≠ .O) : ThreadStep t s (s.goto t (.get (done ++ [p]) rest))
  | casLost {done rest : List Nat} {p : Nat} (hpc : s.threads t = .cas done p rest)
      (hrem : (s.nodes p).lockRemoting = true) : ThreadStep t s (s.goto t (.failed done p rest))
  | casWon {done rest : List Nat} {p : Nat} (hpc : s.threads t = .cas done p rest)
      (hrem : (s.nodes p).lockRemoting = false) :
      ThreadStep t s ((s.setNode p { s.nodes p with lockRemoting := true }).goto t (.requested done p rest))
  | failed {done rest : List Nat} {p : Nat} (hpc : s.threads t = .failed done p rest)
      (hrem : (s.nodes p).lockRemoting = true) : ThreadStep t s (s.goto t (.spin done p rest))
  | refused {done rest : List Nat} {p : Nat} {rc : RC} {buf : B} (hpc : s.threads t = .replied done p rest rc buf)
      (hrc : rc = .abort ∨ rc = .timeOut) :
      ThreadStep t s ((s.setNode p { s.nodes p with lockRemoting := false }).goto t .idle)
  | install {done rest : List Nat} {p : Nat} {buf : B} (hpc : s.threads t = .replied done p rest .rcok buf)
      (hmode : (s.nodes p).lockMode = .O) :
      ThreadStep t s ((s.setNode p { s.nodes p with lockMode := .P }).goto t (.put done p rest buf))
  | put {done rest : List Nat} {p : Nat} {buf : B} (hpc : s.threads t = .put done p rest buf) :
      ThreadStep t s ({ s with buffer := Function.update s.buffer p buf }.goto t (.clear done p rest))
  | clear {done rest : List Nat} {p : Nat} (hpc : s.threads t = .clear done p rest) :
      ThreadStep t s ((s.setNode p { s.nodes p with lockRemoting := false }).goto t (.get (done ++ [p]) rest))
  | spin {done rest : List Nat} {p : Nat} (hpc : s.threads t = .spin done p rest)
      (hmode : (s.nodes p).lockMode ≠ .O) : ThreadStep t s (s.goto t (.spun done p rest))
  | spun {done rest : List Nat} {p : Nat} (hpc : s.threads t = .spun done p rest)
      (hmode : (s.nodes p).lockMode ≠ .O) : ThreadStep t s (s.goto t (.get (done ++ [p]) rest))
  | checked {added : List Nat} (hpc : s.threads t = .check added []) : ThreadStep t s (s.goto t (.body added))
  | check {added rest : List Nat} {p : Nat} (hpc : s.threads t = .check added (p :: rest))
      (hmode : (s.nodes p).lockMode ≠ .O) : ThreadStep t s (s.goto t (.add added p rest))
  | add {added rest : List Nat} {p : Nat} (hpc : s.threads t = .add added p rest) (hmtx : (s.nodes p).mtx = false) :
      ThreadStep t s ((s.setNode p ((s.nodes p).addThread t)).goto t (.check (added ++ [p]) rest))
  | write {set : List Nat} {p : Nat} {f : B → B} {n : LockNode} (hpc : s.threads t = .writing set p f)
      (hcan : (s.nodes p).canLock .X = true) (hn : (s.nodes p).lock .X = some n) :
      ThreadStep t s ((s.setNode p n).goto t (.locked set p f))
  | locked {set : List Nat} {p : Nat} {f : B → B} (hpc : s.threads t = .locked set p f) :
      ThreadStep t s ({ s with buffer := Function.update s.buffer p (f (s.buffer p)) }.goto t (.written set p))
  | written {set : List Nat} {p : Nat} {n : LockNode} (hpc : s.threads t = .written set p)
      (hmtx : (s.nodes p).mtx = false) (hn : (s.nodes p).unLock = some n) :
      ThreadStep t s ((s.setNode p n).goto t (.body set))
  | unpinned (hpc : s.threads t = .unpin []) : ThreadStep t s (s.goto t .idle)
  | unpin {rest : List Nat} {p : Nat} (hpc : s.threads t = .unpin (p :: rest))
      (hmode : (s.nodes p).lockMode ≠ .O) : ThreadStep t s (s.goto t (.remove p rest))
  | remove {rest : List Nat} {p : Nat} {n : LockNode} (hpc : s.threads t = .remove p rest)
      (hmtx : (s.nodes p).mtx = false) (hn : (s.nodes p).removeThread t = some n) :
      ThreadStep t s ((s.setNode p n).goto t (.unpin rest))

theorem ThreadStep.of_threadStep (h : s.threadStep t = some s') : ThreadStep t s s' := by
  unfold Inst.threadStep at h
  cases hpc : s.threads t <;> simp only [hpc] at h
  case idle | requested | body => cases h
  case scan set rest =>
    cases rest with
    | nil => cases h; exact .scanned hpc
    | cons p rest =>
      cases h
      split
      · exact .scanAgain hpc ‹_›
      · exact .scanNext hpc (Bool.eq_false_iff.2 ‹_›)
  case get done rest =>
    cases rest with
    | nil => cases h; exact .got hpc
    | cons p rest =>
      cases h
      split
      · exact .getRemote hpc ‹_›
      · exact .getLocal hpc ‹_›
  case cas done p rest =>
    split at h
    · cases h; exact .casLost hpc ‹_›
    · cases h; exact .casWon hpc (Bool.eq_false_iff.2 ‹_›)
  case failed done p rest =>
    split at h
    · cases h; exact .failed hpc ‹_›
    · cases h
  case replied done p rest rc buf =>
    split at h
    · cases h; exact .refused hpc ‹_›
    · split at h
      · rename_i hrc
        cases h
        exact .install (hrc.1 ▸ hpc) hrc.2
      · cases h
  case put => cases h; exact .put hpc
  case clear => cases h; exact .clear hpc
  case spin =>
    split at h
    · cases h
    · cases h; exact .spin hpc ‹_›
  case spun =>
    split at h
    · cases h
    · cases h; exact .spun hpc ‹_›
  case check added rest =>
    cases rest with
    | nil => cases h; exact .checked hpc
    | cons p rest =>
      dsimp only at h
      split at h
      · cases h
      · cases h; exact .check hpc ‹_›
  case add =>
    split at h
    · cases h
    · cases h; exact .add hpc (Bool.eq_false_iff.2 ‹_›)
  case writing =>
    split at h
    · obtain ⟨n, hn, rfl⟩ := Option.map_eq_some_iff.1 h
      exact .write hpc ‹_› hn
    · cases h
  case locked => cases h; exact .locked hpc
  case written =>
    split at h
    · cases h
    · obtain ⟨n, hn, rfl⟩ := Option.map_eq_some_iff.1 h
      exact .written hpc (Bool.eq_false_iff.2 ‹_›) hn
  case unpin rest =>
    cases rest with
    | nil => cases h; exact .unpinned hpc
    | cons p rest =>
      dsimp only at h
      split at h
      · cases h
      · cases h; exact .unpin hpc ‹_›
  case remove =>
    split at h
    · cases h
    · obtain ⟨n, hn, rfl⟩ := Option.map_eq_some_iff.1 h
      exact .remove hpc (Bool.eq_false_iff.2 ‹_›) hn

theorem ThreadStep.ne_requested (h : ThreadStep t s s') {done rest : List Nat} {p : Nat} :
    s.threads t ≠ .requested done p rest := by
  cases h <;> rename_i hpc <;> simp [*]

end ThreadStep

/-! ### The steps of the system -/

section Step

variable {ni nt : Nat} {B : Type}

/-- `PageSys.step` with its branches as constructors. -/
inductive PageStep (s : PageSys ni nt B) : PageEv ni nt B → PageSys ni nt B → Prop
  | start {i : Fin ni} {t : Fin nt} {set : List Nat} (hpc : (s.insts i).threads t = .idle)
      (hset : set.Pairwise (· < ·)) :
      PageStep s (.start i t set) (s.setInst i ((s.insts i).goto t (.scan set set)))
  | thread {i : Fin ni} {t : Fin nt} {inst : Inst nt B} (h : ThreadStep t (s.insts i) inst) :
      PageStep s (.thread i t) (s.setInst i inst)
  | write {i : Fin ni} {t : Fin nt} {p : Nat} {f : B → B} {set : List Nat} (hpc : (s.insts i).threads t = .body set)
      (hp : p ∈ set) :
      PageStep s (.write i t p f) (s.setInst i ((s.insts i).goto t (.writing set p f)))
  | finish {i : Fin ni} {t : Fin nt} {set : List Nat} (hpc : (s.insts i).threads t = .body set) :
      PageStep s (.finish i t) (s.setInst i ((s.insts i).goto t (.unpin set)))
  | serveFree {i : Fin ni} {t : Fin nt} {p : Nat} {done rest : List Nat}
      (hpc : (s.insts i).threads t = .requested done p rest) (hg : s.global p = ⟨none, none⟩) :
      PageStep s (.serve i t) ((s.setGlobal p ⟨some i, none⟩).setInst i
        ((s.insts i).goto t (.replied done p rest .rcok (s.globalBuffer p))))
  | serveOwned {i o : Fin ni} {t : Fin nt} {p : Nat} {done rest : List Nat}
      (hpc : (s.insts i).threads t = .requested done p rest) (hg : s.global p = ⟨some o, none⟩) :
      PageStep s (.serve i t) (s.setGlobal p ⟨some o, some ⟨i, t, o, .sent⟩⟩)
  | invalidArrive {p : Nat} {v : Serving ni nt B} (hs : (s.global p).serving = some v) (hv : v.stage = .sent) :
      PageStep s (.invalidArrive p)
        (s.invalidStep p v .waiting { (s.insts v.owner).nodes p with invalidReq := true })
  | invalidate {p : Nat} {v : Serving ni nt B} (hs : (s.global p).serving = some v) (hv : v.stage = .waiting)
      (hcan : ((s.insts v.owner).nodes p).canInvalid = true) :
      PageStep s (.invalidate p)
        (s.invalidStep p v (.invalidated .rcok) { (s.insts v.owner).nodes p with lockMode := .O, mtx := true })
  | invalidReturn {p : Nat} {v : Serving ni nt B} (hs : (s.global p).serving = some v)
      (hv : v.stage = .invalidated .rcok) :
      PageStep s (.invalidReturn p) (s.invalidStep p v (.returned .rcok ((s.insts v.owner).buffer p))
        ((s.insts v.owner).nodes p).endInvalid)
  | grant {p q : Nat} {v : Serving ni nt B} {rc rc' : RC} {buf : B} {done rest : List Nat}
      (hs : (s.global p).serving = some v) (hv : v.stage = .returned rc buf) (hrc : replyRc rc = some rc')
      (hpc : (s.insts v.ins).threads v.thd = .requested done q rest) :
      PageStep s (.grant p) ((s.setGlobal p ⟨some v.ins, none⟩).setInst v.ins
        ((s.insts v.ins).goto v.thd (.replied done q rest rc' buf)))

theorem reply_cases {s s' : PageSys ni nt B} {i : Fin ni} {t : Fin nt} {rc : RC} {buf : B}
    (h : s.reply i t rc buf = some s') : ∃ done p rest, (s.insts i).threads t = .requested done p rest ∧
      s' = s.setInst i ((s.insts i).goto t (.replied done p rest rc buf)) := by
  unfold PageSys.reply at h
  split at h
  · rename_i done p rest hpc
    cases h
    exact ⟨done, p, rest, hpc, rfl⟩
  · cases h

theorem PageStep.of_serve {s s' : PageSys ni nt B} {i : Fin ni} {t : Fin nt} (h : s.serve i t = some s') :
    PageStep s (.serve i t) s' := by
  unfold PageSys.serve at h
  split at h
  · rename_i done p rest hpc
    split at h
    · rename_i hg
      obtain ⟨done', p', rest', hpc', rfl⟩ := reply_cases h
      have hpc'' := hpc.symm.trans hpc'
      cases hpc''
      exact .serveFree hpc hg
    · rename_i o hg
      cases h
      exact .serveOwned hpc hg
    · cases h
  · cases h

theorem PageStep.of_step {s s' : PageSys ni nt B} {a : PageEv ni nt B} (h : s.step a = some s') : PageStep s a s' := by
  cases a with
  | start i t set =>
    simp only [PageSys.step] at h
    split at h
    · split at h
      · cases h; exact .start ‹_› ‹_›
      · cases h
    · cases h
  | thread i t =>
    obtain ⟨inst, hi, rfl⟩ := Option.map_eq_some_iff.1 h
    exact .thread (.of_threadStep hi)
  | write i t p f =>
    simp only [PageSys.step] at h
    split at h
    · split at h
      · rename_i hif
        cases h; exact .write ‹_› hif.1
      · cases h
    · cases h
  | finish i t =>
    simp only [PageSys.step] at h
    split at h
    · cases h; exact .finish ‹_›
    · cases h
  | serve i t => exact .of_serve h
  | invalidArrive p =>
    simp only [PageSys.step] at h
    split at h
    · rename_i hs; cases h; exact .invalidArrive hs rfl
    · cases h
  | invalidate p =>
    simp only [PageSys.step] at h
    split at h
    · rename_i hs
      split at h
      · rename_i hcan
        obtain ⟨⟨n, rc⟩, hn, rfl⟩ := Option.map_eq_some_iff.1 h
        obtain ⟨rfl, -, rfl⟩ := LockNode.invalidate_eq hcan hn
        exact .invalidate hs rfl hcan
      · cases h
    · cases h
  | invalidReturn p =>
    simp only [PageSys.step] at h
    split at h
    · rename_i hs
      split at h
      · rename_i hrc
        cases h
        rw [hrc] at hs ⊢
        exact .invalidReturn hs rfl
      · cases h
    · cases h
  | grant p =>
    simp only [PageSys.step] at h
    split at h
    · rename_i i t o rc buf hs
      simp only [Option.bind_eq_bind, Option.bind_eq_some_iff] at h
      obtain ⟨rc', hrc, h⟩ := h
      obtain ⟨done, q, rest, hpc, rfl⟩ := reply_cases h
      exact .grant (v := ⟨i, t, o, .returned rc buf⟩) hs rfl hrc hpc
    · cases h

end Step

def pageLts (ni nt : Nat) (B : Type) : Lts (PageSys ni nt B) (PageEv ni nt B) where
  init s := ∃ buf ibuf, s = .init buf ibuf
  step := PageSys.step

end Dbx1000
