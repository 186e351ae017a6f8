import Dbx1000.Page
import Dbx1000.RwLock

/-!
# Concurrent `WriteRow` calls on one page

`WriteRow` reads a whole page, changes one row of the copy and writes the whole page back, under the X
lock of the page. The steps of any number of calls for rows of the page `p` interleave. What the buffer
will hold after the `BufferPut` of the call that has the lock (`WritePc.result`) does not change on the
way there, so the page has the rows of all calls in the order in which they got the lock.
-/

namespace Dbx1000

/-- Where a thread is in `WriteRow`; `page` is its own copy. -/
inductive WritePc (L : Layout)
  | idle
  | called (w : RowWrite L)
  | asserted (w : RowWrite L)
  | locked (w : RowWrite L)
  | fetched (w : RowWrite L) (page : Page)
  | loaded (w : RowWrite L) (page : Page)
  | copied (page : Page)
  | serialized (page : Page)
  | stored

/-- `order` has the calls that got the X lock, the last one first. -/
structure WriteSys (nt : Nat) (L : Layout) where
  node : LockNode
  buffer : Nat → Bytes
  threads : Fin nt → WritePc L
  order : List (RowWrite L)

inductive WriteEv (nt : Nat) (L : Layout)
  | call (t : Fin nt) (w : RowWrite L)
  | thread (t : Fin nt)

namespace WriteSys

variable {nt : Nat} {L : Layout}

def goto (t : Fin nt) (pc : WritePc L) (s : WriteSys nt L) : WriteSys nt L :=
  { s with threads := Function.update s.threads t pc }

/-- The next step of a call on page `p`. -/
def threadStep (p : Nat) (t : Fin nt) (s : WriteSys nt L) : Option (WriteSys nt L) :=
  match s.threads t with
  | .idle => none
  | .called w => if s.node.lockMode = .O then none else some (s.goto t (.asserted w))
  | .asserted w =>
    if s.node.canLock .X then
      (s.node.lock .X).map fun n => { s with node := n, order := w :: s.order }.goto t (.locked w)
    else none
  | .locked w => some (s.goto t (.fetched w (Page.new (s.buffer p) 0)))
  | .fetched w page => some (s.goto t (.loaded w page.deserialize))
  | .loaded w page => some (s.goto t (.copied (page.copyRow (L.location w.key) w.row.bytes)))
  | .copied page => some (s.goto t (.serialized page.serialize))
  | .serialized page => some ({ s with buffer := Function.update s.buffer p page.pageBuf }.goto t .stored)
  | .stored => s.node.unLock.map fun n => { s with node := n }.goto t .idle

def step (p : Nat) (s : WriteSys nt L) : WriteEv nt L → Option (WriteSys nt L)
  | .call t w =>
    match s.threads t with
    | .idle => if L.pageOf w.key = p then some (s.goto t (.called w)) else none
    | _ => none
  | .thread t => s.threadStep p t

end WriteSys

def writeLts (nt : Nat) (L : Layout) (p : Nat) (buf : Nat → PageBuf) : Lts (WriteSys nt L) (WriteEv nt L) where
  init s := s.node.lockMode = .P ∧ s.node.count = 0 ∧ s.node.mtx = false ∧ s.buffer = (fun q => (buf q).bytes) ∧
    s.threads = (fun _ => .idle) ∧ s.order = []
  step := WriteSys.step p

/-- `WriteSys.step` with its branches as constructors. -/
inductive WriteStep {nt : Nat} {L : Layout} (p : Nat) (s : WriteSys nt L) : WriteEv nt L → WriteSys nt L → Prop
  | call {t : Fin nt} {w : RowWrite L} (hpc : s.threads t = .idle) (hw : L.pageOf w.key = p) :
      WriteStep p s (.call t w) (s.goto t (.called w))
  | asserted {t : Fin nt} {w : RowWrite L} (hpc : s.threads t = .called w) :
      WriteStep p s (.thread t) (s.goto t (.asserted w))
  | lock {t : Fin nt} {w : RowWrite L} {n : LockNode} (hpc : s.threads t = .asserted w)
      (hcan : s.node.canLock .X = true) (hn : s.node.lock .X = some n) :
      WriteStep p s (.thread t) ({ s with node := n, order := w :: s.order }.goto t (.locked w))
  | get {t : Fin nt} {w : RowWrite L} (hpc : s.threads t = .locked w) :
      WriteStep p s (.thread t) (s.goto t (.fetched w (Page.new (s.buffer p) 0)))
  | load {t : Fin nt} {w : RowWrite L} {page : Page} (hpc : s.threads t = .fetched w page) :
      WriteStep p s (.thread t) (s.goto t (.loaded w page.deserialize))
  | copy {t : Fin nt} {w : RowWrite L} {page : Page} (hpc : s.threads t = .loaded w page) :
      WriteStep p s (.thread t) (s.goto t (.copied (page.copyRow (L.location w.key) w.row.bytes)))
  | serialize {t : Fin nt} {page : Page} (hpc : s.threads t = .copied page) :
      WriteStep p s (.thread t) (s.goto t (.serialized page.serialize))
  | put {t : Fin nt} {page : Page} (hpc : s.threads t = .serialized page) :
      WriteStep p s (.thread t) ({ s with buffer := Function.update s.buffer p page.pageBuf }.goto t .stored)
  | unLock {t : Fin nt} {n : LockNode} (hpc : s.threads t = .stored) (hn : s.node.unLock = some n) :
      WriteStep p s (.thread t) ({ s with node := n }.goto t .idle)

theorem WriteStep.of_step {nt : Nat} {L : Layout} {p : Nat} {s s' : WriteSys nt L} {e : WriteEv nt L}
    (h : s.step p e = some s') : WriteStep p s e s' := by
  cases e with
  | call t w =>
    simp only [WriteSys.step] at h
    split at h
    · split at h
      · cases h
        exact .call ‹_› ‹_›
      · cases h
    · cases h
  | thread t =>
    simp only [WriteSys.step, WriteSys.threadStep] at h
    split at h
    · cases h
    · split at h
      · cases h
      · cases h
        exact .asserted ‹_›
    · split at h
      · obtain ⟨n, hn, rfl⟩ := Option.map_eq_some_iff.1 h
        exact .lock ‹_› ‹_› hn
      · cases h
    · cases h
      exact .get ‹_›
    · cases h
      exact .load ‹_›
    · cases h
      exact .copy ‹_›
    · cases h
      exact .serialize ‹_›
    · cases h
      exact .put ‹_›
    · obtain ⟨n, hn, rfl⟩ := Option.map_eq_some_iff.1 h
      exact .unLock ‹_› hn

/-! ### The lock and the page -/

/-- The rows of the last calls for each key. -/
def RowWrite.last {L : Layout} (order : List (RowWrite L)) : ∀ key, Option (L.Row key) :=
  order.foldr (fun w last => Function.update last w.key (some w.row)) fun _ => none

namespace WritePc

variable {L : Layout}

def hold : WritePc L → Option Hold
  | .idle | .called _ | .asserted _ => none
  | _ => some .writer

/-- What the page will be after the `BufferPut` of the call; `buf` is what it is now. -/
def result (buf : Bytes) : WritePc L → Bytes
  | .idle | .called _ | .asserted _ | .stored => buf
  | .locked w => L.writeRowBytes w.key w.row buf
  | .fetched w page => ((page.deserialize.copyRow (L.location w.key) w.row.bytes).serialize).pageBuf
  | .loaded w page => ((page.copyRow (L.location w.key) w.row.bytes).serialize).pageBuf
  | .copied page => page.serialize.pageBuf
  | .serialized page => page.pageBuf

/-- The call that has not got the lock yet. -/
def waiting : WritePc L → Option (RowWrite L)
  | .called w | .asserted w => some w
  | _ => none

end WritePc

section Invariant

variable {nt : Nat} {L : Layout} {p : Nat} {buf : Nat → PageBuf} {s s' : WriteSys nt L} {t : Fin nt} {pc : WritePc L}

namespace WriteSys

def held (s : WriteSys nt L) (t : Fin nt) : Option Hold := (s.threads t).hold

@[simp] theorem threads_goto_self : (s.goto t pc).threads t = pc := Function.update_self ..

theorem threads_goto_of_ne {t' : Fin nt} (h : t' ≠ t) : (s.goto t pc).threads t' = s.threads t' :=
  Function.update_of_ne h ..

theorem held_goto : (s.goto t pc).held = Function.update s.held t pc.hold := by
  funext t'
  by_cases h : t' = t
  · rw [h, Function.update_self, held, threads_goto_self]
  · rw [Function.update_of_ne h, held, threads_goto_of_ne h, held]

end WriteSys

/-- The page `b` that the buffer holds when the current call is through, or now if there is none. -/
structure WriteInv (L : Layout) (p : Nat) (buf : Nat → PageBuf) (s : WriteSys nt L) (b : PageBuf) : Prop where
  lock : RwInv s.node s.held
  latest : L.Latest p (buf p) (RowWrite.last s.order) b
  current : ∀ t, s.held t = some .writer → (s.threads t).result (s.buffer p) = b.bytes
  free : (∀ t, s.held t = none) → s.buffer p = b.bytes
  waiting : ∀ t w, (s.threads t).waiting = some w → L.pageOf w.key = p
  other : ∀ q, q ≠ p → s.buffer q = (buf q).bytes

namespace WriteInv

variable {b : PageBuf}

theorem init (h : (writeLts nt L p buf).init s) : WriteInv L p buf s (buf p) := by
  obtain ⟨hmode, hcount, -, hbuf, hthreads, horder⟩ := h
  have hheld : ∀ t, s.held t = none := fun t => by rw [WriteSys.held, hthreads]; rfl
  refine ⟨.free hmode hcount hheld, by rw [horder]; exact .refl, fun t ht => ?_, fun _ => by rw [hbuf],
    fun t w hw => ?_, fun q _ => by rw [hbuf]⟩
  · simp [hheld t] at ht
  · rw [hthreads] at hw
    cases hw

/-- The calls that wait keep their page when `t` moves. -/
theorem waiting_goto (hi : WriteInv L p buf s b) (pc : WritePc L) (hpc : ∀ w, pc.waiting = some w → L.pageOf w.key = p)
    (t' : Fin nt) (w : RowWrite L) (h : ((s.goto t pc).threads t').waiting = some w) : L.pageOf w.key = p := by
  by_cases hne : t' = t
  · rw [hne, WriteSys.threads_goto_self] at h
    exact hpc w h
  · rw [WriteSys.threads_goto_of_ne hne] at h
    exact hi.waiting t' w h

/-- A step of `t` that leaves lock and buffer alone. -/
theorem goto (hi : WriteInv L p buf s b) (hhold : pc.hold = s.held t)
    (hresult : pc.result (s.buffer p) = (s.threads t).result (s.buffer p))
    (hwaiting : ∀ w, pc.waiting = some w → L.pageOf w.key = p) : WriteInv L p buf (s.goto t pc) b := by
  have hheld : (s.goto t pc).held = s.held := by rw [WriteSys.held_goto, hhold, Function.update_eq_self]
  refine ⟨by rw [hheld]; exact hi.lock, hi.latest, fun t' ht' => ?_, by rw [hheld]; exact hi.free,
    hi.waiting_goto pc hwaiting, hi.other⟩
  rw [hheld] at ht'
  by_cases hne : t' = t
  · rw [hne] at ht' ⊢
    rw [WriteSys.threads_goto_self]
    exact hresult.trans (hi.current t ht')
  · rw [WriteSys.threads_goto_of_ne hne]
    exact hi.current t' ht'

/-- The X lock is granted: from here the page is written in the name of `w`. -/
theorem lockX (hi : WriteInv L p buf s b) {w : RowWrite L} {n : LockNode} (hpc : s.threads t = .asserted w)
    (hcan : s.node.canLock .X = true) (hn : s.node.lock .X = some n) :
    WriteInv L p buf ({ s with node := n, order := w :: s.order }.goto t (.locked w)) (L.writeRow w.key w.row b) := by
  have hpage : L.pageOf w.key = p := hi.waiting t w (by rw [hpc]; rfl)
  have hnone : s.held t = none := by rw [WriteSys.held, hpc]; rfl
  obtain ⟨n', hn', hlock⟩ := hi.lock.lock (m := .writer) hnone hcan
  obtain rfl : n = n' := Option.some.inj (hn.symm.trans hn')
  have hfree := (hi.lock.mode_P.1 (LockNode.lock_X_frame hcan hn).1).1
  have hheld : ({ s with node := n, order := w :: s.order }.goto t (.locked w)).held =
      Function.update s.held t (some .writer) := WriteSys.held_goto
  refine ⟨by rw [hheld]; exact hlock, hi.latest.write hpage, fun t' ht' => ?_, fun h => ?_,
    hi.waiting_goto (.locked w) nofun, hi.other⟩
  · rw [hheld] at ht'
    by_cases hne : t' = t
    · rw [hne, WriteSys.threads_goto_self]
      show L.writeRowBytes w.key w.row (s.buffer p) = _
      rw [hi.free hfree]
      rfl
    · rw [Function.update_of_ne hne, hfree t'] at ht'
      cases ht'
  · have ht := h t
    rw [hheld, Function.update_self] at ht
    cases ht

theorem put (hi : WriteInv L p buf s b) {page : Page} (hpc : s.threads t = .serialized page) :
    WriteInv L p buf ({ s with buffer := Function.update s.buffer p page.pageBuf }.goto t .stored) b := by
  have hwriter : s.held t = some .writer := by rw [WriteSys.held, hpc]; rfl
  have hpage : page.pageBuf = b.bytes := by
    have h := hi.current t hwriter
    rwa [hpc] at h
  have hheld : ({ s with buffer := Function.update s.buffer p page.pageBuf }.goto t .stored).held = s.held := by
    rw [WriteSys.held_goto]
    exact (congrArg _ hwriter.symm).trans (Function.update_eq_self ..)
  have hbuf : ({ s with buffer := Function.update s.buffer p page.pageBuf }.goto t .stored).buffer p = b.bytes := by
    rw [← hpage]
    exact Function.update_self ..
  refine ⟨by rw [hheld]; exact hi.lock, hi.latest, fun t' ht' => ?_, fun _ => hbuf, hi.waiting_goto .stored nofun,
    fun q hq => ?_⟩
  · rw [hheld] at ht'
    by_cases hne : t' = t
    · rw [hne, WriteSys.threads_goto_self]
      exact hbuf
    · simp [hi.lock.alone hwriter t' hne] at ht'
  · rw [← hi.other q hq]
    exact Function.update_of_ne hq ..

theorem unLock (hi : WriteInv L p buf s b) {n : LockNode} (hpc : s.threads t = .stored) (hn : s.node.unLock = some n) :
    WriteInv L p buf ({ s with node := n }.goto t .idle) b := by
  have hwriter : s.held t = some .writer := by rw [WriteSys.held, hpc]; rfl
  obtain ⟨n', hn', hlock⟩ := hi.lock.unLock (t := t) (by simp [hwriter])
  obtain rfl : n = n' := Option.some.inj (hn.symm.trans hn')
  have hheld : ({ s with node := n }.goto t .idle).held = Function.update s.held t none := WriteSys.held_goto
  refine ⟨by rw [hheld]; exact hlock, hi.latest, fun t' ht' => ?_, fun _ => ?_, hi.waiting_goto .idle nofun, hi.other⟩
  · rw [hheld] at ht'
    by_cases hne : t' = t
    · simp [hne] at ht'
    · simp [hne, hi.lock.alone hwriter t' hne] at ht'
  · have h := hi.current t hwriter
    rwa [hpc] at h

theorem step {e : WriteEv nt L} (hi : WriteInv L p buf s b) (h : WriteStep p s e s') :
    ∃ b', WriteInv L p buf s' b' := by
  cases h with
  | call hpc hw =>
    refine ⟨b, hi.goto (by rw [WriteSys.held, hpc]; rfl) (by rw [hpc]; rfl) fun w' h => ?_⟩
    cases h
    exact hw
  | asserted hpc =>
    exact ⟨b, hi.goto (by rw [WriteSys.held, hpc]; rfl) (by rw [hpc]; rfl)
      fun w' h => hi.waiting _ w' (by rw [hpc]; exact h)⟩
  | lock hpc hcan hn => exact ⟨_, hi.lockX hpc hcan hn⟩
  | get hpc | load hpc | copy hpc | serialize hpc =>
    exact ⟨b, hi.goto (by rw [WriteSys.held, hpc]; rfl) (by rw [hpc]; rfl) nofun⟩
  | put hpc => exact ⟨b, hi.put hpc⟩
  | unLock hpc hn => exact ⟨b, hi.unLock hpc hn⟩

end WriteInv

/-! ### The calls and the order of the locks -/

/-- A list gets one more entry when `g` has one more value than `f`. -/
theorem filterMap_perm_cons {α β : Type} {l : List α} (hnd : l.Nodup) {a : α} (ha : a ∈ l) {f g : α → Option β} {b : β}
    (hf : f a = none) (hg : g a = some b) (h : ∀ x, x ≠ a → g x = f x) : (l.filterMap g).Perm (b :: l.filterMap f) := by
  obtain ⟨l₁, l₂, rfl⟩ := List.append_of_mem ha
  have hdis := List.nodup_append.1 hnd
  have h₁ : l₁.filterMap g = l₁.filterMap f :=
    List.filterMap_congr fun x hx => h x fun he => hdis.2.2 x hx a List.mem_cons_self he
  have h₂ : l₂.filterMap g = l₂.filterMap f :=
    List.filterMap_congr fun x hx => h x fun he => (List.nodup_cons.1 hdis.2.1).1 (he ▸ hx)
  simp only [List.filterMap_append, List.filterMap_cons, hf, hg, h₁, h₂]
  exact List.perm_middle

/-- The rows of all calls, the last one first. -/
def WriteEv.calls (past : List (WriteEv nt L)) : List (RowWrite L) :=
  past.filterMap fun
    | .call _ w => some w
    | .thread _ => none

def WriteSys.waiters (s : WriteSys nt L) : List (RowWrite L) :=
  (List.finRange nt).filterMap fun t => (s.threads t).waiting

theorem WriteSys.waiters_goto (h : pc.waiting = (s.threads t).waiting) : (s.goto t pc).waiters = s.waiters := by
  refine List.filterMap_congr fun t' _ => ?_
  by_cases hne : t' = t
  · rw [hne, threads_goto_self, h]
  · rw [threads_goto_of_ne hne]

/-- Every call either has had the lock or waits for it. -/
theorem calls_step {past : List (WriteEv nt L)} {e : WriteEv nt L}
    (hp : (WriteEv.calls past).Perm (s.order ++ s.waiters))
    (h : WriteStep p s e s') : (WriteEv.calls (e :: past)).Perm (s'.order ++ s'.waiters) := by
  cases h with
  | @call t w hpc hw =>
    have hwait : (s.goto t (.called w)).waiters.Perm (w :: s.waiters) :=
      filterMap_perm_cons (List.nodup_finRange nt) (List.mem_finRange t) (by rw [hpc]; rfl)
        (by rw [WriteSys.threads_goto_self]; rfl) fun x hx => by rw [WriteSys.threads_goto_of_ne hx]
    exact (hp.cons w).trans (List.perm_middle.symm.trans (hwait.symm.append_left _))
  | @lock t w n hpc hcan hn =>
    have hwait : s.waiters.Perm (w :: ({ s with node := n, order := w :: s.order }.goto t (.locked w)).waiters) :=
      filterMap_perm_cons (List.nodup_finRange nt) (List.mem_finRange t) (by rw [WriteSys.threads_goto_self]; rfl)
        (by rw [hpc]; rfl) fun x hx => by rw [WriteSys.threads_goto_of_ne hx]
    exact hp.trans ((hwait.append_left _).trans List.perm_middle)
  | asserted hpc | get hpc | load hpc | copy hpc | serialize hpc | put hpc | unLock hpc =>
    rw [WriteSys.waiters_goto (by rw [hpc]; rfl)]
    exact hp

end Invariant

/-- When all calls of `WriteRow` have returned, the page has for each key the row of the last call in the
order of the locks, and all other bytes are those it had at first. -/
theorem page_has_rows_in_lock_order {nt : Nat} {L : Layout} {p : Nat} {buf : Nat → PageBuf} {s : WriteSys nt L}
    {past : List (WriteEv nt L)} (h : (writeLts nt L p buf).traced.Reach Lts.Any (s, past))
    (hidle : ∀ t, s.threads t = .idle) :
    (WriteEv.calls past).Perm s.order ∧ (∀ q, q ≠ p → s.buffer q = (buf q).bytes) ∧
      ∃ b : PageBuf, s.buffer p = b.bytes ∧ L.Latest p (buf p) (RowWrite.last s.order) b ∧
        b.header = (buf p).header := by
  have hinv : (∃ b, WriteInv L p buf s b) ∧ (WriteEv.calls past).Perm (s.order ++ s.waiters) := by
    refine Lts.traced_inv (P := fun s past =>
      (∃ b, WriteInv L p buf s b) ∧ (WriteEv.calls past).Perm (s.order ++ s.waiters)) ?_ ?_ h
    · intro s hs
      refine ⟨⟨_, WriteInv.init hs⟩, ?_⟩
      obtain ⟨-, -, -, -, hthreads, horder⟩ := hs
      simp [WriteEv.calls, WriteSys.waiters, horder, hthreads, WritePc.waiting]
    · rintro s past e s' ⟨⟨b, hi⟩, hp⟩ hs
      have hstep := WriteStep.of_step hs
      exact ⟨hi.step hstep, calls_step hp hstep⟩
  obtain ⟨⟨b, hi⟩, hp⟩ := hinv
  have hwait : s.waiters = [] := by simp [WriteSys.waiters, hidle, WritePc.waiting]
  rw [hwait, List.append_nil] at hp
  refine ⟨hp, hi.other, b, hi.free fun t => ?_, hi.latest, hi.latest.header⟩
  rw [WriteSys.held, hidle t]
  rfl

/-- Thread 0 gets the lock while thread 1 waits; both rows are in the page at the end. -/
theorem both_rows_in_page : ∃ (s : WriteSys 2 pairLayout) (b : PageBuf),
    (writeLts 2 pairLayout 0 fun _ => fillPage 0).run
      ⟨{ LockNode.init with lockMode := .P }, fun _ => (fillPage 0).bytes, fun _ => .idle, []⟩
      ([.call 0 ⟨0, fillRow 0 7⟩, .call 1 ⟨1, fillRow 1 8⟩, .thread 0, .thread 1] ++ List.replicate 7 (.thread 0) ++
        List.replicate 7 (.thread 1)) = some s ∧
    s.order.map RowWrite.key = [1, 0] ∧ s.buffer 0 = b.bytes ∧
    pairLayout.Latest 0 (fillPage 0) (RowWrite.last s.order) b := by
  have hrun : ((writeLts 2 pairLayout 0 fun _ => fillPage 0).run
      ⟨{ LockNode.init with lockMode := .P }, fun _ => (fillPage 0).bytes, fun _ => .idle, []⟩
      ([.call 0 ⟨0, fillRow 0 7⟩, .call 1 ⟨1, fillRow 1 8⟩, .thread 0, .thread 1] ++ List.replicate 7 (.thread 0) ++
        List.replicate 7 (.thread 1))).any (fun s => decide (s.order.map RowWrite.key = [1, 0]) &&
          (match s.threads 0, s.threads 1 with | .idle, .idle => true | _, _ => false)) = true := by decide +kernel
  simp only [Option.any_eq_true, Bool.and_eq_true, decide_eq_true_eq] at hrun
  obtain ⟨s, hs, horder, hidle⟩ := hrun
  split at hidle
  · rename_i h₀ h₁
    obtain ⟨-, -, b, hb, hlast, -⟩ := page_has_rows_in_lock_order (Lts.traced_reach ⟨rfl, rfl, rfl, rfl, rfl, rfl⟩ hs)
      (Fin.forall_fin_two.2 ⟨h₀, h₁⟩)
    exact ⟨s, b, hs, horder, hb, hlast⟩
  · cases hidle

end Dbx1000
