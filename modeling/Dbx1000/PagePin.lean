import Dbx1000.PageOwner

/-!
# Pages stay pinned

A thread first sees that it may use a page (it finds a mode other than `O`, or installs one) and
registers with `AddThread` only after the whole write page set is there. `LockInvalid` waits for the
registered threads, so a registered page keeps its mode; a page that is only seen does not. Here
`PinOk` excludes the invalidations that fall into that window, and then all assertions on `lock_mode`
hold and a transaction has its pages from the return of `GetWritePageLock` to its `RemoveThread`.
-/

namespace Dbx1000

variable {ni nt : Nat} {B : Type}

namespace Pc

/-- The pages that the thread has seen in a mode other than `O` and is not registered at yet. -/
def passed : Pc B → List Nat
  | .get done _ | .cas done _ _ | .failed done _ _ | .requested done _ _ | .replied done _ _ _ _
  | .spin done _ _ => done
  | .put done p _ _ | .clear done p _ | .spun done p _ => done ++ [p]
  | .check _ rest => rest
  | .add _ p rest => p :: rest
  | _ => []

/-- The pages that the thread is registered at: from `AddThread` to `RemoveThread`. -/
def pinned : Pc B → List Nat
  | .check added _ | .add added _ _ => added
  | .body set | .writing set _ _ | .locked set _ _ | .written set _ => set
  | .unpin rest => rest
  | .remove p rest => p :: rest
  | _ => []

/-- The write page set; in the `RemoveThread` loop what is left of it. -/
def pages : Pc B → List Nat
  | .idle => []
  | .scan set _ | .body set | .writing set _ _ | .locked set _ _ | .written set _ => set
  | .get done rest | .check done rest => done ++ rest
  | .cas done p rest | .failed done p rest | .requested done p rest | .replied done p rest _ _ | .put done p rest _
  | .clear done p rest | .spin done p rest | .spun done p rest | .add done p rest => done ++ p :: rest
  | .unpin rest => rest
  | .remove p rest => p :: rest

/-- The assertion on `lock_mode` that the thread evaluates next; in the body `WriteRow` may do so for
any page of the set. -/
def AssertOk (mode : Nat → LockMode) : Pc B → Prop
  | .replied _ p _ .rcok _ => mode p = .O
  | .spun _ p _ => mode p ≠ .O
  | .check _ (p :: _) => mode p ≠ .O
  | .body set => ∀ p ∈ set, mode p ≠ .O
  | .unpin (p :: _) => mode p ≠ .O
  | _ => True

theorem fetching_of_reply {pc : Pc B} {p : Nat} (h : pc.reply? = some p) : pc.fetching = some p := by
  unfold reply? at h
  split at h
  · exact h
  · cases h

end Pc

/-! ### One thread -/

structure ThreadOk (nodes : Nat → LockNode) (t : Fin nt) (pc : Pc B) : Prop where
  nodup : pc.pages.Nodup
  passed : ∀ p ∈ pc.passed, (nodes p).lockMode ≠ .O
  pinned : ∀ p ∈ pc.pinned, (nodes p).lockMode ≠ .O ∧ t.val ∈ (nodes p).threadSet
  remoting : ∀ p, pc.fetching = some p → (nodes p).lockRemoting = true
  reply : ∀ p, pc.reply? = some p → (nodes p).lockMode = .O

namespace ThreadOk

variable {nodes nodes' : Nat → LockNode} {t : Fin nt} {pc pc' : Pc B}

theorem assertOk (h : ThreadOk nodes t pc) : pc.AssertOk fun p => (nodes p).lockMode := by
  unfold Pc.AssertOk
  split
  · exact h.reply _ rfl
  · exact h.passed _ (List.mem_append_right _ (List.mem_singleton_self _))
  · exact h.passed _ List.mem_cons_self
  · exact fun p hp => (h.pinned p hp).1
  · exact (h.pinned _ List.mem_cons_self).1
  · trivial

/-- The thread goes from `pc` to `pc'` while the nodes keep the modes other than `O`. -/
theorem move (h : ThreadOk nodes t pc) (hkeeps : ∀ p, (nodes p).lockMode ≠ .O → (nodes' p).lockMode ≠ .O)
    (hpages : pc'.pages.Sublist pc.pages) (hpassed : ∀ p ∈ pc'.passed, p ∈ pc.passed ∨ (nodes' p).lockMode ≠ .O)
    (hpinned : ∀ p ∈ pc'.pinned, (nodes p).lockMode ≠ .O ∧ t.val ∈ (nodes' p).threadSet)
    (hfetch : ∀ p, pc'.fetching = some p → (nodes' p).lockRemoting = true) (hreply : pc'.reply? = none) :
    ThreadOk nodes' t pc' where
  nodup := h.nodup.sublist hpages
  passed p hp := (hpassed p hp).elim (fun hp => hkeeps p (h.passed p hp)) id
  pinned p hp := ⟨hkeeps p (hpinned p hp).1, (hpinned p hp).2⟩
  remoting := hfetch
  reply p hp := by rw [hreply] at hp; cases hp

/-- The thread goes from `pc` to `pc'` and leaves the nodes alone. -/
theorem goto (h : ThreadOk nodes t pc) (hpages : pc'.pages.Sublist pc.pages)
    (hpassed : ∀ p ∈ pc'.passed, p ∈ pc.passed ∨ (nodes p).lockMode ≠ .O)
    (hpinned : ∀ p ∈ pc'.pinned, p ∈ pc.pinned) (hfetch : ∀ p, pc'.fetching = some p → pc.fetching = some p)
    (hreply : pc'.reply? = none) : ThreadOk nodes t pc' :=
  h.move (fun _ => id) hpages hpassed (fun p hp => h.pinned p (hpinned p hp))
    (fun p hp => h.remoting p (hfetch p hp)) hreply

/-- The node of one page changes and the thread moves on, keeping its pins. -/
theorem setNode {q : Nat} {n : LockNode} (h : ThreadOk nodes t pc) (hmode : (nodes q).lockMode ≠ .O → n.lockMode ≠ .O)
    (hset : t.val ∈ (nodes q).threadSet → t.val ∈ n.threadSet) (hpages : pc'.pages.Sublist pc.pages)
    (hpassed : ∀ p ∈ pc'.passed, p ∈ pc.passed ∨ p = q ∧ n.lockMode ≠ .O)
    (hpinned : ∀ p ∈ pc'.pinned, p ∈ pc.pinned ∨ p = q ∧ (nodes q).lockMode ≠ .O ∧ t.val ∈ n.threadSet)
    (hfetch : ∀ p, pc'.fetching = some p → p = q ∧ n.lockRemoting = true) (hreply : pc'.reply? = none) :
    ThreadOk (Function.update nodes q n) t pc' := by
  have hself : Function.update nodes q n q = n := Function.update_self ..
  refine h.move (fun p hp => ?_) hpages (fun p hp => ?_) (fun p hp => ?_) (fun p hp => ?_) hreply
  · by_cases hq : p = q
    · rw [hq] at hp ⊢; rw [hself]; exact hmode hp
    · rw [Function.update_of_ne hq]; exact hp
  · refine (hpassed p hp).imp_right ?_
    rintro ⟨rfl, hn⟩
    rwa [hself]
  · rcases hpinned p hp with hp | ⟨rfl, hn⟩
    · refine (h.pinned p hp).imp_right fun ht => ?_
      by_cases hq : p = q
      · rw [hq] at ht ⊢; rw [hself]; exact hset ht
      · rw [Function.update_of_ne hq]; exact ht
    · rwa [hself]
  · obtain ⟨rfl, hn⟩ := hfetch p hp
    rwa [hself]

end ThreadOk

theorem append_cons_sublist (done : List Nat) (p : Nat) (rest : List Nat) :
    (done ++ [p] ++ rest).Sublist (done ++ p :: rest) := by
  rw [List.append_assoc]; exact List.Sublist.refl _

theorem mem_snoc_cases {done : List Nat} {p : Nat} {P : Nat → Prop} (hp : P p) : ∀ q ∈ done ++ [p], q ∈ done ∨ P q := by
  intro q hq
  rcases List.mem_append.1 hq with hq | hq
  · exact .inl hq
  · rw [List.mem_singleton.1 hq]; exact .inr hp

/-- The thread leaves the set of `p` only, and `p` does not come again. -/
theorem ThreadOk.remove {nodes : Nat → LockNode} {t : Fin nt} {p : Nat} {rest : List Nat} {n : LockNode}
    (hok : ThreadOk nodes t (.remove p rest : Pc B)) (hmode : n.lockMode = (nodes p).lockMode) :
    ThreadOk (Function.update nodes p n) t (.unpin rest : Pc B) := by
  have hne : ∀ q ∈ rest, q ≠ p := fun q hq h' => (List.nodup_cons.1 hok.nodup).1 (h' ▸ hq)
  refine hok.move (fun q hq => ?_) (List.sublist_cons_self ..) nofun (fun q hq => ?_) nofun rfl
  · by_cases hqp : q = p
    · rw [hqp] at hq ⊢
      rw [Function.update_self, hmode]; exact hq
    · rw [Function.update_of_ne hqp]; exact hq
  · rw [Function.update_of_ne (hne q hq)]
    exact hok.pinned q (List.mem_cons_of_mem _ hq)

theorem ThreadOk.of_threadStep {s s' : Inst nt B} {t : Fin nt} (hok : ThreadOk s.nodes t (s.threads t))
    (h : ThreadStep t s s') : ThreadOk s'.nodes t (s'.threads t) := by
  cases h <;> rw [‹s.threads t = _›] at hok <;> rw [Inst.threads_goto_self]
  case scanned | scanAgain | scanNext => exact hok.goto (.refl _) nofun nofun nofun rfl
  case got done hpc =>
    refine hok.goto ?_ (fun _ => .inl) nofun nofun rfl
    show List.Sublist ([] ++ done) (done ++ [])
    rw [List.append_nil]; exact .refl _
  case getRemote | casLost | failed => exact hok.goto (.refl _) (fun _ => .inl) nofun nofun rfl
  case getLocal hmode => exact hok.goto (append_cons_sublist ..) (mem_snoc_cases hmode) nofun nofun rfl
  case casWon =>
    exact hok.setNode id id (.refl _) (fun _ => .inl) nofun (fun _ h => ⟨by cases h; rfl, rfl⟩) rfl
  case refused => exact hok.setNode id id (List.nil_sublist _) nofun nofun nofun rfl
  case install p buf hpc hmode =>
    exact hok.setNode (fun _ => LockMode.noConfusion) id (.refl _) (mem_snoc_cases ⟨rfl, LockMode.noConfusion⟩) nofun
      (fun _ h => ⟨by cases h; rfl, hok.remoting p rfl⟩) rfl
  case put => exact hok.goto (.refl _) (fun _ => .inl) nofun (fun _ h => h) rfl
  case clear => exact hok.setNode id id (append_cons_sublist ..) (fun _ => .inl) nofun nofun rfl
  case spin hmode => exact hok.goto (.refl _) (mem_snoc_cases hmode) nofun nofun rfl
  case spun => exact hok.goto (append_cons_sublist ..) (fun _ => .inl) nofun nofun rfl
  case checked => exact hok.goto (List.sublist_append_left ..) nofun (fun _ => id) nofun rfl
  case check => exact hok.goto (.refl _) (fun _ => .inl) (fun _ => id) nofun rfl
  case add p hpc hmtx =>
    have hp := hok.passed p List.mem_cons_self
    obtain ⟨hmode, -⟩ := LockNode.addThread_frame (s.nodes p) t
    have hmem : t.val ∈ ((s.nodes p).addThread t).threadSet := LockNode.mem_addThread.2 (.inl rfl)
    exact hok.setNode (by rw [hmode]; exact id) (fun _ => hmem) (append_cons_sublist ..)
      (fun q hq => .inl (List.mem_cons_of_mem _ hq)) (mem_snoc_cases ⟨rfl, hp, hmem⟩) nofun rfl
  case write hpc hcan hn =>
    obtain ⟨-, h2, -, h4, -⟩ := LockNode.lock_X_frame hcan hn
    refine hok.setNode (fun _ => ?_) (by rw [h4]; exact id) (.refl _) nofun (fun _ => .inl) nofun rfl
    rw [h2]; exact LockMode.noConfusion
  case locked => exact hok.goto (.refl _) nofun (fun _ => id) nofun rfl
  case written hpc hmtx hn =>
    obtain ⟨h1, -, h3, -⟩ := LockNode.unLock_frame hn
    exact hok.setNode (fun h h' => h (h1.1 h')) (by rw [h3]; exact id) (.refl _) nofun (fun _ => .inl) nofun rfl
  case unpinned => exact hok.goto (.refl _) nofun nofun nofun rfl
  case unpin => exact hok.goto (.refl _) nofun (fun _ => id) nofun rfl
  case remove hpc hmtx hn => exact hok.remove (LockNode.removeThread_frame hn).1

/-! ### One instance -/

structure InstOk (s : Inst nt B) : Prop where
  counted : ∀ p, (s.nodes p).Counted
  thread : ∀ t, ThreadOk s.nodes t (s.threads t)
  fetcher : ∀ t t' p, (s.threads t).fetching = some p → (s.threads t').fetching = some p → t = t'

namespace InstOk

variable {s s' : Inst nt B} {t : Fin nt} {p : Nat}

/-- A thread moves: what the others need is left to them. -/
theorem move (hi : InstOk s) (hf : ThreadFrame t s s') (ht : ThreadOk s'.nodes t (s'.threads t)) : InstOk s' := by
  have hfetcher : ∀ t' p, t' ≠ t → (s'.threads t').fetching = some p → (s.threads t').fetching = some p :=
    fun t' p hne h => by rwa [hf.others t' hne] at h
  refine ⟨fun p => hf.counted p (hi.counted p), fun t' => ?_, ?_⟩
  · by_cases hne : t' = t
    · rw [hne]; exact ht
    rw [hf.others t' hne]
    have hok := hi.thread t'
    have hother : ∀ p, (s.threads t').fetching = some p → (s.threads t).fetching ≠ some p :=
      fun p h h' => hne (hi.fetcher t' t p h h')
    refine ⟨hok.nodup, fun p hp => hf.keeps p (hok.passed p hp),
      fun p hp => ⟨hf.keeps p (hok.pinned p hp).1, hf.members p t' hne (hok.pinned p hp).2⟩, fun p hp => ?_,
      fun p hp => ?_⟩
    · exact (hf.remoting p (hok.remoting p hp)).resolve_right (hother p hp)
    · by_contra h
      rcases hf.installs p h with h | h
      · exact h (hok.reply p hp)
      · exact hother p (Pc.fetching_of_reply hp) (Pc.fetching_of_reply h)
  · -- a page that another thread fetches has `lock_remoting` set, so `t` does not start to fetch it
    have hnew : ∀ t' p, t' ≠ t → (s'.threads t').fetching = some p → (s'.threads t).fetching ≠ some p := by
      intro t' p hne h' h
      have hold := hfetcher t' p hne h'
      rcases hf.fetches p h with h | h
      · exact hne (hi.fetcher t' t p hold h)
      · rw [(hi.thread t').remoting p hold] at h; cases h
    intro t₁ t₂ p h₁ h₂
    by_cases hn₁ : t₁ = t <;> by_cases hn₂ : t₂ = t
    · rw [hn₁, hn₂]
    · rw [hn₁] at h₁; exact absurd h₁ (hnew t₂ p hn₂ h₂)
    · rw [hn₂] at h₂; exact absurd h₂ (hnew t₁ p hn₁ h₁)
    · exact hi.fetcher t₁ t₂ p (hfetcher t₁ p hn₁ h₁) (hfetcher t₂ p hn₂ h₂)

/-- The reply of the global lock reaches the thread. -/
theorem answer (hi : InstOk s) {done rest : List Nat} {rc : RC} {buf : B}
    (hpc : s.threads t = .requested done p rest) (hO : (s.nodes p).lockMode = .O) :
    InstOk (s.goto t (.replied done p rest rc buf)) := by
  have hfetch : ∀ t', ((s.goto t (.replied done p rest rc buf)).threads t').fetching = (s.threads t').fetching := by
    intro t'
    by_cases hne : t' = t
    · rw [hne, Inst.threads_goto_self, hpc]; rfl
    · rw [Inst.threads_goto_of_ne hne]
  refine ⟨hi.counted, fun t' => ?_, fun t₁ t₂ q h₁ h₂ => ?_⟩
  · by_cases hne : t' = t
    · rw [hne, Inst.threads_goto_self]
      have hok := hi.thread t
      rw [hpc] at hok
      refine ⟨hok.nodup, hok.passed, nofun, hok.remoting, fun q hq => ?_⟩
      have hq' := Pc.fetching_of_reply hq
      cases hq'
      exact hO
    · rw [Inst.threads_goto_of_ne hne]; exact hi.thread t'
  · rw [hfetch] at h₁ h₂
    exact hi.fetcher t₁ t₂ q h₁ h₂

/-- `LockInvalid` changes a node; it lowers the mode of a page that no thread relies on. -/
theorem invalid (hi : InstOk s) {n : LockNode} (hset : n.threadSet = (s.nodes p).threadSet)
    (hcount : n.threadCount = (s.nodes p).threadCount) (hrem : n.lockRemoting = (s.nodes p).lockRemoting)
    (hmode : n.lockMode = (s.nodes p).lockMode ∨
      n.lockMode = .O ∧ ∀ t, p ∉ (s.threads t).passed ∧ p ∉ (s.threads t).pinned) : InstOk (s.setNode p n) := by
  have hnode : ∀ q, ((s.setNode p n).nodes q).threadSet = (s.nodes q).threadSet ∧
      ((s.setNode p n).nodes q).threadCount = (s.nodes q).threadCount ∧
      ((s.setNode p n).nodes q).lockRemoting = (s.nodes q).lockRemoting ∧
      (((s.setNode p n).nodes q).lockMode = (s.nodes q).lockMode ∨ ((s.setNode p n).nodes q).lockMode = .O ∧
        ∀ t, q ∉ (s.threads t).passed ∧ q ∉ (s.threads t).pinned) := by
    intro q
    by_cases h : q = p
    · rw [h, Inst.nodes_setNode_self]
      exact ⟨hset, hcount, hrem, hmode⟩
    · rw [Inst.nodes_setNode_of_ne h]
      exact ⟨rfl, rfl, rfl, .inl rfl⟩
  refine ⟨fun q => ?_, fun t => ?_, hi.fetcher⟩
  · unfold LockNode.Counted
    rw [(hnode q).1, (hnode q).2.1]
    exact hi.counted q
  have hok := hi.thread t
  refine ⟨hok.nodup, fun q hq => ?_, fun q hq => ?_, fun q hq => ?_, fun q hq => ?_⟩ <;>
    obtain ⟨hset, -, hrem, hmode⟩ := hnode q
  · rcases hmode with hm | ⟨-, hm⟩
    · rw [hm]; exact hok.passed q hq
    · exact absurd hq (hm t).1
  · rcases hmode with hm | ⟨-, hm⟩
    · rw [hm, hset]; exact hok.pinned q hq
    · exact absurd hq (hm t).2
  · rw [hrem]; exact hok.remoting q hq
  · rcases hmode with hm | ⟨hm, -⟩
    · rw [hm]; exact hok.reply q hq
    · exact hm

end InstOk

/-! ### The system -/

/-- When `Invalid` takes effect, no thread of the owner is between seeing the page (or being sent it)
and `AddThread`. -/
def PinOk (s : PageSys ni nt B) : PageEv ni nt B → Prop
  | .invalidate p =>
    match (s.global p).serving with
    | some v => ∀ t, ((s.insts v.owner).threads t).reply? ≠ some p ∧ p ∉ ((s.insts v.owner).threads t).passed
    | none => True
  | _ => True

instance (s : PageSys ni nt B) (a : PageEv ni nt B) : Decidable (PinOk s a) :=
  match a with
  | .invalidate p =>
    match h : (s.global p).serving with
    | some v => decidable_of_iff
        (∀ t, ((s.insts v.owner).threads t).reply? ≠ some p ∧ p ∉ ((s.insts v.owner).threads t).passed)
        (by simp only [PinOk, h])
    | none => .isTrue (by simp only [PinOk, h])
  | .start .. | .thread .. | .write .. | .finish .. | .serve .. | .invalidArrive _ | .invalidReturn _ | .grant _ =>
    .isTrue trivial

theorem PinOk.window {s : PageSys ni nt B} {p : Nat} {v : Serving ni nt B} (hg : PinOk s (.invalidate p))
    (hs : (s.global p).serving = some v) (t : Fin nt) :
    ((s.insts v.owner).threads t).reply? ≠ some p ∧ p ∉ ((s.insts v.owner).threads t).passed := by
  simp only [PinOk, hs] at hg
  exact hg t

theorem PinOk.replyOk {s : PageSys ni nt B} {a : PageEv ni nt B} (hg : PinOk s a) : ReplyOk s a := by
  cases a with
  | invalidate p =>
    unfold ReplyOk
    dsimp only
    split
    · exact fun t => (hg.window ‹_› t).1
    · trivial
  | _ => trivial

structure PinInv (s : PageSys ni nt B) : Prop where
  own : OwnInv s
  inst : ∀ i, InstOk (s.insts i)

namespace PinInv

variable {s s' : PageSys ni nt B}

theorem init (buf : Nat → B) (ibuf : Fin ni → Nat → B) : PinInv (PageSys.init buf ibuf : PageSys ni nt B) :=
  ⟨.init buf ibuf, fun _ => ⟨fun _ => rfl, fun _ => ⟨List.nodup_nil, nofun, nofun, nofun, nofun⟩, nofun⟩⟩

theorem setInst {i : Fin ni} {inst : Inst nt B} (hi : ∀ j, InstOk (s.insts j)) (h : InstOk inst) (j : Fin ni) :
    InstOk ((s.setInst i inst).insts j) := by
  by_cases hj : j = i
  · rw [hj, setInst_self]; exact h
  · rw [setInst_of_ne hj]; exact hi j

theorem invalid {p : Nat} {v : Serving ni nt B} {stage : InvalidStage B} {n : LockNode}
    (hi : ∀ j, InstOk (s.insts j)) (h : InstOk ((s.insts v.owner).setNode p n)) (j : Fin ni) :
    InstOk ((s.invalidStep p v stage n).insts j) := setInst hi h j

/-- No instance has the page when the global lock answers a request for it. -/
theorem mode_of_free (hi : OwnInv s) {p : Nat} (h : (s.global p).writeInsId = none) (i : Fin ni) : s.mode i p = .O := by
  by_contra h'
  rw [hi.owner i p h'] at h; cases h

theorem mode_of_past (hi : OwnInv s) {p : Nat} {v : Serving ni nt B} (hs : (s.global p).serving = some v)
    (hp : v.stage.past = true) (i : Fin ni) : s.mode i p = .O := by
  by_contra h'
  have hj := Option.some.inj ((hi.owner i p h').symm.trans (hi.serving p v hs).1)
  rw [hj] at h'
  exact h' (hi.past p v hs hp).1

theorem inst_step {a : PageEv ni nt B} (hi : PinInv s) (hg : PinOk s a) (h : s.step a = some s') (i : Fin ni) :
    InstOk (s'.insts i) := by
  have hown := hi.own
  cases PageStep.of_step h with
  | @start i t set hpc hset =>
    have hf : ThreadFrame t (s.insts i) ((s.insts i).goto t (.scan set set)) := .goto rfl nofun
    refine setInst hi.inst ((hi.inst i).move hf ?_) _
    rw [Inst.threads_goto_self]
    exact ⟨hset.imp Nat.ne_of_lt, nofun, nofun, nofun, nofun⟩
  | thread ht =>
    exact setInst hi.inst ((hi.inst _).move (.of_threadStep ht) (((hi.inst _).thread _).of_threadStep ht)) _
  | @write i t p f set hpc hp =>
    have hok := (hi.inst i).thread t
    rw [hpc] at hok
    have hf : ThreadFrame t (s.insts i) ((s.insts i).goto t (.writing set p f)) := .goto rfl nofun
    refine setInst hi.inst ((hi.inst i).move hf ?_) _
    rw [Inst.threads_goto_self]
    exact hok.goto (.refl _) nofun (fun _ => id) nofun rfl
  | @finish i t set hpc =>
    have hok := (hi.inst i).thread t
    rw [hpc] at hok
    have hf : ThreadFrame t (s.insts i) ((s.insts i).goto t (.unpin set)) := .goto rfl nofun
    refine setInst hi.inst ((hi.inst i).move hf ?_) _
    rw [Inst.threads_goto_self]
    exact hok.goto (.refl _) nofun (fun _ => id) nofun rfl
  | serveFree hpc hgl =>
    exact setInst hi.inst ((hi.inst _).answer hpc (mode_of_free hown (by rw [hgl]) _)) _
  | serveOwned hpc hgl => exact hi.inst i
  | invalidArrive hs hv =>
    refine invalid hi.inst ?_ i
    exact (hi.inst _).invalid rfl rfl rfl (.inl rfl)
  | @invalidate p v hs hv hcan =>
    refine invalid hi.inst ?_ i
    refine (hi.inst _).invalid rfl rfl rfl (.inr ⟨rfl, fun t => ⟨(hg.window hs t).2, fun hp => ?_⟩⟩)
    -- a registered thread keeps `LockInvalid` waiting
    have hno := LockNode.not_canInvalid ((hi.inst _).counted p) (((hi.inst _).thread t).pinned p hp).2
    rw [hcan] at hno; cases hno
  | invalidReturn hs hv =>
    refine invalid hi.inst ?_ i
    exact (hi.inst _).invalid rfl rfl rfl (.inl rfl)
  | grant hs hv hrc hpc =>
    obtain ⟨-, done', rest', hpc'⟩ := hown.serving _ _ hs
    rw [hpc] at hpc'
    cases hpc'
    exact setInst hi.inst ((hi.inst _).answer hpc (mode_of_past hown hs (by rw [hv]; rfl) _)) _

theorem reach (h : (pageLts ni nt B).Reach PinOk s) : PinInv s := by
  refine h.inv ?_ fun _ _ _ hi hg hs => ⟨hi.own.step hg.replyOk hs, hi.inst_step hg hs⟩
  rintro _ ⟨buf, ibuf, rfl⟩
  exact init buf ibuf

end PinInv

/-- Every page a thread is registered at has a mode other than `O`, and the assertion on `lock_mode`
in front of any thread holds. -/
def PagesPinned (s : PageSys ni nt B) : Prop :=
  ∀ i t, (∀ p ∈ ((s.insts i).threads t).pinned, s.mode i p ≠ .O) ∧ ((s.insts i).threads t).AssertOk (s.mode i)

theorem pagesPinned_of_pinOk {s : PageSys ni nt B} (h : (pageLts ni nt B).Reach PinOk s) : PagesPinned s :=
  fun i t => ⟨fun p hp => ((((PinInv.reach h).inst i).thread t).pinned p hp).1,
    (((PinInv.reach h).inst i).thread t).assertOk⟩

/-- The write page set of a thread that runs the body of its transaction. -/
def Pc.bodySet? {B : Type} : Pc B → Option (List Nat)
  | .body set => some set
  | _ => none

theorem Pc.bodySet?_eq_some {B : Type} {pc : Pc B} {set : List Nat} (h : pc.bodySet? = some set) : pc = .body set := by
  cases pc <;> cases h
  rfl

/-- Instance 0 has written page 7 and is still in its transaction; the `Invalid` for instance 1 waits. -/
theorem pagesPinned_against_invalid : ∃ s : PageSys 2 1 Nat,
    (pageLts 2 1 Nat).runIf (fun s a => decide (PinOk s a)) (.init (fun _ => 0) fun _ _ => 0)
      (askFor 0 7 ++ steps 0 7 ++ askFor 1 7 ++
        ([.invalidArrive 7, .write 0 0 7 (· + 1)] : List (PageEv 2 1 Nat)) ++ steps 0 3) = some s ∧
    7 ∈ ((s.insts 0).threads 0).pinned ∧ ((s.insts 0).nodes 7).invalidReq = true ∧ PagesPinned s := by
  have hrun : (((pageLts 2 1 Nat).runIf (fun s a => decide (PinOk s a)) (.init (fun _ => 0) fun _ _ => 0)
      (askFor 0 7 ++ steps 0 7 ++ askFor 1 7 ++
        ([.invalidArrive 7, .write 0 0 7 (· + 1)] : List (PageEv 2 1 Nat)) ++ steps 0 3)).any
      fun s => decide (7 ∈ ((s.insts 0).threads 0).pinned) && ((s.insts 0).nodes 7).invalidReq) = true := by
    decide +kernel
  simp only [Option.any_eq_true, Bool.and_eq_true, decide_eq_true_eq] at hrun
  obtain ⟨s, hs, hp, hr⟩ := hrun
  exact ⟨s, hs, hp, hr, pagesPinned_of_pinOk (.runIf (fun _ _ => of_decide_eq_true) (.init ⟨_, _, rfl⟩) hs)⟩

/-- Instance 0 owns page 7 and runs a second transaction, which is invalidated between the assertion in
front of `AddThread` and `AddThread`: its body runs in mode `O`. -/
theorem body_in_mode_O : ∃ s : PageSys 2 1 Nat, (pageLts 2 1 Nat).run (.init (fun _ => 0) fun _ _ => 0)
    (askFor 0 7 ++ steps 0 7 ++ ([.finish 0 0] : List (PageEv 2 1 Nat)) ++ steps 0 3 ++
      ([.start 0 0 [7]] : List (PageEv 2 1 Nat)) ++ steps 0 5 ++ askFor 1 7 ++
      ([.invalidArrive 7, .invalidate 7, .invalidReturn 7] : List (PageEv 2 1 Nat)) ++ steps 0 2) = some s ∧
    (s.insts 0).threads 0 = .body [7] ∧ s.mode 0 7 = .O ∧ ¬ PagesPinned s := by
  have hrun : (((pageLts 2 1 Nat).run (.init (fun _ => 0) fun _ _ => 0)
      (askFor 0 7 ++ steps 0 7 ++ ([.finish 0 0] : List (PageEv 2 1 Nat)) ++ steps 0 3 ++
        ([.start 0 0 [7]] : List (PageEv 2 1 Nat)) ++ steps 0 5 ++ askFor 1 7 ++
        ([.invalidArrive 7, .invalidate 7, .invalidReturn 7] : List (PageEv 2 1 Nat)) ++ steps 0 2)).any
      fun s => decide (((s.insts 0).threads 0).bodySet? = some [7]) && decide (s.mode 0 7 = .O)) = true := by
    decide +kernel
  simp only [Option.any_eq_true, Bool.and_eq_true, decide_eq_true_eq] at hrun
  obtain ⟨s, hs, hpc, hO⟩ := hrun
  have hbody : (s.insts 0).threads 0 = .body [7] := Pc.bodySet?_eq_some hpc
  refine ⟨s, hs, hbody, hO, fun hp => (hp 0 0).1 7 ?_ hO⟩
  rw [hbody]
  exact List.mem_singleton_self 7

end Dbx1000
