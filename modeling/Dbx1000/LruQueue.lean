import Dbx1000.Lru
import Dbx1000.Lib.Loop
import Dbx1000.Lib.Lts

/-!
# The frame lists as queues (`LRU::Check`, `LRU::Prepend`, `LRU::Popback`)

`LRU::Check` walks a list from both ends and compares what it meets with `size_`; it passes if and only if the
list object represents some sequence of nodes (`Lru.check_iff`). `Prepend` leaves `prev_` of its node as it is
and `Popback` leaves `next_`, so that the lists are in order as long as only nodes that are new or were popped
are prepended. `Frames` is a run of such calls on two lists over the same nodes: a node that is on no list is in
the `hand` of the caller, and `prepended` and `popped` are ghosts. Each list is a queue (`QueueOk.popback_eq`).
-/

namespace Dbx1000

namespace Lru

/-! ### `LRU::Check` -/

/-- The assertions on the node `a`, the `count`th one of a loop: `fwd` leads away from the end where the loop
starts, and `last` is the other end. -/
def checkNode (fwd back : Nat → Option Nat) (last : Option Nat) (size a count : Nat) : Run Unit :=
  match fwd a with
  | some b => Run.assert (back b = some a)
  | none => Run.assert (last = some a ∧ count = size)

def checkTurn (fwd back : Nat → Option Nat) (last : Option Nat) (size : Nat) :
    Option Nat × Nat → Run ((Option Nat × Nat) ⊕ Nat)
  | (none, count) => .done (.inr count)
  | (some a, count) => do
    checkNode fwd back last size a (count + 1)
    return .inl (fwd a, count + 1)

/-- The assertions on the two ends. -/
def checkEnds (node : Nat → PageNode) (l : Lru) : Run Unit :=
  if 0 < l.size then
    match l.head, l.tail with
    | some h, some t => Run.assert ((node h).prev = none ∧ (node t).next = none)
    | _, _ => .failed
  else Run.assert (l.head = none ∧ l.tail = none)

/-- `LRU::Check`, with at most `n` turns of each loop. -/
def check (node : Nat → PageNode) (l : Lru) (n : Nat) : Run Unit := do
  l.checkEnds node
  let count ← Run.loop (checkTurn (fun a => (node a).next) (fun a => (node a).prev) l.tail l.size) n (l.head, 0)
  Run.assert (count = l.size)
  let count ← Run.loop (checkTurn (fun a => (node a).prev) (fun a => (node a).next) l.head l.size) n (l.tail, 0)
  Run.assert (count = l.size)

section Check

variable {fwd back : Nat → Option Nat} {first last p : Option Nat} {size count a c n : Nat} {as pre suf : List Nat}
  {node : Nat → PageNode} {l : Lru}

theorem checkNode_of_dList (h : DList back fwd first last (pre ++ a :: suf)) :
    checkNode fwd back last (pre ++ a :: suf).length a (pre.length + 1) = .done () := by
  unfold checkNode
  rw [h.next_eq]
  cases suf with
  | nil => exact Run.assert_of ⟨by rw [h.tail_eq, List.getLast?_concat], by simp⟩
  | cons b suf => exact Run.assert_of (List.isChain_cons_cons.1 (List.isChain_append.1 h.chain).2.1).1.2

/-- The loop over the rest `suf` of a list. -/
theorem loop_checkTurn_rest (pre : List Nat) (h : DList back fwd first last (pre ++ suf)) (hn : suf.length < n) :
    Run.loop (checkTurn fwd back last (pre ++ suf).length) n (suf.head?, pre.length) = .done (pre ++ suf).length := by
  induction suf generalizing pre n with
  | nil =>
    obtain ⟨m, rfl⟩ := Nat.exists_eq_add_of_lt hn
    rw [List.append_nil]
    exact Run.loop_exit rfl
  | cons a suf ih =>
    obtain ⟨m, rfl⟩ := Nat.exists_eq_add_of_lt hn
    have hturn : checkTurn fwd back last (pre ++ a :: suf).length (some a, pre.length) =
        .done (.inl (suf.head?, pre.length + 1)) := by
      rw [checkTurn, checkNode_of_dList h, Run.done_bind, h.next_eq]
      rfl
    have happ : pre ++ a :: suf = pre ++ [a] ++ suf := List.append_cons ..
    rw [List.head?_cons, Run.loop_next hturn, happ, ← List.length_concat, List.concat_eq_append]
    exact ih _ (happ ▸ h) (by rw [List.length_cons]; omega)

theorem loop_checkTurn (h : DList back fwd first last as) (hn : as.length < n) :
    Run.loop (checkTurn fwd back last as.length) n (first, 0) = .done as.length := by
  have hloop := loop_checkTurn_rest [] h hn
  rwa [List.nil_append, ← h.head_eq] at hloop

theorem checkEnds_of_rep (h : Rep node l as) : l.checkEnds node = .done () := by
  unfold checkEnds
  cases as with
  | nil =>
    rw [if_neg (by rw [h.size]; exact Nat.lt_irrefl 0)]
    exact Run.assert_of ⟨h.list.head_eq, h.list.tail_eq⟩
  | cons a as =>
    have hhead : l.head = some a := h.list.head_eq
    obtain ⟨t, htail⟩ : ∃ t, l.tail = some t := by
      rw [h.list.tail_eq]
      exact ⟨_, List.getLast?_cons⟩
    rw [if_pos (by rw [h.size]; exact Nat.succ_pos _)]
    simp only [hhead, htail]
    exact Run.assert_of ⟨h.list.first a hhead, h.list.last t htail⟩

theorem null_of_checkEnds (hsize : l.size = 0) (h : l.checkEnds node = .done ()) : l.head = none ∧ l.tail = none := by
  unfold checkEnds at h
  rw [if_neg (by omega)] at h
  exact Run.of_assert h

theorem ends_of_checkEnds (hsize : 0 < l.size) (h : l.checkEnds node = .done ()) :
    (∀ a, l.head = some a → (node a).prev = none) ∧ ∀ a, l.tail = some a → (node a).next = none := by
  unfold checkEnds at h
  rw [if_pos hsize] at h
  split at h
  · rename_i hd tl hhead htail
    obtain ⟨hprev, hnext⟩ := Run.of_assert h
    rw [hhead, htail]
    exact ⟨fun a ha => Option.some.inj ha ▸ hprev, fun a ha => Option.some.inj ha ▸ hnext⟩
  · cases h

theorem check_of_rep (h : Rep node l as) (hn : as.length < n) : l.check node n = .done () := by
  have hforth := loop_checkTurn h.list hn
  have hback := loop_checkTurn h.list.reverse (by rwa [List.length_reverse])
  rw [List.length_reverse] at hback
  rw [← h.size] at hforth hback
  simp only [check, checkEnds_of_rep h, hforth, hback, Run.done_bind]
  rfl

/-- What a loop that comes to its end has walked over. -/
theorem path_of_loop (h : Run.loop (checkTurn fwd back last size) n (p, count) = .done c) :
    ∃ as : List Nat, p = as.head? ∧ (as.IsChain fun a b => fwd a = some b ∧ back b = some a) ∧
      (∀ a ∈ as.getLast?, fwd a = none ∧ last = some a) ∧ c = count + as.length := by
  induction n generalizing p count with
  | zero => cases h
  | succ n ih =>
    cases p with
    | none =>
      cases h
      exact ⟨[], rfl, .nil, nofun, rfl⟩
    | some a =>
      obtain ⟨next, hturn, hloop⟩ := Run.bind_eq_done.1 h
      rw [checkTurn] at hturn
      obtain ⟨_, hassert, hnext⟩ := Run.bind_eq_done.1 hturn
      unfold checkNode at hassert
      cases hnext
      -- the rest of the way decides which of the two assertions was made on `a`
      obtain ⟨as, hhead, hchain, hend, hc⟩ := ih hloop
      refine ⟨a :: as, rfl, ?_, ?_, by rw [hc, List.length_cons]; omega⟩
      · cases as with
        | nil => exact .singleton a
        | cons b as =>
          rw [List.head?_cons] at hhead
          rw [hhead] at hassert
          exact List.isChain_cons_cons.2 ⟨⟨hhead, Run.of_assert hassert⟩, hchain⟩
      · cases as with
        | nil =>
          rw [List.head?_nil] at hhead
          rw [hhead] at hassert
          rintro b hb
          cases hb
          exact ⟨hhead, (Run.of_assert hassert).1⟩
        | cons b as => exact hend

/-- `Check` passes if and only if the list object is a list. -/
theorem check_iff : Run.Returns (l.check node) () ↔ ∃ as, Rep node l as := by
  constructor
  · rintro ⟨bound, hcheck⟩
    obtain ⟨_, hends, hrest⟩ := Run.bind_eq_done.1 (hcheck bound (Nat.le_refl bound))
    obtain ⟨count, hloop, hrest⟩ := Run.bind_eq_done.1 hrest
    -- the way from the head to a null pointer is the list; what the second loop asserts follows from it
    obtain ⟨_, hcount, _⟩ := Run.bind_eq_done.1 hrest
    obtain ⟨as, hhead, hchain, hend, hlen⟩ := path_of_loop hloop
    have hsize : l.size = as.length := by rw [← Run.of_assert hcount, hlen, Nat.zero_add]
    have hnodup := DList.nodup_path (hchain.imp fun _ _ hab => hab.1) fun a ha => (hend a ha).1
    cases as with
    | nil =>
      have hnull := null_of_checkEnds hsize hends
      exact ⟨[], by rw [hnull.1, hnull.2]; exact .nil, hsize⟩
    | cons a as =>
      obtain ⟨hfirst, hlast⟩ := ends_of_checkEnds (hsize ▸ Nat.succ_pos _) hends
      obtain ⟨t, ht⟩ : ∃ t, (a :: as).getLast? = some t := ⟨_, List.getLast?_cons⟩
      exact ⟨a :: as, ⟨hnodup, hchain, hhead, (hend t ht).2.trans ht.symm, hfirst, hlast⟩, hsize⟩
  · rintro ⟨as, h⟩
    exact ⟨as.length + 1, fun n hn => check_of_rep h hn⟩

end Check

end Lru

/-! ### Runs of `Prepend` and `Popback` over two lists -/

inductive FrameList
  | pageList | freeList
deriving DecidableEq, Repr

theorem FrameList.pageList_ne_freeList : pageList ≠ freeList := nofun

/-- Where a node is: nowhere before it is made, in the hand of the caller when it is new or popped, or on a list. -/
inductive NodePlace
  | unused | hand | on (k : FrameList)
deriving DecidableEq, Repr

/-- A list with the nodes that `Prepend` got and `Popback` returned so far, in order. -/
structure FrameQueue where
  lru : Lru
  prepended : List Nat
  popped : List Nat

/-- The nodes that were not popped yet, newest first. -/
def FrameQueue.rest (q : FrameQueue) : List Nat := (q.prepended.drop q.popped.length).reverse

structure Frames where
  node : Nat → PageNode
  queue : FrameList → FrameQueue
  place : Nat → NodePlace

inductive FrameEv
  | new (a : Nat) (pageBuf : Bytes)
  | prepend (k : FrameList) (a : Nat)
  | popback (k : FrameList)
  | setPage (a pageId : Nat) (pageBuf : Bytes)
deriving DecidableEq, Repr

namespace Frames

/-- Two new lists, in any memory. -/
def init (node : Nat → PageNode) : Frames := ⟨node, fun _ => ⟨.empty, [], []⟩, fun _ => .unused⟩

/-- `new PageNode(page_buf)` at an address that no node has; `Prepend` of a node in hand, and `Popback`; writes to
the page of a node. -/
def step (s : Frames) : FrameEv → Option Frames
  | .new a pageBuf =>
    if s.place a = .unused then
      some { s with
        node := Function.update s.node a ⟨uint64Max, pageBuf, none, none⟩
        place := Function.update s.place a .hand }
    else none
  | .prepend k a =>
    if s.place a = .hand then
      let q := s.queue k
      let (node, lru) := q.lru.prepend a s.node
      some ⟨node, Function.update s.queue k ⟨lru, q.prepended ++ [a], q.popped⟩, Function.update s.place a (.on k)⟩
    else none
  | .popback k =>
    let q := s.queue k
    match q.lru.popback s.node with
    | some (some a, node, lru) =>
      some ⟨node, Function.update s.queue k ⟨lru, q.prepended, q.popped ++ [a]⟩, Function.update s.place a .hand⟩
    | some (none, node, lru) => some { s with node := node, queue := Function.update s.queue k { q with lru := lru } }
    | none => none
  | .setPage a pageId pageBuf =>
    some { s with node := Function.update s.node a { s.node a with pageId := pageId, pageBuf := pageBuf } }

def lts : Lts Frames FrameEv where
  init s := ∃ node, s = .init node
  step := step

end Frames

/-! ### The invariant -/

/-- The list is in order, and what was popped was prepended first. -/
structure QueueOk (node : Nat → PageNode) (q : FrameQueue) : Prop where
  rep : q.lru.Rep node q.rest
  fifo : q.popped <+: q.prepended

namespace QueueOk

variable {node node' : Nat → PageNode} {q : FrameQueue} {lru : Lru} {a : Nat} {as : List Nat}

theorem prepended_eq (h : QueueOk node q) : q.prepended = q.popped ++ q.rest.reverse := by
  rw [FrameQueue.rest, List.reverse_reverse]
  exact (List.prefix_iff_eq_append.1 h.fifo).symm

theorem congr (h : QueueOk node q)
    (hn : ∀ a ∈ q.rest, (node' a).prev = (node a).prev ∧ (node' a).next = (node a).next) : QueueOk node' q :=
  ⟨h.rep.congr hn, h.fifo⟩

theorem same (h : QueueOk node q) (hn : ∀ a ∈ q.rest, node' a = node a) : QueueOk node' q := by
  refine h.congr fun a ha => ?_
  rw [hn a ha]
  exact ⟨rfl, rfl⟩

theorem rest_prepend (h : QueueOk node q) : FrameQueue.rest ⟨lru, q.prepended ++ [a], q.popped⟩ = a :: q.rest := by
  rw [FrameQueue.rest, FrameQueue.rest, List.drop_append_of_le_length h.fifo.length_le, List.reverse_append]
  rfl

theorem popback_fifo (h : QueueOk node q) (hrest : q.rest = as ++ [a]) :
    q.prepended = q.popped ++ [a] ++ as.reverse := by
  rw [h.prepended_eq, hrest, List.reverse_append, List.append_assoc]
  rfl

theorem rest_popback (h : QueueOk node q) (hrest : q.rest = as ++ [a]) :
    FrameQueue.rest ⟨lru, q.prepended, q.popped ++ [a]⟩ = as := by
  rw [FrameQueue.rest, h.popback_fifo hrest, List.drop_left, List.reverse_reverse]

theorem prepend (h : QueueOk node q) (ha : a ∉ q.rest) (hnull : (node a).prev = none) :
    QueueOk (q.lru.prepend a node).1 ⟨(q.lru.prepend a node).2, q.prepended ++ [a], q.popped⟩ := by
  refine ⟨?_, h.fifo.trans (List.prefix_append _ _)⟩
  rw [h.rest_prepend]
  exact (Lru.prepend_spec h.rep ha hnull).1

theorem popback (h : QueueOk node q) (hrest : q.rest = as ++ [a]) (hrep : lru.Rep node' as) :
    QueueOk node' ⟨lru, q.prepended, q.popped ++ [a]⟩ := by
  refine ⟨?_, ?_⟩
  · rw [h.rest_popback hrest]
    exact hrep
  · rw [h.popback_fifo hrest]
    exact List.prefix_append _ _

/-- A pop gives the oldest node. -/
theorem popback_eq (h : QueueOk node q) : ∃ r node' lru, q.lru.popback node = some (r, node', lru) ∧
    r = q.prepended[q.popped.length]? ∧ (r = none ↔ q.rest = []) := by
  rcases Lru.popback_cases h.rep with ⟨hnil, hpop⟩ | ⟨as, a, node', lru, hrest, hpop, -⟩
  · refine ⟨none, _, _, hpop, ?_, fun _ => hnil, fun _ => rfl⟩
    rw [h.prepended_eq, hnil]
    simp
  · refine ⟨some a, node', lru, hpop, ?_, nofun, fun hnil => ?_⟩
    · rw [h.popback_fifo hrest]
      simp
    · rw [hrest] at hnil
      simp at hnil

end QueueOk

structure FramesInv (s : Frames) : Prop where
  queue : ∀ k, QueueOk s.node (s.queue k)
  place : ∀ k a, a ∈ (s.queue k).rest ↔ s.place a = .on k
  hand : ∀ a, s.place a = .hand → (s.node a).prev = none

namespace FramesInv

variable {s s' : Frames} {j k : FrameList} {a : Nat}

theorem init (node : Nat → PageNode) : FramesInv (.init node) :=
  ⟨fun _ => ⟨.empty, List.nil_prefix⟩, fun _ _ => ⟨nofun, nofun⟩, nofun⟩

/-- A node that is not on the list `k` by its place. -/
theorem not_mem (h : FramesInv s) (ha : s.place a ≠ .on k) : a ∉ (s.queue k).rest :=
  fun hon => ha ((h.place k a).1 hon)

theorem disjoint (h : FramesInv s) (hjk : j ≠ k) (ha : a ∈ (s.queue k).rest) : a ∉ (s.queue j).rest := by
  refine h.not_mem fun hj => ?_
  have heq := hj.symm.trans ((h.place k a).1 ha)
  cases heq
  exact hjk rfl

theorem new (h : FramesInv s) (ha : s.place a = .unused) (pageBuf : Bytes) :
    FramesInv { s with
      node := Function.update s.node a ⟨uint64Max, pageBuf, none, none⟩
      place := Function.update s.place a .hand } := by
  have hnot : ∀ k, a ∉ (s.queue k).rest := fun k => h.not_mem (by rw [ha]; exact nofun)
  have hne : ∀ k, ∀ c ∈ (s.queue k).rest, c ≠ a := by
    rintro k c hc rfl
    exact hnot k hc
  refine ⟨fun k => (h.queue k).same fun c hc => Function.update_of_ne (hne k c hc) .., fun k c => ?_, fun c => ?_⟩
  · by_cases hc : c = a
    · simp [hc, hnot k]
    · simp [hc, h.place k c]
  · by_cases hc : c = a
    · simp [hc]
    · simpa [hc] using h.hand c

/-- A call on the list `k` that moves the node `a`. -/
theorem move {node : Nat → PageNode} {q : FrameQueue} {dest : NodePlace} (h : FramesInv s) (hq : QueueOk node q)
    (hsame : ∀ c, c ≠ a → c ∉ (s.queue k).rest → node c = s.node c)
    (hrest : ∀ c, c ∈ q.rest ↔ if c = a then dest = .on k else c ∈ (s.queue k).rest)
    (hother : ∀ j, j ≠ k → a ∉ (s.queue j).rest ∧ dest ≠ .on j) (hhand : dest = .hand → (node a).prev = none) :
    FramesInv ⟨node, Function.update s.queue k q, Function.update s.place a dest⟩ := by
  constructor
  · intro j
    show QueueOk node (Function.update s.queue k q j)
    by_cases hj : j = k
    · rw [hj, Function.update_self]
      exact hq
    · rw [Function.update_of_ne hj]
      refine (h.queue j).same fun c hc => hsame c ?_ fun hck => h.disjoint hj hck hc
      rintro rfl
      exact (hother j hj).1 hc
  · intro j c
    show c ∈ (Function.update s.queue k q j).rest ↔ Function.update s.place a dest c = .on j
    by_cases hj : j = k
    · rw [hj, Function.update_self, hrest c, Function.update_apply]
      split
      · rfl
      · exact h.place k c
    · rw [Function.update_of_ne hj, Function.update_apply]
      split
      · rename_i hc
        rw [hc]
        exact iff_of_false (hother j hj).1 (hother j hj).2
      · exact h.place j c
  · intro c
    show Function.update s.place a dest c = .hand → (node c).prev = none
    by_cases hc : c = a
    · rw [hc, Function.update_self]
      exact hhand
    · rw [Function.update_of_ne hc]
      intro hc'
      rw [hsame c hc (h.not_mem (by rw [hc']; exact nofun))]
      exact h.hand c hc'

/-- A node in hand is put on the list `k`. -/
theorem prepend (h : FramesInv s) (ha : s.place a = .hand) (k : FrameList) :
    FramesInv ⟨((s.queue k).lru.prepend a s.node).1,
      Function.update s.queue k
        ⟨((s.queue k).lru.prepend a s.node).2, (s.queue k).prepended ++ [a], (s.queue k).popped⟩,
      Function.update s.place a (.on k)⟩ := by
  have hnot : ∀ j, a ∉ (s.queue j).rest := fun j => h.not_mem (by rw [ha]; exact nofun)
  obtain ⟨-, hsame⟩ := Lru.prepend_spec (h.queue k).rep (hnot k) (h.hand a ha)
  refine h.move ((h.queue k).prepend (hnot k) (h.hand a ha)) (fun c hc hck => ?_) (fun c => ?_) (fun j hj => ?_) nofun
  · exact hsame.others c (List.not_mem_cons_of_ne_of_not_mem hc hck)
  · rw [(h.queue k).rest_prepend, List.mem_cons]
    split
    · exact iff_of_true (.inl ‹_›) rfl
    · exact or_iff_right ‹_›
  · refine ⟨hnot j, fun hk => hj ?_⟩
    cases hk
    rfl

/-- The last node of the list `k` goes to the caller. -/
theorem popback {as : List Nat} {node : Nat → PageNode} {lru : Lru} (h : FramesInv s)
    (hrest : (s.queue k).rest = as ++ [a]) (hrep : lru.Rep node as) (hnull : (node a).prev = none)
    (hsame : Lru.SamePages (s.queue k).rest s.node node) :
    FramesInv ⟨node, Function.update s.queue k ⟨lru, (s.queue k).prepended, (s.queue k).popped ++ [a]⟩,
      Function.update s.place a .hand⟩ := by
  have hon : a ∈ (s.queue k).rest := by
    rw [hrest]
    exact List.mem_append_right _ (List.mem_singleton_self a)
  have ha : a ∉ as := by
    have hnodup := (h.queue k).rep.list.nodup
    rw [hrest] at hnodup
    exact fun ha => (List.nodup_append.1 hnodup).2.2 a ha a (List.mem_singleton_self a) rfl
  refine h.move ((h.queue k).popback hrest hrep) (fun c _ hck => hsame.others c hck) (fun c => ?_) (fun j hj => ?_)
    fun _ => hnull
  · rw [(h.queue k).rest_popback hrest, hrest, List.mem_append, List.mem_singleton]
    split
    · rename_i hc
      rw [hc]
      exact iff_of_false ha nofun
    · exact (or_iff_left ‹_›).symm
  · exact ⟨h.disjoint hj hon, nofun⟩

theorem setPage (h : FramesInv s) (a pageId : Nat) (pageBuf : Bytes) :
    FramesInv { s with node := Function.update s.node a { s.node a with pageId := pageId, pageBuf := pageBuf } } := by
  have hlinks : ∀ c, (Function.update s.node a { s.node a with pageId := pageId, pageBuf := pageBuf } c).prev =
      (s.node c).prev ∧ (Function.update s.node a { s.node a with pageId := pageId, pageBuf := pageBuf } c).next =
      (s.node c).next := by
    intro c
    by_cases hc : c = a
    · simp [hc]
    · simp [hc]
  exact ⟨fun k => (h.queue k).congr fun c _ => hlinks c, h.place, fun c hc => (hlinks c).1.trans (h.hand c hc)⟩

theorem step {ev : FrameEv} (h : FramesInv s) (hs : s.step ev = some s') : FramesInv s' := by
  cases ev with
  | new a pageBuf =>
    simp only [Frames.step] at hs
    split at hs
    · rename_i ha
      cases hs
      exact h.new ha pageBuf
    · cases hs
  | prepend k a =>
    simp only [Frames.step] at hs
    split at hs
    · rename_i ha
      cases hs
      exact h.prepend ha k
    · cases hs
  | popback k =>
    rcases Lru.popback_cases (h.queue k).rep with ⟨-, hpop⟩ | ⟨as, a, node, lru, hrest, hpop, hrep, hnull, hsame⟩
    · simp only [Frames.step, hpop, Function.update_eq_self] at hs
      cases hs
      exact h
    · simp only [Frames.step, hpop] at hs
      cases hs
      exact h.popback hrest hrep hnull hsame
  | setPage a pageId pageBuf =>
    cases hs
    exact h.setPage a pageId pageBuf

theorem reach (h : Frames.lts.Reach Lts.Any s) : FramesInv s := by
  refine h.inv (P := FramesInv) ?_ ?_
  · rintro s ⟨node, rfl⟩
    exact init node
  · intro s ev s' hinv _ hs
    exact hinv.step hs

end FramesInv

/-- Whatever is prepended, as long as it is new or was popped: the lists are in order and `Check` passes on them,
each of them gives its nodes back in the order in which they were prepended, and null if and only if there is none,
and they have no node in common. -/
theorem frame_lists_are_queues {s : Frames} (h : Frames.lts.Reach Lts.Any s) :
    (∀ k, (s.queue k).lru.Rep s.node ((s.queue k).lru.toList s.node) ∧
      Run.Returns ((s.queue k).lru.check s.node) () ∧
      (s.queue k).prepended = (s.queue k).popped ++ ((s.queue k).lru.toList s.node).reverse ∧
      ∃ r node lru, (s.queue k).lru.popback s.node = some (r, node, lru) ∧
        r = (s.queue k).prepended[(s.queue k).popped.length]? ∧
        (r = none ↔ (s.queue k).lru.toList s.node = [])) ∧
    ((s.queue .pageList).lru.toList s.node).Disjoint ((s.queue .freeList).lru.toList s.node) := by
  have hinv := FramesInv.reach h
  have hlist : ∀ k, (s.queue k).lru.toList s.node = (s.queue k).rest := fun k => (hinv.queue k).rep.toList_eq
  constructor
  · intro k
    have hok := hinv.queue k
    rw [hlist k]
    exact ⟨hok.rep, Lru.check_iff.2 ⟨_, hok.rep⟩, hok.prepended_eq, hok.popback_eq⟩
  · rw [hlist, hlist]
    intro a ha hb
    exact hinv.disjoint FrameList.pageList_ne_freeList hb ha

/-- The nodes 0 and 1 are put on one list, and 0 is moved to the other one: the next pop gives 1. -/
theorem frame_lists_next_pop : ∃ s, Frames.lts.Reach Lts.Any s ∧ (s.queue .pageList).popped = [0] ∧
    (s.queue .freeList).prepended = [0] ∧ Run.Returns ((s.queue .freeList).lru.check s.node) () ∧
      ∃ node lru, (s.queue .pageList).lru.popback s.node = some (some 1, node, lru) := by
  have hrun : (Frames.lts.run (.init fun _ => ⟨0, [], none, none⟩) [.new 0 [], .new 1 [], .prepend .pageList 0,
      .prepend .pageList 1, .popback .pageList, .prepend .freeList 0]).any (fun s =>
        decide ((s.queue .pageList).prepended = [0, 1] ∧ (s.queue .pageList).popped = [0] ∧
          (s.queue .freeList).prepended = [0])) = true := by decide
  simp only [Option.any_eq_true, decide_eq_true_eq] at hrun
  obtain ⟨s, hs, hpre, hpop, hfree⟩ := hrun
  have hreach : Frames.lts.Reach Lts.Any s := .run (.init ⟨_, rfl⟩) hs
  obtain ⟨-, -, -, r, node, lru, hr, hnext, -⟩ := (frame_lists_are_queues hreach).1 .pageList
  obtain ⟨-, hcheck, -⟩ := (frame_lists_are_queues hreach).1 .freeList
  rw [hpre, hpop] at hnext
  exact ⟨s, hreach, hpop, hfree, hcheck, node, lru, by rw [hr, hnext]; rfl⟩

end Dbx1000
