import Dbx1000.Lib.DList
import Dbx1000.Global

/-!
# The list of page nodes (`common/buffer/lru.cpp`)

`page_list_` and `free_list_` of a buffer are two lists over the same nodes, which stand in one
memory `Nat → PageNode`; a null pointer is `none`. `Lru.Rep` relates a list object to the addresses on
it, first to last. The build uses neither `USE_MUTEX` nor `USE_CAS`, and the body of `LRU::Get` is
commented out in the source.
-/

namespace Dbx1000

abbrev Bytes := List UInt8

/-- `memcpy(dst, src, count)`: the contents of `dst` afterwards. -/
def memcpy (dst src : Bytes) (count : Nat) : Bytes := src.take count ++ dst.drop count

theorem memcpy_all {dst src : Bytes} {count : Nat} (hd : dst.length = count) (hs : src.length = count) :
    memcpy dst src count = src := by
  rw [memcpy, List.take_of_length_le hs.le, List.drop_of_length_le hd.le, List.append_nil]

structure PageNode where
  pageId : Nat
  pageBuf : Bytes
  prev : Option Nat
  next : Option Nat
deriving DecidableEq, Repr

/-! ### Writes to a field of a node -/

section Node

variable {node : Nat → PageNode} {a c : Nat} {v : Option Nat}

def setPrev (a : Nat) (v : Option Nat) (node : Nat → PageNode) : Nat → PageNode :=
  Function.update node a { node a with prev := v }

def setNext (a : Nat) (v : Option Nat) (node : Nat → PageNode) : Nat → PageNode :=
  Function.update node a { node a with next := v }

theorem setPrev_of_ne (h : c ≠ a) : setPrev a v node c = node c := Function.update_of_ne h ..

theorem setNext_of_ne (h : c ≠ a) : setNext a v node c = node c := Function.update_of_ne h ..

theorem setPrev_self : setPrev a v node a = { node a with prev := v } := Function.update_self ..

theorem setNext_self : setNext a v node a = { node a with next := v } := Function.update_self ..

theorem setPrev_prev : (setPrev a v node c).prev = if c = a then v else (node c).prev := by
  by_cases h : c = a
  · rw [if_pos h, h, setPrev_self]
  · rw [if_neg h, setPrev_of_ne h]

theorem setNext_next : (setNext a v node c).next = if c = a then v else (node c).next := by
  by_cases h : c = a
  · rw [if_pos h, h, setNext_self]
  · rw [if_neg h, setNext_of_ne h]

theorem setPrev_frame : (setPrev a v node c).next = (node c).next ∧
    (setPrev a v node c).pageId = (node c).pageId ∧ (setPrev a v node c).pageBuf = (node c).pageBuf := by
  by_cases h : c = a
  · rw [h, setPrev_self]; exact ⟨rfl, rfl, rfl⟩
  · rw [setPrev_of_ne h]; exact ⟨rfl, rfl, rfl⟩

theorem setNext_frame : (setNext a v node c).prev = (node c).prev ∧
    (setNext a v node c).pageId = (node c).pageId ∧ (setNext a v node c).pageBuf = (node c).pageBuf := by
  by_cases h : c = a
  · rw [h, setNext_self]; exact ⟨rfl, rfl, rfl⟩
  · rw [setNext_of_ne h]; exact ⟨rfl, rfl, rfl⟩

end Node

structure Lru where
  head : Option Nat
  tail : Option Nat
  size : Nat
deriving DecidableEq, Repr

namespace Lru

variable {node : Nat → PageNode} {l : Lru} {as : List Nat} {a : Nat}

def empty : Lru := ⟨none, none, 0⟩

def prepend (a : Nat) (node : Nat → PageNode) (l : Lru) : (Nat → PageNode) × Lru :=
  let node := setNext a l.head node
  match l.head with
  | none => (node, ⟨some a, some a, l.size + 1⟩)
  | some h => (setPrev h (some a) node, ⟨some a, l.tail, l.size + 1⟩)

/-- `LRU::Popback`: the node taken off (null for an empty list). -/
def popback (node : Nat → PageNode) (l : Lru) : Option (Option Nat × (Nat → PageNode) × Lru) :=
  match l.tail with
  | none => some (none, node, l)
  | some a =>
    match (node a).prev with
    | some b => some (some a, setPrev a none (setNext b none node), ⟨l.head, some b, l.size - 1⟩)
    | none => if l.head = l.tail then some (some a, node, ⟨none, none, l.size - 1⟩) else none

/-! ### The addresses on a list -/

structure Rep (node : Nat → PageNode) (l : Lru) (as : List Nat) : Prop where
  list : DList (fun a => (node a).prev) (fun a => (node a).next) l.head l.tail as
  size : l.size = as.length

/-- The pages in the nodes are the same, and so are the nodes outside `as`. -/
structure SamePages (as : List Nat) (node node' : Nat → PageNode) : Prop where
  pageId : ∀ c, (node' c).pageId = (node c).pageId
  pageBuf : ∀ c, (node' c).pageBuf = (node c).pageBuf
  others : ∀ c, c ∉ as → node' c = node c

/-- The addresses from the head on. -/
def toList (node : Nat → PageNode) (l : Lru) : List Nat := walk (fun a => (node a).next) l.head l.size

theorem Rep.toList_eq (h : Rep node l as) : l.toList node = as := by
  rw [toList, h.size]
  exact h.list.walk_eq

theorem Rep.empty : Rep node .empty [] := ⟨.nil, rfl⟩

theorem Rep.congr {node' : Nat → PageNode} (h : Rep node l as) (hn : ∀ a ∈ as, (node' a).prev = (node a).prev ∧
    (node' a).next = (node a).next) : Rep node' l as :=
  ⟨h.list.congr (fun a ha => (hn a ha).1) fun a ha => (hn a ha).2, h.size⟩

theorem prepend_spec (h : Rep node l as) (ha : a ∉ as) (hnull : (node a).prev = none) :
    Rep (l.prepend a node).1 (l.prepend a node).2 (a :: as) ∧ SamePages (a :: as) node (l.prepend a node).1 := by
  have hpush {node' : Nat → PageNode} (hp : ∀ c, (node' c).prev = if l.head = some c then some a else (node c).prev)
      (hn : ∀ c, (node' c).next = if c = a then l.head else (node c).next) := h.list.pushFront ha hnull hp hn
  unfold prepend
  cases hh : l.head with
  | none =>
    rw [hh] at hpush
    refine ⟨⟨hpush (fun c => ?_) fun c => setNext_next, congrArg (· + 1) h.size⟩, fun c => setNext_frame.2.1,
      fun c => setNext_frame.2.2, fun c hc => setNext_of_ne fun h' => hc (h' ▸ List.mem_cons_self)⟩
    rw [if_neg nofun]
    exact setNext_frame.1
  | some b =>
    rw [hh] at hpush
    have hb : b ∈ as := List.mem_of_mem_head? (h.list.head_eq ▸ hh)
    refine ⟨⟨hpush (fun c => ?_) fun c => setPrev_frame.1.trans setNext_next, congrArg (· + 1) h.size⟩,
      fun c => setPrev_frame.2.1.trans setNext_frame.2.1, fun c => setPrev_frame.2.2.trans setNext_frame.2.2,
      fun c hc => ?_⟩
    · rw [setPrev_prev, setNext_frame.1]
      exact if_congr ⟨fun h' => h' ▸ rfl, fun h' => (Option.some.inj h').symm⟩ rfl rfl
    · have hca : c ≠ a := fun h' => hc (h' ▸ List.mem_cons_self)
      have hcb : c ≠ b := fun h' => hc (h' ▸ List.mem_cons_of_mem _ hb)
      exact (setPrev_of_ne hcb).trans (setNext_of_ne hca)

theorem popback_spec (h : Rep node l (as ++ [a])) : ∃ node' l', l.popback node = some (some a, node', l') ∧
    Rep node' l' as ∧ (node' a).prev = none ∧ SamePages (as ++ [a]) node node' := by
  obtain ⟨htail, hprev⟩ := h.list.prev_last
  have hsize : l.size - 1 = as.length := by rw [h.size, List.length_append]; rfl
  rcases List.eq_nil_or_concat as with rfl | ⟨as, b, rfl⟩
  · refine ⟨node, ⟨none, none, l.size - 1⟩, ?_, ⟨.nil, hsize⟩, hprev, fun _ => rfl, fun _ => rfl, fun _ _ => rfl⟩
    have hhead : l.head = l.tail := by rw [h.list.head_eq, h.list.tail_eq]; rfl
    simp only [popback, htail, hprev, List.getLast?_nil]
    rw [if_pos (hhead.trans htail)]
  · rw [List.concat_eq_append] at *
    rw [List.getLast?_concat] at hprev
    refine ⟨setPrev a none (setNext b none node), ⟨l.head, some b, l.size - 1⟩, ?_, ⟨?_, hsize⟩, ?_, fun c => ?_,
      fun c => ?_, fun c hc => ?_⟩
    · simp only [popback, htail, hprev]
    · refine h.list.popBack (fun c => ?_) fun c => setPrev_frame.1.trans setNext_next
      rw [setPrev_prev, setNext_frame.1]
    · rw [setPrev_self]
    · exact setPrev_frame.2.1.trans setNext_frame.2.1
    · exact setPrev_frame.2.2.trans setNext_frame.2.2
    · have hca : c ≠ a := fun h' => hc (by rw [h']; simp)
      have hcb : c ≠ b := fun h' => hc (by rw [h']; simp)
      rw [setPrev_of_ne hca, setNext_of_ne hcb]

/-- `Popback` on a list of any length. -/
theorem popback_cases (h : Rep node l as) : as = [] ∧ l.popback node = some (none, node, l) ∨
    ∃ as' a node' l', as = as' ++ [a] ∧ l.popback node = some (some a, node', l') ∧ Rep node' l' as' ∧
      (node' a).prev = none ∧ SamePages as node node' := by
  rcases List.eq_nil_or_concat as with rfl | ⟨as', a, rfl⟩
  · have htail : l.tail = none := h.list.tail_eq
    exact .inl ⟨rfl, by simp only [popback, htail]⟩
  · rw [List.concat_eq_append] at *
    obtain ⟨node', l', hpop, hrep, hnull, hsame⟩ := popback_spec h
    exact .inr ⟨as', a, node', l', rfl, hpop, hrep, hnull, hsame⟩

/-- The last node of one list is put in front of another one; between the two calls its page may be
changed. -/
theorem popback_prepend {l₂ : Lru} {bs : List Nat} (h₁ : Rep node l (as ++ [a])) (h₂ : Rep node l₂ bs)
    (hdis : (as ++ [a] ++ bs).Nodup) : ∃ node₁ l₁, l.popback node = some (some a, node₁, l₁) ∧
      (∀ c, (node₁ c).pageId = (node c).pageId ∧ (node₁ c).pageBuf = (node c).pageBuf) ∧
      ∀ node₂ : Nat → PageNode, (∀ c, (node₂ c).prev = (node₁ c).prev ∧ (node₂ c).next = (node₁ c).next) →
        Rep (l₂.prepend a node₂).1 l₁ as ∧ Rep (l₂.prepend a node₂).1 (l₂.prepend a node₂).2 (a :: bs) ∧
        ∀ c, ((l₂.prepend a node₂).1 c).pageId = (node₂ c).pageId ∧
          ((l₂.prepend a node₂).1 c).pageBuf = (node₂ c).pageBuf := by
  obtain ⟨node₁, l₁, hpop, hrep, hnull, hsame⟩ := popback_spec h₁
  obtain ⟨hleft, -, hsep⟩ := List.nodup_append.1 hdis
  have ha : a ∈ as ++ [a] := List.mem_append_right _ (List.mem_singleton_self a)
  refine ⟨node₁, l₁, hpop, fun c => ⟨hsame.pageId c, hsame.pageBuf c⟩, fun node₂ hlinks => ?_⟩
  have hbs : Rep node₂ l₂ bs := h₂.congr fun c hc => by
    rw [(hlinks c).1, (hlinks c).2, hsame.others c fun hc' => hsep c hc' c hc rfl]
    exact ⟨rfl, rfl⟩
  obtain ⟨hpre, hpages⟩ := prepend_spec hbs (fun hab => hsep a ha a hab rfl) ((hlinks a).1.trans hnull)
  refine ⟨(hrep.congr fun c _ => hlinks c).congr fun c hc => ?_, hpre, fun c => ⟨hpages.pageId c, hpages.pageBuf c⟩⟩
  have hc' : c ∉ a :: bs := by
    rintro (_ | ⟨_, hcb⟩)
    · exact (List.nodup_append.1 hleft).2.2 a hc a (List.mem_singleton_self a) rfl
    · exact hsep c (List.mem_append_left _ hc) c hcb rfl
  rw [hpages.others c hc']
  exact ⟨rfl, rfl⟩

end Lru

end Dbx1000
