import Mathlib.Data.List.Chain
import Mathlib.Logic.Function.Basic

/-!
# Doubly linked lists

`DList prev next head tail l`: in the memory given by the fields `prev` and `next`, the list that
starts at `head` and ends at `tail` consists of the nodes `l`. The changes of a memory are given by
their values at every node, so that a record of nodes with more fields can use the lemmas as well.
-/

variable {ι : Type*} {prev next prev' next' : ι → Option ι} {head tail : Option ι} {l : List ι}
  {a b : ι}

structure DList (prev next : ι → Option ι) (head tail : Option ι) (l : List ι) : Prop where
  nodup : l.Nodup
  chain : l.IsChain fun a b => next a = some b ∧ prev b = some a
  head_eq : head = l.head?
  tail_eq : tail = l.getLast?
  first : ∀ a, head = some a → prev a = none
  last : ∀ a, tail = some a → next a = none

/-- The first `n` nodes met from `head` on. -/
def walk (next : ι → Option ι) : Option ι → Nat → List ι
  | some a, n + 1 => a :: walk next (next a) n
  | _, _ => []

namespace DList

theorem nil : DList prev next none none ([] : List ι) :=
  ⟨List.nodup_nil, .nil, rfl, rfl, nofun, nofun⟩

theorem walk_eq (h : DList prev next head tail l) : walk next head l.length = l := by
  have hwalk : ∀ {l : List ι}, (l.IsChain fun a b => next a = some b ∧ prev b = some a) →
      walk next l.head? l.length = l := by
    intro l
    induction l with
    | nil => exact fun _ => rfl
    | cons a l ih =>
      intro hc
      show a :: walk next (next a) l.length = a :: l
      cases l with
      | nil => cases next a <;> rfl
      | cons b l =>
        rw [List.isChain_cons_cons] at hc
        rw [hc.1.1]
        exact congrArg _ (ih hc.2)
  rw [h.head_eq]
  exact hwalk h.chain

/-- Only the fields of its own nodes matter. -/
theorem congr (h : DList prev next head tail l) (hp : ∀ a ∈ l, prev' a = prev a) (hn : ∀ a ∈ l, next' a = next a) :
    DList prev' next' head tail l := by
  refine ⟨h.nodup, ?_, h.head_eq, h.tail_eq, fun a ha => ?_, fun a ha => ?_⟩
  · refine h.chain.imp_of_mem_imp fun a b ha hb hab => ?_
    rw [hp b hb, hn a ha]
    exact hab
  · rw [hp a (List.mem_of_mem_head? (h.head_eq ▸ ha))]
    exact h.first a ha
  · rw [hn a (List.mem_of_mem_getLast? (h.tail_eq ▸ ha))]
    exact h.last a ha

theorem head_none_iff (h : DList prev next head tail l) : head = none ↔ l = [] := by
  rw [h.head_eq, List.head?_eq_none_iff]

/-- The list read from its other end. -/
theorem reverse (h : DList prev next head tail l) : DList next prev tail head l.reverse := by
  refine ⟨(List.reverse_perm l).nodup_iff.2 h.nodup, ?_, ?_, ?_, h.last, h.first⟩
  · refine List.isChain_reverse.2 (h.chain.imp fun a b hab => ?_)
    exact ⟨hab.2, hab.1⟩
  · rw [h.tail_eq, List.head?_reverse]
  · rw [h.head_eq, List.getLast?_reverse]

/-- The `next` field of any node. -/
theorem next_eq {l' : List ι} (h : DList prev next head tail (l ++ a :: l')) : next a = l'.head? := by
  cases l' with
  | nil => exact h.last a (by rw [h.tail_eq, List.getLast?_concat])
  | cons b l' => exact (List.isChain_cons_cons.1 (List.isChain_append.1 h.chain).2.1).1.1

/-- The last node and the `prev` field it has. -/
theorem prev_last (h : DList prev next head tail (l ++ [a])) : tail = some a ∧ prev a = l.getLast? := by
  have hrev : DList next prev tail head ([] ++ a :: l.reverse) := List.reverse_concat ▸ h.reverse
  refine ⟨hrev.head_eq, ?_⟩
  rw [hrev.next_eq, List.head?_reverse]

/-- Two ways along `next` from one node to an end are the same. -/
theorem path_unique {l₁ l₂ : List ι} (h₁ : l₁.IsChain fun a b => next a = some b)
    (h₂ : l₂.IsChain fun a b => next a = some b) (hend₁ : ∀ a ∈ l₁.getLast?, next a = none)
    (hend₂ : ∀ a ∈ l₂.getLast?, next a = none) (hhead : l₁.head? = l₂.head?) : l₁ = l₂ := by
  have hnext : ∀ {a : ι} {l : List ι}, ((a :: l).IsChain fun a b => next a = some b) →
      (∀ b ∈ (a :: l).getLast?, next b = none) → next a = l.head? := by
    intro a l h hend
    cases l with
    | nil => exact hend a rfl
    | cons b l => exact (List.isChain_cons_cons.1 h).1
  induction l₁ generalizing l₂ with
  | nil => exact (List.head?_eq_none_iff.1 hhead.symm).symm
  | cons a l₁ ih =>
    cases l₂ with
    | nil => cases hhead
    | cons b l₂ =>
      cases hhead
      refine congrArg _ (ih h₁.tail h₂.tail (fun c hc => ?_) (fun c hc => ?_) ?_)
      · exact hend₁ c (List.mem_getLast?_cons hc)
      · exact hend₂ c (List.mem_getLast?_cons hc)
      · rw [← hnext h₁ hend₁, hnext h₂ hend₂]

/-- A way along `next` to an end meets no node twice. -/
theorem nodup_path (h : l.IsChain fun a b => next a = some b) (hend : ∀ a ∈ l.getLast?, next a = none) :
    l.Nodup := by
  induction l with
  | nil => exact List.nodup_nil
  | cons a l ih =>
    refine List.nodup_cons.2 ⟨fun ha => ?_, ih h.tail fun b hb => hend b (List.mem_getLast?_cons hb)⟩
    -- the rest of the way from the second visit is the whole way again
    obtain ⟨pre, suf, rfl⟩ := List.append_of_mem ha
    have hsuf : (a :: suf).IsChain fun a b => next a = some b := (List.isChain_append.1 h.tail).2.1
    have hsame : a :: suf = a :: (pre ++ a :: suf) := by
      refine path_unique hsuf h (fun b hb => hend b ?_) hend rfl
      rw [List.getLast?_cons, List.getLast?_append, hb]
      rfl
    have hlen := congrArg List.length hsame
    simp only [List.length_cons, List.length_append] at hlen
    omega

variable [DecidableEq ι]

/-- A node whose `prev` is null is put in front. -/
theorem pushFront (h : DList prev next head tail l) (ha : a ∉ l) (hnull : prev a = none)
    (hp : ∀ c, prev' c = if head = some c then some a else prev c)
    (hn : ∀ c, next' c = if c = a then head else next c) :
    DList prev' next' (some a) (if head = none then some a else tail) (a :: l) := by
  have hhead : head ≠ some a := fun h' => ha (List.mem_of_mem_head? (h.head_eq ▸ h'))
  have hne : ∀ c ∈ l, c ≠ a := fun c hc h' => ha (h' ▸ hc)
  refine ⟨List.nodup_cons.2 ⟨ha, h.nodup⟩, ?_, rfl, ?_, ?_, ?_⟩
  · cases l with
    | nil => exact .singleton a
    | cons b l =>
      have hb : head = some b := h.head_eq
      refine List.isChain_cons_cons.2 ⟨⟨by rw [hn, if_pos rfl, hb], by rw [hp, if_pos hb]⟩, ?_⟩
      refine h.chain.imp_of_mem_tail_imp fun c d hc hd hcd => ?_
      have hd' : d ≠ b := fun h' => (List.nodup_cons.1 h.nodup).1 (h' ▸ hd)
      rw [hn, if_neg (hne c hc), hp, if_neg fun h' => hd' (Option.some.inj (h'.symm.trans hb))]
      exact hcd
  · cases l with
    | nil => rw [if_pos (h.head_none_iff.2 rfl)]; rfl
    | cons b l => rw [if_neg (by rw [h.head_eq]; exact nofun), h.tail_eq, List.getLast?_cons_cons]
  · intro c hc
    cases hc
    rw [hp, if_neg hhead, hnull]
  · intro c hc
    split at hc
    · rename_i h0
      cases hc
      rw [hn, if_pos rfl, h0]
    · have hcl : c ∈ l := List.mem_of_mem_getLast? (h.tail_eq ▸ hc)
      rw [hn, if_neg (hne c hcl)]
      exact h.last c hc

/-- The last node is taken off a list of at least two. -/
theorem popBack (h : DList prev next head tail (l ++ [b] ++ [a]))
    (hp : ∀ c, prev' c = if c = a then none else prev c) (hn : ∀ c, next' c = if c = b then none else next c) :
    DList prev' next' head (some b) (l ++ [b]) := by
  have hdis := List.nodup_append.1 h.nodup
  have hb : ∀ c ∈ l, c ≠ b := fun c hc => (List.nodup_append.1 hdis.1).2.2 c hc b (List.mem_singleton_self b)
  have hchain := List.isChain_append.1 (List.isChain_append.1 h.chain).1
  have hkeep : ∀ c ∈ l, ∀ d ∈ l ++ [b], next c = some d ∧ prev d = some c → next' c = some d ∧ prev' d = some c := by
    intro c hc d hd hcd
    rw [hn, if_neg (hb c hc), hp, if_neg (hdis.2.2 d hd a (List.mem_singleton_self a))]
    exact hcd
  refine ⟨hdis.1, ?_, ?_, by rw [List.getLast?_concat], fun c hc => ?_, fun c hc => ?_⟩
  · refine List.isChain_append.2 ⟨?_, .singleton b, fun c hc d hd => ?_⟩
    · exact hchain.1.imp_of_mem_imp fun c d hc hd => hkeep c hc d (List.mem_append_left _ hd)
    · exact hkeep c (List.mem_of_mem_getLast? hc) d (List.mem_append_right _ (List.mem_of_mem_head? hd))
        (hchain.2.2 c hc d hd)
  · rw [h.head_eq, List.head?_append_of_ne_nil]
    exact List.append_ne_nil_of_right_ne_nil _ (List.cons_ne_nil _ _)
  · rw [hp, h.first c hc, ite_self]
  · cases hc
    rw [hn, if_pos rfl]

end DList
