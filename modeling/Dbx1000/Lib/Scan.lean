import Mathlib.Logic.Basic

/-!
# Loops over an array

`scan p f xs i acc` is the loop `for i: if p acc.1 xs[i] then acc := (f xs[i], i)`: `acc.1` is the
running value and `acc.2` the index that last improved it. `scan_best` is its meaning when the loop
stores what it compares (`f` is the compared key and "better" is a strict order): the index kept is
that of a best element. A loop that stores less than it compares (a narrower variable) forgets how
good its element was: `scan_last` says where it ends, and `scan_newest` when that is a best element after all.
`addNew` is the search that adds what it does not find. `bubbleSort` is the sort by exchanging neighbours: the
first pass puts a last element at the end (`bubble_last`), and the later ones work in front of it
(`bubble_append`).
-/

/-- The scan loop: `i` is the index of the head of the list. -/
def scan {α β : Type*} (p : β → α → Bool) (f : α → β) : List α → Nat → β × Nat → β × Nat
  | [], _, acc => acc
  | a :: as, i, acc => scan p f as (i + 1) (if p acc.1 a then (f a, i) else acc)

namespace Scan

/-- One pass of the sort: the first `n` neighbours are compared. -/
def bubble {α : Type*} (after : α → α → Bool) : Nat → List α → List α
  | n + 1, a :: b :: l => if after a b then b :: bubble after n (a :: l) else a :: bubble after n (b :: l)
  | _, l => l

def bubbleSort {α : Type*} (after : α → α → Bool) : Nat → List α → List α
  | 0, l => l
  | n + 1, l => bubbleSort after n (bubble after (n + 1) l)

/-- `a` is searched, and put at the end if it is not found. -/
def addNew {α : Type*} [DecidableEq α] (l : List α) (a : α) : List α := if a ∈ l then l else l ++ [a]

variable {α β : Type*} {p : β → α → Bool} {f : α → β}

theorem bubble_perm (after : α → α → Bool) (n : Nat) (l : List α) : (bubble after n l).Perm l := by
  fun_induction bubble after n l with
  | case1 n a b l h ih => exact (ih.cons b).trans (.swap a b l)
  | case2 n a b l h ih => exact ih.cons a
  | case3 => exact .refl _

theorem bubbleSort_perm (after : α → α → Bool) (n : Nat) (l : List α) : (bubbleSort after n l).Perm l := by
  induction n generalizing l with
  | zero => exact .refl _
  | succ n ih => exact (ih _).trans (bubble_perm after _ l)

section AddNew

variable [DecidableEq α] {l : List α} {a : α}

theorem mem_addNew {b : α} : b ∈ addNew l a ↔ b ∈ l ∨ b = a := by
  unfold addNew
  split
  · rename_i h
    exact ⟨.inl, fun hb => hb.elim id (· ▸ h)⟩
  · rw [List.mem_append, List.mem_singleton]

theorem nodup_addNew (h : l.Nodup) : (addNew l a).Nodup := by
  unfold addNew
  split
  · exact h
  · rename_i ha
    refine List.nodup_append.2 ⟨h, List.nodup_cons.2 ⟨nofun, .nil⟩, fun b hb c hc => ?_⟩
    rintro rfl
    exact ha (List.mem_singleton.1 hc ▸ hb)

theorem isPrefix_addNew : l <+: addNew l a := by
  unfold addNew
  split
  · exact List.prefix_rfl
  · exact List.prefix_append ..

/-- What is searched for in turn is collected once, behind what was there. -/
theorem foldl_addNew (as : List α) (h : l.Nodup) :
    (as.foldl addNew l).Nodup ∧ l <+: as.foldl addNew l ∧ ∀ b, b ∈ as.foldl addNew l ↔ b ∈ l ∨ b ∈ as := by
  induction as generalizing l with
  | nil => exact ⟨h, List.prefix_rfl, fun b => by simp⟩
  | cons a as ih =>
    obtain ⟨hnodup, hpre, hmem⟩ := ih (nodup_addNew (a := a) h)
    refine ⟨hnodup, isPrefix_addNew.trans hpre, fun b => ?_⟩
    rw [List.foldl_cons, hmem, mem_addNew, List.mem_cons, or_assoc]

end AddNew

section Sorted

variable {after : α → α → Bool}

/-- A pass leaves alone what is behind its last comparison. -/
theorem bubble_append {n : Nat} {l : List α} (h : n < l.length) (l' : List α) :
    bubble after n (l ++ l') = bubble after n l ++ l' := by
  induction n generalizing l with
  | zero => cases l <;> rfl
  | succ n ih =>
    obtain _ | ⟨a, _ | ⟨b, l⟩⟩ := l
    · cases h
    · exact absurd h (by simp)
    · have hlt : ∀ c : α, n < (c :: l).length := fun _ => Nat.lt_of_succ_lt_succ h
      simp only [List.cons_append, bubble]
      split
      · rw [← List.cons_append, ih (hlt a), List.cons_append]
      · rw [← List.cons_append, ih (hlt b), List.cons_append]

variable (hasymm : ∀ a b, after a b = true → after b a = false)
  (htrans : ∀ a b c, after a b = false → after b c = false → after a c = false)

include hasymm htrans in
/-- A pass over the whole array ends on a last element. -/
theorem bubble_last {n : Nat} {l : List α} (h : l.length = n + 1) :
    ∃ front m, bubble after n l = front ++ [m] ∧ ∀ a ∈ l, after a m = false := by
  induction n generalizing l with
  | zero =>
    obtain ⟨a, rfl⟩ := List.length_eq_one_iff.1 h
    refine ⟨[], a, rfl, fun b hb => ?_⟩
    rw [List.mem_singleton.1 hb, Bool.eq_false_iff]
    intro haa
    exact Bool.eq_false_iff.1 (hasymm a a haa) haa
  | succ n ih =>
    obtain _ | ⟨a, _ | ⟨b, l⟩⟩ := l
    · cases h
    · exact absurd h (by simp)
    · have hlen : ∀ c : α, (c :: l).length = n + 1 := fun _ => Nat.succ.inj h
      rw [bubble]
      split
      · rename_i hab
        obtain ⟨front, m, hbubble, hm⟩ := ih (hlen a)
        refine ⟨b :: front, m, by rw [hbubble, List.cons_append], fun c hc => ?_⟩
        rcases List.mem_cons.1 hc with rfl | hc
        · exact hm c List.mem_cons_self
        · rcases List.mem_cons.1 hc with rfl | hc
          · exact htrans _ _ _ (hasymm _ _ hab) (hm a List.mem_cons_self)
          · exact hm c (List.mem_cons_of_mem _ hc)
      · rename_i hab
        obtain ⟨front, m, hbubble, hm⟩ := ih (hlen b)
        refine ⟨a :: front, m, by rw [hbubble, List.cons_append], fun c hc => ?_⟩
        rcases List.mem_cons.1 hc with rfl | hc
        · exact htrans _ _ _ (Bool.eq_false_iff.2 hab) (hm b List.mem_cons_self)
        · exact hm c hc

include hasymm htrans in
/-- The elements behind the next pass are sorted, and none in front of them belongs behind one of them. -/
theorem bubbleSort_append {n : Nat} {l suf : List α} (h : l.length = n + 1)
    (hsuf : suf.Pairwise fun a b => after a b = false) (hle : ∀ a ∈ l, ∀ b ∈ suf, after a b = false) :
    (bubbleSort after n (l ++ suf)).Pairwise fun a b => after a b = false := by
  induction n generalizing l suf with
  | zero =>
    obtain ⟨a, rfl⟩ := List.length_eq_one_iff.1 h
    exact List.pairwise_cons.2 ⟨hle a List.mem_cons_self, hsuf⟩
  | succ n ih =>
    obtain ⟨front, m, hbubble, hm⟩ := bubble_last hasymm htrans h
    have hperm : (front ++ [m]).Perm l := hbubble ▸ bubble_perm after (n + 1) l
    have hlen : front.length = n + 1 := by
      have := hperm.length_eq
      rw [h, List.length_append, List.length_singleton] at this
      omega
    have hmem : ∀ a ∈ front, a ∈ l := fun a ha => hperm.mem_iff.1 (List.mem_append_left _ ha)
    have hml : m ∈ l := hperm.mem_iff.1 (List.mem_append_right _ List.mem_cons_self)
    rw [bubbleSort, bubble_append (by omega), hbubble, List.append_assoc, List.singleton_append]
    refine ih hlen (List.pairwise_cons.2 ⟨hle m hml, hsuf⟩) fun a ha b hb => ?_
    rcases List.mem_cons.1 hb with rfl | hb
    · exact hm a (hmem a ha)
    · exact hle a (hmem a ha) b hb

include hasymm htrans in
theorem bubbleSort_sorted (l : List α) :
    (bubbleSort after (l.length - 1) l).Pairwise fun a b => after a b = false := by
  cases l with
  | nil => exact .nil
  | cons a l =>
    have hsort : (bubbleSort after l.length ((a :: l) ++ [])).Pairwise fun a b => after a b = false :=
      bubbleSort_append hasymm htrans rfl .nil (by simp)
    rwa [List.append_nil] at hsort

end Sorted

theorem scan_append (xs ys : List α) (i : Nat) (acc : β × Nat) :
    scan p f (xs ++ ys) i acc = scan p f ys (i + xs.length) (scan p f xs i acc) := by
  induction xs generalizing i acc with
  | nil => rfl
  | cons a as ih =>
    simp only [List.cons_append, scan, ih, List.length_cons]
    congr 1; omega

/-- The loop changes nothing where no element passes the test. -/
theorem scan_skip {xs : List α} {i : Nat} {acc : β × Nat} (h : ∀ a ∈ xs, p acc.1 a = false) :
    scan p f xs i acc = acc := by
  induction xs generalizing i with
  | nil => rfl
  | cons a as ih =>
    rw [scan, h a (List.mem_cons_self ..)]
    exact ih fun b hb => h b (List.mem_cons_of_mem _ hb)

/-- The index kept is the initial one or that of an element that passed the test. -/
theorem scan_cases (xs : List α) (i : Nat) (acc : β × Nat) :
    scan p f xs i acc = acc ∨ ∃ j a b, xs[j]? = some a ∧ p b a = true ∧ scan p f xs i acc = (f a, i + j) := by
  induction xs generalizing i acc with
  | nil => exact .inl rfl
  | cons c cs ih =>
    rw [scan]
    split
    · rename_i hc
      rcases ih (i + 1) (f c, i) with h | ⟨j, a, b, hj, hp, h⟩
      · exact .inr ⟨0, c, _, rfl, hc, h⟩
      · exact .inr ⟨j + 1, a, b, by simpa using hj, hp, by rw [h]; congr 1; omega⟩
    · rcases ih (i + 1) acc with h | ⟨j, a, b, hj, hp, h⟩
      · exact .inl h
      · exact .inr ⟨j + 1, a, b, by simpa using hj, hp, by rw [h]; congr 1; omega⟩

/-- The loop that stores its key keeps an element no passing element betters. -/
theorem scan_best (q : α → Bool) (key : α → β) (better : β → β → Bool)
    (hirr : ∀ x, better x x = false)
    (htrans : ∀ x y z, better x y = true → better y z = true → better x z = true)
    (xs : List α) (i : Nat) (acc r : β × Nat)
    (hr : scan (fun b a => q a && better (key a) b) key xs i acc = r) :
    (r = acc ∨ ∃ j a, xs[j]? = some a ∧ q a = true ∧ r = (key a, i + j) ∧ better (key a) acc.1 = true) ∧
      ∀ a ∈ xs, q a = true → better (key a) r.1 = false := by
  induction xs generalizing i acc with
  | nil => exact ⟨.inl hr.symm, by simp⟩
  | cons c cs ih =>
    rw [scan] at hr
    split at hr
    · rename_i hc
      obtain ⟨hq, hb⟩ := Bool.and_eq_true_iff.1 hc
      obtain ⟨h1, h2⟩ := ih _ _ hr
      refine ⟨.inr ?_, fun a ha hqa => ?_⟩
      · rcases h1 with h1 | ⟨j, a, hj, hqa, h1, hba⟩
        · exact ⟨0, c, rfl, hq, h1, hb⟩
        · exact ⟨j + 1, a, by simpa using hj, hqa, by rw [h1]; congr 1; omega, htrans _ _ _ hba hb⟩
      · rcases List.mem_cons.1 ha with rfl | ha
        · rcases h1 with h1 | ⟨j, d, hj, -, h1, hbd⟩
          · rw [h1]; exact hirr _
          · rw [Bool.eq_false_iff]; intro h'
            rw [h1] at h'
            exact absurd (htrans _ _ _ h' hbd) (by simp [hirr])
        · exact h2 a ha hqa
    · rename_i hc
      obtain ⟨h1, h2⟩ := ih _ _ hr
      refine ⟨h1.imp_right fun ⟨j, a, hj, hqa, h1, hba⟩ =>
        ⟨j + 1, a, by simpa using hj, hqa, by rw [h1]; congr 1; omega, hba⟩, fun a ha hqa => ?_⟩
      rcases List.mem_cons.1 ha with rfl | ha
      · rw [Bool.eq_false_iff]; intro h'
        apply hc
        rcases h1 with h1 | ⟨j, d, hj, -, h1, hbd⟩
        · rw [h1] at h'; simp [hqa, h']
        · rw [h1] at h'; simp [hqa, htrans _ _ _ h' hbd]
      · exact h2 a ha hqa

/-- The loop ends on the last element that it stored, and no later one exceeds the narrowed key of that. -/
theorem scan_last (q : α → Bool) (key : α → Nat) (narrow : Nat → Nat) (xs : List α) (i : Nat) (acc : Nat × Nat) :
    scan (fun b a => q a && decide (b < key a)) (fun a => narrow (key a)) xs i acc = acc ∧
        (∀ a ∈ xs, q a = true → key a ≤ acc.1) ∨
      ∃ j a, xs[j]? = some a ∧ q a = true ∧
        scan (fun b a => q a && decide (b < key a)) (fun a => narrow (key a)) xs i acc = (narrow (key a), i + j) ∧
        ∀ k c, j < k → xs[k]? = some c → q c = true → key c ≤ narrow (key a) := by
  induction xs generalizing i acc with
  | nil => exact .inl ⟨rfl, nofun⟩
  | cons a as ih =>
    rw [scan]
    split
    · rename_i hpass
      have hq := (Bool.and_eq_true_iff.1 hpass).1
      rcases ih (i + 1) (narrow (key a), i) with ⟨hend, hle⟩ | ⟨j, c, hj, hc, hend, hle⟩
      · refine .inr ⟨0, a, rfl, hq, hend, fun k c hk hkc => ?_⟩
        obtain ⟨k, rfl⟩ := Nat.exists_eq_succ_of_ne_zero (Nat.ne_of_gt hk)
        exact hle c (List.mem_of_getElem? hkc)
      · refine .inr ⟨j + 1, c, hj, hc, by rw [hend, Nat.add_assoc, Nat.add_comm 1], fun k d hk hkd => ?_⟩
        obtain ⟨k, rfl⟩ := Nat.exists_eq_succ_of_ne_zero (show k ≠ 0 by omega)
        exact hle k d (Nat.lt_of_succ_lt_succ hk) hkd
    · rename_i hpass
      have ha : q a = true → key a ≤ acc.1 := by
        intro hq
        simpa [hq] using hpass
      rcases ih (i + 1) acc with ⟨hend, hle⟩ | ⟨j, c, hj, hc, hend, hle⟩
      · exact .inl ⟨hend, List.forall_mem_cons.2 ⟨ha, hle⟩⟩
      · refine .inr ⟨j + 1, c, hj, hc, by rw [hend, Nat.add_assoc, Nat.add_comm 1], fun k d hk hkd => ?_⟩
        obtain ⟨k, rfl⟩ := Nat.exists_eq_succ_of_ne_zero (show k ≠ 0 by omega)
        exact hle k d (Nat.lt_of_succ_lt_succ hk) hkd

/-- A loop that stores a narrowed key ends on an element with the largest key, when behind one of them no key exceeds
the *narrowed* largest one. -/
theorem scan_newest (q : α → Bool) (key : α → Nat) {narrow : Nat → Nat} (hn : ∀ x, narrow x ≤ x) {xs : List α}
    {j n : Nat} {a : α} (hj : xs[j]? = some a) (hq : q a = true) (hpos : 0 < key a)
    (hmax : ∀ c ∈ xs, q c = true → key c ≤ key a)
    (hpost : ∀ i c, xs[i]? = some c → j < i → q c = true → key c ≤ narrow (key a)) :
    ∃ c, xs[(scan (fun b a => q a && decide (b < key a)) (fun a => narrow (key a)) xs 0 (0, n)).2]? = some c ∧
      q c = true ∧ key c = key a := by
  obtain ⟨hlt, -⟩ := List.getElem?_eq_some_iff.1 hj
  have hin : (xs.take (j + 1))[j]? = some a := by rw [List.getElem?_take_of_lt (Nat.lt_succ_self j), hj]
  -- the first `j + 1` elements: an element with the largest key is stored, and nothing that exceeds it
  rcases scan_last q key narrow (xs.take (j + 1)) 0 (0, n) with ⟨-, hle⟩ | ⟨k, c, hk, hc, hend, hle⟩
  · exact absurd (hle a (List.mem_of_getElem? hin) hq) (by omega)
  · have hkj : k ≤ j := by
      have := (List.getElem?_eq_some_iff.1 hk).1
      rw [List.length_take] at this
      omega
    rw [List.getElem?_take_of_lt (Nat.lt_succ_of_le hkj)] at hk
    have hkey : key c = key a := by
      rcases Nat.lt_or_eq_of_le hkj with hlt | rfl
      · have hac := hle j a hlt hin hq
        have hnarrow := hn (key c)
        have hca := hmax c (List.mem_of_getElem? hk) hc
        omega
      · cases hk.symm.trans hj
        rfl
    have hscan : scan (fun b a => q a && decide (b < key a)) (fun a => narrow (key a)) xs 0 (0, n) =
        (narrow (key c), 0 + k) := by
      conv => lhs; rw [← List.take_append_drop (j + 1) xs]
      rw [scan_append, hend]
      refine scan_skip fun d hd => ?_
      obtain ⟨i, hi⟩ := List.mem_iff_getElem?.1 hd
      rw [List.getElem?_drop] at hi
      rw [Bool.and_eq_false_imp]
      intro hqd
      have := hpost _ d hi (by omega) hqd
      exact decide_eq_false (by rw [hkey]; omega)
    rw [hscan, Nat.zero_add]
    exact ⟨c, hk, hc, hkey⟩

end Scan
