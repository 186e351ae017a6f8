import Mathlib.Data.List.Perm.Subperm
import Dbx1000.Lib.Loop
import Dbx1000.Lib.Scan

/-!
# The items of a new order (`tpcc_query::gen_new_order`, `wh_to_part`)

`gen_new_order` draws `ol_cnt` items and removes every item whose `ol_i_id` was drawn before. The removal works in
place: the items behind the duplicate move up, and the bound and the index of the outer loop both go down inside
the inner loop, which then goes on with the item before. The array is read as `kept ++ rest ++ junk`, where
`kept` are the items that were gone over and `rest` those to come; a turn of the outer loop moves the first item
of `rest` to `kept` or drops it. A read outside an array, a write behind the end of `part_to_access` and a
number below zero are errors (`failed`). The 32-bit counters are numbers here.
-/

namespace Dbx1000

structure ItemNo where
  olIId : Nat
  olSupplyWId : Nat
  olQuantity : Nat
deriving DecidableEq, Repr

def whToPart (gPartCnt gNumWh wid : Nat) : Run Nat := do
  Run.assert (gPartCnt ≤ gNumWh)
  -- there is no remainder by zero
  Run.assert (gPartCnt ≠ 0)
  return wid % gPartCnt

/-! ### The removal of duplicates -/

/-- `items`, `ol_cnt` and the index of the outer loop. -/
structure Removal where
  items : List ItemNo
  olCnt : Nat
  i : Nat
deriving DecidableEq, Repr

/-- `for (k = i; k < last; k++) items[k] = items[k + 1]` -/
def moveUp (items : List ItemNo) (i last : Nat) : Run (List ItemNo) :=
  (List.range' i (last - i)).foldlM (fun items k => do
    let a ← Run.get items (k + 1)
    return items.set k a) items

namespace Removal

/-- `for (j = 0; j < i; j++)`, where the body may change `i`. -/
def inner (s : Removal × Nat) : Run ((Removal × Nat) ⊕ Removal) :=
  let (r, j) := s
  if j < r.i then do
    let a ← Run.get r.items r.i
    let b ← Run.get r.items j
    if a.olIId = b.olIId then do
      Run.assert (0 < r.olCnt ∧ 0 < r.i)
      let items ← moveUp r.items r.i (r.olCnt - 1)
      return .inl (⟨items, r.olCnt - 1, r.i - 1⟩, j + 1)
    else return .inl (r, j + 1)
  else return .inr r

/-- `for (i = 0; i < ol_cnt; i++)` -/
def outer (n : Nat) (r : Removal) : Run (Removal ⊕ Removal) :=
  if r.i < r.olCnt then do
    let r ← Run.loop inner n (r, 0)
    return .inl { r with i := r.i + 1 }
  else return .inr r

end Removal

def removeDuplicates (items : List ItemNo) (n : Nat) : Run Removal :=
  Run.loop (Removal.outer n) n ⟨items, items.length, 0⟩

/-! ### `gen_new_order` -/

/-- The assertion on every pair of items. -/
def checkDistinct (items : List ItemNo) (olCnt : Nat) : Run PUnit :=
  (List.range olCnt).forM fun i => (List.range i).forM fun j => do
    let a ← Run.get items i
    let b ← Run.get items j
    Run.assert (a.olIId ≠ b.olIId)

/-- The partition of an item is searched, and written to `part_to_access[part_num++]` if it is not found. The array
has `g_part_cnt` entries. -/
def accessPart (gPartCnt gNumWh : Nat) (parts : List Nat) (item : ItemNo) : Run (List Nat) := do
  let part ← whToPart gPartCnt gNumWh item.olSupplyWId
  Run.assert (part ∈ parts ∨ parts.length < gPartCnt)
  return Scan.addNew parts part

structure NewOrder where
  items : List ItemNo
  olCnt : Nat
  partToAccess : List Nat
deriving DecidableEq, Repr

/-- `gen_new_order`, from the warehouse and the items that are drawn. -/
def genNewOrder (gPartCnt gNumWh wId : Nat) (items : List ItemNo) (n : Nat) : Run NewOrder := do
  let part ← whToPart gPartCnt gNumWh wId
  let r ← removeDuplicates items n
  checkDistinct r.items r.olCnt
  let parts ← (List.range r.olCnt).foldlM (fun parts i => do
    let item ← Run.get r.items i
    accessPart gPartCnt gNumWh parts item) [part]
  return ⟨r.items, r.olCnt, parts⟩

/-! ### What is kept -/

/-- The items whose `ol_i_id` is not in `seen` and did not occur earlier, in their order. -/
def keepNew (seen : List Nat) : List ItemNo → List ItemNo
  | [] => []
  | a :: l => if a.olIId ∈ seen then keepNew seen l else a :: keepNew (a.olIId :: seen) l

theorem keepNew_nodup (seen : List Nat) (l : List ItemNo) :
    ((keepNew seen l).map ItemNo.olIId).Nodup ∧ ∀ a ∈ keepNew seen l, a.olIId ∉ seen := by
  induction l generalizing seen with
  | nil => exact ⟨.nil, nofun⟩
  | cons a l ih =>
    rw [keepNew]
    split
    · exact ih seen
    · rename_i ha
      obtain ⟨hnodup, hseen⟩ := ih (a.olIId :: seen)
      constructor
      · refine List.nodup_cons.2 ⟨fun hmem => ?_, hnodup⟩
        obtain ⟨b, hb, hab⟩ := List.mem_map.1 hmem
        exact hseen b hb (hab ▸ List.mem_cons_self)
      · intro b hb
        rcases List.mem_cons.1 hb with rfl | hb
        · exact ha
        · exact fun h => hseen b hb (List.mem_cons_of_mem _ h)

/-! ### The loops -/

/-- The items `kept` were gone over, the items `rest` are to come. -/
def Removal.reading (kept rest junk : List ItemNo) : Removal :=
  ⟨kept ++ rest ++ junk, kept.length + rest.length, kept.length⟩

section Loops

variable {kept rest junk : List ItemNo} {a : ItemNo} {n : Nat}

theorem Removal.reading_next :
    { reading kept (a :: rest) junk with i := kept.length + 1 } = reading (kept ++ [a]) rest junk := by
  simp only [reading, List.length_append, List.length_cons, List.length_nil, List.append_assoc, List.cons_append,
    List.nil_append, Nat.add_assoc, Nat.add_comm 1]

/-- The items behind `a` move up; the last one is there twice. -/
theorem moveUp_eq (kept : List ItemNo) (a : ItemNo) (rest junk : List ItemNo) :
    ∃ b, moveUp (kept ++ a :: rest ++ junk) kept.length (kept.length + rest.length) =
      .done (kept ++ rest ++ b :: junk) := by
  unfold moveUp
  rw [Nat.add_sub_cancel_left]
  induction rest generalizing kept a with
  | nil => exact ⟨a, by simp⟩
  | cons c rest ih =>
    have hget : Run.get (kept ++ a :: c :: rest ++ junk) (kept.length + 1) = .done c := Run.get_of (by
      simp)
    have hset : (kept ++ a :: c :: rest ++ junk).set kept.length c = (kept ++ [c]) ++ c :: rest ++ junk := by
      simp
    obtain ⟨b, hb⟩ := ih (kept ++ [c]) c
    refine ⟨b, ?_⟩
    rw [List.length_append, List.length_singleton] at hb
    rw [List.length_cons, List.range'_succ, List.foldlM_cons, hget, Run.done_bind, hset]
    rw [Run.pure_eq, Run.done_bind, hb, List.append_assoc kept, List.singleton_append]

/-- The items between `j` and `j + d` are compared, and none is equal. -/
theorem loop_inner_skip {r : Removal} {j d : Nat} (hi : r.items[r.i]? = some a) (hlt : j + d ≤ r.i)
    (hne : ∀ k, j ≤ k → k < j + d → ∃ b, r.items[k]? = some b ∧ a.olIId ≠ b.olIId) :
    Run.loop Removal.inner (n + d) (r, j) = Run.loop Removal.inner n (r, j + d) := by
  induction d generalizing j with
  | zero => rfl
  | succ d ih =>
    obtain ⟨b, hb, hab⟩ := hne j (Nat.le_refl _) (by omega)
    have hturn : Removal.inner (r, j) = .done (.inl (r, j + 1)) := by
      simp only [Removal.inner, if_pos (show j < r.i by omega), Run.get_of hi, Run.get_of hb, Run.done_bind, if_neg hab]
      rfl
    rw [← Nat.add_assoc n, Run.loop_next hturn, ih (by omega) fun k hk hk' => hne k (by omega) (by omega)]
    congr 2
    omega

/-- No item from `j` on is equal to the one at `i`. -/
theorem loop_inner_done {r : Removal} {j : Nat} (hi : r.items[r.i]? = some a)
    (hne : ∀ k, j ≤ k → k < r.i → ∃ b, r.items[k]? = some b ∧ a.olIId ≠ b.olIId) (hn : r.i - j < n) :
    Run.loop Removal.inner n (r, j) = .done r := by
  obtain ⟨m, rfl⟩ : ∃ m, n = m + 1 + (r.i - j) := ⟨n - 1 - (r.i - j), by omega⟩
  rcases Nat.lt_or_ge j r.i with hlt | hge
  · rw [loop_inner_skip hi (by omega) fun k hk hk' => hne k hk (by omega)]
    exact Run.loop_exit (if_neg (by omega))
  · rw [Nat.sub_eq_zero_of_le hge]
    exact Run.loop_exit (if_neg (Nat.not_lt.2 hge))

theorem getElem?_kept {k : Nat} (hk : k < kept.length) : (kept ++ rest ++ junk)[k]? = some kept[k] := by
  rw [List.append_assoc, List.getElem?_append_left hk, List.getElem?_eq_getElem hk]

theorem olIId_ne (hkept : (kept.map ItemNo.olIId).Nodup) {k l : Nat} (hk : k < kept.length) (hl : l < kept.length)
    (hne : k ≠ l) : kept[k].olIId ≠ kept[l].olIId := by
  intro h
  refine hne ((List.getElem?_inj (by simpa using hk) hkept).1 ?_)
  rw [List.getElem?_map, List.getElem?_map, List.getElem?_eq_getElem hk, List.getElem?_eq_getElem hl, Option.map_some,
    Option.map_some, h]

/-- An item that is new stays where it is. -/
theorem loop_inner_new (hnew : ∀ b ∈ kept, a.olIId ≠ b.olIId) (hn : kept.length < n) :
    Run.loop Removal.inner n (.reading kept (a :: rest) junk, 0) = .done (.reading kept (a :: rest) junk) :=
  loop_inner_done (r := .reading kept (a :: rest) junk) (a := a) (by simp [Removal.reading])
    (fun _ _ hk => ⟨_, getElem?_kept hk, hnew _ (List.getElem_mem hk)⟩) hn

/-- An item that was kept before is removed; the comparisons that follow are made with the item before it, which
is no duplicate. -/
theorem loop_inner_seen (rest junk : List ItemNo) (hkept : (kept.map ItemNo.olIId).Nodup) {j : Nat}
    (hj : j < kept.length) (hseen : a.olIId = kept[j].olIId) : ∃ b, ∀ n, kept.length < n →
      Run.loop Removal.inner n (.reading kept (a :: rest) junk, 0) =
        .done { Removal.reading kept rest (b :: junk) with i := kept.length - 1 } := by
  obtain ⟨b, hmove⟩ := moveUp_eq kept a rest junk
  refine ⟨b, fun n hn => ?_⟩
  have hi : (kept ++ a :: rest ++ junk)[kept.length]? = some a := by simp
  have hturn : Removal.inner (.reading kept (a :: rest) junk, 0 + j) =
      .done (.inl ({ Removal.reading kept rest (b :: junk) with i := kept.length - 1 }, j + 1)) := by
    have hlast : kept.length + (a :: rest).length - 1 = kept.length + rest.length := rfl
    have hpos : 0 < kept.length + (a :: rest).length ∧ 0 < kept.length := by omega
    rw [Nat.zero_add, Removal.reading, Removal.reading]
    simp only [Removal.inner, if_pos hj, Run.get_of hi, Run.get_of (getElem?_kept hj), Run.done_bind, if_pos hseen,
      Run.assert_of hpos, hlast, hmove]
    rfl
  have hskip : ∀ k, 0 ≤ k → k < 0 + j → ∃ b, (kept ++ a :: rest ++ junk)[k]? = some b ∧ a.olIId ≠ b.olIId := by
    intro k _ hk
    refine ⟨_, getElem?_kept (show k < kept.length by omega), ?_⟩
    rw [hseen]
    exact olIId_ne hkept hj (by omega) (by omega)
  have hbefore : kept.length - 1 < kept.length := by omega
  obtain ⟨m, rfl⟩ : ∃ m, n = m + 1 + j := ⟨n - 1 - j, by omega⟩
  rw [loop_inner_skip (r := .reading kept (a :: rest) junk) hi (show 0 + j ≤ kept.length by omega) hskip,
    Run.loop_next hturn]
  refine loop_inner_done (getElem?_kept hbefore) (fun k _ hk => ?_) (show kept.length - 1 - (j + 1) < m by omega)
  exact ⟨_, getElem?_kept (Nat.lt_trans hk hbefore), olIId_ne hkept hbefore _ (Nat.ne_of_gt hk)⟩

theorem outer_new (hnew : ∀ b ∈ kept, a.olIId ≠ b.olIId) (hn : kept.length < n) :
    Removal.outer n (.reading kept (a :: rest) junk) = .done (.inl (.reading (kept ++ [a]) rest junk)) := by
  have hlt : kept.length < kept.length + (a :: rest).length := by simp
  refine (if_pos hlt).trans ?_
  rw [loop_inner_new hnew hn, ← Removal.reading_next]
  rfl

theorem outer_seen (rest junk : List ItemNo) (hkept : (kept.map ItemNo.olIId).Nodup)
    (hseen : a.olIId ∈ kept.map ItemNo.olIId) : ∃ b, ∀ n, kept.length < n →
      Removal.outer n (.reading kept (a :: rest) junk) = .done (.inl (.reading kept rest (b :: junk))) := by
  obtain ⟨j, hj, hja⟩ := List.mem_iff_getElem.1 hseen
  rw [List.length_map] at hj
  rw [List.getElem_map] at hja
  obtain ⟨b, hinner⟩ := loop_inner_seen rest junk hkept hj hja.symm
  have hlt : kept.length < kept.length + (a :: rest).length := by simp
  have hpos : 1 ≤ kept.length := by omega
  refine ⟨b, fun n hn => (if_pos hlt).trans ?_⟩
  rw [hinner n hn, Run.done_bind]
  simp only [Nat.sub_add_cancel hpos]
  rfl

/-- The loop keeps of `rest` what is new. -/
theorem loop_outer (rest junk : List ItemNo) {seen : List Nat} (hkept : (kept.map ItemNo.olIId).Nodup)
    (hseen : ∀ x, x ∈ seen ↔ x ∈ kept.map ItemNo.olIId) :
    ∃ junk', ∀ m n, rest.length < m → kept.length + rest.length ≤ n →
      Run.loop (Removal.outer n) m (.reading kept rest junk) =
        .done (.reading (kept ++ keepNew seen rest) [] junk') := by
  induction rest generalizing kept junk seen with
  | nil =>
    refine ⟨junk, fun m n hm _ => ?_⟩
    obtain ⟨m, rfl⟩ := Nat.exists_eq_add_of_lt hm
    rw [keepNew, List.append_nil]
    exact Run.loop_exit (if_neg (Nat.lt_irrefl _))
  | cons a rest ih =>
    rw [keepNew]
    split
    · rename_i ha
      obtain ⟨b, hturn⟩ := outer_seen rest junk hkept ((hseen _).1 ha)
      obtain ⟨junk', hrest⟩ := ih (b :: junk) hkept hseen
      refine ⟨junk', fun m n hm hn => ?_⟩
      rw [List.length_cons] at hm hn
      obtain ⟨m, rfl⟩ : ∃ k, m = k + 1 := Nat.exists_eq_succ_of_ne_zero (by omega)
      rw [Run.loop_next (hturn n (by omega)), hrest m n (by omega) (by omega)]
    · rename_i ha
      have hmem : a.olIId ∉ kept.map ItemNo.olIId := fun h => ha ((hseen _).2 h)
      have hnew : ∀ b ∈ kept, a.olIId ≠ b.olIId := fun b hb hab => hmem (hab ▸ List.mem_map_of_mem hb)
      have hkept' : ((kept ++ [a]).map ItemNo.olIId).Nodup := by
        rw [List.map_append, List.map_singleton]
        refine List.nodup_append.2 ⟨hkept, List.nodup_cons.2 ⟨nofun, .nil⟩, fun x hx y hy => ?_⟩
        rintro rfl
        exact hmem (List.mem_singleton.1 hy ▸ hx)
      have hseen' : ∀ x, x ∈ a.olIId :: seen ↔ x ∈ (kept ++ [a]).map ItemNo.olIId := by
        intro x
        rw [List.mem_cons, hseen, List.map_append, List.mem_append, List.map_singleton, List.mem_singleton, or_comm]
      obtain ⟨junk', hrest⟩ := ih junk hkept' hseen'
      rw [List.append_assoc, List.singleton_append, List.length_append, List.length_singleton] at hrest
      refine ⟨junk', fun m n hm hn => ?_⟩
      rw [List.length_cons] at hm hn
      obtain ⟨m, rfl⟩ : ∃ k, m = k + 1 := Nat.exists_eq_succ_of_ne_zero (by omega)
      rw [Run.loop_next (outer_new hnew (by omega)), hrest m n (by omega) (by omega)]

theorem removeDuplicates_eq (items : List ItemNo) :
    ∃ junk, ∀ n, items.length < n → removeDuplicates items n = .done (.reading (keepNew [] items) [] junk) := by
  have hnil : (([] : List ItemNo).map ItemNo.olIId).Nodup := .nil
  have hseen : ∀ x, x ∈ ([] : List Nat) ↔ x ∈ ([] : List ItemNo).map ItemNo.olIId := fun _ => .rfl
  obtain ⟨junk, h⟩ := loop_outer items [] hnil hseen
  refine ⟨junk, fun n hn => ?_⟩
  rw [List.nil_append, List.length_nil, Nat.zero_add] at h
  have hstart : Removal.reading [] items [] = ⟨items, items.length, 0⟩ := by simp [Removal.reading]
  rw [removeDuplicates, ← hstart, h n n hn (Nat.le_of_lt hn)]

end Loops

/-! ### The partitions -/

section Parts

variable {gPartCnt gNumWh : Nat}

theorem whToPart_eq_done {wid part : Nat} :
    whToPart gPartCnt gNumWh wid = .done part ↔ (gPartCnt ≤ gNumWh ∧ gPartCnt ≠ 0) ∧ wid % gPartCnt = part := by
  unfold whToPart Run.assert
  by_cases hle : gPartCnt ≤ gNumWh <;> by_cases hzero : gPartCnt = 0 <;> simp [hle, hzero]

/-- Different numbers below `p` are at most `p`. -/
theorem length_le_of_forall_lt {l : List Nat} {p : Nat} (hnodup : l.Nodup) (hlt : ∀ x ∈ l, x < p) : l.length ≤ p := by
  have hsub := List.subperm_of_subset hnodup fun x hx => List.mem_range.2 (hlt x hx)
  have hle := hsub.length_le
  rwa [List.length_range] at hle

theorem foldlM_accessPart (hle : gPartCnt ≤ gNumWh) (hzero : gPartCnt ≠ 0) (items : List ItemNo) {parts : List Nat}
    (hnodup : parts.Nodup) (hlt : ∀ x ∈ parts, x < gPartCnt) :
    items.foldlM (accessPart gPartCnt gNumWh) parts =
      .done ((items.map fun item => item.olSupplyWId % gPartCnt).foldl Scan.addNew parts) := by
  induction items generalizing parts with
  | nil => rfl
  | cons item items ih =>
    have hmod : item.olSupplyWId % gPartCnt < gPartCnt := Nat.mod_lt _ (Nat.pos_of_ne_zero hzero)
    have hroom : item.olSupplyWId % gPartCnt ∈ parts ∨ parts.length < gPartCnt := by
      refine or_iff_not_imp_left.2 fun hnew => ?_
      refine length_le_of_forall_lt (List.nodup_cons.2 ⟨hnew, hnodup⟩) fun x hx => ?_
      rcases List.mem_cons.1 hx with rfl | hx
      · exact hmod
      · exact hlt x hx
    have hitem : accessPart gPartCnt gNumWh parts item = .done (Scan.addNew parts (item.olSupplyWId % gPartCnt)) := by
      rw [accessPart, whToPart_eq_done.2 ⟨⟨hle, hzero⟩, rfl⟩, Run.done_bind, Run.assert_of hroom]
      rfl
    rw [List.foldlM_cons, hitem, Run.done_bind, List.map_cons, List.foldl_cons]
    refine ih (Scan.nodup_addNew hnodup) fun x hx => ?_
    rcases Scan.mem_addNew.1 hx with hx | rfl
    · exact hlt x hx
    · exact hmod

end Parts

theorem checkDistinct_eq {kept : List ItemNo} (hkept : (kept.map ItemNo.olIId).Nodup) (junk : List ItemNo) :
    checkDistinct (kept ++ junk) kept.length = .done ⟨⟩ := by
  refine Run.forM_done fun i hi => Run.forM_done fun j hj => ?_
  have hi : i < kept.length := List.mem_range.1 hi
  have hj : j < i := List.mem_range.1 hj
  have hget : ∀ k (h : k < kept.length), Run.get (kept ++ junk) k = .done kept[k] := by
    intro k h
    refine Run.get_of ?_
    rw [List.getElem?_append_left h, List.getElem?_eq_getElem h]
  rw [hget i hi, hget j (by omega)]
  exact Run.assert_of (olIId_ne hkept hi (by omega) (by omega))

/-- The removal loop ends with the items that are new, and `part_to_access` has the partition of every warehouse
once. -/
theorem genNewOrder_items (gPartCnt gNumWh wId : Nat) (items : List ItemNo) :
    (∃ r, Run.Returns (removeDuplicates items) r ∧
      r.items.take r.olCnt = keepNew [] items ∧ r.olCnt = (keepNew [] items).length) ∧
    ∀ part, whToPart gPartCnt gNumWh wId = .done part →
      ∃ q, Run.Returns (genNewOrder gPartCnt gNumWh wId items) q ∧
        q.items.take q.olCnt = keepNew [] items ∧ q.olCnt = (keepNew [] items).length ∧
        q.partToAccess.Nodup ∧ q.partToAccess.head? = some part ∧
        (∀ x, x ∈ q.partToAccess ↔
          x = part ∨ ∃ item ∈ keepNew [] items, whToPart gPartCnt gNumWh item.olSupplyWId = .done x) ∧
        q.partToAccess.length ≤ gPartCnt := by
  obtain ⟨junk, hremove⟩ := removeDuplicates_eq items
  have htake : (keepNew [] items ++ [] ++ junk).take (keepNew [] items).length = keepNew [] items := by
    rw [List.append_nil, List.take_left' rfl]
  refine ⟨⟨_, ⟨items.length + 1, hremove⟩, htake, rfl⟩, fun part hpart => ?_⟩
  obtain ⟨⟨hle, hzero⟩, hmod⟩ := whToPart_eq_done.1 hpart
  have hlt : ∀ w, w % gPartCnt < gPartCnt := fun w => Nat.mod_lt _ (Nat.pos_of_ne_zero hzero)
  have hone : [part].Nodup := List.nodup_cons.2 ⟨nofun, .nil⟩
  have hsmall : ∀ x ∈ [part], x < gPartCnt := by
    intro x hx
    rw [List.mem_singleton.1 hx, ← hmod]
    exact hlt wId
  have hparts := foldlM_accessPart hle hzero (keepNew [] items) hone hsmall
  obtain ⟨hnodup, hprefix, hmem⟩ :=
    Scan.foldl_addNew ((keepNew [] items).map fun item => item.olSupplyWId % gPartCnt) hone
  refine ⟨⟨keepNew [] items ++ [] ++ junk, (keepNew [] items).length, _⟩, ⟨items.length + 1, fun n hn => ?_⟩,
    htake, rfl, hnodup, ?_, ?_, ?_⟩
  · rw [genNewOrder, hpart, Run.done_bind, hremove n hn, Run.done_bind, Removal.reading, List.append_nil,
      List.length_nil, Nat.add_zero, checkDistinct_eq (keepNew_nodup [] items).1, Run.done_bind, Run.foldlM_range_get,
      hparts, Run.done_bind]
    rfl
  · obtain ⟨tail, htail⟩ := hprefix
    rw [← htail]
    rfl
  · intro x
    rw [hmem, List.mem_singleton, List.mem_map]
    simp only [whToPart_eq_done, hle, hzero, ne_eq, not_false_eq_true, and_self, true_and]
  · refine length_le_of_forall_lt hnodup fun x hx => ?_
    rcases (hmem x).1 hx with hx | hx
    · exact hsmall x hx
    · obtain ⟨item, -, rfl⟩ := List.mem_map.1 hx
      exact hlt _

/-- Adjacent and trailing duplicates. -/
theorem genNewOrder_three_items : ∃ q,
    Run.Returns (genNewOrder 2 4 1 [⟨7, 1, 5⟩, ⟨7, 4, 2⟩, ⟨8, 2, 1⟩, ⟨7, 1, 9⟩, ⟨9, 3, 4⟩, ⟨9, 3, 4⟩, ⟨8, 2, 3⟩]) q ∧
      q.items.take q.olCnt = [⟨7, 1, 5⟩, ⟨8, 2, 1⟩, ⟨9, 3, 4⟩] ∧ q.partToAccess.length ≤ 2 := by
  obtain ⟨q, hq, hitems, -, -, -, -, hlen⟩ := (genNewOrder_items 2 4 1
    [⟨7, 1, 5⟩, ⟨7, 4, 2⟩, ⟨8, 2, 1⟩, ⟨7, 1, 9⟩, ⟨9, 3, 4⟩, ⟨9, 3, 4⟩, ⟨8, 2, 3⟩]).2 1 (by decide)
  exact ⟨q, hq, hitems.trans (by decide), hlen⟩

end Dbx1000
