import Mathlib.Tactic.Ring

/-!
# The index keys of TPC-C (`common/workload/tpcc_helper.cpp`)

The keys are 64-bit numbers. A district, a customer and a stock row are numbered in a mixed radix, and their ids
stay within the radix. An order is numbered with the radix `g_cust_per_dist`, but its id comes from `D_NEXT_O_ID`,
which starts at 3001 and has no bound. In `custNPKey` the letters of the name are digits of the radix 4, and the
district is added from bit 3 on. So two orders, or two names, of different districts can have one key, and no other
rows do (`TpccRow.Collides`, `TpccRow.key_eq_iff`). They do not if the order ids are less than `g_cust_per_dist`
apart, and the numbers of the districts less than 16: the value of a syllable modulo 64 tells which one it is, and no
two of these values are neighbours.
-/

namespace Dbx1000

/-! ### The keys -/

/-- `g_cust_per_dist`, `g_max_items`. -/
structure TpccConfig where
  custPerDist : Nat
  maxItems : Nat

/-- `DIST_PER_WARE` -/
def distPerWare : Nat := 10

def distKey (dId dWId : Nat) : Nat := (dWId * distPerWare + dId) % 2 ^ 64

/-- `(key << 2) + (c - 'A')` -/
def nameStep (key : Nat) (c : Char) : Nat := (key * 4 + (2 ^ 64 + c.toNat - 'A'.toNat)) % 2 ^ 64

def custNPKey (cLast : List Char) (cDId cWId : Nat) : Nat :=
  (cLast.foldl nameStep 0 * 8 % 2 ^ 64 + (cWId * distPerWare + cDId)) % 2 ^ 64

section Config

variable (cfg : TpccConfig)

def custKey (cId cDId cWId : Nat) : Nat := (distKey cDId cWId * cfg.custPerDist + cId) % 2 ^ 64

def orderlineKey (wId dId oId : Nat) : Nat := (distKey dId wId * cfg.custPerDist + oId) % 2 ^ 64

def orderPrimaryKey (wId dId oId : Nat) : Nat := orderlineKey cfg wId dId oId

def stockKey (sIId sWId : Nat) : Nat := (sWId * cfg.maxItems + sIId) % 2 ^ 64

end Config

/-- The strings of `Lastname`. -/
def syllables : List (List Char) :=
  ["BAR".toList, "OUGHT".toList, "ABLE".toList, "PRI".toList, "PRES".toList, "ESE".toList, "ANTI".toList,
    "CALLY".toList, "ATION".toList, "EING".toList]

def lastname (num : Nat) : Option (List Char) := do
  let a ← syllables[num / 100]?
  let b ← syllables[num / 10 % 10]?
  let c ← syllables[num % 10]?
  return a ++ b ++ c

/-- `D_NEXT_O_ID` after `n` calls of `run_new_order`; a call takes the number it stores. -/
def nextOId : Nat → Nat
  | 0 => 3001
  | n + 1 => nextOId n + 1

/-! ### The rows behind the keys -/

/-- A row, by the arguments of its key. -/
inductive TpccRow
  | district (d w : Nat)
  | customer (c d w : Nat)
  | stock (i w : Nat)
  | order (w d o : Nat)
  | orderLine (w d o : Nat)
  | customerName (name : List Char) (d w : Nat)
deriving DecidableEq, Repr

inductive TpccIndex
  | iDistrict
  | iCustomerId
  | iStock
  | iOrder
  | iOrderLine
  | iCustomerLast
deriving DecidableEq, Repr

namespace TpccRow

def index : TpccRow → TpccIndex
  | district .. => .iDistrict
  | customer .. => .iCustomerId
  | stock .. => .iStock
  | order .. => .iOrder
  | orderLine .. => .iOrderLine
  | customerName .. => .iCustomerLast

def key (cfg : TpccConfig) : TpccRow → Nat
  | district d w => distKey d w
  | customer c d w => custKey cfg c d w
  | stock i w => stockKey cfg i w
  | order w d o => orderPrimaryKey cfg w d o
  | orderLine w d o => orderlineKey cfg w d o
  | customerName name d w => custNPKey name d w

end TpccRow

/-- The value of the letters, without a bound on it. -/
def letters (l : List Char) : Nat := l.foldl (fun key c => key * 4 + (c.toNat - 'A'.toNat)) 0

/-- A district of a warehouse whose number does not overflow. -/
structure DistrictOk (d w : Nat) : Prop where
  warehouse : 1 ≤ w
  one_le : 1 ≤ d
  le : d ≤ distPerWare
  fits : w * distPerWare + d < 2 ^ 64

instance (d w : Nat) : Decidable (DistrictOk d w) :=
  decidable_of_iff (1 ≤ w ∧ 1 ≤ d ∧ d ≤ distPerWare ∧ w * distPerWare + d < 2 ^ 64)
    ⟨fun ⟨hw, hone, hle, hfits⟩ => ⟨hw, hone, hle, hfits⟩, fun h => ⟨h.warehouse, h.one_le, h.le, h.fits⟩⟩

/-- The ids are in their ranges, and the key does not overflow. -/
def TpccRow.Valid (cfg : TpccConfig) : TpccRow → Prop
  | district d w => DistrictOk d w
  | customer c d w =>
    DistrictOk d w ∧ (1 ≤ c ∧ c ≤ cfg.custPerDist) ∧ (w * distPerWare + d) * cfg.custPerDist + c < 2 ^ 64
  | stock i w => 1 ≤ w ∧ (1 ≤ i ∧ i ≤ cfg.maxItems) ∧ w * cfg.maxItems + i < 2 ^ 64
  | order w d o | orderLine w d o =>
    DistrictOk d w ∧ 1 ≤ o ∧ (w * distPerWare + d) * cfg.custPerDist + o < 2 ^ 64
  | customerName name d w =>
    DistrictOk d w ∧ (∃ num, lastname num = some name) ∧ letters name * 8 + (w * distPerWare + d) < 2 ^ 64

/-- The rows are of different districts, and the order ids differ by as many times `g_cust_per_dist` as the numbers of
the districts differ by; the values of two names differ by an eighth of it. -/
def TpccRow.Collides (cfg : TpccConfig) : TpccRow → TpccRow → Prop
  | order w d o, order w' d' o' | orderLine w d o, orderLine w' d' o' =>
    (w, d) ≠ (w', d') ∧
      (o : Int) - o' = (((w' * distPerWare + d' : Nat) : Int) - (w * distPerWare + d : Nat)) * cfg.custPerDist
  | customerName name d w, customerName name' d' w' =>
    (w, d) ≠ (w', d') ∧
      ((letters name : Int) - letters name') * 8 = ((w' * distPerWare + d' : Nat) : Int) - (w * distPerWare + d : Nat)
  | _, _ => False

/-- The order ids are less than `g_cust_per_dist` apart, and so are the districts of two names than 16. -/
def TpccRow.Near (cfg : TpccConfig) : TpccRow → TpccRow → Prop
  | order _ _ o, order _ _ o' | orderLine _ _ o, orderLine _ _ o' =>
    o < o' + cfg.custPerDist ∧ o' < o + cfg.custPerDist
  | customerName _ d w, customerName _ d' w' =>
    w * distPerWare + d < w' * distPerWare + d' + 16 ∧ w' * distPerWare + d' < w * distPerWare + d + 16
  | _, _ => True

/-! ### Mixed radix -/

/-- Digits that are less than the radix apart are told apart. -/
theorem radix_inj {r a b x y : Nat} (h : a * r + x = b * r + y) (hx : x < y + r) (hy : y < x + r) :
    a = b ∧ x = y := by
  rcases Nat.lt_trichotomy a b with hlt | rfl | hlt
  · have := Nat.mul_le_mul_right r (Nat.succ_le_of_lt hlt)
    rw [Nat.succ_mul] at this
    omega
  · omega
  · have := Nat.mul_le_mul_right r (Nat.succ_le_of_lt hlt)
    rw [Nat.succ_mul] at this
    omega

/-- Two numbers in a radix are equal if the digits make up for what is in front of them. -/
theorem radix_eq_iff {r a b x y : Nat} : a * r + x = b * r + y ↔ (x : Int) - y = ((b : Int) - a) * r := by
  rw [Int.sub_mul, ← Int.natCast_mul, ← Int.natCast_mul]
  omega

section District

variable {cfg : TpccConfig} {c c' d d' i i' o o' w w' : Nat}

theorem distKey_eq (h : DistrictOk d w) : distKey d w = w * distPerWare + d := Nat.mod_eq_of_lt h.fits

theorem district_inj (h : DistrictOk d w) (h' : DistrictOk d' w')
    (heq : w * distPerWare + d = w' * distPerWare + d') : w = w' ∧ d = d' := by
  have hd := h.le
  have hd' := h'.le
  have hone := h.one_le
  have hone' := h'.one_le
  exact radix_inj heq (by omega) (by omega)

theorem custKey_eq (h : DistrictOk d w) (hfits : (w * distPerWare + d) * cfg.custPerDist + c < 2 ^ 64) :
    custKey cfg c d w = (w * distPerWare + d) * cfg.custPerDist + c := by
  rw [custKey, distKey_eq h, Nat.mod_eq_of_lt hfits]

theorem orderlineKey_eq (h : DistrictOk d w) (hfits : (w * distPerWare + d) * cfg.custPerDist + o < 2 ^ 64) :
    orderlineKey cfg w d o = (w * distPerWare + d) * cfg.custPerDist + o := by
  rw [orderlineKey, distKey_eq h, Nat.mod_eq_of_lt hfits]

/-- A number of a district and a number within it. -/
theorem district_radix_inj {r x y : Nat} (h : DistrictOk d w) (h' : DistrictOk d' w')
    (heq : (w * distPerWare + d) * r + x = (w' * distPerWare + d') * r + y) (hx : x < y + r) (hy : y < x + r) :
    w = w' ∧ d = d' ∧ x = y := by
  obtain ⟨hdist, hxy⟩ := radix_inj heq hx hy
  obtain ⟨hw, hd⟩ := district_inj h h' hdist
  exact ⟨hw, hd, hxy⟩

end District

/-! ### Names -/

section Names

variable {l s s' t t' name name' : List Char} {k : Nat}

theorem foldl_letters (l : List Char) (k : Nat) :
    l.foldl (fun key c => key * 4 + (c.toNat - 'A'.toNat)) k = k * 4 ^ l.length + letters l := by
  induction l generalizing k with
  | nil => simp [letters]
  | cons c l ih =>
    have hletters : letters (c :: l) = (0 * 4 + (c.toNat - 'A'.toNat)) * 4 ^ l.length + letters l := ih _
    rw [List.foldl_cons, ih, hletters, List.length_cons]
    ring

theorem letters_append (s t : List Char) : letters (s ++ t) = letters s * 4 ^ t.length + letters t := by
  rw [letters, List.foldl_append, foldl_letters]
  rfl

/-- Letters from `A` on: the loop computes their value modulo 2 ^ 64. -/
theorem foldl_nameStep (hl : ∀ c ∈ l, 'A'.toNat ≤ c.toNat) (k : Nat) :
    l.foldl nameStep (k % 2 ^ 64) = l.foldl (fun key c => key * 4 + (c.toNat - 'A'.toNat)) k % 2 ^ 64 := by
  induction l generalizing k with
  | nil => rfl
  | cons c l ih =>
    have hc := hl c List.mem_cons_self
    have hstep : nameStep (k % 2 ^ 64) c = (k * 4 + (c.toNat - 'A'.toNat)) % 2 ^ 64 := by
      unfold nameStep
      omega
    rw [List.foldl_cons, List.foldl_cons, hstep, ih fun c hc => hl c (List.mem_cons_of_mem _ hc)]

theorem syllables_letters : ∀ s ∈ syllables, 3 ≤ s.length ∧ ∀ c ∈ s, 'A'.toNat ≤ c.toNat := by
  have hall : ∀ s ∈ syllables, 3 ≤ s.length ∧ (s.all fun c => decide ('A'.toNat ≤ c.toNat)) = true := by decide
  intro s hs
  obtain ⟨hlen, hletters⟩ := hall s hs
  exact ⟨hlen, fun c hc => of_decide_eq_true (List.all_eq_true.1 hletters c hc)⟩

/-- The values modulo 64 are different, and none is the successor of another. -/
theorem syllables_apart : ∀ s ∈ syllables, ∀ t ∈ syllables,
    (letters s % 64 = letters t % 64 → s = t) ∧ (letters s + 1) % 64 ≠ letters t % 64 := by decide

theorem letters_mod (hs : 3 ≤ t.length) : letters (s ++ t) % 64 = letters t % 64 := by
  obtain ⟨n, hn⟩ := Nat.exists_eq_add_of_le hs
  have hpow : 4 ^ t.length = 64 * 4 ^ n := by rw [hn, Nat.pow_add]
  rw [letters_append, hpow, Nat.mul_left_comm, Nat.mul_add_mod]

/-- The last syllable and the value in front of it. -/
theorem letters_append_inj (ht : t ∈ syllables) (ht' : t' ∈ syllables) (h : letters (s ++ t) = letters (s' ++ t')) :
    letters s = letters s' ∧ t = t' := by
  have hmod : letters t % 64 = letters t' % 64 := by
    rw [← letters_mod (s := s) (syllables_letters t ht).1, h, letters_mod (syllables_letters t' ht').1]
  have heq := (syllables_apart t ht t' ht').1 hmod
  subst heq
  rw [letters_append, letters_append] at h
  exact ⟨Nat.eq_of_mul_eq_mul_right (Nat.pow_pos (by decide)) (Nat.add_right_cancel h), rfl⟩

/-- A name is three syllables. -/
theorem lastname_eq {num : Nat} (h : lastname num = some name) :
    ∃ a ∈ syllables, ∃ b ∈ syllables, ∃ c ∈ syllables, name = a ++ b ++ c := by
  simp only [lastname, Option.bind_eq_bind, Option.bind_eq_some_iff, Option.pure_def, Option.some.injEq] at h
  obtain ⟨a, ha, b, hb, c, hc, rfl⟩ := h
  exact ⟨a, List.mem_of_getElem? ha, b, List.mem_of_getElem? hb, c, List.mem_of_getElem? hc, rfl⟩

theorem letters_inj {num num' : Nat} (hname : lastname num = some name) (hname' : lastname num' = some name')
    (h : letters name = letters name') : name = name' := by
  obtain ⟨a, ha, b, hb, c, hc, rfl⟩ := lastname_eq hname
  obtain ⟨a', ha', b', hb', c', hc', rfl⟩ := lastname_eq hname'
  obtain ⟨hab, rfl⟩ := letters_append_inj hc hc' h
  obtain ⟨hal, rfl⟩ := letters_append_inj hb hb' hab
  have hal' : letters ([] ++ a) = letters ([] ++ a') := hal
  obtain ⟨-, rfl⟩ := letters_append_inj ha ha' hal'
  rfl

/-- No two names have neighbouring values. -/
theorem letters_ne_succ {num num' : Nat} (hname : lastname num = some name) (hname' : lastname num' = some name') :
    letters name + 1 ≠ letters name' := by
  obtain ⟨a, -, b, -, c, hc, rfl⟩ := lastname_eq hname
  obtain ⟨a', -, b', -, c', hc', rfl⟩ := lastname_eq hname'
  intro h
  apply (syllables_apart c hc c' hc').2
  rw [← letters_mod (s := a' ++ b') (syllables_letters c' hc').1, ← h, Nat.add_mod, ← letters_mod (s := a ++ b)
    (syllables_letters c hc).1, ← Nat.add_mod]

theorem custNPKey_eq {num d w : Nat} (hname : lastname num = some name)
    (hfits : letters name * 8 + (w * distPerWare + d) < 2 ^ 64) :
    custNPKey name d w = letters name * 8 + (w * distPerWare + d) := by
  obtain ⟨a, ha, b, hb, c, hc, rfl⟩ := lastname_eq hname
  have hl : ∀ x ∈ a ++ b ++ c, 'A'.toNat ≤ x.toNat := by
    intro x hx
    simp only [List.mem_append] at hx
    rcases hx with (hx | hx) | hx
    · exact (syllables_letters a ha).2 x hx
    · exact (syllables_letters b hb).2 x hx
    · exact (syllables_letters c hc).2 x hx
  have hfold : (a ++ b ++ c).foldl nameStep 0 = letters (a ++ b ++ c) % 2 ^ 64 := foldl_nameStep hl 0
  rw [custNPKey, hfold]
  omega

end Names

/-! ### The rows are told apart -/

theorem custNPKey_inj {name name' : List Char} {num num' d d' w w' : Nat} (hname : lastname num = some name)
    (hname' : lastname num' = some name')
    (hlt : w * distPerWare + d < w' * distPerWare + d' + 16) (hlt' : w' * distPerWare + d' < w * distPerWare + d + 16)
    (h : letters name * 8 + (w * distPerWare + d) = letters name' * 8 + (w' * distPerWare + d')) :
    name = name' ∧ w * distPerWare + d = w' * distPerWare + d' := by
  have hne := letters_ne_succ hname hname'
  have hne' := letters_ne_succ hname' hname
  have heq : letters name = letters name' := by omega
  exact ⟨letters_inj hname hname' heq, by omega⟩

/-- The keys of two orders. -/
theorem orderlineKey_eq_iff {cfg : TpccConfig} {w d o w' d' o' : Nat} (hd : DistrictOk d w) (hd' : DistrictOk d' w')
    (hfits : (w * distPerWare + d) * cfg.custPerDist + o < 2 ^ 64)
    (hfits' : (w' * distPerWare + d') * cfg.custPerDist + o' < 2 ^ 64) :
    orderlineKey cfg w d o = orderlineKey cfg w' d' o' ↔ (w, d, o) = (w', d', o') ∨ (w, d) ≠ (w', d') ∧
      (o : Int) - o' = (((w' * distPerWare + d' : Nat) : Int) - (w * distPerWare + d : Nat)) * cfg.custPerDist := by
  rw [orderlineKey_eq hd hfits, orderlineKey_eq hd' hfits', radix_eq_iff]
  by_cases hdist : (w, d) = (w', d')
  · cases hdist
    simp [sub_eq_zero]
  · have hne : (w, d, o) ≠ (w', d', o') := fun h => hdist (by simp_all)
    rw [or_iff_right hne, and_iff_right hdist]

/-- The keys of two names. -/
theorem custNPKey_eq_iff {name name' : List Char} {num num' d d' w w' : Nat} (hname : lastname num = some name)
    (hname' : lastname num' = some name') (hfits : letters name * 8 + (w * distPerWare + d) < 2 ^ 64)
    (hfits' : letters name' * 8 + (w' * distPerWare + d') < 2 ^ 64) :
    custNPKey name d w = custNPKey name' d' w' ↔ (name, d, w) = (name', d', w') ∨ (w, d) ≠ (w', d') ∧
      ((letters name : Int) - letters name') * 8 =
        ((w' * distPerWare + d' : Nat) : Int) - (w * distPerWare + d : Nat) := by
  rw [custNPKey_eq hname hfits, custNPKey_eq hname' hfits']
  by_cases hdist : (w, d) = (w', d')
  · cases hdist
    have hletters : letters name = letters name' ↔ name = name' :=
      ⟨letters_inj hname hname', fun h => congrArg letters h⟩
    simp only [Nat.add_right_cancel_iff, Nat.mul_right_cancel_iff (show 0 < 8 by decide), hletters, Prod.mk.injEq,
      and_true, ne_eq, not_true_eq_false, false_and, or_false]
  · have hne : (name, d, w) ≠ (name', d', w') := fun h => hdist (by simp_all)
    rw [or_iff_right hne, and_iff_right hdist]
    omega

/-- Two rows of one index have the same key if they are the same row, or collide. -/
theorem TpccRow.key_eq_or {cfg : TpccConfig} {x y : TpccRow} (hx : x.Valid cfg) (hy : y.Valid cfg)
    (hindex : x.index = y.index) : x.key cfg = y.key cfg ↔ x = y ∨ x.Collides cfg y := by
  match x, y, hindex with
  | district d w, district d' w', _ =>
    refine ⟨fun h => .inl ?_, fun h => (h.resolve_right id) ▸ rfl⟩
    obtain ⟨rfl, rfl⟩ := district_inj hx hy ((distKey_eq hx).symm.trans (h.trans (distKey_eq hy)))
    rfl
  | customer c d w, customer c' d' w', _ =>
    refine ⟨fun h => .inl ?_, fun h => (h.resolve_right id) ▸ rfl⟩
    obtain ⟨hd, hc, hfits⟩ := hx
    obtain ⟨hd', hc', hfits'⟩ := hy
    have heq := (custKey_eq hd hfits).symm.trans (h.trans (custKey_eq hd' hfits'))
    obtain ⟨rfl, rfl, rfl⟩ := district_radix_inj hd hd' heq (by omega) (by omega)
    rfl
  | stock i w, stock i' w', _ =>
    refine ⟨fun h => .inl ?_, fun h => (h.resolve_right id) ▸ rfl⟩
    obtain ⟨-, hi, hfits⟩ := hx
    obtain ⟨-, hi', hfits'⟩ := hy
    have heq := (Nat.mod_eq_of_lt hfits).symm.trans (h.trans (Nat.mod_eq_of_lt hfits'))
    obtain ⟨rfl, rfl⟩ := radix_inj heq (by omega) (by omega)
    rfl
  | order w d o, order w' d' o', _ =>
    refine (orderlineKey_eq_iff hx.1 hy.1 hx.2.2 hy.2.2).trans (or_congr_left ?_)
    simp only [Prod.mk.injEq, order.injEq]
  | orderLine w d o, orderLine w' d' o', _ =>
    refine (orderlineKey_eq_iff hx.1 hy.1 hx.2.2 hy.2.2).trans (or_congr_left ?_)
    simp only [Prod.mk.injEq, orderLine.injEq]
  | customerName name d w, customerName name' d' w', _ =>
    obtain ⟨-, ⟨num, hname⟩, hfits⟩ := hx
    obtain ⟨-, ⟨num', hname'⟩, hfits'⟩ := hy
    refine (custNPKey_eq_iff hname hname' hfits hfits').trans (or_congr_left ?_)
    simp only [Prod.mk.injEq, customerName.injEq]

theorem TpccRow.Collides.ne {cfg : TpccConfig} {x y : TpccRow} (h : x.Collides cfg y) : x ≠ y := by
  rintro rfl
  cases x with
  | order | orderLine | customerName => exact h.1 rfl
  | _ => exact h

/-- Rows that are near each other do not collide. -/
theorem TpccRow.not_collides_of_near {cfg : TpccConfig} {x y : TpccRow} (hx : x.Valid cfg) (hy : y.Valid cfg)
    (hnear : x.Near cfg y) : ¬ x.Collides cfg y := by
  match x, y with
  | order w d o, order w' d' o' | orderLine w d o, orderLine w' d' o' =>
    rintro ⟨hdist, heq⟩
    obtain ⟨rfl, rfl, -⟩ := district_radix_inj hx.1 hy.1 (radix_eq_iff.2 heq) hnear.1 hnear.2
    exact hdist rfl
  | customerName name d w, customerName name' d' w' =>
    rintro ⟨hdist, heq⟩
    obtain ⟨hd, ⟨num, hname⟩, -⟩ := hx
    obtain ⟨hd', ⟨num', hname'⟩, -⟩ := hy
    obtain ⟨-, hnumber⟩ := custNPKey_inj hname hname' hnear.1 hnear.2 (by omega)
    obtain ⟨rfl, rfl⟩ := district_inj hd hd' hnumber
    exact hdist rfl
  | district .., _ | customer .., _ | stock .., _ => exact id
  | order .., district .. | order .., customer .. | order .., stock .. | order .., orderLine ..
  | order .., customerName .. => exact id
  | orderLine .., district .. | orderLine .., customer .. | orderLine .., stock .. | orderLine .., order ..
  | orderLine .., customerName .. => exact id
  | customerName .., district .. | customerName .., customer .. | customerName .., stock .. | customerName .., order ..
  | customerName .., orderLine .. => exact id

/-- A key identifies its row if and only if the two rows do not collide, and near rows do not. -/
theorem TpccRow.key_eq_iff {cfg : TpccConfig} {x y : TpccRow} (hx : x.Valid cfg) (hy : y.Valid cfg)
    (hindex : x.index = y.index) :
    ((x.key cfg = y.key cfg ↔ x = y) ↔ ¬ x.Collides cfg y) ∧ (x.Near cfg y → ¬ x.Collides cfg y) := by
  refine ⟨?_, not_collides_of_near hx hy⟩
  rw [key_eq_or hx hy hindex]
  exact ⟨fun h hcol => hcol.ne (h.1 (.inr hcol)), fun h => or_iff_left h⟩

/-- The names of the collision below, in districts that are near each other. -/
theorem TpccRow.names_apart :
    (customerName "BARPRIEING".toList 7 1).key ⟨3000, 100000⟩ ≠
      (customerName "BARPRESPRI".toList 1 2).key ⟨3000, 100000⟩ := by
  have hname : (customerName "BARPRIEING".toList 7 1).Valid ⟨3000, 100000⟩ :=
    ⟨by decide, ⟨39, by decide⟩, by decide⟩
  have hname' : (customerName "BARPRESPRI".toList 1 2).Valid ⟨3000, 100000⟩ :=
    ⟨by decide, ⟨43, by decide⟩, by decide⟩
  obtain ⟨hiff, hnear⟩ := key_eq_iff hname hname' (by simp only [index])
  rw [ne_eq, hiff.2 (hnear ⟨by decide, by decide⟩)]
  decide

theorem nextOId_eq (n : Nat) : nextOId n = 3001 + n := by
  induction n with
  | zero => rfl
  | succ n ih => rw [nextOId, ih, Nat.add_assoc]

/-- The 3001st new order of district 1 and the first one of district 2 have one key, and so have two customers of
different names in different warehouses. -/
theorem TpccRow.keys_collide :
    ((order 1 1 (nextOId 3001)).Valid ⟨3000, 100000⟩ ∧ (order 1 2 (nextOId 1)).Valid ⟨3000, 100000⟩ ∧
      (order 1 1 (nextOId 3001)).key ⟨3000, 100000⟩ = (order 1 2 (nextOId 1)).key ⟨3000, 100000⟩) ∧
    (customerName "BARPRIEING".toList 7 2).Valid ⟨3000, 100000⟩ ∧
      (customerName "BARPRESPRI".toList 1 1).Valid ⟨3000, 100000⟩ ∧
      (customerName "BARPRIEING".toList 7 2).key ⟨3000, 100000⟩ =
        (customerName "BARPRESPRI".toList 1 1).key ⟨3000, 100000⟩ := by
  rw [nextOId_eq, nextOId_eq]
  refine ⟨⟨?_, ?_, by decide⟩, ?_, ?_, by decide⟩
  · exact ⟨by decide, by decide, by decide⟩
  · exact ⟨by decide, by decide, by decide⟩
  · exact ⟨by decide, ⟨39, by decide⟩, by decide⟩
  · exact ⟨by decide, ⟨43, by decide⟩, by decide⟩

end Dbx1000
