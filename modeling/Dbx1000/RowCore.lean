import Dbx1000.RowCases

/-!
# Invariants of the version store

`Hist`: the history, the prewrite and `_latest_row` fit together. `Heap`: the `RowItem`s of the
history and `row_` are live and pairwise distinct. `Data v₀ h`: with `h` the committed versions,
newest first, over the initial bytes `v₀`, the page and `_latest_row` hold the newest version and
every valid entry holds its own. None of them speaks of the request array. Each is kept by the
changes of `RowCases` (`dropTo`, `doubleHistory`, `takeEntry`), by the load of the latest row, and by
`commit` and `release`.
-/

namespace Dbx1000
namespace RowMvcc

open WriteHisEntry

variable {V : Type} {g : Nat} {v₀ : V} {h : List (Nat × V)} {s s' : RowMvcc V}

structure Hist (g : Nat) (s : RowMvcc V) : Prop where
  four : 4 ≤ s.hisLen
  len : s.hisLen = 4 ∨ s.hisLen < 2 * g
  num : s.numVersions = s.writeHistory.countP (·.valid)
  range : ∀ e ∈ s.writeHistory, e.valid = true → s.oldestWts < e.ts ∧ e.ts ≤ s.latestWts
  distinct : ∀ (i j : Nat) (e f : WriteHisEntry), s.writeHistory[i]? = some e → s.writeHistory[j]? = some f →
    e.valid = true → f.valid = true → e.ts = f.ts → i = j
  top : ∀ e ∈ s.writeHistory, e.valid = true →
    ∃ f ∈ s.writeHistory, f.valid = true ∧ f.ts = s.latestWts
  oldest : s.oldestWts ≤ s.latestWts
  reserved : ∀ (i : Nat) (e : WriteHisEntry), s.writeHistory[i]? = some e →
    (e.reserved = true ∧ e.valid = false ↔ s.existsPrewrite = true ∧ i = s.prewriteHisId)
  pre : s.existsPrewrite = true →
    s.prewriteHisId < s.hisLen ∧ s.latestWts < s.prewriteTs ∧ s.maxServedRts < s.prewriteTs
  latestNone : s.latestRow = none → s.row = none ∧ s.numVersions = 0
  latestSome : ∀ r, s.latestRow = some r →
    s.row = some r ∨ ∃ e ∈ s.writeHistory, e.valid = true ∧ e.ts = s.latestWts ∧ e.row = some r
  rowNone : ∀ e ∈ s.writeHistory, e.valid = true → s.row = none
  rowLatest : ∀ r, s.row = some r → s.latestRow = some r

structure Heap (s : RowMvcc V) : Prop where
  inj : ∀ (i j : Nat) (e f : WriteHisEntry) (r : RowId), s.writeHistory[i]? = some e → s.writeHistory[j]? = some f →
    e.row = some r → f.row = some r → i = j
  apart : ∀ r, s.row = some r → ∀ e ∈ s.writeHistory, e.row ≠ some r
  live : ∀ e ∈ s.writeHistory, ∀ r, e.row = some r → r < s.nextRow ∧ (s.mem r).isSome = true
  liveRow : ∀ r, s.row = some r → r < s.nextRow ∧ (s.mem r).isSome = true
  hasRow : ∀ e ∈ s.writeHistory, e.valid = true ∨ e.reserved = true → e.row.isSome = true

structure Data (v₀ : V) (h : List (Nat × V)) (s : RowMvcc V) : Prop where
  sorted : h.Pairwise fun a b => b.1 < a.1
  wts : s.latestWts = (h.head?.map Prod.fst).getD 0
  page : s.page = (h.head?.map Prod.snd).getD v₀
  latest : ∀ r, s.latestRow = some r → s.mem r = some s.page
  version : ∀ e ∈ s.writeHistory, e.valid = true → ∀ r, e.row = some r →
    ∃ v, (e.ts, v) ∈ h ∧ s.mem r = some v
  kept : ∀ c ∈ h, s.oldestWts < c.1 → ∃ e ∈ s.writeHistory, e.valid = true ∧ e.ts = c.1

/-! ### The initial store -/

theorem init_entry {i : Nat} {e : WriteHisEntry} (v : V) (h : (init v).writeHistory[i]? = some e) :
    e = ⟨false, false, 0, none⟩ := by
  have := List.mem_of_getElem? h
  rw [init, List.mem_replicate] at this
  exact this.2

theorem init_mem_entry {e : WriteHisEntry} (v : V) (h : e ∈ (init v).writeHistory) :
    e = ⟨false, false, 0, none⟩ := by
  rw [init, List.mem_replicate] at h
  exact h.2

theorem Hist.init (v : V) : Hist g (init v) where
  four := Nat.le_refl 4
  len := .inl rfl
  num := rfl
  range e he hv := by rw [init_mem_entry v he] at hv; cases hv
  distinct i j e f hi hj hv := by rw [init_entry v hi] at hv; cases hv
  top e he hv := by rw [init_mem_entry v he] at hv; cases hv
  oldest := Nat.le_refl 0
  reserved i e hi := by rw [init_entry v hi]; simp [RowMvcc.init]
  pre hp := by cases hp
  latestNone _ := ⟨rfl, rfl⟩
  latestSome r hr := by cases hr
  rowNone e he hv := rfl
  rowLatest r hr := by cases hr

theorem Heap.init (v : V) : Heap (init v) where
  inj i j e f r hi hj hr := by rw [init_entry v hi] at hr; cases hr
  apart r hr := by cases hr
  live e he r hr := by rw [init_mem_entry v he] at hr; cases hr
  liveRow r hr := by cases hr
  hasRow e he hv := by rw [init_mem_entry v he] at hv; simp at hv

theorem Data.init (v : V) : Data v [] (init v) where
  sorted := .nil
  wts := rfl
  page := rfl
  latest r hr := by cases hr
  version e he hv := by rw [init_mem_entry v he] at hv; cases hv
  kept c hc := by cases hc

/-! ### Dropping versions -/

theorem mem_dropTo {m : Nat} {e : WriteHisEntry} (he : e ∈ (s.dropTo m).writeHistory) :
    ∃ f ∈ s.writeHistory, f.drop m = e := List.mem_map.1 he

theorem getElem?_dropTo {m i : Nat} {e : WriteHisEntry} (he : (s.dropTo m).writeHistory[i]? = some e) :
    ∃ f, s.writeHistory[i]? = some f ∧ f.drop m = e := by
  rw [dropTo, List.getElem?_map] at he
  exact Option.map_eq_some_iff.1 he

/-- A version newer than `m` is untouched by the drop. -/
theorem mem_dropTo_of_lt {m : Nat} {e : WriteHisEntry} (he : e ∈ s.writeHistory) (hm : m < e.ts) :
    e ∈ (s.dropTo m).writeHistory :=
  List.mem_map.2 ⟨e, he, drop_of_lt hm⟩

@[simp] theorem hisLen_dropTo (m : Nat) : (s.dropTo m).hisLen = s.hisLen := List.length_map ..

theorem Hist.dropTo (hs : Hist g s) (hh : Heap s) (hp : s.existsPrewrite = false) {e : WriteHisEntry}
    (he : e ∈ s.writeHistory) (hv : e.valid = true) : Hist g (s.dropTo e.ts) where
  four := by rw [hisLen_dropTo]; exact hs.four
  len := by rw [hisLen_dropTo]; exact hs.len
  num := rfl
  range f hf hfv := by
    obtain ⟨f, hf', rfl⟩ := mem_dropTo hf
    obtain ⟨hfv, hlt⟩ := drop_valid.1 hfv
    rw [drop_ts]
    exact ⟨hlt, (hs.range f hf' hfv).2⟩
  distinct i j a b hi hj hav hbv hab := by
    obtain ⟨a, hi', rfl⟩ := getElem?_dropTo hi
    obtain ⟨b, hj', rfl⟩ := getElem?_dropTo hj
    rw [drop_ts, drop_ts] at hab
    exact hs.distinct i j a b hi' hj' (drop_valid.1 hav).1 (drop_valid.1 hbv).1 hab
  top f hf hfv := by
    obtain ⟨f, hf', rfl⟩ := mem_dropTo hf
    obtain ⟨hfv, hlt⟩ := drop_valid.1 hfv
    obtain ⟨t, ht, htv, htw⟩ := hs.top f hf' hfv
    have := (hs.range f hf' hfv).2
    exact ⟨t, mem_dropTo_of_lt ht (by omega), htv, htw⟩
  oldest := (hs.range e he hv).2
  reserved i f hi := by
    obtain ⟨f, hi', rfl⟩ := getElem?_dropTo hi
    refine ⟨fun ⟨hr, hfv⟩ => ?_, fun ⟨hp', _⟩ => by rw [show s.existsPrewrite = true from hp'] at hp; cases hp⟩
    obtain ⟨hr, heq⟩ := drop_reserved hr
    rw [heq] at hfv
    exact (hs.reserved i f hi').1 ⟨hr, hfv⟩
  pre hp' := by rw [show s.existsPrewrite = true from hp'] at hp; cases hp
  latestNone hl := by
    have hrow := hs.rowNone e he hv
    refine ⟨hrow, ?_⟩
    show (s.writeHistory.map (WriteHisEntry.drop e.ts)).countP (·.valid) = 0
    rw [List.countP_eq_zero]
    intro f hf hfv
    obtain ⟨f, hf', rfl⟩ := List.mem_map.1 hf
    obtain ⟨hfv, hlt⟩ := drop_valid.1 hfv
    have hfle := (hs.range f hf' hfv).2
    change (if _ then _ else _) = _ at hl
    split at hl
    · -- the latest row went with a version, so that version was the latest one
      obtain ⟨d, hd, hdv, hde, hdr⟩ := ‹∃ d ∈ s.writeHistory, _›
      obtain ⟨r, hr⟩ := Option.isSome_iff_exists.1 (hh.hasRow d hd (.inl hdv))
      rcases hs.latestSome r (by rw [← hdr, hr]) with h' | ⟨t, ht, htv, htw, htr⟩
      · rw [hrow] at h'; cases h'
      · obtain ⟨i, hi⟩ := List.mem_iff_getElem?.1 hd
        obtain ⟨j, hj⟩ := List.mem_iff_getElem?.1 ht
        obtain rfl := hh.inj i j d t r hi hj hr htr
        rw [hi] at hj; cases hj
        omega
    · have := (hs.latestNone hl).2
      rw [hs.num, List.countP_eq_zero] at this
      exact this e he hv
  latestSome r hr := by
    change (if _ then _ else _) = _ at hr
    split at hr
    · cases hr
    · rename_i hno
      rcases hs.latestSome r hr with h' | ⟨t, ht, htv, htw, htr⟩
      · exact .inl h'
      · refine .inr ⟨t, mem_dropTo_of_lt ht ?_, htv, htw, htr⟩
        by_contra hle
        exact hno ⟨t, ht, htv, by omega, by rw [htr, hr]⟩
  rowNone _ _ _ := hs.rowNone e he hv
  rowLatest r hr := by
    have := hs.rowNone e he hv
    rw [show s.row = some r from hr] at this; cases this

theorem Heap.dropTo (hh : Heap s) (m : Nat) : Heap (s.dropTo m) where
  inj i j e f r hi hj he hf := by
    obtain ⟨e, hi', rfl⟩ := getElem?_dropTo hi
    obtain ⟨f, hj', rfl⟩ := getElem?_dropTo hj
    rw [drop_row] at he hf
    exact hh.inj i j e f r hi' hj' he hf
  apart r hr e he := by
    obtain ⟨e, he', rfl⟩ := mem_dropTo he
    rw [drop_row]
    exact hh.apart r hr e he'
  live e he r hr := by
    obtain ⟨e, he', rfl⟩ := mem_dropTo he
    rw [drop_row] at hr
    exact hh.live e he' r hr
  liveRow := hh.liveRow
  hasRow e he hv := by
    obtain ⟨e, he', rfl⟩ := mem_dropTo he
    rw [drop_row]
    rcases hv with hv | hv
    · exact hh.hasRow e he' (.inl (drop_valid.1 hv).1)
    · exact hh.hasRow e he' (.inr (drop_reserved hv).1)

theorem Data.dropTo (hd : Data v₀ h s) {m : Nat} (hm : s.oldestWts ≤ m) : Data v₀ h (s.dropTo m) where
  sorted := hd.sorted
  wts := hd.wts
  page := hd.page
  latest r hr := by
    change (if _ then _ else _) = _ at hr
    split at hr
    · cases hr
    · exact hd.latest r hr
  version e he hv r hr := by
    obtain ⟨e, he', rfl⟩ := mem_dropTo he
    rw [drop_row] at hr
    rw [drop_ts]
    exact hd.version e he' (drop_valid.1 hv).1 r hr
  kept c hc hlt := by
    have hlt' : m < c.1 := hlt
    obtain ⟨e, he, hv, hts⟩ := hd.kept c hc (by omega)
    exact ⟨e, mem_dropTo_of_lt he (by omega), hv, hts⟩

/-! ### Doubling the history -/

theorem mem_doubleHistory {e : WriteHisEntry} (he : e ∈ s.doubleHistory.writeHistory) :
    e ∈ s.writeHistory ∨ e = ⟨false, false, 0, none⟩ := by
  rcases List.mem_append.1 he with he | he
  · exact .inl he
  · exact .inr (List.mem_replicate.1 he).2

theorem getElem?_doubleHistory {i : Nat} {e : WriteHisEntry} (he : s.doubleHistory.writeHistory[i]? = some e) :
    s.writeHistory[i]? = some e ∨ s.hisLen ≤ i ∧ e = ⟨false, false, 0, none⟩ := by
  rw [doubleHistory, List.getElem?_append] at he
  split at he
  · exact .inl he
  · exact .inr ⟨by unfold hisLen; omega, (List.mem_replicate.1 (List.mem_of_getElem? he)).2⟩

theorem getElem?_doubleHistory_hisLen (h4 : 4 ≤ s.hisLen) :
    s.doubleHistory.writeHistory[s.hisLen]? = some ⟨false, false, 0, none⟩ := by
  have h0 : s.hisLen - s.writeHistory.length = 0 := Nat.sub_self _
  show (s.writeHistory ++ _)[s.hisLen]? = _
  rw [List.getElem?_append_right (show s.writeHistory.length ≤ s.hisLen from Nat.le_refl _), h0,
    List.getElem?_replicate, if_pos (by omega)]

theorem Hist.doubleHistory (hs : Hist g s) (hg : s.hisLen < g) : Hist g s.doubleHistory := by
  have hlen : s.doubleHistory.hisLen = 2 * s.hisLen := by
    simp [hisLen, RowMvcc.doubleHistory]; omega
  refine ⟨?_, ?_, ?_, fun e he hv => ?_, fun i j e f hi hj hev hfv hef => ?_, fun e he hv => ?_,
    hs.oldest, fun i e hi => ?_, fun hp => ?_, hs.latestNone, fun r hr => ?_, fun e he hv => ?_,
    hs.rowLatest⟩
  · have := hs.four; omega
  · exact .inr (by omega)
  · show s.numVersions = (s.writeHistory ++ _).countP _
    rw [List.countP_append, ← hs.num]; simp
  · rcases mem_doubleHistory he with he | rfl
    · exact hs.range e he hv
    · cases hv
  · rcases getElem?_doubleHistory hi with hi | ⟨-, rfl⟩
    · rcases getElem?_doubleHistory hj with hj | ⟨-, rfl⟩
      · exact hs.distinct i j e f hi hj hev hfv hef
      · cases hfv
    · cases hev
  · rcases mem_doubleHistory he with he | rfl
    · obtain ⟨f, hf, hfv, hft⟩ := hs.top e he hv
      exact ⟨f, List.mem_append_left _ hf, hfv, hft⟩
    · cases hv
  · rcases getElem?_doubleHistory hi with hi | ⟨hle, rfl⟩
    · exact hs.reserved i e hi
    · refine ⟨fun h' => (by cases h'.1), fun ⟨hp, hid⟩ => ?_⟩
      have : s.prewriteHisId < s.hisLen := (hs.pre hp).1
      have : i = s.prewriteHisId := hid
      omega
  · obtain ⟨h1, h2⟩ := hs.pre hp
    exact ⟨by show s.prewriteHisId < _; omega, h2⟩
  · rcases hs.latestSome r hr with h' | ⟨e, he, h'⟩
    · exact .inl h'
    · exact .inr ⟨e, List.mem_append_left _ he, h'⟩
  · rcases mem_doubleHistory he with he | rfl
    · exact hs.rowNone e he hv
    · cases hv

theorem Heap.doubleHistory (hh : Heap s) : Heap s.doubleHistory := by
  refine ⟨fun i j e f r hi hj he hf => ?_, fun r hr e he => ?_, fun e he r hr => ?_, hh.liveRow,
    fun e he hv => ?_⟩
  · rcases getElem?_doubleHistory hi with hi | ⟨-, rfl⟩
    · rcases getElem?_doubleHistory hj with hj | ⟨-, rfl⟩
      · exact hh.inj i j e f r hi hj he hf
      · cases hf
    · cases he
  · rcases mem_doubleHistory he with he | rfl
    · exact hh.apart r hr e he
    · intro h'; cases h'
  · rcases mem_doubleHistory he with he | rfl
    · exact hh.live e he r hr
    · cases hr
  · rcases mem_doubleHistory he with he | rfl
    · exact hh.hasRow e he hv
    · simp at hv

theorem Data.doubleHistory (hd : Data v₀ h s) : Data v₀ h s.doubleHistory := by
  refine ⟨hd.sorted, hd.wts, hd.page, hd.latest, fun e he hv r hr => ?_, fun c hc hlt => ?_⟩
  · rcases mem_doubleHistory he with he | rfl
    · exact hd.version e he hv r hr
    · cases hv
  · obtain ⟨e, he, h'⟩ := hd.kept c hc hlt
    exact ⟨e, List.mem_append_left _ he, h'⟩

/-! ### Overwriting one entry -/

theorem mem_set {idx : Nat} {a e : WriteHisEntry} {wh : List WriteHisEntry} (he : e ∈ wh.set idx a) :
    e = a ∨ ∃ i, i ≠ idx ∧ wh[i]? = some e := by
  obtain ⟨i, hi⟩ := List.mem_iff_getElem?.1 he
  rw [List.getElem?_set] at hi
  split at hi
  · split at hi
    · cases hi; exact .inl rfl
    · cases hi
  · exact .inr ⟨i, Ne.symm ‹_›, hi⟩

theorem getElem?_set_cases {idx i : Nat} {a e : WriteHisEntry} {wh : List WriteHisEntry}
    (he : (wh.set idx a)[i]? = some e) : i = idx ∧ e = a ∨ i ≠ idx ∧ wh[i]? = some e := by
  rw [List.getElem?_set] at he
  split at he
  · split at he
    · cases he; exact .inl ⟨(by omega), rfl⟩
    · cases he
  · exact .inr ⟨Ne.symm ‹_›, he⟩

theorem mem_set_of_ne {idx i : Nat} {a e : WriteHisEntry} {wh : List WriteHisEntry}
    (hi : wh[i]? = some e) (hne : i ≠ idx) : e ∈ wh.set idx a := by
  refine List.mem_of_getElem? (i := i) ?_
  rw [List.getElem?_set_ne (Ne.symm hne)]; exact hi

theorem mem_set_self {idx : Nat} {a e : WriteHisEntry} {wh : List WriteHisEntry}
    (hi : wh[idx]? = some e) : a ∈ wh.set idx a := by
  refine List.mem_of_getElem? (i := idx) ?_
  rw [List.getElem?_set_self (List.getElem?_eq_some_iff.1 hi).1]

/-- A valid entry stands at another index than one that is not. -/
theorem ne_idx_of_valid {i idx : Nat} {e f : WriteHisEntry} {wh : List WriteHisEntry}
    (hi : wh[i]? = some e) (hv : e.valid = true) (hidx : wh[idx]? = some f) (hf : f.valid = false) :
    i ≠ idx := by
  rintro rfl
  rw [hi] at hidx; cases hidx
  rw [hv] at hf; cases hf

/-! ### Taking a free entry -/

/-- The entry `idx` reserved for `ts` with the row `r`, over the heap `mem`. -/
def takeEntry (ts idx : Nat) (r : RowId) (mem : RowId → Option V) (n : RowId) (s : RowMvcc V) : RowMvcc V :=
  { s with writeHistory := s.writeHistory.set idx ⟨false, true, ts, some r⟩, existsPrewrite := true,
           prewriteHisId := idx, prewriteTs := ts, mem := mem, nextRow := n }

section Take

variable {ts idx n : Nat} {r : RowId} {mem : RowId → Option V} {e : WriteHisEntry}

theorem Hist.takeEntry (hs : Hist g s) (hp : s.existsPrewrite = false) (hi : s.writeHistory[idx]? = some e)
    (hf : e.Free) (hw : s.latestWts < ts) (hr : s.maxServedRts < ts) :
    Hist g (s.takeEntry ts idx r mem n) := by
  have hlt : idx < s.hisLen := (List.getElem?_eq_some_iff.1 hi).1
  have hnum : (s.writeHistory.set idx ⟨false, true, ts, some r⟩).countP (·.valid) =
      s.writeHistory.countP (·.valid) := by
    rw [List.countP_set hlt]
    have : s.writeHistory[idx] = e := (List.getElem?_eq_some_iff.1 hi).2
    simp [this, hf.1]
  have hlen : (s.takeEntry ts idx r mem n).hisLen = s.hisLen := List.length_set ..
  refine ⟨by rw [hlen]; exact hs.four, by rw [hlen]; exact hs.len, by
    show s.numVersions = _; rw [RowMvcc.takeEntry, hnum]; exact hs.num, fun f hf' hv => ?_,
    fun i j a b hia hjb hav hbv hab => ?_, fun f hf' hv => ?_, hs.oldest, fun i a ha => ?_, fun _ => ?_,
    hs.latestNone, fun x hx => ?_, fun f hf' hv => ?_, hs.rowLatest⟩
  · rcases mem_set hf' with rfl | ⟨i, -, hi'⟩
    · cases hv
    · exact hs.range f (List.mem_of_getElem? hi') hv
  · rcases getElem?_set_cases hia with ⟨-, rfl⟩ | ⟨-, hia⟩
    · cases hav
    rcases getElem?_set_cases hjb with ⟨-, rfl⟩ | ⟨-, hjb⟩
    · cases hbv
    exact hs.distinct i j a b hia hjb hav hbv hab
  · rcases mem_set hf' with rfl | ⟨i, -, hi'⟩
    · cases hv
    obtain ⟨t, ht, htv, htw⟩ := hs.top f (List.mem_of_getElem? hi') hv
    obtain ⟨j, hj⟩ := List.mem_iff_getElem?.1 ht
    exact ⟨t, mem_set_of_ne hj (ne_idx_of_valid hj htv hi hf.1), htv, htw⟩
  · show _ ↔ true = true ∧ i = idx
    rcases getElem?_set_cases ha with ⟨rfl, rfl⟩ | ⟨hne, ha⟩
    · simp
    · refine ⟨fun h' => ?_, fun h' => absurd h'.2 hne⟩
      have := ((hs.reserved i a ha).1 h').1
      rw [hp] at this; cases this
  · exact ⟨by rw [hlen]; exact hlt, hw, hr⟩
  · rcases hs.latestSome x hx with h' | ⟨t, ht, htv, h'⟩
    · exact .inl h'
    · obtain ⟨j, hj⟩ := List.mem_iff_getElem?.1 ht
      exact .inr ⟨t, mem_set_of_ne hj (ne_idx_of_valid hj htv hi hf.1), htv, h'⟩
  · rcases mem_set hf' with rfl | ⟨i, -, hi'⟩
    · cases hv
    · exact hs.rowNone f (List.mem_of_getElem? hi') hv

theorem Heap.takeEntry (hh : Heap s) (hne : ∀ j f, s.writeHistory[j]? = some f → f.row = some r → j = idx)
    (hrow : s.row ≠ some r) (hmem : ∀ x, x < s.nextRow → (s.mem x).isSome = true → (mem x).isSome = true)
    (hn : s.nextRow ≤ n) (hr : r < n ∧ (mem r).isSome = true) : Heap (s.takeEntry ts idx r mem n) := by
  have hlive : ∀ x, x < s.nextRow ∧ (s.mem x).isSome = true → x < n ∧ (mem x).isSome = true :=
    fun x hx => ⟨Nat.lt_of_lt_of_le hx.1 hn, hmem x hx.1 hx.2⟩
  refine ⟨fun i j a b x hi hj ha hb => ?_, fun x hx f hf hfx => ?_, fun f hf x hx => ?_,
    fun x hx => hlive x (hh.liveRow x hx), fun f hf hv => ?_⟩
  · rcases getElem?_set_cases hi with ⟨rfl, rfl⟩ | ⟨-, hi'⟩ <;>
      rcases getElem?_set_cases hj with ⟨rfl, rfl⟩ | ⟨-, hj'⟩
    · rfl
    · cases ha; exact (hne j b hj' hb).symm
    · cases hb; exact hne i a hi' ha
    · exact hh.inj i j a b x hi' hj' ha hb
  · rcases mem_set hf with rfl | ⟨i, -, hi⟩
    · cases hfx; exact hrow hx
    · exact hh.apart x hx f (List.mem_of_getElem? hi) hfx
  · rcases mem_set hf with rfl | ⟨i, -, hi⟩
    · cases hx; exact hr
    · exact hlive x (hh.live f (List.mem_of_getElem? hi) x hx)
  · rcases mem_set hf with rfl | ⟨i, -, hi⟩
    · rfl
    · exact hh.hasRow f (List.mem_of_getElem? hi) hv

/-- `_latest_row` is live. -/
theorem latest_live (hs : Hist g s) (hh : Heap s) {r : RowId} (hr : s.latestRow = some r) :
    r < s.nextRow ∧ (s.mem r).isSome = true := by
  rcases hs.latestSome r hr with h' | ⟨e, he, -, -, her⟩
  · exact hh.liveRow r h'
  · exact hh.live e he r her

theorem Data.takeEntry (hs : Hist g s) (hh : Heap s) (hd : Data v₀ h s) (hi : s.writeHistory[idx]? = some e)
    (hf : e.Free) (hmem : ∀ x, x < s.nextRow → mem x = s.mem x) : Data v₀ h (s.takeEntry ts idx r mem n) := by
  refine ⟨hd.sorted, hd.wts, hd.page, fun x hx => ?_, fun f hf' hv x hx => ?_, fun c hc hlt => ?_⟩
  · show mem x = some s.page
    rw [hmem x (latest_live hs hh hx).1]
    exact hd.latest x hx
  · rcases mem_set hf' with rfl | ⟨i, -, hi'⟩
    · cases hv
    · obtain ⟨v, hv', hm⟩ := hd.version f (List.mem_of_getElem? hi') hv x hx
      refine ⟨v, hv', ?_⟩
      show mem x = some v
      rw [hmem x (hh.live f (List.mem_of_getElem? hi') x hx).1]
      exact hm
  · obtain ⟨f, hf', hv, hts⟩ := hd.kept c hc hlt
    obtain ⟨j, hj⟩ := List.mem_iff_getElem?.1 hf'
    exact ⟨f, mem_set_of_ne hj (ne_idx_of_valid hj hv hi hf.1), hv, hts⟩

end Take

end RowMvcc
end Dbx1000
