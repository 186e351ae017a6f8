import Mathlib.Data.List.Induction
import Mathlib.Data.List.Nodup
import Mathlib.Logic.Function.Basic
import Mathlib.Logic.Relation

/-!
# Serial histories

A committed transaction is an `Entry`: the values it read, the values it wrote and the number `ts` it is
ordered by. `Exec db es db'` executes the entries one after the other from `db`: each finds the values
it read in the database and leaves those it wrote. In such an execution, with the entries in the order of
their numbers, every value read is the one written by the latest entry with a smaller number that writes
the item (`Exec.latest`).

For histories that are only given as reads and writes in time (`Op`), `Conflict` is the precedence of
conflicting operations of two transactions; transactions that can be numbered along it have no cycle of
conflicts (`conflictSerializable_of_rank`).
-/

namespace Serial

/-! ### Serial execution -/

structure Entry (α ρ V : Type*) where
  txn : α
  ts : Nat
  reads : List (ρ × V)
  writes : List (ρ × V)

variable {α ρ V : Type*}

/-- The entry writes the item `r`. -/
def Entry.Writes (e : Entry α ρ V) (r : ρ) : Prop := ∃ v, (r, v) ∈ e.writes

/-- `v` is what the latest entry below `bound` that writes `r` wrote, or the initial value of `r` if there is
no such entry. -/
def LatestBelow (db : ρ → V) (es : List (Entry α ρ V)) (bound : Nat) (r : ρ) (v : V) : Prop :=
  (∃ w ∈ es, w.ts < bound ∧ (r, v) ∈ w.writes ∧ ∀ e ∈ es, e.ts < bound → e.Writes r → e.ts ≤ w.ts) ∨
    (∀ e ∈ es, e.ts < bound → ¬ e.Writes r) ∧ v = db r

variable [DecidableEq ρ]

/-- The database after the writes `ws`, in order. -/
def install (ws : List (ρ × V)) (db : ρ → V) : ρ → V := ws.foldl (fun db w => Function.update db w.1 w.2) db

theorem install_of_notMem {ws : List (ρ × V)} {r : ρ} (h : ∀ w ∈ ws, w.1 ≠ r) (db : ρ → V) :
    install ws db r = db r := by
  induction ws generalizing db with
  | nil => rfl
  | cons w ws ih =>
    obtain ⟨hw, hws⟩ := List.forall_mem_cons.1 h
    rw [install, List.foldl_cons]
    exact (ih hws _).trans (Function.update_of_ne hw.symm ..)

theorem install_of_mem {ws : List (ρ × V)} {r : ρ} {v : V} (hnd : (ws.map Prod.fst).Nodup) (h : (r, v) ∈ ws)
    (db : ρ → V) : install ws db r = v := by
  induction ws generalizing db with
  | nil => cases h
  | cons w ws ih =>
    rw [List.map_cons, List.nodup_cons] at hnd
    rw [install, List.foldl_cons]
    rcases List.mem_cons.1 h with rfl | h
    · have hno : ∀ w ∈ ws, w.1 ≠ r := fun w hw he => hnd.1 (List.mem_map.2 ⟨w, hw, he⟩)
      exact (install_of_notMem hno _).trans (Function.update_self ..)
    · exact ih hnd.2 h _

/-- What is installed is one of the writes, or the item is not written. -/
theorem install_cases (ws : List (ρ × V)) (db : ρ → V) (r : ρ) :
    (r, install ws db r) ∈ ws ∨ (∀ w ∈ ws, w.1 ≠ r) ∧ install ws db r = db r := by
  induction ws generalizing db with
  | nil => exact .inr ⟨nofun, rfl⟩
  | cons w ws ih =>
    rw [install, List.foldl_cons]
    rcases ih (Function.update db w.1 w.2) with h | ⟨hno, h⟩
    · exact .inl (List.mem_cons_of_mem _ h)
    · rw [install] at h
      rw [h]
      by_cases hw : w.1 = r
      · subst hw
        rw [Function.update_self]
        exact .inl List.mem_cons_self
      · exact .inr ⟨List.forall_mem_cons.2 ⟨hw, hno⟩, Function.update_of_ne (Ne.symm hw) ..⟩

/-- The entries `es`, executed one after the other from `db`. -/
inductive Exec (db : ρ → V) : List (Entry α ρ V) → (ρ → V) → Prop
  | nil : Exec db [] db
  | snoc {es : List (Entry α ρ V)} {db' : ρ → V} {e : Entry α ρ V} (h : Exec db es db')
      (hr : ∀ p ∈ e.reads, db' p.1 = p.2) : Exec db (es ++ [e]) (install e.writes db')

omit [DecidableEq ρ] in
/-- An entry that is not below the bound, or does not write the item, changes nothing. -/
theorem LatestBelow.snoc {db : ρ → V} {es : List (Entry α ρ V)} {bound : Nat} {r : ρ} {v : V} {e : Entry α ρ V}
    (h : LatestBelow db es bound r v) (he : e.ts < bound → ¬ e.Writes r) : LatestBelow db (es ++ [e]) bound r v := by
  have hall : ∀ {P : Entry α ρ V → Prop}, (∀ d ∈ es, d.ts < bound → d.Writes r → P d) →
      ∀ d ∈ es ++ [e], d.ts < bound → d.Writes r → P d := by
    intro P hP d hd hlt hw
    rcases List.mem_append.1 hd with hd | hd
    · exact hP d hd hlt hw
    · rw [List.mem_singleton.1 hd] at hlt hw
      exact absurd hw (he hlt)
  rcases h with ⟨w, hw, hlt, hv, hmax⟩ | ⟨hno, hv⟩
  · exact .inl ⟨w, List.mem_append_left _ hw, hlt, hv, hall hmax⟩
  · exact .inr ⟨fun d hd hlt hw => hall (P := fun _ => False) hno d hd hlt hw, hv⟩

/-- In a serial execution in the order of the numbers, every value read is the one of the latest writer below,
and the database has the values of the latest writers. -/
theorem Exec.latest {db db' : ρ → V} {es : List (Entry α ρ V)} (h : Exec db es db')
    (hs : es.Pairwise fun d e => d.ts < e.ts) :
    (∀ e ∈ es, ∀ p ∈ e.reads, LatestBelow db es e.ts p.1 p.2) ∧
      ∀ r bound, (∀ e ∈ es, e.ts < bound) → LatestBelow db es bound r (db' r) := by
  induction h with
  | nil => exact ⟨nofun, fun r bound _ => .inr ⟨nofun, rfl⟩⟩
  | @snoc es db' e h hr ih =>
    obtain ⟨hes, -, hlast⟩ := List.pairwise_append.1 hs
    have hlt : ∀ d ∈ es, d.ts < e.ts := fun d hd => hlast d hd e List.mem_cons_self
    obtain ⟨ihr, ihd⟩ := ih hes
    refine ⟨fun d hd p hp => ?_, fun r bound hb => ?_⟩
    · rcases List.mem_append.1 hd with hd | hd
      · exact (ihr d hd p hp).snoc fun h' => absurd h' (Nat.lt_asymm (hlt d hd))
      · obtain rfl := List.mem_singleton.1 hd
        rw [← hr p hp]
        exact (ihd p.1 d.ts hlt).snoc fun h' => absurd h' (Nat.lt_irrefl _)
    · have hbe := hb e (List.mem_append_right _ List.mem_cons_self)
      rcases install_cases e.writes db' r with hw | ⟨hno, heq⟩
      · refine .inl ⟨e, List.mem_append_right _ List.mem_cons_self, hbe, hw, fun d hd _ _ => ?_⟩
        rcases List.mem_append.1 hd with hd | hd
        · exact Nat.le_of_lt (hlt d hd)
        · exact Nat.le_of_eq (congrArg Entry.ts (List.mem_singleton.1 hd))
      · rw [heq]
        refine (ihd r bound fun d hd => hb d (List.mem_append_left _ hd)).snoc fun _ hw => ?_
        obtain ⟨v, hv⟩ := hw
        exact hno _ hv rfl

omit [DecidableEq ρ] in
/-- An entry that is not below the bound was not looked at. -/
theorem LatestBelow.of_snoc {db : ρ → V} {es : List (Entry α ρ V)} {bound : Nat} {r : ρ} {v : V} {e : Entry α ρ V}
    (h : LatestBelow db (es ++ [e]) bound r v) (he : bound ≤ e.ts) : LatestBelow db es bound r v := by
  rcases h with ⟨w, hw, hlt, hv, hmax⟩ | ⟨hno, hv⟩
  · refine .inl ⟨w, ?_, hlt, hv, fun d hd => hmax d (List.mem_append_left _ hd)⟩
    rcases List.mem_append.1 hw with hw | hw
    · exact hw
    · rw [List.mem_singleton.1 hw] at hlt
      exact absurd hlt (Nat.not_lt.2 he)
  · exact .inr ⟨fun d hd => hno d (List.mem_append_left _ hd), hv⟩

omit [DecidableEq ρ] in
/-- There is one latest value if the numbers are distinct and no entry writes an item twice. -/
theorem LatestBelow.unique {db : ρ → V} {es : List (Entry α ρ V)} {bound : Nat} {r : ρ} {v v' : V}
    (hs : es.Pairwise fun d e => d.ts < e.ts) (hnd : ∀ e ∈ es, (e.writes.map Prod.fst).Nodup)
    (h : LatestBelow db es bound r v) (h' : LatestBelow db es bound r v') : v = v' := by
  rcases h with ⟨w, hw, hlt, hv, hmax⟩ | ⟨hno, rfl⟩ <;> rcases h' with ⟨w', hw', hlt', hv', hmax'⟩ | ⟨hno', rfl⟩
  · have hts : w.ts = w'.ts := Nat.le_antisymm (hmax' w hw hlt ⟨v, hv⟩) (hmax w' hw' hlt' ⟨v', hv'⟩)
    have hdistinct : (es.map Entry.ts).Nodup := List.pairwise_map.2 (hs.imp Nat.ne_of_lt)
    obtain rfl := List.inj_on_of_nodup_map hdistinct hw hw' hts
    have hinj := List.inj_on_of_nodup_map (hnd w hw) hv hv' rfl
    exact congrArg Prod.snd hinj
  · exact absurd ⟨v, hv⟩ (hno' w hw hlt)
  · exact absurd ⟨v', hv'⟩ (hno w' hw' hlt')
  · rfl

/-- Entries in the order of their numbers that read what the latest writers below them wrote can be executed one
after the other. -/
theorem Exec.of_latest {db : ρ → V} {es : List (Entry α ρ V)} (hs : es.Pairwise fun d e => d.ts < e.ts)
    (hnd : ∀ e ∈ es, (e.writes.map Prod.fst).Nodup)
    (hr : ∀ e ∈ es, ∀ p ∈ e.reads, LatestBelow db es e.ts p.1 p.2) : ∃ db', Exec db es db' := by
  induction es using List.reverseRecOn with
  | nil => exact ⟨db, .nil⟩
  | append_singleton es e ih =>
    obtain ⟨hes, -, hlast⟩ := List.pairwise_append.1 hs
    have hlt : ∀ d ∈ es, d.ts < e.ts := fun d hd => hlast d hd e List.mem_cons_self
    have hnd' : ∀ d ∈ es, (d.writes.map Prod.fst).Nodup := fun d hd => hnd d (List.mem_append_left _ hd)
    obtain ⟨db', hdb⟩ := ih hes hnd' fun d hd p hp =>
      (hr d (List.mem_append_left _ hd) p hp).of_snoc (Nat.le_of_lt (hlt d hd))
    refine ⟨_, hdb.snoc fun p hp => ?_⟩
    exact ((hdb.latest hes).2 p.1 e.ts hlt).unique hes hnd'
      ((hr e (List.mem_append_right _ List.mem_cons_self) p hp).of_snoc (Nat.le_refl _))

omit [DecidableEq ρ] in
theorem exists_bound (es : List (Entry α ρ V)) (n : Nat) : ∃ bound, n < bound ∧ ∀ e ∈ es, e.ts < bound := by
  induction es with
  | nil => exact ⟨n + 1, Nat.lt_succ_self n, nofun⟩
  | cons e es ih =>
    obtain ⟨b, hn, hb⟩ := ih
    refine ⟨b + e.ts + 1, by omega, List.forall_mem_cons.2 ⟨by omega, fun d hd => ?_⟩⟩
    have := hb d hd
    omega

/-! ### Reads and writes by item -/

/-- The values that `f` has for the items `rs`. -/
def valuesOf (f : ρ → Option V) (rs : List ρ) : List (ρ × V) := rs.filterMap fun r => (f r).map fun v => (r, v)

omit [DecidableEq ρ] in
theorem mem_valuesOf {f : ρ → Option V} {rs : List ρ} {r : ρ} {v : V} :
    (r, v) ∈ valuesOf f rs ↔ r ∈ rs ∧ f r = some v := by
  simp only [valuesOf, List.mem_filterMap, Option.map_eq_some_iff, Prod.mk.injEq]
  constructor
  · rintro ⟨q, hq, w, hw, rfl, rfl⟩
    exact ⟨hq, hw⟩
  · rintro ⟨hr, hv⟩
    exact ⟨r, hr, v, hv, rfl, rfl⟩

omit [DecidableEq ρ] in
theorem nodup_valuesOf {f : ρ → Option V} {rs : List ρ} (h : rs.Nodup) : ((valuesOf f rs).map Prod.fst).Nodup := by
  induction rs with
  | nil => exact List.nodup_nil
  | cons r rs ih =>
    obtain ⟨hr, hrs⟩ := List.nodup_cons.1 h
    cases hf : f r with
    | none =>
      rw [valuesOf, List.filterMap_cons_none (by rw [hf]; rfl)]
      exact ih hrs
    | some v =>
      rw [valuesOf, List.filterMap_cons_some (b := (r, v)) (by rw [hf]; rfl), List.map_cons, List.nodup_cons]
      refine ⟨fun hmem => hr ?_, ih hrs⟩
      obtain ⟨⟨q, w⟩, hq, rfl⟩ := List.mem_map.1 hmem
      exact (mem_valuesOf.1 hq).1

/-! ### Conflicts -/

/-- One read or write of the item `row`, at its place `time` in the history. -/
structure Op (α ρ : Type*) where
  time : Nat
  txn : α
  row : ρ
  write : Bool
deriving DecidableEq, Repr

/-- An operation of `a` precedes an operation of `b` on the same item, and one of the two is a write. -/
def Conflict (ops : List (Op α ρ)) (a b : α) : Prop :=
  a ≠ b ∧ ∃ o ∈ ops, ∃ p ∈ ops, o.txn = a ∧ p.txn = b ∧ o.row = p.row ∧ o.time < p.time ∧
    (o.write = true ∨ p.write = true)

/-- The transactions of `committed` are conflict-serializable: no cycle of conflicts among them. -/
def ConflictSerializable (ops : List (Op α ρ)) (committed : α → Prop) : Prop :=
  ∀ a, ¬ Relation.TransGen (fun a b => committed a ∧ committed b ∧ Conflict ops a b) a a

/-- `a` read an item that `b` wrote after that. -/
def ReadBefore (ops : List (Op α ρ)) (a b : α) : Prop :=
  ∃ o ∈ ops, ∃ p ∈ ops, o.txn = a ∧ p.txn = b ∧ o.row = p.row ∧ o.time < p.time ∧ o.write = false ∧ p.write = true

/-- `a` wrote an item that another transaction had written since `a` read it. -/
def LostUpdate (ops : List (Op α ρ)) (a : α) : Prop :=
  ∃ o ∈ ops, ∃ q ∈ ops, ∃ p ∈ ops, o.txn = a ∧ q.txn ≠ a ∧ p.txn = a ∧ o.row = q.row ∧ q.row = p.row ∧
    o.time < q.time ∧ q.time < p.time ∧ o.write = false ∧ q.write = true ∧ p.write = true

omit [DecidableEq ρ] in
theorem conflictSerializable_of_rank {ops : List (Op α ρ)} {committed : α → Prop} {rank : α → Nat}
    (h : ∀ a b, committed a → committed b → Conflict ops a b → rank a < rank b) :
    ConflictSerializable ops committed := by
  have hlt : ∀ {a b}, Relation.TransGen (fun a b => committed a ∧ committed b ∧ Conflict ops a b) a b →
      rank a < rank b := by
    intro a b hab
    induction hab with
    | single hc => exact h _ _ hc.1 hc.2.1 hc.2.2
    | tail _ hc ih => exact Nat.lt_trans ih (h _ _ hc.1 hc.2.1 hc.2.2)
  exact fun a ha => Nat.lt_irrefl _ (hlt ha)

namespace ConflictSerializable

variable {ops : List (Op α ρ)} {committed : α → Prop} {a b : α}

omit [DecidableEq ρ]

theorem not_conflict_symm (h : ConflictSerializable ops committed) (ha : committed a) (hb : committed b)
    (hab : Conflict ops a b) : ¬ Conflict ops b a := by
  intro hba
  exact h a (.tail (.single ⟨ha, hb, hab⟩) ⟨hb, ha, hba⟩)

theorem not_readBefore_symm (h : ConflictSerializable ops committed) (ha : committed a) (hb : committed b)
    (hne : a ≠ b) (hab : ReadBefore ops a b) : ¬ ReadBefore ops b a := by
  rintro ⟨p, hp, q, hq, hpb, hqa, hrow', htime', -, hqw⟩
  obtain ⟨o, ho, w, hw, hoa, hwb, hrow, htime, -, hww⟩ := hab
  exact h.not_conflict_symm ha hb ⟨hne, o, ho, w, hw, hoa, hwb, hrow, htime, .inr hww⟩
    ⟨hne.symm, p, hp, q, hq, hpb, hqa, hrow', htime', .inr hqw⟩

theorem not_lostUpdate (h : ConflictSerializable ops committed) (hw : ∀ q ∈ ops, q.write = true → committed q.txn)
    (ha : committed a) : ¬ LostUpdate ops a := by
  rintro ⟨o, ho, q, hq, p, hp, hoa, hqa, hpa, hrow, hrow', htime, htime', -, hqw, hpw⟩
  exact h.not_conflict_symm ha (hw q hq hqw) ⟨hqa.symm, o, ho, q, hq, hoa, rfl, hrow, htime, .inr hqw⟩
    ⟨hqa, q, hq, p, hp, rfl, hpa, hrow', htime', .inr hpw⟩

end ConflictSerializable

end Serial
