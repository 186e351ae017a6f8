import Mathlib.Data.List.Nodup
import Dbx1000.OccRow

/-!
# Validation per row is serializable

The transactions that passed `per_row_validate`, executed one after the other in the order of their
`end_ts`, read what they have read and leave the rows as they are (`per_row_validate_serializable`). The
invariant `OccInv` follows the rows against the database `db` of that execution: `db` is ahead of the rows
that a committed transaction still has to write, whose latches it holds.
-/

namespace Dbx1000

/-! ### What a transaction holds -/

namespace OccPc

variable {V : Type}

/-- The rows whose latches the transaction holds. -/
def held : OccPc V → List RowName
  | .reading _ r _ | .unlatching _ r _ => [r]
  | .locking done _ => done.map OccAccess.row
  | .checking done a _ => (done ++ [a]).map OccAccess.row
  | .writing _ accs _ => accs.map OccAccess.row
  | .releasing todo _ => todo.map OccAccess.row
  | _ => []

/-- The accesses of a transaction that has not passed the validation. -/
def accs : OccPc V → List (OccAccess V)
  | .running accs | .reading accs _ _ | .unlatching accs _ _ => accs
  | .locking done todo => done ++ todo
  | .checking done a todo => done ++ a :: todo
  | _ => []

/-- The accesses that are latched and validated. -/
def checked : OccPc V → List (OccAccess V)
  | .locking done _ | .checking done _ _ => done
  | _ => []

/-- `end_ts` of a transaction that is writing, and the accesses it has yet to write. -/
def writes : OccPc V → Option (Nat × List (OccAccess V))
  | .writing endTs _ todo => some (endTs, todo.filter fun a => a.type = .wr)
  | _ => none

/-- The transaction has passed the validation. -/
def Committed : OccPc V → Prop
  | .writing .. => True
  | .releasing _ rc | .finished rc => rc = .rcok
  | _ => False

end OccPc

/-- One transaction against the rows. -/
structure OccTxnOk {V : Type} (rows : RowName → RowOcc V) (start : Nat) (pc : OccPc V) : Prop where
  nodup : (pc.accs.map OccAccess.row).Nodup
  fresh : ∀ accs r type, pc = .reading accs r type → ∀ a ∈ accs, a.row ≠ r
  heldNodup : pc.held.Nodup
  read : ∀ a ∈ pc.accs, (rows a.row).wts ≤ start → (rows a.row).data = a.orig
  checked : ∀ a ∈ pc.checked, a ∈ pc.accs ∧ a.row ∈ pc.held ∧ (rows a.row).wts ≤ start
  writes : ∀ e todo, pc.writes = some (e, todo) → ∀ a ∈ todo, a.row ∈ pc.held ∧ (rows a.row).wts < e
  writesNodup : ∀ e todo, pc.writes = some (e, todo) → (todo.map OccAccess.row).Nodup

/-- The entries of the log can be executed one after the other. The database that this leaves is what the rows
are, except for those that somebody still has to write: there it has what will be written. -/
def OccExec {V : Type} (v₀ : RowName → V) (rows : RowName → RowOcc V) (pc : Nat → OccPc V)
    (log : List (Serial.Entry Nat RowName V)) : Prop :=
  ∃ db, Serial.Exec v₀ log db ∧
    (∀ r, (∀ t e todo, (pc t).writes = some (e, todo) → ∀ a ∈ todo, a.row ≠ r) → (rows r).data = db r) ∧
    ∀ t e todo, (pc t).writes = some (e, todo) → ∀ a ∈ todo, db a.row = a.data

structure OccInv {V : Type} (v₀ : RowName → V) (s : OccSys V) : Prop where
  latch : ∀ t r, r ∈ (s.pc t).held ↔ (s.rows r).latch = some t
  txn : ∀ t, OccTxnOk s.rows (s.startTs t) (s.pc t)
  pos : 0 < s.timestamp
  start : ∀ t, s.startTs t < s.timestamp
  wts : ∀ r, (s.rows r).wts < s.timestamp
  ends : ∀ t e todo, (s.pc t).writes = some (e, todo) → e < s.timestamp
  later : ∀ w t e todo, (s.pc w).writes = some (e, todo) → ∀ a ∈ (s.pc t).accs, a.row ∈ (s.pc w).held → s.startTs t < e
  committed : ∀ t, (∃ e ∈ s.log, e.txn = t) ↔ (s.pc t).Committed
  once : (s.log.map Serial.Entry.txn).Nodup
  sorted : s.log.Pairwise fun d e => d.ts < e.ts
  bound : ∀ e ∈ s.log, e.ts < s.timestamp
  exec : OccExec v₀ s.rows s.pc s.log

variable {V : Type} {v₀ : RowName → V} {s s' : OccSys V} {t : Nat}

theorem OccTxnOk.congr {rows rows' : RowName → RowOcc V} {start : Nat} {pc : OccPc V} (hok : OccTxnOk rows start pc)
    (hrows : ∀ r, (rows' r).wts = (rows r).wts ∧ (rows' r).data = (rows r).data) : OccTxnOk rows' start pc where
  nodup := hok.nodup
  fresh := hok.fresh
  heldNodup := hok.heldNodup
  read a ha := by rw [(hrows a.row).1, (hrows a.row).2]; exact hok.read a ha
  checked a ha := by rw [(hrows a.row).1]; exact hok.checked a ha
  writes e todo hw a ha := by rw [(hrows a.row).1]; exact hok.writes e todo hw a ha
  writesNodup := hok.writesNodup

/-- A transaction that has accessed nothing. -/
theorem OccTxnOk.empty {rows : RowName → RowOcc V} {start : Nat} {pc : OccPc V} (ha : pc.accs = []) (hh : pc.held = [])
    (hc : pc.checked = []) (hw : pc.writes = none) : OccTxnOk rows start pc := by
  constructor
  case fresh =>
    rintro accs r type rfl
    rw [show accs = [] from ha]
    exact nofun
  all_goals simp [ha, hh, hc, hw]

/-! ### One transaction -/

theorem nodup_of_sublist {l l' : List (OccAccess V)} (h : List.Sublist l' l) (hnd : (l.map OccAccess.row).Nodup) :
    (l'.map OccAccess.row).Nodup :=
  hnd.sublist (h.map _)

namespace OccTxnOk

variable {rows : RowName → RowOcc V} {start : Nat} {accs done todo : List (OccAccess V)} {a : OccAccess V}
  {r : RowName} {type : AccessT} {rc : RC}

/-- A transaction that has validated and written nothing. -/
theorem unchecked {pc : OccPc V} (hc : pc.checked = []) (hw : pc.writes = none)
    (fresh : ∀ accs r type, pc = .reading accs r type → ∀ a ∈ accs, a.row ≠ r)
    (nodup : (pc.accs.map OccAccess.row).Nodup) (heldNodup : pc.held.Nodup)
    (read : ∀ a ∈ pc.accs, (rows a.row).wts ≤ start → (rows a.row).data = a.orig) : OccTxnOk rows start pc :=
  ⟨nodup, fresh, heldNodup, read, by simp [hc], by simp [hw], by simp [hw]⟩

theorem reading (hok : OccTxnOk rows start (.running accs)) (hnew : ∀ a ∈ accs, a.row ≠ r) :
    OccTxnOk rows start (.reading accs r type) := by
  refine .unchecked rfl rfl ?_ hok.nodup (List.nodup_singleton r) hok.read
  rintro accs' r' type' h
  cases h
  exact hnew

/-- The row is not copied. -/
theorem readAbort (hok : OccTxnOk rows start (.reading accs r type)) :
    OccTxnOk rows start (.unlatching accs r rc) :=
  .unchecked rfl rfl (by simp) hok.nodup hok.heldNodup hok.read

theorem copied (hok : OccTxnOk rows start (.reading accs r type)) :
    OccTxnOk rows start (.unlatching (accs ++ [⟨r, type, (rows r).data, (rows r).data⟩]) r rc) := by
  refine .unchecked rfl rfl (by simp) ?_ hok.heldNodup fun b hb => ?_
  · show ((accs ++ [_]).map OccAccess.row).Nodup
    rw [List.map_append]
    refine List.nodup_append.2 ⟨hok.nodup, List.nodup_singleton _, fun x hx y hy => ?_⟩
    obtain ⟨b, hb, rfl⟩ := List.mem_map.1 hx
    rw [List.mem_singleton.1 hy]
    exact hok.fresh accs r type rfl b hb
  · rcases List.mem_append.1 hb with hb | hb
    · exact hok.read b hb
    · rw [List.mem_singleton.1 hb]
      exact fun _ => rfl

/-- A running transaction whose accesses are those it had, up to their order and the bytes it has changed. -/
theorem running {accs' : List (OccAccess V)} {pc : OccPc V} (hok : OccTxnOk rows start pc)
    (hnd : (accs'.map OccAccess.row).Nodup)
    (h : ∀ a ∈ accs', ∃ b ∈ pc.accs, b.row = a.row ∧ b.orig = a.orig) : OccTxnOk rows start (.running accs') := by
  refine .unchecked rfl rfl (by simp) hnd List.nodup_nil fun a ha => ?_
  obtain ⟨b, hb, hbr, hbo⟩ := h a ha
  rw [← hbr, ← hbo]
  exact hok.read b hb

/-- The accesses are sorted, and nothing is latched yet. -/
theorem sorted {accs' : List (OccAccess V)} (hok : OccTxnOk rows start (.running accs)) (hperm : accs'.Perm accs) :
    OccTxnOk rows start (.locking [] accs') :=
  .unchecked rfl rfl (by simp) ((hperm.map OccAccess.row).nodup_iff.2 hok.nodup) List.nodup_nil
    fun a ha => hok.read a (hperm.mem_iff.1 ha)

theorem latched (hok : OccTxnOk rows start (.locking done (a :: todo))) :
    OccTxnOk rows start (.checking done a todo) := by
  have hnd : ((done ++ a :: todo).map OccAccess.row).Nodup := hok.nodup
  refine ⟨hnd, by simp, nodup_of_sublist ?_ hnd, hok.read, fun b hb => ?_, by simp [OccPc.writes],
    by simp [OccPc.writes]⟩
  · have hsub := List.sublist_append_left (done ++ [a]) todo
    rwa [← List.append_cons] at hsub
  · obtain ⟨h1, -, h3⟩ := hok.checked b hb
    exact ⟨h1, List.mem_map_of_mem (List.mem_append_left _ hb), h3⟩

theorem accs_locking (done todo : List (OccAccess V)) (a : OccAccess V) :
    (OccPc.locking (done ++ [a]) todo).accs = (OccPc.checking done a todo).accs :=
  (List.append_cons ..).symm

theorem validated (hok : OccTxnOk rows start (.checking done a todo)) (hle : (rows a.row).wts ≤ start) :
    OccTxnOk rows start (.locking (done ++ [a]) todo) := by
  have haccs := accs_locking done todo a
  refine ⟨haccs ▸ hok.nodup, by simp, hok.heldNodup, haccs ▸ hok.read, fun b hb => ?_, by simp [OccPc.writes],
    by simp [OccPc.writes]⟩
  rw [haccs]
  rcases List.mem_append.1 hb with hb' | hb'
  · exact hok.checked b hb'
  · obtain rfl := List.mem_singleton.1 hb'
    exact ⟨List.mem_append_right _ List.mem_cons_self, List.mem_map_of_mem hb, hle⟩

theorem releasing (hnd : (todo.map OccAccess.row).Nodup) : OccTxnOk rows start (.releasing todo rc) :=
  .unchecked rfl rfl (by simp) List.nodup_nil hnd (by simp [OccPc.accs])

end OccTxnOk

namespace OccInv

theorem init (v₀ : RowName → V) : OccInv v₀ (OccSys.init v₀) where
  latch t r := by simp [OccSys.init, OccPc.held]
  txn t := .empty rfl rfl rfl rfl
  pos := Nat.one_pos
  start t := Nat.one_pos
  wts r := Nat.one_pos
  ends := nofun
  later := nofun
  committed t := by simp [OccSys.init, OccPc.Committed]
  once := List.nodup_nil
  sorted := .nil
  bound := nofun
  exec := ⟨v₀, .nil, fun _ _ => rfl, nofun⟩

/-- The rows keep their bytes, and nobody has more or less to write. -/
theorem exec_move (hi : OccInv v₀ s) {pc : OccPc V} {rows : RowName → RowOcc V}
    (hrows : ∀ r, (rows r).data = (s.rows r).data) (hw : ∀ x, pc.writes = some x → (s.pc t).writes = some x)
    (hend : ∀ e todo, (s.pc t).writes = some (e, todo) → pc.writes = some (e, todo) ∨ todo = []) :
    OccExec v₀ rows (Function.update s.pc t pc) s.log := by
  have hself : Function.update s.pc t pc t = pc := Function.update_self ..
  obtain ⟨db, hex, hdb, hpend⟩ := hi.exec
  refine ⟨db, hex, fun r hr => ?_, fun w e todo h => ?_⟩
  · rw [hrows]
    refine hdb r fun w e todo h a ha => ?_
    by_cases hne : w = t
    · rw [hne] at h
      rcases hend e todo h with h' | rfl
      · exact hr t e todo ((congrArg OccPc.writes hself).trans h') a ha
      · cases ha
    · exact hr w e todo ((congrArg OccPc.writes (Function.update_of_ne hne ..)).trans h) a ha
  · by_cases hne : w = t
    · rw [hne] at h
      exact hpend t e todo (hw _ ((congrArg OccPc.writes hself).symm.trans h))
    · rw [Function.update_of_ne hne] at h
      exact hpend w e todo h

/-- `t` moves, and the rows keep their bytes and `wts`. -/
theorem move (hi : OccInv v₀ s) (pc : OccPc V) {rows : RowName → RowOcc V} {n : Nat} {start : Nat → Nat}
    (hrows : ∀ r, (rows r).wts = (s.rows r).wts ∧ (rows r).data = (s.rows r).data)
    (hlatch : ∀ r, (r ∈ pc.held ↔ (rows r).latch = some t) ∧
      ∀ t', t' ≠ t → ((rows r).latch = some t' ↔ (s.rows r).latch = some t'))
    (hn : s.timestamp ≤ n) (hstart : start t < n) (hother : ∀ t', t' ≠ t → start t' = s.startTs t')
    (hok : OccTxnOk s.rows (start t) pc)
    (hacc : ∀ a ∈ pc.accs, (∃ b ∈ (s.pc t).accs, b.row = a.row) ∧ start t = s.startTs t ∨
      (s.rows a.row).latch = some t)
    (hw : ∀ x, pc.writes = some x → (s.pc t).writes = some x ∧ pc.held = (s.pc t).held ∧ pc.accs = [])
    (hend : ∀ e todo, (s.pc t).writes = some (e, todo) → pc.writes = some (e, todo) ∨ todo = [])
    (hcom : pc.Committed ↔ (s.pc t).Committed) :
    OccInv v₀ { s with timestamp := n, rows := rows, startTs := start, pc := Function.update s.pc t pc } := by
  have hold : ∀ t', t' ≠ t → Function.update s.pc t pc t' = s.pc t' := fun t' hne => Function.update_of_ne hne ..
  have hself : Function.update s.pc t pc t = pc := Function.update_self ..
  have hwr : ∀ w e todo, (Function.update s.pc t pc w).writes = some (e, todo) → (s.pc w).writes = some (e, todo) ∧
      (Function.update s.pc t pc w).held = (s.pc w).held := by
    intro w e todo h
    by_cases hne : w = t
    · rw [hne, hself] at h ⊢
      exact ⟨(hw _ h).1, (hw _ h).2.1⟩
    · rw [hold w hne] at h ⊢
      exact ⟨h, rfl⟩
  constructor
  case latch =>
    refine (Function.forall_update_iff s.pc (p := fun t' pc => ∀ r, r ∈ pc.held ↔ (rows r).latch = some t')).2
      ⟨fun r => (hlatch r).1, fun t' hne r => ?_⟩
    rw [hi.latch, (hlatch r).2 t' hne]
  case txn =>
    refine (Function.forall_update_iff s.pc (p := fun t' pc => OccTxnOk rows (start t') pc)).2
      ⟨hok.congr hrows, fun t' hne => ?_⟩
    rw [hother t' hne]
    exact (hi.txn t').congr hrows
  case pos => exact Nat.lt_of_lt_of_le hi.pos hn
  case start =>
    intro t'
    by_cases hne : t' = t
    · rw [hne]; exact hstart
    · show start t' < n
      rw [hother t' hne]
      exact Nat.lt_of_lt_of_le (hi.start t') hn
  case wts =>
    intro r
    show (rows r).wts < n
    rw [(hrows r).1]
    exact Nat.lt_of_lt_of_le (hi.wts r) hn
  case ends => exact fun w e todo h => Nat.lt_of_lt_of_le (hi.ends w e todo (hwr w e todo h).1) hn
  case later =>
    intro w t' e todo h a ha hr
    obtain ⟨hws, hheld⟩ := hwr w e todo h
    have hr : a.row ∈ (s.pc w).held := hheld ▸ hr
    by_cases hne : t' = t
    · rw [hne] at ha ⊢
      have ha' : a ∈ pc.accs := hself ▸ ha
      have hwt : w ≠ t := by
        rintro rfl
        rw [(hw _ ((congrArg OccPc.writes hself).symm.trans h)).2.2] at ha'
        cases ha'
      rcases hacc a ha' with ⟨⟨b, hb, hba⟩, hst⟩ | hl
      · show start t < e
        rw [hst]
        exact hi.later w t e todo hws b hb (hba ▸ hr)
      · have := (hi.latch w a.row).1 hr
        rw [hl] at this
        exact absurd (Option.some.inj this).symm hwt
    · have ha : a ∈ (s.pc t').accs := hold t' hne ▸ ha
      show start t' < e
      rw [hother t' hne]
      exact hi.later w t' e todo hws a ha hr
  case committed =>
    exact (Function.forall_update_iff s.pc (p := fun t' pc => (∃ e ∈ s.log, e.txn = t') ↔ pc.Committed)).2
      ⟨(hi.committed t).trans hcom.symm, fun t' _ => hi.committed t'⟩
  case once => exact hi.once
  case sorted => exact hi.sorted
  case bound => exact fun e he => Nat.lt_of_lt_of_le (hi.bound e he) hn
  case exec => exact hi.exec_move (fun r => (hrows r).2) (fun x hx => (hw x hx).1) hend

/-- The latches when `t` moves and holds the same rows. -/
theorem keepLatch (hi : OccInv v₀ s) {pc : OccPc V} (h : ∀ r, r ∈ pc.held ↔ r ∈ (s.pc t).held) (r : RowName) :
    (r ∈ pc.held ↔ (s.rows r).latch = some t) ∧
      ∀ t', t' ≠ t → ((s.rows r).latch = some t' ↔ (s.rows r).latch = some t') :=
  ⟨(h r).trans (hi.latch t r), fun _ _ => .rfl⟩

/-- The latches when `t` locks `r`. -/
theorem addLatch (hi : OccInv v₀ s) {pc : OccPc V} {r : RowName} (hfree : (s.rows r).latch = none)
    (h : ∀ x, x ∈ pc.held ↔ x = r ∨ x ∈ (s.pc t).held) (x : RowName) :
    (x ∈ pc.held ↔ (Function.update s.rows r { s.rows r with latch := some t } x).latch = some t) ∧
      ∀ t', t' ≠ t → ((Function.update s.rows r { s.rows r with latch := some t } x).latch = some t' ↔
        (s.rows x).latch = some t') := by
  by_cases hx : x = r
  · rw [hx, h, Function.update_self, hfree]
    simp only [true_or, Option.some.injEq, reduceCtorEq, iff_false, true_and]
    exact fun t' hne => hne.symm
  · rw [h, Function.update_of_ne hx, ← hi.latch]
    simp [hx]

/-- The latches when `t` unlocks `r`. -/
theorem dropLatch (hi : OccInv v₀ s) {pc : OccPc V} {r : RowName} (hr : r ∈ (s.pc t).held)
    (h : ∀ x, x ∈ pc.held ↔ x ≠ r ∧ x ∈ (s.pc t).held) (x : RowName) :
    (x ∈ pc.held ↔ (Function.update s.rows r { s.rows r with latch := none } x).latch = some t) ∧
      ∀ t', t' ≠ t → ((Function.update s.rows r { s.rows r with latch := none } x).latch = some t' ↔
        (s.rows x).latch = some t') := by
  by_cases hx : x = r
  · rw [hx, h, Function.update_self, (hi.latch t r).1 hr]
    simp only [ne_eq, not_true_eq_false, false_and, reduceCtorEq, Option.some.injEq, false_iff, true_and]
    exact fun t' hne => Ne.symm hne
  · rw [h, Function.update_of_ne hx, ← hi.latch]
    simp [hx]

theorem setLatch_rows (s : OccSys V) (r : RowName) (l : Option Nat) (x : RowName) :
    (Function.update s.rows r { s.rows r with latch := l } x).wts = (s.rows x).wts ∧
      (Function.update s.rows r { s.rows r with latch := l } x).data = (s.rows x).data := by
  by_cases hx : x = r
  · subst hx
    rw [Function.update_self]
    exact ⟨rfl, rfl⟩
  · rw [Function.update_of_ne hx]
    exact ⟨rfl, rfl⟩

/-- A row has one holder. -/
theorem held_unique (hi : OccInv v₀ s) {t' : Nat} {r : RowName} (h : r ∈ (s.pc t).held) (h' : r ∈ (s.pc t').held) :
    t = t' :=
  Option.some.inj (((hi.latch t r).1 h).symm.trans ((hi.latch t' r).1 h'))

/-- A row that `t` holds and is not writing is written by nobody. -/
theorem held_not_writing (hi : OccInv v₀ s) {r : RowName} (hr : r ∈ (s.pc t).held) (hw : (s.pc t).writes = none) :
    ∀ w e todo, (s.pc w).writes = some (e, todo) → ∀ a ∈ todo, a.row ≠ r := by
  rintro w e todo h a ha rfl
  obtain rfl := hi.held_unique hr ((hi.txn w).writes e todo h a ha).1
  rw [hw] at h
  cases h

theorem mem_writes {t endTs : Nat} {accs : List (OccAccess V)} {r : RowName} {v : V} :
    (r, v) ∈ (occEntry t endTs accs).writes ↔ ∃ a ∈ accs, a.type = .wr ∧ a.row = r ∧ a.data = v := by
  simp [occEntry, and_assoc]

/-- Who writes when `t` is at `writing`. -/
theorem writes_update {pcs : Nat → OccPc V} {e e' w : Nat} {accs todo todo' : List (OccAccess V)}
    (h : (Function.update pcs t (.writing e accs todo) w).writes = some (e', todo')) :
    (w = t ∧ e' = e ∧ todo' = todo.filter fun a => a.type = .wr) ∨ (w ≠ t ∧ (pcs w).writes = some (e', todo')) := by
  by_cases hne : w = t
  · rw [hne, Function.update_self] at h
    cases h
    exact .inl ⟨hne, rfl, rfl⟩
  · rw [Function.update_of_ne hne] at h
    exact .inr ⟨hne, h⟩

theorem held_update {pc : OccPc V} (h : pc.held = (s.pc t).held) (w : Nat) :
    (Function.update s.pc t pc w).held = (s.pc w).held := by
  by_cases hne : w = t
  · rw [hne, Function.update_self, h]
  · rw [Function.update_of_ne hne]

/-- Whoever has accessed something is not at `writing`. -/
theorem accs_update {e : Nat} {accs todo : List (OccAccess V)} {t' : Nat} {a : OccAccess V}
    (ha : a ∈ (Function.update s.pc t (.writing e accs todo) t').accs) : t' ≠ t ∧ a ∈ (s.pc t').accs := by
  by_cases hne : t' = t
  · rw [hne, Function.update_self] at ha
    cases ha
  · rw [Function.update_of_ne hne] at ha
    exact ⟨hne, ha⟩

/-! ### The end of a validation -/

/-- A transaction that has checked all its rows, and holds them, has read the latest values. -/
theorem exec_draw (hi : OccInv v₀ s) {done : List (OccAccess V)} (hpc : s.pc t = .locking done []) :
    OccExec v₀ s.rows (Function.update s.pc t (.writing s.timestamp done done.reverse))
      (s.log ++ [occEntry t s.timestamp done]) := by
  have hok := hi.txn t
  have hheld : (s.pc t).held = done.map OccAccess.row := by rw [hpc]; rfl
  have hdone : ∀ a ∈ done, a.row ∈ (s.pc t).held := fun a ha => hheld ▸ List.mem_map_of_mem ha
  have hw : (s.pc t).writes = none := by rw [hpc]; rfl
  have hself : Function.update s.pc t (.writing s.timestamp done done.reverse) t =
    .writing s.timestamp done done.reverse := Function.update_self ..
  obtain ⟨db, hex, hdb, hpend⟩ := hi.exec
  refine ⟨_, hex.snoc ?_, fun r hr => ?_, fun w e todo h a ha => ?_⟩
  · rintro p hp
    obtain ⟨a, ha, rfl⟩ := List.mem_map.1 hp
    have hck := hok.checked a (by rw [hpc]; exact ha)
    rw [← hdb a.row (hi.held_not_writing (hdone a ha) hw)]
    exact hok.read a hck.1 hck.2.2
  · have hno : ∀ p ∈ (occEntry t s.timestamp done).writes, p.1 ≠ r := by
      rintro ⟨x, v⟩ hp rfl
      obtain ⟨a, ha, haw, rfl, -⟩ := mem_writes.1 hp
      refine hr t _ _ (congrArg OccPc.writes hself) a ?_ rfl
      exact List.mem_filter.2 ⟨List.mem_reverse.2 ha, by simpa using haw⟩
    rw [Serial.install_of_notMem hno]
    refine hdb r fun w e todo h => ?_
    have hne : w ≠ t := by
      rintro rfl
      rw [hw] at h
      cases h
    exact hr w e todo ((congrArg OccPc.writes (Function.update_of_ne hne ..)).trans h)
  · rcases writes_update h with ⟨rfl, rfl, rfl⟩ | ⟨hne, h⟩
    · obtain ⟨ha, haw⟩ := List.mem_filter.1 ha
      refine Serial.install_of_mem ?_ (mem_writes.2 ⟨a, List.mem_reverse.1 ha, by simpa using haw, rfl, rfl⟩) db
      have hsub : List.Sublist (done.filter fun a : OccAccess V => a.type = .wr) done := List.filter_sublist
      simpa [occEntry, Function.comp_def] using nodup_of_sublist hsub (hheld ▸ hok.heldNodup)
    · -- the row is latched by `w`, so `t` does not write it
      have hno : ∀ p ∈ (occEntry t s.timestamp done).writes, p.1 ≠ a.row := by
        rintro ⟨x, v⟩ hp hx
        obtain ⟨b, hb, -, rfl, -⟩ := mem_writes.1 hp
        have hbw := ((hi.txn w).writes e todo h a ha).1
        rw [← hx] at hbw
        exact hne (hi.held_unique hbw (hdone b hb))
      rw [Serial.install_of_notMem hno]
      exact hpend w e todo h a ha

/-- All accesses are validated: `t` draws `end_ts` and is in the log. -/
theorem draw (hi : OccInv v₀ s) {done : List (OccAccess V)} (hpc : s.pc t = .locking done []) :
    OccInv v₀ { s.goto t (.writing s.timestamp done done.reverse) with
      timestamp := s.timestamp + 1, log := s.log ++ [occEntry t s.timestamp done] } := by
  have hheld : (OccPc.writing s.timestamp done done.reverse).held = (s.pc t).held := by rw [hpc]; rfl
  have hnd : (done.map OccAccess.row).Nodup := by
    have := (hi.txn t).heldNodup
    rwa [hpc] at this
  constructor
  case latch =>
    intro t' r
    show r ∈ (Function.update s.pc t _ t').held ↔ (s.rows r).latch = some t'
    rw [held_update hheld, hi.latch]
  case txn =>
    refine (Function.forall_update_iff s.pc (p := fun t' pc => OccTxnOk s.rows (s.startTs t') pc)).2
      ⟨⟨List.nodup_nil, nofun, hnd, nofun, nofun, ?_, ?_⟩, fun t' _ => hi.txn t'⟩
    · rintro e todo h a ha
      cases h
      have ha' := List.mem_reverse.1 (List.mem_filter.1 ha).1
      exact ⟨List.mem_map_of_mem ha', hi.wts a.row⟩
    · rintro e todo h
      cases h
      exact nodup_of_sublist List.filter_sublist (by rw [List.map_reverse]; exact List.nodup_reverse.2 hnd)
  case pos => exact Nat.succ_pos _
  case start => exact fun t' => Nat.lt_succ_of_lt (hi.start t')
  case wts => exact fun r => Nat.lt_succ_of_lt (hi.wts r)
  case ends =>
    intro w e todo h
    rcases writes_update h with ⟨-, rfl, -⟩ | ⟨-, h⟩
    · exact Nat.lt_succ_self _
    · exact Nat.lt_succ_of_lt (hi.ends w e todo h)
  case later =>
    intro w t' e todo h a ha hr
    rcases writes_update h with ⟨-, rfl, -⟩ | ⟨-, h⟩
    · exact hi.start t'
    · exact hi.later w t' e todo h a (accs_update ha).2 (held_update hheld w ▸ hr)
  case committed =>
    refine (Function.forall_update_iff s.pc
      (p := fun t' pc => (∃ e ∈ s.log ++ [occEntry t s.timestamp done], e.txn = t') ↔ pc.Committed)).2
      ⟨⟨fun _ => trivial, fun _ => ⟨_, List.mem_append_right _ List.mem_cons_self, rfl⟩⟩, fun t' hne => ?_⟩
    rw [← hi.committed t']
    constructor
    · rintro ⟨e, he, rfl⟩
      rcases List.mem_append.1 he with he | he
      · exact ⟨e, he, rfl⟩
      · rw [List.mem_singleton.1 he] at hne
        exact absurd rfl hne
    · rintro ⟨e, he, het⟩
      exact ⟨e, List.mem_append_left _ he, het⟩
  case once =>
    rw [List.map_append]
    refine List.nodup_append.2 ⟨hi.once, List.nodup_singleton _, fun x hx y hy => ?_⟩
    obtain ⟨e, he, rfl⟩ := List.mem_map.1 hx
    rw [List.mem_singleton.1 hy]
    intro het
    have := (hi.committed t).1 ⟨e, he, het⟩
    rw [hpc] at this
    exact this
  case sorted =>
    refine List.pairwise_append.2 ⟨hi.sorted, List.pairwise_singleton .., fun d hd e he => ?_⟩
    rw [List.mem_singleton.1 he]
    exact hi.bound d hd
  case bound =>
    intro e he
    rcases List.mem_append.1 he with he | he
    · exact Nat.lt_succ_of_lt (hi.bound e he)
    · rw [List.mem_singleton.1 he]
      exact Nat.lt_succ_self _
  case exec => exact hi.exec_draw hpc

/-- The row `a` that `t` writes next: it holds the row, the row is older than `e`, and it is not written again. -/
theorem next_write (hi : OccInv v₀ s) {e : Nat} {accs todo : List (OccAccess V)} {a : OccAccess V}
    (hpc : s.pc t = .writing e accs (a :: todo)) (hwr : a.type = .wr) :
    (s.pc t).writes = some (e, a :: todo.filter fun b => b.type = .wr) ∧ a.row ∈ (s.pc t).held ∧
      (s.rows a.row).wts < e ∧ ∀ b ∈ todo.filter (fun b => b.type = .wr), b.row ≠ a.row := by
  have hw : (s.pc t).writes = some (e, a :: todo.filter fun b => b.type = .wr) := by
    rw [hpc, OccPc.writes, List.filter_cons_of_pos (by simpa using hwr)]
  obtain ⟨hheld, hlt⟩ := (hi.txn t).writes e _ hw a List.mem_cons_self
  have hnd := (hi.txn t).writesNodup e _ hw
  rw [List.map_cons, List.nodup_cons] at hnd
  exact ⟨hw, hheld, hlt, fun b hb hba => hnd.1 (List.mem_map.2 ⟨b, hb, hba⟩)⟩

/-- Another transaction does not notice that `t` writes the row `a`: it does not hold the row, and if it has read
it, it started before `t` drew `e`. -/
theorem txn_write (hi : OccInv v₀ s) {e t' : Nat} {todo : List (OccAccess V)} {a : RowName} {row : RowOcc V}
    (hw : (s.pc t).writes = some (e, todo)) (hheld : a ∈ (s.pc t).held) (hne : t' ≠ t) (hrow : row.wts = e) :
    OccTxnOk (Function.update s.rows a row) (s.startTs t') (s.pc t') := by
  have hok := hi.txn t'
  have hother : ∀ r ∈ (s.pc t').held, Function.update s.rows a row r = s.rows r := by
    intro r hr
    refine Function.update_of_ne ?_ ..
    rintro rfl
    exact hne (hi.held_unique hr hheld)
  refine ⟨hok.nodup, hok.fresh, hok.heldNodup, fun b hb hle => ?_, fun b hb => ?_, fun e' todo' h b hb => ?_,
    hok.writesNodup⟩
  · by_cases hba : b.row = a
    · rw [hba, Function.update_self, hrow] at hle
      exact absurd (hi.later t t' e _ hw b hb (hba ▸ hheld)) (Nat.not_lt.2 hle)
    · rw [Function.update_of_ne hba] at hle ⊢
      exact hok.read b hb hle
  · have hck := hok.checked b hb
    rw [hother _ hck.2.1]
    exact hck
  · have hb' := hok.writes e' todo' h b hb
    rw [hother _ hb'.1]
    exact hb'

/-- The row gets what the serial execution has left there. -/
theorem exec_write (hi : OccInv v₀ s) {e : Nat} {accs todo : List (OccAccess V)} {a : OccAccess V} {row : RowOcc V}
    (hw : (s.pc t).writes = some (e, a :: todo.filter fun b => b.type = .wr)) (hrow : row.data = a.data) :
    OccExec v₀ (Function.update s.rows a.row row) (Function.update s.pc t (.writing e accs todo)) s.log := by
  have hself : Function.update s.pc t (.writing e accs todo) t = .writing e accs todo := Function.update_self ..
  obtain ⟨db, hex, hdb, hpend⟩ := hi.exec
  refine ⟨db, hex, fun r hr => ?_, fun w e' todo' h b hb => ?_⟩
  · by_cases hra : r = a.row
    · rw [hra, Function.update_self, hrow]
      exact (hpend t e _ hw a List.mem_cons_self).symm
    · rw [Function.update_of_ne hra]
      refine hdb r fun w e' todo' h b hb => ?_
      by_cases hne : w = t
      · rw [hne, hw] at h
        cases h
        rcases List.mem_cons.1 hb with rfl | hb
        · exact Ne.symm hra
        · exact hr t e _ (congrArg OccPc.writes hself) b hb
      · exact hr w e' todo' ((congrArg OccPc.writes (Function.update_of_ne hne ..)).trans h) b hb
  · rcases writes_update h with ⟨rfl, rfl, rfl⟩ | ⟨-, h⟩
    · exact hpend w e' _ hw b (List.mem_cons_of_mem _ hb)
    · exact hpend w e' todo' h b hb

/-- `t` writes the next of its `WR` rows. -/
theorem write (hi : OccInv v₀ s) {e : Nat} {accs todo : List (OccAccess V)} {a : OccAccess V}
    (hpc : s.pc t = .writing e accs (a :: todo)) (hwr : a.type = .wr) :
    OccInv v₀ ((s.setRow a.row { s.rows a.row with data := a.data, wts := e }).goto t (.writing e accs todo)) := by
  have hok := hi.txn t
  obtain ⟨hw, hheld, -, hlater⟩ := hi.next_write hpc hwr
  have hsame : (OccPc.writing e accs todo).held = (s.pc t).held := by rw [hpc]; rfl
  -- who writes after the step was writing before it
  have hwrs : ∀ w e' todo', (Function.update s.pc t (.writing e accs todo) w).writes = some (e', todo') →
      ∃ todo'', (s.pc w).writes = some (e', todo'') := by
    intro w e' todo' h
    rcases writes_update h with ⟨rfl, rfl, -⟩ | ⟨-, h⟩
    · exact ⟨_, hw⟩
    · exact ⟨_, h⟩
  constructor
  case latch =>
    intro t' r
    show r ∈ (Function.update s.pc t _ t').held ↔ (Function.update s.rows a.row _ r).latch = some t'
    rw [held_update hsame, hi.latch]
    by_cases hr : r = a.row
    · rw [hr, Function.update_self]
    · rw [Function.update_of_ne hr]
  case txn =>
    refine (Function.forall_update_iff s.pc (p := fun t' pc => OccTxnOk
      (Function.update s.rows a.row { s.rows a.row with data := a.data, wts := e }) (s.startTs t') pc)).2
      ⟨⟨List.nodup_nil, nofun, hsame ▸ hok.heldNodup, nofun, nofun, fun e' todo' h b hb => ?_, fun e' todo' h => ?_⟩,
        fun t' hne => hi.txn_write hw hheld hne rfl⟩
    · cases h
      obtain ⟨h1, h2⟩ := hok.writes e _ hw b (List.mem_cons_of_mem _ hb)
      rw [Function.update_of_ne (hlater b hb), hsame]
      exact ⟨h1, h2⟩
    · cases h
      exact nodup_of_sublist (List.sublist_cons_self ..) (hok.writesNodup e _ hw)
  case pos => exact hi.pos
  case start => exact hi.start
  case wts =>
    intro r
    show (Function.update s.rows a.row _ r).wts < s.timestamp
    by_cases hr : r = a.row
    · rw [hr, Function.update_self]
      exact hi.ends t e _ hw
    · rw [Function.update_of_ne hr]
      exact hi.wts r
  case ends =>
    intro w e' todo' h
    obtain ⟨todo'', h'⟩ := hwrs w e' todo' h
    exact hi.ends w e' todo'' h'
  case later =>
    intro w t' e' todo' h b hb hr
    obtain ⟨todo'', h'⟩ := hwrs w e' todo' h
    exact hi.later w t' e' todo'' h' b (accs_update hb).2 (held_update hsame w ▸ hr)
  case committed =>
    refine (Function.forall_update_iff s.pc (p := fun t' pc => (∃ e ∈ s.log, e.txn = t') ↔ pc.Committed)).2
      ⟨?_, fun t' _ => hi.committed t'⟩
    rw [hi.committed t, hpc]
    exact .rfl
  case once => exact hi.once
  case sorted => exact hi.sorted
  case bound => exact hi.bound
  case exec => exact hi.exec_write hw rfl

/-- `t` moves before it has drawn `end_ts`; it may lock or unlock a latch. -/
theorem moveEarly (hi : OccInv v₀ s) {pc₀ : OccPc V} (hpc : s.pc t = pc₀) (pc : OccPc V) {rows : RowName → RowOcc V}
    (hold : pc₀.writes = none ∧ ¬ pc₀.Committed) (hnew : pc.writes = none ∧ ¬ pc.Committed)
    (hrows : ∀ r, (rows r).wts = (s.rows r).wts ∧ (rows r).data = (s.rows r).data)
    (hlatch : ∀ r, (r ∈ pc.held ↔ (rows r).latch = some t) ∧
      ∀ t', t' ≠ t → ((rows r).latch = some t' ↔ (s.rows r).latch = some t'))
    (hok : OccTxnOk s.rows (s.startTs t) pc)
    (hacc : ∀ a ∈ pc.accs, (∃ b ∈ pc₀.accs, b.row = a.row) ∨ (s.rows a.row).latch = some t) :
    OccInv v₀ ({ s with rows := rows }.goto t pc) := by
  subst hpc
  refine hi.move pc hrows hlatch (Nat.le_refl _) (hi.start t) (fun _ _ => rfl) hok
    (fun a ha => (hacc a ha).imp_left fun h => ⟨h, rfl⟩) ?_ ?_ (iff_of_false hnew.2 hold.2)
  · simp [hnew.1]
  · simp [hold.1]

/-- The same, when the latches stay as they are. -/
theorem gotoEarly (hi : OccInv v₀ s) {pc₀ : OccPc V} (hpc : s.pc t = pc₀) (pc : OccPc V)
    (hold : pc₀.writes = none ∧ ¬ pc₀.Committed) (hnew : pc.writes = none ∧ ¬ pc.Committed)
    (hheld : pc.held = pc₀.held) (hok : OccTxnOk s.rows (s.startTs t) pc)
    (hacc : ∀ a ∈ pc.accs, (∃ b ∈ pc₀.accs, b.row = a.row) ∨ (s.rows a.row).latch = some t) :
    OccInv v₀ (s.goto t pc) :=
  hi.moveEarly hpc pc hold hnew (fun _ => ⟨rfl, rfl⟩) (hi.keepLatch (by rw [hpc, hheld]; exact fun _ => .rfl)) hok hacc

theorem unlock (hi : OccInv v₀ s) {r : RowName} {rc : RC} {accs : List (OccAccess V)}
    (hpc : s.pc t = .unlatching accs r rc) :
    OccInv v₀ ((s.unlock r).goto t (if rc = .rcok then .running accs else .finished rc)) := by
  have hr : r ∈ (s.pc t).held := by rw [hpc]; exact List.mem_singleton_self r
  have hok := hi.txn t
  rw [hpc] at hok
  by_cases hrc : rc = .rcok
  · rw [if_pos hrc]
    exact hi.moveEarly hpc (.running accs) ⟨rfl, id⟩ ⟨rfl, id⟩ (setLatch_rows s r _)
      (hi.dropLatch hr (by rw [hpc]; simp [OccPc.held])) (hok.running hok.nodup fun a ha => ⟨a, ha, rfl, rfl⟩)
      fun a ha => .inl ⟨a, ha, rfl⟩
  · rw [if_neg hrc]
    exact hi.moveEarly hpc (.finished rc) ⟨rfl, id⟩ ⟨rfl, hrc⟩ (setLatch_rows s r _)
      (hi.dropLatch hr (by rw [hpc]; simp [OccPc.held])) (.empty rfl rfl rfl rfl) (by simp [OccPc.accs])

theorem modify (hi : OccInv v₀ s) {r : RowName} {v : V} {accs : List (OccAccess V)} (hpc : s.pc t = .running accs) :
    OccInv v₀ (s.goto t (.running (accs.map fun a => if a.row = r then { a with data := v } else a))) := by
  have hok := hi.txn t
  rw [hpc] at hok
  have hmap : ∀ a ∈ accs.map fun a => if a.row = r then { a with data := v } else a,
      ∃ b ∈ accs, b.row = a.row ∧ b.orig = a.orig := by
    intro a ha
    obtain ⟨b, hb, rfl⟩ := List.mem_map.1 ha
    refine ⟨b, hb, ?_⟩
    split <;> exact ⟨rfl, rfl⟩
  have hrows : (accs.map fun a => if a.row = r then { a with data := v } else a).map OccAccess.row =
      accs.map OccAccess.row := by
    rw [List.map_map]
    refine List.map_congr_left fun a _ => ?_
    simp only [Function.comp_apply]
    split <;> rfl
  refine hi.gotoEarly hpc _ ⟨rfl, id⟩ ⟨rfl, id⟩ rfl (hok.running (hrows ▸ hok.nodup) hmap) fun a ha => ?_
  obtain ⟨b, hb, hbr, -⟩ := hmap a ha
  exact .inl ⟨b, hb, hbr⟩

/-- An access of another type is passed over. -/
theorem skip (hi : OccInv v₀ s) {e : Nat} {a : OccAccess V} {accs todo : List (OccAccess V)}
    (hpc : s.pc t = .writing e accs (a :: todo)) (hwr : a.type ≠ .wr) :
    OccInv v₀ (s.goto t (.writing e accs todo)) := by
  have hok := hi.txn t
  have hheld : (OccPc.writing e accs todo).held = (s.pc t).held := by rw [hpc]; rfl
  have hw : (OccPc.writing e accs todo).writes = (s.pc t).writes := by
    rw [hpc, OccPc.writes, OccPc.writes, List.filter_cons_of_neg (by simpa using hwr)]
  refine hi.move (.writing e accs todo) (fun _ => ⟨rfl, rfl⟩) (hi.keepLatch (by rw [hheld]; exact fun _ => .rfl))
    (Nat.le_refl _) (hi.start t) (fun _ _ => rfl) ?_ (by simp [OccPc.accs]) ?_ ?_ (by rw [hpc]; exact .rfl)
  · refine ⟨List.nodup_nil, by simp, hheld ▸ hok.heldNodup, by simp [OccPc.accs], by simp [OccPc.checked], ?_, ?_⟩
    · rw [hw, hheld]
      exact hok.writes
    · rw [hw]
      exact hok.writesNodup
  · exact fun x hx => ⟨hw ▸ hx, hheld, rfl⟩
  · exact fun e' todo' h => .inl (hw.trans h)

theorem release (hi : OccInv v₀ s) {a : OccAccess V} {todo : List (OccAccess V)} {rc : RC}
    (hpc : s.pc t = .releasing (a :: todo) rc) : OccInv v₀ ((s.unlock a.row).goto t (.releasing todo rc)) := by
  have hr : a.row ∈ (s.pc t).held := by rw [hpc]; exact List.mem_cons_self
  have hok := hi.txn t
  rw [hpc] at hok
  have hnd := List.nodup_cons.1 (show (a.row :: todo.map OccAccess.row).Nodup from hok.heldNodup)
  refine hi.move (.releasing todo rc) (setLatch_rows s a.row _) (hi.dropLatch hr ?_) (Nat.le_refl _) (hi.start t)
    (fun _ _ => rfl) (.releasing hnd.2) (by simp [OccPc.accs]) (by simp [OccPc.writes]) ?_ ?_ <;> rw [hpc]
  · intro x
    refine ⟨fun hx => ⟨?_, List.mem_cons_of_mem _ hx⟩, fun ⟨hne, hx⟩ => (List.mem_cons.1 hx).resolve_left hne⟩
    rintro rfl
    exact hnd.1 hx
  · simp [OccPc.writes]
  · exact .rfl

theorem step (hi : OccInv v₀ s) {ev : OccEv V} (h : s.step ev = some s') : OccInv v₀ s' := by
  have htxn : ∀ {t pc}, s.pc t = pc → OccTxnOk s.rows (s.startTs t) pc := fun {t pc} hpc => hpc ▸ hi.txn t
  cases OccStep.of_step h with
  | @fetch t hpc =>
    refine hi.move .fetched (fun _ => ⟨rfl, rfl⟩) (hi.keepLatch ?_) (Nat.le_succ _) (Nat.lt_succ_of_lt (hi.start t))
      (fun _ _ => rfl) (.empty rfl rfl rfl rfl) (by simp [OccPc.accs]) (by simp [OccPc.writes]) ?_ ?_ <;> rw [hpc]
    · exact fun _ => .rfl
    · simp [OccPc.writes]
    · exact .rfl
  | @start t hpc =>
    refine hi.move (.running []) (fun _ => ⟨rfl, rfl⟩) (hi.keepLatch ?_) (Nat.le_succ _) ?_ ?_ (.empty rfl rfl rfl rfl)
      (by simp [OccPc.accs]) (by simp [OccPc.writes]) ?_ ?_
    · rw [hpc]; exact fun _ => .rfl
    · rw [Function.update_self]; exact Nat.lt_succ_self _
    · exact fun t' hne => Function.update_of_ne hne ..
    · simp [hpc, OccPc.writes]
    · rw [hpc]; exact .rfl
  | @lock t r type accs hpc hnew hfree =>
    exact hi.moveEarly hpc (.reading accs r type) ⟨rfl, id⟩ ⟨rfl, id⟩ (setLatch_rows s r _)
      (hi.addLatch hfree (by rw [hpc]; simp [OccPc.held])) ((htxn hpc).reading hnew) fun a ha => .inl ⟨a, ha, rfl⟩
  | @readAbort t r type accs hpc =>
    exact hi.gotoEarly hpc _ ⟨rfl, id⟩ ⟨rfl, id⟩ rfl (htxn hpc).readAbort fun a ha => .inl ⟨a, ha, rfl⟩
  | @read t r type accs hpc hle =>
    have hl : (s.rows r).latch = some t := (hi.latch t r).1 (by rw [hpc]; exact List.mem_singleton_self r)
    refine hi.gotoEarly hpc _ ⟨rfl, id⟩ ⟨rfl, id⟩ rfl (htxn hpc).copied fun a ha => ?_
    rcases List.mem_append.1 ha with ha | ha
    · exact .inl ⟨a, ha, rfl⟩
    · rw [List.mem_singleton.1 ha]
      exact .inr hl
  | unlock hpc => exact hi.unlock hpc
  | modify hpc => exact hi.modify hpc
  | @validate t accs accs' hpc hperm =>
    exact hi.gotoEarly hpc _ ⟨rfl, id⟩ ⟨rfl, id⟩ rfl ((htxn hpc).sorted hperm)
      fun a ha => .inl ⟨a, hperm.mem_iff.1 ha, rfl⟩
  | @latch t a done todo hpc hfree =>
    exact hi.moveEarly hpc (.checking done a todo) ⟨rfl, id⟩ ⟨rfl, id⟩ (setLatch_rows s a.row _)
      (hi.addLatch hfree (by rw [hpc]; simp [OccPc.held, or_comm])) (htxn hpc).latched fun b hb => .inl ⟨b, hb, rfl⟩
  | @check t a done todo hpc hle =>
    refine hi.gotoEarly hpc _ ⟨rfl, id⟩ ⟨rfl, id⟩ rfl ((htxn hpc).validated hle) ?_
    rw [OccTxnOk.accs_locking]
    exact fun b hb => .inl ⟨b, hb, rfl⟩
  | @checkAbort t a done todo hpc =>
    exact hi.gotoEarly hpc _ ⟨rfl, id⟩ ⟨rfl, by simp [OccPc.Committed]⟩ rfl (.releasing (htxn hpc).heldNodup)
      (by simp [OccPc.accs])
  | drawEnd hpc => exact hi.draw hpc
  | write hpc hwr => exact hi.write hpc hwr
  | skip hpc hwr => exact hi.skip hpc hwr
  | @written t e accs hpc =>
    refine hi.move (.releasing accs .rcok) (fun _ => ⟨rfl, rfl⟩) (hi.keepLatch (by rw [hpc]; exact fun _ => .rfl))
      (Nat.le_refl _) (hi.start t) (fun _ _ => rfl) (.releasing (htxn hpc).heldNodup) (by simp [OccPc.accs])
      (by simp [OccPc.writes]) ?_ ?_ <;> rw [hpc]
    · intro e' todo' h
      cases h
      exact .inr rfl
    · exact iff_of_true rfl trivial
  | release hpc => exact hi.release hpc
  | @finish t rc hpc =>
    refine hi.move (.finished rc) (fun _ => ⟨rfl, rfl⟩) (hi.keepLatch (by rw [hpc]; exact fun _ => .rfl))
      (Nat.le_refl _) (hi.start t) (fun _ _ => rfl) (.empty rfl rfl rfl rfl) (by simp [OccPc.accs])
      (by simp [OccPc.writes]) ?_ ?_ <;> rw [hpc]
    · simp [OccPc.writes]
    · exact .rfl

theorem reach {G : OccSys V → OccEv V → Prop} (h : (OccSys.lts v₀).Reach G s) : OccInv v₀ s :=
  h.inv (fun _ h0 => by rw [h0]; exact .init v₀) fun _ _ _ hi _ hs => hi.step hs

end OccInv

/-- The transactions that pass the validation are in the log, in the order of their `end_ts`, and executed one
after the other they read what they have read: every value is the one of the latest writer with a smaller
`end_ts`. The rows that nobody holds are what this execution leaves, and `assert(ts > wts)` does not fail. -/
theorem per_row_validate_serializable (v₀ : RowName → V) (h : (OccSys.lts v₀).Reach Lts.Any s) :
    (∀ t, (∃ e ∈ s.log, e.txn = t) ↔ (s.pc t).Committed) ∧ (s.log.map Serial.Entry.txn).Nodup ∧
    s.log.Pairwise (fun d e => d.ts < e.ts) ∧
    (∃ db, Serial.Exec v₀ s.log db ∧ ∀ r, (s.rows r).latch = none → (s.rows r).data = db r) ∧
    (∀ e ∈ s.log, ∀ p ∈ e.reads, Serial.LatestBelow v₀ s.log e.ts p.1 p.2) ∧
    ∀ t e accs a todo, s.pc t = .writing e accs (a :: todo) → a.type = .wr → (s.rows a.row).wts < e := by
  have hi := OccInv.reach h
  obtain ⟨db, hex, hdb, -⟩ := hi.exec
  refine ⟨hi.committed, hi.once, hi.sorted, ⟨db, hex, fun r hr => hdb r ?_⟩, (hex.latest hi.sorted).1,
    fun t e accs a todo hpc hwr => (hi.next_write hpc hwr).2.2.1⟩
  rintro t e todo hw a ha rfl
  have hl := (hi.latch t a.row).1 ((hi.txn t).writes e todo hw a ha).1
  rw [hr] at hl
  cases hl

/-- The transaction 0 writes a row, the transaction 1 reads it and writes another one. -/
theorem per_row_validate_two : ∃ s : OccSys Nat, (OccSys.lts fun _ => 0).Reach Lts.Any s ∧
    s.log.map (fun e => (e.txn, e.ts, e.reads)) =
      [(0, 3, [(⟨[], 0⟩, 0)]), (1, 6, [(⟨[], 0⟩, 5), (⟨[], 1⟩, 0)])] ∧
    ∀ e ∈ s.log, ∀ p ∈ e.reads, Serial.LatestBelow (fun _ => 0) s.log e.ts p.1 p.2 := by
  have hrun : ((OccSys.lts fun _ => 0 : Lts (OccSys Nat) _).run (.init fun _ => 0)
      [.fetch 0, .fetch 0, .lock 0 ⟨[], 0⟩ .wr, .read 0, .unlock 0, .modify 0 ⟨[], 0⟩ 5, .validate 0, .latch 0,
        .check 0, .drawEnd 0, .write 0, .write 0, .release 0, .release 0, .fetch 1, .fetch 1, .lock 1 ⟨[], 1⟩ .wr,
        .read 1, .unlock 1, .lock 1 ⟨[], 0⟩ .rd, .read 1, .unlock 1, .validate 1, .latch 1, .check 1, .latch 1,
        .check 1, .drawEnd 1]).any
      (fun s => decide (s.log.map (fun e => (e.txn, e.ts, e.reads)) =
        [(0, 3, [(⟨[], 0⟩, 0)]), (1, 6, [(⟨[], 0⟩, 5), (⟨[], 1⟩, 0)])])) = true := by
    decide +kernel
  simp only [Option.any_eq_true, decide_eq_true_eq] at hrun
  obtain ⟨s, hs, hlog⟩ := hrun
  have hreach : (OccSys.lts fun _ => 0).Reach Lts.Any s := .run (.init rfl) hs
  exact ⟨s, hreach, hlog, (per_row_validate_serializable _ hreach).2.2.2.2.1⟩

end Dbx1000
