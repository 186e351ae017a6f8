import Dbx1000.Cluster

/-!
# Pages between transactions

Between transactions every lock node is at rest, the instance that the global lock names holds the page,
and its slots (or those of the global buffer) have the bytes last committed, while the version store of
a row has the bytes its own instance committed last (`ClusterOk`). `GetWritePageLock` keeps this: a page
moves with its slots and the stores stay as they are.
-/

namespace Dbx1000

/-! ### The write page set -/

theorem mem_insertPage {p q : Nat} {ps : List Nat} : q ∈ insertPage p ps ↔ q = p ∨ q ∈ ps := by
  induction ps with
  | nil => simp [insertPage]
  | cons r ps ih =>
    rw [insertPage]
    split
    · exact List.mem_cons
    · split
      · rename_i hpr
        rw [hpr]
        exact ⟨.inr, fun h => h.elim (fun h => h ▸ List.mem_cons_self) id⟩
      · rw [List.mem_cons, ih, List.mem_cons, or_left_comm]

theorem pairwise_insertPage {p : Nat} {ps : List Nat} (h : ps.Pairwise (· < ·)) :
    (insertPage p ps).Pairwise (· < ·) := by
  induction ps with
  | nil => exact List.pairwise_singleton ..
  | cons r ps ih =>
    obtain ⟨hr, hps⟩ := List.pairwise_cons.1 h
    rw [insertPage]
    split
    · rename_i hpr
      refine List.pairwise_cons.2 ⟨fun x hx => ?_, h⟩
      rcases List.mem_cons.1 hx with rfl | hx
      · exact hpr
      · exact Nat.lt_trans hpr (hr x hx)
    · split
      · exact h
      · refine List.pairwise_cons.2 ⟨fun x hx => ?_, ih hps⟩
        rcases mem_insertPage.1 hx with rfl | hx
        · omega
        · exact hr x hx

section PageSet

variable {ni g : Nat} {V : Type} {pageOf : Nat → Nat}

theorem writePageSet_fold (reqs : List (WriteReq V)) {set : List Nat} (h : set.Pairwise (· < ·)) :
    (reqs.foldl (fun set req => insertPage (pageOf req.key) set) set).Pairwise (· < ·) ∧
      ∀ p, p ∈ reqs.foldl (fun set req => insertPage (pageOf req.key) set) set ↔
        p ∈ set ∨ ∃ req ∈ reqs, pageOf req.key = p := by
  induction reqs generalizing set with
  | nil => exact ⟨h, fun p => by simp⟩
  | cons req reqs ih =>
    obtain ⟨hpw, hmem⟩ := ih (pairwise_insertPage (p := pageOf req.key) h)
    refine ⟨hpw, fun p => ?_⟩
    simp only [List.foldl_cons, hmem, mem_insertPage, List.mem_cons, exists_eq_or_imp, or_assoc, or_left_comm,
      eq_comm (a := p)]

theorem nodup_writePageSet (q : Query ni g V) : (q.writePageSet pageOf).Nodup :=
  (writePageSet_fold q.reqs .nil).1.imp Nat.ne_of_lt

theorem mem_writePageSet {q : Query ni g V} {req : WriteReq V} (h : req ∈ q.reqs) :
    pageOf req.key ∈ q.writePageSet pageOf :=
  ((writePageSet_fold q.reqs .nil).2 _).2 (.inr ⟨req, h, rfl⟩)

end PageSet

namespace Cluster

variable {ni g : Nat} {V : Type} {pageOf : Nat → Nat} {v₀ : Nat → V} {s s' : Cluster ni V} {i j : Fin ni}

/-! ### Reading an updated state -/

theorem insts_setInst (i : Fin ni) (m : ManagerInstance V) (s : Cluster ni V) (j : Fin ni) :
    (s.setInst i m).insts j = if j = i then m else s.insts j := Function.update_apply ..

section SetInst

variable {m : ManagerInstance V}

theorem row_setInst (h : m.mvccArray = (s.insts i).mvccArray) (j : Fin ni) (k : Nat) :
    (s.setInst i m).row j k = s.row j k := by
  rw [row, insts_setInst]
  split
  · rename_i hj; rw [h, hj]; rfl
  · rfl

theorem node_setInst (h : m.lockTable = (s.insts i).lockTable) (j : Fin ni) (p : Nat) :
    (s.setInst i m).node j p = s.node j p := by
  rw [node, insts_setInst]
  split
  · rename_i hj; rw [h, hj]; rfl
  · rfl

theorem timestamp_setInst (h : m.timestamp = (s.insts i).timestamp) (j : Fin ni) :
    ((s.setInst i m).insts j).timestamp = (s.insts j).timestamp := by
  rw [insts_setInst]
  split
  · rename_i hj; rw [h, hj]
  · rfl

end SetInst

theorem node_setNode (i : Fin ni) (p : Nat) (n : LockNode) (s : Cluster ni V) (j : Fin ni) (q : Nat) :
    (s.setNode i p n).node j q = if j = i ∧ q = p then n else s.node j q := by
  by_cases hj : j = i
  · subst hj
    simp only [node, setNode, insts_setInst, if_true, Function.update_apply, true_and]
  · simp only [node, setNode, insts_setInst, hj, false_and, if_false]

theorem row_setNode (i : Fin ni) (p : Nat) (n : LockNode) (s : Cluster ni V) (j : Fin ni) (k : Nat) :
    (s.setNode i p n).row j k = s.row j k := row_setInst (by rfl) j k

theorem row_setRow_self (i : Fin ni) (k : Nat) (r : RowMvcc V) (s : Cluster ni V) : (s.setRow i k r).row i k = r := by
  simp only [row, setRow, insts_setInst, if_true, Function.update_self]

theorem row_setRow_of_ne {k l : Nat} (r : RowMvcc V) (s : Cluster ni V) (h : ¬ (j = i ∧ l = k)) :
    (s.setRow i k r).row j l = s.row j l := by
  by_cases hj : j = i
  · subst hj
    have hl : l ≠ k := fun hl => h ⟨rfl, hl⟩
    simp only [row, setRow, insts_setInst, if_true, Function.update_of_ne hl]
  · simp only [row, setRow, insts_setInst, hj, if_false]

theorem timestamp_setRow (i : Fin ni) (k : Nat) (r : RowMvcc V) (s : Cluster ni V) (j : Fin ni) :
    ((s.setRow i k r).insts j).timestamp = (s.insts j).timestamp := timestamp_setInst (by rfl) j

theorem row_bufferPut (i : Fin ni) (p : Nat) (buf : Nat → V) (s : Cluster ni V) (j : Fin ni) (k : Nat) :
    (s.bufferPut pageOf i p buf).row j k =
      if j = i ∧ pageOf k = p then (s.row i k).withPage (buf k) else s.row j k := by
  by_cases hj : j = i
  · subst hj
    simp only [row, bufferPut, insts_setInst, if_true, true_and]
  · simp only [row, bufferPut, insts_setInst, hj, false_and, if_false]

theorem setNode_node (i : Fin ni) (p : Nat) (s : Cluster ni V) : s.setNode i p (s.node i p) = s := by
  unfold setNode node setInst
  rw [Function.update_eq_self]
  exact congrArg (fun insts => { s with insts := insts }) (Function.update_eq_self ..)

/-! ### Between transactions -/

/-- A node that nobody uses; `owned` says whether the instance holds the page. -/
def restNode (owned : Prop) [Decidable owned] : LockNode :=
  { LockNode.init with lockMode := if owned then .P else .O }

theorem restNode_pos {owned : Prop} [Decidable owned] (h : owned) :
    restNode owned = { LockNode.init with lockMode := .P } := by rw [restNode, if_pos h]

theorem restNode_neg {owned : Prop} [Decidable owned] (h : ¬ owned) : restNode owned = .init := by
  rw [restNode, if_neg h]; rfl

/-- The slot of `k` that the next `LockRemote` of its page would hand over. -/
def slot (pageOf : Nat → Nat) (k : Nat) (s : Cluster ni V) : V :=
  match s.writeInsId (pageOf k) with
  | some o => (s.row o k).page
  | none => s.globalBuffer k

theorem slot_congr {k : Nat} (hown : s'.writeInsId = s.writeInsId) (hglobal : s'.globalBuffer = s.globalBuffer)
    (hpage : ∀ j, (s'.row j k).page = (s.row j k).page) : s'.slot pageOf k = s.slot pageOf k := by
  rw [slot, slot, hown, hglobal]
  cases s.writeInsId (pageOf k) with
  | none => rfl
  | some o => exact hpage o

/-- The store of `k` on `j` is between two transactions, and its own bytes are those last committed if
`j` committed them. -/
structure OwnRow (g : Nat) (v₀ : Nat → V) (j : Fin ni) (k : Nat) (s : Cluster ni V) : Prop where
  old : (s.row j k).latestWts < (s.insts j).timestamp
  own : ∃ own, RowMvcc.RowOwn g own (s.row j k) ∧ (lastWriter s.log k = some j → own = lastCommitted v₀ s.log k)

structure ClusterOk (g : Nat) (pageOf : Nat → Nat) (v₀ : Nat → V) (s : Cluster ni V) : Prop where
  nodes : ∀ j p, s.node j p = restNode (s.writeInsId p = some j)
  own : ∀ j k, OwnRow g v₀ j k s
  page : ∀ k, s.slot pageOf k = lastCommitted v₀ s.log k

theorem ClusterOk.init : ClusterOk g pageOf v₀ (.init g v₀ : Cluster ni V) :=
  ⟨fun _ _ => rfl, fun _ k => ⟨Nat.one_pos, v₀ k, .init _, nofun⟩, fun _ => rfl⟩

theorem OwnRow.of_eq {k : Nat} (h : OwnRow g v₀ j k s) (hrow : s'.row j k = s.row j k)
    (hts : (s.insts j).timestamp ≤ (s'.insts j).timestamp)
    (hlast : lastCommitted v₀ s'.log k = lastCommitted v₀ s.log k)
    (hwr : lastWriter s'.log k = lastWriter s.log k) : OwnRow g v₀ j k s' := by
  refine ⟨?_, ?_⟩
  · rw [hrow]; exact Nat.lt_of_lt_of_le h.old hts
  · rw [hrow, hlast, hwr]; exact h.own

/-- Rows, owners and log are the same. -/
structure SameRows (s s' : Cluster ni V) : Prop where
  row : ∀ j k, s'.row j k = s.row j k
  timestamp : ∀ j, (s.insts j).timestamp ≤ (s'.insts j).timestamp
  log : s'.log = s.log
  writeInsId : s'.writeInsId = s.writeInsId
  globalBuffer : s'.globalBuffer = s.globalBuffer

theorem SameRows.setInst {m : ManagerInstance V} (hrows : m.mvccArray = (s.insts i).mvccArray)
    (hts : (s.insts i).timestamp ≤ m.timestamp) : SameRows s (s.setInst i m) := by
  refine ⟨row_setInst hrows, fun j => ?_, rfl, rfl, rfl⟩
  rw [insts_setInst]
  split
  · rename_i hj; rw [hj]; exact hts
  · exact Nat.le_refl _

theorem SameRows.own {k : Nat} (h : SameRows s s') (ho : OwnRow g v₀ j k s) : OwnRow g v₀ j k s' :=
  ho.of_eq (h.row j k) (h.timestamp j) (by rw [h.log]) (by rw [h.log])

theorem SameRows.page (h : SameRows s s') (hp : ∀ k, s.slot pageOf k = lastCommitted v₀ s.log k) (k : Nat) :
    s'.slot pageOf k = lastCommitted v₀ s'.log k := by
  rw [slot_congr h.writeInsId h.globalBuffer fun j => by rw [h.row], h.log]
  exact hp k

theorem ClusterOk.setInst (hi : ClusterOk g pageOf v₀ s) {m : ManagerInstance V}
    (hrows : m.mvccArray = (s.insts i).mvccArray) (hnodes : m.lockTable = (s.insts i).lockTable)
    (hts : (s.insts i).timestamp ≤ m.timestamp) : ClusterOk g pageOf v₀ (s.setInst i m) :=
  have hsame := SameRows.setInst hrows hts
  ⟨fun j p => (node_setInst hnodes j p).trans (hi.nodes j p), fun j k => hsame.own (hi.own j k), hsame.page hi.page⟩

/-! ### Taking a page -/

/-- Only slots of pages, lock nodes and owners change. -/
structure Moved (s s' : Cluster ni V) : Prop where
  row : ∀ j k, ∃ w, s'.row j k = (s.row j k).withPage w
  timestamp : ∀ j, (s'.insts j).timestamp = (s.insts j).timestamp
  log : s'.log = s.log

theorem Moved.refl (s : Cluster ni V) : Moved s s := ⟨fun _ _ => ⟨_, rfl⟩, fun _ => rfl, rfl⟩

theorem Moved.trans {t : Cluster ni V} (h : Moved s s') (h' : Moved s' t) : Moved s t := by
  refine ⟨fun j k => ?_, fun j => (h'.timestamp j).trans (h.timestamp j), h'.log.trans h.log⟩
  obtain ⟨w, hw⟩ := h.row j k
  obtain ⟨w', hw'⟩ := h'.row j k
  exact ⟨w', by rw [hw', hw]; rfl⟩

/-- `LockRemote` for a page that another instance holds, or none. -/
theorem lockRemote_spec {p : Nat} (hi : ClusterOk g pageOf v₀ s) (hne : s.writeInsId p ≠ some i) :
    ∃ t buf, (s.setNode i p { s.node i p with lockRemoting := true }).lockRemote i p = some (t, .rcok, buf) ∧
      Moved s t ∧ (∀ j k, t.row j k = s.row j k) ∧ t.globalBuffer = s.globalBuffer ∧
      t.writeInsId = Function.update s.writeInsId p (some i) ∧
      t.node i p = { LockNode.init with lockRemoting := true } ∧
      (∀ j q, ¬ (j = i ∧ q = p) → t.node j q = if q = p then .init else s.node j q) ∧
      ∀ k, pageOf k = p → buf k = s.slot pageOf k := by
  have hnode : s.node i p = .init := (hi.nodes i p).trans (restNode_neg hne)
  have hrow : ∀ n o q n' j k, ((s.setNode i p n).setNode o q n').row j k = s.row j k := fun n o q n' j k => by
    rw [row_setNode, row_setNode]
  cases ho : s.writeInsId p with
  | none =>
    refine ⟨(s.setNode i p { s.node i p with lockRemoting := true }).setOwner p i, s.globalBuffer, ?_,
      ⟨fun j k => ⟨_, row_setInst (by rfl) j k⟩, timestamp_setInst (by rfl), rfl⟩, row_setInst (by rfl), rfl, rfl, ?_,
      fun j q hjq => ?_, fun k hk => ?_⟩
    · simp only [lockRemote, show (s.setNode i p _).writeInsId p = none from ho]
      rfl
    · exact (node_setNode ..).trans (by rw [if_pos ⟨rfl, rfl⟩, hnode])
    · refine (node_setNode ..).trans ?_
      rw [if_neg hjq]
      split
      · rename_i hq
        rw [hq, hi.nodes, restNode_neg (by rw [ho]; exact nofun)]
      · rfl
    · rw [slot, hk, ho]
  | some o =>
    have hoi : o ≠ i := fun h => hne (by rw [ho, h])
    have hno : (s.setNode i p { s.node i p with lockRemoting := true }).node o p =
        { LockNode.init with lockMode := .P } := by
      rw [node_setNode, if_neg fun h => hoi h.1, hi.nodes, restNode_pos ho]
    refine ⟨((s.setNode i p { s.node i p with lockRemoting := true }).setNode o p .init).setOwner p i,
      fun k => ((s.setNode i p { s.node i p with lockRemoting := true }).row o k).page, ?_,
      ⟨fun j k => ⟨_, hrow _ _ _ _ j k⟩, fun j => ?_, rfl⟩, hrow _ _ _ _, rfl, rfl, ?_,
      fun j q hjq => ?_, fun k hk => ?_⟩
    · simp only [lockRemote, show (s.setNode i p _).writeInsId p = some o from ho, lockInvalid, hno]
      rfl
    · exact (timestamp_setInst (by rfl) j).trans (timestamp_setInst (by rfl) j)
    · refine (node_setNode ..).trans ?_
      rw [if_neg fun h => hoi h.1.symm, node_setNode, if_pos ⟨rfl, rfl⟩, hnode]
    · refine (node_setNode ..).trans ?_
      by_cases hq : q = p
      · subst hq
        rw [if_pos rfl]
        split
        · rfl
        · rename_i hjo
          rw [node_setNode, if_neg hjq, hi.nodes, restNode_neg]
          rw [ho]
          exact fun h => hjo ⟨(Option.some.inj h).symm, rfl⟩
      · rw [if_neg fun h => hq h.2, if_neg hq, node_setNode, if_neg hjq]
    · rw [slot, hk, ho]
      exact congrArg RowMvcc.page (row_setInst (by rfl) o k)

/-- The slots come from the page that was handed over, the rest of the stores is left alone. -/
theorem ClusterOk.moved (hi : ClusterOk g pageOf v₀ s) {p : Nat} (hm : Moved s s')
    (hown : s'.writeInsId = Function.update s.writeInsId p (some i)) (hglobal : s'.globalBuffer = s.globalBuffer)
    (hpage : ∀ k, pageOf k = p → (s'.row i k).page = s.slot pageOf k)
    (hrow : ∀ j k, pageOf k ≠ p → s'.row j k = s.row j k)
    (hnode : ∀ j q, s'.node j q = if q = p then restNode (j = i) else s.node j q) : ClusterOk g pageOf v₀ s' := by
  refine ⟨fun j q => ?_, fun j k => ?_, fun k => ?_⟩
  · rw [hnode, hown, Function.update_apply]
    split
    · unfold restNode
      simp only [Option.some.injEq, eq_comm]
    · exact hi.nodes j q
  · obtain ⟨hold, own, ho, hlast⟩ := hi.own j k
    obtain ⟨w, hw⟩ := hm.row j k
    refine ⟨?_, own, ?_, ?_⟩
    · rw [hw, hm.timestamp]; exact hold
    · rw [hw]; exact ho.withPage w
    · rw [hm.log]; exact hlast
  · rw [hm.log, ← hi.page k]
    by_cases hk : pageOf k = p
    · rw [← hpage k hk, slot, hown, hk, Function.update_self]
    · rw [slot, hown, Function.update_of_ne hk, slot, hglobal]
      cases s.writeInsId (pageOf k) with
      | none => rfl
      | some o => exact congrArg RowMvcc.page (hrow o k hk)

/-- After an iteration of the loop the instance holds the page, at rest. -/
theorem getLock_spec (hi : ClusterOk g pageOf v₀ s) (p : Nat) :
    ∃ s', s.getLock pageOf i p = some (s', .rcok) ∧ ClusterOk g pageOf v₀ s' ∧ Moved s s' ∧
      s'.writeInsId p = some i ∧ ∀ q, s.writeInsId q = some i → s'.writeInsId q = some i := by
  by_cases hown : s.writeInsId p = some i
  · refine ⟨s, ?_, hi, .refl s, hown, fun _ h => h⟩
    rw [getLock, hi.nodes, restNode_pos hown, if_neg LockMode.noConfusion]
  · obtain ⟨t, buf, ht, hm, hrow, hglobal, howner, hself, hnode, hbuf⟩ := lockRemote_spec hi hown
    have hrest : s.node i p = .init := (hi.nodes i p).trans (restNode_neg hown)
    have hrows : ∀ n n' j k, (((t.setNode i p n).bufferPut pageOf i p buf).setNode i p n').row j k =
        if j = i ∧ pageOf k = p then (s.row i k).withPage (buf k) else s.row j k := by
      intro n n' j k
      simp only [row_setNode, row_bufferPut, hrow]
    have hput : ∀ n j q, ((t.setNode i p n).bufferPut pageOf i p buf).node j q =
        if j = i ∧ q = p then n else t.node j q := fun n j q =>
      (node_setInst (by rfl) j q).trans (node_setNode ..)
    have hmoved : ∀ n n', Moved s (((t.setNode i p n).bufferPut pageOf i p buf).setNode i p n') := by
      refine fun n n' => ⟨fun j k => ?_, fun j => ?_, hm.log⟩
      · rw [hrows]
        split
        · rename_i hj; rw [hj.1]; exact ⟨_, rfl⟩
        · exact ⟨_, rfl⟩
      · exact (timestamp_setInst (by rfl) j).trans ((timestamp_setInst (by rfl) j).trans
          ((timestamp_setInst (by rfl) j).trans (hm.timestamp j)))
    refine ⟨_, ?_, ?_, hmoved { t.node i p with lockMode := .P } { LockNode.init with lockMode := .P }, ?_,
      fun q hq => ?_⟩
    · rw [getLock, if_pos (by rw [hrest]; rfl), if_neg (by rw [hrest]; exact Bool.false_ne_true), ht]
      simp only [Option.bind_eq_bind, Option.bind_some]
      rw [if_neg (by decide), if_pos ⟨trivial, by rw [hself]; rfl⟩, hput, if_pos ⟨rfl, rfl⟩, hself]
      rfl
    · refine hi.moved (p := p) (i := i) (hmoved ..) howner hglobal (fun k hk => ?_) (fun j k hk => ?_) fun j q => ?_
      · rw [hrows, if_pos ⟨rfl, hk⟩]; exact hbuf k hk
      · rw [hrows, if_neg fun h => hk h.2]
      · rw [node_setNode, hput]
        by_cases hjq : j = i ∧ q = p
        · rw [if_pos hjq, if_pos hjq.2, restNode_pos hjq.1]
        · rw [if_neg hjq, if_neg hjq, hnode j q hjq]
          split
          · rename_i hq
            exact (restNode_neg fun hj => hjq ⟨hj, hq⟩).symm
          · rfl
    · exact (congrFun howner p).trans (Function.update_self ..)
    · refine (congrFun howner q).trans ?_
      rw [Function.update_apply, hq, ite_self]

theorem getLocks_spec (hi : ClusterOk g pageOf v₀ s) (ps : List Nat) :
    ∃ s', s.getLocks pageOf i ps = some (s', .rcok) ∧ ClusterOk g pageOf v₀ s' ∧ Moved s s' ∧
      (∀ p ∈ ps, s'.writeInsId p = some i) ∧ ∀ q, s.writeInsId q = some i → s'.writeInsId q = some i := by
  induction ps generalizing s with
  | nil => exact ⟨s, rfl, hi, .refl s, nofun, fun _ h => h⟩
  | cons p ps ih =>
    obtain ⟨t, ht, hit, hmt, hp, hkeep⟩ := getLock_spec hi p
    obtain ⟨s', hs', hi', hm', hps, hkeep'⟩ := ih hit
    refine ⟨s', ?_, hi', hmt.trans hm', fun q hq => ?_, fun q hq => hkeep' q (hkeep q hq)⟩
    · rw [getLocks, ht]
      exact hs'
    · rcases List.mem_cons.1 hq with rfl | hq
      · exact hkeep' _ hp
      · exact hps q hq

/-! ### The thread in the nodes -/

theorem removeThread_addThread {n : LockNode} (thd : Nat) (h : n.threadSet = []) :
    (n.addThread thd).removeThread thd = some n := by
  simp only [LockNode.addThread, h, List.not_mem_nil, if_false, LockNode.removeThread, List.mem_singleton, if_true,
    Nat.zero_lt_succ, List.erase_cons_head, Nat.add_sub_cancel]
  rw [← h]

def setTable (i : Fin ni) (tbl : Nat → LockNode) (s : Cluster ni V) : Cluster ni V :=
  s.setInst i { s.insts i with lockTable := tbl }

theorem node_setTable (i : Fin ni) (tbl : Nat → LockNode) (s : Cluster ni V) (j : Fin ni) (p : Nat) :
    (s.setTable i tbl).node j p = if j = i then tbl p else s.node j p := by
  rw [node, setTable, insts_setInst]
  split <;> rfl

theorem setTable_node (i : Fin ni) (s : Cluster ni V) : s.setTable i (s.node i) = s := by
  unfold setTable setInst node
  rw [Function.update_eq_self]

theorem setTable_setNode (i : Fin ni) (p : Nat) (n : LockNode) (tbl : Nat → LockNode) (s : Cluster ni V) :
    (s.setNode i p n).setTable i tbl = s.setTable i tbl := by
  unfold setTable setNode setInst
  simp only [Function.update_self, Function.update_idem]

theorem eachPage_eq {f : LockNode → Option LockNode} {ps : List Nat} {tbl : Nat → LockNode} (hnd : ps.Nodup)
    (hmode : ∀ p ∈ ps, (s.node i p).lockMode ≠ .O) (hin : ∀ p ∈ ps, f (s.node i p) = some (tbl p))
    (hout : ∀ p, p ∉ ps → tbl p = s.node i p) : s.eachPage i f ps = some (s.setTable i tbl) := by
  induction ps generalizing s with
  | nil => rw [show tbl = s.node i from funext fun p => hout p nofun, setTable_node]; rfl
  | cons p ps ih =>
    obtain ⟨hp, hnd⟩ := List.nodup_cons.1 hnd
    have hne : ∀ q ∈ ps, ¬ (i = i ∧ q = p) := fun q hq h => hp (h.2 ▸ hq)
    rw [eachPage, if_neg (hmode p List.mem_cons_self), hin p List.mem_cons_self]
    simp only [Option.bind_eq_bind, Option.bind_some]
    rw [ih hnd, setTable_setNode]
    · intro q hq
      rw [node_setNode, if_neg (hne q hq)]
      exact hmode q (List.mem_cons_of_mem _ hq)
    · intro q hq
      rw [node_setNode, if_neg (hne q hq)]
      exact hin q (List.mem_cons_of_mem _ hq)
    · intro q hq
      rw [node_setNode]
      split
      · rename_i h; rw [h.2]
      · rename_i h
        exact hout q fun hq' => (List.mem_cons.1 hq').elim (fun h' => h ⟨rfl, h'⟩) hq

end Cluster
end Dbx1000
