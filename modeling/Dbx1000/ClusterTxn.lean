import Dbx1000.ClusterInv

/-!
# What a write transaction is based on

The version store of a row is a cache that `LockInvalid` does not touch: after the page has left the
instance and come back, `_latest_row` still has the bytes that the instance committed last. A
transaction followed through from `ClusterOk` to `ClusterOk` runs to its end, and it is handed the bytes
last committed on any instance if its own instance committed them or the store loads the row again.
-/

namespace Dbx1000
namespace Cluster

variable {ni g : Nat} {V : Type} {pageOf : Nat → Nat} {v₀ : Nat → V} {s s' : Cluster ni V} {i j : Fin ni}

/-! ### Inside a transaction -/

/-- The transaction `ts` of `i` has the rows `accesses`; all other stores are between transactions. -/
structure Within (g : Nat) (pageOf : Nat → Nat) (v₀ : Nat → V) (i : Fin ni) (ts : Nat) (accesses : List (Nat × RowId))
    (s : Cluster ni V) : Prop where
  next : ts < (s.insts i).timestamp
  own : ∀ j k, (j = i → k ∉ accesses.map Prod.fst) → OwnRow g v₀ j k s
  pre : ∀ a ∈ accesses, RowMvcc.RowPre g ts a.2 (s.row i a.1) ∧ ∃ v, (s.row i a.1).mem a.2 = some v
  held : ∀ a ∈ accesses, s.writeInsId (pageOf a.1) = some i
  page : ∀ k, s.slot pageOf k = lastCommitted v₀ s.log k
  distinct : (accesses.map Prod.fst).Nodup

/-- The lock nodes and owners stay, and the stores of `i` with keys outside `keys`. -/
structure Frame (i : Fin ni) (keys : List Nat) (s s' : Cluster ni V) : Prop where
  node : ∀ j p, s'.node j p = s.node j p
  writeInsId : s'.writeInsId = s.writeInsId
  row : ∀ k, k ∉ keys → s'.row i k = s.row i k

/-- The condition under which a `P_REQ` on `i` hands out the bytes last committed. -/
def FreshRow (i : Fin ni) (minTs k : Nat) (s : Cluster ni V) : Prop :=
  lastWriter s.log k = some i ∨ (s.row i k).Reloads minTs

/-- Every row the query asks for is one the instance committed last or has to load. -/
def FreshOk (s : Cluster ni V) (q : Query ni g V) : Prop :=
  ∀ req ∈ q.reqs, FreshRow q.ins
    ((s.insts q.ins).addTs q.thd ((s.insts q.ins).timestamp + 1)).getMinTs req.key s

instance (minTs k : Nat) : Decidable (FreshRow i minTs k s) := inferInstanceAs (Decidable (_ ∨ _))

instance (q : Query ni g V) : Decidable (FreshOk s q) := inferInstanceAs (Decidable (∀ req ∈ _, _))

/-- The nodes of the pages `ps` have the thread of the transaction, all others are at rest. -/
structure Pinned (i : Fin ni) (thd : Nat) (ps : List Nat) (s : Cluster ni V) : Prop where
  node : ∀ j p, s.node j p = if j = i ∧ p ∈ ps then (restNode (s.writeInsId p = some j)).addThread thd
    else restNode (s.writeInsId p = some j)
  held : ∀ p ∈ ps, s.writeInsId p = some i

theorem Pinned.of_eq {thd : Nat} {ps : List Nat} (h : Pinned i thd ps s) (hnode : ∀ j p, s'.node j p = s.node j p)
    (hown : s'.writeInsId = s.writeInsId) : Pinned i thd ps s' :=
  ⟨fun j p => by rw [hnode, hown]; exact h.node j p, fun p hp => by rw [hown]; exact h.held p hp⟩

theorem Pinned.node_held {thd : Nat} {ps : List Nat} (h : Pinned i thd ps s) {p : Nat} (hp : s.writeInsId p = some i) :
    (s.node i p).lockMode = .P ∧ (s.node i p).count = 0 ∧ (s.node i p).mtx = false := by
  rw [h.node, restNode_pos hp]
  split
  · obtain ⟨hmode, -, hcount, hmtx⟩ := LockNode.addThread_frame { LockNode.init with lockMode := .P } thd
    exact ⟨hmode, hcount, hmtx⟩
  · exact ⟨rfl, rfl, rfl⟩

/-- `GetWritePageLock` succeeds: the pages are there, each with the thread. -/
theorem getWritePageLock_spec {ps : List Nat} (hi : ClusterOk g pageOf v₀ s) (hnd : ps.Nodup) (thd : Nat) {ts : Nat}
    (hts : ts < (s.insts i).timestamp) :
    ∃ s', s.getWritePageLock pageOf i thd ps = some (s', .rcok) ∧ Moved s s' ∧ Pinned i thd ps s' ∧
      Within g pageOf v₀ i ts [] s' := by
  obtain ⟨t, ht, hit, hm, hheld, -⟩ := getLocks_spec hi ps
  have hflags : (ps.any fun p => (s.node i p).invalidReq) = false := by
    refine List.any_eq_false.2 fun p _ => ?_
    rw [hi.nodes]
    exact Bool.false_ne_true
  have hadd : t.addThreads i thd ps =
      some (t.setTable i fun p => if p ∈ ps then (t.node i p).addThread thd else t.node i p) := by
    refine eachPage_eq hnd (fun p hp => ?_) (fun p hp => ?_) fun p hp => if_neg hp
    · rw [hit.nodes, restNode_pos (hheld p hp)]
      exact LockMode.noConfusion
    · rw [if_pos hp]
  generalize htbl : (fun p => if p ∈ ps then (t.node i p).addThread thd else t.node i p) = tbl at hadd
  have hsame : SameRows t (t.setTable i tbl) := .setInst rfl (Nat.le_refl _)
  have hmoved : Moved s (t.setTable i tbl) :=
    hm.trans ⟨fun j k => ⟨_, hsame.row j k⟩, timestamp_setInst (by rfl), rfl⟩
  refine ⟨t.setTable i tbl, ?_, hmoved, ⟨fun j p => ?_, hheld⟩, ⟨?_, fun j k _ => hsame.own (hit.own j k), nofun, nofun,
    hsame.page hit.page, List.nodup_nil⟩⟩
  · rw [getWritePageLock, hflags, if_neg Bool.false_ne_true, ht]
    simp only [Option.bind_eq_bind, Option.bind_some, hadd]
    rfl
  · rw [node_setTable, show (t.setTable i tbl).writeInsId = t.writeInsId from rfl, ← hit.nodes, ← htbl]
    by_cases hj : j = i
    · subst hj
      simp only [if_true, true_and]
    · rw [if_neg hj, if_neg fun h => hj h.1]
  · rw [hmoved.timestamp]; exact hts

/-- The `RemoveThread` loop brings the nodes to rest again. -/
theorem removeThreads_spec {thd ts : Nat} {ps : List Nat} (hw : Within g pageOf v₀ i ts [] s) (hp : Pinned i thd ps s)
    (hnd : ps.Nodup) :
    ∃ s', s.removeThreads i thd ps = some s' ∧ ClusterOk g pageOf v₀ s' ∧ s'.log = s.log := by
  have hsame : SameRows s (s.setTable i fun p => restNode (s.writeInsId p = some i)) := .setInst rfl (Nat.le_refl _)
  refine ⟨_, eachPage_eq hnd (fun p h => ?_) (fun p h => ?_) fun p h => ?_,
    ⟨fun j p => ?_, fun j k => hsame.own (hw.own j k fun _ => List.not_mem_nil), hsame.page hw.page⟩, rfl⟩
  · rw [(hp.node_held (hp.held p h)).1]
    exact LockMode.noConfusion
  · rw [hp.node, if_pos ⟨rfl, h⟩]
    exact removeThread_addThread thd rfl
  · rw [hp.node, if_neg fun h' => h h'.2]
  · rw [node_setTable]
    split
    · rename_i hj; rw [hj]; rfl
    · rename_i hj
      rw [hp.node, if_neg fun h => hj h.1]; rfl

/-! ### One row -/

section Row

variable {ts k : Nat} {r : RowId} {accesses : List (Nat × RowId)} {row : RowMvcc V}

/-- A store is given to the transaction; its slot stays. -/
theorem Within.handed (hw : Within g pageOf v₀ i ts accesses s) (hkey : k ∉ accesses.map Prod.fst)
    (hheld : s.writeInsId (pageOf k) = some i) (hpre : RowMvcc.RowPre g ts r row) {v' : V} (hmem : row.mem r = some v')
    (hpage : row.page = (s.row i k).page) (v : V) :
    Within g pageOf v₀ i ts ((k, r) :: accesses) ((s.setRow i k row).record (.handed i k v)) := by
  have hself := row_setRow_self i k row s
  have htime := timestamp_setRow i k row s
  have hpages : ∀ j l, ((s.setRow i k row).row j l).page = (s.row j l).page := by
    intro j l
    by_cases hjl : j = i ∧ l = k
    · rw [hjl.1, hjl.2, hself, hpage]
    · rw [row_setRow_of_ne row s hjl]
  refine ⟨Nat.lt_of_lt_of_eq hw.next (htime i).symm, fun j l hjl => ?_, fun a ha => ?_, fun a ha => ?_, fun l => ?_,
    List.nodup_cons.2 ⟨hkey, hw.distinct⟩⟩
  · have hne : ¬ (j = i ∧ l = k) := fun h => hjl h.1 (h.2 ▸ List.mem_cons_self)
    exact (hw.own j l fun hj hl => hjl hj (List.mem_cons_of_mem _ hl)).of_eq (row_setRow_of_ne row s hne)
      (Nat.le_of_eq (htime j).symm) rfl rfl
  · rcases List.mem_cons.1 ha with rfl | ha
    · show RowMvcc.RowPre g ts r (Cluster.row i k (s.setRow i k row)) ∧
        ∃ v, (Cluster.row i k (s.setRow i k row)).mem r = some v
      rw [hself]
      exact ⟨hpre, v', hmem⟩
    · have hne : ¬ (i = i ∧ a.1 = k) := fun h => hkey (h.2 ▸ List.mem_map_of_mem ha)
      show RowMvcc.RowPre g ts a.2 (Cluster.row i a.1 (s.setRow i k row)) ∧
        ∃ v, (Cluster.row i a.1 (s.setRow i k row)).mem a.2 = some v
      rw [row_setRow_of_ne row s hne]
      exact hw.pre a ha
  · rcases List.mem_cons.1 ha with rfl | ha
    · exact hheld
    · exact hw.held a ha
  · have hslot : (s.setRow i k row).slot pageOf l = s.slot pageOf l := slot_congr rfl rfl fun j => hpages j l
    exact hslot.trans (hw.page l)

/-- A commit makes its bytes the last ones, in the store and in the slot of the page. -/
theorem Within.committed {v : V} (hw : Within g pageOf v₀ i ts ((k, r) :: accesses) s) (ho : RowMvcc.RowOwn g v row)
    (hpage : row.page = v) (hwts : row.latestWts = ts) :
    Within g pageOf v₀ i ts accesses ((s.setRow i k row).record (.committed i k v)) := by
  obtain ⟨hfresh, hdistinct⟩ := List.nodup_cons.1 hw.distinct
  have hself := row_setRow_self i k row s
  have htime := timestamp_setRow i k row s
  refine ⟨Nat.lt_of_lt_of_eq hw.next (htime i).symm, fun j l hjl => ?_, fun b hb => ?_,
    fun b hb => hw.held b (List.mem_cons_of_mem _ hb), fun l => ?_, hdistinct⟩
  · by_cases hl : k = l
    · subst hl
      by_cases hj : j = i
      · subst hj
        refine ⟨?_, v, ?_, fun _ => (if_pos rfl).symm⟩
        · show (Cluster.row j k (s.setRow j k row)).latestWts < _
          rw [hself, hwts]
          exact Nat.lt_of_lt_of_eq hw.next (htime j).symm
        · show RowMvcc.RowOwn g v (Cluster.row j k (s.setRow j k row))
          rw [hself]; exact ho
      · -- another instance's store of the key keeps its own bytes, which are no longer the last
        have hrow := row_setRow_of_ne (l := k) row s fun h : j = i ∧ k = k => hj h.1
        obtain ⟨hold, own, hown, -⟩ := hw.own j k fun h => absurd h hj
        refine ⟨?_, own, ?_, fun h => absurd (Option.some.inj ((if_pos rfl).symm.trans h)) (Ne.symm hj)⟩
        · show (Cluster.row j k (s.setRow i k row)).latestWts < ((s.setRow i k row).insts j).timestamp
          rw [hrow, htime]; exact hold
        · show RowMvcc.RowOwn g own (Cluster.row j k (s.setRow i k row))
          rw [hrow]; exact hown
    · refine (hw.own j l fun hj hm => ?_).of_eq (row_setRow_of_ne row s fun h => hl h.2.symm)
        (Nat.le_of_eq (htime j).symm) (if_neg hl) (if_neg hl)
      exact (List.mem_cons.1 hm).elim (fun h => hl h.symm) (hjl hj)
  · have hne : ¬ (i = i ∧ b.1 = k) := fun h => hfresh (List.mem_map.2 ⟨b, hb, h.2⟩)
    show RowMvcc.RowPre g ts b.2 (Cluster.row i b.1 (s.setRow i k row)) ∧
      ∃ v, (Cluster.row i b.1 (s.setRow i k row)).mem b.2 = some v
    rw [row_setRow_of_ne row s hne]
    exact hw.pre b (List.mem_cons_of_mem _ hb)
  · by_cases hl : k = l
    · subst hl
      refine Eq.trans ?_ (if_pos rfl).symm
      show (s.setRow i k row).slot pageOf k = v
      simp only [slot, show (s.setRow i k row).writeInsId (pageOf k) = some i from hw.held (k, r) List.mem_cons_self,
        hself, hpage]
    · have hslot : (s.setRow i k row).slot pageOf l = s.slot pageOf l :=
        slot_congr rfl rfl fun j => by rw [row_setRow_of_ne row s fun h => hl h.2.symm]
      exact hslot.trans ((hw.page l).trans (if_neg hl).symm)

theorem Frame.setRow (s : Cluster ni V) (i : Fin ni) (k : Nat) (row : RowMvcc V) (e : RowLog ni V) :
    Frame i [k] s ((s.setRow i k row).record e) :=
  ⟨node_setInst (by rfl), rfl, fun _ hl => row_setRow_of_ne row s fun h => hl (List.mem_singleton.2 h.2)⟩

end Row

variable [Inhabited V]

theorem getRow_spec (minTs : Nat) {ts : Nat} {req : WriteReq V} {accesses : List (Nat × RowId)}
    (hw : Within g pageOf v₀ i ts accesses s) (hkey : req.key ∉ accesses.map Prod.fst)
    (hheld : s.writeInsId (pageOf req.key) = some i) (hts : (s.row i req.key).latestWts < ts) (hb : ts < uint64Max) :
    ∃ s' r v, s.getRow g i ts minTs req = some (s', r) ∧ Within g pageOf v₀ i ts ((req.key, r) :: accesses) s' ∧
      Frame i [req.key] s s' ∧ s'.log = .handed i req.key v :: s.log ∧
      (FreshRow i minTs req.key s → v = lastCommitted v₀ s.log req.key) := by
  obtain ⟨own, ho, hlast⟩ := (hw.own i req.key fun _ => hkey).own
  obtain ⟨row, r, v, hreq, hv, hpre, hpage, -, hfrom, hre⟩ := ho.prewriteReq hts hb minTs
  have hslot : (s.row i req.key).page = lastCommitted v₀ s.log req.key := by
    rw [← hw.page, slot, hheld]
  refine ⟨(s.setRow i req.key (row.setRow r (req.compute v))).record (.handed i req.key v), r, v, ?_,
    hw.handed hkey hheld (hpre.setRow _) (Function.update_self ..) hpage v, .setRow .., rfl, fun hf => ?_⟩
  · rw [getRow, RowMvcc.access, hreq]
    simp only [Option.bind_eq_bind, Option.bind_some, if_true, hv]
    rfl
  · rcases hf with hf | hf
    · rcases hfrom with rfl | rfl
      · exact hlast hf
      · exact hslot
    · rw [hre hf, hslot]

theorem commitRow_spec (minTs : Nat) {ts : Nat} {a : Nat × RowId} {accesses : List (Nat × RowId)}
    (hw : Within g pageOf v₀ i ts (a :: accesses) s) (hmode : (s.node i (pageOf a.1)).lockMode = .P)
    (hcount : (s.node i (pageOf a.1)).count = 0) (hmtx : (s.node i (pageOf a.1)).mtx = false) :
    ∃ s' v, s.commitRow g pageOf i ts minTs a = some s' ∧ Within g pageOf v₀ i ts accesses s' ∧ Frame i [a.1] s s' ∧
      s'.log = .committed i a.1 v :: s.log := by
  obtain ⟨hpre, v, hv⟩ := hw.pre a List.mem_cons_self
  obtain ⟨row, hacc, ho, hpage, hwts⟩ := hpre.wReq hv minTs
  refine ⟨(s.setRow i a.1 row).record (.committed i a.1 v), v, ?_, hw.committed ho hpage hwts, .setRow .., rfl⟩
  obtain ⟨n, hlock, hunlock⟩ := LockNode.lock_unLock hmode hcount
  have hcan : (s.node i (pageOf a.1)).canLock .X = true := by
    rw [LockNode.canLock, hmtx, hmode]; rfl
  rw [commitRow, if_pos ⟨by rw [hmode]; exact LockMode.noConfusion, hcan⟩, hlock, hv, hacc]
  simp only [Option.bind_eq_bind, Option.bind_some, hunlock, setNode_node]
  rfl

theorem getRows_spec (minTs : Nat) {ts : Nat} (hb : ts < uint64Max) {reqs : List (WriteReq V)}
    {accesses : List (Nat × RowId)} (hw : Within g pageOf v₀ i ts accesses s) (hnd : (reqs.map WriteReq.key).Nodup)
    (hnew : ∀ req ∈ reqs, req.key ∉ accesses.map Prod.fst)
    (hheld : ∀ req ∈ reqs, s.writeInsId (pageOf req.key) = some i)
    (hts : ∀ req ∈ reqs, (s.row i req.key).latestWts < ts) :
    ∃ s' accesses', s.getRows g i ts minTs reqs accesses = some (s', accesses') ∧
      Within g pageOf v₀ i ts accesses' s' ∧ (∀ j p, s'.node j p = s.node j p) ∧ s'.writeInsId = s.writeInsId ∧
      ((∀ req ∈ reqs, FreshRow i minTs req.key s) → NoStaleBase v₀ s.log → NoStaleBase v₀ s'.log) := by
  induction reqs generalizing s accesses with
  | nil => exact ⟨s, accesses, rfl, hw, fun _ _ => rfl, rfl, fun _ h => h⟩
  | cons req reqs ih =>
    obtain ⟨hne, hnd⟩ := List.nodup_cons.1 hnd
    obtain ⟨t, r, v, ht, hwt, hf, hlog, hfresh⟩ := getRow_spec minTs hw (hnew req List.mem_cons_self)
      (hheld req List.mem_cons_self) (hts req List.mem_cons_self) hb
    have hrow : ∀ req' ∈ reqs, t.row i req'.key = s.row i req'.key := fun req' h =>
      hf.row _ fun hk => hne (List.mem_singleton.1 hk ▸ List.mem_map_of_mem h)
    have hnew' : ∀ req' ∈ reqs, req'.key ∉ ((req.key, r) :: accesses).map Prod.fst := by
      intro req' h hk
      rcases List.mem_cons.1 hk with hk | hk
      · exact hne (List.mem_map.2 ⟨req', h, hk⟩)
      · exact hnew req' (List.mem_cons_of_mem _ h) hk
    obtain ⟨s', accesses', hs', hw', hnode, hown, hfresh'⟩ := ih hwt hnd hnew'
      (fun req' h => by rw [hf.writeInsId]; exact hheld req' (List.mem_cons_of_mem _ h))
      (fun req' h => by rw [hrow req' h]; exact hts req' (List.mem_cons_of_mem _ h))
    refine ⟨s', accesses', ?_, hw', fun j p => (hnode j p).trans (hf.node j p), hown.trans hf.writeInsId,
      fun hall hlog₀ => hfresh' (fun req' h => ?_) ?_⟩
    · rw [getRows, ht]; exact hs'
    · rw [FreshRow, hrow req' h, hlog]
      exact hall req' (List.mem_cons_of_mem _ h)
    · rw [hlog]
      exact ⟨hfresh (hall req List.mem_cons_self), hlog₀⟩

theorem cleanup_spec (minTs : Nat) {ts : Nat} {accesses : List (Nat × RowId)} (hw : Within g pageOf v₀ i ts accesses s)
    (hnode : ∀ p, s.writeInsId p = some i → (s.node i p).lockMode = .P ∧ (s.node i p).count = 0 ∧
      (s.node i p).mtx = false) :
    ∃ s', s.cleanup g pageOf i ts minTs accesses = some s' ∧ Within g pageOf v₀ i ts [] s' ∧
      (∀ j p, s'.node j p = s.node j p) ∧ s'.writeInsId = s.writeInsId ∧
      (NoStaleBase v₀ s.log → NoStaleBase v₀ s'.log) := by
  induction accesses generalizing s with
  | nil => exact ⟨s, rfl, hw, fun _ _ => rfl, rfl, id⟩
  | cons a accesses ih =>
    obtain ⟨hmode, hcount, hmtx⟩ := hnode _ (hw.held a List.mem_cons_self)
    obtain ⟨t, v, ht, hwt, hf, hlog⟩ := commitRow_spec minTs hw hmode hcount hmtx
    obtain ⟨s', hs', hw', hn', ho', hlog'⟩ := ih hwt fun p hp => by
      rw [hf.node]; exact hnode p (hf.writeInsId ▸ hp)
    refine ⟨s', ?_, hw', fun j p => (hn' j p).trans (hf.node j p), ho'.trans hf.writeInsId, fun h => hlog' ?_⟩
    · rw [cleanup, ht]; exact hs'
    · rw [hlog]; exact h

/-- A transaction runs to its end, and nothing it was handed is stale if the query is fresh. -/
theorem runTxn_spec (hi : ClusterOk g pageOf v₀ s) (q : Query ni g V) (hb : (s.insts q.ins).timestamp + 1 < uint64Max) :
    ∃ s', s.runTxn pageOf q = some s' ∧ ClusterOk g pageOf v₀ s' ∧
      (FreshOk s q → NoStaleBase v₀ s.log → NoStaleBase v₀ s'.log) := by
  obtain ⟨i, thd, reqs, hdistinct⟩ := q
  have hnd : (Query.writePageSet pageOf ⟨i, thd, reqs, hdistinct⟩).Nodup := nodup_writePageSet _
  have hpages : ∀ req ∈ reqs, pageOf req.key ∈ Query.writePageSet pageOf ⟨i, thd, reqs, hdistinct⟩ :=
    fun _ hreq => mem_writePageSet (q := ⟨i, thd, reqs, hdistinct⟩) hreq
  generalize hps : Query.writePageSet pageOf ⟨i, thd, reqs, hdistinct⟩ = ps at hnd hpages
  -- the instance after `get_next_ts` and `AddTs`
  generalize hm : ({ s.insts i with timestamp := (s.insts i).timestamp + 2 } : ManagerInstance V).addTs thd
    ((s.insts i).timestamp + 1) = m
  have hi₁ : ClusterOk g pageOf v₀ (s.setInst i m) := hi.setInst (by rw [← hm]; rfl) (by rw [← hm]; rfl)
    (by rw [← hm]; exact Nat.le_add_right ..)
  have hm₁ : (s.setInst i m).insts i = m := by rw [insts_setInst, if_pos rfl]
  have hts : (s.insts i).timestamp + 1 < ((s.setInst i m).insts i).timestamp := by
    rw [hm₁, ← hm]; exact Nat.lt_succ_self _
  obtain ⟨t, hget, hmove, hpin, hwt⟩ := getWritePageLock_spec hi₁ hnd thd hts
  have hrow : ∀ k, ∃ w, t.row i k = (s.row i k).withPage w := fun k => by
    obtain ⟨w, hw⟩ := hmove.row i k
    exact ⟨w, by rw [hw, row_setInst (by rw [← hm]; rfl)]⟩
  have hready : ∀ req ∈ reqs, (t.row i req.key).latestWts < (s.insts i).timestamp + 1 := fun req _ => by
    obtain ⟨w, hw⟩ := hrow req.key
    rw [hw]
    exact Nat.lt_succ_of_lt (hi.own i req.key).old
  obtain ⟨u, accesses, hrows, hwu, hnodeu, hownu, hfresh⟩ := getRows_spec m.getMinTs hb hwt hdistinct
    (fun _ _ => List.not_mem_nil) (fun req hreq => hpin.held _ (hpages req hreq)) hready
  have hpinu := hpin.of_eq hnodeu hownu
  obtain ⟨x, hclean, hwx, hnodex, hownx, hlogx⟩ := cleanup_spec m.getMinTs hwu fun p => hpinu.node_held
  obtain ⟨s', hremove, hi', hlog'⟩ := removeThreads_spec hwx (hpinu.of_eq hnodex hownx) hnd
  refine ⟨s', ?_, hi', fun hf hlog => ?_⟩
  · simp only [runTxn, ManagerInstance.getNextTs, if_pos hb, Option.bind_eq_bind, Option.bind_some, hm, hps, hm₁, hget,
      hrows, hclean]
    exact hremove
  · rw [hlog']
    refine hlogx (hfresh (fun req hreq => ?_) ?_)
    · obtain ⟨w, hw⟩ := hrow req.key
      have := hf req hreq
      rw [FreshRow, hw, hmove.log, ← hm]
      exact this
    · rw [hmove.log]; exact hlog

theorem ClusterOk.reach {G : Cluster ni V → Query ni g V → Prop} (h : (clusterLts ni g pageOf v₀).Reach G s) :
    ClusterOk g pageOf v₀ s ∧ ((∀ s q, G s q → FreshOk s q) → NoStaleBase v₀ s.log) := by
  induction h with
  | init h => rw [show _ = Cluster.init g v₀ from h]; exact ⟨.init, fun _ => trivial⟩
  | @step s s' q _ hg hs ih =>
    by_cases hb : (s.insts q.ins).timestamp + 1 < uint64Max
    · obtain ⟨t, ht, hi, hlog⟩ := runTxn_spec ih.1 q hb
      obtain rfl : t = s' := Option.some.inj (ht.symm.trans hs)
      exact ⟨hi, fun hG => hlog (hG s q hg) (ih.2 hG)⟩
    · simp only [clusterLts, runTxn, ManagerInstance.getNextTs, if_neg hb, Option.bind_eq_bind, Option.bind_none] at hs
      cases hs

end Cluster

section Fresh

variable {ni g : Nat} {V : Type} [Inhabited V] {pageOf : Nat → Nat} {v₀ : Nat → V} {s : Cluster ni V}

/-- In a run of fresh queries every row handed out has the bytes last committed for its key, by whichever
instance, and the next transaction runs to its end. -/
theorem noStaleBase_of_freshOk (h : (clusterLts ni g pageOf v₀).Reach Cluster.FreshOk s) :
    NoStaleBase v₀ s.log ∧ ∀ q : Query ni g V, (s.insts q.ins).timestamp + 1 < uint64Max →
      ∃ s', (clusterLts ni g pageOf v₀).step s q = some s' := by
  obtain ⟨hi, hlog⟩ := Cluster.ClusterOk.reach h
  refine ⟨hlog fun _ _ => id, fun q hb => ?_⟩
  obtain ⟨s', hs', -⟩ := Cluster.runTxn_spec hi q hb
  exact ⟨s', hs'⟩

end Fresh

/-- Thread 0 of `i` adds `n` to the row `k`. -/
def addTo (i : Fin 2) (k n : Nat) : Query 2 4 Nat :=
  ⟨i, 0, [⟨k, (· + n)⟩], List.nodup_cons.2 ⟨List.not_mem_nil, List.nodup_nil⟩⟩

/-- Instance 0 fills the history of the row, so that it loads the row again when the page is back from
instance 1. -/
theorem noStaleBase_after_collect : ∃ s : Cluster 2 Nat, NoStaleBase (fun _ => 0) s.log ∧
    s.log.take 3 = [.committed 0 7 115, .handed 0 7 14, .committed 1 7 14] := by
  have hrun : (((clusterLts 2 4 (· / 2) fun _ => 0).runIf (fun s q => decide (Cluster.FreshOk s q)) (.init 4 fun _ => 0)
      [addTo 0 7 1, addTo 0 7 1, addTo 0 7 1, addTo 0 7 1, addTo 1 7 10, addTo 0 7 101]).any fun s =>
      decide (s.log.take 3 = [.committed 0 7 115, .handed 0 7 14, .committed 1 7 14])) = true := by decide +kernel
  simp only [Option.any_eq_true, decide_eq_true_eq] at hrun
  obtain ⟨s, hs, hlog⟩ := hrun
  exact ⟨s, (noStaleBase_of_freshOk (.runIf (fun _ _ => of_decide_eq_true) (.init rfl) hs)).1, hlog⟩

/-- The page goes from instance 0 to instance 1 and back: instance 0 is handed its own old bytes, and the
update of instance 1 is lost. -/
theorem stale_base_after_return : ∃ s : Cluster 2 Nat,
    (clusterLts 2 4 (· / 2) fun _ => 0).run (.init 4 fun _ => 0) [addTo 0 7 1, addTo 1 7 10, addTo 0 7 100] = some s ∧
      s.log = [.committed 0 7 101, .handed 0 7 1, .committed 1 7 11, .handed 1 7 1, .committed 0 7 1, .handed 0 7 0] ∧
      ¬ NoStaleBase (fun _ => 0) s.log := by
  have hrun : (((clusterLts 2 4 (· / 2) fun _ => 0).run (.init 4 fun _ => 0)
      [addTo 0 7 1, addTo 1 7 10, addTo 0 7 100]).any fun s => decide (s.log = [.committed 0 7 101, .handed 0 7 1,
        .committed 1 7 11, .handed 1 7 1, .committed 0 7 1, .handed 0 7 0])) = true := by decide +kernel
  simp only [Option.any_eq_true, decide_eq_true_eq] at hrun
  obtain ⟨s, hs, hlog⟩ := hrun
  refine ⟨s, hs, hlog, fun h => ?_⟩
  rw [hlog] at h
  -- 1 was handed out after 11 had been committed
  have : 1 = 11 := h.1
  omega

end Dbx1000
