import Mathlib.Data.List.Nodup
import Mathlib.Data.List.Perm.Basic
import Dbx1000.Buffer

/-!
# The invariant of the buffer pool

The frames are split between the two lists, the index is exact, and the bytes of a page are those in
its frame or, when it has none, those on the disk (`Buffer.content`). Flushing moves frames to the
free list and leaves `content` alone; bringing a page in changes it for that page only.
-/

namespace Dbx1000

/-- The bytes that a page has. -/
def Buffer.content (b : Buffer) (pageId : Nat) : Bytes :=
  match b.lruIndex pageId with
  | some a => (b.node a).pageBuf
  | none => b.disk pageId

/-! ### The index -/

/-- `index` finds exactly the nodes `ps`, under the ids they have. -/
def Indexed (index : Nat → Option Nat) (pageId : Nat → Nat) (ps : List Nat) : Prop :=
  ∀ p a, index p = some a ↔ a ∈ ps ∧ pageId a = p

namespace Indexed

variable {index : Nat → Option Nat} {pageId pageId' : Nat → Nat} {ps : List Nat} {a p : Nat}

theorem injOn (h : Indexed index pageId ps) {c d : Nat} (hc : c ∈ ps) (hd : d ∈ ps) (heq : pageId c = pageId d) :
    c = d := by
  have h1 := (h _ c).2 ⟨hc, rfl⟩
  rw [heq, (h _ d).2 ⟨hd, rfl⟩] at h1
  exact (Option.some.inj h1).symm

theorem delete (h : Indexed index pageId (ps ++ [a])) (ha : a ∉ ps) (hid : ∀ c ∈ ps, pageId' c = pageId c) :
    Indexed (Function.update index (pageId a) none) pageId' ps := by
  have hmem : a ∈ ps ++ [a] := List.mem_append_right _ (List.mem_singleton_self a)
  intro q c
  by_cases hq : q = pageId a
  · rw [hq, Function.update_self]
    refine ⟨nofun, fun ⟨hc, hid'⟩ => ?_⟩
    rw [hid c hc] at hid'
    exact absurd (h.injOn (List.mem_append_left _ hc) hmem hid' ▸ hc) ha
  · rw [Function.update_of_ne hq, h q c]
    refine ⟨fun ⟨hc, hid'⟩ => ?_, fun ⟨hc, hid'⟩ => ⟨List.mem_append_left _ hc, hid c hc ▸ hid'⟩⟩
    have hc : c ∈ ps := (List.mem_append.1 hc).resolve_right fun h' => hq (by rw [← hid', List.mem_singleton.1 h'])
    exact ⟨hc, (hid c hc).trans hid'⟩

theorem insert (h : Indexed index pageId ps) (hp : index p = none) (ha : a ∉ ps)
    (hid : ∀ c ∈ ps, pageId' c = pageId c) (hida : pageId' a = p) :
    Indexed (Function.update index p (some a)) pageId' (a :: ps) := by
  intro q c
  by_cases hq : q = p
  · rw [hq, Function.update_self]
    refine ⟨fun hc => ?_, fun ⟨hc, hid'⟩ => ?_⟩
    · cases hc
      exact ⟨List.mem_cons_self, hida⟩
    · rcases List.mem_cons.1 hc with rfl | hc
      · rfl
      · rw [(h p c).2 ⟨hc, hid c hc ▸ hid'⟩] at hp; cases hp
  · rw [Function.update_of_ne hq, h q c]
    refine ⟨fun ⟨hc, hid'⟩ => ⟨List.mem_cons_of_mem _ hc, (hid c hc).trans hid'⟩, fun ⟨hc, hid'⟩ => ?_⟩
    rcases List.mem_cons.1 hc with rfl | hc
    · exact absurd (hid'.symm.trans hida) hq
    · exact ⟨hc, hid c hc ▸ hid'⟩

end Indexed

/-! ### The invariant -/

structure BufOk (b : Buffer) (ps fs : List Nat) : Prop where
  pages : b.pageList.Rep b.node ps
  frees : b.freeList.Rep b.node fs
  part : (ps ++ fs).Perm (List.range b.pageNum)
  index : Indexed b.lruIndex (fun a => (b.node a).pageId) ps
  bufLen : ∀ a, (b.node a).pageBuf.length = b.pageSize
  diskLen : ∀ p, (b.disk p).length = b.pageSize

namespace BufOk

variable {b b' : Buffer} {ps fs : List Nat} {a p : Nat}

theorem nodup (h : BufOk b ps fs) : (ps ++ fs).Nodup := h.part.nodup_iff.2 List.nodup_range

theorem length_add (h : BufOk b ps fs) : ps.length + fs.length = b.pageNum := by
  rw [← List.length_append, h.part.length_eq, List.length_range]

theorem pageIds_nodup (h : BufOk b ps fs) : (ps.map fun a => (b.node a).pageId).Nodup :=
  (List.nodup_append.1 h.nodup).1.map_on fun _ ha _ ha' => h.index.injOn ha ha'

theorem setMutex (h : BufOk b ps fs) (m : Bool) : BufOk { b with mutex := m } ps fs :=
  ⟨h.pages, h.frees, h.part, h.index, h.bufLen, h.diskLen⟩

theorem assertSizes (h : BufOk b ps fs) : b.assertSizes = some () := by
  refine if_pos ?_
  rw [h.pages.size, h.frees.size, h.length_add]

theorem content_length (h : BufOk b ps fs) : (b.content p).length = b.pageSize := by
  unfold Buffer.content
  split
  · exact h.bufLen _
  · exact h.diskLen p

end BufOk

/-! ### Flushing -/

/-- The page `p` stays where it is or leaves the pool. -/
def KeptOrEvicted (p : Nat) (b b' : Buffer) : Prop :=
  b'.lruIndex p = b.lruIndex p ∧ b'.disk p = b.disk p ∨ b'.lruIndex p = none ∧ b.lruIndex p ≠ none

namespace KeptOrEvicted

variable {p : Nat} {b b' b'' : Buffer}

theorem refl (p : Nat) (b : Buffer) : KeptOrEvicted p b b := .inl ⟨rfl, rfl⟩

theorem trans (h : KeptOrEvicted p b b') (h' : KeptOrEvicted p b' b'') : KeptOrEvicted p b b'' := by
  rcases h with ⟨h₁, h₂⟩ | ⟨h₁, h₂⟩
  · rwa [KeptOrEvicted, h₁, h₂] at h'
  · rcases h' with ⟨h₃, -⟩ | ⟨-, h₃⟩
    · exact .inr ⟨h₃.trans h₁, h₂⟩
    · exact absurd h₁ h₃

theorem absent (h : KeptOrEvicted p b b') (hp : b.lruIndex p = none) : b'.lruIndex p = none ∧ b'.disk p = b.disk p := by
  rcases h with ⟨h₁, h₂⟩ | ⟨-, h₂⟩
  · exact ⟨h₁.trans hp, h₂⟩
  · exact absurd hp h₂

end KeptOrEvicted

/-- What flushing the frames `out` does. -/
structure Flushed (out : List Nat) (b b' : Buffer) : Prop where
  content : ∀ p, b'.content p = b.content p
  disk : ∀ p, b'.disk p = b.disk p ∨ b'.disk p = b.content p
  index : ∀ p, KeptOrEvicted p b b'
  pageId : ∀ c, c ∉ out → (b'.node c).pageId = (b.node c).pageId
  pageBuf : ∀ c, (b'.node c).pageBuf = (b.node c).pageBuf
  config : b'.pageSize = b.pageSize ∧ b'.pageNum = b.pageNum ∧ b'.mutex = b.mutex

theorem Flushed.refl (out : List Nat) (b : Buffer) : Flushed out b b :=
  ⟨fun _ => rfl, fun _ => .inl rfl, fun p => .refl p b, fun _ _ => rfl, fun _ => rfl, rfl, rfl, rfl⟩

theorem Flushed.trans {out out' : List Nat} {b b' b'' : Buffer} (h : Flushed out b b') (h' : Flushed out' b' b'') :
    Flushed (out' ++ out) b b'' where
  content p := (h'.content p).trans (h.content p)
  disk p := by
    rcases h'.disk p with h₁ | h₁
    · rw [h₁]; exact h.disk p
    · exact .inr (h₁.trans (h.content p))
  index p := (h.index p).trans (h'.index p)
  pageId c hc := (h'.pageId c fun hm => hc (List.mem_append_left _ hm)).trans
    (h.pageId c fun hm => hc (List.mem_append_right _ hm))
  pageBuf c := (h'.pageBuf c).trans (h.pageBuf c)
  config := ⟨h'.config.1.trans h.config.1, h'.config.2.1.trans h.config.2.1, h'.config.2.2.trans h.config.2.2⟩

namespace BufOk

variable {b b' : Buffer} {ps fs : List Nat} {a p : Nat}

theorem flushTail_spec (h : BufOk b (ps ++ [a]) fs) :
    ∃ b', b.flushTail = some b' ∧ BufOk b' ps (a :: fs) ∧ Flushed [a] b b' := by
  obtain ⟨node₁, l₁, hpop, hpage, hmove⟩ := Lru.popback_prepend h.pages h.frees h.nodup
  have ha : a ∉ ps := fun ha =>
    (List.nodup_append.1 (List.nodup_append.1 h.nodup).1).2.2 a ha a (List.mem_singleton_self a) rfl
  have hindex : b.lruIndex (b.node a).pageId = some a :=
    (h.index _ a).2 ⟨List.mem_append_right _ (List.mem_singleton_self a), rfl⟩
  -- the nodes after the id of `a` is reset
  let node₂ := Function.update node₁ a { node₁ a with pageId := uint64Max }
  have hself : node₂ a = { node₁ a with pageId := uint64Max } := Function.update_self ..
  have hne : ∀ c, c ≠ a → node₂ c = node₁ c := fun c hc => Function.update_of_ne hc ..
  obtain ⟨hpages, hfrees, hkeep⟩ := hmove node₂ fun c => by
    by_cases hc : c = a
    · rw [hc, hself]; exact ⟨rfl, rfl⟩
    · rw [hne c hc]; exact ⟨rfl, rfl⟩
  have hbuf : ∀ c, ((b.freeList.prepend a node₂).1 c).pageBuf = (b.node c).pageBuf := by
    intro c
    rw [(hkeep c).2, ← (hpage c).2]
    by_cases hc : c = a
    · rw [hc, hself]
    · rw [hne c hc]
  have hid : ∀ c, c ≠ a → ((b.freeList.prepend a node₂).1 c).pageId = (b.node c).pageId := by
    intro c hc
    rw [(hkeep c).1, hne c hc, (hpage c).1]
  let b' : Buffer := { b with
    node := (b.freeList.prepend a node₂).1, pageList := l₁, freeList := (b.freeList.prepend a node₂).2,
    lruIndex := Function.update b.lruIndex (b.node a).pageId none,
    disk := Function.update b.disk (b.node a).pageId (b.node a).pageBuf }
  have hflush : b.flushTail = some b' := by
    simp only [Buffer.flushTail, Buffer.pageListPopback, hpop, Option.bind_eq_bind, Option.bind_some, Option.pure_def,
      Buffer.writePage, Buffer.indexDelete, (hpage a).1, (hpage a).2]
    rfl
  refine ⟨b', hflush, ⟨hpages, hfrees, ?_, h.index.delete ha fun c hc => hid c fun h' => ha (h' ▸ hc),
    fun c => (congrArg _ (hbuf c)).trans (h.bufLen c), fun q => ?_⟩,
    fun q => ?_, fun q => ?_, fun q => ?_, fun c hc => hid c fun h' => hc (h' ▸ List.mem_singleton_self a), hbuf, rfl,
    rfl, rfl⟩
  · exact List.append_assoc ps [a] fs ▸ h.part
  all_goals by_cases hq : q = (b.node a).pageId
  · rw [hq, show b'.disk _ = (b.node a).pageBuf from Function.update_self ..]; exact h.bufLen a
  · rw [show b'.disk q = b.disk q from Function.update_of_ne hq ..]; exact h.diskLen q
  · rw [hq, Buffer.content, Buffer.content, show b'.lruIndex _ = none from Function.update_self .., hindex]
    exact Function.update_self ..
  · rw [Buffer.content, Buffer.content, show b'.lruIndex q = b.lruIndex q from Function.update_of_ne hq ..]
    cases b.lruIndex q with
    | some c => exact hbuf c
    | none => exact Function.update_of_ne hq ..
  · rw [hq, Buffer.content, hindex]
    exact .inr (Function.update_self ..)
  · exact .inl (Function.update_of_ne hq ..)
  · refine .inr ⟨?_, by rw [hq, hindex]; exact nofun⟩
    rw [hq]
    exact Function.update_self ..
  · exact .inl ⟨Function.update_of_ne hq .., Function.update_of_ne hq ..⟩

/-- The last `n` pages are flushed. -/
theorem flushLoop_spec {out : List Nat} (h : BufOk b (ps ++ out) fs) :
    ∃ b', Buffer.flushLoop out.length b = some b' ∧ BufOk b' ps (out ++ fs) ∧ Flushed out b b' := by
  induction out using List.reverseRecOn generalizing b fs with
  | nil =>
    rw [List.append_nil] at h
    exact ⟨b, rfl, h, .refl _ b⟩
  | append_singleton out a ih =>
    rw [← List.append_assoc] at h
    obtain ⟨b₁, h₁, hok, hf₁⟩ := h.flushTail_spec
    obtain ⟨b₂, h₂, hok, hf₂⟩ := ih hok
    refine ⟨b₂, ?_, by rw [List.append_assoc]; exact hok, hf₁.trans hf₂⟩
    rw [List.length_append, List.length_singleton, Buffer.flushLoop, h₁]
    exact h₂

theorem flushALl_spec (h : BufOk b ps fs) :
    ∃ b', b.flushALl = some b' ∧ BufOk b' [] (ps ++ fs) ∧ Flushed ps b b' := by
  rw [Buffer.flushALl, h.pages.size]
  exact flushLoop_spec (show BufOk b ([] ++ ps) fs from h)

theorem indexGet_nil (h : BufOk b [] fs) (p : Nat) : b.lruIndex p = none := by
  cases hp : b.lruIndex p with
  | none => rfl
  | some a => exact absurd ((h.index p a).1 hp).1 List.not_mem_nil

end BufOk

/-! ### Bringing a page in -/

/-- The frames that are flushed when a page is brought in. -/
def Buffer.evicted (b : Buffer) : List Nat :=
  if b.freeList.size ≤ 0 then (b.pageList.toList b.node).drop (b.pageNum - b.pageNum / 5) else []

/-- What bringing in `p` does to a pool with the pages `ps`. -/
structure BroughtIn (p : Nat) (buf : Bytes) (ps ps' out : List Nat) (b b' : Buffer) : Prop where
  content : ∀ q, b'.content q = if q = p then buf else b.content q
  disk : ∀ q, b'.disk q = b.disk q ∨ b'.disk q = b.content q
  kept : ∀ c ∈ ps, c ∉ out → c ∈ ps' ∧ (b'.node c).pageId = (b.node c).pageId
  others : ∀ q, q ≠ p → KeptOrEvicted q b b'
  self : b'.lruIndex p ≠ none ∧ b'.disk p = b.disk p
  config : b'.pageSize = b.pageSize ∧ b'.pageNum = b.pageNum ∧ b'.mutex = b.mutex

namespace BufOk

variable {b b' : Buffer} {ps fs : List Nat} {a p : Nat} {buf : Bytes}

theorem freeListToPageList_spec (h : BufOk b ps (fs ++ [a])) (hp : b.lruIndex p = none)
    (hbuf : buf.length = b.pageSize) : ∃ b', b.freeListToPageList p buf b.pageSize = some b' ∧
      BufOk b' (a :: ps) fs ∧ BroughtIn p buf ps (a :: ps) [] b b' := by
  have hnodup : (fs ++ [a] ++ ps).Nodup := (List.perm_append_comm.nodup_iff).1 h.nodup
  obtain ⟨node₁, l₁, hpop, hpage, hmove⟩ := Lru.popback_prepend h.frees h.pages hnodup
  have ha : a ∉ ps := fun ha => (List.nodup_append.1 h.nodup).2.2 a ha a (by simp) rfl
  have hlen := h.length_add
  rw [List.length_append, List.length_singleton] at hlen
  -- the nodes after `a` has got the page
  let node₂ := Function.update node₁ a { node₁ a with pageId := p, pageBuf := buf }
  have hself : node₂ a = { node₁ a with pageId := p, pageBuf := buf } := Function.update_self ..
  have hne : ∀ c, c ≠ a → node₂ c = node₁ c := fun c hc => Function.update_of_ne hc ..
  obtain ⟨hfrees, hpages, hkeep⟩ := hmove node₂ fun c => by
    by_cases hc : c = a
    · rw [hc, hself]; exact ⟨rfl, rfl⟩
    · rw [hne c hc]; exact ⟨rfl, rfl⟩
  have hida : ((b.pageList.prepend a node₂).1 a).pageId = p := by rw [(hkeep a).1, hself]
  have hbufa : ((b.pageList.prepend a node₂).1 a).pageBuf = buf := by rw [(hkeep a).2, hself]
  have hold : ∀ c, c ≠ a → ((b.pageList.prepend a node₂).1 c).pageId = (b.node c).pageId ∧
      ((b.pageList.prepend a node₂).1 c).pageBuf = (b.node c).pageBuf := by
    intro c hc
    rw [(hkeep c).1, (hkeep c).2, hne c hc]
    exact hpage c
  have hps : ∀ c ∈ ps, c ≠ a := fun c hc h' => ha (h' ▸ hc)
  let b' : Buffer := { b with
    node := (b.pageList.prepend a node₂).1, pageList := (b.pageList.prepend a node₂).2, freeList := l₁,
    lruIndex := Function.update b.lruIndex p (some a) }
  have hstep : b.freeListToPageList p buf b.pageSize = some b' := by
    have hcopy : memcpy (node₁ a).pageBuf buf b.pageSize = buf :=
      memcpy_all ((congrArg _ (hpage a).2).trans (h.bufLen a)) hbuf
    have hsize : 0 < b.freeList.size ∧ b.pageList.size < b.pageNum := by
      rw [h.frees.size, h.pages.size, List.length_append, List.length_singleton]
      omega
    rw [Buffer.freeListToPageList, if_pos hsize]
    simp only [Buffer.freeListPopback, hpop, Option.bind_eq_bind, Option.bind_some, Option.pure_def,
      Buffer.setPageId, Buffer.setPageBuf, Buffer.indexPut, Buffer.indexDelete, Buffer.pageListPrepend,
      Function.update_self, Function.update_idem, hcopy]
    rfl
  have hindex : ∀ q, q ≠ p → b'.lruIndex q = b.lruIndex q := fun q hq => Function.update_of_ne hq ..
  refine ⟨b', hstep, ⟨hpages, hfrees, ?_, h.index.insert hp ha (fun c hc => (hold c (hps c hc)).1) hida, fun c => ?_,
    h.diskLen⟩, fun q => ?_, fun q => .inl rfl, fun c hc _ => ⟨List.mem_cons_of_mem _ hc, (hold c (hps c hc)).1⟩,
    fun q hq => .inl ⟨hindex q hq, rfl⟩,
    ⟨by rw [show b'.lruIndex p = some a from Function.update_self ..]; exact nofun, rfl⟩, rfl, rfl, rfl⟩
  · refine List.Perm.trans ?_ h.part
    rw [← List.append_assoc]
    exact (List.perm_append_singleton a (ps ++ fs)).symm
  · by_cases hc : c = a
    · rw [hc]; exact (congrArg _ hbufa).trans hbuf
    · exact (congrArg _ (hold c hc).2).trans (h.bufLen c)
  · by_cases hq : q = p
    · rw [if_pos hq, hq, Buffer.content, show b'.lruIndex p = some a from Function.update_self ..]
      exact hbufa
    · rw [if_neg hq, Buffer.content, Buffer.content, hindex q hq]
      cases hc : b.lruIndex q with
      | some c => exact (hold c (hps c ((h.index q c).1 hc).1)).2
      | none => rfl

/-- A full pool: the last fifth of the pages makes room. -/
theorem flushPageList_spec (h : BufOk b ps []) (h5 : 5 ≤ b.pageNum) :
    ∃ b' out a, b.flushPageList = some b' ∧ ps.drop (b.pageNum - b.pageNum / 5) = out ++ [a] ∧
      BufOk b' (ps.take (b.pageNum - b.pageNum / 5)) (out ++ [a]) ∧ Flushed (out ++ [a]) b b' := by
  have hlen := h.length_add
  rw [List.length_nil, Nat.add_zero] at hlen
  generalize hk : b.pageNum - b.pageNum / 5 = k
  have hout : (ps.drop k).length = b.pageNum / 5 := by rw [List.length_drop]; omega
  obtain ⟨out, a, hcut⟩ : ∃ out a, ps.drop k = out ++ [a] := by
    rcases List.eq_nil_or_concat (ps.drop k) with h' | ⟨out, a, h'⟩
    · rw [h', List.length_nil] at hout; omega
    · exact ⟨out, a, by rw [h', List.concat_eq_append]⟩
  have hsplit := h
  rw [← List.take_append_drop k ps] at hsplit
  obtain ⟨b₁, hb₁, hok₁, hfl⟩ := hsplit.flushLoop_spec
  rw [List.append_nil, hcut] at hok₁
  rw [hcut] at hfl
  refine ⟨b₁, out, a, ?_, hcut, hok₁, hfl⟩
  rw [Buffer.flushPageList, if_pos ⟨h.frees.size, h.pages.size.trans hlen⟩, ← hout, hb₁]

theorem bringIn_spec (h : BufOk b ps fs) (h5 : b.freeList.size = 0 → 5 ≤ b.pageNum) (hp : b.lruIndex p = none)
    (hbuf : buf.length = b.pageSize) : ∃ b' ps' fs', b.bringIn p buf b.pageSize = some b' ∧
      BufOk b' ps' fs' ∧ BroughtIn p buf ps ps' b.evicted b b' := by
  rw [Buffer.bringIn, Buffer.evicted, h.pages.toList_eq, h.frees.size]
  rcases List.eq_nil_or_concat fs with rfl | ⟨fs, a, rfl⟩
  · obtain ⟨b₁, out, a, hb₁, hcut, hok₁, hfl⟩ := h.flushPageList_spec (h5 h.frees.size)
    have hnil : ([] : List Nat).length ≤ 0 := Nat.le_refl 0
    rw [if_pos hnil, if_pos hnil, hcut]
    obtain ⟨hp₁, hdisk₁⟩ := (hfl.index p).absent hp
    obtain ⟨b₂, hb₂, hok₂, hin⟩ := hok₁.freeListToPageList_spec hp₁ (hbuf.trans hfl.config.1.symm)
    refine ⟨b₂, a :: ps.take _, out, ?_, hok₂, ?_⟩
    · rw [hb₁]
      rw [hfl.config.1] at hb₂
      exact hb₂
    · refine ⟨fun q => ?_, fun q => ?_, fun c hc hcd => ?_, fun q hq => (hfl.index q).trans (hin.others q hq),
        ⟨hin.self.1, hin.self.2.trans hdisk₁⟩, hin.config.1.trans hfl.config.1,
        hin.config.2.1.trans hfl.config.2.1, hin.config.2.2.trans hfl.config.2.2⟩
      · rw [hin.content, hfl.content]
      · rcases hin.disk q with h' | h'
        · rw [h']; exact hfl.disk q
        · exact .inr (h'.trans (hfl.content q))
      · have hct : c ∈ ps.take (b.pageNum - b.pageNum / 5) := by
          rw [← List.take_append_drop (b.pageNum - b.pageNum / 5) ps, hcut] at hc
          exact (List.mem_append.1 hc).resolve_right hcd
        obtain ⟨h1, h2⟩ := hin.kept c hct List.not_mem_nil
        exact ⟨h1, h2.trans (hfl.pageId c hcd)⟩
  · rw [List.concat_eq_append] at h
    have hpos : ¬ (fs.concat a).length ≤ 0 := by rw [List.length_concat]; omega
    rw [if_neg hpos, if_neg hpos]
    obtain ⟨b', hb', hok, hin⟩ := h.freeListToPageList_spec hp hbuf
    exact ⟨b', a :: ps, fs, hb', hok, hin⟩

/-- A page in the pool is overwritten in its frame. -/
theorem setPageBuf_spec (h : BufOk b ps fs) (ha : b.lruIndex p = some a) (hbuf : buf.length = b.pageSize) :
    BufOk (b.setPageBuf a buf b.pageSize) ps fs ∧
      ∀ q, (b.setPageBuf a buf b.pageSize).content q = if q = p then buf else b.content q := by
  have hself : (b.setPageBuf a buf b.pageSize).node a = { b.node a with pageBuf := buf } := by
    rw [Buffer.setPageBuf, memcpy_all (h.bufLen a) hbuf]
    exact Function.update_self ..
  have hne : ∀ c, c ≠ a → (b.setPageBuf a buf b.pageSize).node c = b.node c := fun c hc => Function.update_of_ne hc ..
  have hlinks : ∀ c, ((b.setPageBuf a buf b.pageSize).node c).prev = (b.node c).prev ∧
      ((b.setPageBuf a buf b.pageSize).node c).next = (b.node c).next ∧
      ((b.setPageBuf a buf b.pageSize).node c).pageId = (b.node c).pageId := by
    intro c
    by_cases hc : c = a
    · rw [hc, hself]; exact ⟨rfl, rfl, rfl⟩
    · rw [hne c hc]; exact ⟨rfl, rfl, rfl⟩
  refine ⟨⟨h.pages.congr fun c _ => ⟨(hlinks c).1, (hlinks c).2.1⟩,
    h.frees.congr fun c _ => ⟨(hlinks c).1, (hlinks c).2.1⟩,
    h.part, fun q c => ?_, fun c => ?_, h.diskLen⟩, fun q => ?_⟩
  · dsimp only
    rw [(hlinks c).2.2]
    exact h.index q c
  · by_cases hc : c = a
    · rw [hc, hself]; exact hbuf
    · rw [hne c hc]; exact h.bufLen c
  · unfold Buffer.content
    rw [show (b.setPageBuf a buf b.pageSize).lruIndex = b.lruIndex from rfl]
    by_cases hq : q = p
    · rw [if_pos hq, hq, ha]
      dsimp only
      rw [hself]
    · rw [if_neg hq]
      cases hc : b.lruIndex q with
      | some c =>
        have hca : c ≠ a := fun h' => hq (by rw [← ((h.index q c).1 hc).2, ← ((h.index p a).1 ha).2, h'])
        dsimp only
        rw [hne c hca]
      | none => rfl

end BufOk

end Dbx1000
