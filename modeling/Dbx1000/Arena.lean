import Mathlib.Algebra.Group.Nat.Defs
import Mathlib.Data.Nat.Bitwise
import Dbx1000.Lib.Lts
import Dbx1000.Lib.Region

/-!
# The arena (`util/arena.h`, `util/arena.cpp`)

`Allocate` and `AllocateAligned` hand out the rest of the current block, or ask `new` for one. What `new` returns is
chosen by the environment; `NewOk` is its contract. The regions handed out by any run of calls are disjoint and
lie in the blocks (`arena_regions_disjoint`), and the blocks take at most a third more than what was asked for, but
for the last one (`arena_blocks_bounded`).

`size_t` is 64 bits wide; a pointer is its address.
-/

namespace Dbx1000

def kBlockSize : Nat := 4096

/-- `align` of `AllocateAligned` -/
def arenaAlign : Nat := 8

/-- `blocks_` has the length of each block, which the destructor leaves to `delete[]`. -/
structure Arena where
  allocPtr : Nat
  allocBytesRemaining : Nat
  blocks : List Region
  memoryUsage : Nat
deriving DecidableEq, Repr

namespace Arena

def init : Arena := ⟨0, 0, [], 0⟩

/-- `AllocateNewBlock`, where `new` returns `p`. -/
def allocateNewBlock (a : Arena) (p blockBytes : Nat) : Arena :=
  { a with
    blocks := a.blocks ++ [⟨p, blockBytes⟩]
    memoryUsage := (a.memoryUsage + (blockBytes + 8)) % 2 ^ 64 }

/-- `AllocateFallback`, with the result. -/
def allocateFallback (a : Arena) (p bytes : Nat) : Nat × Arena :=
  if kBlockSize / 4 < bytes then (p, a.allocateNewBlock p bytes)
  else
    (p, { a.allocateNewBlock p kBlockSize with allocPtr := p + bytes, allocBytesRemaining := kBlockSize - bytes })

/-- `Allocate`; `none` is the failed assertion. -/
def allocate (a : Arena) (p bytes : Nat) : Option (Nat × Arena) :=
  if 0 < bytes then
    some (if bytes ≤ a.allocBytesRemaining then
      (a.allocPtr, { a with
        allocPtr := a.allocPtr + bytes
        allocBytesRemaining := a.allocBytesRemaining - bytes })
    else a.allocateFallback p bytes)
  else none

/-- `slop` of `AllocateAligned` -/
def slop (a : Arena) : Nat :=
  let currentMod := a.allocPtr &&& (arenaAlign - 1)
  if currentMod = 0 then 0 else arenaAlign - currentMod

/-- `AllocateAligned`; `none` is the failed assertion on the result. -/
def allocateAligned (a : Arena) (p bytes : Nat) : Option (Nat × Arena) :=
  let needed := (bytes + a.slop) % 2 ^ 64
  let r := if needed ≤ a.allocBytesRemaining then
      (a.allocPtr + a.slop, { a with
        allocPtr := a.allocPtr + needed
        allocBytesRemaining := a.allocBytesRemaining - needed })
    else a.allocateFallback p bytes
  if r.1 &&& (arenaAlign - 1) = 0 then some r else none

/-! ### What a call does -/

/-- The region that a call hands out and the arena after it: the rest of the block has room behind `slop` bytes, or
a block of its own is made for the region, or a new current block. -/
inductive Alloc (a : Arena) (p bytes slop : Nat) : Region → Arena → Prop
  | fit (h : bytes + slop ≤ a.allocBytesRemaining) :
    Alloc a p bytes slop ⟨a.allocPtr + slop, bytes⟩
      { a with allocPtr := a.allocPtr + (bytes + slop)
               allocBytesRemaining := a.allocBytesRemaining - (bytes + slop) }
  | separate (h : a.allocBytesRemaining < bytes + slop) (hb : kBlockSize / 4 < bytes) :
    Alloc a p bytes slop ⟨p, bytes⟩ (a.allocateNewBlock p bytes)
  | block (h : a.allocBytesRemaining < bytes + slop) (hb : bytes ≤ kBlockSize / 4) :
    Alloc a p bytes slop ⟨p, bytes⟩
      { a.allocateNewBlock p kBlockSize with allocPtr := p + bytes, allocBytesRemaining := kBlockSize - bytes }

variable {a a' : Arena} {p q bytes slop : Nat} {r : Region}

theorem allocateFallback_fst (a : Arena) (p bytes : Nat) : (a.allocateFallback p bytes).1 = p := by
  unfold allocateFallback
  split <;> rfl

theorem Alloc.fallback (h : a.allocBytesRemaining < bytes + slop) :
    Alloc a p bytes slop ⟨(a.allocateFallback p bytes).1, bytes⟩ (a.allocateFallback p bytes).2 := by
  unfold allocateFallback
  split
  · exact .separate h ‹_›
  · exact .block h (Nat.not_lt.1 ‹_›)

theorem alloc_of_allocate (h : a.allocate p bytes = some (q, a')) : Alloc a p bytes 0 ⟨q, bytes⟩ a' := by
  unfold allocate at h
  split at h
  · split at h
    · cases h
      exact .fit ‹_›
    · rename_i hfit
      have hfb : Alloc a p bytes 0 ⟨(a.allocateFallback p bytes).1, bytes⟩ (a.allocateFallback p bytes).2 :=
        .fallback (Nat.lt_of_not_le hfit)
      injection h with h
      rw [h] at hfb
      exact hfb
  · cases h

theorem slop_lt (a : Arena) : a.slop < arenaAlign ∧ (a.allocPtr + a.slop) % arenaAlign = 0 := by
  have hmod : a.allocPtr &&& (arenaAlign - 1) = a.allocPtr % arenaAlign := Nat.and_two_pow_sub_one_eq_mod a.allocPtr 3
  unfold slop
  rw [hmod]
  unfold arenaAlign
  dsimp only
  split <;> omega

theorem and_align_eq_zero {n : Nat} : n &&& (arenaAlign - 1) = 0 ↔ arenaAlign ∣ n := by
  rw [show n &&& (arenaAlign - 1) = n % arenaAlign from Nat.and_two_pow_sub_one_eq_mod n 3, Nat.dvd_iff_mod_eq_zero]

/-- The call is made with an address that `new` may return, and `needed` does not wrap. -/
theorem allocateAligned_spec (hb : bytes + arenaAlign ≤ 2 ^ 64) (hp : arenaAlign ∣ p) :
    ∃ q a', a.allocateAligned p bytes = some (q, a') ∧ arenaAlign ∣ q ∧ Alloc a p bytes a.slop ⟨q, bytes⟩ a' := by
  obtain ⟨hlt, hmod⟩ := a.slop_lt
  have hneeded : (bytes + a.slop) % 2 ^ 64 = bytes + a.slop := Nat.mod_eq_of_lt (by omega)
  unfold allocateAligned
  rw [hneeded]
  dsimp only
  split
  · rename_i hfit
    have hq : arenaAlign ∣ a.allocPtr + a.slop := Nat.dvd_of_mod_eq_zero hmod
    rw [if_pos (and_align_eq_zero.2 hq)]
    exact ⟨_, _, rfl, hq, .fit hfit⟩
  · rename_i hfit
    have hq : arenaAlign ∣ (a.allocateFallback p bytes).1 := by rw [allocateFallback_fst]; exact hp
    rw [if_pos (and_align_eq_zero.2 hq)]
    exact ⟨(a.allocateFallback p bytes).1, (a.allocateFallback p bytes).2, rfl, hq,
      .fallback (Nat.lt_of_not_le hfit)⟩

/-- What is asked of `new` if the rest of the block does not do. -/
def newBytes (bytes : Nat) : Nat := if kBlockSize / 4 < bytes then bytes else kBlockSize

/-- The rest of the current block. -/
def rest (a : Arena) : Region := ⟨a.allocPtr, a.allocBytesRemaining⟩

/-- The region lies in a block, or is the empty one at the null pointer. -/
def Owns (a : Arena) (r : Region) : Prop := r = ⟨0, 0⟩ ∨ ∃ b ∈ a.blocks, r.Sub b

theorem Owns.sub {r' : Region} (h : a.Owns r') (hr : r.Sub r') : a.Owns r := by
  rcases h with rfl | ⟨b, hb, hs⟩
  · exact .inl hr.eq_null
  · exact .inr ⟨b, hb, hr.trans hs⟩

theorem Owns.mono (h : a.Owns r) (hb : ∀ b ∈ a.blocks, b ∈ a'.blocks) : a'.Owns r :=
  h.imp_right fun ⟨b, hm, hs⟩ => ⟨b, hb b hm, hs⟩

/-- What is disjoint from the blocks is disjoint from what the arena owns. -/
theorem Owns.disjoint {c : Region} (h : a.Owns r) (hc : ∀ b ∈ a.blocks, c.Disjoint b) : r.Disjoint c := by
  rcases h with rfl | ⟨b, hb, hs⟩
  · exact Region.null_disjoint c
  · exact ((hc b hb).symm).sub hs (.refl c)

/-- The blocks after a call: the old ones, and one that `new` has returned. -/
theorem Alloc.blocks (h : Alloc a p bytes slop r a') :
    a'.blocks = a.blocks ∨ a'.blocks = a.blocks ++ [⟨p, newBytes bytes⟩] := by
  cases h with
  | fit => exact .inl rfl
  | separate _ hb => exact .inr (by rw [newBytes, if_pos hb]; rfl)
  | block _ hb => exact .inr (by rw [newBytes, if_neg (Nat.not_lt.2 hb)]; rfl)

end Arena

/-! ### The regions -/

/-- The regions `given` that an arena has handed out. -/
structure ArenaInv (a : Arena) (given : List Region) : Prop where
  blocks : a.blocks.Pairwise Region.Disjoint
  rest : a.Owns a.rest
  owns : ∀ r ∈ given, a.Owns r
  free : ∀ r ∈ given, r.Disjoint a.rest
  disjoint : given.Pairwise Region.Disjoint

namespace ArenaInv

open Arena

variable {a a' : Arena} {p bytes slop : Nat} {r : Region} {given : List Region}

theorem init : ArenaInv .init [] := ⟨.nil, .inl rfl, nofun, nofun, .nil⟩

theorem alloc (hi : ArenaInv a given) (h : Alloc a p bytes slop r a')
    (hnew : ∀ b ∈ a.blocks, Region.Disjoint ⟨p, newBytes bytes⟩ b) : ArenaInv a' (r :: given) := by
  -- a region from the rest of the block: nothing else was there
  have hsplit : ∀ {c : Region}, a'.blocks = a.blocks → c.Sub a.rest → a'.rest.Sub a.rest → c.Disjoint a'.rest →
      ArenaInv a' (c :: given) := by
    intro c hbl hc hrest hdis
    have hmono : ∀ {x : Region}, a.Owns x → a'.Owns x := fun hx => hx.mono fun b hb => by rw [hbl]; exact hb
    refine ⟨by rw [hbl]; exact hi.blocks, hmono (hi.rest.sub hrest), ?_, ?_, ?_⟩
    · exact List.forall_mem_cons.2 ⟨hmono (hi.rest.sub hc), fun x hx => hmono (hi.owns x hx)⟩
    · exact List.forall_mem_cons.2 ⟨hdis, fun x hx => (hi.free x hx).sub (.refl x) hrest⟩
    · exact List.pairwise_cons.2 ⟨fun x hx => ((hi.free x hx).sub (.refl x) hc).symm, hi.disjoint⟩
  -- a region from a new block
  have hblock : ∀ {c : Region}, a'.blocks = a.blocks ++ [⟨p, newBytes bytes⟩] → c.Sub ⟨p, newBytes bytes⟩ →
      a'.Owns a'.rest → (∀ x, a.Owns x → x.Disjoint a.rest → x.Disjoint a'.rest) → c.Disjoint a'.rest →
      ArenaInv a' (c :: given) := by
    intro c hbl hc hrest hold hdis
    have hmono : ∀ {x : Region}, a.Owns x → a'.Owns x := fun hx => hx.mono fun b hb => by
      rw [hbl]; exact List.mem_append_left _ hb
    have hmem : (⟨p, newBytes bytes⟩ : Region) ∈ a'.blocks := by
      rw [hbl]; exact List.mem_append_right _ List.mem_cons_self
    refine ⟨?_, hrest, ?_, ?_, ?_⟩
    · rw [hbl]
      refine List.pairwise_append.2 ⟨hi.blocks, List.pairwise_singleton .., fun b hb d hd => ?_⟩
      rw [List.mem_singleton.1 hd]
      exact (hnew b hb).symm
    · exact List.forall_mem_cons.2 ⟨.inr ⟨_, hmem, hc⟩, fun x hx => hmono (hi.owns x hx)⟩
    · exact List.forall_mem_cons.2 ⟨hdis, fun x hx => hold x (hi.owns x hx) (hi.free x hx)⟩
    · exact List.pairwise_cons.2
        ⟨fun x hx => (((hi.owns x hx).disjoint hnew).sub (.refl x) hc).symm, hi.disjoint⟩
  cases h with
  | fit h =>
    refine hsplit rfl ⟨Nat.le_add_right .., ?_⟩ ⟨Nat.le_add_right .., ?_⟩ (.inl ?_)
    · show a.allocPtr + slop + bytes ≤ a.allocPtr + a.allocBytesRemaining
      omega
    · show a.allocPtr + (bytes + slop) + (a.allocBytesRemaining - (bytes + slop)) ≤ a.allocPtr + a.allocBytesRemaining
      omega
    · show a.allocPtr + slop + bytes ≤ a.allocPtr + (bytes + slop)
      omega
  | separate h hb =>
    have hlen : newBytes bytes = bytes := if_pos hb
    rw [hlen] at hblock
    refine hblock rfl (.refl _) (hi.rest.mono fun b hb => List.mem_append_left _ hb) (fun _ _ h => h) ?_
    rw [hlen] at hnew
    exact (hi.rest.disjoint hnew).symm
  | block h hb =>
    have hlen : newBytes bytes = kBlockSize := if_neg (Nat.not_lt.2 hb)
    rw [hlen] at hblock hnew
    have hle : bytes ≤ kBlockSize := Nat.le_trans hb (Nat.div_le_self ..)
    have hsub : Region.Sub ⟨p + bytes, kBlockSize - bytes⟩ ⟨p, kBlockSize⟩ := by
      refine ⟨Nat.le_add_right .., ?_⟩
      show p + bytes + (kBlockSize - bytes) ≤ p + kBlockSize
      omega
    exact hblock rfl ⟨Nat.le_refl _, Nat.add_le_add_left hle p⟩
      (.inr ⟨_, List.mem_append_right _ List.mem_cons_self, hsub⟩)
      (fun x hx _ => (hx.disjoint hnew).sub (.refl x) hsub) (.inl (Nat.le_refl _))

end ArenaInv

/-! ### The memory taken -/

/-- The bytes of the blocks, and those of the regions with what their alignment may take. -/
def Arena.blockBytes (a : Arena) : Nat := (a.blocks.map Region.len).sum

def askedBytes (given : List Region) : Nat := (given.map fun r => r.len + (arenaAlign - 1)).sum

/-- `used` is the size of the current block, 0 if there is none. A block is left only for a region that its rest
cannot take, so that it is three quarters full. -/
structure ArenaCost (a : Arena) (given : List Region) : Prop where
  usage : a.memoryUsage = (a.blocks.map fun b => b.len + 8).sum % 2 ^ 64
  bound : ∃ used, (used = 0 ∨ used = kBlockSize) ∧ a.allocBytesRemaining ≤ used ∧
    3 * a.blockBytes + 4 * used ≤ 4 * askedBytes given + 3 * used + 4 * a.allocBytesRemaining

namespace ArenaCost

open Arena

variable {a a' : Arena} {p bytes slop : Nat} {r : Region} {given : List Region}

theorem init : ArenaCost .init [] := ⟨rfl, 0, .inl rfl, Nat.le_refl _, Nat.le_refl _⟩

theorem newBlock_usage (hc : ArenaCost a given) (p n : Nat) :
    (a.allocateNewBlock p n).memoryUsage = ((a.allocateNewBlock p n).blocks.map fun b => b.len + 8).sum % 2 ^ 64 := by
  rw [allocateNewBlock, hc.usage, List.map_append, List.sum_append, Nat.mod_add_mod]
  rfl

theorem newBlock_bytes (a : Arena) (p n : Nat) : (a.allocateNewBlock p n).blockBytes = a.blockBytes + n := by
  rw [blockBytes, allocateNewBlock, List.map_append, List.sum_append]
  rfl

theorem alloc (hc : ArenaCost a given) (h : Alloc a p bytes slop r a') (hs : slop < arenaAlign) :
    ArenaCost a' (r :: given) := by
  obtain ⟨used, hused, hrem, hle⟩ := hc.bound
  have hs7 : slop ≤ 7 := Nat.le_of_lt_succ hs
  have hasked : ∀ q, askedBytes (⟨q, bytes⟩ :: given) = bytes + 7 + askedBytes given := fun _ => rfl
  cases h with
  | fit h =>
    refine ⟨hc.usage, used, hused, Nat.le_trans (Nat.sub_le ..) hrem, ?_⟩
    rw [hasked]
    show 3 * a.blockBytes + _ ≤ _ + 4 * (a.allocBytesRemaining - (bytes + slop))
    omega
  | separate h hb =>
    refine ⟨hc.newBlock_usage p bytes, used, hused, hrem, ?_⟩
    rw [hasked, newBlock_bytes]
    show _ ≤ _ + 4 * a.allocBytesRemaining
    omega
  | block h hb =>
    have hk : kBlockSize = 4096 := rfl
    have hbytes : blockBytes { a.allocateNewBlock p kBlockSize with
        allocPtr := p + bytes, allocBytesRemaining := kBlockSize - bytes } = a.blockBytes + kBlockSize :=
      newBlock_bytes a p kBlockSize
    refine ⟨hc.newBlock_usage p kBlockSize, kBlockSize, .inr rfl, Nat.sub_le .., ?_⟩
    rw [hasked, hbytes]
    show _ ≤ _ + 4 * (kBlockSize - bytes)
    rw [hk] at hb hused ⊢
    omega

end ArenaCost

/-! ### Runs -/

/-- A call with the address that `new` returns if the call asks for a block. -/
structure ArenaCall where
  aligned : Bool
  bytes : Nat
  fresh : Nat

/-- An arena with the regions it has handed out, newest first. -/
structure ArenaRun where
  arena : Arena
  given : List Region
deriving DecidableEq, Repr

def ArenaRun.step (s : ArenaRun) (c : ArenaCall) : Option ArenaRun :=
  (if c.aligned then s.arena.allocateAligned c.fresh c.bytes else s.arena.allocate c.fresh c.bytes).map fun p =>
    ⟨p.2, ⟨p.1, c.bytes⟩ :: s.given⟩

def arenaLts : Lts ArenaRun ArenaCall where
  init s := s = ⟨.init, []⟩
  step := ArenaRun.step

/-- The contract of `new`: the block is aligned and apart from the others. The size leaves room for the alignment. -/
def NewOk (s : ArenaRun) (c : ArenaCall) : Prop :=
  c.bytes + arenaAlign ≤ 2 ^ 64 ∧ arenaAlign ∣ c.fresh ∧
    ∀ b ∈ s.arena.blocks, Region.Disjoint ⟨c.fresh, Arena.newBytes c.bytes⟩ b

instance (s : ArenaRun) (c : ArenaCall) : Decidable (NewOk s c) := inferInstanceAs (Decidable (_ ∧ _ ∧ _))

namespace ArenaRun

variable {s s' : ArenaRun} {c : ArenaCall}

theorem step_alloc (hok : NewOk s c) (h : s.step c = some s') :
    ∃ r slop, slop < arenaAlign ∧ Arena.Alloc s.arena c.fresh c.bytes slop r s'.arena ∧ s'.given = r :: s.given := by
  obtain ⟨⟨q, a⟩, hq, rfl⟩ := Option.map_eq_some_iff.1 h
  split at hq
  · obtain ⟨q', a', heq, -, ha⟩ := Arena.allocateAligned_spec (a := s.arena) hok.1 hok.2.1
    rw [heq] at hq
    cases hq
    exact ⟨_, _, s.arena.slop_lt.1, ha, rfl⟩
  · exact ⟨_, 0, by decide, Arena.alloc_of_allocate hq, rfl⟩

theorem inv_reach (h : arenaLts.Reach NewOk s) : ArenaInv s.arena s.given ∧ ArenaCost s.arena s.given := by
  refine h.inv (P := fun s => ArenaInv s.arena s.given ∧ ArenaCost s.arena s.given) ?_ ?_
  · rintro s rfl
    exact ⟨.init, .init⟩
  · rintro s c s' ⟨hi, hc⟩ hok hs
    obtain ⟨r, slop, hslop, ha, hg⟩ := step_alloc hok hs
    rw [hg]
    exact ⟨hi.alloc ha hok.2.2, hc.alloc ha hslop⟩

end ArenaRun

variable {s : ArenaRun}

/-- The regions that the calls hand out lie in the blocks and do not overlap, in any run. No call fails its
assertion, and what `AllocateAligned` returns is aligned. -/
theorem arena_regions_disjoint (h : arenaLts.Reach NewOk s) :
    s.given.Pairwise Region.Disjoint ∧ (∀ r ∈ s.given, r = ⟨0, 0⟩ ∨ ∃ b ∈ s.arena.blocks, r.Sub b) ∧
    ∀ c, NewOk s c → (c.aligned = true ∨ 0 < c.bytes) → ∃ q s', s.step c = some s' ∧
      s'.given = ⟨q, c.bytes⟩ :: s.given ∧ (c.aligned = true → arenaAlign ∣ q) := by
  obtain ⟨hi, -⟩ := ArenaRun.inv_reach h
  refine ⟨hi.disjoint, hi.owns, fun c hok hc => ?_⟩
  unfold ArenaRun.step
  cases hal : c.aligned with
  | true =>
    obtain ⟨q, a, heq, hq, -⟩ := Arena.allocateAligned_spec (a := s.arena) hok.1 hok.2.1
    exact ⟨q, ⟨a, _⟩, by rw [if_pos rfl, heq]; rfl, rfl, fun _ => hq⟩
  | false =>
    have hpos : 0 < c.bytes := hc.resolve_left (by rw [hal]; exact Bool.noConfusion)
    rw [if_neg Bool.noConfusion, Arena.allocate, if_pos hpos]
    exact ⟨_, _, rfl, rfl, nofun⟩

/-- A block is begun for 100 bytes, an aligned region follows in it, and 4000 bytes get a block of their own. -/
def arenaCalls : List ArenaCall := [⟨false, 100, 8192⟩, ⟨true, 50, 0⟩, ⟨false, 4000, 16384⟩, ⟨false, 7, 0⟩]

theorem arena_regions_three : ∃ s : ArenaRun, arenaLts.Reach NewOk s ∧
    s.given = [⟨8346, 7⟩, ⟨16384, 4000⟩, ⟨8296, 50⟩, ⟨8192, 100⟩] ∧ s.given.Pairwise Region.Disjoint := by
  have hrun : (arenaLts.runIf (fun s c => decide (NewOk s c)) ⟨.init, []⟩ arenaCalls).any (fun s =>
      decide (s.given = [⟨8346, 7⟩, ⟨16384, 4000⟩, ⟨8296, 50⟩, ⟨8192, 100⟩])) = true := by decide +kernel
  simp only [Option.any_eq_true, decide_eq_true_eq] at hrun
  obtain ⟨s, hs, hgiven⟩ := hrun
  have hreach : arenaLts.Reach NewOk s := .runIf (fun _ _ => of_decide_eq_true) (.init rfl) hs
  exact ⟨s, hreach, hgiven, (arena_regions_disjoint hreach).1⟩

/-- `MemoryUsage` counts the blocks with a pointer each. The blocks take at most a third more than what was asked
for, with the alignment, and one block. -/
theorem arena_blocks_bounded (h : arenaLts.Reach NewOk s) :
    s.arena.memoryUsage = (s.arena.blocks.map fun b => b.len + 8).sum % 2 ^ 64 ∧
    3 * s.arena.blockBytes ≤ 4 * askedBytes s.given + 3 * kBlockSize := by
  obtain ⟨-, hc⟩ := ArenaRun.inv_reach h
  obtain ⟨used, hused, hrem, hle⟩ := hc.bound
  refine ⟨hc.usage, ?_⟩
  rcases hused with rfl | rfl <;> omega

theorem arena_blocks_two : ∃ s : ArenaRun, arenaLts.Reach NewOk s ∧ s.arena.memoryUsage = 4104 + 4008 ∧
    3 * s.arena.blockBytes ≤ 4 * askedBytes s.given + 3 * kBlockSize := by
  have hrun : (arenaLts.runIf (fun s c => decide (NewOk s c)) ⟨.init, []⟩ arenaCalls).any (fun s =>
      decide (s.arena.memoryUsage = 4104 + 4008)) = true := by decide +kernel
  simp only [Option.any_eq_true, decide_eq_true_eq] at hrun
  obtain ⟨s, hs, husage⟩ := hrun
  have hreach : arenaLts.Reach NewOk s := .runIf (fun _ _ => of_decide_eq_true) (.init rfl) hs
  exact ⟨s, hreach, husage, (arena_blocks_bounded hreach).2⟩

end Dbx1000
