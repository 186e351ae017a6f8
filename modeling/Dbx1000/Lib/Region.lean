/-!
# Regions of memory

`Region`: `len` bytes from the address `start`. Two regions are disjoint if one ends before the other begins, and a
region inside one of two disjoint regions is disjoint from the other.
-/

structure Region where
  start : Nat
  len : Nat
deriving DecidableEq, Repr

namespace Region

variable {r r' s s' : Region}

/-- The first address behind the region. -/
def stop (r : Region) : Nat := r.start + r.len

/-- `r` lies in `s`. -/
def Sub (r s : Region) : Prop := s.start ≤ r.start ∧ r.stop ≤ s.stop

def Disjoint (r s : Region) : Prop := r.stop ≤ s.start ∨ s.stop ≤ r.start

instance : DecidableRel Disjoint := fun r s => inferInstanceAs (Decidable (r.stop ≤ s.start ∨ s.stop ≤ r.start))

theorem Sub.refl (r : Region) : r.Sub r := ⟨Nat.le_refl _, Nat.le_refl _⟩

theorem Sub.trans (h : r.Sub r') (h' : r'.Sub s) : r.Sub s := ⟨Nat.le_trans h'.1 h.1, Nat.le_trans h.2 h'.2⟩

theorem Disjoint.symm (h : r.Disjoint s) : s.Disjoint r := Or.symm h

theorem Disjoint.sub (h : r'.Disjoint s') (hr : r.Sub r') (hs : s.Sub s') : r.Disjoint s :=
  h.imp (fun h => Nat.le_trans hr.2 (Nat.le_trans h hs.1)) fun h => Nat.le_trans hs.2 (Nat.le_trans h hr.1)

/-- The empty region at the address 0 is disjoint from every region. -/
theorem null_disjoint (r : Region) : Disjoint ⟨0, 0⟩ r := .inl (Nat.zero_le _)

theorem Sub.eq_null (h : r.Sub ⟨0, 0⟩) : r = ⟨0, 0⟩ := by
  obtain ⟨start, len⟩ := r
  have hstop : start + len ≤ 0 := h.2
  rw [Nat.le_zero, Nat.add_eq_zero_iff] at hstop
  rw [hstop.1, hstop.2]

end Region
