import Mathlib.Data.List.Basic
import Mathlib.Tactic.Ring

/-!
# Byte buffers

`read off n` and `write off src` are `memcpy` out of and into a buffer: `write` puts `src` at `off` and
leaves the rest alone, growing the buffer where `src` reaches beyond its end, as `pwrite` does to a file.
`toLE` and `ofLE` are the representation of a number in memory, lowest byte first.
-/

namespace Buf

section Slice

variable {α : Type*} {b src : List α} {off o n i : Nat}

def read (off n : Nat) (b : List α) : List α := (b.drop off).take n

def write (off : Nat) (src b : List α) : List α := b.take off ++ (src ++ b.drop (off + src.length))

@[simp] theorem read_zero : read off 0 b = [] := List.take_zero

theorem read_length (h : b.length = n) : read 0 n b = b := by
  rw [read, List.drop_zero, ← h, List.take_length]

theorem length_read (h : off + n ≤ b.length) : (read off n b).length = n := by
  simp only [read, List.length_take, List.length_drop]
  omega

theorem getElem?_read : (read off n b)[i]? = if i < n then b[off + i]? else none := by
  simp only [read, List.getElem?_take, List.getElem?_drop]

theorem length_write (h : off ≤ b.length) : (write off src b).length = max b.length (off + src.length) := by
  simp only [write, List.length_append, List.length_take, List.length_drop]
  omega

theorem length_write_of_le (h : off + src.length ≤ b.length) : (write off src b).length = b.length := by
  rw [length_write (by omega)]
  omega

theorem getElem?_write (h : off ≤ b.length) :
    (write off src b)[i]? = if off ≤ i ∧ i < off + src.length then src[i - off]? else b[i]? := by
  have hlen : (b.take off).length = off := by simp [h]
  simp only [write, List.getElem?_append, List.getElem?_drop, List.getElem?_take, hlen]
  by_cases h₁ : i < off
  · have hout : ¬(off ≤ i ∧ i < off + src.length) := by omega
    simp only [h₁, hout, if_true, if_false]
  · rw [if_neg h₁]
    by_cases h₂ : i - off < src.length
    · rw [if_pos h₂, if_pos (by omega)]
    · rw [if_neg h₂, if_neg (by omega)]
      congr 1
      omega

/-- Outside of `[off, off + src.length)` nothing changes. -/
theorem getElem?_write_of_not (h : off ≤ b.length) (hi : i < off ∨ off + src.length ≤ i) :
    (write off src b)[i]? = b[i]? := by
  rw [getElem?_write h, if_neg (by omega)]

theorem read_write_self (h : off ≤ b.length) (hn : src.length = n) : read off n (write off src b) = src := by
  subst hn
  refine List.ext_getElem? fun i => ?_
  rw [getElem?_read, getElem?_write h]
  split
  · rw [if_pos (by omega)]
    congr 1
    omega
  · exact (List.getElem?_eq_none (by omega)).symm

theorem read_write_of_disjoint (h : off ≤ b.length) (hd : o + n ≤ off ∨ off + src.length ≤ o) :
    read o n (write off src b) = read o n b := by
  refine List.ext_getElem? fun i => ?_
  rw [getElem?_read, getElem?_read]
  split
  · exact getElem?_write_of_not h (by omega)
  · rfl

/-- Putting back what is there changes nothing. -/
theorem write_read (h : off + n ≤ b.length) : write off (read off n b) b = b := by
  refine List.ext_getElem? fun i => ?_
  rw [getElem?_write (by omega), length_read h]
  split
  · rw [getElem?_read, if_pos (by omega)]
    congr 1
    omega
  · rfl

theorem write_zero : write 0 src b = src ++ b.drop src.length := by simp [write]

/-- Two writes of which the second one starts where the first one ends. -/
theorem write_write_append {src' : List α} (h : off ≤ b.length) :
    write (off + src.length) src' (write off src b) = write off (src ++ src') b := by
  have hlen : off + src.length ≤ (write off src b).length := by
    rw [length_write h]
    exact Nat.le_max_right ..
  refine List.ext_getElem? fun i => ?_
  rw [getElem?_write hlen, getElem?_write h, getElem?_write h, List.length_append, List.getElem?_append]
  by_cases hi : i < off + src.length
  · rw [if_neg (by omega)]
    by_cases hoff : off ≤ i
    · rw [if_pos ⟨hoff, hi⟩, if_pos ⟨hoff, by omega⟩, if_pos (by omega)]
    · rw [if_neg (by omega), if_neg (by omega)]
  · by_cases hi' : i < off + src.length + src'.length
    · rw [if_pos ⟨by omega, hi'⟩, if_pos ⟨by omega, by omega⟩, if_neg (by omega)]
      congr 1
      omega
    · rw [if_neg (by omega), if_neg (by omega), if_neg (by omega)]

/-- The bytes up to the end of a write. -/
theorem read_write_append (h : off ≤ b.length) :
    read 0 (off + src.length) (write off src b) = read 0 off b ++ src := by
  have hlen : (b.take off ++ src).length = off + src.length := by simp [h]
  rw [read, read, List.drop_zero, List.drop_zero, write, ← List.append_assoc, ← hlen, List.take_left]

theorem read_append_left {b' : List α} (h : off + n ≤ b.length) : read off n (b ++ b') = read off n b := by
  rw [read, read, List.drop_append_of_le_length (by omega), List.take_append_of_le_length (by simp; omega)]

theorem read_append_right {b' : List α} (hoff : b.length = off) : read off n (b ++ b') = b'.take n := by
  rw [read, List.drop_left' hoff]

theorem read_read {m : Nat} (h : o + n ≤ m) : read o n (read off m b) = read (off + o) n b := by
  rw [read, read, read, List.drop_take, List.take_take, List.drop_drop, Nat.min_eq_left (by omega)]

end Slice

/-! ### Records of one size -/

section Records

variable {α β : Type*} {f : α → List β} {w i n : Nat} {l : List α}

theorem length_records (hf : ∀ a, (f a).length = w) : (l.flatMap f).length = w * l.length := by
  induction l with
  | nil => rfl
  | cons a l ih => rw [List.flatMap_cons, List.length_append, hf, ih, List.length_cons, Nat.mul_succ, Nat.add_comm]

theorem drop_records (hf : ∀ a, (f a).length = w) : (l.flatMap f).drop (w * i) = (l.drop i).flatMap f := by
  induction l generalizing i with
  | nil => simp
  | cons a l ih =>
    cases i with
    | zero => rfl
    | succ i =>
      have hsucc : w * (i + 1) = (f a).length + w * i := by rw [hf, Nat.mul_succ, Nat.add_comm]
      rw [List.flatMap_cons, hsucc, ← List.drop_drop, List.drop_left, ih, List.drop_succ_cons]

theorem take_records (hf : ∀ a, (f a).length = w) : (l.flatMap f).take (w * n) = (l.take n).flatMap f := by
  induction l generalizing n with
  | nil => simp
  | cons a l ih =>
    cases n with
    | zero => rfl
    | succ n =>
      have hsucc : w * (n + 1) = (f a).length + w * n := by rw [hf, Nat.mul_succ, Nat.add_comm]
      rw [List.flatMap_cons, hsucc, List.take_length_add_append, ih, List.take_succ_cons, List.flatMap_cons]

theorem read_records (hf : ∀ a, (f a).length = w) :
    read (w * i) (w * n) (l.flatMap f) = ((l.drop i).take n).flatMap f := by
  rw [read, drop_records hf, take_records hf]

end Records

section LittleEndian

/-- The lowest `w` bytes of `n`. -/
def toLE : Nat → Nat → List UInt8
  | 0, _ => []
  | w + 1, n => UInt8.ofNat n :: toLE w (n / 256)

def ofLE : List UInt8 → Nat
  | [] => 0
  | b :: bs => b.toNat + 256 * ofLE bs

variable {w n : Nat} {bs : List UInt8}

@[simp] theorem length_toLE : (toLE w n).length = w := by
  induction w generalizing n with
  | zero => rfl
  | succ w ih => rw [toLE, List.length_cons, ih]

theorem ofLE_toLE : ofLE (toLE w n) = n % 256 ^ w := by
  induction w generalizing n with
  | zero => simp [toLE, ofLE, Nat.mod_one]
  | succ w ih =>
    have hbyte : (UInt8.ofNat n).toNat = n % 256 := UInt8.toNat_ofNat'
    rw [toLE, ofLE, ih, hbyte, pow_succ', Nat.mod_mul]

theorem ofLE_toLE_of_lt (h : n < 256 ^ w) : ofLE (toLE w n) = n := by
  rw [ofLE_toLE, Nat.mod_eq_of_lt h]

theorem toLE_ofLE : toLE bs.length (ofLE bs) = bs := by
  induction bs with
  | nil => rfl
  | cons b bs ih =>
    have hb := b.toNat_lt
    have hdiv : (b.toNat + 256 * ofLE bs) / 256 = ofLE bs := by omega
    have hmod : UInt8.ofNat (b.toNat + 256 * ofLE bs) = b := by
      apply UInt8.toNat_inj.1
      rw [UInt8.toNat_ofNat']
      omega
    rw [List.length_cons, ofLE, toLE, hdiv, hmod, ih]

theorem toLE_ofLE_of_length (h : bs.length = w) : toLE w (ofLE bs) = bs := by
  rw [← h, toLE_ofLE]

end LittleEndian

end Buf
