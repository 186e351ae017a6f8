import Mathlib.Algebra.Group.Nat.Defs
import Mathlib.Data.List.TakeWhile

/-!
# Reading text from a stream

The part of `std::istream` that a program reads a text with: `getline` and `>>` into an unsigned integer,
in the C locale. A stream that has seen its end or failed before does nothing but fail (again), and leaves
the variable it was to read as it is.
-/

/-- The characters to come, `eofbit` and `failbit`. -/
structure IStream where
  rest : List Char
  eof : Bool
  fail : Bool
deriving DecidableEq, Repr

namespace IStream

/-- `isspace` -/
def isSpace (c : Char) : Bool :=
  c = ' ' || c = '\t' || c = '\n' || c = '\x0b' || c = '\x0c' || c = '\r'

/-- A stream that has not been read. -/
def start (text : List Char) : IStream := ⟨text, false, false⟩

/-- An empty stream after `s << in.rdbuf()`, which fails if there is nothing to insert. -/
def copied (text : List Char) : IStream := ⟨text, false, text.isEmpty⟩

def good (s : IStream) : Bool := !s.eof && !s.fail

/-- `getline(s, line)`: the string is cleared and refilled by a good stream only. -/
def getline (s : IStream) (line : List Char) : IStream × List Char :=
  if s.good then
    match s.rest.dropWhile (· ≠ '\n') with
    -- the newline is taken from the stream
    | _ :: rest => (⟨rest, false, false⟩, s.rest.takeWhile (· ≠ '\n'))
    | [] => (⟨[], true, s.rest.isEmpty⟩, s.rest)
  else ({ s with fail := true }, line)

/-- The lines to come. What is behind the last newline is a line too, be it empty. -/
def lines (s : IStream) : List (List Char) := if s.good then s.rest.splitOn '\n' else []

/-- A number in decimal. -/
def decimal (n : Nat) : List Char := Nat.toDigits 10 n

/-- The sign in front of a number, and what follows. -/
def sign : List Char → Bool × List Char
  | '-' :: cs => (true, cs)
  | '+' :: cs => (false, cs)
  | cs => (false, cs)

/-- `s >> x` for an unsigned `x` of `w` bits. A number that is too large is read as the largest one. -/
def extract (w : Nat) (s : IStream) (x : Nat) : IStream × Nat :=
  if s.good then
    match s.rest.dropWhile isSpace with
    | [] => (⟨[], true, true⟩, x)
    | cs =>
      let (neg, cs) := sign cs
      let digits := cs.takeWhile Char.isDigit
      let rest := cs.dropWhile Char.isDigit
      let v := Nat.ofDigitChars 10 digits 0
      if digits = [] then (⟨rest, rest.isEmpty, true⟩, 0)
      else if v < 2 ^ w then (⟨rest, rest.isEmpty, false⟩, if neg then (2 ^ w - v) % 2 ^ w else v)
      else (⟨rest, rest.isEmpty, true⟩, 2 ^ w - 1)
  else ({ s with fail := true }, x)

/-! ### Lines -/

variable {s : IStream} {l rest : List Char} {line : List Char}

@[simp] theorem good_start : (start l).good = true := rfl

theorem getline_line (hl : '\n' ∉ l) : getline (start (l ++ '\n' :: rest)) line = (start rest, l) := by
  have hp : ∀ c ∈ l, decide (c ≠ '\n') = true := fun c hc => decide_eq_true fun h => hl (h ▸ hc)
  have htake : (l ++ '\n' :: rest).takeWhile (fun c => decide (c ≠ '\n')) = l := by
    rw [List.takeWhile_append_of_pos hp]
    simp
  have hdrop : (l ++ '\n' :: rest).dropWhile (fun c => decide (c ≠ '\n')) = '\n' :: rest := by
    rw [List.dropWhile_append_of_pos hp]
    simp
  rw [getline, if_pos good_start, show (start (l ++ '\n' :: rest)).rest = l ++ '\n' :: rest from rfl, hdrop, htake]
  rfl

/-- A line without newline ends the stream. -/
theorem getline_tail (hl : '\n' ∉ l) : getline (start l) line = (⟨[], true, l.isEmpty⟩, l) := by
  have hdrop : l.dropWhile (fun c => decide (c ≠ '\n')) = [] :=
    List.dropWhile_eq_nil_iff.2 fun c hc => decide_eq_true fun h => hl (h ▸ hc)
  rw [getline, if_pos good_start, show (start l).rest = l from rfl, hdrop]

theorem getline_of_not_good (h : s.good = false) : getline s line = ({ s with fail := true }, line) := by
  rw [getline, h]
  rfl

theorem lines_line (hl : '\n' ∉ l) : (start (l ++ '\n' :: rest)).lines = l :: (start rest).lines := by
  have hne : ∀ c ∈ l, (c == '\n') = false := fun c hc => beq_false_of_ne fun h => hl (h ▸ hc)
  rw [lines, if_pos good_start, lines, if_pos good_start]
  exact List.splitOnP_append_cons_of_forall_mem hne '\n' rfl rest

theorem lines_tail (hl : '\n' ∉ l) : (start l).lines = [l] := by
  have hne : ∀ c ∈ l, (c == '\n') = false := fun c hc => beq_false_of_ne fun h => hl (h ▸ hc)
  rw [lines, if_pos good_start]
  exact List.splitOnP_eq_singleton hne

theorem lines_eq_nil : s.lines = [] ↔ s.good = false := by
  unfold lines
  split
  · rename_i hgood
    exact iff_of_false (List.splitOn_ne_nil _ _) (by rw [hgood]; exact nofun)
  · rename_i hgood
    exact iff_of_true rfl (Bool.eq_false_iff.2 hgood)

theorem good_iff : s.good = true ↔ s = start s.rest := by
  obtain ⟨rest, eof, fail⟩ := s
  cases eof <;> cases fail <;> simp [good, start]

/-- `getline` takes the first line. It fails when that is the empty one at the end. -/
theorem getline_of_lines {ls : List (List Char)} (h : s.lines = l :: ls) (line : List Char) :
    (s.getline line).2 = l ∧ (s.getline line).1.lines = ls ∧ ((s.getline line).1.fail = true ↔ l = [] ∧ ls = []) := by
  have hgood : s.good = true := by
    rw [← Bool.not_eq_false, ← lines_eq_nil, h]
    exact nofun
  rw [good_iff.1 hgood] at h ⊢
  generalize s.rest = text at h ⊢
  by_cases hmem : '\n' ∈ text
  · obtain ⟨l', rest, rfl, hl⟩ := List.eq_append_cons_of_mem hmem
    rw [lines_line hl] at h
    cases h
    rw [getline_line hl]
    exact ⟨rfl, rfl, nofun, fun hnil => absurd (lines_eq_nil.1 hnil.2) nofun⟩
  · rw [lines_tail hmem] at h
    cases h
    rw [getline_tail hmem]
    exact ⟨rfl, rfl, by simp⟩

/-- At the end the line stays as it is. -/
theorem getline_of_nil (h : s.lines = []) : s.getline line = ({ s with fail := true }, line) :=
  getline_of_not_good (lines_eq_nil.1 h)

/-! ### Numbers -/

theorem isDigit_of_mem_decimal {n : Nat} {c : Char} (h : c ∈ decimal n) : c.isDigit = true :=
  Nat.isDigit_of_mem_toDigits (by decide) (by decide) h

theorem decimal_ne_nil {n : Nat} : decimal n ≠ [] := Nat.toDigits_ne_nil

theorem ofDigitChars_decimal (n : Nat) : Nat.ofDigitChars 10 (decimal n) 0 = n := Nat.ofDigitChars_ten_toDigits

/-- A printed number begins with a digit. -/
theorem decimal_eq_cons (n : Nat) : ∃ c cs, decimal n = c :: cs ∧ c.isDigit = true := by
  obtain ⟨c, cs, h⟩ := List.exists_cons_of_ne_nil (decimal_ne_nil (n := n))
  refine ⟨c, cs, h, isDigit_of_mem_decimal (n := n) ?_⟩
  rw [h]
  exact List.mem_cons_self

theorem not_isSpace_of_isDigit {c : Char} (h : c.isDigit = true) : isSpace c = false := by
  rw [Bool.eq_false_iff]
  intro hc
  simp only [isSpace, Bool.or_eq_true, decide_eq_true_eq] at hc
  rcases hc with ((((rfl | rfl) | rfl) | rfl) | rfl) | rfl <;> exact absurd h (by decide)

/-- The digits of a printed number are read up to a character that is not a digit. -/
theorem takeWhile_decimal {n : Nat} {c : Char} (hc : c.isDigit = false) :
    (decimal n ++ c :: rest).takeWhile Char.isDigit = decimal n := by
  rw [List.takeWhile_append_of_pos fun _ => isDigit_of_mem_decimal, List.takeWhile_cons_of_neg (by simp [hc]),
    List.append_nil]

theorem dropWhile_decimal {n : Nat} {c : Char} (hc : c.isDigit = false) :
    (decimal n ++ c :: rest).dropWhile Char.isDigit = c :: rest := by
  rw [List.dropWhile_append_of_pos fun _ => isDigit_of_mem_decimal, List.dropWhile_cons_of_neg (by simp [hc])]

theorem sign_decimal (n : Nat) : sign (decimal n ++ l) = (false, decimal n ++ l) := by
  obtain ⟨c, cs, h, hc⟩ := decimal_eq_cons n
  rw [h, List.cons_append, sign.eq_def]
  split
  · rename_i heq
    cases heq
    exact absurd hc (by decide)
  · rename_i heq
    cases heq
    exact absurd hc (by decide)
  · rfl

/-- Blanks in front of a printed number are skipped. -/
theorem dropWhile_blanks {pad : List Char} (hpad : ∀ c ∈ pad, isSpace c = true) (n : Nat) :
    (pad ++ (decimal n ++ l)).dropWhile isSpace = decimal n ++ l := by
  obtain ⟨c, cs, h, hc⟩ := decimal_eq_cons n
  rw [List.dropWhile_append_of_pos hpad, h, List.cons_append,
    List.dropWhile_cons_of_neg (by rw [not_isSpace_of_isDigit hc]; exact nofun)]

/-- A printed number that fits is read back. -/
theorem extract_decimal {w n x : Nat} (hn : n < 2 ^ w) {pad : List Char} (hpad : ∀ c ∈ pad, isSpace c = true) {c : Char}
    (hc : c.isDigit = false) : extract w (start (pad ++ (decimal n ++ c :: rest))) x = (start (c :: rest), n) := by
  have hdrop : (start (pad ++ (decimal n ++ c :: rest))).rest.dropWhile isSpace = decimal n ++ c :: rest :=
    dropWhile_blanks hpad n
  obtain ⟨d, ds, hd, -⟩ := decimal_eq_cons n
  rw [extract, if_pos good_start, hdrop]
  split
  · rename_i heq
    rw [hd] at heq
    cases heq
  · simp only [sign_decimal, takeWhile_decimal hc, dropWhile_decimal hc, ofDigitChars_decimal, decimal_ne_nil, hn,
      if_false, if_true]
    rfl

/-- Nothing but blanks is left. -/
theorem extract_blanks {w x : Nat} {pad : List Char} (hpad : ∀ c ∈ pad, isSpace c = true) :
    extract w (start pad) x = (⟨[], true, true⟩, x) := by
  have hdrop : (start pad).rest.dropWhile isSpace = [] := List.dropWhile_eq_nil_iff.2 hpad
  rw [extract, if_pos good_start, hdrop]

end IStream
