import Dbx1000.Index
import Dbx1000.Lib.IStream
import Dbx1000.Lib.Loop

/-!
# The text index file (`Serialize2`, `DeSerialize2` of `common/index/index.cpp`)

`Serialize2` prints the entries of the map as decimal numbers, each followed by a blank. `DeSerialize2`
reads numbers from the text for as long as it finds a key, and inserts what it has read. A turn of its loop
takes one printed entry from the stream (`turn_entryText`), and the blank behind the last entry gives no key
(`turn_blanks`), nor does the empty file, for which the stream has failed from the start.
-/

namespace Dbx1000

open IStream

/-! ### `Serialize2` -/

def entryText (entry : Nat × IndexItem) : List Char :=
  decimal entry.1 ++ ' ' :: (decimal entry.2.pageId ++ ' ' :: (decimal entry.2.pageLocation ++ [' ']))

/-- The file is truncated when it is opened. -/
def serialize2 (entries : List (Nat × IndexItem)) : List Char := entries.flatMap entryText

/-! ### `DeSerialize2` -/

/-- `index_.insert` leaves an entry that is there. -/
def IndexMap.insert (index : IndexMap) (entry : Nat × IndexItem) : IndexMap :=
  if index entry.1 = none then index.indexPut entry else index

/-- The variables of `DeSerialize2`. -/
structure TextReader where
  ss : IStream
  key : Nat
  pageId : Nat
  locatin : Nat
  index : IndexMap

/-- One turn of the loop. -/
def TextReader.turn (r : TextReader) : Run (TextReader ⊕ IndexMap) :=
  let (ss, key) := r.ss.extract 64 r.key
  if ss.fail then .done (.inr r.index)
  else
    let (ss, pageId) := ss.extract 64 r.pageId
    let (ss, locatin) := ss.extract 64 r.locatin
    .done (.inl ⟨ss, key, pageId, locatin, r.index.insert (key, ⟨pageId, locatin⟩)⟩)

/-- `key`, `pageId` and `locatin` are not initialised. -/
def deSerialize2 (text : List Char) (key pageId locatin : Nat) (index : IndexMap) (n : Nat) : Run IndexMap :=
  Run.loop TextReader.turn n ⟨copied text, key, pageId, locatin, index⟩

/-! ### What is read -/

section Read

variable {entry : Nat × IndexItem} {entries : List (Nat × IndexItem)} {pad rest : List Char} {index : IndexMap}
  {key pageId locatin n : Nat}

theorem turn_entryText (hpad : ∀ c ∈ pad, isSpace c = true) (hwords : Words entry) :
    TextReader.turn ⟨start (pad ++ (entryText entry ++ rest)), key, pageId, locatin, index⟩ =
      .done (.inl ⟨start (' ' :: rest), entry.1, entry.2.pageId, entry.2.pageLocation, index.insert entry⟩) := by
  have hblank : ∀ c ∈ [' '], isSpace c = true := List.forall_mem_singleton.2 rfl
  have hdigit : ' '.isDigit = false := by decide
  have htext : entryText entry ++ rest = decimal entry.1 ++ ' ' :: (decimal entry.2.pageId ++
      ' ' :: (decimal entry.2.pageLocation ++ ' ' :: rest)) := by
    simp [entryText]
  have hkey : ∀ l, extract 64 (start (pad ++ (decimal entry.1 ++ ' ' :: l))) key = (start (' ' :: l), entry.1) :=
    fun _ => extract_decimal hwords.1 hpad hdigit
  have hid : ∀ l, extract 64 (start (' ' :: (decimal entry.2.pageId ++ ' ' :: l))) pageId =
      (start (' ' :: l), entry.2.pageId) := fun _ => extract_decimal hwords.2.1 hblank hdigit
  have hloc : extract 64 (start (' ' :: (decimal entry.2.pageLocation ++ ' ' :: rest))) locatin =
      (start (' ' :: rest), entry.2.pageLocation) := extract_decimal hwords.2.2 hblank hdigit
  simp only [TextReader.turn, htext, hkey, hid, hloc]
  rfl

theorem turn_blanks (hpad : ∀ c ∈ pad, isSpace c = true) :
    TextReader.turn ⟨start pad, key, pageId, locatin, index⟩ = .done (.inr index) := by
  simp only [TextReader.turn, extract_blanks hpad]
  rfl

/-- The loop inserts all entries, one a turn. -/
theorem loop_entries (hwords : ∀ e ∈ entries, Words e) (hpad : ∀ c ∈ pad, isSpace c = true)
    (hn : entries.length < n) :
    Run.loop TextReader.turn n ⟨start (pad ++ serialize2 entries), key, pageId, locatin, index⟩ =
      .done (entries.foldl IndexMap.insert index) := by
  induction entries generalizing n pad key pageId locatin index with
  | nil =>
    obtain ⟨m, rfl⟩ := Nat.exists_eq_add_of_lt hn
    rw [serialize2, List.flatMap_nil, List.append_nil]
    exact Run.loop_exit (turn_blanks hpad)
  | cons entry entries ih =>
    obtain ⟨m, rfl⟩ := Nat.exists_eq_add_of_lt hn
    rw [serialize2, List.flatMap_cons, Run.loop_next (turn_entryText hpad (hwords entry List.mem_cons_self))]
    have hblank : ∀ c ∈ [' '], isSpace c = true := List.forall_mem_singleton.2 rfl
    refine ih (fun e he => hwords e (List.mem_cons_of_mem _ he)) hblank ?_
    rw [List.length_cons]
    omega

/-- With more turns than entries the loop is left. -/
theorem deSerialize2_eq (hwords : ∀ e ∈ entries, Words e) (hn : entries.length < n) :
    deSerialize2 (serialize2 entries) key pageId locatin index n = .done (entries.foldl IndexMap.insert index) := by
  cases entries with
  | nil =>
    obtain ⟨m, rfl⟩ := Nat.exists_eq_add_of_lt hn
    exact Run.loop_exit rfl
  | cons entry entries =>
    have hcopied : copied (serialize2 (entry :: entries)) = start (serialize2 (entry :: entries)) := by
      obtain ⟨c, cs, h, -⟩ := decimal_eq_cons entry.1
      simp [copied, start, serialize2, entryText, h]
    have hnil : ∀ c ∈ ([] : List Char), isSpace c = true := by simp
    rw [deSerialize2, hcopied]
    exact loop_entries hwords hnil hn

end Read

/-! ### The round trip -/

namespace IndexMap

variable {index : IndexMap}

theorem insert_eq_indexPut {m : IndexMap} {entry : Nat × IndexItem} (h : m entry.1 = none ∨ m entry.1 = some entry.2) :
    m.insert entry = m.indexPut entry := by
  rw [insert]
  split
  · rfl
  · rename_i hne
    rw [indexPut, ← h.resolve_left hne, Function.update_eq_self]

/-- Entries of one map do not meet: to insert them is to put them. -/
theorem foldl_insert {entries : List (Nat × IndexItem)} {m : IndexMap} (h : ∀ e ∈ entries, index e.1 = some e.2)
    (hm : ∀ key, m key = none ∨ m key = index key) : entries.foldl insert m = entries.foldl indexPut m := by
  induction entries generalizing m with
  | nil => rfl
  | cons e entries ih =>
    have he := h e List.mem_cons_self
    rw [List.foldl_cons, List.foldl_cons, insert_eq_indexPut (he ▸ hm e.1)]
    refine ih (fun e' he' => h e' (List.mem_cons_of_mem _ he')) fun key => ?_
    by_cases hkey : key = e.1
    · rw [hkey, indexPut, Function.update_self, he]
      exact .inr rfl
    · rw [indexPut, Function.update_of_ne hkey]
      exact hm key

end IndexMap

/-- `Serialize2` in any order and `DeSerialize2` into an empty index give the map back. -/
theorem returns_deSerialize2 {index : IndexMap} (order : index.Enumeration) (key pageId locatin : Nat) :
    Run.Returns (deSerialize2 (serialize2 order.entries) key pageId locatin .empty) index := by
  have hinsert : order.entries.foldl IndexMap.insert .empty = order.entries.foldl IndexMap.indexPut .empty :=
    IndexMap.foldl_insert (fun e he => (order.mem_iff e.1 e.2).1 he) fun _ => .inl rfl
  refine ⟨order.entries.length + 1, fun n hn => ?_⟩
  rw [deSerialize2_eq order.words hn, hinsert, order.foldl_entries]

/-- A text of two entries with the largest number in it. -/
example : serialize2 [(7, ⟨1, 64⟩), (0, ⟨0, 2 ^ 64 - 1⟩)] = "7 1 64 0 0 18446744073709551615 ".toList := by decide

end Dbx1000
