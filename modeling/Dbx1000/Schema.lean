import Mathlib.Algebra.Group.Int.Defs
import Mathlib.Algebra.Group.Nat.Defs
import Mathlib.Logic.Function.Basic
import Dbx1000.Lib.IStream
import Dbx1000.Lib.Loop

/-!
# The schema file (`workload::init_schema`, `common/storage/catalog.cpp`, `table.cpp`)

`init_schema` reads the schema file line by line. A line `TABLE=name` is followed by the columns of the table,
up to a line of at most one character; the tables keep a pointer to their `Catalog`, an index into `heap`
here. The program is a function of a bound on the turns of its loops, and `failed` is a failed assertion. The
inner loop that collects the columns looks at the line only, which `getline` leaves as it is once the stream
has ended: a block whose lines are longer than one character up to the end of the file is never left (`Endless`), and
in all other files the loops end (`initSchema_terminates`).
-/

namespace Dbx1000

open IStream

/-! ### `Catalog` and `table_t` -/

structure Column where
  id : Nat
  size : Nat
  index : Nat
  type : List Char
  name : List Char
deriving DecidableEq, Repr

structure Catalog where
  tableName : List Char
  fieldCnt : Nat
  columns : List Column
  tupleSize : Nat
deriving DecidableEq, Repr

namespace Catalog

/-- `new Catalog()` -/
def new : Catalog := ⟨[], 0, [], 0⟩

/-- `Catalog::init`: the columns are a new array. -/
def init (tableName : List Char) (fieldCnt : Nat) : Catalog :=
  ⟨tableName, 0, List.replicate fieldCnt ⟨0, 0, 0, [], []⟩, 0⟩

/-- `Catalog::add_col`; `size`, `index` and `tuple_size` are 32-bit numbers. -/
def addCol (colName : List Char) (size : Nat) (type : List Char) (c : Catalog) : Run Catalog :=
  if c.fieldCnt < c.columns.length then
    .done { c with
      columns := c.columns.set c.fieldCnt ⟨c.fieldCnt, size % 2 ^ 32, c.tupleSize, type, colName⟩
      tupleSize := (c.tupleSize + size) % 2 ^ 32
      fieldCnt := c.fieldCnt + 1 }
  else .failed

end Catalog

structure TableT where
  tableName : List Char
  schema : Nat
deriving DecidableEq, Repr

/-- The catalogs that `new` has made, and `tables`. -/
structure Workload where
  heap : List Catalog
  tables : List Char → Option TableT

/-- `tables[name]->get_schema()` -/
def Workload.getSchema (name : List Char) (w : Workload) : Option Catalog :=
  (w.tables name).bind fun t => w.heap[t.schema]?

/-! ### A column line -/

/-- `atoi`: `strtol`, cut to an `int`. -/
def atoi (token : List Char) : Int :=
  let (neg, cs) := sign (token.dropWhile isSpace)
  let v := Nat.ofDigitChars 10 (cs.takeWhile Char.isDigit) 0
  let long : Int := if neg then -(min v (2 ^ 63) : Nat) else (min v (2 ^ 63 - 1) : Nat)
  long.bmod (2 ^ 32)

/-- The variables of the loop over the fields of a line. -/
structure Fields where
  line : List Char
  elemNum : Nat
  size : Int
  type : List Char
  name : List Char
deriving DecidableEq, Repr

/-- `while (line.length() != 0)`: the text up to the next comma is a field. -/
def Fields.turn (f : Fields) : Run (Fields ⊕ Fields) :=
  if f.line.length ≠ 0 then
    let pos := f.line.findIdx (· = ',')
    let token := f.line.take pos
    let line := f.line.drop (pos + 1)
    match f.elemNum with
    | 0 => .done (.inl { f with line := line, size := atoi token, elemNum := 1 })
    | 1 => .done (.inl { f with line := line, type := token, elemNum := 2 })
    | 2 => .done (.inl { f with line := line, name := token, elemNum := 3 })
    | _ => .failed
  else .done (.inr f)

/-- The body of the loop over `lines`; `add_col` takes the size as a `uint64_t`. -/
def addLine (n : Nat) (schema : Catalog) (line : List Char) : Run Catalog := do
  let f ← Run.loop Fields.turn n ⟨line, 0, 0, [], []⟩
  Run.assert (f.elemNum = 3)
  schema.addCol f.name (f.size % 2 ^ 64).toNat f.type

/-! ### `init_schema` -/

/-- `fin`, `line` and `lines` while the columns of a table are collected. -/
structure BlockReader where
  fin : IStream
  line : List Char
  lines : List (List Char)
deriving DecidableEq, Repr

/-- `while (line.length() > 1)` -/
def BlockReader.turn (r : BlockReader) : Run (BlockReader ⊕ BlockReader) :=
  if 1 < r.line.length then
    let (fin, line) := r.fin.getline r.line
    .done (.inl ⟨fin, line, r.lines ++ [r.line]⟩)
  else .done (.inr r)

structure SchemaReader where
  fin : IStream
  line : List Char
  workload : Workload

/-- A table is read into the catalog `schema`, which was allocated before the loop. -/
def readTable (n schema : Nat) (r : SchemaReader) : Run SchemaReader := do
  let tname := r.line.drop 6
  let (fin, line) := r.fin.getline r.line
  let b ← Run.loop BlockReader.turn n ⟨fin, line, []⟩
  let catalog ← b.lines.foldlM (addLine n) (.init tname b.lines.length)
  return ⟨b.fin, b.line, {
    heap := r.workload.heap.set schema catalog
    tables := Function.update r.workload.tables tname (some ⟨catalog.tableName, schema⟩) }⟩

/-- `while (getline(fin, line))` -/
def SchemaReader.turn (n schema : Nat) (r : SchemaReader) : Run (SchemaReader ⊕ Workload) :=
  let (fin, line) := r.fin.getline r.line
  if fin.fail then .done (.inr r.workload)
  else if "TABLE=".toList.isPrefixOf line then do
    let r ← readTable n schema ⟨fin, line, r.workload⟩
    return .inl r
  else .done (.inl ⟨fin, line, r.workload⟩)

/-- All tables are read into the one catalog that is allocated here. -/
def initSchema (text : List Char) (n : Nat) : Run Workload :=
  Run.loop (SchemaReader.turn n 0) n ⟨start text, [], ⟨[.new], fun _ => none⟩⟩

/-! ### The fields of a line -/

/-- The number of fields of a line; the end of a line behind a comma is not one. -/
def fieldCount (line : List Char) : Nat := line.count ',' + if line.getLast?.all (· = ',') then 0 else 1

section Fields

variable {l rest line : List Char} {n : Nat}

theorem findIdx_no_comma (hl : ',' ∉ l) : l.findIdx (fun c => decide (c = ',')) = l.length := by
  refine List.findIdx_eq_length.2 fun c hc => decide_eq_false ?_
  rintro rfl
  exact hl hc

theorem findIdx_comma (hl : ',' ∉ l) : (l ++ ',' :: rest).findIdx (fun c => decide (c = ',')) = l.length := by
  rw [List.findIdx_append, findIdx_no_comma hl, if_neg (Nat.lt_irrefl _), List.findIdx_cons]
  exact Nat.zero_add _

/-- The field in front of a comma, and the rest behind it. -/
theorem cut_comma (rest : List Char) (hl : ',' ∉ l) :
    (l ++ ',' :: rest).take ((l ++ ',' :: rest).findIdx fun c => decide (c = ',')) = l ∧
      (l ++ ',' :: rest).drop ((l ++ ',' :: rest).findIdx (fun c => decide (c = ',')) + 1) = rest := by
  rw [findIdx_comma hl]
  exact ⟨List.take_left' rfl, by rw [← List.drop_drop, List.drop_left' rfl]; rfl⟩

theorem cut_last (hl : ',' ∉ l) :
    l.take (l.findIdx fun c => decide (c = ',')) = l ∧
      l.drop (l.findIdx (fun c => decide (c = ',')) + 1) = [] := by
  rw [findIdx_no_comma hl]
  exact ⟨List.take_length, List.drop_eq_nil_of_le (Nat.le_succ _)⟩

/-- The loop takes one field at a time. -/
theorem fieldCount_eq (h : line ≠ []) :
    fieldCount line = fieldCount (line.drop (line.findIdx (fun c => decide (c = ',')) + 1)) + 1 := by
  by_cases hmem : ',' ∈ line
  · obtain ⟨l, rest, rfl, hl⟩ := List.eq_append_cons_of_mem hmem
    rw [(cut_comma rest hl).2]
    cases rest with
    | nil => simp [fieldCount, List.count_eq_zero.2 hl]
    | cons c rest =>
      have hlast : (l ++ ',' :: c :: rest).getLast? = (c :: rest).getLast? := by
        simp [List.getLast?_append, List.getLast?_cons]
      simp [fieldCount, List.count_eq_zero.2 hl, hlast, Nat.add_right_comm]
  · rw [(cut_last hmem).2]
    cases hlast : line.getLast? with
    | none => exact absurd (List.getLast?_eq_none_iff.1 hlast) h
    | some c =>
      have hc : c ≠ ',' := by
        rintro rfl
        exact hmem (List.mem_of_getLast? hlast)
      simp [fieldCount, List.count_eq_zero.2 hmem, hlast, hc]

/-- When the loop is left, all fields have been counted; the assertion in it fails at a fourth field. -/
theorem loop_fields_inv : (∀ f, Run.loop Fields.turn n ⟨line, 0, 0, [], []⟩ = .done f → f.elemNum = fieldCount line) ∧
    (Run.loop Fields.turn n ⟨line, 0, 0, [], []⟩ = .failed → 3 < fieldCount line) := by
  refine Run.loop_inv (I := fun f => f.elemNum + fieldCount f.line = fieldCount line) (fun f hf => ?_) (Nat.zero_add _)
  unfold Fields.turn
  split
  · rename_i hne
    have hcut := fieldCount_eq (show f.line ≠ [] from fun hnil => hne (by rw [hnil]; rfl))
    split
    case h_4 hlt =>
      refine ⟨nofun, nofun, fun _ => ?_⟩
      have : 2 < f.elemNum := by
        match hnum : f.elemNum with
        | 0 | 1 | 2 => simp_all
        | _ + 3 => omega
      omega
    all_goals
      refine ⟨fun f' hf' => ?_, nofun, nofun⟩
      cases hf'
      dsimp only
      omega
  · rename_i hnil
    refine ⟨nofun, fun f' hf' => ?_, nofun⟩
    cases hf'
    have hline : f.line = [] := by simpa using hnil
    rw [hline] at hf
    exact hf

/-- A field takes at least its comma, or all of the line. -/
theorem addLine_ne_unfinished {catalog : Catalog} (hn : line.length < n) : addLine n catalog line ≠ .unfinished := by
  have hloop : Run.loop Fields.turn n ⟨line, 0, 0, [], []⟩ ≠ .unfinished := by
    refine Run.loop_finishes (I := fun _ => True) (fun f => f.line.length) (fun f _ => ?_) trivial hn
    unfold Fields.turn
    split
    · rename_i hne
      split <;>
        refine ⟨nofun, fun f' hf => ⟨trivial, ?_⟩⟩ <;>
        cases hf <;>
        simp only [List.length_drop] <;>
        omega
    · exact ⟨nofun, nofun⟩
  refine Run.bind_ne_unfinished hloop fun f _ => Run.bind_ne_unfinished Run.assert_ne_unfinished fun _ _ => ?_
  unfold Catalog.addCol
  split <;> exact nofun

/-- What a line has that is added to a catalog, and what is added. -/
theorem addLine_done {c c' : Catalog} (h : addLine n c line = .done c') :
    fieldCount line = 3 ∧ c'.fieldCnt = c.fieldCnt + 1 ∧ c'.columns.length = c.columns.length := by
  obtain ⟨f, hf, h⟩ := Run.bind_eq_done.1 h
  obtain ⟨_, hthree, h⟩ := Run.bind_eq_done.1 h
  refine ⟨(loop_fields_inv.1 f hf).symm.trans (Run.of_assert hthree), ?_⟩
  unfold Catalog.addCol at h
  split at h
  · cases h
    exact ⟨rfl, List.length_set⟩
  · cases h

/-- No assertion fails on a line with three fields. -/
theorem addLine_ne_failed {c : Catalog} (h : fieldCount line = 3) (hroom : c.fieldCnt < c.columns.length) :
    addLine n c line ≠ .failed := by
  refine Run.bind_ne_failed (fun hf => absurd (loop_fields_inv.2 hf) (by omega)) fun f hf => ?_
  rw [Run.assert_of ((loop_fields_inv.1 f hf).trans h), Run.done_bind, Catalog.addCol, if_pos hroom]
  exact nofun

theorem foldlM_addLine_done {lines : List (List Char)} {c c' : Catalog} (h : lines.foldlM (addLine n) c = .done c') :
    ∀ l ∈ lines, fieldCount l = 3 := by
  induction lines generalizing c with
  | nil => exact nofun
  | cons l lines ih =>
    rw [List.foldlM_cons] at h
    obtain ⟨c₁, hc₁, h⟩ := Run.bind_eq_done.1 h
    exact List.forall_mem_cons.2 ⟨(addLine_done hc₁).1, ih h⟩

theorem foldlM_addLine_ne_failed {lines : List (List Char)} {c : Catalog} (h : ∀ l ∈ lines, fieldCount l = 3)
    (hroom : c.fieldCnt + lines.length ≤ c.columns.length) : lines.foldlM (addLine n) c ≠ .failed := by
  induction lines generalizing c with
  | nil => exact nofun
  | cons l lines ih =>
    rw [List.length_cons] at hroom
    obtain ⟨hl, hrest⟩ := List.forall_mem_cons.1 h
    rw [List.foldlM_cons]
    refine Run.bind_ne_failed (addLine_ne_failed hl (by omega)) fun c₁ hc₁ => ih hrest ?_
    obtain ⟨-, hcnt, hlen⟩ := addLine_done hc₁
    omega

end Fields

/-! ### Termination -/

/-- The lines of the file lead `init_schema` into a block that it does not leave: all lines that are left are longer
than one character, be it `TABLE=name` alone. It gets there if the lines of the blocks before have three fields. -/
inductive Endless : List (List Char) → Prop
  | other {l : List Char} {ls : List (List Char)} (hl : ¬ "TABLE=".toList <+: l) (h : Endless ls) : Endless (l :: ls)
  | last {l : List Char} {block : List (List Char)} (hl : "TABLE=".toList <+: l) (hblock : ∀ c ∈ block, 1 < c.length) :
    Endless (l :: block)
  | behind {l blank : List Char} {block ls : List (List Char)} (hl : "TABLE=".toList <+: l)
    (hblock : ∀ c ∈ block, 1 < c.length ∧ fieldCount c = 3) (hblank : blank.length ≤ 1) (h : Endless ls) :
    Endless (l :: (block ++ blank :: ls))

theorem one_lt_length_table {l : List Char} (hl : "TABLE=".toList <+: l) : 1 < l.length := by
  have := hl.length_le
  simp at this
  omega

theorem table_ne_nil {l : List Char} (hl : "TABLE=".toList <+: l) : l ≠ [] :=
  List.ne_nil_of_length_pos (Nat.lt_of_succ_lt (one_lt_length_table hl))

theorem not_endless_nil : ¬ Endless [] := nofun

/-- Such a file does not end with a newline. -/
theorem Endless.last_long {ls : List (List Char)} (h : Endless ls) : ∃ c, ls.getLast? = some c ∧ 1 < c.length := by
  induction h with
  | other hl h ih =>
    obtain ⟨c, hc, hlong⟩ := ih
    exact ⟨c, by simp [List.getLast?_cons, hc], hlong⟩
  | @last l block hl hblock =>
    cases hc : block.getLast? with
    | none => exact ⟨l, by simp [List.getLast?_cons, hc], one_lt_length_table hl⟩
    | some c => exact ⟨c, by simp [List.getLast?_cons, hc], hblock c (List.mem_of_getLast? hc)⟩
  | behind hl hblock hblank h ih =>
    obtain ⟨c, hc, hlong⟩ := ih
    exact ⟨c, by simp [List.getLast?_cons, List.getLast?_append, hc], hlong⟩

/-- A block is left at its first short line, or it goes to the end of the file. -/
theorem block_cases (ls : List (List Char)) : (∀ c ∈ ls, 1 < c.length) ∨
    ∃ block blank rest, ls = block ++ blank :: rest ∧ (∀ c ∈ block, 1 < c.length) ∧ blank.length ≤ 1 := by
  induction ls with
  | nil => exact .inl nofun
  | cons l ls ih =>
    by_cases hl : 1 < l.length
    · rcases ih with hall | ⟨block, blank, rest, rfl, hblock, hblank⟩
      · exact .inl (List.forall_mem_cons.2 ⟨hl, hall⟩)
      · exact .inr ⟨l :: block, blank, rest, rfl, List.forall_mem_cons.2 ⟨hl, hblock⟩, hblank⟩
    · exact .inr ⟨[], l, ls, rfl, nofun, Nat.le_of_not_lt hl⟩

section Block

variable {fin : IStream} {line blank : List Char} {block ls : List (List Char)} {n : Nat}

/-- The lines of a block are collected, one a turn. -/
theorem loop_block (acc : List (List Char)) (line : List Char) (h : fin.lines = block ++ blank :: ls)
    (hblock : ∀ c ∈ block, 1 < c.length) (hblank : blank.length ≤ 1) :
    ∃ fin', fin'.lines = ls ∧ Run.loop BlockReader.turn n ⟨(fin.getline line).1, (fin.getline line).2, acc⟩ =
      if block.length < n then .done ⟨fin', blank, acc ++ block⟩ else .unfinished := by
  induction block generalizing n fin line acc with
  | nil =>
    obtain ⟨hline, hlines, -⟩ := getline_of_lines h line
    refine ⟨_, hlines, ?_⟩
    cases n with
    | zero => rfl
    | succ n =>
      rw [hline, List.append_nil]
      exact Run.loop_exit (if_neg (Nat.not_lt.2 hblank))
  | cons l block ih =>
    obtain ⟨hl, hrest⟩ := List.forall_mem_cons.1 hblock
    obtain ⟨hline, hlines, -⟩ := getline_of_lines h line
    cases n with
    | zero =>
      obtain ⟨fin', hfin, -⟩ := ih (n := 0) acc l hlines hrest
      exact ⟨fin', hfin, rfl⟩
    | succ n =>
      obtain ⟨fin', hfin, hloop⟩ := ih (n := n) (acc ++ [l]) l hlines hrest
      refine ⟨fin', hfin, ?_⟩
      have hturn : BlockReader.turn ⟨(fin.getline line).1, l, acc⟩ =
          .done (.inl ⟨((fin.getline line).1.getline l).1, ((fin.getline line).1.getline l).2, acc ++ [l]⟩) :=
        if_pos hl
      rw [hline, Run.loop_next hturn, hloop, List.append_assoc, List.singleton_append, List.length_cons]
      simp only [Nat.add_lt_add_iff_right]

/-- A line of more than one character is in `line` when the stream ends: it is collected forever. -/
theorem loop_block_ended {r : BlockReader} (hended : r.fin.good = false) (hline : 1 < r.line.length) :
    Run.loop BlockReader.turn n r = .unfinished := by
  refine Run.loop_diverges (I := fun r => r.fin.good = false ∧ 1 < r.line.length) ?_ ⟨hended, hline⟩
  rintro b ⟨hended, hline⟩
  refine ⟨⟨{ b.fin with fail := true }, b.line, b.lines ++ [b.line]⟩, ?_, ?_, hline⟩
  · rw [BlockReader.turn, if_pos hline, getline_of_not_good hended]
  · simp [good]

theorem loop_block_diverges (acc : List (List Char)) (h : fin.lines = block) (hblock : ∀ c ∈ block, 1 < c.length)
    (hline : 1 < line.length) :
    Run.loop BlockReader.turn n ⟨(fin.getline line).1, (fin.getline line).2, acc⟩ = .unfinished := by
  induction block generalizing n fin line acc with
  | nil =>
    rw [getline_of_nil h]
    exact loop_block_ended (by simp [good]) hline
  | cons l block ih =>
    obtain ⟨hl, hrest⟩ := List.forall_mem_cons.1 hblock
    obtain ⟨hget, hlines, -⟩ := getline_of_lines h line
    cases n with
    | zero => rfl
    | succ n =>
      have hturn : BlockReader.turn ⟨(fin.getline line).1, l, acc⟩ =
          .done (.inl ⟨((fin.getline line).1.getline l).1, ((fin.getline line).1.getline l).2, acc ++ [l]⟩) :=
        if_pos hl
      rw [hget, Run.loop_next hturn]
      exact ih (acc ++ [l]) hlines hrest hl

end Block

section Turn

variable {r : SchemaReader} {l blank : List Char} {block ls : List (List Char)} {n : Nat}

/-- A block with an end is read, if the bound is large enough and its lines have three fields. -/
theorem readTable_block (h : r.fin.lines = block ++ blank :: ls) (hblock : ∀ c ∈ block, 1 < c.length)
    (hblank : blank.length ≤ 1) :
    (∀ r', readTable n 0 r = .done r' → r'.fin.lines = ls ∧ ∀ c ∈ block, fieldCount c = 3) ∧
    (block.length < n → (∀ c ∈ block, c.length < n) → readTable n 0 r ≠ .unfinished) ∧
    ((∀ c ∈ block, fieldCount c = 3) → readTable n 0 r ≠ .failed) := by
  obtain ⟨fin', hfin, hloop⟩ := loop_block (n := n) [] r.line h hblock hblank
  simp only [readTable, hloop, List.nil_append]
  split
  · simp only [Run.done_bind]
    refine ⟨fun r' hr => ?_, fun _ hlen => ?_, fun hthree => ?_⟩
    · obtain ⟨catalog, hcatalog, hr⟩ := Run.bind_eq_done.1 hr
      cases hr
      exact ⟨hfin, foldlM_addLine_done hcatalog⟩
    · exact Run.bind_ne_unfinished (Run.foldlM_ne_unfinished (fun c hc _ => addLine_ne_unfinished (hlen c hc)) _)
        fun _ _ => nofun
    · refine Run.bind_ne_failed (foldlM_addLine_ne_failed hthree ?_) fun _ _ => nofun
      simp [Catalog.init]
  · rename_i hbound
    exact ⟨nofun, fun hlt => absurd hlt hbound, fun _ => nofun⟩

theorem readTable_diverges (h : ∀ c ∈ r.fin.lines, 1 < c.length) (hline : 1 < r.line.length) :
    readTable n 0 r = .unfinished := by
  simp only [readTable, loop_block_diverges [] rfl h hline]
  rfl

/-- One turn of the outer loop over the line `l`. -/
theorem turn_of_lines (h : r.fin.lines = l :: ls) : ∃ fin, fin.lines = ls ∧ SchemaReader.turn n 0 r =
    if l = [] ∧ ls = [] then .done (.inr r.workload)
    else if "TABLE=".toList <+: l then readTable n 0 ⟨fin, l, r.workload⟩ >>= fun r => pure (.inl r)
    else .done (.inl ⟨fin, l, r.workload⟩) := by
  obtain ⟨hline, hlines, hfail⟩ := getline_of_lines h r.line
  refine ⟨_, hlines, ?_⟩
  simp only [SchemaReader.turn, hline, hfail, List.isPrefixOf_iff_prefix]

end Turn

theorem loop_diverges_of_endless {r : SchemaReader} {m n : Nat} (h : Endless r.fin.lines) :
    Run.loop (SchemaReader.turn n 0) m r = .unfinished := by
  generalize hls : r.fin.lines = ls at h
  induction h generalizing m r with
  | @other l ls hl h ih =>
    have hne : ¬ (l = [] ∧ ls = []) := fun hnil => not_endless_nil (hnil.2 ▸ h)
    cases m with
    | zero => rfl
    | succ m =>
      obtain ⟨fin, hlines, hturn⟩ := turn_of_lines (n := n) hls
      rw [if_neg hne, if_neg hl] at hturn
      rw [Run.loop_next hturn]
      exact ih hlines
  | last hl hblock =>
    cases m with
    | zero => rfl
    | succ m =>
      obtain ⟨fin, rfl, hturn⟩ := turn_of_lines (n := n) hls
      rw [if_neg fun hnil => table_ne_nil hl hnil.1, if_pos hl,
        readTable_diverges hblock (one_lt_length_table hl)] at hturn
      rw [Run.loop, hturn]
      rfl
  | @behind l blank block ls hl hblock hblank h ih =>
    cases m with
    | zero => rfl
    | succ m =>
      obtain ⟨fin, hlines, hturn⟩ := turn_of_lines (n := n) hls
      rw [if_neg fun hnil => table_ne_nil hl hnil.1, if_pos hl] at hturn
      obtain ⟨hdone, -, hfailed⟩ := readTable_block (n := n) (r := ⟨fin, l, r.workload⟩) hlines
        (fun c hc => (hblock c hc).1) hblank
      cases hread : readTable n 0 ⟨fin, l, r.workload⟩ with
      | done r' =>
        rw [hread] at hturn
        rw [Run.loop_next hturn]
        exact ih (hdone r' hread).1
      | failed => exact absurd hread (hfailed fun c hc => (hblock c hc).2)
      | unfinished =>
        rw [Run.loop, hturn, hread]
        rfl

/-- The bound is larger than the number of lines and than each of them. -/
structure Bounds (n : Nat) (ls : List (List Char)) : Prop where
  length : ls.length < n
  line : ∀ l ∈ ls, l.length < n

theorem Bounds.of_sublist {n : Nat} {ls ls' : List (List Char)} (h : Bounds n ls) (hsub : ls'.Sublist ls) :
    Bounds n ls' :=
  ⟨Nat.lt_of_le_of_lt hsub.length_le h.length, fun l hl => h.line l (hsub.subset hl)⟩

theorem exists_bounds (ls : List (List Char)) : ∃ bound, ∀ n, bound ≤ n → Bounds n ls := by
  induction ls with
  | nil => exact ⟨1, fun n hn => ⟨hn, nofun⟩⟩
  | cons l ls ih =>
    obtain ⟨bound, h⟩ := ih
    have hlength := (h bound (Nat.le_refl _)).length
    refine ⟨bound + l.length + 1, fun n hn => ⟨?_, List.forall_mem_cons.2 ⟨by omega, (h n (by omega)).line⟩⟩⟩
    rw [List.length_cons]
    omega

theorem turn_of_not_endless {r : SchemaReader} {n : Nat} (h : ¬ Endless r.fin.lines) (hn : Bounds n r.fin.lines) :
    SchemaReader.turn n 0 r ≠ .unfinished ∧ ∀ r', SchemaReader.turn n 0 r = .done (.inl r') →
      (¬ Endless r'.fin.lines ∧ Bounds n r'.fin.lines) ∧ r'.fin.lines.length < r.fin.lines.length := by
  match hls : r.fin.lines with
  | [] =>
    rw [SchemaReader.turn, getline_of_nil hls]
    exact ⟨nofun, nofun⟩
  | l :: ls =>
    rw [hls] at h hn
    obtain ⟨fin, rfl, hturn⟩ := turn_of_lines (n := n) hls
    rw [hturn]
    split
    · exact ⟨nofun, nofun⟩
    split
    · rename_i hl
      rcases block_cases fin.lines with hall | ⟨block, blank, rest, hsplit, hblock, hblank⟩
      · exact absurd (.last hl hall) h
      have hrest : rest.Sublist (l :: fin.lines) := by
        rw [hsplit]
        exact ((List.sublist_cons_self ..).trans (List.sublist_append_right ..)).trans (List.sublist_cons_self ..)
      have hsub : block.Sublist (l :: fin.lines) := by
        rw [hsplit]
        exact (List.sublist_append_left ..).trans (List.sublist_cons_self ..)
      obtain ⟨hdone, hfinish, -⟩ := readTable_block (n := n) (r := ⟨fin, l, r.workload⟩) hsplit hblock hblank
      have hbound := hn.of_sublist hsub
      refine ⟨Run.bind_ne_unfinished (hfinish hbound.length hbound.line) fun _ _ => nofun, fun r' hr' => ?_⟩
      obtain ⟨r₁, hr₁, hr'⟩ := Run.bind_eq_done.1 hr'
      cases hr'
      obtain ⟨rfl, hthree⟩ := hdone _ hr₁
      refine ⟨⟨fun hend => h ?_, hn.of_sublist hrest⟩, ?_⟩
      · rw [hsplit]
        exact .behind hl (fun c hc => ⟨hblock c hc, hthree c hc⟩) hblank hend
      · rw [hsplit, List.length_cons, List.length_append, List.length_cons]
        omega
    · rename_i hl
      refine ⟨nofun, fun r' hr' => ?_⟩
      cases hr'
      exact ⟨⟨fun hend => h (.other hl hend), hn.of_sublist (List.sublist_cons_self ..)⟩, Nat.lt_succ_self _⟩

/-- The loops of `init_schema` end if and only if it gets into no block that has no end. -/
theorem initSchema_terminates (text : List Char) :
    Run.Terminates (initSchema text) ↔ ¬ Endless (text.splitOn '\n') := by
  have hlines : (start text).lines = text.splitOn '\n' := if_pos good_start
  constructor
  · intro hterm hend
    exact Run.Diverges.not_terminates (fun n => loop_diverges_of_endless (hlines ▸ hend)) hterm
  · intro hend
    obtain ⟨bound, hbound⟩ := exists_bounds (start text).lines
    refine ⟨bound, fun n hn => ?_⟩
    exact Run.loop_finishes (I := fun r => ¬ Endless r.fin.lines ∧ Bounds n r.fin.lines)
      (fun r => r.fin.lines.length) (fun r hr => turn_of_not_endless hr.1 hr.2) ⟨hlines.symm ▸ hend, hbound n hn⟩
      (hbound n hn).length

/-- A table that ends with the file, behind the newline of its last column. -/
theorem initSchema_terminates_at_newline : Run.Terminates (initSchema "TABLE=MAIN\n\t8,string,KEY\n".toList) := by
  have hlast : ("TABLE=MAIN\n\t8,string,KEY\n".toList.splitOn '\n').getLast? = some [] := by decide
  refine (initSchema_terminates _).2 fun h => ?_
  obtain ⟨c, hc, hlong⟩ := h.last_long
  rw [hlast] at hc
  cases hc
  exact absurd hlong (by decide)

/-- The last column of a table has no newline behind it. -/
theorem initSchema_never_ends : ¬ Run.Terminates (initSchema "TABLE=MAIN\n\t8,string,KEY".toList) := by
  have hlines : (start "TABLE=MAIN\n\t8,string,KEY".toList).lines =
      ["TABLE=MAIN".toList, "\t8,string,KEY".toList] := by decide
  refine Run.Diverges.not_terminates fun n => loop_diverges_of_endless ?_
  rw [hlines]
  exact .last (by decide) (by decide)

end Dbx1000
