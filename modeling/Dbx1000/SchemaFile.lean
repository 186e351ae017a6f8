import Mathlib.Algebra.GroupWithZero.Nat
import Mathlib.Data.List.Induction
import Dbx1000.Schema

/-!
# Well-formed schema files

`SchemaItem` is a part of a well-formed schema file: a block for a table, or a line that is no part of one. On
such a file `init_schema` comes to the end (`initSchema_eq`), and every table of the file is in the map. They
all have the one catalog that `init_schema` allocates before it reads the first table, so that the catalog of
the last table is the catalog of all of them (`foldl_put_heap`).
-/

namespace Dbx1000

open IStream

/-! ### The text -/

@[ext] structure ColumnSpec where
  size : Nat
  type : List Char
  name : List Char
deriving DecidableEq, Repr

/-- A line `size,type,name`, with blanks in front of it. -/
structure ColumnText extends ColumnSpec where
  pad : List Char
  pad_blank : ∀ c ∈ pad, isSpace c = true
  pad_line : '\n' ∉ pad
  type_field : ',' ∉ type ∧ '\n' ∉ type
  name_field : ',' ∉ name ∧ '\n' ∉ name
  name_ne : name ≠ []

def ColumnText.text (c : ColumnText) : List Char := c.pad ++ (decimal c.size ++ ',' :: (c.type ++ ',' :: c.name))

/-- A block: `TABLE=name`, the columns and a blank line. -/
structure TableText where
  name : List Char
  columns : List ColumnText
  blank : List Char
  name_line : '\n' ∉ name
  blank_line : '\n' ∉ blank
  blank_short : blank.length ≤ 1
  fits : (columns.map fun c => c.size).sum < 2 ^ 32

def TableText.specs (t : TableText) : List ColumnSpec := t.columns.map ColumnText.toColumnSpec

/-- The lines behind `TABLE=name`, and the text after them. -/
def columnLines (lines : List (List Char)) (blank rest : List Char) : List Char :=
  lines.foldr (fun l text => l ++ '\n' :: text) (blank ++ '\n' :: rest)

inductive SchemaItem
  | table (t : TableText)
  | other (line : List Char) (line_ok : '\n' ∉ line) (not_table : ¬ "TABLE=".toList <+: line)

/-- The text of an item in front of the text `rest`. -/
def SchemaItem.text (rest : List Char) : SchemaItem → List Char
  | .table t => ("TABLE=".toList ++ t.name) ++ '\n' :: columnLines (t.columns.map ColumnText.text) t.blank rest
  | .other line _ _ => line ++ '\n' :: rest

def schemaText (items : List SchemaItem) : List Char := items.foldr (fun item rest => item.text rest) []

def SchemaItem.table? : SchemaItem → Option TableText
  | .table t => some t
  | .other .. => none

/-- The tables of the file. -/
def schemaTables (items : List SchemaItem) : List TableText := items.filterMap SchemaItem.table?

/-! ### What a catalog lists -/

/-- The columns of the catalog are those of `specs`, one behind the other. -/
structure Catalog.Lists (c : Catalog) (specs : List ColumnSpec) : Prop where
  fieldCnt : c.fieldCnt = specs.length
  length : c.columns.length = specs.length
  column : ∀ (i : Nat) (s : ColumnSpec), specs[i]? = some s →
    c.columns[i]? = some ⟨i, s.size, ((specs.take i).map ColumnSpec.size).sum, s.type, s.name⟩
  tupleSize : c.tupleSize = (specs.map ColumnSpec.size).sum

/-- A catalog lists the columns of one table only. -/
theorem Catalog.Lists.unique {c : Catalog} {specs specs' : List ColumnSpec} (h : c.Lists specs) (h' : c.Lists specs') :
    specs = specs' := by
  have hlen : specs.length = specs'.length := h.fieldCnt.symm.trans h'.fieldCnt
  refine List.ext_getElem hlen fun i hi hi' => ?_
  have hcol := (h.column i _ (List.getElem?_eq_getElem hi)).symm.trans (h'.column i _ (List.getElem?_eq_getElem hi'))
  simp only [Option.some.injEq, Column.mk.injEq] at hcol
  obtain ⟨-, hsize, -, htype, hname⟩ := hcol
  exact ColumnSpec.ext hsize htype hname

/-- The columns from number `id` and byte `index` on. -/
def columnsFrom (id index : Nat) : List ColumnSpec → List Column
  | [] => []
  | s :: specs => ⟨id, s.size, index, s.type, s.name⟩ :: columnsFrom (id + 1) (index + s.size) specs

def TableText.catalog (t : TableText) : Catalog :=
  ⟨t.name, t.specs.length, columnsFrom 0 0 t.specs, (t.specs.map ColumnSpec.size).sum⟩

theorem length_columnsFrom (id index : Nat) (specs : List ColumnSpec) :
    (columnsFrom id index specs).length = specs.length := by
  induction specs generalizing id index with
  | nil => rfl
  | cons s specs ih => rw [columnsFrom, List.length_cons, List.length_cons, ih]

theorem getElem?_columnsFrom {id index i : Nat} {specs : List ColumnSpec} {s : ColumnSpec} (h : specs[i]? = some s) :
    (columnsFrom id index specs)[i]? =
      some ⟨id + i, s.size, index + ((specs.take i).map ColumnSpec.size).sum, s.type, s.name⟩ := by
  induction specs generalizing id index i with
  | nil => cases h
  | cons x specs ih =>
    cases i with
    | zero =>
      cases h
      rfl
    | succ i =>
      rw [columnsFrom, List.getElem?_cons_succ, ih h, List.take_succ_cons, List.map_cons, List.sum_cons,
        Nat.add_assoc index, Nat.add_comm i 1, ← Nat.add_assoc id]

theorem TableText.lists_catalog (t : TableText) : t.catalog.Lists t.specs := by
  refine ⟨rfl, length_columnsFrom .., fun i s hs => ?_, rfl⟩
  have h : (columnsFrom 0 0 t.specs)[i]? = _ := getElem?_columnsFrom hs
  rwa [Nat.zero_add, Nat.zero_add] at h

/-! ### A column line is read -/

section Column

variable {l rest : List Char} {n : Nat}

theorem ColumnText.no_comma_size (c : ColumnText) : ',' ∉ c.pad ++ decimal c.size := by
  rw [List.mem_append]
  rintro (h | h)
  · exact absurd (c.pad_blank _ h) (by decide)
  · exact absurd (isDigit_of_mem_decimal h) (by decide)

/-- Three fields, and the line is used up. -/
theorem loop_fields (c : ColumnText) (hn : 3 < n) : Run.loop Fields.turn n ⟨c.text, 0, 0, [], []⟩ =
    .done ⟨[], 3, atoi (c.pad ++ decimal c.size), c.type, c.name⟩ := by
  obtain ⟨m, rfl⟩ := Nat.exists_eq_add_of_lt hn
  have htext : c.text = (c.pad ++ decimal c.size) ++ ',' :: (c.type ++ ',' :: c.name) := by
    rw [ColumnText.text, List.append_assoc]
  have hname : c.name.length ≠ 0 := fun h => c.name_ne (List.length_eq_zero_iff.1 h)
  obtain ⟨hsize, hrest⟩ := cut_comma (c.type ++ ',' :: c.name) c.no_comma_size
  obtain ⟨htype, hrest'⟩ := cut_comma c.name c.type_field.1
  obtain ⟨hlast, hnil⟩ := cut_last c.name_field.1
  have h₀ : Fields.turn ⟨c.text, 0, 0, [], []⟩ =
      .done (.inl ⟨c.type ++ ',' :: c.name, 1, atoi (c.pad ++ decimal c.size), [], []⟩) := by
    rw [htext, Fields.turn, if_pos (by simp)]
    simp only [hsize, hrest]
  have h₁ : Fields.turn ⟨c.type ++ ',' :: c.name, 1, atoi (c.pad ++ decimal c.size), [], []⟩ =
      .done (.inl ⟨c.name, 2, atoi (c.pad ++ decimal c.size), c.type, []⟩) := by
    rw [Fields.turn, if_pos (by simp)]
    simp only [htype, hrest']
  have h₂ : Fields.turn ⟨c.name, 2, atoi (c.pad ++ decimal c.size), c.type, []⟩ =
      .done (.inl ⟨[], 3, atoi (c.pad ++ decimal c.size), c.type, c.name⟩) := by
    rw [Fields.turn, if_pos hname]
    simp only [hlast, hnil]
  rw [show 3 + m + 1 = m + 1 + 1 + 1 + 1 by omega, Run.loop_next h₀, Run.loop_next h₁, Run.loop_next h₂]
  exact Run.loop_exit rfl

/-- A size below 2 ^ 32 survives `atoi`, even if the `int` is negative. -/
theorem atoi_size (c : ColumnText) (h : c.size < 2 ^ 32) :
    (atoi (c.pad ++ decimal c.size) % 2 ^ 64).toNat % 2 ^ 32 = c.size := by
  have hdrop : (c.pad ++ decimal c.size).dropWhile isSpace = decimal c.size := by
    have := dropWhile_blanks (l := []) c.pad_blank c.size
    rwa [List.append_nil] at this
  have hsign : sign (decimal c.size) = (false, decimal c.size) := by
    have := sign_decimal (l := []) c.size
    rwa [List.append_nil] at this
  have htake : (decimal c.size).takeWhile Char.isDigit = decimal c.size :=
    List.takeWhile_eq_self_iff.2 fun _ => isDigit_of_mem_decimal
  have hmin : min c.size (2 ^ 63 - 1) = c.size := Nat.min_eq_left (by omega)
  have hatoi : atoi (c.pad ++ decimal c.size) = (c.size : Int).bmod (2 ^ 32) := by
    simp only [atoi, hdrop, hsign, htake, ofDigitChars_decimal, hmin]
    rfl
  rw [hatoi, Int.bmod]
  split <;> omega

variable {tname : List Char} {done rest : List Column} {x : Column} {t : Nat}

/-- A column is put behind the columns that are there. -/
theorem addLine_column (c : ColumnText) (hn : 3 < n) (hfit : t + c.size < 2 ^ 32) :
    addLine n ⟨tname, done.length, done ++ x :: rest, t⟩ c.text =
      .done ⟨tname, done.length + 1, done ++ ⟨done.length, c.size, t, c.type, c.name⟩ :: rest, t + c.size⟩ := by
  have hsize := atoi_size c (by omega)
  have hsum : (t + (atoi (c.pad ++ decimal c.size) % 2 ^ 64).toNat) % 2 ^ 32 = t + c.size := by
    rw [Nat.add_mod, hsize, ← Nat.add_mod_mod, ← Nat.add_mod, Nat.mod_eq_of_lt hfit]
  have hset : ∀ y, (done ++ x :: rest).set done.length y = done ++ y :: rest := by
    intro y
    rw [List.set_append_right _ _ (Nat.le_refl _), Nat.sub_self, List.set_cons_zero]
  have hroom : done.length < (done ++ x :: rest).length := by simp
  simp only [addLine, loop_fields c hn, Run.done_bind, Run.assert_of, Catalog.addCol, if_pos hroom, hset, hsize, hsum]

theorem foldlM_columns (cols : List ColumnText) (tname : List Char) (done : List Column) (t : Nat) (hn : 3 < n)
    (hfit : t + (cols.map fun c => c.size).sum < 2 ^ 32) :
    (cols.map ColumnText.text).foldlM (addLine n)
        ⟨tname, done.length, done ++ List.replicate cols.length ⟨0, 0, 0, [], []⟩, t⟩ =
      .done ⟨tname, done.length + cols.length, done ++ columnsFrom done.length t (cols.map ColumnText.toColumnSpec),
        t + (cols.map fun c => c.size).sum⟩ := by
  induction cols generalizing done t with
  | nil => simp [columnsFrom]
  | cons c cols ih =>
    rw [List.map_cons, List.sum_cons] at hfit
    rw [List.map_cons, List.foldlM_cons, List.length_cons, List.replicate_succ, addLine_column c hn (by omega),
      Run.done_bind]
    have hrest := ih (done ++ [⟨done.length, c.size, t, c.type, c.name⟩]) (t + c.size) (by omega)
    rw [List.length_append, List.length_singleton, List.append_assoc, List.append_assoc] at hrest
    rw [List.map_cons, columnsFrom, List.map_cons, List.sum_cons, ← Nat.add_assoc t, Nat.add_comm cols.length,
      ← Nat.add_assoc done.length]
    exact hrest

end Column

/-! ### A block is read -/

section Block

variable {line rest : List Char} {n : Nat}

/-- The lines up to the blank one are collected. -/
theorem loop_columnLines {lines : List (List Char)} {blank : List Char} (acc : List (List Char)) (line rest : List Char)
    (hlines : ∀ l ∈ lines, '\n' ∉ l ∧ 1 < l.length) (hblank : '\n' ∉ blank) (hshort : blank.length ≤ 1)
    (hn : lines.length < n) :
    Run.loop BlockReader.turn n ⟨((start (columnLines lines blank rest)).getline line).1,
      ((start (columnLines lines blank rest)).getline line).2, acc⟩ = .done ⟨start rest, blank, acc ++ lines⟩ := by
  induction lines generalizing n line acc with
  | nil =>
    obtain ⟨m, rfl⟩ := Nat.exists_eq_add_of_lt hn
    rw [columnLines, List.foldr_nil, getline_line hblank, List.append_nil]
    exact Run.loop_exit (if_neg (Nat.not_lt.2 hshort))
  | cons l lines ih =>
    obtain ⟨m, rfl⟩ := Nat.exists_eq_add_of_lt hn
    obtain ⟨hl, hlong⟩ := hlines l List.mem_cons_self
    have hget : (start (columnLines (l :: lines) blank rest)).getline line =
        (start (columnLines lines blank rest), l) := getline_line hl
    have hturn : BlockReader.turn ⟨start (columnLines lines blank rest), l, acc⟩ =
        .done (.inl ⟨((start (columnLines lines blank rest)).getline l).1,
          ((start (columnLines lines blank rest)).getline l).2, acc ++ [l]⟩) := if_pos hlong
    have hrest := ih (acc ++ [l]) l (n := (l :: lines).length + m)
      (fun l hl => hlines l (List.mem_cons_of_mem _ hl)) (by rw [List.length_cons]; omega)
    rw [hget, Run.loop_next hturn, hrest, List.append_assoc, List.singleton_append]

theorem ColumnText.text_line (c : ColumnText) : '\n' ∉ c.text ∧ 1 < c.text.length := by
  constructor
  · simp only [ColumnText.text, List.mem_append, List.mem_cons, not_or]
    exact ⟨c.pad_line, fun h => absurd (isDigit_of_mem_decimal h) (by decide), by decide, c.type_field.2, by decide,
      c.name_field.2⟩
  · simp only [ColumnText.text, List.length_append, List.length_cons]
    omega

/-- What `init_schema` makes of a table. -/
def Workload.put (w : Workload) (t : TableText) : Workload :=
  ⟨w.heap.set 0 t.catalog, Function.update w.tables t.name (some ⟨t.name, 0⟩)⟩

theorem readTable_eq (t : TableText) (w : Workload) (hn : t.columns.length < n) (hn' : 3 < n) :
    readTable n 0 ⟨start (columnLines (t.columns.map ColumnText.text) t.blank rest), "TABLE=".toList ++ t.name, w⟩ =
      .done ⟨start rest, t.blank, w.put t⟩ := by
  have hlines : ∀ l ∈ t.columns.map ColumnText.text, '\n' ∉ l ∧ 1 < l.length := by
    intro l hl
    obtain ⟨c, -, rfl⟩ := List.mem_map.1 hl
    exact c.text_line
  have hblock := loop_columnLines (n := n) [] ("TABLE=".toList ++ t.name) rest hlines t.blank_line
    t.blank_short (by rwa [List.length_map])
  have hcols := foldlM_columns t.columns t.name [] 0 hn' (by rw [Nat.zero_add]; exact t.fits)
  have hname : ("TABLE=".toList ++ t.name).drop 6 = t.name := List.drop_left' (by decide)
  rw [List.nil_append, List.nil_append, List.length_nil, Nat.zero_add, Nat.zero_add] at hcols
  have hcatalog : (t.columns.map ColumnText.text).foldlM (addLine n)
      (.init t.name (t.columns.map ColumnText.text).length) = .done t.catalog := by
    rw [Catalog.init, List.length_map, hcols, TableText.catalog, TableText.specs, List.length_map, List.map_map]
    rfl
  simp only [readTable, hblock, Run.done_bind, hname, List.nil_append, hcatalog]
  rfl

end Block

/-! ### The file is read -/

section File

variable {items : List SchemaItem} {n : Nat}

/-- A bound on the turns of the loops. -/
def turnsFor : List SchemaItem → Nat
  | [] => 4
  | .table t :: items => turnsFor items + t.columns.length + 1
  | .other .. :: items => turnsFor items + 1

theorem turn_line {l rest line : List Char} {w : Workload} (hl : '\n' ∉ l) :
    SchemaReader.turn n 0 ⟨start (l ++ '\n' :: rest), line, w⟩ =
      if "TABLE=".toList.isPrefixOf l then readTable n 0 ⟨start rest, l, w⟩ >>= fun r => pure (.inl r)
      else .done (.inl ⟨start rest, l, w⟩) := by
  unfold SchemaReader.turn
  rw [getline_line hl]
  rfl

theorem turn_item {item : SchemaItem} (rest line : List Char) (w : Workload) (hn : turnsFor [item] ≤ n) :
    ∃ line', SchemaReader.turn n 0 ⟨start (item.text rest), line, w⟩ =
      .done (.inl ⟨start rest, line', item.table?.elim w w.put⟩) := by
  cases item with
  | table t =>
    have hline : '\n' ∉ "TABLE=".toList ++ t.name := by
      rw [List.mem_append]
      exact fun h => h.elim (by decide) t.name_line
    have hprefix : "TABLE=".toList.isPrefixOf ("TABLE=".toList ++ t.name) = true :=
      List.isPrefixOf_iff_prefix.2 (List.prefix_append ..)
    simp only [turnsFor] at hn
    refine ⟨t.blank, (turn_line hline).trans ?_⟩
    rw [if_pos hprefix, readTable_eq t w (by omega) (by omega)]
    rfl
  | other l hl hnot =>
    have hprefix : ¬ "TABLE=".toList.isPrefixOf l = true := by rwa [List.isPrefixOf_iff_prefix]
    exact ⟨l, (turn_line hl).trans (if_neg hprefix)⟩

/-- The tables of the file are put one after the other. -/
theorem loop_schemaText {line : List Char} {w : Workload} {m : Nat} (hm : turnsFor items ≤ m)
    (hn : turnsFor items ≤ n) :
    Run.loop (SchemaReader.turn n 0) m ⟨start (schemaText items), line, w⟩ =
      .done ((schemaTables items).foldl Workload.put w) := by
  induction items generalizing line w m with
  | nil =>
    obtain ⟨m, rfl⟩ : ∃ k, m = k + 1 := Nat.exists_eq_succ_of_ne_zero (by rw [turnsFor] at hm; omega)
    exact Run.loop_exit rfl
  | cons item items ih =>
    have hitem : turnsFor [item] ≤ turnsFor (item :: items) ∧ turnsFor items < turnsFor (item :: items) := by
      have h4 : ∀ l, 4 ≤ turnsFor l := by
        intro l
        induction l using turnsFor.induct <;> rw [turnsFor] <;> omega
      have := h4 items
      cases item <;> simp only [turnsFor] <;> omega
    obtain ⟨m, rfl⟩ : ∃ k, m = k + 1 := Nat.exists_eq_succ_of_ne_zero (by omega)
    obtain ⟨line', hturn⟩ := turn_item (schemaText items) line w (n := n)
      (Nat.le_trans hitem.1 hn)
    rw [schemaText, List.foldr_cons, ← schemaText, Run.loop_next hturn, ih (by omega) (by omega)]
    cases item <;> rfl

/-- `init_schema` on a well-formed file. -/
theorem initSchema_eq (items : List SchemaItem) : Run.Returns (initSchema (schemaText items))
    ((schemaTables items).foldl Workload.put ⟨[.new], fun _ => none⟩) :=
  ⟨turnsFor items, fun _ hn => loop_schemaText hn hn⟩

variable {ts : List TableText} {w : Workload}

theorem foldl_put_heap (hw : w.heap.length = 1) (t : TableText) :
    ((ts ++ [t]).foldl Workload.put w).heap = [t.catalog] := by
  have hlen : ∀ ts : List TableText, (ts.foldl Workload.put w).heap.length = 1 := by
    intro ts
    induction ts using List.reverseRecOn with
    | nil => exact hw
    | append_singleton ts t ih =>
      rw [List.foldl_append, List.foldl_cons, List.foldl_nil, Workload.put, List.length_set, ih]
  obtain ⟨c, hc⟩ := List.length_eq_one_iff.1 (hlen ts)
  rw [List.foldl_append, List.foldl_cons, List.foldl_nil, Workload.put, hc]
  rfl

theorem foldl_put_tables (name : List Char) : (ts.foldl Workload.put w).tables name =
    if name ∈ ts.map TableText.name then some ⟨name, 0⟩ else w.tables name := by
  induction ts using List.reverseRecOn with
  | nil => rfl
  | append_singleton ts t ih =>
    rw [List.foldl_append, List.foldl_cons, List.foldl_nil, Workload.put, List.map_append, List.map_singleton]
    by_cases hname : name = t.name
    · subst hname
      rw [if_pos (List.mem_append_right _ List.mem_cons_self)]
      exact Function.update_self ..
    · refine (Function.update_of_ne hname ..).trans ?_
      rw [ih]
      simp only [List.mem_append, List.mem_singleton, hname, or_false]

theorem foldl_put_getSchema (hw : w.heap.length = 1) (last : TableText) {t : TableText} (ht : t ∈ ts ++ [last]) :
    ((ts ++ [last]).foldl Workload.put w).getSchema t.name = some last.catalog := by
  rw [Workload.getSchema, foldl_put_tables, if_pos (List.mem_map_of_mem ht), foldl_put_heap hw]
  rfl

/-- The tables of the file are in the map, and each of them has its columns if and only if all have the same. -/
theorem initSchema_tables (items : List SchemaItem) :
    ∃ w, Run.Returns (initSchema (schemaText items)) w ∧
      (∀ name, (w.tables name).isSome ↔ name ∈ (schemaTables items).map TableText.name) ∧
      ((∀ t ∈ schemaTables items, ∃ c, w.getSchema t.name = some c ∧ c.Lists t.specs) ↔
        ∀ t ∈ schemaTables items, ∀ t' ∈ schemaTables items, t.specs = t'.specs) := by
  refine ⟨_, initSchema_eq items, fun name => ?_, ?_⟩
  · rw [foldl_put_tables]
    split <;> simp [*]
  rcases List.eq_nil_or_concat (schemaTables items) with hnil | ⟨ts, last, hts⟩
  · rw [hnil]
    exact iff_of_true nofun nofun
  rw [List.concat_eq_append] at hts
  have hschema : ∀ t ∈ schemaTables items,
      ((schemaTables items).foldl Workload.put ⟨[.new], fun _ => none⟩).getSchema t.name = some last.catalog := by
    rw [hts]
    exact fun t ht => foldl_put_getSchema rfl last ht
  constructor
  · -- the catalog of the last table lists the columns of every table
    intro h
    have hlast : ∀ t ∈ schemaTables items, t.specs = last.specs := by
      intro t ht
      obtain ⟨c, hc, hlists⟩ := h t ht
      cases (hschema t ht).symm.trans hc
      exact hlists.unique last.lists_catalog
    exact fun t ht t' ht' => (hlast t ht).trans (hlast t' ht').symm
  · intro hsame t ht
    have hlast : last ∈ schemaTables items := hts ▸ List.mem_append_right _ List.mem_cons_self
    exact ⟨last.catalog, hschema t ht, hsame last hlast t ht ▸ last.lists_catalog⟩

/-- The block `TABLE=A` with the column `8,int,X`. -/
def tableA : TableText where
  name := "A".toList
  columns := [⟨⟨8, "int".toList, "X".toList⟩, [], nofun, nofun, by decide, by decide, nofun⟩]
  blank := []
  name_line := by decide
  blank_line := nofun
  blank_short := Nat.zero_le 1
  fits := by decide

/-- The block `TABLE=C` with the columns of `A`. -/
def tableC : TableText := { tableA with name := "C".toList, name_line := by decide }

/-- The block `TABLE=B` with the column `4,int,Y`. -/
def tableB : TableText where
  name := "B".toList
  columns := [⟨⟨4, "int".toList, "Y".toList⟩, [], nofun, nofun, by decide, by decide, nofun⟩]
  blank := []
  name_line := by decide
  blank_line := nofun
  blank_short := Nat.zero_le 1
  fits := by decide

/-- Two tables with the column `8,int,X` and a comment between them. -/
theorem initSchema_same_columns :
    ∃ w, Run.Returns (initSchema "TABLE=A\n8,int,X\n\n// C\nTABLE=C\n8,int,X\n\n".toList) w ∧
      (∃ c, w.getSchema "A".toList = some c ∧ c.Lists [⟨8, "int".toList, "X".toList⟩]) ∧
      ∃ c, w.getSchema "C".toList = some c ∧ c.Lists [⟨8, "int".toList, "X".toList⟩] := by
  have htext : schemaText [.table tableA, .other "// C".toList (by decide) (by decide), .table tableC] =
      "TABLE=A\n8,int,X\n\n// C\nTABLE=C\n8,int,X\n\n".toList := by decide
  obtain ⟨w, hw, -, htables⟩ :=
    initSchema_tables [.table tableA, .other "// C".toList (by decide) (by decide), .table tableC]
  have hsame := htables.2 fun t ht t' ht' => by
    have hspecs : ∀ t ∈ [tableA, tableC], t.specs = tableA.specs :=
      List.forall_mem_cons.2 ⟨rfl, List.forall_mem_singleton.2 rfl⟩
    exact (hspecs t ht).trans (hspecs t' ht').symm
  rw [htext] at hw
  exact ⟨w, hw, hsame tableA List.mem_cons_self, hsame tableC (List.mem_cons_of_mem _ List.mem_cons_self)⟩

/-- The columns of `B` are found under `A` as well. -/
theorem initSchema_last_table :
    schemaText [.table tableA, .table tableB] = "TABLE=A\n8,int,X\n\nTABLE=B\n4,int,Y\n\n".toList ∧
      ∃ w, Run.Returns (initSchema (schemaText [.table tableA, .table tableB])) w ∧
        w.getSchema "A".toList = some ⟨"B".toList, 1, [⟨0, 4, 0, "int".toList, "Y".toList⟩], 4⟩ ∧
        ¬ ∃ c, w.getSchema "A".toList = some c ∧ c.Lists tableA.specs := by
  refine ⟨by decide, _, initSchema_eq _, by decide, ?_⟩
  rintro ⟨c, hc, hlists⟩
  have hB : some tableB.catalog = some c := hc
  cases hB
  exact absurd hlists.tupleSize (by decide)

end File

end Dbx1000
