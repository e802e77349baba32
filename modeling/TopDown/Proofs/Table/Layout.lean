import Mathlib.Data.List.Forall2
import TopDown.Proofs.Analysis.Exact
import TopDown.Proofs.Table.Listing
import TopDown.Proofs.Table.Rows

namespace TopDown

open Text

variable {g h : Grammar} {t u : Table} {r : Symbol × Row} {row row' : Row} {x s : Symbol}
  {p : Production}

namespace Table

section Widths

theorem le_foldl_max {l : List Nat} {a n : Nat} (inside : n = a ∨ n ∈ l) : n ≤ l.foldl max a := by
  rw [List.foldl_max]
  rcases inside with rfl | member
  · exact Nat.le_max_left _ _
  · exact Nat.le_trans (List.le_max?_getD_of_mem member) (Nat.le_max_right _ _)

theorem name_le_nameWidth (member : r ∈ t.rows) : r.1.length ≤ t.nameWidth :=
  le_foldl_max (Or.inr (List.mem_map.mpr ⟨r, member, rfl⟩))

theorem token_le_columnWidth (x : Symbol) : x.length ≤ t.columnWidth x :=
  le_foldl_max (Or.inl rfl)

theorem cell_le_columnWidth (member : r ∈ t.rows) (x : Symbol) :
    (cellText r.2 x).length ≤ t.columnWidth x :=
  le_foldl_max (Or.inr (List.mem_map.mpr ⟨r, member, rfl⟩))

end Widths

section Cells

theorem solid_cellText (row : Row) (x : Symbol) : Solid (cellText row x) := by
  unfold cellText
  cases row.lookup x with
  | none => exact (by decide : Solid "")
  | some p => exact (plain_number p.index).toSolid

theorem cellText_eq (same : cellText row x = cellText row' x) :
    (row.lookup x).map (·.index) = (row'.lookup x).map (·.index) := by
  unfold cellText at same
  cases here : row.lookup x with
  | none =>
    cases there : row'.lookup x with
    | none => rfl
    | some q =>
      simp only [here, there] at same
      exact absurd same.symm (number_ne_empty q.index)
  | some p =>
    cases there : row'.lookup x with
    | none =>
      simp only [here, there] at same
      exact absurd same (number_ne_empty p.index)
    | some q =>
      simp only [here, there] at same
      simp [eq_of_toString_eq same]

theorem lookup_eq (same : (t.rows.lookup s).map (·.lookup x) = (u.rows.lookup s).map (·.lookup x)) :
    t.lookup s x = u.lookup s x := by
  unfold lookup Table.row
  cases here : t.rows.lookup s with
  | none =>
    rw [here, Option.map_none] at same
    rw [Option.map_eq_none_iff.mp same.symm]
  | some row =>
    rw [here, Option.map_some] at same
    obtain ⟨row', there, cell⟩ := Option.map_eq_some_iff.mp same.symm
    simp only [there, Except.map, cell]

end Cells

section Lines

variable {name : String} {cell : Symbol → String}

def fields (t : Table) (name : String) (cell : Symbol → String) : List Field :=
  (name, t.nameWidth) :: ("|", 1) :: t.columns.map fun x => (cell x, t.columnWidth x)

theorem exists_column (t : Table) : ∃ x rest, t.columns = x :: rest :=
  List.exists_cons_of_ne_nil (by simp [columns])

theorem line_eq_row (t : Table) (name : String) (cell : Symbol → String) :
    t.line name cell = Text.row (t.fields name cell) := by
  obtain ⟨x, rest, columns⟩ := t.exists_column
  have bar : " | " = " " ++ (padRight 1 "|" ++ " ") := rfl
  rw [line, fields, columns, List.map_cons, List.map_cons, row_cons_cons, row_cons_cons, bar,
    Text.row, List.map_cons, List.map_map]
  simp only [Function.comp_def, String.append_assoc]

theorem widths_fields (t : Table) (name : String) (cell : Symbol → String) :
    (t.fields name cell).map Prod.snd = t.nameWidth :: 1 :: t.columns.map t.columnWidth := by
  simp [fields, Function.comp_def]

theorem fit_fields (head : Field.Fits (name, t.nameWidth))
    (cells : ∀ x ∈ t.columns, Field.Fits (cell x, t.columnWidth x)) :
    ∀ f ∈ t.fields name cell, f.Fits := by
  have bar : Field.Fits ("|", 1) := ⟨by decide, by decide⟩
  simp only [fields, List.forall_mem_cons, List.forall_mem_map]
  exact ⟨head, bar, cells⟩

end Lines

/-- A table whose print can be read: names are plain, every cell is in a column, and an index stands
for one production. -/
structure Legible (t : Table) : Prop where
  name : ∀ r ∈ t.rows, Plain r.1
  column : ∀ x ∈ t.columns, Plain x
  production : ∀ p ∈ t.productions, p.Legible
  unique : ∀ p ∈ t.productions, ∀ q ∈ t.productions, p.index = q.index → p = q
  within : ∀ r ∈ t.rows, ∀ c ∈ r.2, c.1 ∈ t.columns

namespace Legible

theorem fit_header (legible : t.Legible) : ∀ f ∈ t.fields "" id, f.Fits := by
  have blank : Solid "" := by decide
  exact fit_fields ⟨Nat.zero_le _, blank⟩ fun x column =>
    ⟨token_le_columnWidth x, (legible.column x column).toSolid⟩

theorem fit_row (legible : t.Legible) (member : r ∈ t.rows) :
    ∀ f ∈ t.fields r.1 (cellText r.2), f.Fits :=
  fit_fields ⟨name_le_nameWidth member, (legible.name r member).toSolid⟩ fun x _ =>
    ⟨cell_le_columnWidth member x, solid_cellText r.2 x⟩

theorem mem_listed_iff (legible : t.Legible) : p ∈ t.listed ↔ p ∈ t.productions :=
  mem_listed legible.unique

theorem grid_cases (legible : t.Legible) {line : String} (member : line ∈ t.grid) :
    line = String.ofList (List.replicate t.header.length '-') ∨
      ∃ name cell, line = t.line name cell ∧ ∀ f ∈ t.fields name cell, f.Fits := by
  simp only [grid, List.mem_cons, List.mem_map] at member
  rcases member with rfl | rfl | ⟨r, row, rfl⟩
  · exact Or.inr ⟨"", id, rfl, legible.fit_header⟩
  · exact Or.inl rfl
  · exact Or.inr ⟨r.1, cellText r.2, rfl, legible.fit_row row⟩

theorem length_line (legible : t.Legible) {line : String} (member : line ∈ t.grid) :
    line.length = t.header.length := by
  rcases legible.grid_cases member with rfl | ⟨name, cell, rfl, fits⟩
  · simp
  · have here := length_row fits
    have header := length_row legible.fit_header
    rw [← fields, widths_fields] at here header
    rw [Table.header, line_eq_row, line_eq_row]
    exact Nat.succ.inj (here.trans header.symm)

theorem grid_ne_empty (legible : t.Legible) : "" ∉ t.grid := by
  intro member
  have none := legible.length_line member
  have bar : " | ".length = 3 := rfl
  rw [Table.header, line, String.length_append, String.length_append, bar, String.length_empty] at none
  omega

theorem grid_no_break (legible : t.Legible) {line : String} (member : line ∈ t.grid) :
    '\n' ∉ line.toList := by
  rcases legible.grid_cases member with rfl | ⟨name, cell, rfl, fits⟩
  · simp
  · rw [line_eq_row]
    exact row_no_break fits

theorem splitAt_format (legible : t.Legible) :
    splitAt '\n' t.format = t.grid ++ "" :: t.listed.map (·.listing) := by
  refine splitAt_intercalate rfl (fun line member => ?_) (by simp)
  simp only [List.mem_append, List.mem_cons, List.mem_map] at member
  rcases member with grid | rfl | ⟨p, listed, rfl⟩
  · exact legible.grid_no_break grid
  · simp
  · exact (legible.production p (legible.mem_listed_iff.mp listed)).no_break

theorem grid_and_listed (legible : t.Legible) (legible' : u.Legible) (same : t.format = u.format) :
    t.grid = u.grid ∧ t.listed = u.listed := by
  have none : ∀ ps : List Production, "" ∉ ps.map (·.listing) := by
    intro ps member
    obtain ⟨p, _, blank⟩ := List.mem_map.mp member
    exact p.listing_ne_empty blank
  have lines := congrArg (splitAt '\n') same
  rw [legible.splitAt_format, legible'.splitAt_format] at lines
  -- The grid ends at the first empty line.
  obtain ⟨grids, _, listings⟩ :=
    (List.append_cons_inj_of_notMem legible.grid_ne_empty (none t.listed)).mp lines
  refine ⟨grids, Production.eq_of_map_listing (fun p listed => ?_) (fun p listed => ?_) listings⟩
  · exact legible.production p (legible.mem_listed_iff.mp listed)
  · exact legible'.production p (legible'.mem_listed_iff.mp listed)

theorem columns_of_header (legible : t.Legible) (legible' : u.Legible)
    (same : t.header = u.header) : t.nameWidth = u.nameWidth ∧ t.columns = u.columns ∧
      t.columns.map t.columnWidth = u.columns.map u.columnWidth := by
  have filled : ∀ {v : Table}, v.Legible →
      ∀ f ∈ ("|", 1) :: v.columns.map fun x => (id x, v.columnWidth x), f.1 ≠ "" := by
    intro v legible
    simp only [List.forall_mem_cons, List.forall_mem_map]
    exact ⟨by decide, fun x column => (legible.column x column).ne_empty⟩
  rw [Table.header, Table.header, line_eq_row, line_eq_row] at same
  obtain ⟨names, rest⟩ := eq_of_header_eq (List.forall_mem_cons.mp legible.fit_header).2
    (List.forall_mem_cons.mp legible'.fit_header).2 (filled legible) (filled legible') same
  have cells := (List.cons.inj rest).2
  have texts := congrArg (List.map Prod.fst) cells
  have widths := congrArg (List.map Prod.snd) cells
  simp only [List.map_map, Function.comp_def, id, List.map_id'] at texts widths
  exact ⟨names, texts, widths⟩

theorem rows_of_grid (legible : t.Legible) (legible' : u.Legible) (same : t.grid = u.grid) :
    t.columns = u.columns ∧ List.Forall₂ (fun r r' => r.1 = r'.1 ∧
      ∀ x ∈ t.columns, cellText r.2 x = cellText r'.2 x) t.rows u.rows := by
  obtain ⟨header, rest⟩ := List.cons.inj same
  obtain ⟨names, columns, widths⟩ := columns_of_header legible legible' header
  have lines : List.Forall₂ (· = ·) (t.rows.map fun r => t.line r.1 (cellText r.2))
      (u.rows.map fun r => u.line r.1 (cellText r.2)) :=
    List.forall₂_eq_eq_eq.symm ▸ (List.cons.inj rest).2
  rw [List.forall₂_map_left_iff, List.forall₂_map_right_iff] at lines
  refine ⟨columns, List.forall₂_iff_zip.mpr ⟨lines.length_eq, fun {r r'} pair => ?_⟩⟩
  obtain ⟨member, member'⟩ := List.of_mem_zip pair
  have line := List.forall₂_zip lines pair
  rw [line_eq_row, line_eq_row] at line
  have fields := eq_of_row_eq (legible.fit_row member) (legible'.fit_row member')
    (by rw [widths_fields, widths_fields, names, widths]) line
  have texts := congrArg (List.map Prod.fst) fields
  simp only [Table.fields, List.map_cons, List.map_map, Function.comp_def, columns,
    List.cons.injEq, List.map_inj_left, true_and] at texts
  exact columns ▸ texts

theorem lookup_of_cellText (legible : t.Legible) (legible' : u.Legible)
    (columns : t.columns = u.columns) (listed : t.listed = u.listed) {r' : Symbol × Row}
    (member : r ∈ t.rows) (member' : r' ∈ u.rows)
    (same : ∀ x ∈ t.columns, cellText r.2 x = cellText r'.2 x) (x : Symbol) :
    r.2.lookup x = r'.2.lookup x := by
  have indices : (r.2.lookup x).map (·.index) = (r'.2.lookup x).map (·.index) := by
    by_cases column : x ∈ t.columns
    · exact cellText_eq (same x column)
    · -- The cells of other tokens are not printed, but they are empty.
      have here : r.2.lookup x = none := Option.eq_none_iff_forall_ne_some.mpr
        fun p held => column (legible.within r member _ (mem_of_lookup held))
      have there : r'.2.lookup x = none := Option.eq_none_iff_forall_ne_some.mpr
        fun p held => column (columns ▸ legible'.within r' member' _ (mem_of_lookup held))
      rw [here, there]
  cases here : r.2.lookup x with
  | none =>
    rw [here, Option.map_none] at indices
    exact (Option.map_eq_none_iff.mp indices.symm).symm
  | some p =>
    cases there : r'.2.lookup x with
    | none => simp [here, there] at indices
    | some q =>
      simp only [here, there, Option.map_some, Option.some.injEq] at indices
      have first := mem_productions.mpr ⟨r, member, x, mem_of_lookup here⟩
      have second := mem_productions.mpr ⟨r', member', x, mem_of_lookup there⟩
      rw [← legible.mem_listed_iff, listed, legible'.mem_listed_iff] at first
      rw [legible'.unique p first q second indices]

theorem eq_of_format (legible : t.Legible) (legible' : u.Legible) (same : t.format = u.format) :
    t.columns = u.columns ∧ t.rows.map (·.1) = u.rows.map (·.1) ∧
      ∀ s x, t.lookup s x = u.lookup s x := by
  obtain ⟨grids, listed⟩ := legible.grid_and_listed legible' same
  obtain ⟨columns, rows⟩ := legible.rows_of_grid legible' grids
  have names : List.Forall₂ (fun r r' => r.1 = r'.1) t.rows u.rows :=
    rows.imp fun r r' => And.left
  rw [← List.forall₂_map_right_iff, ← List.forall₂_map_left_iff, List.forall₂_eq_eq_eq] at names
  refine ⟨columns, names, fun s x => lookup_eq (map_lookup_eq ?_ s)⟩
  refine List.forall₂_iff_zip.mpr ⟨rows.length_eq, fun {r r'} pair => ?_⟩
  obtain ⟨member, member'⟩ := List.of_mem_zip pair
  obtain ⟨name, texts⟩ := List.forall₂_zip rows pair
  exact ⟨name, legible.lookup_of_cellText legible' columns listed member member' texts x⟩

end Legible

end Table

def Grammar.Plain (g : Grammar) : Prop :=
  ∀ s, s ∈ g.terminals ∨ s ∈ g.nonterminals → Text.Plain s

namespace Grammar

instance (g : Grammar) : Decidable g.Plain :=
  decidable_of_iff (∀ s ∈ g.terminals.toList ++ g.nonterminals.toList, Text.Plain s)
    (forall_congr' fun s => by rw [List.mem_append, SymbolSet.mem_toList, SymbolSet.mem_toList])

theorem Predicts.mem (predicts : g.Predicts p x) : x ∈ g.terminals ∨ x = Symbol.endMark := by
  rcases predicts with ⟨plain, ⟨mark, _⟩ | ⟨kind, _⟩⟩ | ⟨_, precedes⟩
  · exact absurd mark plain
  · exact kind
  · exact precedes.mem

theorem eq_of_index_eq {q : Production} (rule : p ∈ g.productions) (rule' : q ∈ g.productions)
    (same : p.index = q.index) : p = q := by
  obtain ⟨i, bound, rfl⟩ := List.mem_iff_getElem.mp rule
  obtain ⟨j, bound', rfl⟩ := List.mem_iff_getElem.mp rule'
  rw [g.wellFormed.index_eq, g.wellFormed.index_eq] at same
  obtain rfl := Int.ofNat.inj same
  rfl

namespace Plain

theorem production (plain : g.Plain) (rule : p ∈ g.productions) : p.Legible where
  name := plain p.name (Or.inr (g.wellFormed.name_declared p rule))
  symbols := by
    intro s member
    rcases g.wellFormed.symbol_declared p rule s member with rfl | declared
    · decide
    · exact plain s declared
  ne_nil := g.wellFormed.symbols_ne_nil p rule

theorem table (plain : g.Plain) (made : g.table = .ok t) : t.Legible := by
  obtain ⟨_, _, _, of⟩ := table_isOf made
  have rule : ∀ p ∈ t.productions, p ∈ g.productions := by
    intro p held
    obtain ⟨r, row, x, cell⟩ := Table.mem_productions.mp held
    exact (of_mem_row made row cell).1
  refine ⟨fun r member => ?_, fun x column => ?_, fun p held => plain.production (rule p held),
    fun p held q held' => eq_of_index_eq (rule p held) (rule q held'), fun r member c cell => ?_⟩
  · have name : r.1 ∈ t.rows.map (·.1) := List.mem_map.mpr ⟨r, member, rfl⟩
    rw [of.names_eq, mem_nonterminalList] at name
    exact plain r.1 (Or.inr name)
  · rw [Table.columns, of.terminals_eq, List.mem_append, List.mem_singleton] at column
    rcases column with terminal | rfl
    · exact plain x (Or.inl terminal)
    · decide
  · rw [Table.columns, of.terminals_eq, List.mem_append, List.mem_singleton]
    exact (of_mem_row made member cell).2.mem

end Plain

end Grammar

/-- A printed table tells the start symbol, the terminals, the nonterminals in the order of their rows
and all cells. The lines before the empty one have one length. -/
theorem Table.format_determines (made : g.table = .ok t) (made' : h.table = .ok u)
    (plain : g.Plain) (plain' : h.Plain) :
    (t.format = u.format → t.start = u.start ∧ t.terminals = u.terminals ∧
      t.rows.map (·.1) = u.rows.map (·.1) ∧ ∀ s x, t.lookup s x = u.lookup s x) ∧
    ∃ above below, splitAt '\n' t.format = above ++ "" :: below ∧ "" ∉ above ∧
      ∀ line ∈ above, line.length = t.header.length := by
  have legible := plain.table made
  have legible' := plain'.table made'
  constructor
  · intro same
    obtain ⟨columns, names, cells⟩ := legible.eq_of_format legible' same
    obtain ⟨_, _, _, of⟩ := Grammar.table_isOf made
    obtain ⟨_, _, _, of'⟩ := Grammar.table_isOf made'
    refine ⟨?_, ?_, names, cells⟩
    -- The first row is that of the start symbol.
    · obtain ⟨_, starts⟩ := g.nonterminalList_eq_cons
      obtain ⟨_, starts'⟩ := h.nonterminalList_eq_cons
      rw [of.names_eq, of'.names_eq, starts, starts'] at names
      rw [of.start_eq, of'.start_eq, (List.cons.inj names).1]
    · have lists : t.terminals.toList = u.terminals.toList := List.append_cancel_right columns
      exact SymbolSet.ext fun x => by rw [← SymbolSet.mem_toList, lists, SymbolSet.mem_toList]
  · exact ⟨_, _, legible.splitAt_format, legible.grid_ne_empty,
      fun line member => legible.length_line member⟩

namespace Sample

def twin : Declaration where
  start := "S"
  rules := [("S", ["A", "b"]), ("S", ["U", "U"]), ("A", ["a", "A"]), ("A", [])]
  terminals := none
  nonterminals := some ["S", "A", "U"]

def twinGrammar : Grammar :=
  ⟨twin.start, twin.productions, twin.terminalSet, twin.nonterminalSet,
    twin.wellFormed_of_fault (by decide +kernel)⟩

theorem twin_format_determines : idleGrammar.productions ≠ twinGrammar.productions ∧
    ∃ t u, idleGrammar.table = .ok t ∧ twinGrammar.table = .ok u ∧ t.format = u.format ∧
      t.start = u.start ∧ t.terminals = u.terminals ∧ t.rows.map (·.1) = u.rows.map (·.1) ∧
      ∀ s x, t.lookup s x = u.lookup s x := by
  have made : twinGrammar.table = .ok idleTable := by decide +kernel
  have plain : idleGrammar.Plain := by decide +kernel
  have plain' : twinGrammar.Plain := by decide +kernel
  have read := (Table.format_determines idle_table made plain plain').1 rfl
  exact ⟨by decide +kernel, idleTable, idleTable, idle_table, made, rfl, read⟩

end Sample

end TopDown
