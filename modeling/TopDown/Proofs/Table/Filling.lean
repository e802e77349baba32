import TopDown.Table.Generation
import TopDown.Proofs.Analysis

namespace TopDown

namespace Draft

abbrev Submission := Symbol × Production

def holder (submitted : List Submission) (name token : Symbol) : Option Production :=
  (submitted.find? fun e => e.2.name == name && e.1 == token).map (·.2)

/-- The conflict of a submission with an earlier one. -/
def clash (earlier : List Submission) (e : Submission) : List Conflict :=
  match holder earlier e.2.name e.1 with
  | some held => if held = e.2 then [] else [⟨e.2.name, e.1, held, e.2⟩]
  | none => []

def clashes : List Submission → List Submission → List Conflict
  | _, [] => []
  | earlier, e :: rest => clash earlier e ++ clashes (earlier ++ [e]) rest

theorem holder_append (xs ys : List Submission) (name token : Symbol) :
    holder (xs ++ ys) name token = (holder xs name token).or (holder ys name token) := by
  unfold holder
  rw [List.find?_append]
  cases xs.find? _ <;> rfl

theorem holder_singleton (e : Submission) (name token : Symbol) :
    holder [e] name token = if e.2.name = name ∧ e.1 = token then some e.2 else none := by
  by_cases cell : e.2.name = name ∧ e.1 = token
  · simp [holder, cell]
  · simp only [not_and] at cell
    simp [holder]

theorem holder_eq_some {submitted : List Submission} {name token : Symbol} {p : Production}
    (held : holder submitted name token = some p) : (token, p) ∈ submitted ∧ p.name = name := by
  unfold holder at held
  obtain ⟨⟨t, q⟩, found, rfl⟩ := Option.map_eq_some_iff.mp held
  have cell := List.find?_some found
  simp only [Bool.and_eq_true, beq_iff_eq] at cell
  have member := List.mem_of_find?_eq_some found
  exact ⟨cell.2 ▸ member, cell.1⟩

theorem holder_of_mem {submitted : List Submission} {e : Submission} (member : e ∈ submitted) :
    ∃ p, holder submitted e.2.name e.1 = some p := by
  unfold holder
  cases found : submitted.find? fun f => f.2.name == e.2.name && f.1 == e.1 with
  | some f => exact ⟨f.2, rfl⟩
  | none =>
    have absent := List.find?_eq_none.mp found e member
    simp at absent

theorem clashes_append (earlier xs ys : List Submission) :
    clashes earlier (xs ++ ys) = clashes earlier xs ++ clashes (earlier ++ xs) ys := by
  induction xs generalizing earlier with
  | nil => simp [clashes]
  | cons e xs ih => simp [clashes, ih]

theorem clash_eq_nil_iff {earlier : List Submission} (rest : List Submission) {e : Submission} :
    clash earlier e = [] ↔
      ∀ p, holder (earlier ++ e :: rest) e.2.name e.1 = some p → p = e.2 := by
  have first : holder (e :: rest) e.2.name e.1 = some e.2 := by simp [holder]
  rw [holder_append, first]
  unfold clash
  cases holder earlier e.2.name e.1 with
  | none => simp [eq_comm]
  | some held =>
    by_cases same : held = e.2
    · simp [same, eq_comm]
    · simp [same]

theorem clashes_eq_nil {earlier rest : List Submission} :
    clashes earlier rest = [] ↔
      ∀ e ∈ rest, ∀ p, holder (earlier ++ rest) e.2.name e.1 = some p → p = e.2 := by
  induction rest generalizing earlier with
  | nil => simp [clashes]
  | cons e rest ih =>
    rw [clashes, List.append_eq_nil_iff, clash_eq_nil_iff rest, ih, List.append_assoc,
      List.forall_mem_cons]
    rfl

theorem clashes_eq_nil_iff {submitted : List Submission} :
    clashes [] submitted = [] ↔
      ∀ token p q, (token, p) ∈ submitted → (token, q) ∈ submitted → p.name = q.name → p = q := by
  rw [clashes_eq_nil, List.nil_append]
  constructor
  · intro agree token p q hp hq name
    obtain ⟨held, found⟩ := holder_of_mem hp
    have first := agree _ hp held found
    have second := agree _ hq held (name ▸ found)
    exact first.symm.trans second
  · intro agree e member p held
    obtain ⟨inside, name⟩ := holder_eq_some held
    exact agree e.1 p e.2 inside member name

/-- The state of a draft after submissions for the cells of a grammar. -/
structure Records (g : Grammar) (submitted : List Submission) (d : Draft) : Prop where
  start_eq : d.start = g.start
  terminals_eq : d.terminals = g.terminals
  names_eq : d.rows.map (·.1) = g.nonterminalList
  row : ∀ s, s ∈ g.nonterminalList → ∃ row, d.rows.lookup s = some row ∧
    ∀ token, row.lookup token = holder submitted s token
  conflicts_eq : d.conflicts = clashes [] submitted

theorem lookup_map_pair (names : List Symbol) (s : Symbol) :
    (names.map fun n => (n, ([] : Row))).lookup s = if s ∈ names then some [] else none := by
  induction names with
  | nil => simp
  | cons n names ih =>
    by_cases same : s = n
    · simp [same]
    · have other : (s == n) = false := by simpa using same
      simp [List.lookup_cons, other, ih, same]

theorem records_ofGrammar (g : Grammar) : Records g [] (ofGrammar g) where
  start_eq := rfl
  terminals_eq := rfl
  names_eq := by simp [ofGrammar, Function.comp_def]
  row := fun s member => ⟨[], by simp [ofGrammar, lookup_map_pair, member], fun _ => rfl⟩
  conflicts_eq := rfl

theorem lookup_setRow (rows : List (Symbol × Row)) (name s : Symbol) (row : Row) :
    (setRow rows name row).lookup s =
      if s = name then (rows.lookup s).map fun _ => row else rows.lookup s := by
  induction rows with
  | nil => simp [setRow]
  | cons r rows ih =>
    obtain ⟨n, old⟩ := r
    have tail : (setRow ((n, old) :: rows) name row) =
        (n, if n = name then row else old) :: setRow rows name row := by
      simp only [setRow, List.map_cons]
      split <;> rfl
    rw [tail]
    by_cases same : s = n
    · subst same
      by_cases here : s = name <;> simp [here]
    · have other : (s == n) = false := by simpa using same
      simp [List.lookup_cons, other, ih]

theorem names_setRow (rows : List (Symbol × Row)) (name : Symbol) (row : Row) :
    (setRow rows name row).map (·.1) = rows.map (·.1) := by
  simp only [setRow, List.map_map]
  apply List.map_congr_left
  intro r _
  simp only [Function.comp_apply]
  split <;> rfl

variable {g : Grammar} {submitted : List Submission} {d : Draft}

theorem Records.enter (records : Records g submitted d) {p : Production} (token : Symbol)
    (name : p.name ∈ g.nonterminalList) :
    ∃ d', d.enter token p = .ok d' ∧ Records g (submitted ++ [(token, p)]) d' := by
  obtain ⟨row, found, cells⟩ := records.row p.name name
  have here := cells token
  -- The cell is free, or a production holds it: this one or another.
  cases held : row.lookup token with
  | none =>
    rw [held] at here
    refine ⟨{ d with rows := setRow d.rows p.name (row ++ [(token, p)]) },
      by simp [Draft.enter, found, held], ?_⟩
    refine ⟨records.start_eq, records.terminals_eq, ?_, ?_, ?_⟩
    · simpa [names_setRow] using records.names_eq
    · intro s member
      dsimp only
      rw [lookup_setRow]
      by_cases same : s = p.name
      · subst same
        refine ⟨row ++ [(token, p)], by simp [found], fun t => ?_⟩
        rw [List.lookup_append, cells, holder_append, holder_singleton]
        by_cases cell : t = token
        · simp [cell]
        · have other : (t == token) = false := by simpa using cell
          simp [List.lookup_cons, other, Ne.symm cell]
      · obtain ⟨other, foundOther, cellsOther⟩ := records.row s member
        refine ⟨other, by simp [same, foundOther], fun t => ?_⟩
        have elsewhere : ¬ p.name = s := fun same' => same same'.symm
        rw [cellsOther, holder_append, holder_singleton]
        simp [elsewhere]
    · rw [clashes_append]
      simp [clashes, clash, ← here, records.conflicts_eq]
  | some q =>
    rw [held] at here
    have kept : ∀ s t, holder (submitted ++ [(token, p)]) s t = holder submitted s t := by
      intro s t
      rw [holder_append, holder_singleton]
      by_cases cell : p.name = s ∧ token = t
      · obtain ⟨rfl, rfl⟩ := cell
        simp [← here]
      · simp [cell]
    have rowKept : ∀ s, s ∈ g.nonterminalList → ∃ row, d.rows.lookup s = some row ∧
        ∀ t, row.lookup t = holder (submitted ++ [(token, p)]) s t := by
      intro s member
      simpa only [kept] using records.row s member
    by_cases same : q = p
    · refine ⟨d, by simp [Draft.enter, found, held, same], records.start_eq,
        records.terminals_eq, records.names_eq, rowKept, ?_⟩
      rw [clashes_append]
      simp [clashes, clash, ← here, same, records.conflicts_eq]
    · refine ⟨{ d with conflicts := d.conflicts ++ [⟨p.name, token, q, p⟩] },
        by simp [Draft.enter, found, held, same], records.start_eq, records.terminals_eq,
        records.names_eq, rowKept, ?_⟩
      rw [clashes_append]
      simp [clashes, clash, ← here, same, records.conflicts_eq]

theorem Records.enterEach (records : Records g submitted d) {p : Production}
    (name : p.name ∈ g.nonterminalList) (tokens : List Symbol) :
    ∃ d', d.enterEach p tokens = .ok d' ∧
      Records g (submitted ++ tokens.map fun token => (token, p)) d' := by
  induction tokens generalizing submitted d with
  | nil => exact ⟨d, rfl, by simpa using records⟩
  | cons token tokens ih =>
    obtain ⟨next, entered, recordsNext⟩ := records.enter token name
    obtain ⟨last, enteredRest, recordsLast⟩ := ih recordsNext
    refine ⟨last, by simp [Draft.enterEach, entered, enteredRest], ?_⟩
    simpa using recordsLast

end Draft

namespace Grammar

theorem mem_listing {written : List Symbol} {declared : SymbolSet} {s : Symbol} :
    s ∈ written ++ (declared.filter (!written.contains ·)).toList ↔ s ∈ written ∨ s ∈ declared := by
  simp only [List.mem_append, SymbolSet.mem_toList, SymbolSet.mem_filter, Bool.not_eq_true',
    ← Bool.not_eq_true, List.contains_iff_mem]
  by_cases early : s ∈ written <;> simp [early]

theorem mem_nonterminalList {g : Grammar} {s : Symbol} :
    s ∈ g.nonterminalList ↔ s ∈ g.nonterminals := by
  rw [nonterminalList, mem_listing, List.mem_eraseDups, List.mem_cons, or_iff_right_iff_imp]
  intro written
  rcases written with rfl | member
  · exact g.start_mem
  · obtain ⟨p, rule, rfl⟩ := List.mem_map.mp member
    exact g.wellFormed.name_declared p rule

theorem lookup_none {g : Grammar} {rows : List (Symbol × Row)} {s : Symbol}
    (names : rows.map (·.1) = g.nonterminalList) (other : ¬ s ∈ g.nonterminals) :
    rows.lookup s = none := by
  rw [List.lookup_eq_none_iff]
  intro r member
  have name : r.1 ∈ rows.map (·.1) := List.mem_map_of_mem member
  rw [names, mem_nonterminalList] at name
  have different : s ≠ r.1 := fun same => other (same ▸ name)
  simpa using different

theorem mem_terminalList {g : Grammar} {s : Symbol} :
    s ∈ g.terminalList ↔ s ∈ g.terminals := by
  rw [terminalList, mem_listing, List.mem_eraseDups, List.mem_filter, or_iff_right_iff_imp]
  intro ⟨_, terminal⟩
  exact of_decide_eq_true terminal

end Grammar

namespace Analysis

open Draft

variable {g : Grammar} {a : Analysis}

def submissionsOf (a : Analysis) (p : Production) : List Submission :=
  match a.predict p with
  | .ok tokens => tokens.toList.map fun token => (token, p)
  | .error _ => []

theorem mem_submissionsOf (of : a.IsOf g) {p q : Production} (member : p ∈ g.productions)
    {token : Symbol} : (token, q) ∈ a.submissionsOf p ↔ q = p ∧ g.Predicts p token := by
  obtain ⟨tokens, predicted, spec⟩ := predict_ok of member
  simp only [submissionsOf, predicted, List.mem_map, Prod.mk.injEq, ← spec]
  constructor
  · intro h
    obtain ⟨_, inside, rfl, rfl⟩ := h
    exact ⟨rfl, inside⟩
  · intro h
    obtain ⟨rfl, inside⟩ := h
    exact ⟨token, inside, rfl, rfl⟩

theorem fill_ok (of : a.IsOf g) (ps : List Production) (rules : ∀ p ∈ ps, p ∈ g.productions)
    {submitted : List Submission} {d : Draft} (records : Records g submitted d) :
    ∃ d', a.fill ps d = .ok d' ∧ Records g (submitted ++ ps.flatMap a.submissionsOf) d' := by
  induction ps generalizing submitted d with
  | nil => exact ⟨d, rfl, by simpa using records⟩
  | cons p ps ih =>
    have rule := rules p (by simp)
    have name := Grammar.mem_nonterminalList.mpr (g.wellFormed.name_declared p rule)
    obtain ⟨tokens, predicted, _⟩ := predict_ok of rule
    obtain ⟨next, entered, recordsNext⟩ := records.enterEach name tokens.toList
    obtain ⟨last, filled, recordsLast⟩ := ih (fun q member => rules q (by simp [member])) recordsNext
    refine ⟨last, by simp [fill, predicted, entered, filled], ?_⟩
    have here : a.submissionsOf p = tokens.toList.map fun token => (token, p) := by
      simp [submissionsOf, predicted]
    simpa [here] using recordsLast

theorem draft_ok (of : a.IsOf g) :
    ∃ d, a.draft = .ok d ∧ Records g (g.productions.flatMap a.submissionsOf) d := by
  have filled := fill_ok of g.productions (fun _ member => member) (records_ofGrammar g)
  simpa [draft, of.grammar_eq] using filled

theorem mem_submissions (of : a.IsOf g) {p : Production} {token : Symbol} :
    (token, p) ∈ g.productions.flatMap a.submissionsOf ↔
      p ∈ g.productions ∧ g.Predicts p token := by
  rw [List.mem_flatMap]
  constructor
  · intro h
    obtain ⟨q, rule, inside⟩ := h
    obtain ⟨rfl, predicts⟩ := (mem_submissionsOf of rule).mp inside
    exact ⟨rule, predicts⟩
  · intro h
    exact ⟨p, h.1, (mem_submissionsOf of h.1).mpr ⟨rfl, h.2⟩⟩

end Analysis

def Grammar.Separated (g : Grammar) : Prop :=
  ∀ p ∈ g.productions, ∀ q ∈ g.productions, p.name = q.name →
    ∀ x, g.Predicts p x → g.Predicts q x → p = q

theorem Analysis.conflicts_eq_nil_iff {g : Grammar} {a : Analysis} (of : a.IsOf g) {d : Draft}
    (drafted : a.draft = .ok d) : d.conflicts = [] ↔ g.Separated := by
  obtain ⟨d', drafted', records⟩ := draft_ok of
  rw [drafted] at drafted'
  cases drafted'
  rw [records.conflicts_eq, Draft.clashes_eq_nil_iff]
  simp only [mem_submissions of]
  constructor
  · intro agree p hp q hq name x predictsP predictsQ
    exact agree x p q ⟨hp, predictsP⟩ ⟨hq, predictsQ⟩ name
  · intro separated token p q hp hq name
    exact separated p hp.1 q hq.1 name token hp.2 hq.2

/-- A table of a grammar: a row for each nonterminal, and in the cells the productions that the
tokens select. -/
structure Table.IsOf (t : Table) (g : Grammar) : Prop where
  start_eq : t.start = g.start
  terminals_eq : t.terminals = g.terminals
  names_eq : t.rows.map (·.1) = g.nonterminalList
  row : ∀ s, s ∈ g.nonterminals → ∃ row, t.rows.lookup s = some row ∧ ∀ token p,
    row.lookup token = some p ↔ p ∈ g.productions ∧ p.name = s ∧ g.Predicts p token
  separated : g.Separated

variable {g : Grammar} {a : Analysis} {t : Table}

theorem Analysis.table_isOf (of : a.IsOf g) (made : a.table = .ok t) :
    a.leftRecursion = .ok none ∧ t.IsOf g := by
  unfold Analysis.table at made
  split at made
  · cases made
  · cases made
  · rename_i recursion
    obtain ⟨d, drafted, records⟩ := draft_ok of
    rw [drafted] at made
    by_cases free : d.conflicts = []
    · have separated := (conflicts_eq_nil_iff of drafted).mp free
      simp only [Draft.publish, free, List.isEmpty_nil, if_true, Except.ok.injEq] at made
      subst made
      refine ⟨recursion, records.start_eq, records.terminals_eq, records.names_eq, ?_, separated⟩
      intro s member
      obtain ⟨row, found, cells⟩ := records.row s (Grammar.mem_nonterminalList.mpr member)
      refine ⟨row, found, fun token p => ?_⟩
      rw [cells]
      constructor
      · intro held
        obtain ⟨inside, name⟩ := Draft.holder_eq_some held
        obtain ⟨rule, predicts⟩ := (mem_submissions of).mp inside
        exact ⟨rule, name, predicts⟩
      · intro ⟨rule, name, predicts⟩
        obtain ⟨q, held⟩ := Draft.holder_of_mem ((mem_submissions of).mpr ⟨rule, predicts⟩)
        dsimp only at held
        rw [name] at held
        obtain ⟨inside, nameQ⟩ := Draft.holder_eq_some held
        obtain ⟨ruleQ, predictsQ⟩ := (mem_submissions of).mp inside
        have same := separated p rule q ruleQ (name.trans nameQ.symm) token predicts predictsQ
        rw [held, same]
    · have busy : d.conflicts.isEmpty = false := by simpa using free
      simp [Draft.publish, busy] at made

theorem Grammar.table_isOf (made : g.table = .ok t) :
    ∃ a : Analysis, a.IsOf g ∧ a.leftRecursion = .ok none ∧ t.IsOf g := by
  obtain ⟨a, analysed, of⟩ := Analysis.analysis_ok g
  simp only [Grammar.table, analysed] at made
  exact ⟨a, of, Analysis.table_isOf of made⟩

namespace Table

theorem mem_productions {p : Production} :
    p ∈ t.productions ↔ ∃ r ∈ t.rows, ∃ token, (token, p) ∈ r.2 := by
  simp [productions]

theorem lookup_eq_some_iff {s token : Symbol} {p : Production} :
    t.lookup s token = .ok (some p) ↔
      ∃ row, t.rows.lookup s = some row ∧ row.lookup token = some p := by
  unfold lookup Table.row
  cases t.rows.lookup s <;> simp [Except.map]

theorem IsOf.lookup_none (of : t.IsOf g) {s : Symbol} (other : ¬ s ∈ g.nonterminals) :
    t.rows.lookup s = none :=
  Grammar.lookup_none of.names_eq other

theorem IsOf.lookup_eq_some (of : t.IsOf g) {s : Symbol} {row : Row}
    (found : t.rows.lookup s = some row) : s ∈ g.nonterminals := by
  by_cases member : s ∈ g.nonterminals
  · exact member
  · rw [of.lookup_none member] at found
    cases found

theorem IsOf.terminal_of_lookup_none (of : t.IsOf g) {s : Symbol}
    (declared : s ∈ g.terminals ∨ s ∈ g.nonterminals) (unknown : t.rows.lookup s = none) :
    s ∈ g.terminals := by
  refine declared.resolve_right fun nonterminal => ?_
  obtain ⟨row, found, _⟩ := of.row s nonterminal
  rw [unknown] at found
  cases found

theorem IsOf.cell (of : t.IsOf g) {s token : Symbol} {row : Row} {p : Production}
    (found : t.rows.lookup s = some row) (held : row.lookup token = some p) :
    p ∈ g.productions ∧ p.name = s ∧ g.Predicts p token := by
  obtain ⟨row', found', cells⟩ := of.row s (of.lookup_eq_some found)
  rw [found] at found'
  cases found'
  exact (cells token p).mp held

theorem IsOf.filled (of : t.IsOf g) (s : Symbol) (row : Row) (token : Symbol) (p : Production)
    (found : t.rows.lookup s = some row) (held : row.lookup token = some p) : p.symbols ≠ [] :=
  g.wellFormed.symbols_ne_nil p (of.cell found held).1

theorem IsOf.lookup_ok (of : t.IsOf g) {s : Symbol} (nonterminal : s ∈ g.nonterminals)
    (token : Symbol) : ∃ cell, t.lookup s token = .ok cell := by
  obtain ⟨row, found, _⟩ := of.row s nonterminal
  exact ⟨row.lookup token, by simp [Table.lookup, Table.row, found, Except.map]⟩

theorem IsOf.lookup_iff (of : t.IsOf g) {s token : Symbol} {p : Production} :
    t.lookup s token = .ok (some p) ↔ p ∈ g.productions ∧ p.name = s ∧ g.Predicts p token := by
  by_cases nonterminal : s ∈ g.nonterminals
  · obtain ⟨row, found, cells⟩ := of.row s nonterminal
    rw [← cells]
    simp [Table.lookup, Table.row, found, Except.map]
  · have absent := of.lookup_none nonterminal
    constructor
    · intro held
      simp [Table.lookup, Table.row, absent, Except.map] at held
    · intro ⟨rule, name, _⟩
      exact absurd (name ▸ g.wellFormed.name_declared p rule) nonterminal

end Table

end TopDown
