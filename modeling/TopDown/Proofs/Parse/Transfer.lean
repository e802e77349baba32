import TopDown.Proofs.Parse.Termination
import TopDown.Proofs.Prediction
import TopDown.Proofs.Subgrammar

namespace TopDown.Table

variable {g h : Grammar} {t u : Table} {s x : Symbol} {row row' : Row} {p : Production}

structure Within (t u : Table) : Prop where
  start_eq : t.start = u.start
  terminals_eq : t.terminals = u.terminals
  cell : ∀ {s x row p}, t.rows.lookup s = some row → row.lookup x = some p →
    ∃ row' q, u.rows.lookup s = some row' ∧ row'.lookup x = some q ∧ q.rule = p.rule

/-- The tables have the same rows, with the same rules in their cells. The machine looks at the rule
in a cell and not at its place. -/
structure Alike (t u : Table) : Prop where
  within : t.Within u
  back : u.Within t
  none_iff : ∀ s, t.rows.lookup s = none ↔ u.rows.lookup s = none

theorem IsOf.within (isOf : t.IsOf g) (isOf' : u.IsOf h) (within : g.Within h) : t.Within u where
  start_eq := by rw [isOf.start_eq, isOf'.start_eq, within.start_eq]
  terminals_eq := by rw [isOf.terminals_eq, isOf'.terminals_eq, within.terminals_eq]
  cell := by
    intro s x row p found held
    obtain ⟨member, name, selects⟩ := isOf.cell found held
    obtain ⟨q, member', same⟩ := within.exists_rule p member
    have nonterminal := within.nonterminals_eq ▸ isOf.lookup_eq_some found
    obtain ⟨row', found', cells⟩ := isOf'.row s nonterminal
    refine ⟨row', q, found', (cells x q).mpr ⟨member', ?_, ?_⟩, same⟩
    · exact (Production.name_eq_of_rule same).trans name
    · exact within.predicts same.symm selects

theorem IsOf.alike (isOf : t.IsOf g) (isOf' : u.IsOf h) (within : g.Within h) (back : h.Within g) :
    t.Alike u := by
  refine ⟨isOf.within isOf' within, isOf'.within isOf back, fun s => ?_⟩
  by_cases member : s ∈ g.nonterminals
  · obtain ⟨row, found, _⟩ := isOf.row s member
    obtain ⟨row', found', _⟩ := isOf'.row s (within.nonterminals_eq ▸ member)
    simp [found, found']
  · have member' : ¬ s ∈ h.nonterminals := within.nonterminals_eq ▸ member
    simp [isOf.lookup_none member, isOf'.lookup_none member']

namespace Within

variable {c c' : Scene} {action : Action}

theorem lookup (within : t.Within u) (held : t.lookup s x = .ok (some p)) :
    ∃ q, u.lookup s x = .ok (some q) ∧ q.rule = p.rule := by
  obtain ⟨row, found, cell⟩ := lookup_eq_some_iff.mp held
  obtain ⟨row', q, found', cell', same⟩ := within.cell found cell
  exact ⟨q, lookup_eq_some_iff.mpr ⟨row', found', cell'⟩, same⟩

theorem rule_of_cell (within : t.Within u) (found : t.rows.lookup s = some row)
    (found' : u.rows.lookup s = some row') (held : row.lookup x = some p) :
    ∃ q, row'.lookup x = some q ∧ q.rule = p.rule := by
  obtain ⟨_, q, there, held', same⟩ := within.cell found held
  rw [found'] at there
  cases there
  exact ⟨q, held', same⟩

theorem moves (within : t.Within u) (moves : c.Moves t action c') :
    ∃ action', c.Moves u action' c' := by
  cases moves with
  | skip => exact ⟨_, .skip⟩
  | consume plain => exact ⟨_, .consume plain⟩
  | expand plain other found cell symbols =>
    obtain ⟨row', q, found', cell', same⟩ := within.cell found cell
    have symbols' := (Production.symbols_eq_of_rule same).trans symbols
    exact ⟨_, .expand plain other found' cell' symbols'⟩

theorem reaches (within : t.Within u) (reaches : c.Reaches t c') : c.Reaches u c' := by
  induction reaches with
  | refl => exact Relation.ReflTransGen.refl
  | tail _ step ih =>
    obtain ⟨action, moves⟩ := step
    exact Relation.ReflTransGen.tail ih (within.moves moves)

theorem initial_eq (within : t.Within u) (tokens : List Symbol) :
    Scene.initial t tokens = Scene.initial u tokens := by
  rw [Scene.initial, Scene.initial, within.start_eq]

end Within

namespace Alike

variable {c : Scene} {e : SyntaxError} {outcome : Outcome}

theorem exists_row (alike : t.Alike u) (found : t.rows.lookup s = some row) :
    ∃ row', u.rows.lookup s = some row' := by
  apply Option.ne_none_iff_exists'.mp
  intro none
  rw [(alike.none_iff s).mpr none] at found
  cases found

theorem rules_eq (alike : t.Alike u) (found : t.rows.lookup s = some row)
    (found' : u.rows.lookup s = some row') (x : Symbol) :
    (row.lookup x).map Production.rule = (row'.lookup x).map Production.rule := by
  ext rule
  simp only [Option.map_eq_some_iff]
  constructor
  · intro ⟨p, held, same⟩
    obtain ⟨q, held', same'⟩ := alike.within.rule_of_cell found found' held
    exact ⟨q, held', same'.trans same⟩
  · intro ⟨q, held', same'⟩
    obtain ⟨p, held, same⟩ := alike.back.rule_of_cell found' found held'
    exact ⟨p, held, same.trans same'⟩

theorem tokens_eq (alike : t.Alike u) (found : t.rows.lookup s = some row)
    (found' : u.rows.lookup s = some row') : tokens row = tokens row' := by
  ext x
  have same := congrArg Option.isSome (alike.rules_eq found found' x)
  simp only [Option.isSome_map] at same
  rw [mem_tokens, mem_tokens, same]

theorem lookup_eq (alike : t.Alike u) (s x : Symbol) :
    (t.lookup s x).map (·.map Production.rule) = (u.lookup s x).map (·.map Production.rule) := by
  unfold lookup Table.row
  cases found : t.rows.lookup s with
  | none => rw [(alike.none_iff s).mp found]
  | some row =>
    obtain ⟨row', found'⟩ := alike.exists_row found
    rw [found']
    exact congrArg Except.ok (alike.rules_eq found found' x)

theorem refuses (alike : t.Alike u) (refuses : c.Refuses t e) : c.Refuses u e := by
  cases refuses with
  | surplus more => exact .surplus more
  | mismatch plain other unknown =>
    exact .mismatch plain other ((alike.none_iff _).mp unknown)
  | @noAlternative top frames token unread position row plain other found unfilled =>
    obtain ⟨row', found'⟩ := alike.exists_row found
    have rules := alike.rules_eq found found' token
    rw [unfilled, Option.map_none, eq_comm, Option.map_eq_none_iff] at rules
    rw [alike.tokens_eq found found']
    exact .noAlternative plain other found' rules

theorem ends (alike : t.Alike u) (ends : c.Ends t outcome) : c.Ends u outcome := by
  cases ends with
  | accepts => exact .accepts
  | rejects refuses => exact .rejects (alike.refuses refuses)

end Alike

section Parse

variable {tokens : List Symbol}

theorem firstUnknown_eq (same : t.terminals = u.terminals) (position : Nat) :
    t.firstUnknown position tokens = u.firstUnknown position tokens := by
  induction tokens generalizing position with
  | nil => rfl
  | cons token rest ih => rw [firstUnknown, firstUnknown, same, ih]

theorem Within.accepted (within : t.Within u) (made : g.table = .ok t) (made' : h.table = .ok u)
    {tree : Tree} (accepted : t.parse tokens = .accepted tree) :
    u.parse tokens = .accepted tree := by
  have known : ∀ s ∈ tokens, s ∈ t.terminals := by
    by_contra unknown
    obtain ⟨error, rejected⟩ := parse_of_unknown unknown
    rw [accepted] at rejected
    cases rejected
  obtain ⟨c, reaches, ends⟩ := parse_spec made known
  obtain ⟨c', reaches', ends'⟩ := parse_spec made' (within.terminals_eq ▸ known)
  have onward := within.reaches reaches
  rw [within.initial_eq] at onward
  rw [accepted] at ends
  cases ends with
  | accepts => exact (reaches'.unique ends' onward .accepts).2

theorem Alike.parse_eq (alike : t.Alike u) (made : g.table = .ok t) (made' : h.table = .ok u)
    (tokens : List Symbol) : t.parse tokens = u.parse tokens := by
  by_cases known : ∀ s ∈ tokens, s ∈ t.terminals
  · obtain ⟨c, reaches, ends⟩ := parse_spec made known
    obtain ⟨c', reaches', ends'⟩ := parse_spec made' (alike.within.terminals_eq ▸ known)
    have onward := alike.within.reaches reaches
    rw [alike.within.initial_eq] at onward
    exact (onward.unique (alike.ends ends) reaches' ends').2
  · cases found : t.firstUnknown 0 tokens with
    | none => exact absurd ((firstUnknown_eq_none_iff 0).mp found) known
    | some place =>
      have found' : u.firstUnknown 0 tokens = some place :=
        (firstUnknown_eq alike.within.terminals_eq 0).symm.trans found
      simp only [parse, run, found, found', alike.within.start_eq]

end Parse

end TopDown.Table
