import Mathlib.Logic.Relation
import TopDown.Proofs.Parse.Scene

namespace TopDown

namespace Outcome

def error? : Outcome → Option SyntaxError
  | .rejected error => some error
  | _ => none

theorem eq_rejected {outcome : Outcome} {e : SyntaxError} (found : outcome.error? = some e) :
    outcome = .rejected e := by
  cases outcome with
  | rejected error => exact congrArg _ (Option.some.inj found)
  | accepted tree => cases found
  | broken fault => cases found

end Outcome

/-- The loop of the machine, without a bound: it ends after that many steps. -/
inductive Table.StopsAfter (t : Table) : Nat → MachineState → Outcome → Prop
  | stop {s outcome} (step : t.step s = .stop outcome) : StopsAfter t 0 s outcome
  | next {n s s' record outcome} (step : t.step s = .next record s')
    (rest : StopsAfter t n s' outcome) : StopsAfter t (n + 1) s outcome

namespace Scene

def Reaches (t : Table) : Scene → Scene → Prop :=
  Relation.ReflTransGen fun c c' => ∃ action, Moves t c action c'

inductive Ends (t : Table) : Scene → Outcome → Prop
  | accepts {tree unread position} :
    Ends t ⟨.complete tree, Symbol.endMark :: unread, position⟩ (.accepted tree)
  | rejects {c error} (refuses : Refuses t c error) : Ends t c (.rejected error)

variable {t : Table} {c c₁ c₂ : Scene} {a₁ a₂ : Action} {o₁ o₂ : Outcome}

theorem Reaches.trans (first : c.Reaches t c₁) (second : c₁.Reaches t c₂) : c.Reaches t c₂ :=
  Relation.ReflTransGen.trans first second

theorem Moves.unique (first : c.Moves t a₁ c₁) (second : c.Moves t a₂ c₂) :
    a₁ = a₂ ∧ c₁ = c₂ := by
  cases first with
  | skip =>
    cases second with
    | skip => exact ⟨rfl, rfl⟩
    | consume plain => exact absurd rfl plain
    | expand plain => exact absurd rfl plain
  | consume plain =>
    cases second with
    | skip => exact absurd rfl plain
    | consume => exact ⟨rfl, rfl⟩
    | expand _ other => exact absurd rfl other
  | expand plain other found cell symbols =>
    cases second with
    | skip => exact absurd rfl plain
    | consume => exact absurd rfl other
    | expand _ _ found' cell' symbols' =>
      rw [found] at found'
      cases found'
      rw [cell] at cell'
      cases cell'
      rw [symbols] at symbols'
      cases symbols'
      exact ⟨rfl, rfl⟩

theorem Refuses.not_moves {error : SyntaxError} (refuses : c.Refuses t error) :
    ¬ c.Moves t a₁ c₁ := by
  intro moves
  cases refuses with
  | surplus => cases moves
  | mismatch plain other unknown =>
    cases moves with
    | skip => exact plain rfl
    | consume => exact other rfl
    | expand _ _ found => simp [unknown] at found
  | noAlternative plain other found unfilled =>
    cases moves with
    | skip => exact plain rfl
    | consume => exact other rfl
    | expand _ _ found' cell =>
      rw [found] at found'
      cases found'
      simp [unfilled] at cell

theorem Ends.not_moves (ends : c.Ends t o₁) : ¬ c.Moves t a₁ c₁ := by
  intro moves
  cases ends with
  | accepts => cases moves
  | rejects refuses => exact refuses.not_moves moves

theorem Refuses.unique {e₁ e₂ : SyntaxError} (first : c.Refuses t e₁) (second : c.Refuses t e₂) :
    e₁ = e₂ := by
  cases first with
  | surplus => cases second; rfl
  | mismatch _ _ unknown =>
    cases second with
    | mismatch => rfl
    | noAlternative _ _ found => simp [unknown] at found
  | noAlternative _ _ found _ =>
    cases second with
    | mismatch _ _ unknown => simp [unknown] at found
    | noAlternative _ _ found' _ =>
      rw [found] at found'
      cases found'
      rfl

theorem Ends.unique (first : c.Ends t o₁) (second : c.Ends t o₂) : o₁ = o₂ := by
  cases first with
  | accepts =>
    cases second with
    | accepts => rfl
    | rejects refuses =>
      cases refuses with
      | surplus more => exact absurd rfl more
  | rejects refuses =>
    cases second with
    | accepts =>
      cases refuses with
      | surplus more => exact absurd rfl more
    | rejects refuses' => rw [refuses.unique refuses']

theorem Ends.stays (ends : c.Ends t o₁) (reaches : c.Reaches t c₁) : c₁ = c := by
  rcases Relation.ReflTransGen.cases_head reaches with same | ⟨_, ⟨_, moves⟩, _⟩
  · exact same.symm
  · exact absurd moves ends.not_moves

theorem Reaches.onward (first : c.Reaches t c₁) (second : c.Reaches t c₂) (ends : c₂.Ends t o₂) :
    c₁.Reaches t c₂ := by
  have single : Relator.RightUnique fun c c' => ∃ action, Moves t c action c' := by
    intro _ _ _ ⟨_, moves⟩ ⟨_, moves'⟩
    exact (moves.unique moves').2
  rcases Relation.ReflTransGen.total_of_right_unique single first second with more | more
  · exact more
  · obtain rfl := ends.stays more
    exact Relation.ReflTransGen.refl

theorem Reaches.unique (first : c.Reaches t c₁) (ends₁ : c₁.Ends t o₁)
    (second : c.Reaches t c₂) (ends₂ : c₂.Ends t o₂) : c₁ = c₂ ∧ o₁ = o₂ := by
  obtain rfl := ends₁.stays (first.onward second ends₂)
  exact ⟨rfl, ends₁.unique ends₂⟩

/-- Moves look at the next token only, so what stands after the last one that was looked at may be
anything. -/
theorem Reaches.reroute {token : Symbol} {unread : List Symbol} (reaches : c.Reaches t c₁)
    (input : c₁.input = token :: unread) : ∃ seen, c.input = seen ++ token :: unread ∧
      ∀ later, Reaches t ⟨c.drawing, seen ++ token :: later, c.position⟩
        ⟨c₁.drawing, token :: later, c₁.position⟩ := by
  induction reaches generalizing token unread with
  | refl => exact ⟨[], input, fun _ => Relation.ReflTransGen.refl⟩
  | tail _ step ih =>
    obtain ⟨action, moves⟩ := step
    cases moves with
    | skip =>
      obtain ⟨rfl, rfl⟩ := List.cons_eq_cons.mp input
      obtain ⟨seen, whole, onward⟩ := ih rfl
      exact ⟨seen, whole, fun later => .tail (onward later) ⟨_, .skip⟩⟩
    | @consume _ first _ _ plain =>
      obtain ⟨seen, whole, onward⟩ := ih rfl
      dsimp only at input
      subst input
      refine ⟨seen ++ [first], by simpa using whole, fun later => ?_⟩
      have front := onward (token :: later)
      simp only [List.append_assoc, List.singleton_append]
      exact .tail front ⟨_, .consume plain⟩
    | expand plain other found cell symbols =>
      obtain ⟨rfl, rfl⟩ := List.cons_eq_cons.mp input
      obtain ⟨seen, whole, onward⟩ := ih rfl
      exact ⟨seen, whole, fun later =>
        .tail (onward later) ⟨_, .expand plain other found cell symbols⟩⟩

end Scene

namespace Table

variable {t : Table} {s : MachineState} {n : Nat} {outcome : Outcome}

theorem StopsAfter.runFrom (stops : t.StopsAfter n s outcome) {bound : Nat} (more : n < bound) :
    (t.runFrom bound s).outcome = outcome := by
  induction stops generalizing bound with
  | stop step =>
    obtain ⟨less, rfl⟩ : ∃ less, bound = less + 1 := ⟨bound - 1, by omega⟩
    simp [Table.runFrom, step]
  | next step _ ih =>
    obtain ⟨less, rfl⟩ : ∃ less, bound = less + 1 := ⟨bound - 1, by omega⟩
    simpa [Table.runFrom, step] using ih (by omega)

theorem firstUnknown_eq_none_iff (position : Nat) {tokens : List Symbol} :
    t.firstUnknown position tokens = none ↔ ∀ s ∈ tokens, s ∈ t.terminals := by
  induction tokens generalizing position with
  | nil => simp [firstUnknown]
  | cons token rest ih =>
    by_cases first : token ∈ t.terminals
    · simp [firstUnknown, first, ih]
    · simp [firstUnknown, first]

theorem run_of_known {tokens : List Symbol} (known : ∀ s ∈ tokens, s ∈ t.terminals) :
    t.run tokens = t.runFrom (t.stepBound tokens) (t.initialState tokens) := by
  have none := (firstUnknown_eq_none_iff 0).mpr known
  simp [run, none]

theorem parse_of_known {tokens : List Symbol} (known : ∀ s ∈ tokens, s ∈ t.terminals) :
    t.parse tokens = (t.runFrom (t.stepBound tokens) (t.initialState tokens)).outcome := by
  rw [parse, run_of_known known]

theorem parse_of_unknown {tokens : List Symbol} (unknown : ¬ ∀ s ∈ tokens, s ∈ t.terminals) :
    ∃ error, t.parse tokens = .rejected error := by
  cases found : t.firstUnknown 0 tokens with
  | none => exact absurd ((firstUnknown_eq_none_iff 0).mp found) unknown
  | some place => exact ⟨_, by simp [parse, run, found]; rfl⟩

end Table

end TopDown
