import Mathlib.Algebra.Group.Nat.Defs
import TopDown.Proofs.LeftRecursion
import TopDown.Proofs.Parse.Scene

namespace TopDown

/-- Ranks that fall along the left edges, and the nonterminals that can be empty. -/
structure Ranking (g : Grammar) where
  rank : Symbol → Nat
  empty : Symbol → Bool
  bounded : ∀ s, s ∈ g.nonterminals → rank s < g.nonterminalList.length
  empty_iff : ∀ s, s ∈ g.nonterminals → (empty s = true ↔ g.Derives [s] [])
  falls : ∀ s t, s ∈ g.nonterminals → g.LeftEdge s t → rank t < rank s

theorem Analysis.exists_ranking {g : Grammar} {a : Analysis} (of : a.IsOf g)
    (none : a.leftRecursion = .ok none) : Nonempty (Ranking g) := by
  obtain ⟨rank, bounded, falls⟩ := exists_rank of none
  refine ⟨⟨rank, fun s => (a.isNullable s).toOption == some true, bounded, ?_, falls⟩⟩
  intro s member
  obtain ⟨empty, computed, spec⟩ := isNullable_ok of member
  rw [← spec]
  simp [computed, Except.toOption]

/-- The load of a right side, which a fall of the reserve by one pays for. -/
def Grammar.allowance (g : Grammar) (longest : Nat) : Nat :=
  longest * (longest + 1) ^ g.nonterminalList.length

namespace Ranking

variable {g : Grammar} (r : Ranking g) {s : Symbol} {symbols : List Symbol} {bound : Nat}

/-- The greatest rank, and one more, of the nonterminals that can come to the top of a stack before
a token is read. -/
def reserve : List Symbol → Nat
  | [] => 0
  | s :: rest =>
    if s = Symbol.empty then reserve rest
    else if s ∈ g.nonterminals then
      if r.empty s then max (r.rank s + 1) (reserve rest) else r.rank s + 1
    else 0

/-- How much a symbol weighs that is expanded without reading a token. -/
def weight (longest : Nat) (s : Symbol) : Nat :=
  if s ∈ g.nonterminals then (longest + 1) ^ (r.rank s + 1) else 1

def load (longest : Nat) : List Symbol → Nat
  | [] => 0
  | s :: rest => r.weight longest s + load longest rest

theorem load_append (longest : Nat) (xs ys : List Symbol) :
    r.load longest (xs ++ ys) = r.load longest xs + r.load longest ys := by
  induction xs with
  | nil => simp [load]
  | cons s rest ih => simp [load, ih, Nat.add_assoc]

theorem weight_pos (longest : Nat) (s : Symbol) : 0 < r.weight longest s := by
  unfold weight
  split
  · exact Nat.pow_pos (Nat.succ_pos longest)
  · exact Nat.one_pos

theorem weight_le (longest : Nat) (s : Symbol) :
    r.weight longest s ≤ (longest + 1) ^ g.nonterminalList.length := by
  unfold weight
  split
  · rename_i member
    exact Nat.pow_le_pow_right (Nat.succ_pos longest) (r.bounded s member)
  · exact Nat.pow_pos (Nat.succ_pos longest)

theorem load_le {longest most : Nat} (each : ∀ s ∈ symbols, r.weight longest s ≤ most) :
    r.load longest symbols ≤ symbols.length * most := by
  induction symbols with
  | nil => simp [load]
  | cons s rest ih =>
    have first := each s (by simp)
    have later := ih fun t member => each t (by simp [member])
    rw [load, List.length_cons, Nat.succ_mul]
    omega

@[simp] theorem reserve_empty (rest : List Symbol) :
    r.reserve (Symbol.empty :: rest) = r.reserve rest := by
  simp [reserve]

theorem reserve_le (stack : List Symbol) : r.reserve stack ≤ g.nonterminalList.length := by
  induction stack with
  | nil => exact Nat.zero_le _
  | cons s rest ih =>
    unfold reserve
    split
    · exact ih
    · split
      · rename_i member
        have here := r.bounded s member
        split
        · omega
        · omega
      · exact Nat.zero_le _

theorem reserve_append (below : List Symbol) (plain : Symbol.empty ∉ symbols)
    (corners : ∀ s, g.Corner symbols s → r.rank s < bound) :
    r.reserve (symbols ++ below) ≤ max bound (r.reserve below) ∧
      (¬ g.Derives symbols [] → r.reserve (symbols ++ below) ≤ bound) := by
  induction symbols with
  | nil => exact ⟨Nat.le_max_right bound _, fun never => absurd (Grammar.Derives.refl []) never⟩
  | cons s rest ih =>
    have other : s ≠ Symbol.empty := fun mark => plain (by simp [mark])
    by_cases member : s ∈ g.nonterminals
    · have first := corners s (Grammar.corner_cons.mpr ⟨member, Or.inl rfl⟩)
      cases empty : r.empty s with
      | true =>
        have derives := (r.empty_iff s member).mp empty
        obtain ⟨whole, short⟩ := ih (fun inside => plain (by simp [inside]))
          fun t corner => corners t (Grammar.corner_cons.mpr ⟨member, Or.inr ⟨derives, corner⟩⟩)
        simp only [List.cons_append, reserve, other, member, empty, if_true, if_false]
        refine ⟨by omega, fun never => ?_⟩
        have later := short fun rests => never (derives.append rests)
        omega
      | false =>
        simp only [List.cons_append, reserve, other, member, empty, if_true, if_false,
          Bool.false_eq_true]
        exact ⟨by omega, fun _ => by omega⟩
    · simp only [List.cons_append, reserve, other, member, if_false]
      exact ⟨Nat.zero_le _, fun _ => Nat.zero_le _⟩

theorem rank_lt_reserve (member : s ∈ g.nonterminals) (rest : List Symbol) :
    r.rank s < r.reserve (s :: rest) := by
  have plain := Grammar.nonterminal_ne_empty member
  simp only [reserve, plain, member, if_true, if_false]
  split <;> omega

theorem reserve_le_reserve (member : s ∈ g.nonterminals) (derives : g.Derives [s] [])
    (rest : List Symbol) : r.reserve rest ≤ r.reserve (s :: rest) := by
  have plain := Grammar.nonterminal_ne_empty member
  simp only [reserve, plain, member, (r.empty_iff s member).mpr derives, if_true, if_false]
  omega

def potential (longest : Nat) (c : Scene) : Nat :=
  c.input.length * (g.nonterminalList.length * g.allowance longest) +
    r.reserve c.drawing.stack * g.allowance longest + r.load longest c.drawing.stack

theorem expand_empty (below : List Symbol) {longest : Nat} {p : Production} (rule : p ∈ g.productions)
    (short : p.symbols.length ≤ longest) (empty : g.Derives p.body []) :
    r.reserve (p.symbols ++ below) ≤ r.reserve (p.name :: below) ∧
      r.load longest p.symbols < r.weight longest p.name := by
  have name := g.wellFormed.name_declared p rule
  have derives := (Grammar.Derives.of_production rule).trans empty
  have above := r.rank_lt_reserve name below
  have under := r.reserve_le_reserve name derives below
  have parts : (∀ s ∈ p.symbols, s ∈ g.nonterminals → g.Corner p.symbols s) ∧
      r.reserve (p.symbols ++ below) ≤ r.reserve (p.name :: below) := by
    rcases Grammar.symbols_cases rule with ⟨alone, _⟩ | ⟨plain, body⟩
    · refine ⟨fun s member nonterminal => ?_, by simpa [alone] using under⟩
      rw [alone, List.mem_singleton] at member
      exact absurd member (Grammar.nonterminal_ne_empty nonterminal)
    · have known : ∀ s ∈ p.symbols, s ∈ g.terminals ∨ s ∈ g.nonterminals :=
        fun s member => Grammar.mem_body rule (body ▸ member)
      refine ⟨fun s member _ => Grammar.corner_of_derives_nil known (body ▸ empty) member, ?_⟩
      have low := (r.reserve_append below plain fun s corner =>
        r.falls p.name s name ⟨p, rule, rfl, corner⟩).1
      omega
  obtain ⟨corner, held⟩ := parts
  -- All symbols are left corners, so their ranks are below that of the name.
  have each : ∀ s ∈ p.symbols, r.weight longest s ≤ (longest + 1) ^ r.rank p.name := by
    intro s member
    unfold weight
    split
    · rename_i nonterminal
      refine Nat.pow_le_pow_right (Nat.succ_pos longest) ?_
      exact r.falls p.name s name ⟨p, rule, rfl, corner s member nonterminal⟩
    · exact Nat.pow_pos (Nat.succ_pos longest)
  have light := r.load_le each
  have least : 0 < (longest + 1) ^ r.rank p.name := Nat.pow_pos (Nat.succ_pos longest)
  have most := Nat.mul_le_mul_right ((longest + 1) ^ r.rank p.name) short
  have heavy : r.weight longest p.name =
      longest * (longest + 1) ^ r.rank p.name + (longest + 1) ^ r.rank p.name := by
    rw [weight, if_pos name, Nat.pow_succ, Nat.mul_comm, Nat.succ_mul]
  exact ⟨held, by omega⟩

theorem expand_filled (below : List Symbol) {p : Production} (rule : p ∈ g.productions)
    (filled : ¬ g.Derives p.body []) :
    r.reserve (p.symbols ++ below) < r.reserve (p.name :: below) := by
  have name := g.wellFormed.name_declared p rule
  rcases Grammar.symbols_cases rule with ⟨_, body⟩ | ⟨plain, body⟩
  · exact absurd (body ▸ Grammar.Derives.refl p.body) filled
  · have corners : ∀ s, g.Corner p.symbols s → r.rank s < r.rank p.name :=
      fun s corner => r.falls p.name s name ⟨p, rule, rfl, corner⟩
    have low := (r.reserve_append below plain corners).2 (body ▸ filled)
    exact Nat.lt_of_le_of_lt low (r.rank_lt_reserve name below)

theorem length_le_longest {t : Table} {top token : Symbol} {row : Row} {p : Production}
    (found : t.rows.lookup top = some row) (cell : row.lookup token = some p) :
    p.symbols.length ≤ t.longest := by
  have member : p ∈ t.productions :=
    Table.mem_productions.mpr ⟨_, mem_of_lookup found, token, mem_of_lookup cell⟩
  have length := List.mem_map_of_mem (f := fun q : Production => q.symbols.length) member
  rw [Table.longest, List.foldl_max_eq_max (List.ne_nil_of_mem length)]
  exact Nat.le_trans (List.le_max_of_mem length) (Nat.le_max_right _ _)

/-- Every move lowers the potential. An expansion adds symbols without reading a token. If the right
side is not empty, what stands at the left end of the stack falls in rank; if it is empty, each of
its symbols has a smaller rank than its name, and so weighs less than the name by more than a factor
of the length of the longest right side. -/
theorem potential_lt {t : Table} (of : t.IsOf g) {c c' : Scene} {action : Action}
    (moves : c.Moves t action c') : r.potential t.longest c' < r.potential t.longest c := by
  cases moves with
  | @skip frames =>
    have light := r.weight_pos t.longest Symbol.empty
    simp only [potential, Drawing.stack_resume, Drawing.stack_growing, reserve_empty, load]
    omega
  | @consume frames token =>
    have light := r.weight_pos t.longest token
    have low := r.reserve_le (Drawing.waiting frames)
    have paid := Nat.mul_le_mul_right (g.allowance t.longest) low
    simp only [potential, Drawing.stack_resume, Drawing.stack_growing, load, List.length_cons,
      Nat.succ_mul]
    omega
  | @expand top frames token _ _ row p first due plain other found cell symbols =>
    obtain ⟨rule, rfl, _⟩ := of.cell found cell
    have short := length_le_longest found cell
    have stack : first :: (due ++ Drawing.waiting frames) = p.symbols ++ Drawing.waiting frames := by
      simp [symbols]
    simp only [potential, Drawing.stack_growing, Drawing.waiting_cons, stack, load, load_append]
    by_cases empty : g.Derives p.body []
    · obtain ⟨low, light⟩ := r.expand_empty (Drawing.waiting frames) rule short empty
      have paid := Nat.mul_le_mul_right (g.allowance t.longest) low
      omega
    · have low := r.expand_filled (Drawing.waiting frames) rule empty
      have paid := Nat.mul_le_mul_right (g.allowance t.longest) (Nat.succ_le_of_lt low)
      have heavy := r.load_le fun s (_ : s ∈ p.symbols) => r.weight_le t.longest s
      have most := Nat.mul_le_mul_right ((t.longest + 1) ^ g.nonterminalList.length) short
      have light := r.weight_pos t.longest p.name
      rw [Nat.succ_mul] at paid
      change _ ≤ g.allowance t.longest at most
      omega

end Ranking

end TopDown
