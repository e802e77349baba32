import Mathlib.Data.List.Chain
import TopDown.Proofs.LeftRecursion.Conflict
import TopDown.Proofs.Table.Criterion

namespace TopDown

theorem exists_isCircuit_iff {R : Symbol → Symbol → Prop} :
    (∃ circuit, IsCircuit R circuit) ↔ ∃ s, Relation.TransGen R s s := by
  constructor
  · rintro ⟨_, s, rest, rfl, chain⟩
    obtain ⟨t, later, onward⟩ := List.exists_cons_of_ne_nil (l := rest ++ [s]) (by simp)
    have last : (t :: later).getLast (List.cons_ne_nil t later) = s := by simp [← onward]
    rw [List.cons_append, onward, List.isChain_cons_cons] at chain
    exact ⟨s, .head' chain.1 (List.relationReflTransGen_of_exists_isChain_cons later chain.2 last)⟩
  · rintro ⟨s, back⟩
    obtain ⟨t, edge, way⟩ := Relation.TransGen.head'_iff.mp back
    obtain ⟨later, chain, last⟩ := List.exists_isChain_cons_of_relationReflTransGen way
    have whole : (t :: later).dropLast ++ [s] = t :: later := by
      rw [← last, List.dropLast_append_getLast]
    refine ⟨s :: t :: later, s, (t :: later).dropLast, ?_, List.isChain_cons_cons.mpr ⟨edge, chain⟩⟩
    rw [List.cons_append, whole]

namespace Grammar

/-- The name derives, in one step or more, a form that begins with it. -/
def LeftRecursive (g : Grammar) (s : Symbol) : Prop :=
  ∃ rest, Relation.TransGen g.Rewrites [s] (s :: rest)

variable {g : Grammar} {s t : Symbol} {form left right : List Symbol}

theorem LeftEdge.rewrites (edge : g.LeftEdge s t) :
    ∃ rest, Relation.TransGen g.Rewrites [s] (t :: rest) := by
  obtain ⟨p, rule, rfl, left, right, _, body, vanish⟩ := edge.exists_body
  have first : g.Rewrites [p.name] p.body := by simpa using Rewrites.replace rule [] []
  have later : g.Derives p.body (t :: right) := by
    rw [body]
    exact vanish.append (Derives.refl (t :: right))
  exact ⟨right, .head' first later⟩

theorem rewrites_of_leftEdges (way : Relation.TransGen g.LeftEdge s t) :
    ∃ rest, Relation.TransGen g.Rewrites [s] (t :: rest) := by
  induction way with
  | single edge => exact edge.rewrites
  | tail _ edge ih =>
    obtain ⟨rest, first⟩ := ih
    obtain ⟨rest', second⟩ := edge.rewrites
    have later : Relation.TransGen g.Rewrites ([_] ++ rest) ((_ :: rest') ++ rest) :=
      second.lift (· ++ rest) fun _ _ step => by simpa using step.context [] rest
    exact ⟨rest' ++ rest, first.trans later⟩

theorem Derives.nil_of_mem (vanish : g.Derives form []) (member : s ∈ form) : g.Derives [s] [] := by
  obtain ⟨before, after, rfl⟩ := List.append_of_mem member
  exact (vanish.nil_of_append.2.nil_of_append (u := [s])).1

theorem leftEdge_of_body {p : Production} (rule : p ∈ g.productions) (corner : g.Corner p.body t) :
    g.LeftEdge p.name t := by
  refine ⟨p, rule, rfl, ?_⟩
  rcases symbols_cases rule with ⟨_, none⟩ | ⟨_, same⟩
  · rw [none] at corner
    exact absurd corner not_corner_nil
  · rwa [← same]

theorem Context.exists_corner (context : g.Context form left t right) (front : left = [])
    (known : ∀ s ∈ form, s ∈ g.terminals ∨ s ∈ g.nonterminals) (nonterminal : t ∈ g.nonterminals) :
    ∃ u, g.Corner form u ∧ Relation.ReflTransGen g.LeftEdge u t := by
  have corner : ∀ {before after : List Symbol} {u : Symbol}, u ∈ g.nonterminals →
      g.Derives before [] → (∀ s ∈ before, s ∈ g.terminals ∨ s ∈ g.nonterminals) →
        g.Corner (before ++ u :: after) u := by
    intro before after u inside vanish known
    refine ⟨before, after, rfl, inside, fun r member => ?_⟩
    have single := vanish.nil_of_mem member
    exact ⟨nonterminal_of_derives_nil (known r member) single, single⟩
  induction context with
  | @here before after _ _ t first _ =>
    subst front
    exact ⟨t, corner nonterminal first fun s member => known s (by simp [member]), .refl⟩
  | @within before after _ _ _ _ t p rule first _ _ ih =>
    obtain ⟨rfl, rfl⟩ := List.append_eq_nil_iff.mp front
    obtain ⟨u, below, way⟩ := ih rfl (fun s => mem_body rule) nonterminal
    have name := g.wellFormed.name_declared p rule
    refine ⟨p.name, corner name first fun s member => known s (by simp [member]), ?_⟩
    exact .head (leftEdge_of_body rule below) way

theorem leftRecursive_iff : g.LeftRecursive s ↔ Relation.TransGen g.LeftEdge s s := by
  constructor
  · rintro ⟨rest, derives⟩
    obtain ⟨form, step, later⟩ := Relation.TransGen.head'_iff.mp derives
    obtain ⟨p, rule, rfl, rfl⟩ := step.of_name
    have context : g.Context p.body [] p.name rest := .of_derives later
    obtain ⟨u, below, way⟩ :=
      context.exists_corner rfl (fun s => mem_body rule) (g.wellFormed.name_declared p rule)
    exact .head' (leftEdge_of_body rule below) way
  · exact rewrites_of_leftEdges

/-- The search for left recursion always has an answer. It finds nothing exactly if no nonterminal
derives a form that begins with itself. What it finds starts and ends with the same nonterminal, and
meets no other twice; in some production of each one the next one stands behind nothing but
nonterminals that can be empty. -/
theorem leftRecursion_exact (g : Grammar) :
    ∃ a found, g.analysis = .ok a ∧ a.leftRecursion = .ok found ∧
      (found = none ↔ ∀ s ∈ g.nonterminals, ¬ g.LeftRecursive s) ∧
      ∀ cycle, found = some cycle → 2 ≤ cycle.length ∧ cycle.head? = cycle.getLast? ∧
        cycle.dropLast.Nodup ∧ cycle.IsChain g.LeftEdge := by
  obtain ⟨a, analysed, of⟩ := Analysis.analysis_ok g
  obtain ⟨found, searched, cyclic⟩ := Analysis.leftRecursion_isCycle of
  refine ⟨a, found, analysed, searched, ?_, ?_⟩
  · have answer : found = none ↔ a.leftRecursion = .ok none := by rw [searched, Except.ok.injEq]
    rw [answer, Analysis.leftRecursion_eq_none_iff of, ← not_exists, exists_isCircuit_iff]
    simp only [← leftRecursive_iff, not_exists]
    refine ⟨fun none s _ => none s, fun none s recursive => ?_⟩
    obtain ⟨form, step, _⟩ := Relation.TransGen.head'_iff.mp recursive.choose_spec
    obtain ⟨p, rule, rfl, _⟩ := step.of_name
    exact none p.name (g.wellFormed.name_declared p rule) recursive
  · intro cycle same
    obtain ⟨⟨s, rest, rfl, chain⟩, nodup⟩ := cyclic cycle same
    have ends : (s :: rest ++ [s]).head? = (s :: rest ++ [s]).getLast? := by
      rw [List.getLast?_concat, List.cons_append, List.head?_cons]
    exact ⟨by simp, ends, nodup, chain⟩

end Grammar

namespace Sample

def indirect : Declaration where
  start := "S"
  rules := [("S", ["A", "A", "B", "c"]), ("A", []), ("A", ["a"]), ("B", ["A", "S"]), ("B", ["b"])]
  terminals := none
  nonterminals := none

def indirectGrammar : Grammar :=
  ⟨indirect.start, indirect.productions, indirect.terminalSet, indirect.nonterminalSet,
    indirect.wellFormed_of_fault (by decide +kernel)⟩

theorem indirect_leftRecursion_exact :
    (∃ a, indirectGrammar.analysis = .ok a ∧ a.leftRecursion = .ok (some ["S", "B", "S"]) ∧
      ["S", "B"].Nodup ∧ indirectGrammar.LeftEdge "S" "B" ∧ indirectGrammar.LeftEdge "B" "S" ∧
        ∃ s ∈ indirectGrammar.nonterminals, indirectGrammar.LeftRecursive s) ∧
    ∃ a, textbookGrammar.analysis = .ok a ∧ a.leftRecursion = .ok none ∧
      ∀ s ∈ textbookGrammar.nonterminals, ¬ textbookGrammar.LeftRecursive s := by
  constructor
  · obtain ⟨a, found, analysed, searched, none, cyclic⟩ :=
      Grammar.leftRecursion_exact indirectGrammar
    have computed : (indirectGrammar.analysis.toOption.map fun a => a.leftRecursion.toOption) =
        some (some (some ["S", "B", "S"])) := by decide +kernel
    simp only [analysed, searched, Except.toOption, Option.map_some, Option.some.injEq] at computed
    subst computed
    obtain ⟨_, _, nodup, chain⟩ := cyclic _ rfl
    simp only [List.isChain_cons_cons] at chain
    have some : ∃ s ∈ indirectGrammar.nonterminals, indirectGrammar.LeftRecursive s := by
      by_contra absent
      simp only [not_exists, not_and] at absent
      cases none.mpr absent
    exact ⟨a, analysed, searched, nodup, chain.1, chain.2.1, some⟩
  · obtain ⟨a, found, analysed, searched, none, _⟩ := Grammar.leftRecursion_exact textbookGrammar
    have computed : (textbookGrammar.analysis.toOption.map fun a => a.leftRecursion.toOption) =
        some (some Option.none) := by decide +kernel
    simp only [analysed, searched, Except.toOption, Option.map_some, Option.some.injEq] at computed
    subst computed
    exact ⟨a, analysed, searched, none.mp rfl⟩

end Sample

end TopDown
