import TopDown.Proofs.Declaration
import TopDown.Proofs.Language
import TopDown.Proofs.Parse.Viable

namespace TopDown

open Computability

namespace Declaration

variable {d : Declaration} {g : Grammar} {N : Symbol → Language Symbol}

def Closed (d : Declaration) (N : Symbol → Language Symbol) : Prop :=
  ∀ rule ∈ d.rules, ((Symbol.written rule.2).map N).prod ≤ N rule.1

theorem closed_language (made : d.grammar = .ok g) : d.Closed g.language := by
  intro rule member
  obtain ⟨p, inside, name, body⟩ := exists_production member
  rw [← name, ← body]
  apply Grammar.prod_le_language
  rwa [(of_grammar made).2.1]

theorem Closed.language_le (closed : d.Closed N) (made : d.grammar = .ok g)
    (terminal : ∀ s ∈ g.terminals, [s] ∈ N s) (s : Symbol) : g.language s ≤ N s := by
  refine Grammar.language_le terminal (fun p member => ?_) s
  rw [(of_grammar made).2.1] at member
  obtain ⟨rule, inside, name, body⟩ := exists_rule member
  rw [name, body]
  exact closed rule inside

end Declaration

namespace Sample

variable {N : Symbol → Language Symbol}

section Textbook

theorem textbook_grammar : textbook.grammar = .ok textbookGrammar :=
  Declaration.grammar_of_fault (by decide +kernel)

theorem textbook_closed_iff : textbook.Closed N ↔
    N "a" * (N "A" * (N "B" * N "b")) ≤ N "S" ∧ N "a" * (N "A" * N "c") ≤ N "A" ∧ 1 ≤ N "A" ∧
      N "b" * N "B" ≤ N "B" ∧ N "c" ≤ N "B" := by
  simp [Declaration.Closed, textbook, Symbol.written, Symbol.empty]

def nests : Language Symbol :=
  {word | ∃ n, word = List.replicate n "a" ++ List.replicate n "c"}

def chains : Language Symbol := {word | ∃ m, word = List.replicate m "b" ++ ["c"]}

def textbookWords : Symbol → Language Symbol
  | "S" => {["a"]} * (nests * (chains * {["b"]}))
  | "A" => nests
  | "B" => chains
  | s => {[s]}

theorem nest_succ (n : Nat) : List.replicate (n + 1) "a" ++ List.replicate (n + 1) "c" =
    ["a"] ++ ((List.replicate n "a" ++ List.replicate n "c") ++ ["c"]) := by
  rw [List.replicate_succ, List.replicate_succ' (a := "c")]
  simp

theorem textbookWords_closed : textbook.Closed textbookWords := by
  refine textbook_closed_iff.mpr ⟨le_rfl, ?_, ?_, ?_, ?_⟩
  · rintro _ ⟨_, rfl, _, ⟨_, ⟨n, rfl⟩, _, rfl, rfl⟩, rfl⟩
    exact ⟨n + 1, (nest_succ n).symm⟩
  · rintro _ rfl
    exact ⟨0, rfl⟩
  · rintro _ ⟨_, rfl, _, ⟨m, rfl⟩, rfl⟩
    exact ⟨m + 1, rfl⟩
  · rintro _ rfl
    exact ⟨0, rfl⟩

theorem textbookWords_le (closed : textbook.Closed N)
    (terminal : ∀ s ∈ ["a", "b", "c"], [s] ∈ N s) : textbookWords "S" ≤ N "S" := by
  obtain ⟨whole, outer, inner, longer, last⟩ := textbook_closed_iff.mp closed
  have a := terminal "a" (by simp)
  have b := terminal "b" (by simp)
  have c := terminal "c" (by simp)
  have nested : nests ≤ N "A" := by
    rintro _ ⟨n, rfl⟩
    induction n with
    | zero => exact inner Language.nil_mem_one
    | succ n ih =>
      rw [nest_succ]
      exact outer (Language.append_mem_mul a (Language.append_mem_mul ih c))
  have chained : chains ≤ N "B" := by
    rintro _ ⟨m, rfl⟩
    induction m with
    | zero => exact last c
    | succ m ih =>
      rw [List.replicate_succ, List.cons_append, ← List.singleton_append]
      exact longer (Language.append_mem_mul b ih)
  refine le_trans ?_ whole
  change {["a"]} * (nests * (chains * {["b"]})) ≤ _
  gcongr
  · rintro _ rfl
    exact a
  · rintro _ rfl
    exact b

/-- The words of the sample: as many `c` as there are `a` beside the first one, then any number of `b`
and the end of the chain. -/
theorem mem_textbookWords {word : List Symbol} : word ∈ textbookWords "S" ↔ ∃ n m, word =
    "a" :: (List.replicate n "a" ++ List.replicate n "c" ++ List.replicate m "b" ++ ["c", "b"]) := by
  constructor
  · rintro ⟨_, rfl, _, ⟨_, ⟨n, rfl⟩, _, ⟨_, ⟨m, rfl⟩, _, rfl, rfl⟩, rfl⟩, rfl⟩
    exact ⟨n, m, by simp⟩
  · rintro ⟨n, m, rfl⟩
    exact ⟨_, rfl, _, ⟨_, ⟨n, rfl⟩, _, ⟨_, ⟨m, rfl⟩, _, rfl, rfl⟩, rfl⟩, by simp⟩

theorem textbook_language : textbookGrammar.language "S" = textbookWords "S" := by
  have terminals : textbookGrammar.terminals.toList = ["a", "b", "c"] := by decide +kernel
  apply le_antisymm
  · refine textbookWords_closed.language_le textbook_grammar (fun s member => ?_) "S"
    rw [← SymbolSet.mem_toList, terminals] at member
    simp only [List.mem_cons, List.not_mem_nil, or_false] at member
    rcases member with rfl | rfl | rfl <;> exact rfl
  · refine textbookWords_le (Declaration.closed_language textbook_grammar) fun s member => ?_
    rw [← terminals] at member
    exact Grammar.mem_language_terminal member

/-- The table of the sample accepts exactly the words with matching nests. -/
theorem textbook_accepts_iff : ∃ g t, textbook.grammar = .ok g ∧ g.table = .ok t ∧
    ∀ tokens, (∃ tree, t.parse tokens = .accepted tree) ↔ ∃ n m, tokens =
      "a" :: (List.replicate n "a" ++ List.replicate n "c" ++ List.replicate m "b" ++
        ["c", "b"]) := by
  refine ⟨textbookGrammar, textbookTable, textbook_grammar, textbook_table, fun tokens => ?_⟩
  have sentence : textbookGrammar.Sentence tokens ↔ tokens ∈ textbookGrammar.language "S" := Iff.rfl
  rw [Table.exists_accepted_iff textbook_table, sentence, textbook_language, mem_textbookWords]

end Textbook

section Sums

def sums : Declaration where
  start := "E"
  rules := [("E", ["E", "+", "T"]), ("E", ["T"]), ("T", ["T", "*", "F"]), ("T", ["F"]),
    ("F", ["(", "E", ")"]), ("F", ["id"])]
  terminals := none
  nonterminals := none

def sumsGrammar : Grammar :=
  ⟨sums.start, sums.productions, sums.terminalSet, sums.nonterminalSet,
    sums.wellFormed_of_fault (by decide +kernel)⟩

def tailedSums : Declaration where
  start := "expression"
  rules := [("expression", ["term", "expression_tail"]),
    ("expression_tail", ["+", "term", "expression_tail"]), ("expression_tail", []),
    ("term", ["factor", "term_tail"]), ("term_tail", ["*", "factor", "term_tail"]),
    ("term_tail", []), ("factor", ["(", "expression", ")"]), ("factor", ["id"])]
  terminals := some ["+", "*", "(", ")", "id"]
  nonterminals := some ["expression", "expression_tail", "term", "term_tail", "factor"]

def tailedSumsGrammar : Grammar :=
  ⟨tailedSums.start, tailedSums.productions, tailedSums.terminalSet, tailedSums.nonterminalSet,
    tailedSums.wellFormed_of_fault (by decide +kernel)⟩

theorem sums_grammar : sums.grammar = .ok sumsGrammar :=
  Declaration.grammar_of_fault (by decide +kernel)

theorem tailedSums_grammar : tailedSums.grammar = .ok tailedSumsGrammar :=
  Declaration.grammar_of_fault (by decide +kernel)

theorem expression_grammar :
    (expression.grammar expressionStart).2 = .ok tailedSumsGrammar := by
  have parts : (expression.grammar expressionStart).2.toOption.map
      (fun g => (g.start, g.productions, g.terminals, g.nonterminals)) =
        some (tailedSums.start, tailedSums.productions, tailedSums.terminalSet,
          tailedSums.nonterminalSet) := by decide +kernel
  cases made : (expression.grammar expressionStart).2 with
  | error e => simp [made, Except.toOption] at parts
  | ok g =>
    obtain ⟨start, productions, terminals, nonterminals, _⟩ := g
    simp only [made, Except.toOption, Option.map_some, Option.some.injEq, Prod.mk.injEq] at parts
    obtain ⟨rfl, rfl, rfl, rfl⟩ := parts
    rfl

theorem sums_closed_iff : sums.Closed N ↔
    N "E" * (N "+" * N "T") ≤ N "E" ∧ N "T" ≤ N "E" ∧ N "T" * (N "*" * N "F") ≤ N "T" ∧
      N "F" ≤ N "T" ∧ N "(" * (N "E" * N ")") ≤ N "F" ∧ N "id" ≤ N "F" := by
  simp [Declaration.Closed, sums, Symbol.written, Symbol.empty]

theorem tailedSums_closed_iff : tailedSums.Closed N ↔
    N "term" * N "expression_tail" ≤ N "expression" ∧
      N "+" * (N "term" * N "expression_tail") ≤ N "expression_tail" ∧ 1 ≤ N "expression_tail" ∧
      N "factor" * N "term_tail" ≤ N "term" ∧
      N "*" * (N "factor" * N "term_tail") ≤ N "term_tail" ∧ 1 ≤ N "term_tail" ∧
      N "(" * (N "expression" * N ")") ≤ N "factor" ∧ N "id" ≤ N "factor" := by
  simp [Declaration.Closed, tailedSums, Symbol.written, Symbol.empty]

/-- The words of the symbols with tails, when those of the symbols with left recursion are given. -/
def withTails (N : Symbol → Language Symbol) : Symbol → Language Symbol
  | "expression" => N "E"
  | "expression_tail" => (N "+" * N "T")∗
  | "term" => N "T"
  | "term_tail" => (N "*" * N "F")∗
  | "factor" => N "F"
  | s => N s

def withoutTails (N : Symbol → Language Symbol) : Symbol → Language Symbol
  | "E" => N "term" * (N "+" * N "term")∗
  | "T" => N "factor" * (N "*" * N "factor")∗
  | "F" => N "factor"
  | s => N s

theorem withTails_closed (closed : sums.Closed N) : tailedSums.Closed (withTails N) := by
  obtain ⟨sum, term, product, factor, nested, id⟩ := sums_closed_iff.mp closed
  -- What may follow a term, and what may follow a factor, is any number of pieces with a sign.
  refine tailedSums_closed_iff.mpr ⟨?_, ?_, one_le_kstar, ?_, ?_, one_le_kstar, nested, id⟩
  · exact mul_kstar_le term sum
  · change N "+" * (N "T" * (N "+" * N "T")∗) ≤ (N "+" * N "T")∗
    rw [← mul_assoc]
    exact mul_kstar_le_kstar
  · exact mul_kstar_le factor product
  · change N "*" * (N "F" * (N "*" * N "F")∗) ≤ (N "*" * N "F")∗
    rw [← mul_assoc]
    exact mul_kstar_le_kstar

theorem withoutTails_le (closed : tailedSums.Closed N) :
    withoutTails N "E" ≤ N "expression" ∧ withoutTails N "T" ≤ N "term" := by
  obtain ⟨expression, sum, none, term, product, none', _⟩ := tailedSums_closed_iff.mp closed
  rw [← mul_assoc] at sum product
  constructor
  · change N "term" * (N "+" * N "term")∗ ≤ N "expression"
    grw [kstar_le_of_mul_le_right none sum, expression]
  · change N "factor" * (N "*" * N "factor")∗ ≤ N "term"
    grw [kstar_le_of_mul_le_right none' product, term]

theorem withoutTails_closed (closed : tailedSums.Closed N) : sums.Closed (withoutTails N) := by
  obtain ⟨_, _, _, _, _, _, nested, id⟩ := tailedSums_closed_iff.mp closed
  obtain ⟨sums, products⟩ := withoutTails_le closed
  refine sums_closed_iff.mpr ⟨?_, ?_, ?_, ?_, ?_, id⟩
  · grw [products]
    change N "term" * (N "+" * N "term")∗ * (N "+" * N "term") ≤ N "term" * (N "+" * N "term")∗
    grw [mul_assoc, kstar_mul_le_kstar]
  · grw [products]
    change N "term" ≤ N "term" * (N "+" * N "term")∗
    grw [← one_le_kstar, mul_one]
  · change N "factor" * (N "*" * N "factor")∗ * (N "*" * N "factor") ≤
      N "factor" * (N "*" * N "factor")∗
    grw [mul_assoc, kstar_mul_le_kstar]
  · change N "factor" ≤ N "factor" * (N "*" * N "factor")∗
    grw [← one_le_kstar, mul_one]
  · grw [sums]
    exact nested

def sumsTokens : List Symbol := ["(", ")", "*", "+", "id"]

theorem sums_terminals : sumsGrammar.terminals.toList = sumsTokens := by decide +kernel

theorem tailedSums_terminals : tailedSumsGrammar.terminals.toList = sumsTokens := by decide +kernel

theorem sums_language : tailedSumsGrammar.language "expression" = sumsGrammar.language "E" := by
  have withToken : ∀ s ∈ sumsTokens, withTails sumsGrammar.language s = sumsGrammar.language s := by
    simp [sumsTokens, withTails]
  have withoutToken : ∀ s ∈ sumsTokens,
      withoutTails tailedSumsGrammar.language s = tailedSumsGrammar.language s := by
    simp [sumsTokens, withoutTails]
  have closed := Declaration.closed_language sums_grammar
  have closed' := Declaration.closed_language tailedSums_grammar
  apply le_antisymm
  · refine (withTails_closed closed).language_le tailedSums_grammar (fun s member => ?_) _
    rw [← SymbolSet.mem_toList, tailedSums_terminals] at member
    rw [withToken s member]
    rw [← sums_terminals] at member
    exact Grammar.mem_language_terminal member
  · refine le_trans ?_ (withoutTails_le closed').1
    refine (withoutTails_closed closed').language_le sums_grammar (fun s member => ?_) _
    rw [← SymbolSet.mem_toList, sums_terminals] at member
    rw [withoutToken s member]
    rw [← tailedSums_terminals] at member
    exact Grammar.mem_language_terminal member

/-- The table of the expression rules accepts exactly the words of the grammar with left
recursion. -/
theorem expression_accepts_iff : ∃ g t, (expression.grammar expressionStart).2 = .ok g ∧
    g.table = .ok t ∧ ∀ tokens,
      (∃ tree, t.parse tokens = .accepted tree) ↔ sumsGrammar.Sentence tokens := by
  have found : tailedSumsGrammar.table.toOption.isSome = true := by decide +kernel
  cases made : tailedSumsGrammar.table with
  | error e => simp [made, Except.toOption] at found
  | ok t =>
    refine ⟨tailedSumsGrammar, t, expression_grammar, made, fun tokens => ?_⟩
    rw [Table.exists_accepted_iff made]
    have sentence : tailedSumsGrammar.Sentence tokens ↔
        tokens ∈ tailedSumsGrammar.language "expression" := Iff.rfl
    rw [sentence, sums_language]
    exact Iff.rfl

end Sums

end Sample
end TopDown
