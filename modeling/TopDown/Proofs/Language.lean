import Mathlib.Computability.Language
import Mathlib.Order.CompletePartialOrder
import TopDown.Proofs.Derivation

namespace TopDown

namespace Grammar

def language (g : Grammar) (s : Symbol) : Language Symbol :=
  {word | g.IsWord word ∧ g.Derives [s] word}

variable {g : Grammar} {form u v word : List Symbol} {N : Symbol → Language Symbol}

theorem mem_prod_language :
    word ∈ (form.map g.language).prod ↔ g.IsWord word ∧ g.Derives form word := by
  induction form generalizing word with
  | nil =>
    rw [List.map_nil, List.prod_nil, Language.mem_one]
    constructor
    · rintro rfl
      exact ⟨isWord_nil, Derives.refl []⟩
    · exact fun derived => derived.2.eq_nil
  | cons s form ih =>
    rw [List.map_cons, List.prod_cons, Language.mem_mul]
    constructor
    · intro ⟨first, ⟨isFirst, derivesFirst⟩, rest, inside, whole⟩
      have later := ih.mp inside
      subst whole
      exact ⟨isFirst.append later.1, derivesFirst.append later.2⟩
    · intro ⟨isWord, derives⟩
      rw [← List.singleton_append] at derives
      obtain ⟨first, rest, rfl, derivesFirst, derivesRest⟩ := derives.split
      have words := isWord.of_append
      exact ⟨first, ⟨words.1, derivesFirst⟩, rest, ih.mpr ⟨words.2, derivesRest⟩, rfl⟩

theorem mem_language_terminal {s : Symbol} (terminal : s ∈ g.terminals) : [s] ∈ g.language s :=
  ⟨isWord_nil.cons terminal, Derives.refl [s]⟩

theorem prod_le_language {p : Production} (rule : p ∈ g.productions) :
    (p.body.map g.language).prod ≤ g.language p.name := by
  intro word inside
  obtain ⟨isWord, derives⟩ := mem_prod_language.mp inside
  exact ⟨isWord, (Derives.of_production rule).trans derives⟩

/-- A step of a derivation makes nothing larger, whatever the symbols stand for, as long as the names
stand for all that their productions make. -/
theorem Derives.prod_le (closed : ∀ p ∈ g.productions, (p.body.map N).prod ≤ N p.name)
    (derives : g.Derives u v) : (v.map N).prod ≤ (u.map N).prod := by
  induction derives with
  | refl => exact le_rfl
  | tail _ step ih =>
    refine le_trans ?_ ih
    obtain ⟨rule, left, right⟩ := step
    simp only [List.map_append, List.map_cons, List.prod_append, List.prod_cons, mul_assoc]
    gcongr
    exact closed _ rule

theorem IsWord.mem_prod (isWord : g.IsWord word) (terminal : ∀ s ∈ g.terminals, [s] ∈ N s) :
    word ∈ (word.map N).prod := by
  induction word with
  | nil => exact Language.nil_mem_one
  | cons s word ih =>
    have first := terminal s (isWord s List.mem_cons_self)
    have rest := ih fun t member => isWord t (List.mem_cons_of_mem s member)
    exact Language.append_mem_mul first rest

theorem language_le (terminal : ∀ s ∈ g.terminals, [s] ∈ N s)
    (closed : ∀ p ∈ g.productions, (p.body.map N).prod ≤ N p.name) (s : Symbol) :
    g.language s ≤ N s := by
  intro word ⟨isWord, derives⟩
  have inside := derives.prod_le closed (isWord.mem_prod terminal)
  rwa [List.map_singleton, List.prod_singleton] at inside

end Grammar

end TopDown
