import Mathlib.Data.List.Basic
import TopDown.CommandLine.GrammarFile

namespace TopDown.CommandLine

open Notation

namespace GrammarFile

/-- The name is bound to the value, and to no other one later. -/
def Binds {α : Type} (members : List (String × α)) (name : String) (value : α) : Prop :=
  ∃ before after, members = before ++ (name, value) :: after ∧ ∀ m ∈ after, m.1 ≠ name

def Loads (members : List (String × Value)) : Prop :=
  ∀ name source, (name, .grammar source) ∈ members → ∃ g, source.grammar = .ok g

/-- The grammars before the first one that cannot be made are made. -/
def FailsFirst (members : List (String × Value)) (e : RuleError) : Prop :=
  ∃ before name source after, members = before ++ (name, .grammar source) :: after ∧
    Loads before ∧ source.grammar = .error e

def Defines (members : List (String × Value)) (name : String) (g : Grammar) : Prop :=
  ∃ source, Binds members name (.grammar source) ∧ source.grammar = .ok g

def loadedValue : Value → Loaded
  | .grammar source =>
    match source.grammar with
    | .ok g => .grammar g
    | .error _ => .absent
  | .other => .other
  | .absent => .absent

def loaded (members : List (String × Value)) : List (String × Loaded) :=
  members.map fun m => (m.1, loadedValue m.2)

section Loading

variable {members rest : List (String × Value)} {name : String} {value : Value} {e : RuleError}

theorem Loads.tail {m : String × Value} (loads : Loads (m :: rest)) : Loads rest :=
  fun name source member => loads name source (List.mem_cons_of_mem m member)

theorem Loads.cons (loads : Loads rest)
    (first : ∀ source, value = .grammar source → ∃ g, source.grammar = .ok g) :
    Loads ((name, value) :: rest) := by
  intro other source member
  rcases List.mem_cons.mp member with same | member
  · cases same
    exact first source rfl
  · exact loads other source member

theorem load_of_loads (loads : Loads members) : (load members).2 = .ok (loaded members) := by
  induction members with
  | nil => rfl
  | cons m rest ih =>
    have later := ih loads.tail
    obtain ⟨name, value⟩ := m
    cases value with
    | other | absent => simp [load, later, loaded, loadedValue, Except.map]
    | grammar source =>
      obtain ⟨g, made⟩ := loads name source List.mem_cons_self
      simp [load, later, made, loaded, loadedValue, Except.map]

theorem load_of_failsFirst (fails : FailsFirst members e) : (load members).2 = .error e := by
  obtain ⟨before, name, source, after, rfl, loads, failed⟩ := fails
  induction before with
  | nil => simp [load, failed]
  | cons m rest ih =>
    have later := ih loads.tail
    obtain ⟨first, value⟩ := m
    cases value with
    | other | absent => simp [load, later, Except.map]
    | grammar source =>
      obtain ⟨g, made⟩ := loads first source List.mem_cons_self
      simp [load, later, made, Except.map]

theorem loads_or_fails (members : List (String × Value)) :
    Loads members ∨ ∃ e, FailsFirst members e := by
  induction members with
  | nil => exact Or.inl fun _ _ member => absurd member List.not_mem_nil
  | cons m rest ih =>
    obtain ⟨name, value⟩ := m
    -- The first value fails, or the first failure is that of the rest.
    by_cases failed : ∃ source e, value = .grammar source ∧ source.grammar = .error e
    · obtain ⟨source, e, rfl, failed⟩ := failed
      exact Or.inr ⟨e, [], name, source, rest, rfl,
        fun _ _ member => absurd member List.not_mem_nil, failed⟩
    · have made : ∀ source, value = .grammar source → ∃ g, source.grammar = .ok g := by
        intro source same
        cases result : source.grammar with
        | ok g => exact ⟨g, rfl⟩
        | error e => exact absurd ⟨source, e, same, result⟩ failed
      rcases ih with loads | ⟨e, before, other, source, after, rfl, loads, failed⟩
      · exact Or.inl (loads.cons made)
      · exact Or.inr ⟨e, (name, value) :: before, other, source, after, rfl, loads.cons made,
          failed⟩

end Loading

section Names

variable {α β : Type} {entries : List (String × α)} {name : String} {value : α}

theorem reverse_lookup_eq_some_iff :
    entries.reverse.lookup name = some value ↔ Binds entries name value := by
  rw [List.lookup_eq_some_iff]
  constructor
  · intro ⟨after, before, whole, fresh⟩
    refine ⟨before.reverse, after.reverse, ?_, ?_⟩
    · rw [← entries.reverse_reverse, whole]
      simp
    · intro m member
      have different := fresh m (List.mem_reverse.mp member)
      exact fun same => by simp [same] at different
  · rintro ⟨before, after, rfl, fresh⟩
    refine ⟨after.reverse, before.reverse, by simp, ?_⟩
    intro m member
    have different := fresh m (List.mem_reverse.mp member)
    simpa using different.symm

theorem binds_map_iff {f : α → β} {image : β} :
    Binds (entries.map fun m => (m.1, f m.2)) name image ↔
      ∃ value, Binds entries name value ∧ f value = image := by
  constructor
  · intro ⟨before, after, whole, fresh⟩
    obtain ⟨left, right, rfl, rfl, split⟩ := List.map_eq_append_iff.mp whole
    obtain ⟨m, late, rfl, here, rfl⟩ := List.map_eq_cons_iff.mp split
    cases here
    refine ⟨m.2, ⟨left, late, rfl, fun other member => ?_⟩, rfl⟩
    exact fresh _ (List.mem_map_of_mem member)
  · rintro ⟨value, ⟨before, after, rfl, fresh⟩, rfl⟩
    refine ⟨before.map fun m => (m.1, f m.2), after.map fun m => (m.1, f m.2), by simp, ?_⟩
    intro m member
    obtain ⟨other, inside, rfl⟩ := List.mem_map.mp member
    exact fresh other inside

theorem Binds.mem (binds : Binds entries name value) : name ∈ entries.map (·.1) := by
  obtain ⟨before, after, rfl, _⟩ := binds
  simp

end Names

section Grammars

variable {members : List (String × Value)} {name : String} {g : Grammar}

theorem loadedValue_eq_grammar {value : Value} :
    loadedValue value = .grammar g ↔ ∃ source, value = .grammar source ∧ source.grammar = .ok g := by
  cases value with
  | other | absent => simp [loadedValue]
  | grammar source =>
    cases made : source.grammar <;> simp [loadedValue, made]

theorem lookup_eq_grammar_iff {entries : List (String × Loaded)} :
    lookup entries name = .grammar g ↔ Binds entries name (.grammar g) := by
  rw [← reverse_lookup_eq_some_iff, lookup]
  cases entries.reverse.lookup name <;> simp

theorem lookup_loaded_iff : lookup (loaded members) name = .grammar g ↔ Defines members name g := by
  rw [lookup_eq_grammar_iff, loaded, binds_map_iff, Defines]
  constructor
  · rintro ⟨value, binds, becomes⟩
    obtain ⟨source, rfl, made⟩ := loadedValue_eq_grammar.mp becomes
    exact ⟨source, binds, made⟩
  · rintro ⟨source, binds, made⟩
    exact ⟨_, binds, loadedValue_eq_grammar.mpr ⟨source, rfl, made⟩⟩

theorem mem_grammarNames_iff :
    name ∈ grammarNames (loaded members) ↔ ∃ g, Defines members name g := by
  simp only [grammarNames, List.mem_filter, SymbolSet.mem_toList, SymbolSet.mem_ofList,
    ← lookup_loaded_iff]
  constructor
  · rintro ⟨_, found⟩
    split at found
    · rename_i g value
      exact ⟨g, value⟩
    · cases found
  · rintro ⟨g, value⟩
    exact ⟨(lookup_eq_grammar_iff.mp value).mem, by simp [value]⟩

theorem grammarNames_eq_singleton_iff : grammarNames (loaded members) = [name] ↔
    (∃ g, Defines members name g) ∧ ∀ other h, Defines members other h → other = name := by
  constructor
  · intro single
    have listed : ∀ other, (∃ h, Defines members other h) ↔ other = name := by
      intro other
      rw [← mem_grammarNames_iff, single, List.mem_singleton]
    exact ⟨(listed name).mpr rfl, fun other h defines => (listed other).mp ⟨h, defines⟩⟩
  · intro ⟨defined, unique⟩
    have ascending : (grammarNames (loaded members)).Pairwise (· < ·) :=
      (SymbolSet.ascending _).filter _
    refine SymbolSet.eq_of_ascending ascending (List.pairwise_singleton _ _) fun other => ?_
    rw [mem_grammarNames_iff, List.mem_singleton]
    constructor
    · exact fun ⟨h, defines⟩ => unique other h defines
    · rintro rfl
      exact defined

end Grammars

end GrammarFile

end TopDown.CommandLine
