import TopDown.CommandLine.Report
import TopDown.Proofs.CommandLine.Arguments
import TopDown.Proofs.CommandLine.GrammarFile
import TopDown.Proofs.Parse.Integrity
import TopDown.Proofs.Parse.Viable

namespace TopDown.CommandLine

open Notation GrammarFile

def GrammarFile.IsModule (f : GrammarFile) : Prop := ∃ stem, f.name = stem ++ ".py"

def Refuses : RuleError → Prop
  | .grammar _ => True
  | .clash _ => True
  | _ => False

/-- The grammar that the given name stands for or, without a name, the only one. -/
def Selects (a : Arguments) (members : List (String × Value)) (g : Grammar) : Prop :=
  match a.member with
  | some name => Defines members name g
  | none => ∃ name, Defines members name g ∧ ∀ other h, Defines members other h → other = name

def heading (a : Arguments) (t : Table) : String :=
  if a.table then t.format ++ "\n\n" else ""

def printed (a : Arguments) (tree : Tree) : String :=
  if a.json then tree.jsonText (some 2) else tree.format

/-- The reports of the program, by the first thing that is wrong. -/
inductive Answers (a : Arguments) (f : GrammarFile) : Report → Prop
  | not_module {log message} (other : ¬ f.IsModule) : Answers a f ⟨"", log, .raised message⟩
  | bad_grammar {log e} (module : f.IsModule) (fails : FailsFirst f.members e)
    (refuses : Refuses e) : Answers a f ⟨"", log, .exit 2⟩
  | bad_rule {log message e} (module : f.IsModule) (fails : FailsFirst f.members e)
    (other : ¬ Refuses e) : Answers a f ⟨"", log, .raised message⟩
  | unselected {log message} (module : f.IsModule) (loads : Loads f.members)
    (none : ∀ g, ¬ Selects a f.members g) : Answers a f ⟨"", log, .raised message⟩
  | no_table {log g e} (module : f.IsModule) (loads : Loads f.members)
    (selects : Selects a f.members g) (refused : g.table = .error e) :
    Answers a f ⟨"", log, .exit 2⟩
  | sentence {log g t tree} (module : f.IsModule) (loads : Loads f.members)
    (selects : Selects a f.members g) (made : g.table = .ok t) (sentence : g.Sentence a.input)
    (accepted : t.parse a.input = .accepted tree) :
    Answers a f ⟨heading a t ++ printed a tree ++ "\n", log, .exit 0⟩
  | no_sentence {log g t} (module : f.IsModule) (loads : Loads f.members)
    (selects : Selects a f.members g) (made : g.table = .ok t) (other : ¬ g.Sentence a.input) :
    Answers a f ⟨heading a t, log, .exit 1⟩

/-- The arguments differ at most in what is printed. -/
structure Arguments.Alike (a b : Arguments) : Prop where
  path_eq : b.path = a.path
  tokens_eq : b.tokens = a.tokens
  member_eq : b.member = a.member
  chars_eq : b.chars = a.chars

variable {a b : Arguments} {f : GrammarFile} {members : List (String × Value)} {g : Grammar}
  {t : Table}

section Selection

theorem isGrammarFile_iff : f.isGrammarFile = true ↔ f.IsModule := by
  rw [isGrammarFile, List.isSuffixOf_iff_suffix, IsModule]
  constructor
  · intro ⟨stem, whole⟩
    refine ⟨String.ofList stem, ?_⟩
    rw [← String.toList_inj, String.toList_append, String.toList_ofList]
    exact whole.symm
  · intro ⟨stem, whole⟩
    exact ⟨stem.toList, by rw [whole, String.toList_append]; rfl⟩

theorem choose_ok_iff : choose a (loaded members) = .ok g ↔ Selects a members g := by
  unfold choose Selects
  cases a.member with
  | some name =>
    dsimp only
    rw [← lookup_loaded_iff]
    cases lookup (loaded members) name <;> simp
  | none =>
    have only : (∃ name, Defines members name g ∧ ∀ other h, Defines members other h → other = name) ↔
        ∃ name, grammarNames (loaded members) = [name] ∧ lookup (loaded members) name = .grammar g := by
      simp only [grammarNames_eq_singleton_iff, lookup_loaded_iff]
      constructor
      · intro ⟨name, defines, unique⟩
        exact ⟨name, ⟨⟨g, defines⟩, unique⟩, defines⟩
      · intro ⟨name, ⟨_, unique⟩, defines⟩
        exact ⟨name, defines, unique⟩
    dsimp only
    rw [only]
    split
    · rename_i none
      simp [none]
    · rename_i name single
      cases value : lookup (loaded members) name <;> simp [single, value]
    · rename_i more
      simp only [reduceCtorEq, false_iff, not_exists]
      exact fun name ⟨single, _⟩ => more name single

end Selection

section Reports

theorem answers_of_fails (module : f.IsModule) {e : RuleError} (fails : FailsFirst f.members e) :
    Answers a f (report a f) := by
  have failed := load_of_failsFirst fails
  rw [report, if_pos (isGrammarFile_iff.mpr module)]
  generalize load f.members = result at failed
  obtain ⟨made, result⟩ := result
  dsimp only at failed
  subst failed
  cases e with
  | grammar | clash => exact .bad_grammar module fails True.intro
  | _ => exact .bad_rule module fails id

theorem answers_of_table (module : f.IsModule) (loads : Loads f.members)
    (selects : Selects a f.members g) (made : g.table = .ok t) (warnings : String) :
    Answers a f (parseReport a warnings t) := by
  -- The report looks at the run, of which the parse is the outcome.
  have whole : t.parse a.input = (t.run a.input).outcome := rfl
  unfold parseReport
  dsimp only
  rw [← whole]
  cases outcome : t.parse a.input with
  | accepted tree =>
    have sentence := (Table.exists_accepted_iff made).mp ⟨tree, outcome⟩
    exact .sentence module loads selects made sentence outcome
  | rejected e =>
    exact .no_sentence module loads selects made (Table.not_sentence_of_rejected made outcome)
  | broken fault => exact absurd outcome (Table.parse_not_broken made a.input fault)

theorem answers_of_loads (module : f.IsModule) (loads : Loads f.members) :
    Answers a f (report a f) := by
  have result := load_of_loads loads
  rw [report, if_pos (isGrammarFile_iff.mpr module)]
  generalize load f.members = pair at result
  obtain ⟨made, members⟩ := pair
  dsimp only at result
  subst result
  dsimp only
  cases chosen : choose a (loaded f.members) with
  | error message =>
    refine .unselected module loads fun g selects => ?_
    rw [choose_ok_iff.mpr selects] at chosen
    cases chosen
  | ok g =>
    have selects := choose_ok_iff.mp chosen
    dsimp only
    cases generated : g.table with
    | error e => exact .no_table module loads selects generated
    | ok t => exact answers_of_table module loads selects generated _

theorem report_answers (a : Arguments) (f : GrammarFile) : Answers a f (report a f) := by
  by_cases module : f.IsModule
  · rcases loads_or_fails f.members with loads | ⟨e, fails⟩
    · exact answers_of_loads module loads
    · exact answers_of_fails module fails
  · have other : ¬ f.isGrammarFile = true := mt isGrammarFile_iff.mp module
    rw [report, if_neg other]
    exact .not_module module

end Reports

section Printing

namespace Arguments.Alike

theorem input_eq (alike : a.Alike b) : b.input = a.input := by
  rw [input, input, alike.chars_eq, alike.tokens_eq]

theorem choose_eq (alike : a.Alike b) (entries : List (String × Loaded)) :
    choose b entries = choose a entries := by
  unfold choose
  rw [alike.member_eq, alike.path_eq]

theorem parseReport_eq (alike : a.Alike b) (t : Table) (first second : String) :
    (parseReport b second t).ending = (parseReport a first t).ending ∧
      (b.table = a.table → b.json = a.json →
        (parseReport b second t).stdout = (parseReport a first t).stdout) := by
  unfold parseReport treeText
  rw [alike.input_eq]
  dsimp only
  cases (t.run a.input).outcome <;> exact ⟨rfl, fun table json => by simp [table, json]⟩

theorem report_eq (alike : a.Alike b) (f : GrammarFile) :
    (report b f).ending = (report a f).ending ∧ (b.table = a.table → b.json = a.json →
      (report b f).stdout = (report a f).stdout) := by
  unfold report
  by_cases module : f.isGrammarFile
  · simp only [module, if_true]
    obtain ⟨made, result⟩ := load f.members
    cases result with
    | error e => cases e <;> exact ⟨rfl, fun _ _ => rfl⟩
    | ok entries =>
      dsimp only
      rw [alike.choose_eq]
      cases choose a entries with
      | error message => exact ⟨rfl, fun _ _ => rfl⟩
      | ok g =>
        dsimp only
        cases g.table with
        | error e => exact ⟨rfl, fun _ _ => rfl⟩
        | ok t => exact alike.parseReport_eq t _ _
  · simp [module, alike.path_eq]

end Arguments.Alike

end Printing

/-- A command line is read as it is written, unless the name of a member looks like an option, and is
answered by the first thing that is wrong; if nothing is, by whether the tokens are a sentence. How
it ends does not depend on what is printed, and a log leaves all that is printed as it is. -/
theorem call_answered (f : GrammarFile) (c : Call) (plain : c.Plain) :
    ((∃ a, Arguments.read c.args = .ok a) ↔ ∀ flag ∈ c.flags, flag.Sound) ∧
    (Arguments.read c.args = .error .usage ↔ ¬ ∀ flag ∈ c.flags, flag.Sound) ∧
    ∀ a, Arguments.read c.args = .ok a → a.Follows c ∧ Answers a f (report a f) ∧
      ∀ b, a.Alike b → (report b f).ending = (report a f).ending ∧
        (b.table = a.table → b.json = a.json → (report b f).stdout = (report a f).stdout) :=
  ⟨Call.exists_arguments_iff plain, Call.read_eq_usage_iff plain, fun a answered =>
    ⟨Call.follows plain answered, report_answers a f, fun _ alike => alike.report_eq f⟩⟩

def textbookCall : Call := ⟨[.chars], "textbook.py", ["acb"], [.table, .verbose]⟩

def textbookArguments : Arguments := ⟨"textbook.py", ["acb"], none, true, true, false, true⟩

theorem textbook_call_answered : textbookCall.Plain ∧
    Arguments.read ["--chars", "textbook.py", "acb", "--table", "--verbose"] =
      .ok textbookArguments ∧ textbookArguments.Follows textbookCall ∧
    Answers textbookArguments GrammarFile.textbook (report textbookArguments GrammarFile.textbook) ∧
    (report textbookArguments GrammarFile.textbook).ending = .exit 0 ∧
    (report { textbookArguments with table := false } GrammarFile.textbook).ending = .exit 0 := by
  have plain : textbookCall.Plain := by
    unfold Call.Plain
    decide
  have answered : Arguments.read textbookCall.args = .ok textbookArguments := rfl
  have ending : (report textbookArguments GrammarFile.textbook).ending = .exit 0 := by
    decide +kernel
  obtain ⟨_, _, each⟩ := call_answered GrammarFile.textbook textbookCall plain
  obtain ⟨follows, answers, same⟩ := each textbookArguments answered
  have alike : textbookArguments.Alike { textbookArguments with table := false } :=
    ⟨rfl, rfl, rfl, rfl⟩
  obtain ⟨kept, _⟩ := same { textbookArguments with table := false } alike
  exact ⟨plain, answered, follows, answers, ending, kept.trans ending⟩

end TopDown.CommandLine
