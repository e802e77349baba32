import TopDown.CommandLine.Arguments
import TopDown.CommandLine.GrammarFile
import TopDown.Event
import TopDown.Table.Layout
import TopDown.Tree.Json

namespace TopDown.CommandLine

open Notation

inductive Ending where
  | exit (code : Nat)
  | raised (message : String)
  deriving DecidableEq, Repr

structure Report where
  stdout : String
  stderr : String
  ending : Ending
  deriving DecidableEq, Repr

def eventLine (e : Event) : String := e.channel ++ ": " ++ e.message ++ "\n"

def eventText (a : Arguments) (events : List Event) : String :=
  String.join ((Event.select (if a.verbose then .info else .warning) events).map eventLine)

/-- The named grammar of a file or, without a name, its only one. -/
def choose (a : Arguments) (members : List (String × Loaded)) : Except String Grammar :=
  match a.member with
  | some name =>
    match GrammarFile.lookup members name with
    | .grammar g => .ok g
    | .other => .error (name ++ " in " ++ a.path ++ " is not a Grammar")
    | .absent => .error ("Cannot find " ++ name ++ " in " ++ a.path)
  | none =>
    match GrammarFile.grammarNames members with
    | [] => .error ("No grammars found in " ++ a.path)
    | [name] =>
      match GrammarFile.lookup members name with
      | .grammar g => .ok g
      | _ => .error ("No grammars found in " ++ a.path)
    | names =>
      .error (toString names.length ++ " grammars found in " ++ a.path ++ ": " ++
        ", ".intercalate names)

def treeText (a : Arguments) (t : Tree) : String :=
  if a.json then t.jsonText (some 2) else t.format

def errorText (e : SyntaxError) : String :=
  e.text ++ "\n" ++
    if e.expected.isEmpty then "" else "Expected one of: " ++ " ".intercalate e.expected ++ "\n"

def parseReport (a : Arguments) (warnings : String) (t : Table) : Report :=
  let run := t.run a.input
  let head := if a.table then t.format ++ "\n\n" else ""
  let log := warnings ++ eventText a run.events
  match run.outcome with
  | .accepted tree => ⟨head ++ treeText a tree ++ "\n", log, .exit 0⟩
  | .rejected e => ⟨head, log ++ errorText e, .exit 1⟩
  | .broken _ => ⟨head, log, .raised "The table does not fit its grammar"⟩

def report (a : Arguments) (f : GrammarFile) : Report :=
  if f.isGrammarFile then
    match GrammarFile.load f.members with
    | (made, loaded) =>
      let warnings := eventText a (made.flatMap (·.events))
      match loaded with
      | .error (.grammar fault) => ⟨"", warnings ++ fault.message ++ "\n", .exit 2⟩
      | .error (.clash cause) => ⟨"", warnings ++ cause.message ++ "\n", .exit 2⟩
      | .error e => ⟨"", warnings, .raised e.message⟩
      | .ok members =>
        match choose a members with
        | .error message => ⟨"", warnings, .raised message⟩
        | .ok g =>
          match g.table with
          | .error e =>
            ⟨"", warnings ++ eventText a g.tableEvents ++ e.message ++ "\n", .exit 2⟩
          | .ok t => parseReport a (warnings ++ eventText a g.tableEvents) t
  else ⟨"", "", .raised (a.path ++ " does not seem to be a module")⟩

end TopDown.CommandLine
