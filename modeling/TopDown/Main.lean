import TopDown.CommandLine.Reader
import TopDown.CommandLine.Report

namespace TopDown.CommandLine

def usage : String :=
  "usage: [-h] [--grammar-member NAME] [--chars] [--table] [--json] [--verbose] grammar [tokens ...]"

def openFile (path : String) : IO (Except String GrammarFile) := do
  let file : GrammarFile := ⟨path, []⟩
  if file.isGrammarFile then
    let text ← IO.FS.readFile path
    match GrammarFile.read text with
    | .ok members => return .ok ⟨path, members⟩
    | .error line => return .error (path ++ ", line " ++ toString line ++ ": cannot be read")
  else
    return .ok file

def printReport (r : Report) : IO UInt32 := do
  IO.print r.stdout
  IO.eprint r.stderr
  match r.ending with
  | .exit code => return code.toUInt32
  | .raised message =>
    IO.eprintln message
    return 1

def runProgram (args : List String) : IO UInt32 := do
  match Arguments.read args with
  | .error .help =>
    IO.println usage
    return 0
  | .error .usage =>
    IO.eprintln usage
    return 2
  | .ok a =>
    match ← openFile a.path with
    | .error message =>
      IO.eprintln message
      return 1
    | .ok file => printReport (report a file)

end TopDown.CommandLine

def main (args : List String) : IO UInt32 := TopDown.CommandLine.runProgram args
