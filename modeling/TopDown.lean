import TopDown.Main
import TopDown.Tree.Quoted
import TopDown.Proofs.Lookup
import TopDown.Proofs.LL1
import TopDown.Proofs.Parse.Completeness
import TopDown.Proofs.Analysis.Exact
import TopDown.Proofs.Parse.Viable
import TopDown.Proofs.Prediction
import TopDown.Proofs.Parse.Trace
import TopDown.Proofs.Parse.Expected
import TopDown.Proofs.Table.Clashes
import TopDown.Proofs.Table.Outcome
import TopDown.Proofs.LeftRecursion.Conflict
import TopDown.Proofs.Parse.Live
import TopDown.Proofs.Language
import TopDown.Proofs.Notation.Equations
import TopDown.Proofs.Notation.Gather
import TopDown.Proofs.Notation.Desugaring
import TopDown.Proofs.Reordering
import TopDown.Proofs.Removal
import TopDown.Proofs.Table.Publication
import TopDown.Proofs.Notation.RoundTrip
import TopDown.Proofs.LeftRecursion.Exact
import TopDown.Proofs.Declaration.Verdict
import TopDown.Proofs.CommandLine.Verdict
import TopDown.Proofs.Family.Convergence
import TopDown.Proofs.Table.Submission
import TopDown.Proofs.Parse.Rejection
import TopDown.Proofs.Notation.Declared
import TopDown.Proofs.Parse.Preorder
import TopDown.Proofs.Tree.Json
import TopDown.Proofs.Tree.Quoted
import TopDown.Proofs.Table.Rows
import TopDown.Proofs.Table.Listing
import TopDown.Proofs.Table.Layout
import TopDown.Proofs.Text.Fields
import TopDown.Proofs.Language.Samples
import TopDown.Proofs.Family.Trailer
import TopDown.Proofs.Tree.Lines
import TopDown.Proofs.Tree.Recursion
import TopDown.Proofs.Parse.InStep
