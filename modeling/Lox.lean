import Lox.Main
import Lox.Tree.Reference
import Lox.Evaluation.Trace
import Lox.Proofs.Grammar.Reading
import Lox.Proofs.Grammar.Soundness
import Lox.Proofs.Grammar.Completeness
import Lox.Proofs.Grammar.Acceptance
import Lox.Proofs.Scope
import Lox.Proofs.Scope.Resolution
import Lox.Proofs.Store
import Lox.Proofs.Simulation
import Lox.Proofs.Evaluation.Effects
import Lox.Proofs.Evaluation.Points
import Lox.Proofs.Lexical
import Lox.Proofs.Lexical.Layout
import Lox.Proofs.Lexical.Steps
import Lox.Proofs.Lexical.Agreement
import Lox.Proofs.Shift
import Lox.Proofs.Grammar.Renumber
import Lox.Proofs.Session
import Lox.Proofs.Scope.Keywords
import Lox.Proofs.Heap.Evaluation
import Lox.Proofs.Heap.Points
import Lox.Proofs.Session.Consistency
import Lox.Proofs.Session.Invariants
import Lox.Proofs.Lexical.Program
import Lox.Proofs.Shift.Alike
import Lox.Proofs.Shift.Evaluation
import Lox.Proofs.Session.Increments
import Lox.Proofs.Session.Renaming
import Lox.Proofs.Session.Refusal
import Lox.Proofs.Heap
import Lox.Proofs.Heap.Steps
import Lox.Proofs.Search
import Lox.Proofs.Scope.Late
import Lox.Proofs.Search.Forecast
import Lox.Proofs.Search.Steps
import Lox.Proofs.Search.Agreement
import Lox.Proofs.Search.Program
import Lox.Proofs.Grammar.Identities
import Lox.Proofs.Scope.References
import Lox.Proofs.Session.Identities
import Lox.Proofs.Tokens.Lexicon
import Lox.Proofs.Tokens.Spans
import Lox.Proofs.Session.Accounting
import Lox.Proofs.Evaluation.Visits
import Lox.Proofs.Output
import Lox.Proofs.Output.Evaluation
import Lox.Proofs.Session.Truncation
import Lox.Proofs.Scope.Surroundings
import Lox.Proofs.Scope.Errors
import Lox.Proofs.Grammar.Proper
import Lox.Proofs.Scope.Walk
import Lox.Proofs.Scope.Distances
import Lox.Proofs.Scope.Anchored
import Lox.Proofs.Evaluation.Moments
import Lox.Proofs.Course
import Lox.Proofs.Course.Evaluation
import Lox.Proofs.Session.Chronicle
import Lox.Proofs.Dispatch
import Lox.Proofs.Session.Dispatch
import Lox.Proofs.Session.Construction
import Lox.Proofs.Forest
import Lox.Proofs.Indexed.Totality
import Lox.Proofs.Session.Concatenation
import Lox.Proofs.Loops.Program
import Lox.Proofs.Tokens.Trivia
import Lox.Proofs.Evaluation.Returns
import Lox.Proofs.Session.Returns
import Lox.Proofs.Grammar.Origins
import Lox.Proofs.Evaluation.Lines
import Lox.Proofs.Session.Lines
import Lox.Proofs.Tree.Equality
import Lox.Proofs.Tree.Form
import Lox.Proofs.Number.Text
import Lox.Proofs.Number.Rounding
import Lox.Proofs.Number.Reading
import Lox.Proofs.Number.Shortest
import Lox.Proofs.Number.Printed
import Lox.Proofs.Tree.Words
import Lox.Proofs.Tree.Rendering
