import Lox.Token.Scan
import Lox.Grammar.Statement
import Lox.Scope.Resolve
import Lox.Machine

/-!
# Diagnostics

Everything that can be reported about a program, from the first character to
the last statement executed, with its line and its full text. Diagnostics that
are found without running the program are static; a program with a static
diagnostic is not run.
-/

namespace Lox

/-- A report about a program. -/
inductive Diagnostic where
  /-- A piece of text that is no token. -/
  | lexical (line : Nat) (cause : LexError)
  /-- Tokens that are no program. -/
  | grammatical (error : SyntaxError)
  /-- A wrong use of a name or of a `return`. -/
  | scoping (error : ScopeError)
  /-- An error of the running program. -/
  | runtime (error : RuntimeError)
  deriving DecidableEq

namespace Diagnostic

/-- The line of a diagnostic. -/
def line : Diagnostic → Nat
  | .lexical line _ => line
  | .grammatical error => error.place.line
  | .scoping error => error.place.line
  | .runtime error => error.line

/-- Whether a diagnostic is found without running the program. -/
def isStatic : Diagnostic → Bool
  | .runtime _ => false
  | _ => true

/-- The text of a static diagnostic. -/
def staticText (line : Nat) (location message : String) : String :=
  "[line " ++ toString line ++ "] Error" ++ location ++ ": " ++ message

/-- The full text of a diagnostic. -/
def message : Diagnostic → String
  | .lexical line cause => staticText line "" cause.message
  | .grammatical error =>
    staticText error.place.line error.place.location error.cause.message
  | .scoping error =>
    staticText error.place.line (" at '" ++ error.place.text ++ "'") error.cause.message
  | .runtime error => error.message

end Diagnostic

end Lox
