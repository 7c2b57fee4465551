import Lox.Diagnostic

/-!
# Programs from source text

Source text is read as tokens and the tokens as declarations. The diagnostics
of the first step come before those of the second.
-/

namespace Lox

/-- What source text is read as. -/
structure Program where
  /-- The declarations that could be read. -/
  statements : List Stmt
  /-- What was wrong with the text. -/
  diagnostics : List Diagnostic
  /-- The next identity to hand out. -/
  nextId : Nat

/-- The diagnostics among some items. -/
def Item.diagnostics (items : List Item) : List Diagnostic :=
  items.filterMap fun
    | .token _ => none
    | .bad line cause => some (.lexical line cause)

namespace Program

/-- Reads tokens that were found among the given items. -/
def ofItems (items : List Item) (tokens : List Token) (nextId : Nat) : Program :=
  let parsed := parseTokens tokens nextId
  { statements := parsed.statements
    diagnostics := Item.diagnostics items ++ parsed.errors.map .grammatical
    nextId := parsed.nextId }

/-- Reads source text, handing out identities from `nextId` on. -/
def ofSource (source : String) (nextId : Nat) : Program :=
  let items := scan source
  ofItems items (Item.tokens items) nextId

end Program

/-- The full findings of a program's scopes as diagnostics. -/
def Findings.diagnostics (findings : Findings) : List Diagnostic :=
  findings.errors.map .scoping

end Lox
