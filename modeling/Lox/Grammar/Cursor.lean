import Lox.Tree

/-!
# Reading trees from tokens

A parser moves a cursor over the tokens ahead. It may fail with one syntax
error, and it may report further errors and go on; in both cases the cursor
keeps what was consumed, the identities handed out, and the errors reported.
The tokens ahead never include the end of the input, which the cursor holds
apart, so no parser can move past it.
-/

namespace Lox

/-- What is wrong with the tokens at some place. -/
inductive SyntaxCause where
  /-- Something else had to stand here. -/
  | expected (what : String)
  /-- More than the greatest number of arguments or parameters. -/
  | tooMany (what : String)
  /-- An assignment to something that is no variable and no property. -/
  | invalidTarget
  deriving DecidableEq, Repr

/-- The greatest number of arguments of a call and of parameters of a function. -/
def maxArguments : Nat := 255

/-- The wording of a syntax error. -/
def SyntaxCause.message : SyntaxCause → String
  | .expected what => "Expect " ++ what ++ "."
  | .tooMany what => "Can't have more than " ++ toString maxArguments ++ " " ++ what ++ "."
  | .invalidTarget => "Invalid assignment target."

/-- A syntax error and the token it is reported at. -/
structure SyntaxError where
  /-- The token at which the error is reported. -/
  place : Token
  /-- What is wrong there. -/
  cause : SyntaxCause
  deriving DecidableEq

/-- The state of a parser. -/
structure Cursor where
  /-- The tokens still to be read, without the end of the input. -/
  ahead : List Token
  /-- The end of the input. -/
  finish : Token
  /-- The next identity to hand out. -/
  nextId : Nat
  /-- The errors reported so far, oldest first. -/
  errors : Array SyntaxError

/-- A parser: it moves a cursor and yields a value or fails. -/
abbrev Parse := EStateM SyntaxError Cursor

namespace Cursor

/-- The token at the cursor. -/
def current (cursor : Cursor) : Token := cursor.ahead.headD cursor.finish

/-- The cursor with one more error reported. -/
def report (cursor : Cursor) (error : SyntaxError) : Cursor :=
  { cursor with errors := cursor.errors.push error }

/-- A cursor at the first of some tokens. Reading ends at the first end of
input among them; where there is none, the input ends on the line of the last
token, or on line one. -/
def ofTokens (tokens : List Token) (nextId : Nat) : Cursor :=
  let lastLine := (tokens.getLast?.map (·.line)).getD 1
  { ahead := tokens.takeWhile (!·.isFinish)
    finish := (tokens.find? (·.isFinish)).getD (Token.finishAt lastLine)
    nextId := nextId
    errors := #[] }

end Cursor

namespace Parse

/-- The token at the cursor. -/
def peek : Parse Token := return (← get).current

/-- How many tokens are ahead. -/
def remaining : Parse Nat := return (← get).ahead.length

/-- Fails at the token at the cursor. -/
def fail {α : Type} (cause : SyntaxCause) : Parse α := do
  throw ⟨← peek, cause⟩

/-- Reports an error and goes on. -/
def report (error : SyntaxError) : Parse Unit :=
  modify (·.report error)

/-- A new identity. -/
def freshId : Parse Nat :=
  modifyGet fun cursor => (cursor.nextId, { cursor with nextId := cursor.nextId + 1 })

/-- Consumes the token at the cursor. -/
def advance : Parse Unit :=
  modify fun cursor => { cursor with ahead := cursor.ahead.tail }

/-- Consumes the token at the cursor if `select` gives it a meaning. -/
def acceptMap {α : Type} (select : Token → Option α) : Parse (Option α) :=
  modifyGet fun cursor =>
    match cursor.ahead with
    | [] => (none, cursor)
    | token :: rest =>
      match select token with
      | none => (none, cursor)
      | some a => (some a, { cursor with ahead := rest })

/-- Consumes the given symbol if it stands at the cursor, and yields its token. -/
def accept? (symbol : Symbol) : Parse (Option Token) :=
  acceptMap fun token => if token.is symbol then some token else none

/-- Consumes the given symbol if it stands at the cursor. -/
def accept (symbol : Symbol) : Parse Bool := return (← accept? symbol).isSome

/-- Whether the given symbol stands at the cursor. -/
def check (symbol : Symbol) : Parse Bool := return (← peek).is symbol

/-- Whether the cursor is at the end of the input. -/
def atEnd : Parse Bool := return (← get).ahead.isEmpty

/-- Consumes what `select` gives a meaning to, and fails otherwise. -/
def expectMap {α : Type} (select : Token → Option α) (what : String) : Parse α := do
  match ← acceptMap select with
  | some a => return a
  | none => fail (.expected what)

/-- Consumes the given symbol, and fails where another token stands. -/
def expect (symbol : Symbol) (what : String) : Parse Token :=
  expectMap (fun token => if token.is symbol then some token else none) what

/-- The name that an identifier spells. -/
def nameOf? (token : Token) : Option Name :=
  match token.kind with
  | .identifier => some ⟨token.lexeme, token.line⟩
  | _ => none

/-- Consumes an identifier, and fails where another token stands. -/
def expectName (what : String) : Parse Name := expectMap nameOf? what

/-- Consumes a symbol that `select` gives a meaning to, and yields that meaning
with the line of the symbol. -/
def acceptOperator {α : Type} (select : Symbol → Option α) : Parse (Option (α × Nat)) :=
  acceptMap fun token =>
    match token.kind with
    | .symbol symbol => (select symbol).map (·, token.line)
    | _ => none

end Parse

end Lox
