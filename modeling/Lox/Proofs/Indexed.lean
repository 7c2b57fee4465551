import Lox.Proofs.Grammar.Soundness

/-!
# Reading by position

The grammar once more, read by a position in an array of tokens. Here nothing ends by
construction: every look at a token is an access to the array, which may be out of range,
and every repetition and every nested phrase is one more call inside a call. The readers
are given how deep calls may be inside each other, and have no result if that is not deep
enough or if they look for a token where there is none. What a reader does without such a
limit is what it does at all depths that are great enough; a reader that never ends does
nothing at any depth.

The array holds the end of the input like any other token, in whatever places. It is the
readers that must not pass it.
-/

namespace Lox

/-- Where a reader stands. -/
structure Indexed.Place where
  /-- All tokens. -/
  tokens : Array Token
  /-- The position of the next token. -/
  position : Nat
  /-- The greatest position so far. -/
  furthest : Nat
  /-- The next identity to hand out. -/
  nextId : Nat
  /-- The errors reported so far, oldest first. -/
  errors : Array SyntaxError

/-- A reader by position: it yields a value or fails, if it has a result at all. -/
abbrev Indexed := ExceptT SyntaxError (StateT Indexed.Place Option)

namespace Indexed

open Parse (Joiner)

/-- What a reader comes to when nothing limits its depth. -/
def Settles {α : Type} (reader : Nat → Indexed α) (place : Place)
    (result : Except SyntaxError α × Place) : Prop :=
  ∃ least, ∀ depth, least ≤ depth → reader depth place = some result

/-- The reader that has no result, where the depth is not enough. -/
def cut {α : Type} : Indexed α := fun _ => none

/-! ### Single tokens -/

/-- The token at the position. -/
def peek : Indexed Token := fun place =>
  place.tokens[place.position]?.map fun token => (.ok token, place)

/-- The token before the position; there is none before the first. -/
def previous : Indexed Token := fun place =>
  match place.position with
  | 0 => none
  | i + 1 => place.tokens[i]?.map fun token => (.ok token, place)

/-- Goes to the next position. -/
def move : Indexed Unit :=
  modify fun place => { place with
    position := place.position + 1
    furthest := max place.furthest (place.position + 1) }

/-- Whether the token at the position is an end of the input. -/
def atEnd : Indexed Bool := return (← peek).isFinish

/-- Consumes the token at the position, unless it is an end of the input, and yields the
token before the new position. -/
def advance : Indexed Token := do
  if ← atEnd then previous
  else
    move
    previous

/-- Fails at the token at the position. -/
def fail {α : Type} (cause : SyntaxCause) : Indexed α := do
  throw ⟨← peek, cause⟩

/-- Reports an error and goes on. -/
def report (error : SyntaxError) : Indexed Unit :=
  modify fun place => { place with errors := place.errors.push error }

/-- A new identity. -/
def freshId : Indexed Nat :=
  modifyGet fun place => (place.nextId, { place with nextId := place.nextId + 1 })

/-- Whether the given symbol stands at the position. -/
def check (symbol : Symbol) : Indexed Bool := do
  if ← atEnd then return false else return (← peek).is symbol

/-- Consumes the token at the position if `select` gives it a meaning. -/
def acceptMap {α : Type} (select : Token → Option α) : Indexed (Option α) := do
  if ← atEnd then return none
  else
    match select (← peek) with
    | none => return none
    | some a =>
      let _ ← advance
      return some a

/-- Consumes the given symbol if it stands at the position, and yields its token. -/
def accept? (symbol : Symbol) : Indexed (Option Token) := do
  if ← check symbol then some <$> advance else return none

/-- Consumes the given symbol if it stands at the position. -/
def accept (symbol : Symbol) : Indexed Bool := return (← accept? symbol).isSome

/-- Consumes what `select` gives a meaning to, and fails otherwise. -/
def expectMap {α : Type} (select : Token → Option α) (what : String) : Indexed α := do
  match ← acceptMap select with
  | some a => return a
  | none => fail (.expected what)

/-- Consumes the given symbol, and fails where another token stands. -/
def expect (symbol : Symbol) (what : String) : Indexed Token := do
  if ← check symbol then advance else fail (.expected what)

/-- Consumes an identifier, and fails where another token stands. -/
def expectName (what : String) : Indexed Name := expectMap Parse.nameOf? what

/-- Consumes a symbol that `select` gives a meaning to, and yields that meaning with the
line of the symbol. -/
def acceptOperator {α : Type} (select : Symbol → Option α) : Indexed (Option (α × Nat)) :=
  acceptMap fun token =>
    match token.kind with
    | .symbol symbol => (select symbol).map (·, token.line)
    | _ => none

/-- Reports the token at the position if `count` others are as many as there may be. -/
def reportSurplus (what : String) (count : Nat) : Indexed Unit := do
  if maxArguments ≤ count then
    report ⟨← peek, .tooMany what⟩

/-! ### Expressions -/

/-- An assignment to what was read before the equals sign. -/
def assignTo (equals : Token) (value : Expr) : Expr → Indexed Expr
  | .var ref => return .assign ⟨← freshId, ref.name⟩ value
  | .get object name => return .set object name value
  | other => do
    report ⟨equals, .invalidTarget⟩
    return other

mutual

/-- An operation or an assignment. -/
def expression : Nat → Indexed Expr
  | 0 => cut
  | depth + 1 => do
    let target ← operation depth Parse.levelOperators
    match ← accept? .equal with
    | none => return target
    | some equals =>
      let value ← expression depth
      assignTo equals value target

/-- Operands joined by the given operators, loosest first. -/
def operation : Nat → List (Symbol → Option Joiner) → Indexed Expr
  | 0, _ => cut
  | depth + 1, [] => unary depth
  | depth + 1, operator :: operators => do
    let left ← operation depth operators
    joinLeft depth operator operators left

/-- The operators and operands that follow `left`, joined from the left. -/
def joinLeft : Nat → (Symbol → Option Joiner) → List (Symbol → Option Joiner) → Expr →
    Indexed Expr
  | 0, _, _, _ => cut
  | depth + 1, operator, operators, left => do
    match ← acceptOperator operator with
    | none => return left
    | some (join, line) =>
      let right ← operation depth operators
      joinLeft depth operator operators (join line left right)

/-- An operand with the operators before it. -/
def unary : Nat → Indexed Expr
  | 0 => cut
  | depth + 1 => do
    match ← acceptOperator Parse.unaryOperator with
    | none => call depth
    | some (op, line) =>
      let operand ← unary depth
      return .unary op line operand

/-- An operand with the calls and properties that follow it. -/
def call : Nat → Indexed Expr
  | 0 => cut
  | depth + 1 => do
    let object ← primary depth
    suffixes depth object

/-- The calls and properties that follow `object`. -/
def suffixes : Nat → Expr → Indexed Expr
  | 0, _ => cut
  | depth + 1, object => do
    if ← accept .leftParen then
      let values ← argumentValues depth
      let paren ← expect .rightParen "')' after arguments"
      suffixes depth (.call object values paren.line)
    else if ← accept .dot then
      let name ← expectName "property name after '.'"
      suffixes depth (.get object name)
    else
      return object

/-- The values between the parentheses of a call. -/
def argumentValues : Nat → Indexed (List Expr)
  | 0 => cut
  | depth + 1 => do
    if ← check .rightParen then return [] else argumentList depth 0

/-- Arguments with commas between them, after `count` others. -/
def argumentList : Nat → Nat → Indexed (List Expr)
  | 0, _ => cut
  | depth + 1, count => do
    reportSurplus "arguments" count
    let argument ← expression depth
    if ← accept .comma then
      let others ← argumentList depth (count + 1)
      return argument :: others
    else
      return [argument]

/-- A literal, a name, a keyword that stands for an object, or an expression in
parentheses. -/
def primary : Nat → Indexed Expr
  | 0 => cut
  | depth + 1 => do
    match ← expectMap Parse.primary? "expression" with
    | .literal value => return .literal value
    | .super line =>
      let _ ← expect .dot "'.' after 'super'"
      let method ← expectName "superclass method name"
      return .super (← freshId) line method
    | .this line => return .this (← freshId) line
    | .name name => return .var ⟨← freshId, name⟩
    | .group =>
      let inner ← expression depth
      let _ ← expect .rightParen "')' after expression"
      return .group inner

end

/-! ### Statements -/

/-- Consumes tokens up to the next boundary. -/
def skip : Nat → Indexed Unit
  | 0 => cut
  | depth + 1 => do
    if ← atEnd then return ()
    else if (← previous).is .semicolon then return ()
    else if Parse.startsStatement (← peek) then return ()
    else
      let _ ← advance
      skip depth

/-- Consumes the token at the position and the following ones up to a boundary. -/
def synchronize (depth : Nat) : Indexed Unit := do
  let _ ← advance
  skip depth

/-- Runs a reader; if it fails, reports the error and skips to a boundary. -/
def recover {α : Type} (depth : Nat) (reader : Indexed α) : Indexed (Option α) := fun place =>
  match reader place with
  | none => none
  | some (.ok a, after) => some (.ok (some a), after)
  | some (.error error, after) =>
    (do report error; synchronize depth; return none : Indexed (Option α)) after

/-- The value that a variable starts from, with the equals sign before it. -/
def initialValue (depth : Nat) : Indexed (Option Expr) := do
  if ← accept .equal then some <$> expression depth else return none

/-- A variable after its keyword. -/
def varDeclaration (depth : Nat) : Indexed Stmt := do
  let name ← expectName "variable name"
  let initializer ← initialValue depth
  let _ ← expect .semicolon "';' after variable declaration"
  return .varDecl name initializer

/-- An expression as a statement. -/
def expressionStatement (depth : Nat) : Indexed Stmt := do
  let e ← expression depth
  let _ ← expect .semicolon "';' after expression"
  return .expression e

/-- An expression, unless the given symbol stands in its place. -/
def expressionUnless (depth : Nat) (symbol : Symbol) : Indexed (Option Expr) := do
  if ← check symbol then return none else some <$> expression depth

/-- Parameters with commas between them, after `count` others. -/
def parameterList : Nat → Nat → Indexed (List Name)
  | 0, _ => cut
  | depth + 1, count => do
    reportSurplus "parameters" count
    let name ← expectName "parameter name"
    if ← accept .comma then
      let others ← parameterList depth (count + 1)
      return name :: others
    else
      return [name]

/-- The parameters between the parentheses of a function. -/
def parameters (depth : Nat) : Indexed (List Name) := do
  if ← check .rightParen then return [] else parameterList depth 0

/-- The superclass of a class, with the sign before it. -/
def superclassClause : Indexed (Option Ref) := do
  if ← accept .less then
    let superName ← expectName "superclass name"
    return some ⟨← freshId, superName⟩
  else return none

/-- The first clause of a `for` statement with the semicolon that ends it. -/
def forInitializer (depth : Nat) : Indexed (Option Stmt) := do
  if ← accept .semicolon then return none
  else if ← accept .varWord then some <$> varDeclaration depth
  else some <$> expressionStatement depth

/-- A `print` statement after its keyword. -/
def printStatement (depth : Nat) : Indexed Stmt := do
  let e ← expression depth
  let _ ← expect .semicolon "';' after value"
  return .print e

/-- A `return` statement after its keyword, which is the previous token. -/
def returnStatement (depth : Nat) : Indexed Stmt := do
  let keyword ← previous
  let value ← expressionUnless depth .semicolon
  let _ ← expect .semicolon "';' after return value"
  return .result keyword.line value

mutual

/-- A declaration; one that fails is reported and dropped. -/
def declaration : Nat → Indexed (Option Stmt)
  | 0 => cut
  | depth + 1 => recover depth (declarationOrFail depth)

/-- A declaration that may fail. -/
def declarationOrFail : Nat → Indexed Stmt
  | 0 => cut
  | depth + 1 => do
    match (← peek).kind with
    | .symbol .classWord =>
      let _ ← advance
      classDeclaration depth
    | .symbol .funWord =>
      let _ ← advance
      .funDecl <$> function depth "function"
    | .symbol .varWord =>
      let _ ← advance
      varDeclaration depth
    | _ => statement depth

/-- A statement. -/
def statement : Nat → Indexed Stmt
  | 0 => cut
  | depth + 1 => do
    match (← peek).kind with
    | .symbol .forWord =>
      let _ ← advance
      forStatement depth
    | .symbol .ifWord =>
      let _ ← advance
      ifStatement depth
    | .symbol .whileWord =>
      let _ ← advance
      whileStatement depth
    | .symbol .returnWord =>
      let _ ← advance
      returnStatement depth
    | .symbol .printWord =>
      let _ ← advance
      printStatement depth
    | .symbol .leftBrace =>
      let _ ← advance
      .block <$> block depth
    | _ => expressionStatement depth

/-- A class after its keyword. -/
def classDeclaration : Nat → Indexed Stmt
  | 0 => cut
  | depth + 1 => do
    let name ← expectName "class name"
    let superclass ← superclassClause
    let _ ← expect .leftBrace "'\x7b' before class body"
    let methods ← methodList depth
    let _ ← expect .rightBrace "'\x7d' after class body"
    return .classDecl name superclass methods

/-- Methods up to a closing brace or the end. -/
def methodList : Nat → Indexed (List FunDecl)
  | 0 => cut
  | depth + 1 => do
    if (← check .rightBrace) || (← atEnd) then
      return []
    else
      let method ← function depth "method"
      let others ← methodList depth
      return method :: others

/-- A function or method; `kind` is its word in error messages. -/
def function : Nat → String → Indexed FunDecl
  | 0, _ => cut
  | depth + 1, kind => do
    let name ← expectName (kind ++ " name")
    let _ ← expect .leftParen ("'(' after " ++ kind ++ " name")
    let params ← parameters depth
    let _ ← expect .rightParen "')' after parameters"
    let _ ← expect .leftBrace ("'\x7b' before " ++ kind ++ " body")
    let body ← block depth
    return ⟨name, params, body⟩

/-- The statements of a block after its opening brace. -/
def block : Nat → Indexed (List Stmt)
  | 0 => cut
  | depth + 1 => do
    let body ← declarationList depth
    let _ ← expect .rightBrace "'\x7d' after block"
    return body

/-- Declarations up to a closing brace or the end; those that fail are left out. -/
def declarationList : Nat → Indexed (List Stmt)
  | 0 => cut
  | depth + 1 => do
    if (← check .rightBrace) || (← atEnd) then
      return []
    else
      let first ← declaration depth
      let others ← declarationList depth
      return first.toList ++ others

/-- A choice after its keyword; an `else` belongs to the nearest `if`. -/
def ifStatement : Nat → Indexed Stmt
  | 0 => cut
  | depth + 1 => do
    let _ ← expect .leftParen "'(' after 'if'"
    let condition ← expression depth
    let _ ← expect .rightParen "')' after condition"
    let yes ← statement depth
    let no ← elseBranch depth
    return .branch condition yes no

/-- The second branch of a choice, with the keyword before it. -/
def elseBranch : Nat → Indexed (Option Stmt)
  | 0 => cut
  | depth + 1 => do
    if ← accept .elseWord then some <$> statement depth else return none

/-- A loop after its keyword. -/
def whileStatement : Nat → Indexed Stmt
  | 0 => cut
  | depth + 1 => do
    let _ ← expect .leftParen "'(' after 'while'"
    let condition ← expression depth
    let _ ← expect .rightParen "')' after condition"
    let body ← statement depth
    return .loop condition body

/-- A `for` statement after its keyword. -/
def forStatement : Nat → Indexed Stmt
  | 0 => cut
  | depth + 1 => do
    let _ ← expect .leftParen "'(' after 'for'"
    let initializer ← forInitializer depth
    let condition ← expressionUnless depth .semicolon
    let _ ← expect .semicolon "';' after loop condition"
    let increment ← expressionUnless depth .rightParen
    let _ ← expect .rightParen "')' after for clauses"
    let body ← statement depth
    return Parse.forLoop initializer condition increment body

end

/-- All declarations up to the end of the input; those that fail are left out. -/
def program : Nat → Indexed (List Stmt)
  | 0 => cut
  | depth + 1 => do
    if ← atEnd then return []
    else
      let first ← declaration depth
      let others ← program depth
      return first.toList ++ others

/-- The tokens with an end of the input behind them, on the line of the last token or on
line one, unless the last token is an end itself. -/
def closed (tokens : List Token) : Array Token :=
  match tokens.getLast? with
  | some token => if token.isFinish then tokens.toArray
    else (tokens ++ [Token.finishAt token.line]).toArray
  | none => #[Token.finishAt 1]

/-- Before the first token, with identities to hand out from `nextId` on. -/
def start (tokens : List Token) (nextId : Nat) : Place := ⟨closed tokens, 0, 0, nextId, #[]⟩

end Indexed

end Lox
