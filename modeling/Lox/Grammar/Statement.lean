import Lox.Grammar.Expression

/-!
# The grammar of statements and programs

    program      declaration* END
    declaration  "class" … | "fun" … | "var" … | statement
    statement    "for" … | "if" … | "while" … | "return" … | "print" … | block | expression ";"

A declaration that fails is reported and dropped, and reading goes on at the
next place that looks like the start of a statement. As with expressions, the
recursion is on a bound of the tokens ahead.
-/

namespace Lox.Parse

/-- The words that a statement starts with. -/
def startsStatement (token : Token) : Bool :=
  match token.kind with
  | .symbol .classWord | .symbol .funWord | .symbol .varWord | .symbol .forWord
  | .symbol .ifWord | .symbol .whileWord | .symbol .printWord | .symbol .returnWord => true
  | _ => false

/-- The tokens from the next boundary on, given the token just consumed: a
boundary is behind a semicolon or before a word that starts a statement. -/
def skipToBoundary (previous : Token) : List Token → List Token
  | [] => []
  | token :: rest =>
    if previous.is .semicolon || startsStatement token then token :: rest
    else skipToBoundary token rest

/-- The tokens from which reading goes on after an error: at least one token is
skipped. -/
def synchronize : List Token → List Token
  | [] => []
  | token :: rest => skipToBoundary token rest

/-- Runs a parser; if it fails, reports the error and skips to a boundary. -/
def recover {α : Type} (parser : Parse α) : Parse (Option α) := fun cursor =>
  match parser cursor with
  | .ok a after => .ok (some a) after
  | .error error after =>
    .ok none { after.report error with ahead := synchronize after.ahead }

/-- The value that a variable starts from, with the equals sign before it. -/
def initialValue : Parse (Option Expr) := do
  if ← accept .equal then some <$> expression else return none

/-- A variable after its keyword. -/
def varDeclaration : Parse Stmt := do
  let name ← expectName "variable name"
  let initializer ← initialValue
  let _ ← expect .semicolon "';' after variable declaration"
  return .varDecl name initializer

/-- An expression as a statement. -/
def expressionStatement : Parse Stmt := do
  let e ← expression
  let _ ← expect .semicolon "';' after expression"
  return .expression e

/-- An expression, unless the given symbol stands in its place. -/
def expressionUnless (symbol : Symbol) : Parse (Option Expr) := do
  if ← check symbol then return none else some <$> expression

/-- Declarations up to a closing brace or the end, at most `fuel` of them; those
that fail are left out. -/
def declarationList (declaration : Parse (Option Stmt)) : Nat → Parse (List Stmt)
  | 0 => return []
  | fuel + 1 => do
    if (← check .rightBrace) || (← atEnd) then
      return []
    else
      let first ← declaration
      return first.toList ++ (← declarationList declaration fuel)

/-- The statements of a block after its opening brace. -/
def block (declaration : Parse (Option Stmt)) : Parse (List Stmt) := do
  let body ← declarationList declaration (← remaining)
  let _ ← expect .rightBrace "'\x7d' after block"
  return body

/-- Parameters with commas between them, at most `fuel` of them, after `count`
others. A parameter too many is reported where it stands. -/
def parameterList : Nat → Nat → Parse (List Name)
  | 0, _ => fail (.expected "parameter name")
  | fuel + 1, count => do
    reportSurplus "parameters" count
    let name ← expectName "parameter name"
    if ← accept .comma then
      return name :: (← parameterList fuel (count + 1))
    else
      return [name]

/-- The parameters between the parentheses of a function. -/
def parameters : Parse (List Name) := do
  if ← check .rightParen then return [] else parameterList ((← remaining) + 1) 0

/-- A function or method; `kind` is its word in error messages. -/
def function (declaration : Parse (Option Stmt)) (kind : String) : Parse FunDecl := do
  let name ← expectName (kind ++ " name")
  let _ ← expect .leftParen ("'(' after " ++ kind ++ " name")
  let params ← parameters
  let _ ← expect .rightParen "')' after parameters"
  let _ ← expect .leftBrace ("'\x7b' before " ++ kind ++ " body")
  return ⟨name, params, ← block declaration⟩

/-- Methods up to a closing brace or the end, at most `fuel` of them. -/
def methodList (declaration : Parse (Option Stmt)) : Nat → Parse (List FunDecl)
  | 0 => return []
  | fuel + 1 => do
    if (← check .rightBrace) || (← atEnd) then
      return []
    else
      let method ← function declaration "method"
      return method :: (← methodList declaration fuel)

/-- The superclass of a class, with the sign before it. -/
def superclassClause : Parse (Option Ref) := do
  if ← accept .less then
    let superName ← expectName "superclass name"
    return some ⟨← freshId, superName⟩
  else return none

/-- A class after its keyword. -/
def classDeclaration (declaration : Parse (Option Stmt)) : Parse Stmt := do
  let name ← expectName "class name"
  let superclass ← superclassClause
  let _ ← expect .leftBrace "'\x7b' before class body"
  let methods ← methodList declaration (← remaining)
  let _ ← expect .rightBrace "'\x7d' after class body"
  return .classDecl name superclass methods

/-- The second branch of a choice, with the keyword before it. -/
def elseBranch (statement : Parse Stmt) : Parse (Option Stmt) := do
  if ← accept .elseWord then some <$> statement else return none

/-- A choice after its keyword; an `else` belongs to the nearest `if`. -/
def ifStatement (statement : Parse Stmt) : Parse Stmt := do
  let _ ← expect .leftParen "'(' after 'if'"
  let condition ← expression
  let _ ← expect .rightParen "')' after condition"
  let yes ← statement
  let no ← elseBranch statement
  return .branch condition yes no

/-- A loop after its keyword. -/
def whileStatement (statement : Parse Stmt) : Parse Stmt := do
  let _ ← expect .leftParen "'(' after 'while'"
  let condition ← expression
  let _ ← expect .rightParen "')' after condition"
  return .loop condition (← statement)

/-- The loop that a `for` statement stands for: the initializer runs once in a
scope of the loop, a missing condition holds, and the increment follows each
run of the body. -/
def forLoop (initializer : Option Stmt) (condition increment : Option Expr) (body : Stmt) :
    Stmt :=
  let step := match increment with
    | none => body
    | some e => .block [body, .expression e]
  let repeated := Stmt.loop (condition.getD (.literal (.bool true))) step
  match initializer with
  | none => repeated
  | some first => .block [first, repeated]

/-- The first clause of a `for` statement with the semicolon that ends it. -/
def forInitializer : Parse (Option Stmt) := do
  if ← accept .semicolon then return none
  else if ← accept .varWord then some <$> varDeclaration
  else some <$> expressionStatement

/-- A `for` statement after its keyword. -/
def forStatement (statement : Parse Stmt) : Parse Stmt := do
  let _ ← expect .leftParen "'(' after 'for'"
  let initializer ← forInitializer
  let condition ← expressionUnless .semicolon
  let _ ← expect .semicolon "';' after loop condition"
  let increment ← expressionUnless .rightParen
  let _ ← expect .rightParen "')' after for clauses"
  return forLoop initializer condition increment (← statement)

/-- A `print` statement after its keyword. -/
def printStatement : Parse Stmt := do
  let e ← expression
  let _ ← expect .semicolon "';' after value"
  return .print e

/-- A `return` statement after its keyword, which stands on the given line. -/
def returnStatement (line : Nat) : Parse Stmt := do
  let value ← expressionUnless .semicolon
  let _ ← expect .semicolon "';' after return value"
  return .result line value

/-- A statement, given the parsers of the declarations and statements nested in
it. -/
def statementWith (declaration : Parse (Option Stmt)) (statement : Parse Stmt) : Parse Stmt := do
  let token ← peek
  match token.kind with
  | .symbol .forWord => advance; forStatement statement
  | .symbol .ifWord => advance; ifStatement statement
  | .symbol .whileWord => advance; whileStatement statement
  | .symbol .returnWord => advance; returnStatement token.line
  | .symbol .printWord => advance; printStatement
  | .symbol .leftBrace => advance; .block <$> block declaration
  | _ => expressionStatement

/-- A declaration, given the parsers of the declarations and statements nested
in it. -/
def declarationWith (declaration : Parse (Option Stmt)) (statement : Parse Stmt) :
    Parse Stmt := do
  match (← peek).kind with
  | .symbol .classWord => advance; classDeclaration declaration
  | .symbol .funWord => advance; .funDecl <$> function declaration "function"
  | .symbol .varWord => advance; varDeclaration
  | _ => statementWith declaration statement

mutual

/-- A statement, when no more tokens are ahead than the given bound. -/
def statementWithin : Nat → Parse Stmt
  | 0 => fail (.expected "expression")
  | bound + 1 => statementWith (declarationWithin bound) (statementWithin bound)

/-- A declaration, when no more tokens are ahead than the given bound; one that
fails is reported and dropped. -/
def declarationWithin : Nat → Parse (Option Stmt)
  | 0 => recover (fail (.expected "expression"))
  | bound + 1 => recover (declarationWith (declarationWithin bound) (statementWithin bound))

end

/-- A declaration; one that fails is reported and dropped. -/
def declaration : Parse (Option Stmt) := do
  declarationWithin (← remaining)

/-- Declarations up to the end of the input, at most `fuel` of them; those that
fail are left out. -/
def programList : Nat → Parse (List Stmt)
  | 0 => return []
  | fuel + 1 => do
    if ← atEnd then
      return []
    else
      let first ← declaration
      return first.toList ++ (← programList fuel)

/-- All declarations up to the end of the input. -/
def program : Parse (List Stmt) := do
  programList (← remaining)

end Lox.Parse

namespace Lox

/-- What reading a list of tokens yields. -/
structure Parsed where
  /-- The declarations that were read. -/
  statements : List Stmt
  /-- The syntax errors, oldest first. -/
  errors : List SyntaxError
  /-- The next identity to hand out. -/
  nextId : Nat

/-- Reads tokens as a program, handing out identities from `nextId` on. -/
def parseTokens (tokens : List Token) (nextId : Nat) : Parsed :=
  match Parse.program (Cursor.ofTokens tokens nextId) with
  | .ok statements cursor => ⟨statements, cursor.errors.toList, cursor.nextId⟩
  | .error error cursor => ⟨[], (cursor.report error).errors.toList, cursor.nextId⟩

end Lox
