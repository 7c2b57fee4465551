import Lox.Grammar.Cursor

/-!
# The grammar of expressions

One parser per level of precedence, loosest first:

    expression  assignment
    assignment  (call ".")? IDENTIFIER "=" assignment | or
    or          and ("or" and)*
    and         equality ("and" equality)*
    equality    comparison (("!=" | "==") comparison)*
    comparison  term ((">" | ">=" | "<" | "<=") term)*
    term        factor (("-" | "+") factor)*
    factor      unary (("*" | "/") unary)*
    unary       ("!" | "-") unary | call
    call        primary ("(" arguments? ")" | "." IDENTIFIER)*

Each level takes the parser of whole expressions as a parameter, and a bound:
a number no less than that of the tokens ahead, which ends the repetitions of
the level. The knot is tied by recursion on the bound, because between a level
and an expression nested in it at least one token is consumed.
-/

namespace Lox.Parse

/-- How a symbol joins two operands, given its line. -/
abbrev Joiner := Nat → Expr → Expr → Expr

/-- The operator of the loosest logical level. -/
def orOperator : Symbol → Option Joiner
  | .orWord => some (.logical .or)
  | _ => none

/-- The operator of the tighter logical level. -/
def andOperator : Symbol → Option Joiner
  | .andWord => some (.logical .and)
  | _ => none

/-- The operators that compare for equality. -/
def equalityOperator : Symbol → Option Joiner
  | .bangEqual => some (.binary .notEqual)
  | .equalEqual => some (.binary .equal)
  | _ => none

/-- The operators that compare by size. -/
def comparisonOperator : Symbol → Option Joiner
  | .greater => some (.binary .greater)
  | .greaterEqual => some (.binary .greaterEqual)
  | .less => some (.binary .less)
  | .lessEqual => some (.binary .lessEqual)
  | _ => none

/-- The operators of sums. -/
def termOperator : Symbol → Option Joiner
  | .minus => some (.binary .subtract)
  | .plus => some (.binary .add)
  | _ => none

/-- The operators of products. -/
def factorOperator : Symbol → Option Joiner
  | .star => some (.binary .multiply)
  | .slash => some (.binary .divide)
  | _ => none

/-- The operators before an operand. -/
def unaryOperator : Symbol → Option UnaryOp
  | .bang => some .not
  | .minus => some .negate
  | _ => none

/-- The operators and operands that follow `left`, at most `fuel` of them,
joined from the left. -/
def joinLeft (operator : Symbol → Option Joiner) (operand : Parse Expr) :
    Nat → Expr → Parse Expr
  | 0, left => return left
  | fuel + 1, left => do
    match ← acceptOperator operator with
    | none => return left
    | some (join, line) => joinLeft operator operand fuel (join line left (← operand))

/-- One level of operators that associate to the left. -/
def level (bound : Nat) (operator : Symbol → Option Joiner) (operand : Parse Expr) :
    Parse Expr := do
  joinLeft operator operand bound (← operand)

/-- The level of operators before an operand, at most `fuel` of them. -/
def unary (operand : Parse Expr) : Nat → Parse Expr
  | 0 => operand
  | fuel + 1 => do
    match ← acceptOperator unaryOperator with
    | none => operand
    | some (op, line) => return .unary op line (← unary operand fuel)

/-- Reports the token at the cursor if `count` others are as many as there may be. -/
def reportSurplus (what : String) (count : Nat) : Parse Unit := do
  if maxArguments ≤ count then
    report ⟨← peek, .tooMany what⟩

/-- Arguments with commas between them, at most `fuel` of them, after `count`
others. An argument too many is reported where it starts. -/
def argumentList (expression : Parse Expr) : Nat → Nat → Parse (List Expr)
  | 0, _ => fail (.expected "expression")
  | fuel + 1, count => do
    reportSurplus "arguments" count
    let argument ← expression
    if ← accept .comma then
      return argument :: (← argumentList expression fuel (count + 1))
    else
      return [argument]

/-- The values between the parentheses of a call. -/
def argumentValues (bound : Nat) (expression : Parse Expr) : Parse (List Expr) := do
  if ← check .rightParen then return [] else argumentList expression (bound + 1) 0

/-- The arguments of a call up to its closing parenthesis. -/
def arguments (bound : Nat) (expression : Parse Expr) : Parse (List Expr × Nat) := do
  let values ← argumentValues bound expression
  let paren ← expect .rightParen "')' after arguments"
  return (values, paren.line)

/-- The calls and properties that follow `object`, at most `fuel` of them. -/
def suffixes (bound : Nat) (expression : Parse Expr) : Nat → Expr → Parse Expr
  | 0, object => return object
  | fuel + 1, object => do
    if ← accept .leftParen then
      let (values, line) ← arguments bound expression
      suffixes bound expression fuel (.call object values line)
    else if ← accept .dot then
      let name ← expectName "property name after '.'"
      suffixes bound expression fuel (.get object name)
    else
      return object

/-- The start of an operand. -/
inductive Primary where
  | literal (value : Literal)
  | super (line : Nat)
  | this (line : Nat)
  | name (name : Name)
  | group

/-- How an operand that starts with the given token is read. -/
def primary? (token : Token) : Option Primary :=
  match token.kind with
  | .symbol .falseWord => some (.literal (.bool false))
  | .symbol .trueWord => some (.literal (.bool true))
  | .symbol .nilWord => some (.literal .nil)
  | .number value => some (.literal (.number value))
  | .string contents => some (.literal (.string contents))
  | .symbol .superWord => some (.super token.line)
  | .symbol .thisWord => some (.this token.line)
  | .identifier => some (.name ⟨token.lexeme, token.line⟩)
  | .symbol .leftParen => some .group
  | _ => none

/-- A literal, a name, a keyword that stands for an object, or an expression
in parentheses. -/
def primary (expression : Parse Expr) : Parse Expr := do
  match ← expectMap primary? "expression" with
  | .literal value => return .literal value
  | .super line =>
    let _ ← expect .dot "'.' after 'super'"
    let method ← expectName "superclass method name"
    return .super (← freshId) line method
  | .this line => return .this (← freshId) line
  | .name name => return .var ⟨← freshId, name⟩
  | .group =>
    let inner ← expression
    let _ ← expect .rightParen "')' after expression"
    return .group inner

/-- An operand with the calls and properties that follow it. -/
def call (bound : Nat) (expression : Parse Expr) : Parse Expr := do
  suffixes bound expression bound (← primary expression)

/-- All levels of operators. -/
def operation (bound : Nat) (expression : Parse Expr) : Parse Expr :=
  level bound orOperator <| level bound andOperator <| level bound equalityOperator <|
    level bound comparisonOperator <| level bound termOperator <|
    level bound factorOperator <| unary (call bound expression) bound

/-- An operation, or an assignment to the variable or property that it is. A
target of another kind is reported at the equals sign, and its value dropped. -/
def assignment (bound : Nat) (expression : Parse Expr) : Parse Expr := do
  let target ← operation bound expression
  match ← accept? .equal with
  | none => return target
  | some equals =>
    let value ← expression
    match target with
    | .var ref => return .assign ⟨← freshId, ref.name⟩ value
    | .get object name => return .set object name value
    | other =>
      report ⟨equals, .invalidTarget⟩
      return other

/-- An expression, when no more tokens are ahead than the given bound. -/
def expressionWithin : Nat → Parse Expr
  | 0 => fail (.expected "expression")
  | bound + 1 => assignment (bound + 1) (expressionWithin bound)

/-- An expression. -/
def expression : Parse Expr := do
  expressionWithin (← remaining)

end Lox.Parse
