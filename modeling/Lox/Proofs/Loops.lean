import Lox.Grammar.Statement
import Lox.Proofs.Lexical

/-!
# Loops run by their clauses

A third way to run a program by lexical scope: a `for` statement is not the loop
that its tree stands for but a statement of its own, with a first clause, a
condition, an increment and a body. The first clause runs once, in a scope of
the loop that all of its parts see and that all iterations share. The condition
is tested before each iteration, and one that is absent holds. The increment
follows each iteration whose body ends normally; a body that returns or fails
leaves the loop at once.

Which trees are `for` statements, and with which clauses, cannot always be told
from a tree: a `while` loop may have the tree of a `for` statement. So it is a
parameter, and nothing is asked of it but that the clauses have the tree that
they are found for.
-/

namespace Lox

/-- Whether a statement adds no name to the scope that it stands in. -/
def Stmt.isStatement : Stmt → Bool
  | .expression _ => true
  | .print _ => true
  | .varDecl _ _ => false
  | .block _ => true
  | .branch _ yes none => yes.isStatement
  | .branch _ yes (some no) => yes.isStatement && no.isStatement
  | .loop _ body => body.isStatement
  | .funDecl _ => false
  | .result _ _ => true
  | .classDecl _ _ _ => false

/-- The loop of a `for` statement is no declaration, since its body is none. -/
theorem Parse.isStatement_forLoop (first : Option Stmt) (condition increment : Option Expr)
    {body : Stmt} (h : body.isStatement) :
    (Parse.forLoop first condition increment body).isStatement := by
  cases first with
  | none =>
    cases increment with
    | none => exact h
    | some e => rfl
  | some s => rfl

/-- The first clause of a `for` statement. -/
inductive FirstClause where
  /-- There is no first clause. -/
  | absent
  /-- A variable is declared. -/
  | varDecl (name : Name) (value : Option Expr)
  /-- An expression is evaluated. -/
  | expression (e : Expr)

/-- The statement that a first clause is, unless it is absent. -/
def FirstClause.stmt? : FirstClause → Option Stmt
  | .absent => none
  | .varDecl name value => some (.varDecl name value)
  | .expression e => some (.expression e)

/-- A `for` statement. Its body is no declaration. -/
structure ForStatement where
  /-- What runs once before the loop. -/
  first : FirstClause
  /-- What is tested before each iteration; without it the loop goes on. -/
  condition : Option Expr
  /-- What is evaluated behind each iteration. -/
  increment : Option Expr
  /-- What is iterated. -/
  body : Stmt
  /-- The body adds no name to the scope of the loop. -/
  isStatement_body : body.isStatement

/-- The tree that a `for` statement is read as. -/
def ForStatement.tree (f : ForStatement) : Stmt :=
  Parse.forLoop f.first.stmt? f.condition f.increment f.body

/-- Which trees are `for` statements, and with which clauses. -/
structure LoopReading where
  find? : Stmt → Option ForStatement
  /-- The clauses that are found for a tree have that tree. -/
  tree_eq : ∀ {s f}, find? s = some f → f.tree = s

namespace LoopReading

/-- The clauses of a loop after a first clause: a block that ends with an
expression is a body with its increment. -/
def ofLoop? (first : FirstClause) (condition : Option Expr) : Stmt → Option ForStatement
  | .block [body, .expression e] =>
    if h : body.isStatement then some ⟨first, condition, some e, body, h⟩
    else some ⟨first, condition, none, .block [body, .expression e], rfl⟩
  | body => if h : body.isStatement then some ⟨first, condition, none, body, h⟩ else none

/-- The condition of a loop, unless it is the one that stands for none. -/
def condition? : Expr → Option Expr
  | .literal (.bool true) => none
  | e => some e

/-- The clauses of a tree that a `for` statement may have been read as. -/
def ofTree? : Stmt → Option ForStatement
  | .loop e body => ofLoop? .absent (condition? e) body
  | .block [.varDecl name value, .loop e body] =>
    ofLoop? (.varDecl name value) (condition? e) body
  | .block [.expression first, .loop e body] => ofLoop? (.expression first) (condition? e) body
  | _ => none

/-- A condition that stands for none is the condition of a loop without one. -/
theorem forLoop_condition? (first : Option Stmt) (e : Expr) (increment : Option Expr)
    (body : Stmt) : Parse.forLoop first (condition? e) increment body =
      Parse.forLoop first (some e) increment body := by
  have h : (condition? e).getD (.literal (.bool true)) = e := by
    unfold condition?
    split <;> rfl
  simp only [Parse.forLoop, h, Option.getD_some]

/-- The clauses that are found for a body have the tree of a loop with this body and with
no other increment. -/
theorem tree_of_ofLoop? {first : FirstClause} {condition : Option Expr} {body : Stmt}
    {f : ForStatement} (h : ofLoop? first condition body = some f) :
    f.tree = Parse.forLoop first.stmt? condition none body := by
  unfold ofLoop? at h
  split at h
  · split at h <;> cases h <;> rfl
  · split at h <;> cases h
    rfl

/-- Every tree that a `for` statement may have been read as is one. -/
def widest : LoopReading where
  find? := ofTree?
  tree_eq {s f} h := by
    unfold ofTree? at h
    split at h
    case h_4 => cases h
    all_goals
      rw [tree_of_ofLoop? h, forLoop_condition?]
      rfl

/-- A loop has clauses of a `for` statement whenever its body is no declaration. -/
theorem isSome_ofLoop? (first : FirstClause) (condition : Option Expr) {body : Stmt}
    (h : body.isStatement) : (ofLoop? first condition body).isSome := by
  unfold ofLoop?
  split
  · split <;> rfl
  · rw [dif_pos h]
    rfl

/-- The tree of a `for` statement is found, whichever of its clauses are there. -/
theorem isSome_widest_tree (f : ForStatement) : (widest.find? f.tree).isSome := by
  unfold ForStatement.tree Parse.forLoop
  cases f.increment with
  | none =>
    cases f.first with
    | _ => exact isSome_ofLoop? _ _ f.isStatement_body
  | some e =>
    have hblock : (Stmt.block [f.body, .expression e]).isStatement := rfl
    cases f.first with
    | _ => exact isSome_ofLoop? _ _ hblock

end LoopReading

namespace Loops

open Lexical

section Steps

variable (evaluate : Locals → Expr → Lexical (Value Locals))
  (execute : Locals → Stmt → Lexical Outcome)

/-! ### One `for` statement -/

/-- Runs the first clause in the scope of the loop, and yields the map that the
other clauses and the body see. -/
def enter (scope : Locals) : FirstClause → Lexical Locals
  | .absent => return scope
  | .varDecl name value => do
    declare scope name.text (← Eval.evaluateOption (evaluate scope) value)
  | .expression e => do
    let _ ← evaluate scope e
    return scope

/-- Tests the condition; one that is absent holds. -/
def holds (scope : Locals) : Option Expr → Lexical Bool
  | none => return true
  | some e => return (← evaluate scope e).isTruthy

/-- Evaluates the increment. -/
def increase (scope : Locals) : Option Expr → Lexical Unit
  | none => return ()
  | some e => do
    let _ ← evaluate scope e

/-- Iterates, at most `fuel` times. -/
def iterate (scope : Locals) (f : ForStatement) : Nat → Lexical Outcome
  | 0 => throw .exhausted
  | fuel + 1 => do
    if ← holds evaluate scope f.condition then
      match ← execute scope f.body with
      | .next _ =>
        increase evaluate scope f.increment
        iterate scope f fuel
      | .returned value => return .returned value
    else
      return .next scope

/-- Executes a `for` statement. -/
def executeFor (fuel : Nat) (locals : Locals) (f : ForStatement) : Lexical Outcome := do
  let scope ← enter evaluate (some (locals.getD [])) f.first
  return (← iterate evaluate execute scope f fuel).outside locals

/-! ### All else -/

/-- Evaluates an expression, given how its parts are evaluated and how the
bodies of functions are executed. -/
def evaluateWith (locals : Locals) : Expr → Lexical (Value Locals)
  | .literal literal => return literal.value
  | .group inner => evaluate locals inner
  | .unary op line operand => do
    Eval.applyUnary op line (← evaluate locals operand)
  | .binary op line left right => do
    let a ← evaluate locals left
    let b ← evaluate locals right
    Eval.applyBinary op line a b
  | .logical op _ left right => do
    let a ← evaluate locals left
    if op.isDecided a then return a else evaluate locals right
  | .var ref => readName locals ref.name
  | .assign ref value => do
    let v ← evaluate locals value
    writeName locals ref.name v
    return v
  | .call callee arguments line => do
    let function ← evaluate locals callee
    let values ← Eval.evaluateAll (evaluate locals) arguments
    callValue execute function values line
  | .get object name => do
    getProperty (← evaluate locals object) name
  | .set object name value => do
    let id ← Eval.expectObject (← evaluate locals object) name.line
    let v ← evaluate locals value
    setField id name.text v
    return v
  | .this _ line => readName locals (thisName line)
  | .super _ line method => superMethod locals line method

/-- Executes a statement that is no `for` statement, given how its parts are
evaluated and executed. -/
def executeWith (fuel : Nat) (locals : Locals) : Stmt → Lexical Outcome
  | .expression e => do
    let _ ← evaluate locals e
    return .next locals
  | .print e => do
    let value ← evaluate locals e
    write e.line value.display
    write e.line "\n"
    return .next locals
  | .varDecl name initializer => do
    let value ← Eval.evaluateOption (evaluate locals) initializer
    return .next (← declare locals name.text value)
  | .block body => do
    let outcome ← executeAll execute (some (locals.getD [])) body
    return outcome.outside locals
  | .branch condition yes no => do
    if (← evaluate locals condition).isTruthy then execute locals yes
    else
      match no with
      | none => return .next locals
      | some other => execute locals other
  | .loop condition body =>
    repeatWhile (fun locals => evaluate locals condition) (fun locals => execute locals body)
      fuel locals
  | .funDecl function => do
    let after ← introduce locals function.name.text
    define after function.name.text (← newFunction ⟨function, after, false⟩)
    return .next after
  | .result _ value => do
    return .returned (← Eval.evaluateOption (evaluate locals) value)
  | .classDecl name superclass methods => do
    return .next (← declareClass locals name superclass methods)

end Steps

variable (reading : LoopReading)

mutual

/-- Evaluates an expression at a place with the given map. -/
def evaluate : Nat → Locals → Expr → Lexical (Value Locals)
  | 0, _, _ => throw .exhausted
  | fuel + 1, locals, e => evaluateWith (evaluate fuel) (execute fuel) locals e

/-- Executes a statement at a place with the given map. -/
def execute : Nat → Locals → Stmt → Lexical Outcome
  | 0, _, _ => throw .exhausted
  | fuel + 1, locals, s =>
    match reading.find? s with
    | some f => executeFor (evaluate fuel) (execute fuel) fuel locals f
    | none => executeWith (evaluate fuel) (execute fuel) fuel locals s

end

/-- Executes the statements of a program, which are all on the top level. -/
def executeProgram (fuel : Nat) : List Stmt → Lexical Unit
  | [] => return ()
  | s :: rest => do
    let _ ← execute reading fuel none s
    executeProgram fuel rest

end Loops

end Lox
