import Lox.Token

/-!
# Syntax trees

Expressions and statements as the parser builds them. Operators are
constructors of their own types, so a tree holds no operator that evaluation
does not know. Every occurrence of a name that needs a binding carries a
number of its own, its identity: reads, assignments, `this`, `super` and the
name of a superclass. Loops have one form; the `for` statement has no node.
-/

namespace Lox

/-- A word of the source with the line it stands on. -/
structure Name where
  /-- The word. -/
  text : String
  /-- The line it stands on. -/
  line : Nat
  deriving DecidableEq, Repr

/-- A name that a binding has to be found for. -/
structure Ref where
  /-- The identity of this occurrence. -/
  id : Nat
  /-- The name that occurs. -/
  name : Name
  deriving DecidableEq, Repr

/-- Values that a program writes down. -/
inductive Literal where
  | nil
  | bool (value : Bool)
  | number (value : Float)
  | string (value : String)
  deriving DecidableEq

/-- Operators before one operand. -/
inductive UnaryOp where
  | negate
  | not
  deriving DecidableEq, Repr

/-- Operators whose two operands are both evaluated. -/
inductive BinaryOp where
  | add
  | subtract
  | multiply
  | divide
  | equal
  | notEqual
  | greater
  | greaterEqual
  | less
  | lessEqual
  deriving DecidableEq, Repr

/-- Operators whose second operand is evaluated only if the first leaves the
answer open. -/
inductive LogicalOp where
  | and
  | or
  deriving DecidableEq, Repr

/-- Expressions. The line of an operator, a call or a keyword is kept for
error messages. -/
inductive Expr where
  /-- A value written down. -/
  | literal (value : Literal)
  /-- An expression in parentheses. -/
  | group (inner : Expr)
  /-- An operator and its operand. -/
  | unary (op : UnaryOp) (line : Nat) (operand : Expr)
  /-- An operator between two operands. -/
  | binary (op : BinaryOp) (line : Nat) (left right : Expr)
  /-- A short-circuiting operator between two operands. -/
  | logical (op : LogicalOp) (line : Nat) (left right : Expr)
  /-- The value of a variable. -/
  | var (ref : Ref)
  /-- An assignment to a variable. -/
  | assign (ref : Ref) (value : Expr)
  /-- A call; the line is that of the closing parenthesis. -/
  | call (callee : Expr) (arguments : List Expr) (line : Nat)
  /-- A property of an object. -/
  | get (object : Expr) (name : Name)
  /-- An assignment to a property of an object. -/
  | set (object : Expr) (name : Name) (value : Expr)
  /-- The object that a method was called on. -/
  | this (id : Nat) (line : Nat)
  /-- A method of the superclass, bound to the current object. -/
  | super (id : Nat) (line : Nat) (method : Name)

mutual

/-- Statements and declarations. -/
inductive Stmt where
  /-- An expression evaluated for its effects. -/
  | expression (e : Expr)
  /-- The output of a value. -/
  | print (e : Expr)
  /-- A variable, with the value it starts from. -/
  | varDecl (name : Name) (initializer : Option Expr)
  /-- Statements with a scope of their own. -/
  | block (body : List Stmt)
  /-- A choice between two statements, the second of which may be missing. -/
  | branch (condition : Expr) (yes : Stmt) (no : Option Stmt)
  /-- A statement repeated while a condition holds. -/
  | loop (condition : Expr) (body : Stmt)
  /-- A named function. -/
  | funDecl (function : FunDecl)
  /-- The end of a call, with the value it yields. -/
  | result (line : Nat) (value : Option Expr)
  /-- A class with its superclass and its methods. -/
  | classDecl (name : Name) (superclass : Option Ref) (methods : List FunDecl)

/-- A function or method as it is declared. -/
structure FunDecl where
  /-- Its name. -/
  name : Name
  /-- The names of its parameters, in order. -/
  params : List Name
  /-- The statements of its body. -/
  body : List Stmt

end

/-- The name of the method that sets up a new object. -/
def initializerName : String := "init"

/-- The word `this` on a line. -/
def thisName (line : Nat) : Name := ⟨Symbol.thisWord.spelling, line⟩

/-- The word `super` on a line. -/
def superName (line : Nat) : Name := ⟨Symbol.superWord.spelling, line⟩

/-- The line of the word or sign that best identifies an expression; a literal
has none, and its line is zero. -/
def Expr.line : Expr → Nat
  | .literal _ => 0
  | .group inner => inner.line
  | .unary _ line _ => line
  | .binary _ line _ _ => line
  | .logical _ line _ _ => line
  | .var ref => ref.name.line
  | .assign ref _ => ref.name.line
  | .call _ _ line => line
  | .get _ name => name.line
  | .set _ name _ => name.line
  | .this _ line => line
  | .super _ line _ => line

end Lox
