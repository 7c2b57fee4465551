import Lox.Tree

/-!
# Static scopes

The scopes around a place in a program, innermost first. The top level is not
among them: global names are looked up when the program runs. A name enters
its scope at its declaration; while its own initializer is read it is there
but not ready. The distance of a name is the number of scopes between the
place and the nearest scope that has it.
-/

namespace Lox

/-- The names of one scope, latest first, each with whether it is ready. -/
abbrev Scope := List (String × Bool)

namespace Scope

/-- Whether a scope has a name. -/
def has (scope : Scope) (text : String) : Bool := scope.any (·.1 == text)

/-- Whether a scope has a name whose initializer is still being read. -/
def isPending (scope : Scope) (text : String) : Bool := scope.lookup text == some false

/-- The scope once a name is declared; a name that is there already stays. -/
def declare (scope : Scope) (text : String) : Scope :=
  if scope.has text then scope else (text, false) :: scope

/-- The scope once a name is ready. -/
def define (scope : Scope) (text : String) : Scope := (text, true) :: scope

end Scope

/-- The kinds of body that a `return` may stand in. -/
inductive Body where
  /-- No function around. -/
  | topLevel
  /-- A function that is no method. -/
  | function
  /-- A method other than the initializer. -/
  | method
  /-- The method that sets up a new object. -/
  | initializer
  deriving DecidableEq, Repr

/-- The kinds of class that `this` and `super` may stand in. -/
inductive Enclosing where
  /-- No class around. -/
  | outside
  /-- A class without a superclass. -/
  | base
  /-- A class with a superclass. -/
  | derived
  deriving DecidableEq, Repr

/-- What is known about a place in a program. -/
structure Context where
  /-- The scopes around the place, innermost first. -/
  scopes : List Scope
  /-- The innermost function body around it. -/
  body : Body
  /-- The innermost class around it. -/
  enclosing : Enclosing
  deriving DecidableEq, Repr

namespace Context

/-- The top level of a program. -/
def top : Context := ⟨[], .topLevel, .outside⟩

/-- The same place inside one more scope. -/
def enter (context : Context) (scope : Scope) : Context :=
  { context with scopes := scope :: context.scopes }

/-- Changes the innermost scope; at the top level there is none. -/
def onInnermost (context : Context) (change : Scope → Scope) : Context :=
  match context.scopes with
  | [] => context
  | scope :: rest => { context with scopes := change scope :: rest }

/-- The place inside the initializer of a variable. -/
def declare (context : Context) (text : String) : Context :=
  context.onInnermost (·.declare text)

/-- The place once a name is ready. -/
def define (context : Context) (text : String) : Context :=
  context.onInnermost (·.define text)

/-- Whether the innermost scope has a name already. -/
def isTaken (context : Context) (text : String) : Bool :=
  match context.scopes with
  | [] => false
  | scope :: _ => scope.has text

/-- Whether the place is inside the initializer of a name of its own scope. -/
def isPending (context : Context) (text : String) : Bool :=
  match context.scopes with
  | [] => false
  | scope :: _ => scope.isPending text

/-- How many scopes out the nearest scope with a name is; `none` for a name
that no scope has. -/
def distance? (context : Context) (text : String) : Option Nat :=
  context.scopes.findIdx? (·.has text)

/-- The place after a statement. -/
def after (context : Context) : Stmt → Context
  | .varDecl name _ => context.define name.text
  | .funDecl function => context.define function.name.text
  | .classDecl name _ _ => context.define name.text
  | _ => context

end Context

end Lox
