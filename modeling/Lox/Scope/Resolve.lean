import Lox.Scope

/-!
# Binding distances and static errors

One walk over a program finds the distance of every reference and every error
that can be told without running it. References to global names get no
distance. The walk goes on after an error, and distances are found in faulty
programs too. Findings come in the order of the walk, which follows the order
of evaluation except that the value of a property assignment comes before its
object.
-/

namespace Lox

/-- What is wrong about the use of a name or of a `return`. -/
inductive ScopeCause where
  | duplicateDeclaration
  | selfReferentialInitializer
  | returnOutsideFunction
  | returnValueFromInitializer
  | selfInheritance
  | thisOutsideClass
  | superOutsideClass
  | superWithoutSuperclass
  deriving DecidableEq, Repr

/-- The wording of a scope error. -/
def ScopeCause.message : ScopeCause → String
  | .duplicateDeclaration => "Already a variable with this name in this scope."
  | .selfReferentialInitializer => "Can't read local variable in its own initializer."
  | .returnOutsideFunction => "Can't return from top-level code."
  | .returnValueFromInitializer => "Can't return a value from an initializer."
  | .selfInheritance => "A class can't inherit from itself."
  | .thisOutsideClass => "Can't use 'this' outside of a class."
  | .superOutsideClass => "Can't use 'super' outside of a class."
  | .superWithoutSuperclass => "Can't use 'super' in a class with no superclass."

/-- A scope error and the word it is reported at. -/
structure ScopeError where
  /-- The word at which the error is reported. -/
  place : Name
  /-- What is wrong there. -/
  cause : ScopeCause
  deriving DecidableEq, Repr

/-- What the walk finds, in its order. -/
structure Findings where
  /-- Identities of references with their distances. -/
  distances : List (Nat × Nat)
  /-- The errors. -/
  errors : List ScopeError
  deriving DecidableEq, Repr

namespace Findings

/-- Nothing found. -/
def none : Findings := ⟨[], []⟩

/-- The findings of one part of the walk and then of another. -/
def append (first second : Findings) : Findings :=
  ⟨first.distances ++ second.distances, first.errors ++ second.errors⟩

/-- Findings one after another. -/
instance : Append Findings := ⟨append⟩

/-- An error if a condition holds. -/
def errorIf (condition : Bool) (place : Name) (cause : ScopeCause) : Findings :=
  if condition then ⟨[], [⟨place, cause⟩]⟩ else none

end Findings

namespace Context

/-- The distance of a reference, if a scope has its name. -/
def locate (context : Context) (ref : Ref) : Findings :=
  match context.distance? ref.name.text with
  | some distance => ⟨[(ref.id, distance)], []⟩
  | none => .none

/-- The findings of reading a variable. -/
def read (context : Context) (ref : Ref) : Findings :=
  .errorIf (context.isPending ref.name.text) ref.name .selfReferentialInitializer
    ++ context.locate ref

/-- The findings of declaring a name. -/
def introduce (context : Context) (name : Name) : Findings :=
  .errorIf (context.isTaken name.text) name .duplicateDeclaration

/-- The findings of `this`; outside of a class it gets no distance. -/
def readThis (context : Context) (id line : Nat) : Findings :=
  match context.enclosing with
  | .outside => .errorIf true (thisName line) .thisOutsideClass
  | _ => context.locate ⟨id, thisName line⟩

/-- The findings of `super`. -/
def readSuper (context : Context) (id line : Nat) : Findings :=
  .errorIf (context.enclosing = .outside) (superName line) .superOutsideClass
    ++ .errorIf (context.enclosing = .base) (superName line) .superWithoutSuperclass
    ++ context.locate ⟨id, superName line⟩

/-- The findings of a `return` without its value. -/
def returned (context : Context) (line : Nat) (hasValue : Bool) : Findings :=
  let keyword : Name := ⟨Symbol.returnWord.spelling, line⟩
  .errorIf (context.body = .topLevel) keyword .returnOutsideFunction
    ++ .errorIf (context.body = .initializer && hasValue) keyword .returnValueFromInitializer

/-- The findings of parameters, declared one after the other. -/
def parameters (context : Context) : List Name → Findings
  | [] => .none
  | name :: rest => context.introduce name ++ (context.define name.text).parameters rest

/-- The place at the start of a function body: one scope with the parameters. -/
def inFunction (context : Context) (body : Body) (params : List Name) : Context :=
  { context.enter (params.foldl (fun scope name => scope.define name.text) []) with body := body }

/-- The place of the methods of a class: a scope with `super`, if there is a
superclass, and inside it a scope with `this`. -/
def inClass (context : Context) (hasSuperclass : Bool) : Context :=
  let outer := if hasSuperclass then context.enter [("super", true)] else context
  { outer.enter [("this", true)] with
    enclosing := if hasSuperclass then .derived else .base }

/-- The findings of the name of a superclass. -/
def superclass (context : Context) (className : Name) : Option Ref → Findings
  | none => .none
  | some ref =>
    .errorIf (ref.name.text == className.text) ref.name .selfInheritance ++ context.read ref

end Context

/-- The kind of body that a method of the given name has. -/
def Body.ofMethod (text : String) : Body :=
  if text == initializerName then .initializer else .method

mutual

/-- The findings of an expression. -/
def Expr.resolve (context : Context) : Expr → Findings
  | .literal _ => .none
  | .group inner => inner.resolve context
  | .unary _ _ operand => operand.resolve context
  | .binary _ _ left right => left.resolve context ++ right.resolve context
  | .logical _ _ left right => left.resolve context ++ right.resolve context
  | .var ref => context.read ref
  | .assign ref value => value.resolve context ++ context.locate ref
  | .call callee arguments _ => callee.resolve context ++ Expr.resolveList context arguments
  | .get object _ => object.resolve context
  | .set object _ value => value.resolve context ++ object.resolve context
  | .this id line => context.readThis id line
  | .super id line _ => context.readSuper id line

/-- The findings of several expressions. -/
def Expr.resolveList (context : Context) : List Expr → Findings
  | [] => .none
  | e :: rest => e.resolve context ++ Expr.resolveList context rest

end

/-- The findings of an expression that may be missing. -/
def resolveOption (context : Context) : Option Expr → Findings
  | none => .none
  | some e => e.resolve context

mutual

/-- The findings of a statement. -/
def Stmt.resolve (context : Context) : Stmt → Findings
  | .expression e => e.resolve context
  | .print e => e.resolve context
  | .varDecl name initializer =>
    context.introduce name ++ resolveOption (context.declare name.text) initializer
  | .block body => Stmt.resolveList (context.enter []) body
  | .branch condition yes none => condition.resolve context ++ yes.resolve context
  | .branch condition yes (some no) =>
    condition.resolve context ++ yes.resolve context ++ no.resolve context
  | .loop condition body => condition.resolve context ++ body.resolve context
  | .funDecl function =>
    context.introduce function.name ++
      FunDecl.resolve (context.define function.name.text) .function function
  | .result line value => context.returned line value.isSome ++ resolveOption context value
  | .classDecl name superclass methods =>
    let inside := context.define name.text
    context.introduce name ++ inside.superclass name superclass ++
      FunDecl.resolveList (inside.inClass superclass.isSome) methods

/-- The findings of statements in one scope, each seeing the names declared
before it. -/
def Stmt.resolveList (context : Context) : List Stmt → Findings
  | [] => .none
  | s :: rest => s.resolve context ++ Stmt.resolveList (context.after s) rest

/-- The findings of a function: its parameters and its body share one scope. -/
def FunDecl.resolve (context : Context) (body : Body) : FunDecl → Findings
  | ⟨_, params, statements⟩ =>
    (context.enter []).parameters params ++
      Stmt.resolveList (context.inFunction body params) statements

/-- The findings of the methods of a class. -/
def FunDecl.resolveList (context : Context) : List FunDecl → Findings
  | [] => .none
  | method :: rest =>
    FunDecl.resolve context (Body.ofMethod method.name.text) method ++
      FunDecl.resolveList context rest

end

/-- The findings of a whole program. -/
def resolveProgram (program : List Stmt) : Findings := Stmt.resolveList .top program

end Lox
