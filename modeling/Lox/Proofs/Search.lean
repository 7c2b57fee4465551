import Lox.Session

/-!
# Evaluation by search

A third way to run a program: on the same machine, but without distances. A
variable, an assignment and `this` look for their name from frame to frame,
starting with the innermost one, and `super` takes the nearest `super` and the
nearest `this`. All else is as it is with distances: a frame for each block,
call, object and superclass, and the same operators, calls and classes.

A search finds what is in the frames when it is made, so it may find a name that
was declared after the place that it is made for.
-/

namespace Lox

namespace Search

open Eval

/-- The value of a name in the nearest frame that has it. -/
def readName (name : Name) : Eval Value := do
  let machine ← get
  orFail (machine.store.read machine.env name)

/-- Assigns to a name in the nearest frame that has it. -/
def writeName (name : Name) (value : Value) : Eval Unit := do
  let machine ← get
  let store ← orFail (machine.store.write machine.env name value)
  modifyStore fun _ => store

/-- A method of the class that the nearest `super` stands for, bound to the
nearest `this`. -/
def superMethod (line : Nat) (method : Name) : Eval Value := do
  let superclass ← readName (superName line)
  let object ← readName (thisName line)
  match superclass with
  | .cls cls =>
    match cls.findMethod? method.text with
    | some found => newFunction (← bindMethod found object)
    | none => fail method.line (.undefinedProperty method.text)
  | _ => throw (.fault .superNotClass)

/-- The value of a superclass, which has to be a class. -/
def readSuperclass : Option Ref → Eval (Option Class)
  | none => return none
  | some ref => do
    match ← readName ref.name with
    | .cls cls => return some cls
    | _ => fail ref.name.line .superclassNotClass

/-- Declares a class. -/
def declareClass (name : Name) (superclass : Option Ref) (methods : List FunDecl) :
    Eval Unit := do
  define name.text .nil
  let parent ← readSuperclass superclass
  let env ← methodEnv (← get).env parent
  let id ← onStore (·.freshId)
  define name.text (.cls ⟨id, name.text, parent, closeMethods env methods⟩)

mutual

/-- Evaluates an expression. -/
def evaluate : Nat → Expr → Eval Value
  | 0, _ => throw .exhausted
  | fuel + 1, e =>
    match e with
    | .literal literal => return literal.value
    | .group inner => evaluate fuel inner
    | .unary op line operand => do
      applyUnary op line (← evaluate fuel operand)
    | .binary op line left right => do
      let a ← evaluate fuel left
      let b ← evaluate fuel right
      applyBinary op line a b
    | .logical op _ left right => do
      let a ← evaluate fuel left
      if op.isDecided a then return a else evaluate fuel right
    | .var ref => readName ref.name
    | .assign ref value => do
      let v ← evaluate fuel value
      writeName ref.name v
      return v
    | .call callee arguments line => do
      let function ← evaluate fuel callee
      let values ← evaluateAll (evaluate fuel) arguments
      callValue (execute fuel) function values line
    | .get object name => do
      getProperty (← evaluate fuel object) name
    | .set object name value => do
      let id ← expectObject (← evaluate fuel object) name.line
      let v ← evaluate fuel value
      modifyStore (·.setField id name.text v)
      return v
    | .this _ line => readName (thisName line)
    | .super _ line method => superMethod line method

/-- Executes a statement. -/
def execute : Nat → Stmt → Eval Flow
  | 0, _ => throw .exhausted
  | fuel + 1, s =>
    match s with
    | .expression e => do
      let _ ← evaluate fuel e
      return .normal
    | .print e => do
      let value ← evaluate fuel e
      write e.line value.display
      write e.line "\n"
      return .normal
    | .varDecl name initializer => do
      define name.text (← evaluateOption (evaluate fuel) initializer)
      return .normal
    | .block body => do
      let env ← newFrame (← get).env []
      inEnv env (executeAll (execute fuel) body)
    | .branch condition yes no => do
      if (← evaluate fuel condition).isTruthy then execute fuel yes
      else
        match no with
        | none => return .normal
        | some other => execute fuel other
    | .loop condition body => repeatWhile (evaluate fuel condition) (execute fuel body) fuel
    | .funDecl function => do
      define function.name.text (← newFunction ⟨function, (← get).env, false⟩)
      return .normal
    | .result _ value => do
      return .returned (← evaluateOption (evaluate fuel) value)
    | .classDecl name superclass methods => do
      declareClass name superclass methods
      return .normal

end

/-- Executes the statements of a program. -/
def executeProgram (fuel : Nat) : List Stmt → Eval Unit
  | [] => return ()
  | s :: rest => do
    let _ ← execute fuel s
    executeProgram fuel rest

end Search

namespace Session

/-- Executes by search a program that was read and resolved. -/
def executeBySearch (fuel : Nat) (statements : List Stmt) : Step Unit := fun session =>
  match Search.executeProgram fuel statements session.machine with
  | .ok () machine => .ok () { session with machine := machine }
  | .error (.error error) machine =>
    .ok () ({ session with machine := machine }.report (.runtime error))
  | .error (.fault fault) machine => .error (.fault fault) { session with machine := machine }
  | .error .exhausted machine => .error .exhausted { session with machine := machine }

/-- Runs a source by search. Static errors are found and keep it from being
executed as in any other run; the distances are recorded and never used. -/
def runBySearch (fuel : Nat) (source : String) : Step Unit := fun session =>
  let (statements, session) := session.read source
  if session.hadError then .ok () session
  else
    let session := session.resolve statements
    if session.hadError then .ok () session
    else executeBySearch fuel statements session

end Session

end Lox
