import Lox.Machine

/-!
# Evaluation

Expressions and statements run on the machine. The recursion is on a number
that bounds how deep evaluation nests and how often a loop repeats; with a
larger number a run that ended still ends the same way. All that is not
recursive (operators, variables, properties, the set-up of calls and classes)
is defined first and on its own.

A variable with a distance is read and written in the frame that many steps
out; any other is a global, looked up by name.
-/

namespace Lox

/-- How a statement ends. -/
inductive Flow (ε : Type := Env) where
  /-- The next statement follows. -/
  | normal
  /-- The call in progress ends with a value. -/
  | returned (value : Value ε)

/-- Whether the first operand decides the answer of a logical operator. -/
def LogicalOp.isDecided {ε : Type} (op : LogicalOp) (left : Value ε) : Bool :=
  match op with
  | .or => left.isTruthy
  | .and => !left.isTruthy

namespace Eval

section Combinators

variable {σ ε : Type}

/-- Applies a unary operator. -/
def applyUnary (op : UnaryOp) (line : Nat) (operand : Value ε) : EStateM Halt σ (Value ε) :=
  match op, operand with
  | .not, value => return .bool !value.isTruthy
  | .negate, .number value => return .number (-value)
  | .negate, _ => fail line .operandNotNumber

/-- Applies an operator to two numbers. -/
def numeric (line : Nat) (left right : Value ε) (apply : Float → Float → Value ε) :
    EStateM Halt σ (Value ε) :=
  match left, right with
  | .number a, .number b => return apply a b
  | _, _ => fail line .operandsNotNumbers

/-- Adds two numbers or joins two strings. -/
def add (line : Nat) (left right : Value ε) : EStateM Halt σ (Value ε) :=
  match left, right with
  | .number a, .number b => return .number (a + b)
  | .string a, .string b => return .string (a ++ b)
  | _, _ => fail line .operandsNotAddable

/-- Applies a binary operator. -/
def applyBinary (op : BinaryOp) (line : Nat) (left right : Value ε) :
    EStateM Halt σ (Value ε) :=
  match op with
  | .add => add line left right
  | .subtract => numeric line left right fun a b => .number (a - b)
  | .multiply => numeric line left right fun a b => .number (a * b)
  | .divide => numeric line left right fun a b => .number (a / b)
  | .equal => return .bool (left.equals right)
  | .notEqual => return .bool !(left.equals right)
  | .greater => numeric line left right fun a b => .bool (a > b)
  | .greaterEqual => numeric line left right fun a b => .bool (a ≥ b)
  | .less => numeric line left right fun a b => .bool (a < b)
  | .lessEqual => numeric line left right fun a b => .bool (a ≤ b)

/-- The number of the object that a property is set on. -/
def expectObject (value : Value ε) (line : Nat) : EStateM Halt σ Nat :=
  match value with
  | .object id _ => return id
  | _ => fail line .notAnInstance

/-- Runs each statement of a list until one ends the call in progress. -/
def executeAll (execute : Stmt → EStateM Halt σ (Flow ε)) : List Stmt → EStateM Halt σ (Flow ε)
  | [] => return .normal
  | s :: rest => do
    match ← execute s with
    | .normal => executeAll execute rest
    | .returned value => return .returned value

/-- Evaluates expressions from left to right. -/
def evaluateAll (evaluate : Expr → EStateM Halt σ (Value ε)) :
    List Expr → EStateM Halt σ (List (Value ε))
  | [] => return []
  | e :: rest => do
    let value ← evaluate e
    return value :: (← evaluateAll evaluate rest)

/-- The value of an expression that may be missing. -/
def evaluateOption (evaluate : Expr → EStateM Halt σ (Value ε)) :
    Option Expr → EStateM Halt σ (Value ε)
  | none => return .nil
  | some e => evaluate e

/-- Repeats a body while a condition holds, at most `fuel` times. -/
def repeatWhile (condition : EStateM Halt σ (Value ε)) (body : EStateM Halt σ (Flow ε)) :
    Nat → EStateM Halt σ (Flow ε)
  | 0 => throw .exhausted
  | fuel + 1 => do
    if (← condition).isTruthy then
      match ← body with
      | .normal => repeatWhile condition body fuel
      | .returned value => return .returned value
    else
      return .normal

end Combinators

/-- The value of a reference. -/
def readRef (ref : Ref) : Eval Value := do
  let machine ← get
  match machine.distances[ref.id]? with
  | some distance => orFault (machine.store.getAt machine.env distance ref.name.text)
  | none => orFail (machine.store.read globalEnv ref.name)

/-- Assigns to a reference. -/
def writeRef (ref : Ref) (value : Value) : Eval Unit := do
  let machine ← get
  match machine.distances[ref.id]? with
  | some distance =>
    let (frame, _) ← orFault (machine.store.frameAt machine.env distance ref.name.text)
    modifyStore (·.bindIn frame ref.name.text value)
  | none =>
    match machine.store.holder? globalEnv ref.name.text with
    | some frame => modifyStore (·.bindIn frame ref.name.text value)
    | none => fail ref.name.line (.undefinedVariable ref.name.text)

/-- A function value over a closure. -/
def newFunction (closure : Closure) : Eval Value := do
  return .function (← onStore (·.freshId)) closure

/-- A method with `this` bound to an object in a frame of its own. -/
def bindMethod (method : Closure) (object : Value) : Eval Closure := do
  let env ← newFrame method.env [("this", object)]
  return { method with env := env }

/-- A property of a value: a field of an object, or else a method of its class
bound to it. -/
def getProperty (object : Value) (name : Name) : Eval Value := do
  match object with
  | .object id cls =>
    match (← get).store.field? id name.text with
    | some value => return value
    | none =>
      match cls.findMethod? name.text with
      | some method => newFunction (← bindMethod method object)
      | none => fail name.line (.undefinedProperty name.text)
  | _ => fail name.line .notAnInstance

/-- The object in the frame just inside the one a number of steps out. -/
def objectInside (machine : Machine) : Nat → Except Fault Value
  | 0 => .error .superInnermost
  | distance + 1 => machine.store.getAt machine.env distance "this"

/-- A method of the class that `super` stands for, bound to the current object,
which is found in the frame just inside the one with `super`. -/
def superMethod (id : Nat) (method : Name) : Eval Value := do
  let machine ← get
  match machine.distances[id]? with
  | none => throw (.fault (.unresolvedSuper method.line))
  | some distance =>
    let superclass ← orFault (machine.store.getAt machine.env distance "super")
    let object ← orFault (objectInside machine distance)
    match superclass with
    | .cls cls =>
      match cls.findMethod? method.text with
      | some found => newFunction (← bindMethod found object)
      | none => fail method.line (.undefinedProperty method.text)
    | _ => throw (.fault .superNotClass)

/-- Runs the body of a function in a new frame with its parameters. An
initializer yields its object whichever way its body ends. -/
def invoke (execute : Stmt → Eval Flow) (closure : Closure) (arguments : List Value) :
    Eval Value := do
  let bound := (closure.decl.params.map (·.text)).zip arguments
  let env ← newFrame closure.env (Bindings.insertAll [] bound)
  let flow ← inEnv env (executeAll execute closure.decl.body)
  if closure.isInitializer then
    orFault ((← get).store.getAt closure.env 0 "this")
  else
    match flow with
    | .normal => return .nil
    | .returned value => return value

/-- Creates an object and sets it up. -/
def construct (execute : Stmt → Eval Flow) (cls : Class) (arguments : List Value) :
    Eval Value := do
  let object := Value.object (← onStore (·.newObject)) cls
  match cls.initializer? with
  | none => return object
  | some method =>
    let _ ← invoke execute (← bindMethod method object) arguments
    return object

/-- Runs what a callable stands for. -/
def apply (execute : Stmt → Eval Flow) (callable : Callable) (arguments : List Value) :
    Eval Value :=
  match callable with
  | .native .clock => return .number (← readClock)
  | .function closure => invoke execute closure arguments
  | .cls cls => construct execute cls arguments

/-- Calls a value. That it can be called, the number of its arguments and the
number of calls in progress are checked in this order. -/
def callValue (execute : Stmt → Eval Flow) (callee : Value) (arguments : List Value)
    (line : Nat) : Eval Value := do
  match callee.callable? with
  | none => fail line .notCallable
  | some callable =>
    if arguments.length ≠ callable.arity then
      fail line (.argumentCount callable.arity arguments.length)
    else if Machine.maxCalls ≤ (← get).calls then
      fail line .stackOverflow
    else
      asCall (apply execute callable arguments)

/-- The value of a superclass, which has to be a class. -/
def readSuperclass : Option Ref → Eval (Option Class)
  | none => return none
  | some ref => do
    match ← readRef ref with
    | .cls cls => return some cls
    | _ => fail ref.name.line .superclassNotClass

/-- The environment of the methods of a class: with a superclass, a frame that
binds `super`. -/
def methodEnv (env : Env) : Option Class → Eval Env
  | none => return env
  | some superclass => newFrame env [("super", .cls superclass)]

/-- The methods of a class as closures, latest first. -/
def closeMethods (env : Env) (methods : List FunDecl) : List Closure :=
  (methods.map fun method =>
    { decl := method, env := env, isInitializer := method.name.text == initializerName }).reverse

/-- Declares a class. Its name is bound first, to nothing yet, and to the class
once the class is there. -/
def declareClass (name : Name) (superclass : Option Ref) (methods : List FunDecl) :
    Eval Unit := do
  define name.text .nil
  let parent ← readSuperclass superclass
  let env ← methodEnv (← get).env parent
  let id ← onStore (·.freshId)
  define name.text (.cls ⟨id, name.text, parent, closeMethods env methods⟩)

mutual

/-- Evaluates an expression. -/
def evaluate : Nat → Expr → Eval Value
  | 0, _ => throw .exhausted
  | fuel + 1, e =>
    match e with
    | .literal literal => return literal.value
    | .group inner => evaluate fuel inner
    | .unary op line operand => do
      applyUnary op line (← evaluate fuel operand)
    | .binary op line left right => do
      let a ← evaluate fuel left
      let b ← evaluate fuel right
      applyBinary op line a b
    | .logical op _ left right => do
      let a ← evaluate fuel left
      if op.isDecided a then return a else evaluate fuel right
    | .var ref => readRef ref
    | .assign ref value => do
      let v ← evaluate fuel value
      writeRef ref v
      return v
    | .call callee arguments line => do
      let function ← evaluate fuel callee
      let values ← evaluateAll (evaluate fuel) arguments
      callValue (execute fuel) function values line
    | .get object name => do
      getProperty (← evaluate fuel object) name
    | .set object name value => do
      let id ← expectObject (← evaluate fuel object) name.line
      let v ← evaluate fuel value
      modifyStore (·.setField id name.text v)
      return v
    | .this id line => readRef ⟨id, thisName line⟩
    | .super id _ method => superMethod id method

/-- Executes a statement. -/
def execute : Nat → Stmt → Eval Flow
  | 0, _ => throw .exhausted
  | fuel + 1, s =>
    match s with
    | .expression e => do
      let _ ← evaluate fuel e
      return .normal
    | .print e => do
      let value ← evaluate fuel e
      write e.line value.display
      write e.line "\n"
      return .normal
    | .varDecl name initializer => do
      define name.text (← evaluateOption (evaluate fuel) initializer)
      return .normal
    | .block body => do
      let env ← newFrame (← get).env []
      inEnv env (executeAll (execute fuel) body)
    | .branch condition yes no => do
      if (← evaluate fuel condition).isTruthy then execute fuel yes
      else
        match no with
        | none => return .normal
        | some other => execute fuel other
    | .loop condition body => repeatWhile (evaluate fuel condition) (execute fuel body) fuel
    | .funDecl function => do
      define function.name.text (← newFunction ⟨function, (← get).env, false⟩)
      return .normal
    | .result _ value => do
      return .returned (← evaluateOption (evaluate fuel) value)
    | .classDecl name superclass methods => do
      declareClass name superclass methods
      return .normal

end

end Eval

end Lox
