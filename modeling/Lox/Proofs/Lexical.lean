import Lox.Evaluation

/-!
# Evaluation by lexical scope

A second way to run a program, without frames and distances. What a name means
at a place is said by a map from names to cells, which is never changed, only
extended for what follows: a variable extends the map of the statements after
it, a function and a class extend the map that their own bodies close over, and
a call extends the map of its closure with the parameters. A name that is not
in the map is global, and globals are kept in one table by name.

Objects, identities, output and the clock are as on the other machine, and so
are the operators. Faults do not arise from names here: there is no distance
that could disagree with a program.
-/

namespace Lox

/-- The cells of the names at a place, nearest first; `none` on the top level,
where declarations are global. -/
abbrev Locals := Option (List (String × Nat))

/-- The cell of a name, unless the name is global. -/
def Locals.cell? (locals : Locals) (text : String) : Option Nat :=
  locals.bind (·.lookup text)

/-- The map with one more name. -/
def Locals.extend (locals : Locals) (text : String) (cell : Nat) : Locals :=
  some ((text, cell) :: locals.getD [])

/-- The state of a program that runs by lexical scope. -/
structure LexicalMachine where
  /-- The values of all cells. -/
  cells : Array (Value Locals)
  /-- The global names. -/
  globals : Bindings Locals
  /-- The fields of every object. -/
  fields : Array (Bindings Locals)
  /-- The next identity of a function or class. -/
  nextId : Nat
  /-- The number of calls in progress. -/
  calls : Nat
  /-- Where printed text goes. -/
  sink : Sink
  /-- The clock. -/
  clock : Clock

/-- A machine before its first program: the globals hold the native functions. -/
def LexicalMachine.initial (sink : Sink) (clock : Nat → Float) : LexicalMachine where
  cells := #[]
  globals := [(Native.clock.name, .native 0 .clock)]
  fields := #[]
  nextId := 1
  calls := 0
  sink := sink
  clock := ⟨clock, 0⟩

/-- A step of a run by lexical scope. -/
abbrev Lexical := EStateM Halt LexicalMachine

namespace Lexical

open Eval (fail)

/-- How a statement ends. -/
inductive Outcome where
  /-- The next statement follows, and sees the given map. -/
  | next (locals : Locals)
  /-- The call in progress ends with a value. -/
  | returned (value : Value Locals)

/-- A new cell. -/
def newCell (value : Value Locals) : Lexical Nat :=
  modifyGet fun machine => (machine.cells.size, { machine with cells := machine.cells.push value })

/-- The value of a name. -/
def readName (locals : Locals) (name : Name) : Lexical (Value Locals) := do
  let machine ← get
  match locals.cell? name.text with
  | some cell => return machine.cells.getD cell .nil
  | none =>
    match machine.globals.get? name.text with
    | some value => return value
    | none => fail name.line (.undefinedVariable name.text)

/-- Assigns to a name. -/
def writeName (locals : Locals) (name : Name) (value : Value Locals) : Lexical Unit := do
  match locals.cell? name.text with
  | some cell =>
    modify fun machine => { machine with cells := machine.cells.setIfInBounds cell value }
  | none =>
    if ((← get).globals.get? name.text).isSome then
      modify fun machine =>
        { machine with globals := machine.globals.insert name.text value }
    else fail name.line (.undefinedVariable name.text)

/-- The map after the declaration of a name: a new cell for it, unless it is
global. -/
def introduce (locals : Locals) (text : String) : Lexical Locals :=
  match locals with
  | none => return none
  | some _ => return locals.extend text (← newCell .nil)

/-- Gives a declared name its value. -/
def define (locals : Locals) (text : String) (value : Value Locals) : Lexical Unit :=
  modify fun machine =>
    match locals.cell? text with
    | some cell => { machine with cells := machine.cells.setIfInBounds cell value }
    | none => { machine with globals := machine.globals.insert text value }

/-- Declares a name with its value, and yields the map of what follows. -/
def declare (locals : Locals) (text : String) (value : Value Locals) : Lexical Locals := do
  let after ← introduce locals text
  define after text value
  return after

/-- The map with one more name, whatever is around it. -/
def bindName (locals : Locals) (text : String) (value : Value Locals) : Lexical Locals :=
  return locals.extend text (← newCell value)

/-- The map with several more names. -/
def bindAll (locals : Locals) : List (String × Value Locals) → Lexical Locals
  | [] => return some (locals.getD [])
  | (text, value) :: rest => do bindAll (← bindName locals text value) rest

/-- A new identity. -/
def freshId : Lexical Nat :=
  modifyGet fun machine => (machine.nextId, { machine with nextId := machine.nextId + 1 })

/-- A function value over a closure. -/
def newFunction (closure : Closure Locals) : Lexical (Value Locals) :=
  return .function (← freshId) closure

/-- A new object without fields, by its number. -/
def newObject : Lexical Nat :=
  modifyGet fun machine => (machine.fields.size, { machine with fields := machine.fields.push [] })

/-- Sets a field of an object. -/
def setField (object : Nat) (text : String) (value : Value Locals) : Lexical Unit :=
  modify fun machine =>
    { machine with fields := machine.fields.modify object (Bindings.insert · text value) }

/-- Changes the sink. -/
def modifySink (change : Sink → Sink) : Lexical Unit :=
  modify fun machine => { machine with sink := change machine.sink }

/-- Writes one piece of output; a refusal is reported on the given line. -/
def write (line : Nat) (piece : String) : Lexical Unit := do
  let sink := (← get).sink
  if sink.refuses then
    modifySink (·.refuse piece)
    fail line (.output sink.refusal)
  else
    modifySink (·.take piece)

/-- The next reading of the clock. -/
def readClock : Lexical Float :=
  modifyGet fun machine =>
    (machine.clock.reading machine.clock.taken,
      { machine with clock := { machine.clock with taken := machine.clock.taken + 1 } })

/-- Runs a step as one more call in progress. -/
def asCall {α : Type} (step : Lexical α) : Lexical α := fun machine =>
  match step { machine with calls := machine.calls + 1 } with
  | .ok a after => .ok a { after with calls := after.calls - 1 }
  | .error halt after => .error halt { after with calls := after.calls - 1 }

/-- A method with `this` bound to an object. -/
def bindMethod (method : Closure Locals) (object : Value Locals) : Lexical (Closure Locals) :=
  return { method with env := ← bindName method.env "this" object }

/-- A property of a value: a field of an object, or else a method of its class
bound to it. -/
def getProperty (object : Value Locals) (name : Name) : Lexical (Value Locals) := do
  match object with
  | .object id cls =>
    match Bindings.get? ((← get).fields.getD id []) name.text with
    | some value => return value
    | none =>
      match cls.findMethod? name.text with
      | some method => newFunction (← bindMethod method object)
      | none => fail name.line (.undefinedProperty name.text)
  | _ => fail name.line .notAnInstance

/-- A method of the class that `super` stands for, bound to the current object. -/
def superMethod (locals : Locals) (line : Nat) (method : Name) : Lexical (Value Locals) := do
  let superclass ← readName locals (superName line)
  let object ← readName locals (thisName line)
  match superclass with
  | .cls cls =>
    match cls.findMethod? method.text with
    | some found => newFunction (← bindMethod found object)
    | none => fail method.line (.undefinedProperty method.text)
  | _ => throw (.fault .superNotClass)

/-- Runs each statement of a list until one ends the call in progress; each sees
the map that the one before it leaves. -/
def executeAll (execute : Locals → Stmt → Lexical Outcome) :
    Locals → List Stmt → Lexical Outcome
  | locals, [] => return .next locals
  | locals, s :: rest => do
    match ← execute locals s with
    | .next locals => executeAll execute locals rest
    | .returned value => return .returned value

/-- Repeats a body while a condition holds, at most `fuel` times. -/
def repeatWhile (condition : Locals → Lexical (Value Locals)) (body : Locals → Lexical Outcome) :
    Nat → Locals → Lexical Outcome
  | 0, _ => throw .exhausted
  | fuel + 1, locals => do
    if (← condition locals).isTruthy then
      match ← body locals with
      | .next locals => repeatWhile condition body fuel locals
      | .returned value => return .returned value
    else
      return .next locals

/-- Runs the body of a function, which sees the map of its closure and the
parameters. An initializer yields its object whichever way its body ends. -/
def invoke (execute : Locals → Stmt → Lexical Outcome) (closure : Closure Locals)
    (arguments : List (Value Locals)) : Lexical (Value Locals) := do
  let locals ← bindAll closure.env ((closure.decl.params.map (·.text)).zip arguments)
  let outcome ← executeAll execute locals closure.decl.body
  if closure.isInitializer then
    readName closure.env (thisName closure.decl.name.line)
  else
    match outcome with
    | .next _ => return .nil
    | .returned value => return value

/-- Creates an object and sets it up. -/
def construct (execute : Locals → Stmt → Lexical Outcome) (cls : Class Locals)
    (arguments : List (Value Locals)) : Lexical (Value Locals) := do
  let object := Value.object (← newObject) cls
  match cls.initializer? with
  | none => return object
  | some method =>
    let _ ← invoke execute (← bindMethod method object) arguments
    return object

/-- Runs what a callable stands for. -/
def apply (execute : Locals → Stmt → Lexical Outcome) (callable : Callable Locals)
    (arguments : List (Value Locals)) : Lexical (Value Locals) :=
  match callable with
  | .native .clock => return .number (← readClock)
  | .function closure => invoke execute closure arguments
  | .cls cls => construct execute cls arguments

/-- Calls a value. That it can be called, the number of its arguments and the
number of calls in progress are checked in this order. -/
def callValue (execute : Locals → Stmt → Lexical Outcome) (callee : Value Locals)
    (arguments : List (Value Locals)) (line : Nat) : Lexical (Value Locals) := do
  match callee.callable? with
  | none => fail line .notCallable
  | some callable =>
    if arguments.length ≠ callable.arity then
      fail line (.argumentCount callable.arity arguments.length)
    else if Machine.maxCalls ≤ (← get).calls then
      fail line .stackOverflow
    else
      asCall (apply execute callable arguments)

/-- The value of a superclass, which has to be a class. -/
def readSuperclass (locals : Locals) : Option Ref → Lexical (Option (Class Locals))
  | none => return none
  | some ref => do
    match ← readName locals ref.name with
    | .cls cls => return some cls
    | _ => fail ref.name.line .superclassNotClass

/-- The map that the methods of a class close over: with a superclass, it binds
`super`. -/
def methodLocals (locals : Locals) : Option (Class Locals) → Lexical Locals
  | none => return locals
  | some superclass => bindName locals "super" (.cls superclass)

/-- The methods of a class as closures, latest first. -/
def closeMethods (locals : Locals) (methods : List FunDecl) : List (Closure Locals) :=
  (methods.map fun method =>
    { decl := method, env := locals,
      isInitializer := method.name.text == initializerName }).reverse

/-- Declares a class, and yields the map of what follows. -/
def declareClass (locals : Locals) (name : Name) (superclass : Option Ref)
    (methods : List FunDecl) : Lexical Locals := do
  let inside ← declare locals name.text .nil
  let parent ← readSuperclass inside superclass
  let env ← methodLocals inside parent
  let id ← freshId
  define inside name.text (.cls ⟨id, name.text, parent, closeMethods env methods⟩)
  return inside

/-- The map outside of a block. -/
def Outcome.outside (locals : Locals) : Outcome → Outcome
  | .next _ => .next locals
  | .returned value => .returned value

mutual

/-- Evaluates an expression at a place with the given map. -/
def evaluate : Nat → Locals → Expr → Lexical (Value Locals)
  | 0, _, _ => throw .exhausted
  | fuel + 1, locals, e =>
    match e with
    | .literal literal => return literal.value
    | .group inner => evaluate fuel locals inner
    | .unary op line operand => do
      Eval.applyUnary op line (← evaluate fuel locals operand)
    | .binary op line left right => do
      let a ← evaluate fuel locals left
      let b ← evaluate fuel locals right
      Eval.applyBinary op line a b
    | .logical op _ left right => do
      let a ← evaluate fuel locals left
      if op.isDecided a then return a else evaluate fuel locals right
    | .var ref => readName locals ref.name
    | .assign ref value => do
      let v ← evaluate fuel locals value
      writeName locals ref.name v
      return v
    | .call callee arguments line => do
      let function ← evaluate fuel locals callee
      let values ← Eval.evaluateAll (evaluate fuel locals) arguments
      callValue (execute fuel) function values line
    | .get object name => do
      getProperty (← evaluate fuel locals object) name
    | .set object name value => do
      let id ← Eval.expectObject (← evaluate fuel locals object) name.line
      let v ← evaluate fuel locals value
      setField id name.text v
      return v
    | .this _ line => readName locals (thisName line)
    | .super _ line method => superMethod locals line method

/-- Executes a statement at a place with the given map. -/
def execute : Nat → Locals → Stmt → Lexical Outcome
  | 0, _, _ => throw .exhausted
  | fuel + 1, locals, s =>
    match s with
    | .expression e => do
      let _ ← evaluate fuel locals e
      return .next locals
    | .print e => do
      let value ← evaluate fuel locals e
      write e.line value.display
      write e.line "\n"
      return .next locals
    | .varDecl name initializer => do
      let value ← Eval.evaluateOption (evaluate fuel locals) initializer
      return .next (← declare locals name.text value)
    | .block body => do
      let outcome ← executeAll (execute fuel) (some (locals.getD [])) body
      return outcome.outside locals
    | .branch condition yes no => do
      if (← evaluate fuel locals condition).isTruthy then execute fuel locals yes
      else
        match no with
        | none => return .next locals
        | some other => execute fuel locals other
    | .loop condition body =>
      repeatWhile (fun locals => evaluate fuel locals condition)
        (fun locals => execute fuel locals body) fuel locals
    | .funDecl function => do
      let after ← introduce locals function.name.text
      define after function.name.text (← newFunction ⟨function, after, false⟩)
      return .next after
    | .result _ value => do
      return .returned (← Eval.evaluateOption (evaluate fuel locals) value)
    | .classDecl name superclass methods => do
      return .next (← declareClass locals name superclass methods)

end

/-- Executes the statements of a program, which are all on the top level. -/
def executeProgram (fuel : Nat) : List Stmt → Lexical Unit
  | [] => return ()
  | s :: rest => do
    let _ ← execute fuel none s
    executeProgram fuel rest

end Lexical

end Lox
