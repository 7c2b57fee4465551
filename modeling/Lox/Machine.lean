import Std.Data.TreeMap
import Lox.Store

/-!
# The state of a running program

Besides the store, a run keeps the environment in effect, the number of calls
in progress, the distances found for references, the output written so far
and the readings of the clock that were used up. A step of a run yields a
value or halts: with an error of the program, with a fault, or because the
bound on the length of the run is used up.
-/

namespace Lox

/-- What goes wrong in a running program. -/
inductive RuntimeCause where
  | operandNotNumber
  | operandsNotNumbers
  | operandsNotAddable
  | superclassNotClass
  | argumentCount (expected given : Nat)
  | undefinedVariable (text : String)
  | undefinedProperty (text : String)
  | notAnInstance
  | notCallable
  | stackOverflow
  | output (reason : String)
  deriving DecidableEq, Repr

/-- The wording of a runtime error, without its line. -/
def RuntimeCause.message : RuntimeCause → String
  | .operandNotNumber => "Operand must be a number."
  | .operandsNotNumbers => "Operands must be numbers."
  | .operandsNotAddable => "Operands must be two numbers or two strings."
  | .superclassNotClass => "Superclass must be a class."
  | .argumentCount expected given =>
    "Expected " ++ toString expected ++ " arguments but got " ++ toString given ++ "."
  | .undefinedVariable text => "Undefined variable '" ++ text ++ "'."
  | .undefinedProperty text => "Undefined property '" ++ text ++ "'."
  | .notAnInstance => "Only instances have properties."
  | .notCallable => "Can only call functions and classes."
  | .stackOverflow => "Stack overflow."
  | .output reason => "Failed to write output: " ++ reason

/-- A runtime error and the line it is reported on. -/
structure RuntimeError where
  /-- The line on which the error is reported. -/
  line : Nat
  /-- What went wrong. -/
  cause : RuntimeCause
  deriving DecidableEq, Repr

/-- The full text of a runtime error. -/
def RuntimeError.message (error : RuntimeError) : String :=
  error.cause.message ++ "\n[line " ++ toString error.line ++ "]"

namespace Store

/-- The value of a name by search; a name that no frame has is an error. -/
def read (store : Store) (env : Env) (name : Name) : Except RuntimeError Value :=
  match store.get? env name.text with
  | some value => .ok value
  | none => .error ⟨name.line, .undefinedVariable name.text⟩

/-- Assigns to a name by search; a name that no frame has is an error. -/
def write (store : Store) (env : Env) (name : Name) (value : Value) :
    Except RuntimeError Store :=
  match store.assign? env name.text value with
  | some changed => .ok changed
  | none => .error ⟨name.line, .undefinedVariable name.text⟩

end Store

/-- How much was written to a sink. -/
structure Tally where
  /-- The number of pieces. -/
  writes : Nat
  /-- The number of line breaks in them. -/
  lineBreaks : Nat
  deriving DecidableEq, Repr

/-- Where printed text goes. A sink takes whole pieces, and it refuses every
piece once it is full. A long piece reaches it bit by bit, so it may have taken
the beginning of the first one that it refuses. -/
structure Sink where
  /-- The text taken so far. -/
  accepted : String
  /-- How much that was, in whole pieces. -/
  tally : Tally
  /-- Whether a sink is full after so much. -/
  isFull : Tally → Bool
  /-- How many characters of the next piece that it refuses a sink may take. -/
  spare : Nat
  /-- Why a full sink refuses. -/
  refusal : String

namespace Sink

/-- A sink that is never full. -/
def unbounded : Sink := ⟨"", ⟨0, 0⟩, fun _ => false, 0, ""⟩

/-- A sink that is full after the given number of line breaks. -/
def upToLines (limit : Nat) : Sink :=
  ⟨"", ⟨0, 0⟩, fun tally => limit ≤ tally.lineBreaks, 0, "sink full"⟩

/-- Whether a sink refuses the next piece. -/
def refuses (sink : Sink) : Bool := sink.isFull sink.tally

/-- The sink after one more piece. -/
def take (sink : Sink) (piece : String) : Sink :=
  { sink with
    accepted := sink.accepted ++ piece
    tally := ⟨sink.tally.writes + 1, sink.tally.lineBreaks + piece.toList.count '\n'⟩ }

/-- The part of a piece that goes in although the piece is refused. At least its last
character does not. -/
def partOf (sink : Sink) (piece : String) : String :=
  String.ofList (piece.toList.dropLast.take sink.spare)

/-- The sink after it has refused a piece. It takes nothing from then on. -/
def refuse (sink : Sink) (piece : String) : Sink :=
  { sink with accepted := sink.accepted ++ sink.partOf piece, spare := 0 }

end Sink

/-- The readings that a run takes from the clock. -/
structure Clock where
  /-- All readings, in order. -/
  reading : Nat → Float
  /-- How many were taken. -/
  taken : Nat

/-- The distances of references by their identity. -/
abbrev Distances := Std.TreeMap Nat Nat

/-- The state of a running program. -/
structure Machine where
  /-- Frames, fields and identities. -/
  store : Store
  /-- The environment in effect. -/
  env : Env
  /-- The number of calls in progress. -/
  calls : Nat
  /-- The distances of the references that are not global. -/
  distances : Distances
  /-- Where printed text goes. -/
  sink : Sink
  /-- The clock. -/
  clock : Clock

/-- Why a run ends before its program does. -/
inductive Halt where
  /-- An error of the program. -/
  | error (error : RuntimeError)
  /-- A disagreement between the program and its distances. -/
  | fault (fault : Fault)
  /-- The bound on the length of the run is used up. -/
  | exhausted
  deriving DecidableEq, Repr

/-- The environment that holds the global frame alone. -/
def globalEnv : Env := [0]

namespace Machine

/-- The greatest number of calls in progress. -/
def maxCalls : Nat := 1024

/-- A machine before its first program: the globals hold the native functions. -/
def initial (sink : Sink) (clock : Nat → Float) : Machine where
  store := { Store.empty with
    frames := #[[(Native.clock.name, .native 0 .clock)]]
    nextId := 1 }
  env := globalEnv
  calls := 0
  distances := ∅
  sink := sink
  clock := ⟨clock, 0⟩

/-- The text printed since it was last taken, and the machine without it. -/
def takeOutput (machine : Machine) : String × Machine :=
  (machine.sink.accepted, { machine with sink := { machine.sink with accepted := "" } })

/-- The machine with distances added. -/
def recordDistances (machine : Machine) (found : List (Nat × Nat)) : Machine :=
  { machine with
    distances := found.foldl (fun all (id, distance) => all.insert id distance) machine.distances }

end Machine

/-- A step of a run. -/
abbrev Eval := EStateM Halt Machine

namespace Eval

/-- Halts with an error of the program. -/
def fail {σ α : Type} (line : Nat) (cause : RuntimeCause) : EStateM Halt σ α :=
  throw (.error ⟨line, cause⟩)

/-- The result of an operation on the store that may be at fault. -/
def orFault {σ α : Type} (result : Except Fault α) : EStateM Halt σ α :=
  match result with
  | .ok a => return a
  | .error fault => throw (.fault fault)

/-- The result of an operation that may fail with an error of the program. -/
def orFail {σ α : Type} (result : Except RuntimeError α) : EStateM Halt σ α :=
  match result with
  | .ok a => return a
  | .error error => throw (.error error)

/-- Changes the store and yields a result. -/
def onStore {α : Type} (change : Store → α × Store) : Eval α :=
  modifyGet fun machine =>
    let (a, store) := change machine.store
    (a, { machine with store := store })

/-- Changes the store. -/
def modifyStore (change : Store → Store) : Eval Unit :=
  modify fun machine => { machine with store := change machine.store }

/-- Runs a step in another environment; the environment in effect is back
however the step ends. -/
def inEnv {α : Type} (env : Env) (step : Eval α) : Eval α := fun machine =>
  let outer := machine.env
  match step { machine with env := env } with
  | .ok a after => .ok a { after with env := outer }
  | .error halt after => .error halt { after with env := outer }

/-- Runs a step as one more call in progress. -/
def asCall {α : Type} (step : Eval α) : Eval α := fun machine =>
  match step { machine with calls := machine.calls + 1 } with
  | .ok a after => .ok a { after with calls := after.calls - 1 }
  | .error halt after => .error halt { after with calls := after.calls - 1 }

/-- Binds a name in the environment in effect. -/
def define (text : String) (value : Value) : Eval Unit :=
  modify fun machine =>
    { machine with store := machine.store.define machine.env text value }

/-- A new frame with some bindings inside an environment. -/
def newFrame (enclosing : Env) (bindings : Bindings) : Eval Env :=
  onStore (·.newFrame enclosing bindings)

/-- Changes the sink. -/
def modifySink (change : Sink → Sink) : Eval Unit :=
  modify fun machine => { machine with sink := change machine.sink }

/-- Writes one piece of output; a refusal is reported on the given line. -/
def write (line : Nat) (piece : String) : Eval Unit := do
  let sink := (← get).sink
  if sink.refuses then
    modifySink (·.refuse piece)
    fail line (.output sink.refusal)
  else
    modifySink (·.take piece)

/-- The next reading of the clock. -/
def readClock : Eval Float :=
  modifyGet fun machine =>
    (machine.clock.reading machine.clock.taken,
      { machine with clock := { machine.clock with taken := machine.clock.taken + 1 } })

end Eval

end Lox
