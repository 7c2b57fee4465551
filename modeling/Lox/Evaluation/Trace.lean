import Lox.Evaluation

/-!
# Traces

The statements of a program performed one by one on a machine, each with what
it yields and what it prints. An expression that stands as a statement yields
its value. After an error of the program the next statement follows; a fault
ends the trace.
-/

namespace Lox

/-- What a statement yields when it is performed on its own. -/
inductive Yield where
  /-- The value of an expression. -/
  | value (value : Value)
  /-- How any other statement ends. -/
  | flow (flow : Flow)

/-- Performs one statement. -/
def Eval.perform (fuel : Nat) : Stmt → Eval Yield
  | .expression e => return .value (← evaluate fuel e)
  | s => return .flow (← execute fuel s)

/-- One performed statement. -/
structure Entry where
  /-- What it yielded, or why it halted. -/
  result : Except Halt Yield
  /-- What it printed. -/
  printed : String

namespace Machine

/-- Performs statements one by one. -/
def trace (fuel : Nat) (machine : Machine) : List Stmt → List Entry
  | [] => []
  | s :: rest =>
    match Eval.perform fuel s machine with
    | .ok yielded after =>
      let (printed, next) := after.takeOutput
      ⟨.ok yielded, printed⟩ :: next.trace fuel rest
    | .error (.error error) after =>
      let (printed, next) := after.takeOutput
      ⟨.error (.error error), printed⟩ :: next.trace fuel rest
    | .error halt after => [⟨.error halt, after.takeOutput.1⟩]

end Machine

end Lox
