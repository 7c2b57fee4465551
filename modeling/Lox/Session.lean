import Lox.Program
import Lox.Evaluation

/-!
# Sessions

A session runs one source after another on one machine: globals, objects and
distances stay, and identities are never handed out twice. It collects
diagnostics until they are taken, and it remembers whether a static error was
reported since it last forgot them and whether a runtime error ever was. While
a static error is remembered, sources are read and checked but not run.
-/

namespace Lox

/-- A machine with the diagnostics of the sources it ran. -/
structure Session where
  /-- Diagnostics not yet taken, oldest first. -/
  pending : List Diagnostic
  /-- Whether a static error is remembered. -/
  hadError : Bool
  /-- Whether a runtime error was ever reported. -/
  hadRuntimeError : Bool
  /-- The next identity to hand out. -/
  nextId : Nat
  /-- The machine. -/
  machine : Machine

/-- Why a session cannot go on. -/
inductive Abort where
  /-- A disagreement between a program and its distances. -/
  | fault (fault : Fault)
  /-- The bound on the length of a run is used up. -/
  | exhausted
  deriving DecidableEq, Repr

namespace Eval

/-- Executes the statements of a program. A statement that ends a call has no
call to end here, and the next one follows. -/
def executeProgram (fuel : Nat) : List Stmt → Eval Unit
  | [] => return ()
  | s :: rest => do
    let _ ← execute fuel s
    executeProgram fuel rest

end Eval

namespace Session

/-- A session before its first source. -/
def initial (sink : Sink) (clock : Nat → Float) : Session :=
  ⟨[], false, false, 0, .initial sink clock⟩

/-- Reports a diagnostic. -/
def report (session : Session) (diagnostic : Diagnostic) : Session :=
  { session with
    pending := session.pending ++ [diagnostic]
    hadError := session.hadError || diagnostic.isStatic
    hadRuntimeError := session.hadRuntimeError || !diagnostic.isStatic }

/-- Reports several diagnostics. -/
def reportAll (session : Session) (diagnostics : List Diagnostic) : Session :=
  diagnostics.foldl report session

/-- The diagnostics not yet taken, and the session without them. -/
def takeDiagnostics (session : Session) : List Diagnostic × Session :=
  (session.pending, { session with pending := [] })

/-- Forgets that static errors were reported. -/
def forgetErrors (session : Session) : Session := { session with hadError := false }

/-- The text printed since it was last taken, and the session without it. -/
def takeOutput (session : Session) : String × Session :=
  let (printed, machine) := session.machine.takeOutput
  (printed, { session with machine := machine })

/-- The exit code that the reported errors ask for. -/
def exitCode (session : Session) : Option Nat :=
  if session.hadError then some 65
  else if session.hadRuntimeError then some 70
  else none

/-- Reads a source; its identities are used up whether it is well formed or not. -/
def read (session : Session) (source : String) : List Stmt × Session :=
  let program := Program.ofSource source session.nextId
  (program.statements,
    { session with nextId := program.nextId }.reportAll program.diagnostics)

/-- Finds the distances and scope errors of a program. -/
def resolve (session : Session) (statements : List Stmt) : Session :=
  let findings := resolveProgram statements
  { session with machine := session.machine.recordDistances findings.distances }.reportAll
    findings.diagnostics

/-- A step of a session: it goes on or is aborted, and in both cases leaves a
session behind. -/
abbrev Step := EStateM Abort Session

/-- Executes a program that was read and resolved. -/
def execute (fuel : Nat) (statements : List Stmt) : Step Unit := fun session =>
  match Eval.executeProgram fuel statements session.machine with
  | .ok () machine => .ok () { session with machine := machine }
  | .error (.error error) machine =>
    .ok () ({ session with machine := machine }.report (.runtime error))
  | .error (.fault fault) machine => .error (.fault fault) { session with machine := machine }
  | .error .exhausted machine => .error .exhausted { session with machine := machine }

/-- Runs a source: reads it, resolves it if no error is remembered, and executes
it if none is then. -/
def run (fuel : Nat) (source : String) : Step Unit := fun session =>
  let (statements, session) := session.read source
  if session.hadError then .ok () session
  else
    let session := session.resolve statements
    if session.hadError then .ok () session
    else execute fuel statements session

end Session

end Lox
