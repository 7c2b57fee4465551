import Lox.Command

/-!
# The command

Connects the answers of `Lox.Command` to the arguments, the files and the
streams of a process. A dialogue is held line by line, so that an answer is
shown before the next line is read. The clock of one run, or of the answer to
one line, starts at the time at which it started and gains a microsecond with
every reading.
-/

namespace Lox.Main

/-- The bound on the length of a run. -/
def fuel : Nat := Nat.pow 2 60

/-- The reason for a failure. -/
def reasonOf (error : IO.Error) : SystemError :=
  match error with
  | .noFileOrDirectory _ _ _ => .notFound
  | .inappropriateType _ 21 _ => .isDirectory
  | .inappropriateType _ 20 _ => .notDirectory
  | .invalidArgument _ 36 _ => .nameTooLong
  | .permissionDenied _ code _ => ⟨"Permission denied", code.toNat⟩
  | other => ⟨other.toString, 0⟩

/-- What is found under the name of a file. -/
def find (name : String) : IO Contents := do
  match ← (IO.FS.Handle.mk name .read).toBaseIO with
  | .error error => return .unopened (reasonOf error)
  | .ok handle =>
    match ← handle.readBinToEnd.toBaseIO with
    | .error error => return .unread (reasonOf error)
    | .ok bytes => return .bytes bytes.toList

/-- All bytes of a stream. -/
partial def readAll (stream : IO.FS.Stream) (before : ByteArray) : IO ByteArray := do
  let chunk ← stream.read 65536
  if chunk.isEmpty then return before else readAll stream (before ++ chunk)

/-- The time in seconds. -/
def now : IO Float := do
  return (← IO.monoNanosNow).toFloat / 1000000000

/-- The readings of a clock that starts at the given time. -/
def clockFrom (time : Float) (n : Nat) : Float := time + n.toFloat / 1000000

/-- Shows an outcome and yields its status. -/
def finish (outcome : Outcome) : IO UInt32 := do
  (← IO.getStdout).putStr outcome.output
  (← IO.getStdout).flush
  (← IO.getStderr).putStr outcome.errors
  return outcome.status.toUInt32

/-- The bytes up to the next line break or the end of the input, read one by
one so that nothing behind the line break is waited for. -/
partial def readLineBytes (input : IO.FS.Stream) (before : ByteArray) : IO ByteArray := do
  let chunk ← input.read 1
  if chunk.isEmpty || chunk.toList == [10] then return before ++ chunk
  else readLineBytes input (before ++ chunk)

/-- A line of input; `none` at the end of the input. -/
def readLine (input : IO.FS.Stream) : IO (Option Line) := do
  return (linesOfBytes (← readLineBytes input .empty).toList).head?

/-- Holds a dialogue line by line. -/
partial def converse (input : IO.FS.Stream) (session : Session) : IO UInt32 := do
  let output ← IO.getStdout
  output.putStr question
  output.flush
  match ← readLine input with
  | none | some (some "") => return 0
  | some none => finish (.failure "" "Prompt I/O failed" notText)
  | some (some line) =>
    let time ← now
    let machine := { session.machine with clock := ⟨clockFrom time, 0⟩ }
    match Session.answer fuel line { session with machine := machine } with
    | .ok turn after =>
      let _ ← finish ⟨0, turn.printed, Dialogue.reportText turn.reported⟩
      converse input after
    | .error abort after => finish (.aborted after.machine.sink.accepted abort)

/-- Answers a request other than a dialogue. -/
def respond (arguments : List String) (request : Option Request) : IO UInt32 := do
  let time ← now
  let contents ← match request.bind (·.source?) with
    | some (.file name) => find name
    | _ => pure (.bytes [])
  let input ← match request.bind (·.source?) with
    | some .input => readAll (← IO.getStdin) .empty
    | _ => pure .empty
  finish (answerCommand fuel (clockFrom time) (fun _ => contents) input.toList arguments)

end Lox.Main

/-- The command. -/
def main (arguments : List String) : IO UInt32 := do
  match Lox.Request.ofArguments? false arguments with
  | some .converse =>
    let input ← IO.getStdin
    Lox.Main.converse input (.initial .unbounded fun _ => 0)
  | request => Lox.Main.respond arguments request
