import Lox.Session

/-!
# Dialogues

An interactive session asks for a line, runs it as a source of its own, shows
its output and its diagnostics, forgets its static errors, and asks again. A
dialogue ends at an empty line, at the end of the input, at a line that is no
text, or when the session is aborted.
-/

namespace Lox

/-- A line as it arrives; `none` if its bytes are no text. -/
abbrev Line := Option String

/-- The bytes of a stream cut behind every line break. The flag tells whether
the piece ends in one. -/
def cutLines : List UInt8 → List (List UInt8 × Bool)
  | [] => []
  | byte :: rest =>
    if byte = 10 then ([], true) :: cutLines rest
    else
      match cutLines rest with
      | [] => [([byte], false)]
      | (line, broken) :: more => (byte :: line, broken) :: more

/-- A line without the carriage return before its line break. -/
def dropReturn (line : List UInt8) (broken : Bool) : List UInt8 :=
  if broken && line.getLast? == some 13 then line.dropLast else line

/-- The text of some bytes; `none` if they are not valid UTF-8. -/
def decodeText (bytes : List UInt8) : Option String :=
  String.fromUTF8? (ByteArray.mk bytes.toArray)

/-- The lines of a stream of bytes. -/
def linesOfBytes (bytes : List UInt8) : List Line :=
  (cutLines bytes).map fun (line, broken) => decodeText (dropReturn line broken)

/-- What was shown in answer to one line. -/
structure Turn where
  /-- What the program printed. -/
  printed : String
  /-- What was reported. -/
  reported : List Diagnostic

/-- How a dialogue ends. -/
inductive Ending where
  /-- By an empty line or the end of the input. -/
  | finished
  /-- By a line that is no text. -/
  | unreadable
  /-- By a session that cannot go on. -/
  | aborted (abort : Abort)
  deriving DecidableEq, Repr

/-- An interactive session from its first question to its last. -/
structure Dialogue where
  /-- The lines that were answered. -/
  turns : List Turn
  /-- How the dialogue ended. -/
  ending : Ending
  /-- The session at the end. -/
  session : Session

/-- Answers one line. -/
def Session.answer (fuel : Nat) (line : String) : Session.Step Turn := do
  Session.run fuel line
  modifyGet fun session =>
    let (reported, session) := session.takeDiagnostics
    let (printed, session) := session.takeOutput
    (⟨printed, reported⟩, session.forgetErrors)

/-- Answers one line after the other. -/
def Session.converse (fuel : Nat) (session : Session) : List Line → Dialogue
  | [] => ⟨[], .finished, session⟩
  | none :: _ => ⟨[], .unreadable, session⟩
  | some line :: rest =>
    if line.isEmpty then ⟨[], .finished, session⟩
    else
      match Session.answer fuel line session with
      | .error abort session => ⟨[], .aborted abort, session⟩
      | .ok turn session =>
        let later := session.converse fuel rest
        { later with turns := turn :: later.turns }

/-- The text that asks for a line. -/
def question : String := "> "

namespace Dialogue

/-- All questions asked: one per answered line, and the one before the end. -/
def questions (dialogue : Dialogue) : String :=
  String.join (List.replicate (dialogue.turns.length + 1) question)

/-- Diagnostics as they are shown, one to a line. -/
def reportText (diagnostics : List Diagnostic) : String :=
  String.join (diagnostics.map fun diagnostic => diagnostic.message ++ "\n")

/-- All diagnostics shown. -/
def reports (dialogue : Dialogue) : String :=
  String.join (dialogue.turns.map fun turn => reportText turn.reported)

/-- The text printed after the last question, by a line that was not finished. -/
def remainder (dialogue : Dialogue) : String := dialogue.session.machine.sink.accepted

/-- All text printed. -/
def printed (dialogue : Dialogue) : String :=
  String.join (dialogue.turns.map (·.printed)) ++ dialogue.remainder

/-- Questions and printed text in the order in which they were shown. -/
def screen (dialogue : Dialogue) : String :=
  String.join (dialogue.turns.map fun turn => question ++ turn.printed) ++ question
    ++ dialogue.remainder

end Dialogue

end Lox
