import Lox.Files
import Lox.Text.Quoted
import Lox.Token.Json
import Lox.Tree.Render
import Lox.Session.Dialogue

/-!
# The command line

What the arguments of the command ask for, and what the command answers: an
exit status and the texts on its two output channels. Arguments are read from
left to right, and the first one that settles the answer does so. Files and
standard input come in as bytes; nothing here reaches outside.
-/

namespace Lox

/-- Where source text comes from. -/
inductive Source where
  /-- A named file. -/
  | file (name : String)
  /-- Standard input. -/
  | input
  deriving DecidableEq, Repr

/-- What the command is asked to do. -/
inductive Request where
  /-- List the tokens of a source, plainly or as JSON. -/
  | tokenize (source : Source) (json : Bool)
  /-- Show the syntax trees of a source. -/
  | parse (source : Source)
  /-- Run a source. -/
  | run (source : Source)
  /-- Hold a dialogue over standard input. -/
  | converse
  /-- Show the version. -/
  | version
  /-- Show how the command is used. -/
  | help
  deriving DecidableEq, Repr

namespace Request

/-- The subcommands that do something. -/
inductive Verb where
  | tokenize
  | parse
  | run
  | repl
  deriving DecidableEq, Repr

/-- The subcommand of the given name. -/
def Verb.ofName? (name : String) : Option Verb :=
  match name with
  | "tokenize" => some .tokenize
  | "parse" => some .parse
  | "run" => some .run
  | "repl" => some .repl
  | _ => none

/-- What the arguments of a subcommand have set so far. -/
structure Settings where
  /-- The name of a file. -/
  file : Option String
  /-- Whether logging was asked for. -/
  log : Bool
  /-- Whether JSON was asked for. -/
  json : Bool
  /-- Whether options have ended, so that all that follows is a name. -/
  optionsEnded : Bool
  deriving DecidableEq, Repr

/-- The settings before the first argument. -/
def Settings.initial : Settings := ⟨none, false, false, false⟩

/-- The request of a subcommand once its arguments are read. -/
def ofSettings (verb : Verb) (settings : Settings) : Request :=
  let source := match settings.file with
    | some name => Source.file name
    | none => .input
  match verb with
  | .tokenize => .tokenize source settings.json
  | .parse => .parse source
  | .run => .run source
  | .repl => .converse

/-- The settings with a file name, where one is allowed and none is set. -/
def Settings.withFile? (verb : Verb) (settings : Settings) (name : String) : Option Settings :=
  if verb = .repl ∨ settings.file.isSome ∨ name.isEmpty then none
  else some { settings with file := some name }

/-- Whether an argument is an option in its form: a dash and something more. -/
def isOption (argument : String) : Bool :=
  match argument.toList with
  | '-' :: _ :: _ => true
  | _ => false

/-- Whether an argument starts with the given short option. -/
def startsShort (argument : String) (letter : Char) : Bool :=
  match argument.toList with
  | '-' :: c :: _ => c == letter
  | _ => false

/-- Whether an argument asks for help. -/
def asksHelp (argument : String) : Bool :=
  argument == "--help" || startsShort argument 'h'

/-- Whether an argument asks for the version. -/
def asksVersion (argument : String) : Bool :=
  argument == "--version" || startsShort argument 'V'

/-- Reads the arguments of a subcommand; `none` if they are not understood. -/
def ofVerb? (verb : Verb) (settings : Settings) : List String → Option Request
  | [] => some (ofSettings verb settings)
  | argument :: rest =>
    if settings.optionsEnded || !isOption argument then
      match settings.withFile? verb argument with
      | none => none
      | some set => ofVerb? verb set rest
    else if argument == "--" then ofVerb? verb { settings with optionsEnded := true } rest
    else if asksHelp argument then some .help
    else if argument == "--log" && !settings.log then
      ofVerb? verb { settings with log := true } rest
    else if argument == "--json" && verb = .tokenize && !settings.json then
      ofVerb? verb { settings with json := true } rest
    else none

/-- Reads the arguments of the command up to its subcommand. -/
def ofArguments? (log : Bool) : List String → Option Request
  | [] => none
  | argument :: rest =>
    if asksVersion argument then some .version
    else if asksHelp argument then some .help
    else if argument == "--log" && !log then ofArguments? true rest
    else if argument == "help" then
      match rest with
      | [] => some .help
      | [topic] => if topic == "help" || (Verb.ofName? topic).isSome then some .help else none
      | _ => none
    else
      match Verb.ofName? argument with
      | some verb => ofVerb? verb .initial rest
      | none => none

/-- The source that a request reads as a whole. -/
def source? : Request → Option Source
  | .tokenize source _ => some source
  | .parse source => some source
  | .run source => some source
  | _ => none

end Request

/-- What the command leaves behind. -/
structure Outcome where
  /-- The exit status. -/
  status : Nat
  /-- The text on standard output. -/
  output : String
  /-- The text on standard error. -/
  errors : String
  deriving DecidableEq, Repr

namespace Outcome

/-- The outcome of reading or writing that failed. -/
def failure (output context cause : String) : Outcome :=
  ⟨1, output, "Error: " ++ context ++ "\n\nCaused by:\n    " ++ cause ++ "\n"⟩

/-- How the command is used. -/
def usage : String :=
  "Usage: rox [--log] <tokenize|parse|run|repl> [FILENAME] [--json]\n"

/-- The outcome of arguments that are not understood. -/
def misused : Outcome := ⟨64, "", usage⟩

/-- The outcome of a session that could not go on. -/
def aborted (output : String) : Abort → Outcome
  | .fault fault => ⟨101, output, fault.message ++ "\n"⟩
  | .exhausted => ⟨101, output, "step limit reached\n"⟩

/-- Texts on lines of their own. -/
def lines (texts : List String) : String := String.join (texts.map (· ++ "\n"))

end Outcome

/-- Why bytes could not be read as text. -/
def notText : String := "stream did not contain valid UTF-8"

namespace Source

/-- The text of a source, or the outcome of failing to read it. -/
def text (source : Source) (contents : Contents) : Except Outcome String :=
  let (opening, reading) := match source with
    | .file name => ("Failed to open file " ++ quoted name, "Failed to read file " ++ quoted name)
    | .input => ("Failed to read stdin", "Failed to read stdin")
  match contents with
  | .unopened error => .error (.failure "" opening error.message)
  | .unread error => .error (.failure "" reading error.message)
  | .bytes bytes =>
    match decodeText bytes with
    | some text => .ok text
    | none => .error (.failure "" reading notText)

end Source

namespace Outcome

/-- The listing of the tokens of a text. -/
def ofTokenize (json : Bool) (text : String) : Outcome :=
  let items := scan text
  let errors := Item.diagnostics items
  let shown := fun token : Token => if json then token.json else token.listing
  ⟨if errors.isEmpty then 0 else 65, lines ((Item.tokens items).map shown),
    lines (errors.map (·.message))⟩

/-- The syntax trees of a text. -/
def ofParse (text : String) : Outcome :=
  let program := Program.ofSource text 0
  if program.diagnostics.isEmpty then ⟨0, lines (program.statements.map (·.render)), ""⟩
  else ⟨65, "", lines (program.diagnostics.map (·.message))⟩

/-- The run of a text. -/
def ofRun (fuel : Nat) (clock : Nat → Float) (text : String) : Outcome :=
  match Session.run fuel text (.initial .unbounded clock) with
  | .ok () session =>
    ⟨session.exitCode.getD 0, session.machine.sink.accepted,
      lines (session.pending.map (·.message))⟩
  | .error abort session => aborted session.machine.sink.accepted abort

/-- A dialogue over the bytes of standard input. -/
def ofConverse (fuel : Nat) (clock : Nat → Float) (input : List UInt8) : Outcome :=
  let dialogue := (Session.initial .unbounded clock).converse fuel (linesOfBytes input)
  match dialogue.ending with
  | .finished => ⟨0, dialogue.screen, dialogue.reports⟩
  | .unreadable =>
    let failed := failure dialogue.screen "Prompt I/O failed" notText
    { failed with errors := dialogue.reports ++ failed.errors }
  | .aborted abort => aborted dialogue.screen abort

end Outcome

/-- The name and version of the command. -/
def versionText : String := "rox-interpreter 0.1.0\n"

/-- What the command answers to its arguments, given what is found under file
names and on standard input. -/
def answerCommand (fuel : Nat) (clock : Nat → Float) (find : String → Contents)
    (input : List UInt8) (arguments : List String) : Outcome :=
  let onText (source : Source) (answer : String → Outcome) : Outcome :=
    let contents := match source with
      | .file name => find name
      | .input => .bytes input
    match source.text contents with
    | .ok text => answer text
    | .error outcome => outcome
  match Request.ofArguments? false arguments with
  | none => .misused
  | some .version => ⟨0, versionText, ""⟩
  | some .help => ⟨0, Outcome.usage, ""⟩
  | some (.tokenize source json) => onText source (.ofTokenize json)
  | some (.parse source) => onText source .ofParse
  | some (.run source) => onText source (.ofRun fuel clock)
  | some .converse => .ofConverse fuel clock input

end Lox
