import Lox.Token

/-!
# Reading source text as tokens

Source text is cut into consecutive nonempty pieces: blanks and comments,
tokens, and pieces that are no token. At every position the piece is decided
by its first character and is as long as its class allows. A bad piece does
not end the reading; the text after it is read on, and the last item is always
the end of the input.
-/

namespace Lox

/-- Why a piece of text is no token. -/
inductive LexError where
  /-- No token starts with this character. -/
  | unexpectedCharacter (c : Char)
  /-- A string literal without its closing quote. -/
  | unterminatedString
  deriving DecidableEq, Repr

/-- The wording of a lexical error. -/
def LexError.message : LexError → String
  | .unexpectedCharacter c => "Unexpected character: " ++ String.singleton c
  | .unterminatedString => "Unterminated string."

/-- What a piece of source text is. -/
inductive Piece where
  /-- A blank, a line break or a comment. -/
  | trivia
  /-- A token of the given kind. -/
  | token (kind : Token.Kind)
  /-- No token. -/
  | bad (cause : LexError)
  deriving DecidableEq

/-- The characters that can start an identifier. -/
def isWordStart (c : Char) : Bool := c.isAlpha || c = '_'

/-- The characters that can go on an identifier. -/
def isWordPart (c : Char) : Bool := c.isAlphanum || c = '_'

/-- Blanks other than the line break. -/
def isBlank (c : Char) : Bool := c = ' ' || c = '\r' || c = '\t'

/-- The signs of one character that no longer sign starts with. -/
def Symbol.ofChar? (c : Char) : Option Symbol :=
  match c with
  | '(' => some .leftParen
  | ')' => some .rightParen
  | '{' => some .leftBrace
  | '}' => some .rightBrace
  | ',' => some .comma
  | '.' => some .dot
  | '-' => some .minus
  | '+' => some .plus
  | ';' => some .semicolon
  | '*' => some .star
  | _ => none

/-- The signs that an equals sign turns into another sign, with that sign. -/
def Symbol.withEqual? (c : Char) : Option (Symbol × Symbol) :=
  match c with
  | '!' => some (.bang, .bangEqual)
  | '=' => some (.equal, .equalEqual)
  | '<' => some (.less, .lessEqual)
  | '>' => some (.greater, .greaterEqual)
  | _ => none

/-- The number that a run of decimal digits spells. -/
def natOfDigits (digits : List Char) : Nat :=
  digits.foldl (fun n c => 10 * n + (c.toNat - '0'.toNat)) 0

/-- The float nearest to the decimal with the given digits before and after
the point. -/
def numberOfDigits (whole fraction : List Char) : Float :=
  Float.ofScientific (natOfDigits (whole ++ fraction)) true fraction.length

/-- The digits of a fraction at the start of a text that follows a whole
number; empty when no point with a digit after it stands there. -/
def fractionDigits : List Char → List Char
  | '.' :: rest => rest.takeWhile Char.isDigit
  | _ => []

/-- A number literal that starts with the digit `c`: the piece and how many
characters after `c` belong to it. -/
def numberPiece (c : Char) (rest : List Char) : Piece × Nat :=
  let whole := rest.takeWhile Char.isDigit
  let fraction := fractionDigits (rest.dropWhile Char.isDigit)
  let length := if fraction.isEmpty then whole.length else whole.length + 1 + fraction.length
  (.token (.number (numberOfDigits (c :: whole) fraction)), length)

/-- A word that starts with the letter `c`. -/
def wordPiece (c : Char) (rest : List Char) : Piece × Nat :=
  let more := rest.takeWhile isWordPart
  let kind := match Symbol.ofWord? (c :: more) with
    | some keyword => .symbol keyword
    | none => .identifier
  (.token kind, more.length)

/-- A string literal after its opening quote; without a closing quote it is
bad to the end of the text. -/
def stringPiece (rest : List Char) : Piece × Nat :=
  let contents := rest.takeWhile (· ≠ '"')
  if contents.length < rest.length then
    (.token (.string (String.ofList contents)), contents.length + 1)
  else
    (.bad .unterminatedString, contents.length)

/-- The first piece of a text that starts with `c`: what it is, and how many
characters after `c` belong to it. -/
def firstPiece (c : Char) (rest : List Char) : Piece × Nat :=
  if isBlank c || c = '\n' then (.trivia, 0)
  else if c = '/' then
    if rest.head? = some '/' then (.trivia, (rest.takeWhile (· ≠ '\n')).length)
    else (.token (.symbol .slash), 0)
  else if c = '"' then stringPiece rest
  else if c.isDigit then numberPiece c rest
  else if isWordStart c then wordPiece c rest
  else match Symbol.ofChar? c, Symbol.withEqual? c with
    | some symbol, _ => (.token (.symbol symbol), 0)
    | none, some (single, double) =>
      if rest.head? = some '=' then (.token (.symbol double), 1) else (.token (.symbol single), 0)
    | none, none => (.bad (.unexpectedCharacter c), 0)

/-- How many line breaks a text holds. -/
def lineBreaks (text : List Char) : Nat := text.count '\n'

/-- What reading reports, in order of appearance. -/
inductive Item where
  /-- A token. -/
  | token (token : Token)
  /-- A piece that is no token, with the line on which it ends. -/
  | bad (line : Nat) (cause : LexError)
  deriving DecidableEq

/-- What a piece reports, given its text and the line on which it ends. -/
def Piece.item? (piece : Piece) (text : List Char) (line : Nat) : Option Item :=
  match piece with
  | .trivia => none
  | .token kind => some (.token ⟨kind, String.ofList text, line⟩)
  | .bad cause => some (.bad line cause)

/-- The items of a text whose first character stands on the given line. -/
def scanFrom (line : Nat) : List Char → List Item
  | [] => [.token (Token.finishAt line)]
  | c :: rest =>
    let (piece, more) := firstPiece c rest
    let text := c :: rest.take more
    let lastLine := line + lineBreaks text
    (piece.item? text lastLine).toList ++ scanFrom lastLine (rest.drop more)
termination_by text => text.length
decreasing_by simp only [List.length_drop, List.length_cons]; omega

/-- The items of a source text. -/
def scan (source : String) : List Item := scanFrom 1 source.toList

/-- The tokens among some items. -/
def Item.tokens (items : List Item) : List Token :=
  items.filterMap fun
    | .token t => some t
    | .bad _ _ => none

end Lox
