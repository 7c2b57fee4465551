import Lox.Number.Format

/-!
# Tokens

A token is a word, a sign, a literal or the end of the input, together with
the text it was read from and the line on which that text ends. Words and
signs of fixed spelling are the constructors of `Symbol`; literals carry their
value. The one-line listing of a token and the place it gives to an error
message are defined here.
-/

namespace Lox

/-- The words and signs whose spelling the language fixes. -/
inductive Symbol where
  | leftParen
  | rightParen
  | leftBrace
  | rightBrace
  | comma
  | dot
  | minus
  | plus
  | semicolon
  | slash
  | star
  | bang
  | bangEqual
  | equal
  | equalEqual
  | greater
  | greaterEqual
  | less
  | lessEqual
  | andWord
  | classWord
  | elseWord
  | falseWord
  | funWord
  | forWord
  | ifWord
  | nilWord
  | orWord
  | printWord
  | returnWord
  | superWord
  | thisWord
  | trueWord
  | varWord
  | whileWord
  deriving DecidableEq, Repr

namespace Symbol

/-- How a symbol is spelled in source text. -/
def spelling : Symbol → String
  | leftParen => "("
  | rightParen => ")"
  | leftBrace => "\x7b"
  | rightBrace => "\x7d"
  | comma => ","
  | dot => "."
  | minus => "-"
  | plus => "+"
  | semicolon => ";"
  | slash => "/"
  | star => "*"
  | bang => "!"
  | bangEqual => "!="
  | equal => "="
  | equalEqual => "=="
  | greater => ">"
  | greaterEqual => ">="
  | less => "<"
  | lessEqual => "<="
  | andWord => "and"
  | classWord => "class"
  | elseWord => "else"
  | falseWord => "false"
  | funWord => "fun"
  | forWord => "for"
  | ifWord => "if"
  | nilWord => "nil"
  | orWord => "or"
  | printWord => "print"
  | returnWord => "return"
  | superWord => "super"
  | thisWord => "this"
  | trueWord => "true"
  | varWord => "var"
  | whileWord => "while"

/-- The name of a symbol in token listings. -/
def label : Symbol → String
  | leftParen => "LEFT_PAREN"
  | rightParen => "RIGHT_PAREN"
  | leftBrace => "LEFT_BRACE"
  | rightBrace => "RIGHT_BRACE"
  | comma => "COMMA"
  | dot => "DOT"
  | minus => "MINUS"
  | plus => "PLUS"
  | semicolon => "SEMICOLON"
  | slash => "SLASH"
  | star => "STAR"
  | bang => "BANG"
  | bangEqual => "BANG_EQUAL"
  | equal => "EQUAL"
  | equalEqual => "EQUAL_EQUAL"
  | greater => "GREATER"
  | greaterEqual => "GREATER_EQUAL"
  | less => "LESS"
  | lessEqual => "LESS_EQUAL"
  | andWord => "AND"
  | classWord => "CLASS"
  | elseWord => "ELSE"
  | falseWord => "FALSE"
  | funWord => "FUN"
  | forWord => "FOR"
  | ifWord => "IF"
  | nilWord => "NIL"
  | orWord => "OR"
  | printWord => "PRINT"
  | returnWord => "RETURN"
  | superWord => "SUPER"
  | thisWord => "THIS"
  | trueWord => "TRUE"
  | varWord => "VAR"
  | whileWord => "WHILE"

/-- The symbols that are spelled like identifiers and are never identifiers. -/
def keywords : List Symbol :=
  [andWord, classWord, elseWord, falseWord, funWord, forWord, ifWord, nilWord, orWord,
    printWord, returnWord, superWord, thisWord, trueWord, varWord, whileWord]

/-- The keyword that a whole word spells, if it spells one. -/
def ofWord? (word : List Char) : Option Symbol :=
  keywords.find? fun keyword => keyword.spelling.toList == word

end Symbol

/-- What a token is. -/
inductive Token.Kind where
  /-- A word or sign of fixed spelling. -/
  | symbol (symbol : Symbol)
  /-- A name chosen by the program. -/
  | identifier
  /-- A string literal with the text between its quotes. -/
  | string (contents : String)
  /-- A number literal with its value. -/
  | number (value : Float)
  /-- The end of the input. -/
  | finish
  deriving DecidableEq

/-- A piece of source text that carries meaning. -/
structure Token where
  /-- What the text is. -/
  kind : Token.Kind
  /-- The text itself; empty at the end of the input. -/
  lexeme : String
  /-- The line on which the text ends, counted from one. -/
  line : Nat
  deriving DecidableEq

namespace Token

/-- The name of a kind in token listings. -/
def Kind.label : Kind → String
  | .symbol s => s.label
  | .identifier => "IDENTIFIER"
  | .string _ => "STRING"
  | .number _ => "NUMBER"
  | .finish => "EOF"

/-- Whether a token is the given word or sign. -/
def is (token : Token) (symbol : Symbol) : Bool := token.kind = .symbol symbol

/-- Whether a token marks the end of the input. -/
def isFinish (token : Token) : Bool := token.kind = .finish

/-- The token that marks the end of the input on the given line. -/
def finishAt (line : Nat) : Token := ⟨.finish, "", line⟩

/-- Where an error message about a token says it stands. -/
def location (token : Token) : String :=
  if token.isFinish then " at end" else " at '" ++ token.lexeme ++ "'"

/-- The value column of a listed number: below `2 ^ 63` a whole number is
written out with one decimal, any other number with its shortest digits. -/
def numberColumn (value : Float) : String :=
  match magnitude value with
  | .finite d =>
    if d.numerator < Nat.pow 2 63 * d.denominator then
      (NumberFormat.wholeText? value).getD (NumberFormat.plain.text value)
    else NumberFormat.plain.text value
  | _ => NumberFormat.plain.text value

/-- The value column of a token's listing. -/
def Kind.valueColumn : Kind → String
  | .string contents => contents
  | .number value => numberColumn value
  | _ => "null"

/-- The line that lists a token: its kind, its text and its value. -/
def listing (token : Token) : String :=
  token.kind.label ++ " " ++ token.lexeme ++ " " ++ token.kind.valueColumn

end Token

end Lox
