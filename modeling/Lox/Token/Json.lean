import Lox.Token

/-!
# Tokens as JSON lines

The machine-readable listing writes one JSON object per token with the keys
`token_type`, `lexeme` and `line`. A literal's type is an object that carries
its value. Strings escape quotes, backslashes and control characters only.
-/

namespace Lox

/-- A hexadecimal digit in lower case. -/
def hexDigit (n : Nat) : Char := (Nat.toDigits 16 (n % 16)).headD '0'

/-- One character inside a JSON string. -/
def jsonChar (c : Char) : List Char :=
  match c with
  | '"' => ['\\', '"']
  | '\\' => ['\\', '\\']
  | '\n' => ['\\', 'n']
  | '\r' => ['\\', 'r']
  | '\t' => ['\\', 't']
  | '\x08' => ['\\', 'b']
  | '\x0c' => ['\\', 'f']
  | c =>
    if c.toNat < 32 then
      ['\\', 'u', '0', '0', hexDigit (c.toNat / 16), hexDigit c.toNat]
    else [c]

/-- A JSON string with its quotes. -/
def jsonString (s : String) : String :=
  "\"" ++ String.ofList (s.toList.flatMap jsonChar) ++ "\""

/-- JSON numbers: a leading exponent from -5 to 15 is written positionally and
keeps a point, ties go to the even digit, and what is not finite is null. -/
def jsonNumber : NumberFormat where
  tie := .even
  positional := some (-5, 15)
  wholePoint := true
  mantissaPoint := false
  exponentWidth := 1
  nan := "null"
  infinity := "null"

/-- A JSON object from its keys and the JSON texts of its values. -/
def jsonObject (fields : List (String × String)) : String :=
  "\x7b" ++ String.intercalate "," (fields.map fun (key, value) => jsonString key ++ ":" ++ value)
    ++ "\x7d"

namespace Token

/-- A kind as JSON: its name, or an object from its name to its value. -/
def Kind.json (kind : Kind) : String :=
  match kind with
  | .string contents => jsonObject [(kind.label, jsonString contents)]
  | .number value => jsonObject [(kind.label, jsonNumber.text value)]
  | _ => jsonString kind.label

/-- The JSON line of a token. -/
def json (token : Token) : String :=
  jsonObject [("token_type", token.kind.json), ("lexeme", jsonString token.lexeme),
    ("line", toString token.line)]

end Token

end Lox
