import Lox.Text.Unseen

/-!
# Quoted names

A name that comes from outside is shown between double quotes. Double quotes,
backslashes and characters that are not seen as themselves are written as
escapes; a single quote stands as it is.
-/

namespace Lox

/-- One character of a quoted name. -/
def quotedChar (c : Char) : List Char :=
  match c with
  | '\x00' => ['\\', '0']
  | '\t' => ['\\', 't']
  | '\r' => ['\\', 'r']
  | '\n' => ['\\', 'n']
  | '"' => ['\\', '"']
  | '\\' => ['\\', '\\']
  | c =>
    if isUnseen c then ['\\', 'u', '{'] ++ Nat.toDigits 16 c.toNat ++ ['}'] else [c]

/-- A name between double quotes. -/
def quoted (name : String) : String :=
  "\"" ++ String.ofList (name.toList.flatMap quotedChar) ++ "\""

end Lox
