import Lox.Tree

/-!
# Syntax trees as text

Trees are written in parentheses with the operator or keyword first. A whole
number is written with all its digits and one decimal; a string is written
bare, so texts of trees with strings may coincide.
-/

namespace Lox

/-- The symbol that spells a unary operator. -/
def UnaryOp.symbol : UnaryOp → Symbol
  | .negate => .minus
  | .not => .bang

/-- The symbol that spells a binary operator. -/
def BinaryOp.symbol : BinaryOp → Symbol
  | .add => .plus
  | .subtract => .minus
  | .multiply => .star
  | .divide => .slash
  | .equal => .equalEqual
  | .notEqual => .bangEqual
  | .greater => .greater
  | .greaterEqual => .greaterEqual
  | .less => .less
  | .lessEqual => .lessEqual

/-- The symbol that spells a logical operator. -/
def LogicalOp.symbol : LogicalOp → Symbol
  | .and => .andWord
  | .or => .orWord

/-- A literal as text. -/
def Literal.render : Literal → String
  | .nil => "nil"
  | .bool value => if value then "true" else "false"
  | .number value => (NumberFormat.wholeText? value).getD (NumberFormat.plain.text value)
  | .string value => value

/-- Words in parentheses with blanks between them. -/
def parenthesize (words : List String) : String :=
  "(" ++ String.intercalate " " words ++ ")"

mutual

/-- An expression as text. -/
def Expr.render : Expr → String
  | .literal value => value.render
  | .group inner => parenthesize ["group", inner.render]
  | .unary op _ operand => parenthesize [op.symbol.spelling, operand.render]
  | .binary op _ left right => parenthesize [op.symbol.spelling, left.render, right.render]
  | .logical op _ left right => parenthesize [op.symbol.spelling, left.render, right.render]
  | .var ref => ref.name.text
  | .assign ref value => parenthesize ["=", ref.name.text, value.render]
  | .call callee arguments _ =>
    parenthesize ("call" :: callee.render :: Expr.renderList arguments)
  | .get object name => parenthesize [".", object.render, name.text]
  | .set object name value =>
    parenthesize ["=", parenthesize [".", object.render, name.text], value.render]
  | .this _ _ => "this"
  | .super _ _ method => parenthesize ["super", method.text]

/-- The texts of several expressions. -/
def Expr.renderList : List Expr → List String
  | [] => []
  | e :: rest => e.render :: Expr.renderList rest

end

/-- The words of an optional expression. -/
def renderOption : Option Expr → List String
  | none => []
  | some e => [e.render]

/-- The words that name a superclass. -/
def renderSuperclass : Option Ref → List String
  | none => []
  | some ref => ["<", ref.name.text]

mutual

/-- A statement as text. -/
def Stmt.render : Stmt → String
  | .expression e => parenthesize [";", e.render]
  | .print e => parenthesize ["print", e.render]
  | .varDecl name initializer => parenthesize ("var" :: name.text :: renderOption initializer)
  | .block body => parenthesize ("block" :: Stmt.renderList body)
  | .branch condition yes none => parenthesize ["if", condition.render, yes.render]
  | .branch condition yes (some no) =>
    parenthesize ["if", condition.render, yes.render, no.render]
  | .loop condition body => parenthesize ["while", condition.render, body.render]
  | .funDecl function => FunDecl.render function
  | .result _ value => parenthesize ("return" :: renderOption value)
  | .classDecl name superclass methods =>
    parenthesize ("class" :: name.text :: renderSuperclass superclass ++ FunDecl.renderList methods)

/-- The texts of several statements. -/
def Stmt.renderList : List Stmt → List String
  | [] => []
  | s :: rest => s.render :: Stmt.renderList rest

/-- A function as text. -/
def FunDecl.render : FunDecl → String
  | ⟨name, params, body⟩ =>
    let head := name.text ++ "(" ++ String.intercalate " " (params.map (·.text)) ++ ")"
    parenthesize ("fun" :: head :: Stmt.renderList body)

/-- The texts of several functions. -/
def FunDecl.renderList : List FunDecl → List String
  | [] => []
  | f :: rest => FunDecl.render f :: FunDecl.renderList rest

end

end Lox
