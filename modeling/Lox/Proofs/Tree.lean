import Lox.Tree.Render

/-!
# What a tree says

A tree without its identities and lines, and the literals that occur in a tree. Two trees
with the same bare tree have the same statements, operators, names, literals, grouping and
nesting; they may have been read at different places and times.
-/

namespace Lox

/-! ### Trees without identities and lines -/

/-- A name without its line. -/
def Name.bare (name : Name) : Name := ⟨name.text, 0⟩

/-- A reference without its identity and its line. -/
def Ref.bare (ref : Ref) : Ref := ⟨0, ref.name.bare⟩

mutual

/-- An expression without identities and lines. -/
def Expr.bare : Expr → Expr
  | .literal value => .literal value
  | .group inner => .group inner.bare
  | .unary op _ operand => .unary op 0 operand.bare
  | .binary op _ left right => .binary op 0 left.bare right.bare
  | .logical op _ left right => .logical op 0 left.bare right.bare
  | .var ref => .var ref.bare
  | .assign ref value => .assign ref.bare value.bare
  | .call callee arguments _ => .call callee.bare (Expr.bareList arguments) 0
  | .get object name => .get object.bare name.bare
  | .set object name value => .set object.bare name.bare value.bare
  | .this _ _ => .this 0 0
  | .super _ _ method => .super 0 0 method.bare

/-- Expressions without identities and lines. -/
def Expr.bareList : List Expr → List Expr
  | [] => []
  | e :: rest => e.bare :: Expr.bareList rest

end

mutual

/-- A statement without identities and lines. -/
def Stmt.bare : Stmt → Stmt
  | .expression e => .expression e.bare
  | .print e => .print e.bare
  | .varDecl name initializer => .varDecl name.bare (initializer.map Expr.bare)
  | .block body => .block (Stmt.bareList body)
  | .branch condition yes none => .branch condition.bare yes.bare none
  | .branch condition yes (some no) => .branch condition.bare yes.bare (some no.bare)
  | .loop condition body => .loop condition.bare body.bare
  | .funDecl function => .funDecl (FunDecl.bare function)
  | .result _ value => .result 0 (value.map Expr.bare)
  | .classDecl name superclass methods =>
    .classDecl name.bare (superclass.map Ref.bare) (FunDecl.bareList methods)

/-- Statements without identities and lines. -/
def Stmt.bareList : List Stmt → List Stmt
  | [] => []
  | s :: rest => s.bare :: Stmt.bareList rest

/-- A function without identities and lines. -/
def FunDecl.bare : FunDecl → FunDecl
  | ⟨name, params, body⟩ => ⟨name.bare, params.map Name.bare, Stmt.bareList body⟩

/-- Functions without identities and lines. -/
def FunDecl.bareList : List FunDecl → List FunDecl
  | [] => []
  | f :: rest => FunDecl.bare f :: FunDecl.bareList rest

end

/-! ### Literals -/

mutual

/-- The literals of an expression, in order. -/
def Expr.literals : Expr → List Literal
  | .literal value => [value]
  | .group inner => inner.literals
  | .unary _ _ operand => operand.literals
  | .binary _ _ left right => left.literals ++ right.literals
  | .logical _ _ left right => left.literals ++ right.literals
  | .var _ => []
  | .assign _ value => value.literals
  | .call callee arguments _ => callee.literals ++ Expr.literalsList arguments
  | .get object _ => object.literals
  | .set object _ value => object.literals ++ value.literals
  | .this _ _ => []
  | .super _ _ _ => []

/-- The literals of several expressions. -/
def Expr.literalsList : List Expr → List Literal
  | [] => []
  | e :: rest => e.literals ++ Expr.literalsList rest

end

/-- The literals of an expression that may be missing. -/
def literalsOption : Option Expr → List Literal
  | none => []
  | some e => e.literals

mutual

/-- The literals of a statement, in order. -/
def Stmt.literals : Stmt → List Literal
  | .expression e => e.literals
  | .print e => e.literals
  | .varDecl _ initializer => literalsOption initializer
  | .block body => Stmt.literalsList body
  | .branch condition yes none => condition.literals ++ yes.literals
  | .branch condition yes (some no) => condition.literals ++ yes.literals ++ no.literals
  | .loop condition body => condition.literals ++ body.literals
  | .funDecl function => FunDecl.literals function
  | .result _ value => literalsOption value
  | .classDecl _ _ methods => FunDecl.literalsList methods

/-- The literals of several statements. -/
def Stmt.literalsList : List Stmt → List Literal
  | [] => []
  | s :: rest => s.literals ++ Stmt.literalsList rest

/-- The literals of a function's body. -/
def FunDecl.literals : FunDecl → List Literal
  | ⟨_, _, body⟩ => Stmt.literalsList body

/-- The literals of several functions. -/
def FunDecl.literalsList : List FunDecl → List Literal
  | [] => []
  | f :: rest => FunDecl.literals f ++ FunDecl.literalsList rest

end

end Lox
