import Lox.Tree

/-!
# The references of a tree

Lists every occurrence that carries an identity, in the order of the tree: an
assignment before its value, an object before the value set on it, a
superclass before the methods.
-/

namespace Lox

/-- What kind of node an identity belongs to. -/
inductive Reference.Kind where
  | read
  | assign
  | this
  | super
  deriving DecidableEq, Repr

/-- A node that carries an identity. -/
structure Reference where
  /-- What the node is. -/
  kind : Reference.Kind
  /-- Its identity and its name or keyword. -/
  ref : Ref
  deriving DecidableEq, Repr

mutual

/-- The references of an expression. -/
def Expr.references : Expr → List Reference
  | .literal _ => []
  | .group inner => inner.references
  | .unary _ _ operand => operand.references
  | .binary _ _ left right => left.references ++ right.references
  | .logical _ _ left right => left.references ++ right.references
  | .var ref => [⟨.read, ref⟩]
  | .assign ref value => ⟨.assign, ref⟩ :: value.references
  | .call callee arguments _ => callee.references ++ Expr.referencesList arguments
  | .get object _ => object.references
  | .set object _ value => object.references ++ value.references
  | .this id line => [⟨.this, ⟨id, thisName line⟩⟩]
  | .super id line _ => [⟨.super, ⟨id, superName line⟩⟩]

/-- The references of several expressions. -/
def Expr.referencesList : List Expr → List Reference
  | [] => []
  | e :: rest => e.references ++ Expr.referencesList rest

end

/-- The references of an expression that may be missing. -/
def referencesOption : Option Expr → List Reference
  | none => []
  | some e => e.references

mutual

/-- The references of a statement. -/
def Stmt.references : Stmt → List Reference
  | .expression e => e.references
  | .print e => e.references
  | .varDecl _ initializer => referencesOption initializer
  | .block body => Stmt.referencesList body
  | .branch condition yes none => condition.references ++ yes.references
  | .branch condition yes (some no) => condition.references ++ yes.references ++ no.references
  | .loop condition body => condition.references ++ body.references
  | .funDecl function => FunDecl.references function
  | .result _ value => referencesOption value
  | .classDecl _ superclass methods =>
    (superclass.map (Reference.mk .read)).toList ++ FunDecl.referencesList methods

/-- The references of several statements. -/
def Stmt.referencesList : List Stmt → List Reference
  | [] => []
  | s :: rest => s.references ++ Stmt.referencesList rest

/-- The references of a function's body. -/
def FunDecl.references : FunDecl → List Reference
  | ⟨_, _, body⟩ => Stmt.referencesList body

/-- The references of several functions. -/
def FunDecl.referencesList : List FunDecl → List Reference
  | [] => []
  | f :: rest => FunDecl.references f ++ FunDecl.referencesList rest

end

end Lox
