import Lox.Tree

/-!
# Trees compared

Whether two syntax trees are the same can be computed, node by node. Expressions hold lists of
expressions, and statements hold lists of functions that hold statements, so every list has a
comparison of its own beside that of its elements.
-/

namespace Lox

/-! ### Expressions -/

mutual

/-- Whether two expressions are the same, with their identities and lines. -/
def Expr.same : Expr → Expr → Bool
  | .literal value, .literal value' => value == value'
  | .group inner, .group inner' => inner.same inner'
  | .unary op line operand, .unary op' line' operand' =>
    op == op' && line == line' && operand.same operand'
  | .binary op line left right, .binary op' line' left' right' =>
    op == op' && line == line' && left.same left' && right.same right'
  | .logical op line left right, .logical op' line' left' right' =>
    op == op' && line == line' && left.same left' && right.same right'
  | .var ref, .var ref' => ref == ref'
  | .assign ref value, .assign ref' value' => ref == ref' && value.same value'
  | .call callee arguments line, .call callee' arguments' line' =>
    callee.same callee' && Expr.sameList arguments arguments' && line == line'
  | .get object name, .get object' name' => object.same object' && name == name'
  | .set object name value, .set object' name' value' =>
    object.same object' && name == name' && value.same value'
  | .this id line, .this id' line' => id == id' && line == line'
  | .super id line method, .super id' line' method' =>
    id == id' && line == line' && method == method'
  | _, _ => false

/-- Whether two lists hold the same expressions. -/
def Expr.sameList : List Expr → List Expr → Bool
  | [], [] => true
  | e :: rest, e' :: rest' => e.same e' && Expr.sameList rest rest'
  | _, _ => false

end

mutual

/-- The comparison of expressions tells exactly the equal ones. -/
theorem Expr.same_iff : ∀ e e' : Expr, e.same e' = true ↔ e = e'
  | .literal _, e' | .var _, e' | .this _ _, e' | .super _ _ _, e' => by
    cases e' <;> simp [Expr.same, and_assoc]
  | .group inner, e' => by
    cases e' <;> simp [Expr.same, Expr.same_iff inner]
  | .unary _ _ operand, e' => by
    cases e' <;> simp [Expr.same, Expr.same_iff operand, and_assoc]
  | .binary _ _ left right, e' | .logical _ _ left right, e' => by
    cases e' <;> simp [Expr.same, Expr.same_iff left, Expr.same_iff right, and_assoc]
  | .assign _ value, e' => by
    cases e' <;> simp [Expr.same, Expr.same_iff value]
  | .call callee arguments _, e' => by
    cases e' <;> simp [Expr.same, Expr.same_iff callee, Expr.sameList_iff arguments, and_assoc]
  | .get object _, e' => by
    cases e' <;> simp [Expr.same, Expr.same_iff object]
  | .set object _ value, e' => by
    cases e' <;> simp [Expr.same, Expr.same_iff object, Expr.same_iff value, and_assoc]

/-- The comparison of lists of expressions tells exactly the equal ones. -/
theorem Expr.sameList_iff : ∀ es es' : List Expr, Expr.sameList es es' = true ↔ es = es'
  | [], es' => by
    cases es' <;> simp [Expr.sameList]
  | e :: rest, es' => by
    cases es' <;> simp [Expr.sameList, Expr.same_iff e, Expr.sameList_iff rest]

end

/-- Equality of expressions is decided by comparing them. -/
instance : DecidableEq Expr := fun e e' => decidable_of_iff _ (Expr.same_iff e e')

/-! ### Statements and functions -/

mutual

/-- Whether two statements are the same, with their identities and lines. -/
def Stmt.same : Stmt → Stmt → Bool
  | .expression e, .expression e' => e == e'
  | .print e, .print e' => e == e'
  | .varDecl name initializer, .varDecl name' initializer' =>
    name == name' && initializer == initializer'
  | .block body, .block body' => Stmt.sameList body body'
  | .branch condition yes none, .branch condition' yes' none =>
    condition == condition' && yes.same yes'
  | .branch condition yes (some no), .branch condition' yes' (some no') =>
    condition == condition' && yes.same yes' && no.same no'
  | .loop condition body, .loop condition' body' =>
    condition == condition' && body.same body'
  | .funDecl function, .funDecl function' => FunDecl.same function function'
  | .result line value, .result line' value' => line == line' && value == value'
  | .classDecl name superclass methods, .classDecl name' superclass' methods' =>
    name == name' && superclass == superclass' && FunDecl.sameList methods methods'
  | _, _ => false

/-- Whether two lists hold the same statements. -/
def Stmt.sameList : List Stmt → List Stmt → Bool
  | [], [] => true
  | s :: rest, s' :: rest' => s.same s' && Stmt.sameList rest rest'
  | _, _ => false

/-- Whether two functions have the same name, parameters and body. -/
def FunDecl.same : FunDecl → FunDecl → Bool
  | ⟨name, params, body⟩, ⟨name', params', body'⟩ =>
    name == name' && params == params' && Stmt.sameList body body'

/-- Whether two lists hold the same functions. -/
def FunDecl.sameList : List FunDecl → List FunDecl → Bool
  | [], [] => true
  | f :: rest, f' :: rest' => FunDecl.same f f' && FunDecl.sameList rest rest'
  | _, _ => false

end

mutual

/-- The comparison of statements tells exactly the equal ones. -/
theorem Stmt.same_iff : ∀ s s' : Stmt, s.same s' = true ↔ s = s'
  | .expression _, s' | .print _, s' | .varDecl _ _, s' | .result _ _, s' => by
    cases s' <;> simp [Stmt.same]
  | .block body, s' => by
    cases s' <;> simp [Stmt.same, Stmt.sameList_iff body]
  | .branch _ yes none, s' => by
    rcases s' with _ | _ | _ | _ | ⟨_, _, _ | _⟩ | _ | _ | _ | _ <;>
      simp [Stmt.same, Stmt.same_iff yes]
  | .branch _ yes (some no), s' => by
    rcases s' with _ | _ | _ | _ | ⟨_, _, _ | _⟩ | _ | _ | _ | _ <;>
      simp [Stmt.same, Stmt.same_iff yes, Stmt.same_iff no, and_assoc]
  | .loop _ body, s' => by
    cases s' <;> simp [Stmt.same, Stmt.same_iff body]
  | .funDecl function, s' => by
    cases s' <;> simp [Stmt.same, FunDecl.same_iff function]
  | .classDecl _ _ methods, s' => by
    cases s' <;> simp [Stmt.same, FunDecl.sameList_iff methods, and_assoc]

/-- The comparison of lists of statements tells exactly the equal ones. -/
theorem Stmt.sameList_iff : ∀ ss ss' : List Stmt, Stmt.sameList ss ss' = true ↔ ss = ss'
  | [], ss' => by
    cases ss' <;> simp [Stmt.sameList]
  | s :: rest, ss' => by
    cases ss' <;> simp [Stmt.sameList, Stmt.same_iff s, Stmt.sameList_iff rest]

/-- The comparison of functions tells exactly the equal ones. -/
theorem FunDecl.same_iff : ∀ f f' : FunDecl, FunDecl.same f f' = true ↔ f = f'
  | ⟨_, _, body⟩, ⟨_, _, body'⟩ => by
    simp [FunDecl.same, Stmt.sameList_iff body, and_assoc]

/-- The comparison of lists of functions tells exactly the equal ones. -/
theorem FunDecl.sameList_iff :
    ∀ fs fs' : List FunDecl, FunDecl.sameList fs fs' = true ↔ fs = fs'
  | [], fs' => by
    cases fs' <;> simp [FunDecl.sameList]
  | f :: rest, fs' => by
    cases fs' <;> simp [FunDecl.sameList, FunDecl.same_iff f, FunDecl.sameList_iff rest]

end

/-- Equality of statements is decided by comparing them. -/
instance : DecidableEq Stmt := fun s s' => decidable_of_iff _ (Stmt.same_iff s s')

end Lox
