import Lox.Proofs.Scope.Late
import Lox.Scope.Resolve

/-!
# What stands around a place

The rules for names speak about the text: which scopes a place stands in, what
was declared in each of them before the place, and which function and which
class are around it. Here a place is described by that text and by nothing
else, and the places of a program that the rules are about are listed in the
order in which they are looked at. None of this follows the walk that finds the
errors and the distances.
-/

namespace Lox

/-- What a scope of statements belongs to. -/
inductive Opener where
  /-- A block. -/
  | block
  /-- A function that is no method. -/
  | function
  /-- A method of the given name. -/
  | method (name : String)
  deriving DecidableEq, Repr

/-- What one step outward from a place leads through. -/
inductive Layer where
  /-- A scope of statements: its parameters, and the statements that begin before
  the place, latest first. A place inside a statement comes after its beginning. -/
  | statements (opener : Opener) (params : List Name) (begun : List Stmt)
  /-- The methods of a class, with or without a superclass. -/
  | methods (derived : Bool)

/-- The names that a scope of statements has. -/
def Layer.names (params : List Name) (begun : List Stmt) : List String :=
  params.map (·.text) ++ begun.flatMap Stmt.declared

/-- The names of the scopes of a layer, innermost first. -/
def Layer.scopes : Layer → List (List String)
  | .statements _ params begun => [names params begun]
  | .methods false => [["this"]]
  | .methods true => [["this"], ["super"]]

/-- What stands around a place, innermost first. The top level is no layer. -/
abbrev Surroundings := List Layer

namespace Surroundings

/-- The names of the scopes around a place, innermost first. -/
def scopes (around : Surroundings) : List (List String) := around.flatMap Layer.scopes

/-- The place inside a statement, and also the place behind it. -/
def start (around : Surroundings) (s : Stmt) : Surroundings :=
  match around with
  | .statements opener params begun :: outer => .statements opener params (s :: begun) :: outer
  | other => other

/-- The innermost function or method around a place. -/
def body? : Surroundings → Option Opener
  | [] => none
  | .statements .block _ _ :: outer => body? outer
  | .statements opener _ _ :: _ => some opener
  | .methods _ :: outer => body? outer

/-- Whether the innermost class around a place has a superclass. -/
def class? : Surroundings → Option Bool
  | [] => none
  | .statements _ _ _ :: outer => class? outer
  | .methods derived :: _ => some derived

/-- The names of the innermost scope; the top level has none. -/
def innermost (around : Surroundings) : List String := around.scopes.headD []

/-- Whether a place is inside the statement that declares a variable, and nothing
before it in its scope has the name. -/
def Initializes (around : Surroundings) (text : String) : Prop :=
  match around with
  | .statements _ params (.varDecl name _ :: earlier) :: _ =>
    name.text = text ∧ text ∉ Layer.names params earlier
  | _ => False

/-- A name is bound a number of scopes out from a place: that scope has it, and no
nearer one has. -/
def Binds (around : Surroundings) (text : String) (distance : Nat) : Prop :=
  (∃ names, around.scopes[distance]? = some names ∧ text ∈ names) ∧
    ∀ nearer < distance, ∀ names, around.scopes[nearer]? = some names → text ∉ names

end Surroundings

/-- What a rule about names can be about. -/
inductive Site where
  /-- The name that a declaration or a parameter gives. -/
  | declares (name : Name)
  /-- A use of a name or of one of the two keywords. -/
  | reference (r : Reference)
  /-- The name of a superclass, in the declaration of a class. -/
  | inherits (name superclass : Name)
  /-- A `return` with or without a value. -/
  | returns (line : Nat) (hasValue : Bool)

/-- A site of a program and what stands around it. -/
structure Occurrence where
  /-- What stands around it. -/
  around : Surroundings
  /-- What is there. -/
  site : Site

/-- The reference at a place, if there is one. -/
def Occurrence.reference? (o : Occurrence) : Option Reference :=
  match o.site with
  | .reference r => some r
  | _ => none

mutual

/-- The sites of an expression. A value comes before what it is assigned to. -/
def Expr.occurrences (around : Surroundings) : Expr → List Occurrence
  | .literal _ => []
  | .group inner => inner.occurrences around
  | .unary _ _ operand => operand.occurrences around
  | .binary _ _ left right => left.occurrences around ++ right.occurrences around
  | .logical _ _ left right => left.occurrences around ++ right.occurrences around
  | .var ref => [⟨around, .reference ⟨.read, ref⟩⟩]
  | .assign ref value => value.occurrences around ++ [⟨around, .reference ⟨.assign, ref⟩⟩]
  | .call callee arguments _ =>
    callee.occurrences around ++ Expr.occurrencesList around arguments
  | .get object _ => object.occurrences around
  | .set object _ value => value.occurrences around ++ object.occurrences around
  | .this id line => [⟨around, .reference ⟨.this, ⟨id, thisName line⟩⟩⟩]
  | .super id line _ => [⟨around, .reference ⟨.super, ⟨id, superName line⟩⟩⟩]

/-- The sites of several expressions. -/
def Expr.occurrencesList (around : Surroundings) : List Expr → List Occurrence
  | [] => []
  | e :: rest => e.occurrences around ++ Expr.occurrencesList around rest

end

/-- The sites of an expression that may be missing. -/
def occurrencesOption (around : Surroundings) : Option Expr → List Occurrence
  | none => []
  | some e => e.occurrences around

/-- The sites of the name of a superclass. -/
def occurrencesParent (around : Surroundings) (name : Name) : Option Ref → List Occurrence
  | none => []
  | some ref => [⟨around, .inherits name ref.name⟩, ⟨around, .reference ⟨.read, ref⟩⟩]

/-- The sites of parameters, each declared after the ones before it. -/
def occurrencesParams (around : Surroundings) (opener : Opener) (earlier : List Name) :
    List Name → List Occurrence
  | [] => []
  | name :: rest =>
    ⟨.statements opener earlier [] :: around, .declares name⟩ ::
      occurrencesParams around opener (earlier ++ [name]) rest

mutual

/-- The sites of a statement. The name of a declaration is looked at before the
declaration begins, all else inside it. -/
def Stmt.occurrences (around : Surroundings) : Stmt → List Occurrence
  | .expression e => e.occurrences (around.start (.expression e))
  | .print e => e.occurrences (around.start (.print e))
  | .varDecl name initializer =>
    ⟨around, .declares name⟩ ::
      occurrencesOption (around.start (.varDecl name initializer)) initializer
  | .block body =>
    Stmt.occurrencesList (.statements .block [] [] :: around.start (.block body)) body
  | .branch condition yes none =>
    let inside := around.start (.branch condition yes none)
    condition.occurrences inside ++ yes.occurrences inside
  | .branch condition yes (some no) =>
    let inside := around.start (.branch condition yes (some no))
    condition.occurrences inside ++ yes.occurrences inside ++ no.occurrences inside
  | .loop condition body =>
    let inside := around.start (.loop condition body)
    condition.occurrences inside ++ body.occurrences inside
  | .funDecl function =>
    ⟨around, .declares function.name⟩ ::
      FunDecl.occurrences (around.start (.funDecl function)) .function function
  | .result line value =>
    ⟨around.start (.result line value), .returns line value.isSome⟩ ::
      occurrencesOption (around.start (.result line value)) value
  | .classDecl name superclass methods =>
    let inside := around.start (.classDecl name superclass methods)
    ⟨around, .declares name⟩ ::
      (occurrencesParent inside name superclass ++
        FunDecl.occurrencesList (.methods superclass.isSome :: inside) methods)

/-- The sites of statements that follow each other in one scope. -/
def Stmt.occurrencesList (around : Surroundings) : List Stmt → List Occurrence
  | [] => []
  | s :: rest => s.occurrences around ++ Stmt.occurrencesList (around.start s) rest

/-- The sites of a function: its parameters and its body are in one scope. -/
def FunDecl.occurrences (around : Surroundings) (opener : Opener) : FunDecl → List Occurrence
  | ⟨_, params, body⟩ =>
    occurrencesParams around opener [] params ++
      Stmt.occurrencesList (.statements opener params [] :: around) body

/-- The sites of the methods of a class. -/
def FunDecl.occurrencesList (around : Surroundings) : List FunDecl → List Occurrence
  | [] => []
  | method :: rest =>
    FunDecl.occurrences around (.method method.name.text) method ++
      FunDecl.occurrencesList around rest

end

/-- What the language forbids, rule by rule. -/
inductive Occurrence.Wrong : Occurrence → ScopeError → Prop
  /-- A name is declared that its scope has already. -/
  | duplicateDeclaration {around : Surroundings} {name : Name}
      (taken : name.text ∈ around.innermost) :
      Wrong ⟨around, .declares name⟩ ⟨name, .duplicateDeclaration⟩
  /-- A variable is read while its own first value is worked out. -/
  | selfReferentialInitializer {around : Surroundings} {ref : Ref}
      (initializes : around.Initializes ref.name.text) :
      Wrong ⟨around, .reference ⟨.read, ref⟩⟩ ⟨ref.name, .selfReferentialInitializer⟩
  /-- A `return` stands in no function. -/
  | returnOutsideFunction {around : Surroundings} {line : Nat} {hasValue : Bool}
      (outside : around.body? = none) :
      Wrong ⟨around, .returns line hasValue⟩ ⟨⟨"return", line⟩, .returnOutsideFunction⟩
  /-- An initializer returns a value. -/
  | returnValueFromInitializer {around : Surroundings} {line : Nat}
      (inside : around.body? = some (.method "init")) :
      Wrong ⟨around, .returns line true⟩ ⟨⟨"return", line⟩, .returnValueFromInitializer⟩
  /-- A class names itself as its superclass. -/
  | selfInheritance {around : Surroundings} {name superclass : Name}
      (same : superclass.text = name.text) :
      Wrong ⟨around, .inherits name superclass⟩ ⟨superclass, .selfInheritance⟩
  /-- A `this` stands in no class. -/
  | thisOutsideClass {around : Surroundings} {ref : Ref} (outside : around.class? = none) :
      Wrong ⟨around, .reference ⟨.this, ref⟩⟩ ⟨ref.name, .thisOutsideClass⟩
  /-- A `super` stands in no class. -/
  | superOutsideClass {around : Surroundings} {ref : Ref} (outside : around.class? = none) :
      Wrong ⟨around, .reference ⟨.super, ref⟩⟩ ⟨ref.name, .superOutsideClass⟩
  /-- A `super` stands in a class that inherits from none. -/
  | superWithoutSuperclass {around : Surroundings} {ref : Ref}
      (base : around.class? = some false) :
      Wrong ⟨around, .reference ⟨.super, ref⟩⟩ ⟨ref.name, .superWithoutSuperclass⟩

/-- The errors are those of the sites, each site in its turn: a site against the
rules has the one error that the rules give it, any other site has none. -/
inductive Reports : List Occurrence → List ScopeError → Prop
  | nil : Reports [] []
  | right {o : Occurrence} {rest : List Occurrence} {errors : List ScopeError}
      (h : ∀ error, ¬ o.Wrong error) (later : Reports rest errors) : Reports (o :: rest) errors
  | wrong {o : Occurrence} {rest : List Occurrence} {error : ScopeError}
      {errors : List ScopeError} (h : ∀ other, o.Wrong other ↔ other = error)
      (later : Reports rest errors) : Reports (o :: rest) (error :: errors)

/-- Errors of sites one after the other are reported one after the other. -/
theorem Reports.append {first second : List Occurrence} {a b : List ScopeError}
    (ha : Reports first a) (hb : Reports second b) : Reports (first ++ second) (a ++ b) := by
  induction ha with
  | nil => exact hb
  | right h _ ih => exact .right h ih
  | wrong h _ ih => exact .wrong h ih

/-! ## The references among the sites -/

/-- The references at some places. -/
def Occurrence.uses (os : List Occurrence) : List Reference :=
  os.filterMap Occurrence.reference?

/-- References among sites are those of each part. -/
theorem Occurrence.uses_append (first second : List Occurrence) :
    uses (first ++ second) = uses first ++ uses second :=
  List.filterMap_append

/-- Parameters are no references. -/
theorem uses_occurrencesParams (around : Surroundings) (opener : Opener)
    (earlier params : List Name) :
    Occurrence.uses (occurrencesParams around opener earlier params) = [] := by
  induction params generalizing earlier with
  | nil => rfl
  | cons name rest ih => exact ih (earlier ++ [name])

open Occurrence in
mutual

/-- Every reference of an expression is at one site; only the order is another. -/
theorem Expr.references_perm (around : Surroundings) :
    ∀ e : Expr, (uses (e.occurrences around)).Perm e.references
  | .literal _ => .refl _
  | .group inner => inner.references_perm around
  | .unary _ _ operand => operand.references_perm around
  | .binary _ _ left right => by
    rw [Expr.occurrences, uses_append]
    exact (left.references_perm around).append (right.references_perm around)
  | .logical _ _ left right => by
    rw [Expr.occurrences, uses_append]
    exact (left.references_perm around).append (right.references_perm around)
  | .var _ => .refl _
  | .assign _ value => by
    rw [Expr.occurrences, uses_append]
    exact List.perm_append_comm.trans ((value.references_perm around).cons _)
  | .call callee arguments _ => by
    rw [Expr.occurrences, uses_append]
    exact (callee.references_perm around).append (Expr.referencesList_perm around arguments)
  | .get object _ => object.references_perm around
  | .set object _ value => by
    rw [Expr.occurrences, uses_append]
    exact List.perm_append_comm.trans
      ((object.references_perm around).append (value.references_perm around))
  | .this _ _ => .refl _
  | .super _ _ _ => .refl _

/-- The references among the sites of several expressions are those of the expressions. -/
theorem Expr.referencesList_perm (around : Surroundings) :
    ∀ es : List Expr,
      (uses (Expr.occurrencesList around es)).Perm (Expr.referencesList es)
  | [] => .refl _
  | e :: rest => by
    rw [Expr.occurrencesList, uses_append]
    exact (e.references_perm around).append (Expr.referencesList_perm around rest)

end

/-- So are those of an expression that may be missing. -/
theorem referencesOption_perm (around : Surroundings) (e : Option Expr) :
    (Occurrence.uses (occurrencesOption around e)).Perm (referencesOption e) := by
  cases e with
  | none => exact .refl _
  | some e => exact e.references_perm around

open Occurrence in
mutual

/-- The references among the sites of a statement are those of the statement, in some order. -/
theorem Stmt.references_perm (around : Surroundings) :
    ∀ s : Stmt, (uses (s.occurrences around)).Perm s.references
  | .expression e => e.references_perm _
  | .print e => e.references_perm _
  | .varDecl _ initializer => referencesOption_perm _ initializer
  | .block body => Stmt.referencesList_perm _ body
  | .branch condition yes none => by
    rw [Stmt.occurrences, uses_append]
    exact (condition.references_perm _).append (yes.references_perm _)
  | .branch condition yes (some no) => by
    rw [Stmt.occurrences, uses_append, uses_append]
    exact ((condition.references_perm _).append (yes.references_perm _)).append
      (no.references_perm _)
  | .loop condition body => by
    rw [Stmt.occurrences, uses_append]
    exact (condition.references_perm _).append (body.references_perm _)
  | .funDecl function => FunDecl.references_perm _ .function function
  | .result _ value => referencesOption_perm _ value
  | .classDecl name superclass methods => by
    have hparent : uses (occurrencesParent (around.start (.classDecl name superclass methods))
        name superclass) = (superclass.map (Reference.mk .read)).toList := by
      cases superclass <;> rfl
    rw [Stmt.occurrences, ← List.singleton_append, uses_append, uses_append, hparent]
    exact (FunDecl.referencesList_perm _ methods).append_left _

/-- So are those of several statements. -/
theorem Stmt.referencesList_perm (around : Surroundings) :
    ∀ ss : List Stmt,
      (uses (Stmt.occurrencesList around ss)).Perm (Stmt.referencesList ss)
  | [] => .refl _
  | s :: rest => by
    rw [Stmt.occurrencesList, uses_append]
    exact (s.references_perm around).append (Stmt.referencesList_perm _ rest)

/-- So are those of a function. -/
theorem FunDecl.references_perm (around : Surroundings) (opener : Opener) :
    ∀ f : FunDecl,
      (uses (FunDecl.occurrences around opener f)).Perm (FunDecl.references f)
  | ⟨_, params, body⟩ => by
    rw [FunDecl.occurrences, uses_append, uses_occurrencesParams]
    exact Stmt.referencesList_perm _ body

/-- So are those of the methods of a class. -/
theorem FunDecl.referencesList_perm (around : Surroundings) :
    ∀ fs : List FunDecl,
      (uses (FunDecl.occurrencesList around fs)).Perm (FunDecl.referencesList fs)
  | [] => .refl _
  | f :: rest => by
    rw [FunDecl.occurrencesList, uses_append]
    exact (FunDecl.references_perm around _ f).append (FunDecl.referencesList_perm around rest)

end

end Lox
