import Lox.Proofs.Scope.Resolution
import Lox.Tree.Reference

/-!
# What is found belongs to the tree

Every distance that is found about a tree is the distance of one of its references.
This holds of all trees, with scope errors or without, and it does not depend on the
identities being different.
-/

namespace Lox

/-- What was found is about some of the given references. -/
def Findings.About (findings : Findings) (references : List Reference) : Prop :=
  ∀ p ∈ findings.distances, ∃ r ∈ references, r.ref.id = p.1

namespace Findings.About

variable {a b : Findings} {first second : List Reference}

/-- Nothing that was found is about anything. -/
theorem none (references : List Reference) : About .none references := nofun

/-- An error has no distance with it. -/
theorem errorIf (condition : Bool) (place : Name) (cause : ScopeCause)
    (references : List Reference) : (Findings.errorIf condition place cause).About references := by
  unfold About
  rw [distances_errorIf]
  nofun

/-- What is found one after the other is about the references one after the other. -/
theorem append (ha : a.About first) (hb : b.About second) : (a ++ b).About (first ++ second) := by
  intro p hp
  rw [distances_append] at hp
  rcases List.mem_append.1 hp with hp | hp
  · obtain ⟨r, hr, hid⟩ := ha p hp
    exact ⟨r, List.mem_append_left _ hr, hid⟩
  · obtain ⟨r, hr, hid⟩ := hb p hp
    exact ⟨r, List.mem_append_right _ hr, hid⟩

/-- The walk may come to the parts of a tree in another order. -/
theorem swap (h : a.About (first ++ second)) : a.About (second ++ first) := by
  intro p hp
  obtain ⟨r, hr, hid⟩ := h p hp
  exact ⟨r, List.mem_append.2 (List.mem_append.1 hr).symm, hid⟩

end Findings.About

namespace Context

variable (Γ : Context)

/-- A distance is found for the reference that is looked up. -/
theorem about_locate (kind : Reference.Kind) (ref : Ref) :
    (Γ.locate ref).About [⟨kind, ref⟩] := by
  intro p hp
  have hlocated := mem_locate.1 hp
  exact ⟨⟨kind, ref⟩, .head _, hlocated.1.symm⟩

/-- Reading a name finds a distance for that reading. -/
theorem about_read (ref : Ref) : (Γ.read ref).About [⟨.read, ref⟩] :=
  (Findings.About.errorIf _ _ _ []).append (Γ.about_locate .read ref)

/-- A `this` that is in a class finds a distance for itself. -/
theorem about_readThis (id line : Nat) :
    (Γ.readThis id line).About [⟨.this, ⟨id, thisName line⟩⟩] := by
  unfold readThis
  split
  · exact .errorIf _ _ _ _
  · exact Γ.about_locate .this _

/-- A `super` finds a distance for itself. -/
theorem about_readSuper (id line : Nat) :
    (Γ.readSuper id line).About [⟨.super, ⟨id, superName line⟩⟩] :=
  ((Findings.About.errorIf _ _ _ []).append (.errorIf _ _ _ [])).append (Γ.about_locate .super _)

/-- A superclass finds a distance for the reading of its name. -/
theorem about_superclass (className : Name) (superclass : Option Ref) :
    (Γ.superclass className superclass).About (superclass.map (Reference.mk .read)).toList := by
  cases superclass with
  | none => exact .none _
  | some ref => exact (Findings.About.errorIf _ _ _ []).append (Γ.about_read ref)

/-- Parameters are declared, which finds no distance. -/
theorem about_parameters (params : List Name) : (Γ.parameters params).About [] := by
  induction params generalizing Γ with
  | nil => exact .none _
  | cons name rest ih => exact (Findings.About.errorIf _ _ _ []).append (ih _)

end Context

mutual

/-- What is found in an expression is about its references. -/
theorem Expr.about_resolve (Γ : Context) : ∀ e : Expr, (e.resolve Γ).About e.references
  | .literal _ => .none _
  | .group inner => inner.about_resolve Γ
  | .unary _ _ operand => operand.about_resolve Γ
  | .binary _ _ left right => (left.about_resolve Γ).append (right.about_resolve Γ)
  | .logical _ _ left right => (left.about_resolve Γ).append (right.about_resolve Γ)
  | .var ref => Γ.about_read ref
  | .assign ref value => ((value.about_resolve Γ).append (Γ.about_locate .assign ref)).swap
  | .call callee arguments _ => (callee.about_resolve Γ).append (Expr.about_resolveList Γ arguments)
  | .get object _ => object.about_resolve Γ
  | .set object _ value => ((value.about_resolve Γ).append (object.about_resolve Γ)).swap
  | .this id line => Γ.about_readThis id line
  | .super id line _ => Γ.about_readSuper id line

/-- So is what is found in several expressions. -/
theorem Expr.about_resolveList (Γ : Context) :
    ∀ es : List Expr, (Expr.resolveList Γ es).About (Expr.referencesList es)
  | [] => .none _
  | e :: rest => (e.about_resolve Γ).append (Expr.about_resolveList Γ rest)

end

/-- So is what is found in an expression that may be missing. -/
theorem about_resolveOption (Γ : Context) (e : Option Expr) :
    (resolveOption Γ e).About (referencesOption e) := by
  cases e with
  | none => exact .none _
  | some e => exact e.about_resolve Γ

mutual

/-- What is found in a statement is about its references. -/
theorem Stmt.about_resolve (Γ : Context) : ∀ s : Stmt, (s.resolve Γ).About s.references
  | .expression e => e.about_resolve Γ
  | .print e => e.about_resolve Γ
  | .varDecl _ initializer =>
    (Findings.About.errorIf _ _ _ []).append (about_resolveOption _ initializer)
  | .block body => Stmt.about_resolveList _ body
  | .branch condition yes none => (condition.about_resolve Γ).append (yes.about_resolve Γ)
  | .branch condition yes (some no) =>
    ((condition.about_resolve Γ).append (yes.about_resolve Γ)).append (no.about_resolve Γ)
  | .loop condition body => (condition.about_resolve Γ).append (body.about_resolve Γ)
  | .funDecl function =>
    (Findings.About.errorIf _ _ _ []).append (FunDecl.about_resolve _ .function function)
  | .result _ value =>
    ((Findings.About.errorIf _ _ _ []).append (.errorIf _ _ _ [])).append
      (about_resolveOption Γ value)
  | .classDecl name superclass methods =>
    ((Findings.About.errorIf _ _ _ []).append (Context.about_superclass _ name superclass)).append
      (FunDecl.about_resolveList _ methods)

/-- So is what is found in several statements. -/
theorem Stmt.about_resolveList (Γ : Context) :
    ∀ ss : List Stmt, (Stmt.resolveList Γ ss).About (Stmt.referencesList ss)
  | [] => .none _
  | s :: rest => (s.about_resolve Γ).append (Stmt.about_resolveList _ rest)

/-- So is what is found in a function. -/
theorem FunDecl.about_resolve (Γ : Context) (body : Body) :
    ∀ f : FunDecl, (FunDecl.resolve Γ body f).About (FunDecl.references f)
  | ⟨_, params, statements⟩ =>
    (Context.about_parameters _ params).append (Stmt.about_resolveList _ statements)

/-- So is what is found in the methods of a class. -/
theorem FunDecl.about_resolveList (Γ : Context) :
    ∀ fs : List FunDecl, (FunDecl.resolveList Γ fs).About (FunDecl.referencesList fs)
  | [] => .none _
  | f :: rest => (FunDecl.about_resolve Γ _ f).append (FunDecl.about_resolveList Γ rest)

end

/-- Resolving a program finds distances of its own references only. -/
theorem about_resolveProgram (program : List Stmt) :
    (resolveProgram program).About (Stmt.referencesList program) :=
  Stmt.about_resolveList .top program

end Lox
