import Lox.Proofs.Scope.Resolution
import Lox.Proofs.Tokens

/-!
# Trees further down a source

A tree with other identities, and with lines that are all greater by one number.
The trees of a source that stands behind another one are of this kind. Reading,
and what is found about scopes, do not depend on where identities and lines
start.
-/

namespace Lox

/-! ### Trees -/

/-- A name further down by `l` lines. -/
def Name.shift (l : Nat) (name : Name) : Name := ⟨name.text, name.line + l⟩

/-- A reference with an identity changed by `g`, further down by `l` lines. -/
def Ref.shift (g : Nat → Nat) (l : Nat) (ref : Ref) : Ref := ⟨g ref.id, ref.name.shift l⟩

mutual

/-- An expression with identities changed by `g`, further down by `l` lines. -/
def Expr.shift (g : Nat → Nat) (l : Nat) : Expr → Expr
  | .literal value => .literal value
  | .group inner => .group (inner.shift g l)
  | .unary op line operand => .unary op (line + l) (operand.shift g l)
  | .binary op line left right => .binary op (line + l) (left.shift g l) (right.shift g l)
  | .logical op line left right => .logical op (line + l) (left.shift g l) (right.shift g l)
  | .var ref => .var (ref.shift g l)
  | .assign ref value => .assign (ref.shift g l) (value.shift g l)
  | .call callee arguments line =>
    .call (callee.shift g l) (Expr.shiftList g l arguments) (line + l)
  | .get object name => .get (object.shift g l) (name.shift l)
  | .set object name value => .set (object.shift g l) (name.shift l) (value.shift g l)
  | .this id line => .this (g id) (line + l)
  | .super id line method => .super (g id) (line + l) (method.shift l)

/-- Several expressions with other identities, further down. -/
def Expr.shiftList (g : Nat → Nat) (l : Nat) : List Expr → List Expr
  | [] => []
  | e :: rest => e.shift g l :: Expr.shiftList g l rest

end

mutual

/-- A statement with identities changed by `g`, further down by `l` lines. -/
def Stmt.shift (g : Nat → Nat) (l : Nat) : Stmt → Stmt
  | .expression e => .expression (e.shift g l)
  | .print e => .print (e.shift g l)
  | .varDecl name initializer => .varDecl (name.shift l) (initializer.map (·.shift g l))
  | .block body => .block (Stmt.shiftList g l body)
  | .branch condition yes none => .branch (condition.shift g l) (yes.shift g l) none
  | .branch condition yes (some no) =>
    .branch (condition.shift g l) (yes.shift g l) (some (no.shift g l))
  | .loop condition body => .loop (condition.shift g l) (body.shift g l)
  | .funDecl function => .funDecl (FunDecl.shift g l function)
  | .result line value => .result (line + l) (value.map (·.shift g l))
  | .classDecl name superclass methods =>
    .classDecl (name.shift l) (superclass.map (·.shift g l)) (FunDecl.shiftList g l methods)

/-- Several statements with other identities, further down. -/
def Stmt.shiftList (g : Nat → Nat) (l : Nat) : List Stmt → List Stmt
  | [] => []
  | s :: rest => s.shift g l :: Stmt.shiftList g l rest

/-- A function with other identities, further down. -/
def FunDecl.shift (g : Nat → Nat) (l : Nat) : FunDecl → FunDecl
  | ⟨name, params, body⟩ => ⟨name.shift l, params.map (·.shift l), Stmt.shiftList g l body⟩

/-- Several functions with other identities, further down. -/
def FunDecl.shiftList (g : Nat → Nat) (l : Nat) : List FunDecl → List FunDecl
  | [] => []
  | f :: rest => FunDecl.shift g l f :: FunDecl.shiftList g l rest

end

/-! ### Identities -/

mutual

/-- A number that is greater than all identities of an expression. -/
def Expr.bound : Expr → Nat
  | .literal _ => 0
  | .group inner => inner.bound
  | .unary _ _ operand => operand.bound
  | .binary _ _ left right | .logical _ _ left right => max left.bound right.bound
  | .var ref => ref.id + 1
  | .assign ref value => max (ref.id + 1) value.bound
  | .call callee arguments _ => max callee.bound (Expr.boundList arguments)
  | .get object _ => object.bound
  | .set object _ value => max object.bound value.bound
  | .this id _ | .super id _ _ => id + 1

/-- A number that is greater than all identities of several expressions. -/
def Expr.boundList : List Expr → Nat
  | [] => 0
  | e :: rest => max e.bound (Expr.boundList rest)

end

/-- A number that is greater than all identities of an expression, if there is one. -/
def boundOption : Option Expr → Nat
  | none => 0
  | some e => e.bound

mutual

/-- A number that is greater than all identities of a statement. -/
def Stmt.bound : Stmt → Nat
  | .expression e | .print e => e.bound
  | .varDecl _ initializer => boundOption initializer
  | .block body => Stmt.boundList body
  | .branch condition yes none => max condition.bound yes.bound
  | .branch condition yes (some no) => max condition.bound (max yes.bound no.bound)
  | .loop condition body => max condition.bound body.bound
  | .funDecl function => FunDecl.bound function
  | .result _ value => boundOption value
  | .classDecl _ none methods => FunDecl.boundList methods
  | .classDecl _ (some ref) methods => max (ref.id + 1) (FunDecl.boundList methods)

/-- A number that is greater than all identities of several statements. -/
def Stmt.boundList : List Stmt → Nat
  | [] => 0
  | s :: rest => max s.bound (Stmt.boundList rest)

/-- A number that is greater than all identities of a function. -/
def FunDecl.bound : FunDecl → Nat
  | ⟨_, _, body⟩ => Stmt.boundList body

/-- A number that is greater than all identities of several functions. -/
def FunDecl.boundList : List FunDecl → Nat
  | [] => 0
  | f :: rest => max (FunDecl.bound f) (FunDecl.boundList rest)

end

/-! ### Changes of identities that agree -/

section Congruence

variable {g h : Nat → Nat} {n : Nat} (l : Nat)

/-- A tree does not tell apart two changes that agree on its identities. -/
theorem Ref.shift_congr (hsame : ∀ id, id < n → g id = h id) {ref : Ref}
    (hid : ref.id < n) : ref.shift g l = ref.shift h l := by
  unfold Ref.shift
  rw [hsame ref.id hid]

mutual

/-- An expression does not tell apart two changes that agree on its identities. -/
theorem Expr.shift_congr (hsame : ∀ id, id < n → g id = h id) :
    ∀ e : Expr, e.bound ≤ n → e.shift g l = e.shift h l
  | .literal _, _ => rfl
  | .group inner, hb => congrArg Expr.group (inner.shift_congr hsame hb)
  | .unary op line operand, hb =>
    congrArg (Expr.unary op (line + l)) (operand.shift_congr hsame hb)
  | .binary _ _ left right, hb | .logical _ _ left right, hb => by
    obtain ⟨hleft, hright⟩ := Nat.max_le.1 hb
    rw [Expr.shift, Expr.shift, left.shift_congr hsame hleft, right.shift_congr hsame hright]
  | .var ref, hb => congrArg Expr.var (Ref.shift_congr l hsame hb)
  | .assign ref value, hb => by
    obtain ⟨href, hvalue⟩ := Nat.max_le.1 hb
    rw [Expr.shift, Expr.shift, Ref.shift_congr l hsame href, value.shift_congr hsame hvalue]
  | .call callee arguments _, hb => by
    obtain ⟨hcallee, harguments⟩ := Nat.max_le.1 hb
    rw [Expr.shift, Expr.shift, callee.shift_congr hsame hcallee,
      Expr.shiftList_congr hsame arguments harguments]
  | .get object name, hb => by
    rw [Expr.shift, Expr.shift, object.shift_congr hsame hb]
  | .set object _ value, hb => by
    obtain ⟨hobject, hvalue⟩ := Nat.max_le.1 hb
    rw [Expr.shift, Expr.shift, object.shift_congr hsame hobject, value.shift_congr hsame hvalue]
  | .this id line, hb | .super id line _, hb => by
    rw [Expr.shift, Expr.shift, hsame id hb]

/-- Several expressions do not tell apart two changes that agree on their identities. -/
theorem Expr.shiftList_congr (hsame : ∀ id, id < n → g id = h id) :
    ∀ es : List Expr, Expr.boundList es ≤ n → Expr.shiftList g l es = Expr.shiftList h l es
  | [], _ => rfl
  | e :: rest, hb => by
    obtain ⟨he, hrest⟩ := Nat.max_le.1 hb
    rw [Expr.shiftList, Expr.shiftList, e.shift_congr hsame he,
      Expr.shiftList_congr hsame rest hrest]

end

/-- An expression that may be missing does not tell apart two changes that agree on its
identities. -/
theorem shiftOption_congr (hsame : ∀ id, id < n → g id = h id) {e : Option Expr}
    (hb : boundOption e ≤ n) : e.map (·.shift g l) = e.map (·.shift h l) := by
  cases e with
  | none => rfl
  | some e => exact congrArg some (e.shift_congr l hsame hb)

mutual

/-- A statement does not tell apart two changes that agree on its identities. -/
theorem Stmt.shift_congr (hsame : ∀ id, id < n → g id = h id) :
    ∀ s : Stmt, s.bound ≤ n → s.shift g l = s.shift h l
  | .expression e, hb => congrArg Stmt.expression (e.shift_congr l hsame hb)
  | .print e, hb => congrArg Stmt.print (e.shift_congr l hsame hb)
  | .varDecl _ _, hb => by
    rw [Stmt.shift, Stmt.shift, shiftOption_congr l hsame hb]
  | .block body, hb => congrArg Stmt.block (Stmt.shiftList_congr hsame body hb)
  | .branch condition yes none, hb => by
    obtain ⟨hcondition, hyes⟩ := Nat.max_le.1 hb
    rw [Stmt.shift, Stmt.shift, condition.shift_congr l hsame hcondition,
      yes.shift_congr hsame hyes]
  | .branch condition yes (some no), hb => by
    obtain ⟨hcondition, hbranches⟩ := Nat.max_le.1 hb
    obtain ⟨hyes, hno⟩ := Nat.max_le.1 hbranches
    rw [Stmt.shift, Stmt.shift, condition.shift_congr l hsame hcondition,
      yes.shift_congr hsame hyes, no.shift_congr hsame hno]
  | .loop condition body, hb => by
    obtain ⟨hcondition, hbody⟩ := Nat.max_le.1 hb
    rw [Stmt.shift, Stmt.shift, condition.shift_congr l hsame hcondition,
      body.shift_congr hsame hbody]
  | .funDecl function, hb => congrArg Stmt.funDecl (FunDecl.shift_congr hsame function hb)
  | .result _ _, hb => by
    rw [Stmt.shift, Stmt.shift, shiftOption_congr l hsame hb]
  | .classDecl name none methods, hb => by
    rw [Stmt.shift, Stmt.shift, FunDecl.shiftList_congr hsame methods hb]
    rfl
  | .classDecl name (some ref) methods, hb => by
    obtain ⟨href, hmethods⟩ := Nat.max_le.1 hb
    rw [Stmt.shift, Stmt.shift, FunDecl.shiftList_congr hsame methods hmethods, Option.map_some,
      Ref.shift_congr l hsame href]
    rfl

/-- Several statements do not tell apart two changes that agree on their identities. -/
theorem Stmt.shiftList_congr (hsame : ∀ id, id < n → g id = h id) :
    ∀ ss : List Stmt, Stmt.boundList ss ≤ n → Stmt.shiftList g l ss = Stmt.shiftList h l ss
  | [], _ => rfl
  | s :: rest, hb => by
    obtain ⟨hs, hrest⟩ := Nat.max_le.1 hb
    rw [Stmt.shiftList, Stmt.shiftList, s.shift_congr hsame hs,
      Stmt.shiftList_congr hsame rest hrest]

/-- A function does not tell apart two changes that agree on the identities in its body. -/
theorem FunDecl.shift_congr (hsame : ∀ id, id < n → g id = h id) :
    ∀ f : FunDecl, FunDecl.bound f ≤ n → FunDecl.shift g l f = FunDecl.shift h l f
  | ⟨_, _, body⟩, hb => by
    rw [FunDecl.shift, FunDecl.shift, Stmt.shiftList_congr hsame body hb]

/-- Several functions do not tell apart two changes that agree on their identities. -/
theorem FunDecl.shiftList_congr (hsame : ∀ id, id < n → g id = h id) :
    ∀ fs : List FunDecl, FunDecl.boundList fs ≤ n →
      FunDecl.shiftList g l fs = FunDecl.shiftList h l fs
  | [], _ => rfl
  | f :: rest, hb => by
    obtain ⟨hf, hrest⟩ := Nat.max_le.1 hb
    rw [FunDecl.shiftList, FunDecl.shiftList, FunDecl.shift_congr hsame f hf,
      FunDecl.shiftList_congr hsame rest hrest]

end

end Congruence

/-! ### Scopes -/

section Findings

variable (g : Nat → Nat) (l : Nat)

/-- Findings about a tree with other identities, further down. -/
def Findings.shift (findings : Findings) : Findings where
  distances := findings.distances.map fun p => (g p.1, p.2)
  errors := findings.errors.map fun e => ⟨e.place.shift l, e.cause⟩

/-- Findings that follow one another are moved one after the other. -/
theorem Findings.shift_append (a b : Findings) :
    (a ++ b).shift g l = a.shift g l ++ b.shift g l := by
  change Findings.mk _ _ = Findings.mk _ _
  rw [distances_append, errors_append, List.map_append, List.map_append]
  rfl

/-- An error that is found under a condition is found under the same one further down. -/
theorem Findings.shift_errorIf (condition : Bool) (place : Name) (cause : ScopeCause) :
    (errorIf condition place cause).shift g l = errorIf condition (place.shift l) cause := by
  cases condition <;> rfl

namespace Context

variable (Γ : Context)

/-- The distance of a reference is found by its name, so the finding differs in the
identity only. -/
theorem locate_shift (ref : Ref) : Γ.locate (ref.shift g l) = (Γ.locate ref).shift g l := by
  have htext : (ref.shift g l).name.text = ref.name.text := rfl
  rw [locate, locate, htext]
  cases Γ.distance? ref.name.text <;> rfl

/-- A variable is read further down as it is read here. -/
theorem read_shift (ref : Ref) : Γ.read (ref.shift g l) = (Γ.read ref).shift g l := by
  rw [read, read, Findings.shift_append, Findings.shift_errorIf, locate_shift]
  rfl

/-- Whether a name may be introduced does not depend on its line. -/
theorem introduce_shift (name : Name) :
    Γ.introduce (name.shift l) = (Γ.introduce name).shift g l := by
  rw [introduce, introduce, Findings.shift_errorIf]
  rfl

/-- A `this` has the same distance further down, and it is in error outside of classes
there as well. -/
theorem readThis_shift (id line : Nat) :
    Γ.readThis (g id) (line + l) = (Γ.readThis id line).shift g l := by
  unfold readThis
  split
  · rw [Findings.shift_errorIf]
    rfl
  · exact locate_shift g l Γ ⟨id, thisName line⟩

/-- A `super` has the same distance further down, and it is in error in the same classes
there as well. -/
theorem readSuper_shift (id line : Nat) :
    Γ.readSuper (g id) (line + l) = (Γ.readSuper id line).shift g l := by
  unfold readSuper
  rw [Findings.shift_append, Findings.shift_append, Findings.shift_errorIf,
    Findings.shift_errorIf, ← locate_shift]
  rfl

/-- Whether a `return` may stand somewhere does not depend on its line. -/
theorem returned_shift (line : Nat) (hasValue : Bool) :
    Γ.returned (line + l) hasValue = (Γ.returned line hasValue).shift g l := by
  unfold returned
  rw [Findings.shift_append, Findings.shift_errorIf, Findings.shift_errorIf]
  rfl

/-- Parameters clash by their names, not by their lines. -/
theorem parameters_shift (params : List Name) :
    Γ.parameters (params.map (·.shift l)) = (Γ.parameters params).shift g l := by
  induction params generalizing Γ with
  | nil => rfl
  | cons name rest ih =>
    rw [List.map_cons, parameters, parameters, Findings.shift_append, introduce_shift g l, ← ih]
    rfl

/-- A function body has the same context further down. -/
theorem inFunction_shift (b : Body) (params : List Name) :
    Γ.inFunction b (params.map (·.shift l)) = Γ.inFunction b params := by
  unfold inFunction
  rw [List.foldl_map]
  rfl

/-- A class that inherits from itself does so by its name. -/
theorem superclass_shift (className : Name) (superclass : Option Ref) :
    Γ.superclass (className.shift l) (superclass.map (·.shift g l)) =
      (Γ.superclass className superclass).shift g l := by
  cases superclass with
  | none => rfl
  | some ref =>
    rw [Option.map_some, Context.superclass, Context.superclass, Findings.shift_append,
      Findings.shift_errorIf, ← read_shift]
    rfl

/-- What a statement declares is known by its name. -/
theorem after_shift (s : Stmt) : Γ.after (s.shift g l) = Γ.after s := by
  cases s with
  | branch condition yes no => cases no <;> rfl
  | funDecl function =>
    obtain ⟨name, params, body⟩ := function
    rfl
  | _ => rfl

end Context

mutual

/-- What is found in an expression further down is what is found in it, further down. -/
theorem Expr.resolve_shift (Γ : Context) :
    ∀ e : Expr, (e.shift g l).resolve Γ = (e.resolve Γ).shift g l
  | .literal _ => rfl
  | .group inner => inner.resolve_shift Γ
  | .unary _ _ operand => operand.resolve_shift Γ
  | .binary _ _ left right | .logical _ _ left right => by
    rw [Expr.shift, Expr.resolve, Expr.resolve, Findings.shift_append, left.resolve_shift Γ,
      right.resolve_shift Γ]
  | .var ref => Γ.read_shift g l ref
  | .assign ref value => by
    rw [Expr.shift, Expr.resolve, Expr.resolve, Findings.shift_append, value.resolve_shift Γ,
      Context.locate_shift]
  | .call callee arguments _ => by
    rw [Expr.shift, Expr.resolve, Expr.resolve, Findings.shift_append, callee.resolve_shift Γ,
      Expr.resolveList_shift Γ arguments]
  | .get object _ => object.resolve_shift Γ
  | .set object _ value => by
    rw [Expr.shift, Expr.resolve, Expr.resolve, Findings.shift_append, value.resolve_shift Γ,
      object.resolve_shift Γ]
  | .this id line => Γ.readThis_shift g l id line
  | .super id line _ => Γ.readSuper_shift g l id line

/-- What is found in several expressions further down is what is found in them, further down. -/
theorem Expr.resolveList_shift (Γ : Context) :
    ∀ es : List Expr, Expr.resolveList Γ (Expr.shiftList g l es) =
      (Expr.resolveList Γ es).shift g l
  | [] => rfl
  | e :: rest => by
    rw [Expr.shiftList, Expr.resolveList, Expr.resolveList, Findings.shift_append,
      e.resolve_shift Γ, Expr.resolveList_shift Γ rest]

end

/-- What is found in an expression that may be missing is what is found in it, further down. -/
theorem resolveOption_shift (Γ : Context) (e : Option Expr) :
    resolveOption Γ (e.map (·.shift g l)) = (resolveOption Γ e).shift g l := by
  cases e with
  | none => rfl
  | some e => exact e.resolve_shift g l Γ

mutual

/-- What is found in a statement further down is what is found in it, further down. -/
theorem Stmt.resolve_shift (Γ : Context) :
    ∀ s : Stmt, (s.shift g l).resolve Γ = (s.resolve Γ).shift g l
  | .expression e | .print e => e.resolve_shift g l Γ
  | .varDecl name initializer => by
    rw [Stmt.shift, Stmt.resolve, Stmt.resolve, Findings.shift_append,
      Context.introduce_shift g l, resolveOption_shift]
    rfl
  | .block body => Stmt.resolveList_shift (Γ.enter []) body
  | .branch condition yes none => by
    rw [Stmt.shift, Stmt.resolve, Stmt.resolve, Findings.shift_append,
      condition.resolve_shift g l Γ, yes.resolve_shift Γ]
  | .branch condition yes (some no) => by
    rw [Stmt.shift, Stmt.resolve, Stmt.resolve, Findings.shift_append, Findings.shift_append,
      condition.resolve_shift g l Γ, yes.resolve_shift Γ, no.resolve_shift Γ]
  | .loop condition body => by
    rw [Stmt.shift, Stmt.resolve, Stmt.resolve, Findings.shift_append,
      condition.resolve_shift g l Γ, body.resolve_shift Γ]
  | .funDecl ⟨name, params, body⟩ => by
    rw [Stmt.shift, Stmt.resolve, Stmt.resolve, Findings.shift_append,
      ← FunDecl.resolve_shift _ _ ⟨name, params, body⟩]
    exact congrArg (· ++ _) (Γ.introduce_shift g l name)
  | .result line value => by
    rw [Stmt.shift, Stmt.resolve, Stmt.resolve, Findings.shift_append, ← resolveOption_shift,
      ← Context.returned_shift, Option.isSome_map]
  | .classDecl name superclass methods => by
    rw [Stmt.shift, Stmt.resolve, Stmt.resolve, Findings.shift_append, Findings.shift_append,
      ← FunDecl.resolveList_shift, ← Context.superclass_shift, ← Context.introduce_shift,
      Option.isSome_map]
    rfl

/-- What is found in several statements further down is what is found in them, further down. -/
theorem Stmt.resolveList_shift (Γ : Context) :
    ∀ ss : List Stmt, Stmt.resolveList Γ (Stmt.shiftList g l ss) =
      (Stmt.resolveList Γ ss).shift g l
  | [] => rfl
  | s :: rest => by
    rw [Stmt.shiftList, Stmt.resolveList, Stmt.resolveList, Findings.shift_append,
      s.resolve_shift Γ, Context.after_shift, Stmt.resolveList_shift _ rest]

/-- What is found in a function further down is what is found in it, further down. -/
theorem FunDecl.resolve_shift (Γ : Context) (b : Body) :
    ∀ f : FunDecl, FunDecl.resolve Γ b (FunDecl.shift g l f) = (FunDecl.resolve Γ b f).shift g l
  | ⟨_, params, body⟩ => by
    rw [FunDecl.shift, FunDecl.resolve, FunDecl.resolve, Findings.shift_append,
      Context.parameters_shift g l, Context.inFunction_shift, Stmt.resolveList_shift _ body]

/-- What is found in several methods further down is what is found in them, further down. -/
theorem FunDecl.resolveList_shift (Γ : Context) :
    ∀ fs : List FunDecl, FunDecl.resolveList Γ (FunDecl.shiftList g l fs) =
      (FunDecl.resolveList Γ fs).shift g l
  | [] => rfl
  | f :: rest => by
    rw [FunDecl.shiftList, FunDecl.resolveList, FunDecl.resolveList, Findings.shift_append,
      ← FunDecl.resolve_shift _ _ f, FunDecl.resolveList_shift _ rest]
    obtain ⟨name, params, body⟩ := f
    rfl

end

end Findings

/-! ### Initializers -/

section Initializers

variable (g : Nat → Nat) (l : Nat)

mutual

/-- An expression assigns to the same names further down. -/
theorem Expr.assignsTo_shift (text : String) :
    ∀ e : Expr, (e.shift g l).assignsTo text = e.assignsTo text
  | .literal _ | .var _ | .this _ _ | .super _ _ _ => rfl
  | .group inner => inner.assignsTo_shift text
  | .unary _ _ operand => operand.assignsTo_shift text
  | .binary _ _ left right | .logical _ _ left right => by
    rw [Expr.shift, Expr.assignsTo, Expr.assignsTo, left.assignsTo_shift text,
      right.assignsTo_shift text]
  | .assign ref value => by
    rw [Expr.shift, Expr.assignsTo, Expr.assignsTo, value.assignsTo_shift text]
    rfl
  | .call callee arguments _ => by
    rw [Expr.shift, Expr.assignsTo, Expr.assignsTo, callee.assignsTo_shift text,
      Expr.assignsToList_shift text arguments]
  | .get object _ => object.assignsTo_shift text
  | .set object _ value => by
    rw [Expr.shift, Expr.assignsTo, Expr.assignsTo, object.assignsTo_shift text,
      value.assignsTo_shift text]

/-- Several expressions assign to the same names further down. -/
theorem Expr.assignsToList_shift (text : String) :
    ∀ es : List Expr, Expr.assignsToList text (Expr.shiftList g l es) = Expr.assignsToList text es
  | [] => rfl
  | e :: rest => by
    rw [Expr.shiftList, Expr.assignsToList, Expr.assignsToList, e.assignsTo_shift text,
      Expr.assignsToList_shift text rest]

end

mutual

/-- A statement assigns to a variable in its own initializer, or does not, wherever it stands. -/
theorem Stmt.assignsOwnInitializer_shift (isLocal : Bool) :
    ∀ s : Stmt, (s.shift g l).assignsOwnInitializer isLocal = s.assignsOwnInitializer isLocal
  | .expression _ | .print _ | .result _ _ => rfl
  | .varDecl name none => rfl
  | .varDecl name (some e) => congrArg (isLocal && ·) (e.assignsTo_shift g l name.text)
  | .block body => Stmt.assignsOwnInitializerList_shift true body
  | .branch _ yes none => yes.assignsOwnInitializer_shift isLocal
  | .branch _ yes (some no) => by
    rw [Stmt.shift, Stmt.assignsOwnInitializer, Stmt.assignsOwnInitializer,
      yes.assignsOwnInitializer_shift isLocal, no.assignsOwnInitializer_shift isLocal]
  | .loop _ body => body.assignsOwnInitializer_shift isLocal
  | .funDecl function => FunDecl.assignsOwnInitializer_shift function
  | .classDecl _ _ methods => FunDecl.assignsOwnInitializerList_shift methods

/-- Several statements have such an assignment among them, or have none, wherever they stand. -/
theorem Stmt.assignsOwnInitializerList_shift (isLocal : Bool) :
    ∀ ss : List Stmt, Stmt.assignsOwnInitializerList isLocal (Stmt.shiftList g l ss) =
      Stmt.assignsOwnInitializerList isLocal ss
  | [] => rfl
  | s :: rest => by
    rw [Stmt.shiftList, Stmt.assignsOwnInitializerList, Stmt.assignsOwnInitializerList,
      s.assignsOwnInitializer_shift isLocal, Stmt.assignsOwnInitializerList_shift isLocal rest]

/-- A function has such an assignment in its body, or has none, wherever it stands. -/
theorem FunDecl.assignsOwnInitializer_shift :
    ∀ f : FunDecl, FunDecl.assignsOwnInitializer (FunDecl.shift g l f) =
      FunDecl.assignsOwnInitializer f
  | ⟨_, _, body⟩ => Stmt.assignsOwnInitializerList_shift true body

/-- Several functions have such an assignment among them, or have none, wherever they stand. -/
theorem FunDecl.assignsOwnInitializerList_shift :
    ∀ fs : List FunDecl, FunDecl.assignsOwnInitializerList (FunDecl.shiftList g l fs) =
      FunDecl.assignsOwnInitializerList fs
  | [] => rfl
  | f :: rest => by
    rw [FunDecl.shiftList, FunDecl.assignsOwnInitializerList, FunDecl.assignsOwnInitializerList,
      FunDecl.assignsOwnInitializer_shift f, FunDecl.assignsOwnInitializerList_shift rest]

end

end Initializers

namespace Grammar

/-! ### Derivations -/

section Derivations

variable (g : Nat → Nat) (l : Nat)

/-- A phrase with other identities, further down. -/
def Phrase.shift : Phrase → Phrase
  | .primary e => .primary (e.shift g l)
  | .call e => .call (e.shift g l)
  | .unary e => .unary (e.shift g l)
  | .operation levels e => .operation levels (e.shift g l)
  | .expression e => .expression (e.shift g l)
  | .list es => .list (Expr.shiftList g l es)
  | .arguments es => .arguments (Expr.shiftList g l es)

/-- An operation further down is that of its operands further down, on its own line. -/
theorem Operator.shift_tree (op : Operator) (line : Nat) (a b : Expr) :
    (op.tree line a b).shift g l = op.tree (line + l) (a.shift g l) (b.shift g l) := by
  cases op <;> rfl

/-- A call has as many arguments further down. -/
theorem length_shiftList (es : List Expr) : (Expr.shiftList g l es).length = es.length := by
  induction es with
  | nil => rfl
  | cons e rest ih => rw [Expr.shiftList, List.length_cons, List.length_cons, ih]

/-- A sentence with other identities, further down. -/
def Sentence.shift : Sentence → Sentence
  | .declaration s => .declaration (s.shift g l)
  | .declarations ss => .declarations (Stmt.shiftList g l ss)
  | .statement o s => .statement o (s.shift g l)
  | .function f => .function (FunDecl.shift g l f)
  | .functions fs => .functions (FunDecl.shiftList g l fs)

/-- The increment of a loop goes behind its body further down as well. -/
theorem shift_followedBy (body : Stmt) (increment : Option Expr) :
    (followedBy body increment).shift g l =
      followedBy (body.shift g l) (increment.map (·.shift g l)) := by
  cases increment <;> rfl

/-- The first clause of a loop goes in front of it further down as well. -/
theorem shift_precededBy (loop : Stmt) (first : Option Stmt) :
    (precededBy loop first).shift g l =
      precededBy (loop.shift g l) (first.map (·.shift g l)) := by
  cases first <;> rfl

/-- A condition that is missing is true further down as well: a literal has neither line
nor identity. -/
theorem shift_condition (condition : Option Expr) :
    (condition.getD (.literal (.bool true))).shift g l =
      (condition.map (·.shift g l)).getD (.literal (.bool true)) := by
  cases condition <;> rfl

/-- From `n` on, identities are counted one by one. -/
def Counts (g : Nat → Nat) (n : Nat) : Prop := ∀ k, n ≤ k → g (k + 1) = g k + 1

variable {g}

/-- Identities that are counted from some number on are counted from any later one on. -/
theorem Counts.later {n m : Nat} (h : Counts g n) (hle : n ≤ m) : Counts g m :=
  fun k hk => h k (Nat.le_trans hle hk)

/-- Tokens further down derive the trees further down. -/
theorem Phrase.Derives.shift {p : Phrase} {n m : Nat} {ts : List Token} (h : p.Derives n ts m)
    (hg : Counts g n) : (p.shift g l).Derives (g n) (ts.map (·.shift l)) (g m) := by
  induction h with
  | literal h => exact .literal h
  | @name t n h =>
    rw [hg n (Nat.le_refl _)]
    exact .name (t := t.shift l) h
  | @this t n h =>
    rw [hg n (Nat.le_refl _)]
    exact .this (t := t.shift l) h
  | @super s d t n hs hd ht =>
    rw [hg n (Nat.le_refl _)]
    exact .super (s := s.shift l) (d := d.shift l) (t := t.shift l) hs hd ht
  | @group b r e ts n m hl he hr ih =>
    rw [List.map_cons, List.map_append]
    exact .group (l := b.shift l) (r := r.shift l) hl (ih hg) hr
  | primary _ ih => exact .primary (ih hg)
  | @property d t e ts n m _ hd ht ih =>
    rw [List.map_append]
    exact .property (d := d.shift l) (t := t.shift l) (ih hg) hd ht
  | @invocation b r e es ts us n m k he hl _ hmax hr ihe ihes =>
    have hle := (he.within .top).1
    rw [List.map_append, List.map_cons, List.map_append]
    rw [← length_shiftList g l] at hmax
    exact .invocation (l := b.shift l) (r := r.shift l) (ihe hg) hl (ihes (hg.later hle)) hmax hr
  | noArguments => exact .noArguments
  | someArguments _ ih => exact .someArguments (ih hg)
  | last _ ih => exact .last (ih hg)
  | @more c _ _ _ _ _ _ _ he hc _ ihe ihes =>
    have hle := (he.within .top).1
    rw [List.map_append, List.map_cons]
    exact .more (c := c.shift l) (ihe hg) hc (ihes (hg.later hle))
  | operand _ ih => exact .operand (ih hg)
  | @applied t s op e ts n m ht hs _ ih => exact .applied (t := t.shift l) ht hs (ih hg)
  | tightest _ ih => exact .tightest (ih hg)
  | tighter _ ih => exact .tighter (ih hg)
  | @joined t s op level levels a b ts us n m k ha ht hs _ iha ihb =>
    have hle := (ha.within .top).1
    rw [Phrase.shift, Operator.shift_tree, List.map_append, List.map_cons]
    exact .joined (t := t.shift l) (iha hg) ht hs (ihb (hg.later hle))
  | operation _ ih => exact .operation (ih hg)
  | @assign t q e ts n m ht hq he ih =>
    have hle := (he.within .top).1
    have hvalue := ih (hg.later (Nat.le_succ _))
    rw [hg n (Nat.le_refl _)] at hvalue
    rw [hg m (by omega), List.map_cons, List.map_cons]
    exact .assign (t := t.shift l) (q := q.shift l) ht hq hvalue
  | @set d t q o e ts us n m k ho hd ht hq _ iho ihe =>
    have hle := (ho.within .top).1
    rw [List.map_append, List.map_cons, List.map_cons, List.map_cons]
    exact .set (d := d.shift l) (t := t.shift l) (q := q.shift l) (iho hg) hd ht hq
      (ihe (hg.later hle))

/-- An expression that may be left out is derived further down, or is left out there. -/
theorem Optional.shift {value : Option Expr} {n m : Nat} {ts : List Token}
    (h : Optional value n ts m) (hg : Counts g n) :
    Optional (value.map (·.shift g l)) (g n) (ts.map (·.shift l)) (g m) := by
  cases h with
  | none => exact .none
  | some h => exact .some (h.shift l hg)

/-- The initial value of a variable is derived further down, with its `=`. -/
theorem Initial.shift {value : Option Expr} {n m : Nat} {ts : List Token}
    (h : Initial value n ts m) (hg : Counts g n) :
    Initial (value.map (·.shift g l)) (g n) (ts.map (·.shift l)) (g m) := by
  cases h with
  | none => exact .none
  | @some q _ _ _ _ hq h => exact .some (q := q.shift l) hq (h.shift l hg)

/-- A declaration of a variable is derived further down. -/
theorem Variable.shift {s : Stmt} {n m : Nat} {ts : List Token} (h : Variable s n ts m)
    (hg : Counts g n) :
    Variable (s.shift g l) (g n) (ts.map (·.shift l)) (g m) := by
  cases h with
  | @mk t s _ _ _ _ ht h hs =>
    rw [List.map_cons, List.map_append]
    exact .mk (t := t.shift l) (s := s.shift l) ht (h.shift l hg) hs

/-- An expression with its semicolon is derived further down. -/
theorem Plain.shift {e : Expr} {n m : Nat} {ts : List Token} (h : Plain e n ts m)
    (hg : Counts g n) :
    Plain (e.shift g l) (g n) (ts.map (·.shift l)) (g m) := by
  cases h with
  | @mk s _ _ _ _ h hs =>
    rw [List.map_append]
    exact .mk (s := s.shift l) (h.shift l hg) hs

/-- The first clause of a `for` statement hands out identities in order. -/
theorem First.le {s : Option Stmt} {n m : Nat} {ts : List Token} (h : First s n ts m) :
    n ≤ m := by
  cases h with
  | none => exact Nat.le_refl _
  | varDecl _ h => exact (h.within .top).1
  | expression h => exact (h.within .top).1

/-- The first clause of a `for` statement is derived further down. -/
theorem First.shift {s : Option Stmt} {n m : Nat} {ts : List Token} (h : First s n ts m)
    (hg : Counts g n) :
    First (s.map (·.shift g l)) (g n) (ts.map (·.shift l)) (g m) := by
  cases h with
  | @none s _ hs => exact .none (s := s.shift l) hs
  | @varDecl v _ _ _ _ hv h => exact .varDecl (v := v.shift l) hv (h.shift l hg)
  | expression h => exact .expression (h.shift l hg)

/-- Parameters are derived further down, with the same commas. -/
theorem Parameters.shift {names : List Name} {ts : List Token} (h : Parameters names ts) :
    Parameters (names.map (·.shift l)) (ts.map (·.shift l)) := by
  induction h with
  | @last t h => exact .last (t := t.shift l) h
  | @more t c _ _ ht hc _ ih => exact .more (t := t.shift l) (c := c.shift l) ht hc ih

/-- A superclass is derived further down, with the identity that the second count gives it. -/
theorem Parent.shift {parent : Option Ref} {n m : Nat} {ts : List Token}
    (h : Parent parent n ts m) (hg : Counts g n) :
    Parent (parent.map (·.shift g l)) (g n) (ts.map (·.shift l)) (g m) := by
  cases h with
  | none => exact .none
  | @some b t n hl ht =>
    rw [hg n (Nat.le_refl _)]
    exact .some (l := b.shift l) (t := t.shift l) hl ht

/-- Tokens further down derive the trees further down. -/
theorem Sentence.Derives.shift {nearest : Bool} {p : Sentence} {n m : Nat} {ts : List Token}
    (h : p.Derives nearest n ts m) (hg : Counts g n) :
    (p.shift g l).Derives nearest (g n) (ts.map (·.shift l)) (g m) := by
  induction h with
  | statement _ ih => exact .statement (ih hg)
  | @varDecl v _ _ _ _ hv h => exact .varDecl (v := v.shift l) hv (h.shift l hg)
  | @funDecl w _ _ _ _ hw _ ih => exact .funDecl (w := w.shift l) hw (ih hg)
  | @classDecl w t b r _ _ _ _ _ _ _ hw ht hp hl _ hr ih =>
    have hle := (hp.within .top t.asName).1
    simp only [List.map_cons, List.map_append]
    exact .classDecl (w := w.shift l) (t := t.shift l) (l := b.shift l) (r := r.shift l) hw ht
      (hp.shift l hg) hl (ih (hg.later hle)) hr
  | noMethods => exact .noMethods
  | methods hf _ ihf ihfs =>
    rw [List.map_append]
    exact .methods (ihf hg) (ihfs (hg.later hf.within.1))
  | @functionWithout t b r b' c _ _ _ _ ht hl hr hb _ hc ih =>
    simp only [List.map_cons, List.map_append]
    exact .functionWithout (t := t.shift l) (l := b.shift l) (r := r.shift l) (b := b'.shift l)
      (c := c.shift l) ht hl hr hb (ih hg) hc
  | @functionWith t b r b' c names _ _ _ _ _ ht hl hps hmax hr hb _ hc ih =>
    simp only [List.map_cons, List.map_append]
    rw [← List.length_map (Name.shift l)] at hmax
    exact .functionWith (t := t.shift l) (l := b.shift l) (r := r.shift l) (b := b'.shift l)
      (c := c.shift l) ht hl (hps.shift l) hmax hr hb (ih hg) hc
  | noDeclarations => exact .noDeclarations
  | declarations hs _ ihs ihss =>
    rw [List.map_append]
    exact .declarations (ihs hg) (ihss (hg.later hs.within.1))
  | expression h => exact .expression (h.shift l hg)
  | @print w _ _ _ _ hw h => exact .print (w := w.shift l) hw (h.shift l hg)
  | @result w s _ _ _ _ hw h hs =>
    simp only [List.map_cons, List.map_append]
    exact .result (w := w.shift l) (s := s.shift l) hw (h.shift l hg) hs
  | @block b r _ _ _ _ hl _ hr ih =>
    simp only [List.map_cons, List.map_append]
    exact .block (l := b.shift l) (r := r.shift l) hl (ih hg) hr
  | @branch w b r _ _ _ _ _ _ _ _ hw hl he hr _ ih =>
    have hle := (he.within .top).1
    simp only [List.map_cons, List.map_append]
    exact .branch (w := w.shift l) (l := b.shift l) (r := r.shift l) hw hl (he.shift l hg) hr
      (ih (hg.later hle))
  | @branchElse w b r q _ _ _ _ _ _ _ _ _ _ _ _ hw hl he hr hy hopen hq _ ihy ihn =>
    have hle := (he.within .top).1
    have hle' := Nat.le_trans hle hy.within.1
    simp only [List.map_cons, List.map_append]
    exact .branchElse (w := w.shift l) (l := b.shift l) (r := r.shift l) (q := q.shift l) hw hl
      (he.shift l hg) hr (ihy (hg.later hle)) hopen hq (ihn (hg.later hle'))
  | @loop w b r _ _ _ _ _ _ _ _ hw hl he hr _ ih =>
    have hle := (he.within .top).1
    simp only [List.map_cons, List.map_append]
    exact .loop (w := w.shift l) (l := b.shift l) (r := r.shift l) hw hl (he.shift l hg) hr
      (ih (hg.later hle))
  | @forLoop w b s r _ _ _ _ _ _ _ _ _ _ _ _ _ _ hw hl hf hc hs hi hr _ ih =>
    have hle := hf.le
    have hle' := Nat.le_trans hle (hc.within .top).1
    have hle'' := Nat.le_trans hle' (hi.within .top).1
    rw [Sentence.shift, shift_precededBy, Stmt.shift, shift_followedBy, shift_condition]
    simp only [List.map_cons, List.map_append]
    exact .forLoop (w := w.shift l) (l := b.shift l) (s := s.shift l) (r := r.shift l) hw hl
      (hf.shift l hg) (hc.shift l (hg.later hle)) hs (hi.shift l (hg.later hle')) hr
      (ih (hg.later hle''))

end Derivations

/-! ### Identities of derived trees -/

/-- A number that is greater than all identities of a phrase. -/
def Phrase.bound : Phrase → Nat
  | .primary e | .call e | .unary e | .operation _ e | .expression e => e.bound
  | .list es | .arguments es => Expr.boundList es

/-- An operation has no identities but those of its operands. -/
theorem Operator.bound_tree (op : Operator) (line : Nat) (a b : Expr) :
    (op.tree line a b).bound = max a.bound b.bound := by
  cases op <;> rfl

/-- A derivation hands out all identities of its tree. -/
theorem Phrase.Derives.bound_le {p : Phrase} {n m : Nat} {ts : List Token}
    (h : p.Derives n ts m) : p.bound ≤ m := by
  induction h with
  | literal | noArguments => exact Nat.zero_le _
  | name | this | super => exact Nat.le_refl _
  | group _ _ _ ih | property _ _ _ ih | applied _ _ _ ih => exact ih
  | primary _ ih | operand _ ih | tightest _ ih | tighter _ ih | operation _ ih
  | someArguments _ ih => exact ih
  | last _ ih => exact Nat.max_le.2 ⟨ih, Nat.zero_le _⟩
  | invocation _ _ hes _ _ ihe ihes | more _ _ hes ihe ihes =>
    have hle := (hes.within .top).1
    exact Nat.max_le.2 ⟨Nat.le_trans ihe hle, ihes⟩
  | joined _ _ _ hb iha ihb =>
    have hle := (hb.within .top).1
    rw [Phrase.bound, Operator.bound_tree]
    exact Nat.max_le.2 ⟨Nat.le_trans iha hle, ihb⟩
  | assign _ _ _ ih => exact Nat.max_le.2 ⟨Nat.le_refl _, Nat.le_succ_of_le ih⟩
  | set _ _ _ _ he iho ihe =>
    have hle := (he.within .top).1
    exact Nat.max_le.2 ⟨Nat.le_trans iho hle, ihe⟩

/-- An expression that may be left out has no identities but those its derivation hands out. -/
theorem Optional.bound_le {value : Option Expr} {n m : Nat} {ts : List Token}
    (h : Optional value n ts m) : boundOption value ≤ m := by
  cases h with
  | none => exact Nat.zero_le _
  | some h => exact h.bound_le

/-- A declaration of a variable has no identities but those its derivation hands out. -/
theorem Variable.bound_le {s : Stmt} {n m : Nat} {ts : List Token} (h : Variable s n ts m) :
    s.bound ≤ m := by
  cases h with
  | mk _ h _ =>
    cases h with
    | none => exact Nat.zero_le _
    | some _ h => exact h.bound_le

/-- An expression with its semicolon has no identities but those its derivation hands out. -/
theorem Plain.bound_le {e : Expr} {n m : Nat} {ts : List Token} (h : Plain e n ts m) :
    e.bound ≤ m := by
  cases h with
  | mk h _ => exact h.bound_le

/-- A number that is greater than all identities of a sentence. -/
def Sentence.bound : Sentence → Nat
  | .declaration s | .statement _ s => s.bound
  | .declarations ss => Stmt.boundList ss
  | .function f => FunDecl.bound f
  | .functions fs => FunDecl.boundList fs

/-- A loop with its clauses has no identities but those of its parts. -/
theorem bound_forLoop {first : Option Stmt} {condition increment : Option Expr} {body : Stmt}
    {m : Nat} (hf : ∀ s, first = some s → s.bound ≤ m) (hc : boundOption condition ≤ m)
    (hi : boundOption increment ≤ m) (hb : body.bound ≤ m) :
    (precededBy (.loop (condition.getD (.literal (.bool true))) (followedBy body increment))
      first).bound ≤ m := by
  have hcondition : (condition.getD (.literal (.bool true))).bound ≤ m := by
    cases condition with
    | none => exact Nat.zero_le _
    | some e => exact hc
  have hbody : (followedBy body increment).bound ≤ m := by
    cases increment with
    | none => exact hb
    | some e => exact Nat.max_le.2 ⟨hb, Nat.max_le.2 ⟨hi, Nat.zero_le _⟩⟩
  have hloop := Nat.max_le.2 ⟨hcondition, hbody⟩
  cases first with
  | none => exact hloop
  | some s => exact Nat.max_le.2 ⟨hf s rfl, Nat.max_le.2 ⟨hloop, Nat.zero_le _⟩⟩

/-- A derivation hands out all identities of its tree. -/
theorem Sentence.Derives.bound_le {nearest : Bool} {p : Sentence} {n m : Nat} {ts : List Token}
    (h : p.Derives nearest n ts m) : p.bound ≤ m := by
  induction h with
  | statement _ ih | funDecl _ _ ih | block _ _ _ ih => exact ih
  | functionWithout _ _ _ _ _ _ ih | functionWith _ _ _ _ _ _ _ _ ih => exact ih
  | noMethods | noDeclarations => exact Nat.zero_le _
  | varDecl _ h => exact h.bound_le
  | classDecl _ _ hp _ hfs _ ih =>
    cases hp with
    | none => exact ih
    | some => exact Nat.max_le.2 ⟨hfs.within.1, ih⟩
  | methods _ hfs ihf ihfs => exact Nat.max_le.2 ⟨Nat.le_trans ihf hfs.within.1, ihfs⟩
  | declarations _ hss ihs ihss => exact Nat.max_le.2 ⟨Nat.le_trans ihs hss.within.1, ihss⟩
  | expression h | print _ h => exact h.bound_le
  | result _ h _ => exact h.bound_le
  | branch _ _ he _ hy ih | loop _ _ he _ hy ih =>
    exact Nat.max_le.2 ⟨Nat.le_trans he.bound_le hy.within.1, ih⟩
  | branchElse _ _ he _ hy _ _ hn ihy ihn =>
    have hle := hn.within.1
    have hle' := Nat.le_trans hy.within.1 hle
    exact Nat.max_le.2 ⟨Nat.le_trans he.bound_le hle', Nat.max_le.2 ⟨Nat.le_trans ihy hle, ihn⟩⟩
  | forLoop _ _ hf hc _ hi _ hb ih =>
    have hle := hb.within.1
    have hle' := Nat.le_trans (hi.within .top).1 hle
    have hle'' := Nat.le_trans (hc.within .top).1 hle'
    refine bound_forLoop (fun s hs => ?_) (Nat.le_trans hc.bound_le hle')
      (Nat.le_trans hi.bound_le hle) ih
    cases hf with
    | none => cases hs
    | varDecl _ h =>
      cases hs
      exact Nat.le_trans h.bound_le hle''
    | expression h =>
      cases hs
      exact Nat.le_trans h.bound_le hle''

end Grammar

end Lox
