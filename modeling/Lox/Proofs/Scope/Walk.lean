import Lox.Proofs.Grammar.Proper
import Lox.Proofs.Scope.Errors

/-!
# One walk that changes its place

The distances and the errors of a program can be found by one walk that keeps a
single place and changes it as it goes: it opens a scope and closes it, marks a
name as declared and then as ready, and sets the kind of body and of class for as
long as it is inside. Whatever a statement does to the place on the way, it leaves
the place as it was, except for the names that it declares in the innermost scope.
On trees that can be read, the walk finds what is found with a place handed down
to every part of the tree.
-/

namespace Lox

/-- The scope once a name is ready: it is no longer only declared. -/
def Scope.ready (scope : Scope) (text : String) : Scope :=
  (text, true) :: scope.erase (text, false)

/-- A walk on its way. -/
structure Walker where
  /-- The place it is at. -/
  context : Context
  /-- What it found so far. -/
  found : Findings

namespace Walker

/-- A walk before its first step. -/
def start : Walker := ⟨.top, .none⟩

/-- Opens an empty scope. -/
def openScope (w : Walker) : Walker := { w with context := w.context.enter [] }

/-- Closes the innermost scope. -/
def closeScope (w : Walker) : Walker :=
  { w with context := { w.context with scopes := w.context.scopes.tail } }

/-- Adds what is found at the place. -/
def find (w : Walker) (look : Context → Findings) : Walker :=
  { w with found := w.found ++ look w.context }

/-- Declares a name in the innermost scope; it is not ready yet. -/
def declare (w : Walker) (name : Name) : Walker :=
  { w.find (·.introduce name) with context := w.context.declare name.text }

/-- Marks a name of the innermost scope as ready. -/
def define (w : Walker) (text : String) : Walker :=
  { w with context := w.context.onInnermost (·.ready text) }

/-- Sets the kind of body. -/
def setBody (w : Walker) (body : Body) : Walker :=
  { w with context := { w.context with body := body } }

/-- Sets the kind of class. -/
def setClass (w : Walker) (enclosing : Enclosing) : Walker :=
  { w with context := { w.context with enclosing := enclosing } }

/-- Declares parameters and marks each of them as ready. -/
def parameters (w : Walker) (params : List Name) : Walker :=
  params.foldl (fun w name => (w.declare name).define name.text) w

end Walker

mutual

/-- Walks through an expression. -/
def Expr.walk : Expr → Walker → Walker
  | .literal _, w => w
  | .group inner, w => inner.walk w
  | .unary _ _ operand, w => operand.walk w
  | .binary _ _ left right, w => right.walk (left.walk w)
  | .logical _ _ left right, w => right.walk (left.walk w)
  | .var ref, w => w.find (·.read ref)
  | .assign ref value, w => (value.walk w).find (·.locate ref)
  | .call callee arguments _, w => Expr.walkList arguments (callee.walk w)
  | .get object _, w => object.walk w
  | .set object _ value, w => object.walk (value.walk w)
  | .this id line, w => w.find (·.readThis id line)
  | .super id line _, w => w.find (·.readSuper id line)

/-- Walks through several expressions. -/
def Expr.walkList : List Expr → Walker → Walker
  | [], w => w
  | e :: rest, w => Expr.walkList rest (e.walk w)

end

/-- Walks through an expression that may be missing. -/
def walkOption : Option Expr → Walker → Walker
  | none, w => w
  | some e, w => e.walk w

mutual

/-- Walks through a statement. -/
def Stmt.walk : Stmt → Walker → Walker
  | .expression e, w => e.walk w
  | .print e, w => e.walk w
  | .varDecl name initializer, w => (walkOption initializer (w.declare name)).define name.text
  | .block body, w => (Stmt.walkList body w.openScope).closeScope
  | .branch condition yes none, w => yes.walk (condition.walk w)
  | .branch condition yes (some no), w => no.walk (yes.walk (condition.walk w))
  | .loop condition body, w => body.walk (condition.walk w)
  | .funDecl function, w =>
    FunDecl.walk .function function ((w.declare function.name).define function.name.text)
  | .result line value, w => walkOption value (w.find (·.returned line value.isSome))
  | .classDecl name none methods, w =>
    let named := ((w.setClass .base).declare name).define name.text
    let inside := named.openScope.define "this"
    (FunDecl.walkList methods inside).closeScope.setClass w.context.enclosing
  | .classDecl name (some ref) methods, w =>
    let named := ((w.setClass .base).declare name).define name.text
    let above := (named.setClass .derived).find (·.superclass name (some ref))
    let inside := (above.openScope.define "super").openScope.define "this"
    (FunDecl.walkList methods inside).closeScope.closeScope.setClass w.context.enclosing

/-- Walks through several statements. -/
def Stmt.walkList : List Stmt → Walker → Walker
  | [], w => w
  | s :: rest, w => Stmt.walkList rest (s.walk w)

/-- Walks through a function that has the given kind of body. -/
def FunDecl.walk (body : Body) : FunDecl → Walker → Walker
  | ⟨_, params, statements⟩, w =>
    let inside := (w.setBody body).openScope.parameters params
    (Stmt.walkList statements inside).closeScope.setBody w.context.body

/-- Walks through the methods of a class. -/
def FunDecl.walkList : List FunDecl → Walker → Walker
  | [], w => w
  | method :: rest, w =>
    FunDecl.walkList rest (FunDecl.walk (Body.ofMethod method.name.text) method w)

end

/-! ## The place at the end -/

/-- Two places that differ at most in the names of the innermost scope. -/
structure Context.Returns (before after : Context) : Prop where
  /-- As many scopes are open. -/
  height : after.scopes.length = before.scopes.length
  /-- The outer scopes are the same. -/
  outer : after.scopes.tail = before.scopes.tail
  /-- The kind of body is the same. -/
  body : after.body = before.body
  /-- The kind of class is the same. -/
  enclosing : after.enclosing = before.enclosing

namespace Context.Returns

variable {a b c : Context}

/-- A place differs in nothing from itself. -/
theorem refl (a : Context) : a.Returns a := ⟨rfl, rfl, rfl, rfl⟩

/-- Places that differ in their innermost scope only do so again and again. -/
theorem trans (hab : a.Returns b) (hbc : b.Returns c) : a.Returns c :=
  ⟨hbc.height.trans hab.height, hbc.outer.trans hab.outer, hbc.body.trans hab.body,
    hbc.enclosing.trans hab.enclosing⟩

/-- A change of the innermost scope changes nothing else. -/
theorem onInnermost (a : Context) (change : Scope → Scope) : a.Returns (a.onInnermost change) := by
  obtain ⟨scopes, body, enclosing⟩ := a
  cases scopes <;> exact ⟨rfl, rfl, rfl, rfl⟩

/-- Behind a statement only the innermost scope may differ. -/
theorem after (a : Context) (s : Stmt) : a.Returns (a.after s) := by
  cases s with
  | varDecl | funDecl | classDecl => exact onInnermost a _
  | _ => exact refl a

end Context.Returns

mutual

/-- An expression does not change the place. -/
theorem Expr.context_walk : ∀ (e : Expr) (w : Walker), (e.walk w).context = w.context
  | .literal _, _ => rfl
  | .group inner, w => inner.context_walk w
  | .unary _ _ operand, w => operand.context_walk w
  | .binary _ _ left right, w => (right.context_walk _).trans (left.context_walk w)
  | .logical _ _ left right, w => (right.context_walk _).trans (left.context_walk w)
  | .var _, _ => rfl
  | .assign _ value, w => value.context_walk w
  | .call callee arguments _, w =>
    (Expr.context_walkList arguments _).trans (callee.context_walk w)
  | .get object _, w => object.context_walk w
  | .set object _ value, w => (object.context_walk _).trans (value.context_walk w)
  | .this _ _, _ => rfl
  | .super _ _ _, _ => rfl

/-- Several expressions leave the place as it was. -/
theorem Expr.context_walkList :
    ∀ (es : List Expr) (w : Walker), (Expr.walkList es w).context = w.context
  | [], _ => rfl
  | e :: rest, w => (Expr.context_walkList rest _).trans (e.context_walk w)

end

/-- So does an expression that may be missing. -/
theorem context_walkOption (e : Option Expr) (w : Walker) :
    (walkOption e w).context = w.context := by
  cases e with
  | none => rfl
  | some e => exact e.context_walk w

namespace Walker

/-- Declaring a name changes the innermost scope only. -/
theorem returns_declare (w : Walker) (name : Name) :
    w.context.Returns (w.declare name).context :=
  .onInnermost _ _

/-- So does marking a name as ready. -/
theorem returns_define (w : Walker) (text : String) :
    w.context.Returns (w.define text).context :=
  .onInnermost _ _

/-- So do parameters. -/
theorem returns_parameters (w : Walker) (params : List Name) :
    w.context.Returns (w.parameters params).context := by
  induction params generalizing w with
  | nil => exact .refl _
  | cons name rest ih =>
    exact ((w.returns_declare name).trans (returns_define _ name.text)).trans (ih _)

end Walker

/-- A scope that was opened and closed again leaves nothing behind. -/
theorem Context.Returns.close {before : Context} {scope : Scope} {after : Walker}
    (h : (before.enter scope).Returns after.context) :
    after.closeScope.context = before := by
  obtain ⟨⟨scopes, body, enclosing⟩, found⟩ := after
  obtain ⟨houter, hbody, henclosing⟩ : scopes.tail = before.scopes ∧ body = before.body ∧
      enclosing = before.enclosing := ⟨h.outer, h.body, h.enclosing⟩
  simp only [Walker.closeScope, houter, hbody, henclosing]

mutual

/-- A statement changes at most the names of the innermost scope, whatever the
place it starts from. -/
theorem Stmt.returns_walk :
    ∀ (s : Stmt) (w : Walker), w.context.Returns (s.walk w).context
  | .expression e, w => by
    rw [Stmt.walk, e.context_walk]
    exact .refl _
  | .print e, w => by
    rw [Stmt.walk, e.context_walk]
    exact .refl _
  | .varDecl name initializer, w => by
    have hinside : w.context.Returns (walkOption initializer (w.declare name)).context := by
      rw [context_walkOption]
      exact w.returns_declare name
    exact hinside.trans (Walker.returns_define _ name.text)
  | .block body, w => by
    have hbody := Stmt.returns_walkList body w.openScope
    rw [Stmt.walk, hbody.close]
    exact .refl _
  | .branch condition yes none, w => by
    have hyes := yes.returns_walk (condition.walk w)
    rw [condition.context_walk] at hyes
    exact hyes
  | .branch condition yes (some no), w => by
    have hyes := yes.returns_walk (condition.walk w)
    rw [condition.context_walk] at hyes
    exact hyes.trans (no.returns_walk _)
  | .loop condition body, w => by
    have hbody := body.returns_walk (condition.walk w)
    rw [condition.context_walk] at hbody
    exact hbody
  | .funDecl function, w => by
    rw [Stmt.walk, FunDecl.context_walk]
    exact (w.returns_declare function.name).trans (Walker.returns_define _ _)
  | .result line value, w => by
    rw [Stmt.walk, context_walkOption]
    exact .refl _
  | .classDecl name none methods, w => by
    have hnamed := ((w.setClass .base).returns_declare name).trans
      (Walker.returns_define _ name.text)
    have hclosed := (FunDecl.context_walkList methods
      ((((w.setClass .base).declare name).define name.text).openScope.define "this"))
    rw [Stmt.walk, Walker.setClass, Walker.closeScope, hclosed]
    exact ⟨hnamed.height, hnamed.outer, hnamed.body, rfl⟩
  | .classDecl name (some ref) methods, w => by
    have hnamed := ((w.setClass .base).returns_declare name).trans
      (Walker.returns_define _ name.text)
    rw [Stmt.walk, Walker.setClass, Walker.closeScope, Walker.closeScope,
      FunDecl.context_walkList]
    exact ⟨hnamed.height, hnamed.outer, hnamed.body, rfl⟩

/-- Several statements leave the place as it was, but for the names of the innermost scope. -/
theorem Stmt.returns_walkList :
    ∀ (ss : List Stmt) (w : Walker), w.context.Returns (Stmt.walkList ss w).context
  | [], _ => .refl _
  | s :: rest, w => (s.returns_walk w).trans (Stmt.returns_walkList rest _)

/-- A function leaves the place as it was. -/
theorem FunDecl.context_walk (body : Body) :
    ∀ (f : FunDecl) (w : Walker), (FunDecl.walk body f w).context = w.context
  | ⟨_, params, statements⟩, w => by
    have hinside := ((w.setBody body).openScope.returns_parameters params).trans
      (Stmt.returns_walkList statements _)
    rw [FunDecl.walk, Walker.setBody, hinside.close]
    rfl

/-- The methods of a class leave the place as it was. -/
theorem FunDecl.context_walkList :
    ∀ (fs : List FunDecl) (w : Walker), (FunDecl.walkList fs w).context = w.context
  | [], _ => rfl
  | f :: rest, w => (FunDecl.context_walkList rest _).trans (FunDecl.context_walk _ f w)

end

/-! ## What the walk finds -/

/-- Findings may be put together in any grouping. -/
theorem Findings.append_assoc (a b c : Findings) : a ++ b ++ c = a ++ (b ++ c) := by
  change Findings.mk _ _ = Findings.mk _ _
  rw [Findings.mk.injEq]
  exact ⟨List.append_assoc .., List.append_assoc ..⟩

/-- Nothing more is found at the end. -/
theorem Findings.append_none (a : Findings) : a ++ Findings.none = a := by
  change Findings.mk _ _ = a
  rw [Findings.none, List.append_nil, List.append_nil]

mutual

/-- Walking through an expression adds what is found in it. -/
theorem Expr.found_walk :
    ∀ (e : Expr) (w : Walker), (e.walk w).found = w.found ++ e.resolve w.context
  | .literal _, w => (Findings.append_none _).symm
  | .group inner, w => inner.found_walk w
  | .unary _ _ operand, w => operand.found_walk w
  | .binary _ _ left right, w => by
    rw [Expr.walk, right.found_walk, left.found_walk, left.context_walk, Findings.append_assoc,
      Expr.resolve]
  | .logical _ _ left right, w => by
    rw [Expr.walk, right.found_walk, left.found_walk, left.context_walk, Findings.append_assoc,
      Expr.resolve]
  | .var _, _ => rfl
  | .assign ref value, w => by
    rw [Expr.walk, Walker.find, value.found_walk, value.context_walk, Findings.append_assoc,
      Expr.resolve]
  | .call callee arguments _, w => by
    rw [Expr.walk, Expr.found_walkList, callee.found_walk, callee.context_walk,
      Findings.append_assoc, Expr.resolve]
  | .get object _, w => object.found_walk w
  | .set object _ value, w => by
    rw [Expr.walk, object.found_walk, value.found_walk, value.context_walk,
      Findings.append_assoc, Expr.resolve]
  | .this _ _, _ => rfl
  | .super _ _ _, _ => rfl

/-- So does walking through several expressions. -/
theorem Expr.found_walkList :
    ∀ (es : List Expr) (w : Walker),
      (Expr.walkList es w).found = w.found ++ Expr.resolveList w.context es
  | [], w => (Findings.append_none _).symm
  | e :: rest, w => by
    rw [Expr.walkList, Expr.found_walkList, e.found_walk, e.context_walk, Findings.append_assoc,
      Expr.resolveList]

end

/-- So does walking through an expression that may be missing. -/
theorem found_walkOption (e : Option Expr) (w : Walker) :
    (walkOption e w).found = w.found ++ resolveOption w.context e := by
  cases e with
  | none => exact (Findings.append_none _).symm
  | some e => exact e.found_walk w

/-- No name waits for its first value in any of the scopes. -/
def Context.Clean (Γ : Context) : Prop := ∀ scope ∈ Γ.scopes, ∀ text, (text, false) ∉ scope

namespace Context

variable {Γ : Context}

/-- The top level has no scopes in which a name could wait. -/
theorem clean_top : top.Clean := nofun

/-- A scope without names that wait may be opened. -/
theorem Clean.enter (h : Γ.Clean) {scope : Scope} (hs : ∀ text, (text, false) ∉ scope) :
    (Γ.enter scope).Clean :=
  List.forall_mem_cons.2 ⟨hs, h⟩

/-- A name that is ready does not wait. -/
theorem Clean.define (h : Γ.Clean) (text : String) : (Γ.define text).Clean := by
  obtain ⟨scopes, body, enclosing⟩ := Γ
  cases scopes with
  | nil => exact h
  | cons scope rest =>
    obtain ⟨hscope, hrest⟩ := List.forall_mem_cons.1 h
    refine List.forall_mem_cons.2 ⟨fun other hother => ?_, hrest⟩
    rcases List.mem_cons.1 hother with hother | hother
    · cases hother
    · exact hscope other hother

/-- Behind a statement no name waits. -/
theorem Clean.after (h : Γ.Clean) (s : Stmt) : (Γ.after s).Clean := by
  cases s with
  | varDecl | funDecl | classDecl => exact h.define _
  | _ => exact h

/-- A name that is declared and then ready is a name that is ready. -/
theorem Clean.declare_ready (h : Γ.Clean) (text : String) :
    (Γ.declare text).onInnermost (·.ready text) = Γ.define text := by
  obtain ⟨scopes, body, enclosing⟩ := Γ
  cases scopes with
  | nil => rfl
  | cons scope rest =>
    have hnot := (List.forall_mem_cons.1 h).1 text
    have hready : (scope.declare text).ready text = scope.define text := by
      unfold Scope.declare Scope.ready Scope.define
      split
      · rw [List.erase_of_not_mem hnot]
      · rw [List.erase_cons_head]
    exact congrArg (fun scope => Context.mk (scope :: rest) body enclosing) hready

end Context

/-- Declaring a name and making it ready, in one step. -/
theorem Walker.declare_define {w : Walker} (h : w.context.Clean) (name : Name) :
    (w.declare name).define name.text =
      ⟨w.context.define name.text, w.found ++ w.context.introduce name⟩ := by
  have hready := h.declare_ready name.text
  exact congrArg (fun Γ => Walker.mk Γ (w.found ++ w.context.introduce name)) hready

/-- The place once several names are ready. -/
def Context.defineAll (Γ : Context) (params : List Name) : Context :=
  params.foldl (fun Γ name => Γ.define name.text) Γ

/-- Parameters are declared and ready one by one, which is the same as being looked at
together and then being ready. -/
theorem Walker.parameters_eq {w : Walker} (h : w.context.Clean) (params : List Name) :
    w.parameters params =
      ⟨w.context.defineAll params,
        w.found ++ w.context.parameters params⟩ := by
  induction params generalizing w with
  | nil => exact congrArg (Walker.mk w.context) (Findings.append_none _).symm
  | cons name rest ih =>
    have hnext := w.declare_define h name
    change (((w.declare name).define name.text).parameters rest) = _
    rw [hnext, ih (h.define name.text), Findings.append_assoc]
    rfl

/-- The place at the start of a function body, parameter by parameter. -/
theorem Context.enter_defineAll (Γ : Context) (body : Body) (params : List Name) :
    ({ Γ with body := body }.enter []).defineAll params =
      Γ.inFunction body params := by
  have hfold (scope : Scope) :
      ({ Γ with body := body }.enter scope).defineAll params =
        { Γ with body := body }.enter
          (params.foldl (fun scope (name : Name) => Scope.define scope name.text) scope) := by
    induction params generalizing scope with
    | nil => rfl
    | cons name rest ih => exact ih (scope.define name.text)
  exact hfold []

/-- Inside a function no name waits. -/
theorem Context.clean_inFunction {Γ : Context} (h : Γ.Clean) (body : Body) (params : List Name) :
    (Γ.inFunction body params).Clean := by
  have hclean (params : List Name) (Γ : Context) (h : Γ.Clean) :
      (Γ.defineAll params).Clean := by
    induction params generalizing Γ with
    | nil => exact h
    | cons name rest ih => exact ih _ (h.define name.text)
  rw [← Context.enter_defineAll]
  exact hclean params _ (Clean.enter (Γ := { Γ with body := body }) h nofun)

/-- Inside a class no name waits. -/
theorem Context.clean_inClass {Γ : Context} (h : Γ.Clean) (derived : Bool) :
    (Γ.inClass derived).Clean := by
  have hkeyword (keyword text : String) : (text, false) ∉ [(keyword, true)] := by simp
  cases derived with
  | false => exact h.enter (hkeyword "this")
  | true => exact (h.enter (hkeyword "super")).enter (hkeyword "this")

/-- A statement that declares nothing leaves the place as it is. -/
theorem Context.after_of_declared {s : Stmt} (h : s.declared = []) (Γ : Context) :
    Γ.after s = Γ := by
  cases s with
  | varDecl | funDecl | classDecl => cases h
  | _ => rfl

/-- The kind of class makes no difference to the names of a scope. -/
theorem Walker.context_setClass {w : Walker} (h : w.context.Clean) (e e' : Enclosing)
    (name : Name) :
    (((w.setClass e).declare name).define name.text).setClass e' =
      ⟨{ w.context.define name.text with enclosing := e' },
        w.found ++ w.context.introduce name⟩ := by
  have hclean : (w.setClass e).context.Clean := h
  rw [Walker.declare_define hclean]
  obtain ⟨⟨scopes, b, e⟩, found⟩ := w
  cases scopes <;> rfl

/-- On a tree that can be read, the place behind a statement is the place with what
it declares. -/
theorem Stmt.context_walk : ∀ (s : Stmt) (w : Walker), s.Proper → w.context.Clean →
    (s.walk w).context = w.context.after s
  | .expression e, w, _, _ => e.context_walk w
  | .print e, w, _, _ => e.context_walk w
  | .varDecl name initializer, w, _, hw => by
    rw [Stmt.walk, Walker.define, context_walkOption]
    exact hw.declare_ready name.text
  | .block body, w, _, _ => (Stmt.returns_walkList body w.openScope).close
  | .branch condition yes none, w, hs, hw => by
    have hcondition := condition.context_walk w
    rw [Stmt.walk, yes.context_walk _ hs.2 (hcondition ▸ hw), hcondition]
    exact Context.after_of_declared hs.1 _
  | .branch condition yes (some no), w, hs, hw => by
    have hcondition := condition.context_walk w
    have hyes : (yes.walk (condition.walk w)).context = w.context := by
      rw [yes.context_walk _ hs.1.2 (hcondition ▸ hw), hcondition]
      exact Context.after_of_declared hs.1.1 _
    rw [Stmt.walk, no.context_walk _ hs.2.2 (hyes ▸ hw), hyes]
    exact Context.after_of_declared hs.2.1 _
  | .loop condition body, w, hs, hw => by
    have hcondition := condition.context_walk w
    rw [Stmt.walk, body.context_walk _ hs.2 (hcondition ▸ hw), hcondition]
    exact Context.after_of_declared hs.1 _
  | .funDecl function, w, _, hw => by
    rw [Stmt.walk, FunDecl.context_walk, Walker.declare_define hw]
    rfl
  | .result line value, w, _, _ => context_walkOption value _
  | .classDecl name none methods, w, _, hw => by
    have hnamed := Walker.context_setClass hw .base w.context.enclosing name
    rw [Stmt.walk, Walker.setClass, Walker.closeScope, FunDecl.context_walkList]
    refine (congrArg Walker.context hnamed).trans ?_
    obtain ⟨⟨scopes, b, e⟩, found⟩ := w
    cases scopes <;> rfl
  | .classDecl name (some ref) methods, w, _, hw => by
    have hnamed := Walker.context_setClass hw .base w.context.enclosing name
    rw [Stmt.walk, Walker.setClass, Walker.closeScope, Walker.closeScope,
      FunDecl.context_walkList]
    refine (congrArg Walker.context hnamed).trans ?_
    obtain ⟨⟨scopes, b, e⟩, found⟩ := w
    cases scopes <;> rfl

mutual

/-- On a tree that can be read, what the walk finds in a statement is what is found
with the place handed down. -/
theorem Stmt.found_walk : ∀ (s : Stmt) (w : Walker), s.Proper → w.context.Clean →
    (s.walk w).found = w.found ++ s.resolve w.context
  | .expression e, w, _, _ => e.found_walk w
  | .print e, w, _, _ => e.found_walk w
  | .varDecl name initializer, w, _, _ => by
    rw [Stmt.walk, Walker.define, found_walkOption, Stmt.resolve, ← Findings.append_assoc]
    rfl
  | .block body, w, hs, hw => by
    rw [Stmt.walk, Walker.closeScope,
      Stmt.found_walkList body _ hs (hw.enter fun _ => List.not_mem_nil), Stmt.resolve]
    rfl
  | .branch condition yes none, w, hs, hw => by
    have hcondition := condition.context_walk w
    rw [Stmt.walk, yes.found_walk _ hs.2 (hcondition ▸ hw), hcondition, condition.found_walk,
      Findings.append_assoc, Stmt.resolve]
  | .branch condition yes (some no), w, hs, hw => by
    have hcondition := condition.context_walk w
    have hyes : (yes.walk (condition.walk w)).context = w.context := by
      rw [yes.context_walk _ hs.1.2 (hcondition ▸ hw), hcondition]
      exact Context.after_of_declared hs.1.1 _
    rw [Stmt.walk, no.found_walk _ hs.2.2 (hyes ▸ hw), hyes,
      yes.found_walk _ hs.1.2 (hcondition ▸ hw), hcondition, condition.found_walk,
      Findings.append_assoc, Findings.append_assoc, Stmt.resolve, Findings.append_assoc]
  | .loop condition body, w, hs, hw => by
    have hcondition := condition.context_walk w
    rw [Stmt.walk, body.found_walk _ hs.2 (hcondition ▸ hw), hcondition, condition.found_walk,
      Findings.append_assoc, Stmt.resolve]
  | .funDecl function, w, hs, hw => by
    rw [Stmt.walk, Walker.declare_define hw,
      FunDecl.found_walk .function function _ hs.2 (hw.define _), Findings.append_assoc,
      Stmt.resolve]
  | .result line value, w, _, _ => by
    rw [Stmt.walk, found_walkOption, Walker.find, Findings.append_assoc, Stmt.resolve]
  | .classDecl name none methods, w, hs, hw => by
    have hinside : ((((w.setClass .base).declare name).define name.text).openScope.define "this") =
        ⟨(w.context.define name.text).inClass false, w.found ++ w.context.introduce name⟩ := by
      rw [Walker.declare_define (w := w.setClass .base) hw]
      obtain ⟨⟨scopes, b, e⟩, found⟩ := w
      cases scopes <;> rfl
    have hclean := Context.clean_inClass (hw.define name.text) false
    refine (congrArg (fun w => (FunDecl.walkList methods w).found) hinside).trans ?_
    rw [FunDecl.found_walkList methods _ hs.2 hclean, Stmt.resolve, Findings.append_assoc]
    exact congrArg (w.found ++ ·) (congrArg (· ++ _) (Findings.append_none _).symm)
  | .classDecl name (some ref) methods, w, hs, hw => by
    have hinside : ((((((w.setClass .base).declare name).define name.text).setClass .derived).find
        (·.superclass name (some ref))).openScope.define "super").openScope.define "this" =
        ⟨(w.context.define name.text).inClass true, w.found ++ w.context.introduce name ++
          (w.context.define name.text).superclass name (some ref)⟩ := by
      rw [Walker.declare_define (w := w.setClass .base) hw]
      obtain ⟨⟨scopes, b, e⟩, found⟩ := w
      cases scopes <;> rfl
    have hclean := Context.clean_inClass (hw.define name.text) true
    refine (congrArg (fun w => (FunDecl.walkList methods w).found) hinside).trans ?_
    rw [FunDecl.found_walkList methods _ hs.2 hclean, Stmt.resolve]
    simp only [Findings.append_assoc]
    rfl

/-- Walking through several statements adds what is found in them. -/
theorem Stmt.found_walkList : ∀ (ss : List Stmt) (w : Walker), Stmt.ProperList ss →
    w.context.Clean → (Stmt.walkList ss w).found = w.found ++ Stmt.resolveList w.context ss
  | [], _, _, _ => (Findings.append_none _).symm
  | s :: rest, w, hs, hw => by
    have hs' := s.context_walk w hs.1 hw
    rw [Stmt.walkList, Stmt.found_walkList rest _ hs.2 (hs' ▸ hw.after s), hs',
      s.found_walk w hs.1 hw, Findings.append_assoc, Stmt.resolveList]

/-- Walking through a function adds what is found in it, with its kind of body. -/
theorem FunDecl.found_walk (body : Body) : ∀ (f : FunDecl) (w : Walker), FunDecl.Proper f →
    w.context.Clean → (FunDecl.walk body f w).found = w.found ++ FunDecl.resolve w.context body f
  | ⟨_, params, statements⟩, w, hs, hw => by
    have hopen : (w.setBody body).openScope.context.Clean :=
      Context.Clean.enter (Γ := { w.context with body := body }) hw fun _ => List.not_mem_nil
    have hinside : (w.setBody body).openScope.parameters params =
        ⟨w.context.inFunction body params,
          w.found ++ (w.context.enter []).parameters params⟩ := by
      rw [Walker.parameters_eq hopen, ← Context.enter_defineAll,
        ← Context.parameters_body (w.context.enter []) body]
      rfl
    have hclean := Context.clean_inFunction hw body params
    refine (congrArg (fun w => (Stmt.walkList statements w).found) hinside).trans ?_
    rw [Stmt.found_walkList statements _ hs.2 hclean, FunDecl.resolve, Findings.append_assoc]

/-- Walking through the methods of a class adds what is found in them. -/
theorem FunDecl.found_walkList : ∀ (fs : List FunDecl) (w : Walker), FunDecl.ProperList fs →
    w.context.Clean → (FunDecl.walkList fs w).found = w.found ++ FunDecl.resolveList w.context fs
  | [], _, _, _ => (Findings.append_none _).symm
  | f :: rest, w, hs, hw => by
    have hf := FunDecl.context_walk (Body.ofMethod f.name.text) f w
    rw [FunDecl.walkList, FunDecl.found_walkList rest _ hs.2 (hf ▸ hw), hf,
      FunDecl.found_walk _ f w hs.1 hw, Findings.append_assoc, FunDecl.resolveList]

end

/-- The walk through a program that was read finds what is found about it. -/
theorem found_walk_program {program : List Stmt} (h : Stmt.ProperList program) :
    (Stmt.walkList program .start).found = resolveProgram program :=
  Stmt.found_walkList program .start h Context.clean_top

end Lox
