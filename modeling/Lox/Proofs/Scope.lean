import Lox.Scope.Resolve

/-!
# Trees whose references are resolved

A tree is resolved at a place of a program if each of its references is known
to have the distance that its name has there, and if its declarations are such
that this stays true while it runs: no scope declares a name twice, no variable
occurs in its own initializer, and only blocks and functions hold declarations.
What is known about references is a relation between identities and distances;
a reference to a global name is known to have none.
-/

namespace Lox

/-- Names that a program can choose: all but the two keywords that are bound
like names. -/
def IsPlain (text : String) : Prop := text ≠ "this" ∧ text ≠ "super"

namespace Scope

/-- A scope has the name that was just declared, and those it had. -/
theorem has_declare (scope : Scope) (text other : String) :
    (scope.declare text).has other = (scope.has other || text == other) := by
  unfold declare
  split
  · rename_i h
    by_cases heq : text = other
    · rw [← heq, h, Bool.true_or]
    · simp [heq]
  · simp [has, Bool.or_comm]

/-- A scope has the name that was just defined, and those it had. -/
theorem has_define (scope : Scope) (text other : String) :
    (scope.define text).has other = (text == other || scope.has other) := by
  simp [define, has]

/-- A new name in a scope waits for its definition. -/
theorem isPending_declare {scope : Scope} {text : String} (h : scope.has text = false) :
    (scope.declare text).isPending text = true := by
  simp [declare, h, isPending]

end Scope

namespace Context

variable {Γ : Context} {text other : String}

/-- The distance of a name is one more for every scope around it that does not have the name. -/
theorem distance?_cons (scope : Scope) (scopes : List Scope) (b : Body) (e : Enclosing)
    (text : String) :
    distance? ⟨scope :: scopes, b, e⟩ text =
      if scope.has text then some 0 else (distance? ⟨scopes, b, e⟩ text).map (· + 1) := by
  rw [distance?, List.findIdx?_cons]
  rfl

/-- Inside one more scope a name is found there, or one step further out. -/
theorem distance?_enter (Γ : Context) (scope : Scope) (text : String) :
    (Γ.enter scope).distance? text =
      if scope.has text then some 0 else (Γ.distance? text).map (· + 1) :=
  distance?_cons scope Γ.scopes Γ.body Γ.enclosing text

/-- A change of the innermost scope that keeps whether it has a name keeps the
distance of the name. -/
theorem distance?_onInnermost {change : Scope → Scope}
    (h : ∀ scope : Scope, (change scope).has text = scope.has text) :
    (Γ.onInnermost change).distance? text = Γ.distance? text := by
  obtain ⟨scopes, b, e⟩ := Γ
  cases scopes with
  | nil => rfl
  | cons scope scopes => simp only [onInnermost, distance?_cons, h]

/-- Declaring a name leaves the distances of other names as they are. -/
theorem distance?_declare (h : other ≠ text) :
    (Γ.declare text).distance? other = Γ.distance? other := by
  refine distance?_onInnermost fun scope => ?_
  rw [Scope.has_declare, beq_eq_false_iff_ne.2 (Ne.symm h), Bool.or_false]

/-- Defining a name leaves the distances of other names as they are. -/
theorem distance?_define (h : other ≠ text) :
    (Γ.define text).distance? other = Γ.distance? other := by
  refine distance?_onInnermost fun scope => ?_
  rw [Scope.has_define, beq_eq_false_iff_ne.2 (Ne.symm h), Bool.false_or]

/-- Outside of all scopes, declarations leave nothing behind. -/
theorem after_top (s : Stmt) : Context.top.after s = .top := by
  cases s <;> rfl

/-- What `this` and `super` need around a place inside a class. -/
def InClass (Γ : Context) : Prop :=
  match Γ.enclosing with
  | .outside => True
  | .base => ∃ d, Γ.distance? "this" = some d
  | .derived => ∃ d, Γ.distance? "this" = some d ∧ Γ.distance? "super" = some (d + 1)

/-- There is no class around the top level, so nothing has to be in scope for it. -/
theorem inClass_top : top.InClass := trivial

/-- Places with the same class around them and keywords equally far out. -/
theorem InClass.congr {Γ' : Context} (h : Γ.InClass) (he : Γ'.enclosing = Γ.enclosing)
    (hd : ∃ k, ∀ text, text = "this" ∨ text = "super" →
      Γ'.distance? text = (Γ.distance? text).map (· + k)) : Γ'.InClass := by
  obtain ⟨k, hk⟩ := hd
  unfold InClass at h ⊢
  rw [he, hk "this" (.inl rfl), hk "super" (.inr rfl)]
  cases henclosing : Γ.enclosing with
  | outside => trivial
  | base =>
    rw [henclosing] at h
    obtain ⟨d, hd⟩ := h
    exact ⟨d + k, by rw [hd]; rfl⟩
  | derived =>
    rw [henclosing] at h
    obtain ⟨d, hd, hs⟩ := h
    refine ⟨d + k, by rw [hd]; rfl, ?_⟩
    rw [hs, Option.map_some]
    congr 1
    omega

/-- A change of the innermost scope leaves the class around as it is. -/
theorem enclosing_onInnermost (change : Scope → Scope) :
    (Γ.onInnermost change).enclosing = Γ.enclosing := by
  obtain ⟨scopes, b, e⟩ := Γ
  cases scopes <;> rfl

/-- Names that are not keywords may be defined inside a class. -/
theorem InClass.define (h : Γ.InClass) (ht : IsPlain text) : (Γ.define text).InClass := by
  refine h.congr (enclosing_onInnermost _) ⟨0, fun other ho => ?_⟩
  have hne : other ≠ text := by
    rcases ho with rfl | rfl
    · exact ht.1.symm
    · exact ht.2.symm
  rw [distance?_define hne]
  simp

/-- A scope of plain names. -/
def PlainScope (scope : Scope) : Prop := scope.has "this" = false ∧ scope.has "super" = false

/-- Scopes without keywords may be entered inside a class. -/
theorem InClass.enter (h : Γ.InClass) {scope : Scope} (hs : PlainScope scope) :
    (Γ.enter scope).InClass := by
  refine h.congr rfl ⟨1, fun other ho => ?_⟩
  have hno : scope.has other = false := by
    rcases ho with rfl | rfl
    · exact hs.1
    · exact hs.2
  rw [distance?_enter, hno]
  rfl

/-- The scope at the start of a function body. -/
def parameterScope (params : List Name) : Scope :=
  params.foldl (fun scope name => scope.define name.text) []

/-- Defining parameters one by one gives a scope all their names. -/
theorem has_foldl_define (params : List Name) (scope : Scope) (text : String) :
    Scope.has (params.foldl (fun scope name => scope.define name.text) scope) text =
      (scope.has text || (params.map (·.text)).contains text) := by
  induction params generalizing scope with
  | nil => simp
  | cons name params ih =>
    rw [List.foldl_cons, ih, Scope.has_define, List.map_cons, List.contains_cons,
      Bool.beq_comm (a := text), Bool.or_assoc, Bool.or_left_comm]

/-- The scope of a function has the names of its parameters. -/
theorem has_parameterScope (params : List Name) (text : String) :
    (parameterScope params).has text = (params.map (·.text)).contains text := by
  rw [parameterScope, has_foldl_define]
  rfl

/-- A function inside a class is inside it as well. -/
theorem InClass.inFunction (h : Γ.InClass) {params : List Name} (b : Body)
    (hp : ∀ name ∈ params, IsPlain name.text) : (Γ.inFunction b params).InClass := by
  have hno : ∀ text, (∀ name ∈ params, name.text ≠ text) →
      (parameterScope params).has text = false := by
    intro text hne
    rw [has_parameterScope]
    simpa using hne
  exact h.enter
    ⟨hno _ fun name hname => (hp name hname).1, hno _ fun name hname => (hp name hname).2⟩

/-- The context for the methods of a class has the keywords that they may use. -/
theorem inClass_inClass (Γ : Context) (hasSuperclass : Bool) :
    (Γ.inClass hasSuperclass).InClass := by
  cases hasSuperclass with
  | false => exact ⟨0, rfl⟩
  | true => exact ⟨0, rfl, rfl⟩

end Context

/-- What is known about references: which distance an identity has, if any. -/
abbrev Known := Nat → Option Nat → Prop

mutual

/-- Every reference of an expression is known to have the distance of its name. -/
def Expr.Resolved (K : Known) (Γ : Context) : Expr → Prop
  | .literal _ => True
  | .group inner => inner.Resolved K Γ
  | .unary _ _ operand => operand.Resolved K Γ
  | .binary _ _ left right => left.Resolved K Γ ∧ right.Resolved K Γ
  | .logical _ _ left right => left.Resolved K Γ ∧ right.Resolved K Γ
  | .var ref => K ref.id (Γ.distance? ref.name.text)
  | .assign ref value =>
    value.Resolved K Γ ∧ K ref.id (Γ.distance? ref.name.text) ∧ IsPlain ref.name.text
  | .call callee arguments _ => callee.Resolved K Γ ∧ Expr.ResolvedList K Γ arguments
  | .get object _ => object.Resolved K Γ
  | .set object _ value => object.Resolved K Γ ∧ value.Resolved K Γ
  | .this id _ => ∃ d, K id (some d) ∧ Γ.distance? "this" = some d
  | .super id _ _ => ∃ d, K id (some (d + 1)) ∧ Γ.distance? "super" = some (d + 1) ∧
      Γ.distance? "this" = some d

/-- Every reference of several expressions is known. -/
def Expr.ResolvedList (K : Known) (Γ : Context) : List Expr → Prop
  | [] => True
  | e :: rest => e.Resolved K Γ ∧ Expr.ResolvedList K Γ rest

end

/-- Every reference of an expression that may be missing is known. -/
def ResolvedOption (K : Known) (Γ : Context) : Option Expr → Prop
  | none => True
  | some e => e.Resolved K Γ

/-- A name that can be declared at a place. -/
structure Context.Admits (Γ : Context) (text : String) : Prop where
  /-- The innermost scope does not have the name. -/
  free : Γ.isTaken text = false
  /-- The name is no keyword. -/
  plain : IsPlain text

/-- A superclass that is known, and is not the class itself. -/
def Context.ResolvedParent (K : Known) (Γ : Context) : Option Ref → Prop
  | none => True
  | some ref => K ref.id (Γ.distance? ref.name.text)

mutual

/-- Every reference of a statement is known, and its declarations are admitted
where they stand. -/
def Stmt.Resolved (K : Known) (Γ : Context) : Stmt → Prop
  | .expression e => e.Resolved K Γ
  | .print e => e.Resolved K Γ
  | .varDecl name initializer => Γ.Admits name.text ∧ ResolvedOption K Γ initializer
  | .block body => Stmt.ResolvedList K (Γ.enter []) body
  | .branch condition yes none =>
    condition.Resolved K Γ ∧ yes.Resolved K Γ ∧ Γ.after yes = Γ
  | .branch condition yes (some no) =>
    condition.Resolved K Γ ∧ (yes.Resolved K Γ ∧ Γ.after yes = Γ) ∧
      no.Resolved K Γ ∧ Γ.after no = Γ
  | .loop condition body => condition.Resolved K Γ ∧ body.Resolved K Γ ∧ Γ.after body = Γ
  | .funDecl function =>
    Γ.Admits function.name.text ∧
      FunDecl.Resolved K (Γ.define function.name.text) .function function
  | .result _ value => ResolvedOption K Γ value
  | .classDecl name superclass methods =>
    Γ.Admits name.text ∧ (Γ.define name.text).ResolvedParent K superclass ∧
      FunDecl.ResolvedList K ((Γ.define name.text).inClass superclass.isSome) methods

/-- Every reference of statements in one scope is known. -/
def Stmt.ResolvedList (K : Known) (Γ : Context) : List Stmt → Prop
  | [] => True
  | s :: rest => s.Resolved K Γ ∧ Stmt.ResolvedList K (Γ.after s) rest

/-- The parameters of a function are different plain names, and every reference
of its body is known. -/
def FunDecl.Resolved (K : Known) (Γ : Context) (body : Body) : FunDecl → Prop
  | ⟨_, params, statements⟩ =>
    (params.map (·.text)).Nodup ∧ (∀ name ∈ params, IsPlain name.text) ∧
      Stmt.ResolvedList K (Γ.inFunction body params) statements

/-- Every reference of the methods of a class is known. -/
def FunDecl.ResolvedList (K : Known) (Γ : Context) : List FunDecl → Prop
  | [] => True
  | method :: rest =>
    FunDecl.Resolved K Γ (Body.ofMethod method.name.text) method ∧ FunDecl.ResolvedList K Γ rest

end

/-! ### Assignments to a variable in its own initializer -/

mutual

/-- Whether an expression assigns to a name. -/
def Expr.assignsTo (text : String) : Expr → Bool
  | .literal _ => false
  | .group inner => inner.assignsTo text
  | .unary _ _ operand => operand.assignsTo text
  | .binary _ _ left right => left.assignsTo text || right.assignsTo text
  | .logical _ _ left right => left.assignsTo text || right.assignsTo text
  | .var _ => false
  | .assign ref value => ref.name.text == text || value.assignsTo text
  | .call callee arguments _ => callee.assignsTo text || Expr.assignsToList text arguments
  | .get object _ => object.assignsTo text
  | .set object _ value => object.assignsTo text || value.assignsTo text
  | .this _ _ => false
  | .super _ _ _ => false

/-- Whether one of several expressions assigns to a name. -/
def Expr.assignsToList (text : String) : List Expr → Bool
  | [] => false
  | e :: rest => e.assignsTo text || Expr.assignsToList text rest

end

/-- Whether the initializer of a variable assigns to the variable. -/
def initializerAssigns (text : String) : Option Expr → Bool
  | none => false
  | some e => e.assignsTo text

mutual

/-- Whether the initializer of a local variable assigns to the variable. A
statement on the top level declares no local variable itself. -/
def Stmt.assignsOwnInitializer (isLocal : Bool) : Stmt → Bool
  | .expression _ => false
  | .print _ => false
  | .varDecl name initializer => isLocal && initializerAssigns name.text initializer
  | .block body => Stmt.assignsOwnInitializerList true body
  | .branch _ yes none => yes.assignsOwnInitializer isLocal
  | .branch _ yes (some no) =>
    yes.assignsOwnInitializer isLocal || no.assignsOwnInitializer isLocal
  | .loop _ body => body.assignsOwnInitializer isLocal
  | .funDecl function => FunDecl.assignsOwnInitializer function
  | .result _ _ => false
  | .classDecl _ _ methods => FunDecl.assignsOwnInitializerList methods

/-- Whether the initializer of a local variable assigns to the variable in one
of several statements. -/
def Stmt.assignsOwnInitializerList (isLocal : Bool) : List Stmt → Bool
  | [] => false
  | s :: rest => s.assignsOwnInitializer isLocal || Stmt.assignsOwnInitializerList isLocal rest

/-- Whether the initializer of a local variable assigns to the variable in the
body of a function. -/
def FunDecl.assignsOwnInitializer : FunDecl → Bool
  | ⟨_, _, body⟩ => Stmt.assignsOwnInitializerList true body

/-- Whether the initializer of a local variable assigns to the variable in one
of several functions. -/
def FunDecl.assignsOwnInitializerList : List FunDecl → Bool
  | [] => false
  | f :: rest => FunDecl.assignsOwnInitializer f || FunDecl.assignsOwnInitializerList rest

end

end Lox
