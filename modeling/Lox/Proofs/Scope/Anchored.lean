import Lox.Proofs.Evaluation.Points
import Lox.Proofs.Scope.Distances
import Lox.Proofs.Heap

/-!
# Anchored parts of programs

A part of a program is anchored at a place if it leaves the keywords alone, none of
its sites breaks a rule, and every reference in it whose name is bound around it has
the distance of that scope. Parts of an anchored part are anchored, each at its own
place, and they stay so when more distances are recorded.

Of the two keywords more can be said. In a method of a class and in no class inside
of it, only scopes of statements come between a place and the scope of `this`, and
the environment has a frame for each of them. So the distance of `this` leads to the
frame that the method was bound with, and that of `super` to the next one.
-/

namespace Lox

/-- One table of distances has all that another has. -/
def Distances.Within (earlier later : Distances) : Prop :=
  ∀ id d : Nat, earlier[id]? = some d → later[id]? = some d

/-- A table has all that it has. -/
theorem Distances.Within.refl (distances : Distances) : distances.Within distances :=
  fun _ _ h => h

/-- Tables may grow again and again. -/
theorem Distances.Within.trans {first second third : Distances} (h : first.Within second)
    (h' : second.Within third) : first.Within third :=
  fun id d hd => h' id d (h id d hd)

/-- A site that keeps the rules, with the distance that its place asks for. -/
structure Occurrence.Anchored (distances : Distances) (o : Occurrence) : Prop where
  /-- No rule is broken there. -/
  right : ∀ error, ¬o.Wrong error
  /-- The names around it are no keywords. -/
  plain : o.around.Plain
  /-- The distance that its place asks for is recorded. -/
  recorded : ∀ r d, o.reference? = some r → o.around.Binds r.ref.name.text d →
    distances[r.ref.id]? = some d

section Anchored

variable (distances : Distances) (around : Surroundings)

/-- An anchored expression. -/
structure Expr.Anchored (e : Expr) : Prop where
  /-- Its names are no keywords. -/
  plain : e.Plain
  /-- All its sites are anchored. -/
  sites : ∀ o ∈ e.occurrences around, o.Anchored distances

/-- An expression that is anchored or missing. -/
structure AnchoredOption (e : Option Expr) : Prop where
  /-- Its names are no keywords. -/
  plain : PlainOption e
  /-- All its sites are anchored. -/
  sites : ∀ o ∈ occurrencesOption around e, o.Anchored distances

/-- An anchored statement. -/
structure Stmt.Anchored (s : Stmt) : Prop where
  /-- Its names are no keywords. -/
  plain : s.Plain
  /-- All its sites are anchored. -/
  sites : ∀ o ∈ s.occurrences around, o.Anchored distances

/-- Anchored statements that follow each other in one scope. -/
structure Stmt.AnchoredList (ss : List Stmt) : Prop where
  /-- Their names are no keywords. -/
  plain : Stmt.PlainList ss
  /-- All their sites are anchored. -/
  sites : ∀ o ∈ Stmt.occurrencesList around ss, o.Anchored distances

/-- An anchored function. -/
structure FunDecl.Anchored (opener : Opener) (f : FunDecl) : Prop where
  /-- Its names are no keywords. -/
  plain : FunDecl.Plain f
  /-- All its sites are anchored. -/
  sites : ∀ o ∈ FunDecl.occurrences around opener f, o.Anchored distances

/-- What is anchored at a place is evaluated or executed. -/
def Task.Anchored : Task → Prop
  | .evaluate e => e.Anchored distances around
  | .execute s => s.Anchored distances around

end Anchored

/-- A site is anchored also when more distances are recorded. -/
theorem Occurrence.Anchored.later {distances distances' : Distances} {o : Occurrence}
    (h : o.Anchored distances) (hd : distances.Within distances') : o.Anchored distances' :=
  ⟨h.right, h.plain, fun r d hr hbinds => hd _ d (h.recorded r d hr hbinds)⟩

section Later

variable {distances distances' : Distances} {around : Surroundings}

/-- So is an expression. -/
theorem Expr.Anchored.later {e : Expr} (h : e.Anchored distances around)
    (hd : distances.Within distances') : e.Anchored distances' around :=
  ⟨h.plain, fun o ho => (h.sites o ho).later hd⟩

/-- So is an expression that may be missing. -/
theorem AnchoredOption.later {e : Option Expr} (h : AnchoredOption distances around e)
    (hd : distances.Within distances') : AnchoredOption distances' around e :=
  ⟨h.plain, fun o ho => (h.sites o ho).later hd⟩

/-- So is a statement. -/
theorem Stmt.Anchored.later {s : Stmt} (h : s.Anchored distances around)
    (hd : distances.Within distances') : s.Anchored distances' around :=
  ⟨h.plain, fun o ho => (h.sites o ho).later hd⟩

/-- So are statements that follow each other. -/
theorem Stmt.AnchoredList.later {ss : List Stmt} (h : Stmt.AnchoredList distances around ss)
    (hd : distances.Within distances') : Stmt.AnchoredList distances' around ss :=
  ⟨h.plain, fun o ho => (h.sites o ho).later hd⟩

/-- So is a function. -/
theorem FunDecl.Anchored.later {opener : Opener} {f : FunDecl}
    (h : FunDecl.Anchored distances around opener f) (hd : distances.Within distances') :
    FunDecl.Anchored distances' around opener f :=
  ⟨h.plain, fun o ho => (h.sites o ho).later hd⟩

/-- So is what is evaluated or executed. -/
theorem Task.Anchored.later {task : Task} (h : task.Anchored distances around)
    (hd : distances.Within distances') : task.Anchored distances' around := by
  cases task with
  | evaluate e => exact Expr.Anchored.later h hd
  | execute s => exact Stmt.Anchored.later h hd

end Later

section Parts

variable {distances : Distances} {around : Surroundings}

/-! ### Parts of expressions -/

namespace Expr.Anchored

variable {e a b : Expr}

/-- Parentheses do not change the place. -/
theorem group (h : (Expr.group e).Anchored distances around) : e.Anchored distances around :=
  ⟨h.plain, h.sites⟩

/-- An operand stands where its operator does. -/
theorem unary {op : UnaryOp} {line : Nat} (h : (Expr.unary op line e).Anchored distances around) :
    e.Anchored distances around :=
  ⟨h.plain, h.sites⟩

/-- Both operands stand where their operator does. -/
theorem binary {op : BinaryOp} {line : Nat}
    (h : (Expr.binary op line a b).Anchored distances around) :
    a.Anchored distances around ∧ b.Anchored distances around :=
  have hsites := List.forall_mem_append.1 h.sites
  ⟨⟨h.plain.1, hsites.1⟩, ⟨h.plain.2, hsites.2⟩⟩

/-- Both operands stand where their operator does, whether or not the second one is evaluated. -/
theorem logical {op : LogicalOp} {line : Nat}
    (h : (Expr.logical op line a b).Anchored distances around) :
    a.Anchored distances around ∧ b.Anchored distances around :=
  have hsites := List.forall_mem_append.1 h.sites
  ⟨⟨h.plain.1, hsites.1⟩, ⟨h.plain.2, hsites.2⟩⟩

/-- The value of an assignment stands where the assignment does. -/
theorem assign {ref : Ref} (h : (Expr.assign ref e).Anchored distances around) :
    e.Anchored distances around :=
  ⟨h.plain.2, (List.forall_mem_append.1 h.sites).1⟩

/-- The object of a property stands where the property does. -/
theorem get {name : Name} (h : (Expr.get e name).Anchored distances around) :
    e.Anchored distances around :=
  ⟨h.plain, h.sites⟩

/-- The object and the value of a set property stand where the property does. -/
theorem set {name : Name} (h : (Expr.set a name b).Anchored distances around) :
    a.Anchored distances around ∧ b.Anchored distances around :=
  have hsites := List.forall_mem_append.1 h.sites
  ⟨⟨h.plain.1, hsites.2⟩, ⟨h.plain.2, hsites.1⟩⟩

/-- The callee and the arguments of a call stand where the call does. -/
theorem call {es : List Expr} {line : Nat} (h : (Expr.call e es line).Anchored distances around) :
    e.Anchored distances around ∧ ∀ a ∈ es, a.Anchored distances around := by
  have hlist : ∀ es : List Expr, Expr.PlainList es →
      (∀ o ∈ Expr.occurrencesList around es, o.Anchored distances) →
      ∀ a ∈ es, a.Anchored distances around := by
    intro es hplain hsites
    induction es with
    | nil => nofun
    | cons a rest ih =>
      obtain ⟨hfirst, hrest⟩ := List.forall_mem_append.1 hsites
      exact List.forall_mem_cons.2 ⟨⟨hplain.1, hfirst⟩, ih hplain.2 hrest⟩
  obtain ⟨hcallee, harguments⟩ := List.forall_mem_append.1 h.sites
  exact ⟨⟨h.plain.1, hcallee⟩, hlist es h.plain.2 harguments⟩

end Expr.Anchored

/-- An expression that is there is anchored itself. -/
theorem AnchoredOption.some {e : Expr} (h : AnchoredOption distances around (some e)) :
    e.Anchored distances around :=
  ⟨h.plain, h.sites⟩

/-! ### Parts of statements and functions -/

namespace Stmt.Anchored

variable {e : Expr} {s yes : Stmt}

/-- The expression of a statement stands inside of it. -/
theorem expression (h : (Stmt.expression e).Anchored distances around) :
    e.Anchored distances (around.start (.expression e)) :=
  ⟨h.plain, h.sites⟩

/-- What is printed stands inside of the print. -/
theorem print (h : (Stmt.print e).Anchored distances around) :
    e.Anchored distances (around.start (.print e)) :=
  ⟨h.plain, h.sites⟩

/-- An initializer stands inside of the declaration, so its variable is in scope. -/
theorem varDecl {name : Name} {initializer : Option Expr}
    (h : (Stmt.varDecl name initializer).Anchored distances around) :
    AnchoredOption distances (around.start (.varDecl name initializer)) initializer :=
  ⟨h.plain.2, (List.forall_mem_cons.1 h.sites).2⟩

/-- The statements of a block stand in a scope of their own. -/
theorem block {body : List Stmt} (h : (Stmt.block body).Anchored distances around) :
    Stmt.AnchoredList distances (.statements .block [] [] :: around.start (.block body)) body :=
  ⟨h.plain, h.sites⟩

/-- Condition and branches stand inside of the conditional, in the same scope. -/
theorem branch {no : Option Stmt} (h : (Stmt.branch e yes no).Anchored distances around) :
    e.Anchored distances (around.start (.branch e yes no)) ∧
      yes.Anchored distances (around.start (.branch e yes no)) ∧
      ∀ s ∈ no, s.Anchored distances (around.start (.branch e yes no)) := by
  cases no with
  | none =>
    obtain ⟨he, hyes⟩ := List.forall_mem_append.1 h.sites
    exact ⟨⟨h.plain.1, he⟩, ⟨h.plain.2, hyes⟩, nofun⟩
  | some no =>
    obtain ⟨hfirst, hno⟩ := List.forall_mem_append.1 h.sites
    obtain ⟨he, hyes⟩ := List.forall_mem_append.1 hfirst
    refine ⟨⟨h.plain.1, he⟩, ⟨h.plain.2.1, hyes⟩, fun s hs => ?_⟩
    cases hs
    exact ⟨h.plain.2.2, hno⟩

/-- Condition and body stand inside of the loop, in the same scope. -/
theorem loop (h : (Stmt.loop e s).Anchored distances around) :
    e.Anchored distances (around.start (.loop e s)) ∧
      s.Anchored distances (around.start (.loop e s)) :=
  have hsites := List.forall_mem_append.1 h.sites
  ⟨⟨h.plain.1, hsites.1⟩, ⟨h.plain.2, hsites.2⟩⟩

/-- A function stands inside of its declaration, so its name is in scope. -/
theorem funDecl {f : FunDecl} (h : (Stmt.funDecl f).Anchored distances around) :
    FunDecl.Anchored distances (around.start (.funDecl f)) .function f :=
  ⟨h.plain.2, (List.forall_mem_cons.1 h.sites).2⟩

/-- A returned value stands inside of the `return`. -/
theorem result {line : Nat} {value : Option Expr}
    (h : (Stmt.result line value).Anchored distances around) :
    AnchoredOption distances (around.start (.result line value)) value :=
  ⟨h.plain, (List.forall_mem_cons.1 h.sites).2⟩

/-- A superclass is looked up inside of the declaration of the class. -/
theorem superclass {name : Name} {ref : Ref} {methods : List FunDecl}
    (h : (Stmt.classDecl name (some ref) methods).Anchored distances around) :
    (Expr.var ref).Anchored distances (around.start (.classDecl name (some ref) methods)) := by
  obtain ⟨hparent, -⟩ := List.forall_mem_append.1 (List.forall_mem_cons.1 h.sites).2
  exact ⟨trivial, (List.forall_mem_cons.1 hparent).2⟩

/-- The methods of a class stand in the scopes of the keywords, inside of the declaration. -/
theorem methods {name : Name} {superclass : Option Ref} {methods : List FunDecl}
    (h : (Stmt.classDecl name superclass methods).Anchored distances around) :
    ∀ f ∈ methods, FunDecl.Anchored distances
      (.methods superclass.isSome :: around.start (.classDecl name superclass methods))
      (.method f.name.text) f := by
  have hlist : ∀ (inside : Surroundings) (fs : List FunDecl), FunDecl.PlainList fs →
      (∀ o ∈ FunDecl.occurrencesList inside fs, o.Anchored distances) →
      ∀ f ∈ fs, FunDecl.Anchored distances inside (.method f.name.text) f := by
    intro inside fs hplain hsites
    induction fs with
    | nil => nofun
    | cons f rest ih =>
      obtain ⟨hfirst, hrest⟩ := List.forall_mem_append.1 hsites
      exact List.forall_mem_cons.2 ⟨⟨hplain.1, hfirst⟩, ih hplain.2 hrest⟩
  obtain ⟨-, hmethods⟩ := List.forall_mem_append.1 (List.forall_mem_cons.1 h.sites).2
  exact hlist _ methods h.plain.2 hmethods

end Stmt.Anchored

/-- The place behind some statements. -/
def Surroundings.startAll (around : Surroundings) (ss : List Stmt) : Surroundings :=
  ss.foldl Surroundings.start around

/-- Of statements in one scope, the first one stands at the place and the others behind it. -/
theorem Stmt.AnchoredList.cons {s : Stmt} {rest : List Stmt}
    (h : Stmt.AnchoredList distances around (s :: rest)) :
    s.Anchored distances around ∧ Stmt.AnchoredList distances (around.start s) rest :=
  have hsites := List.forall_mem_append.1 h.sites
  ⟨⟨h.plain.1, hsites.1⟩, ⟨h.plain.2, hsites.2⟩⟩

/-- A statement behind others. -/
theorem Stmt.AnchoredList.statement {before later : List Stmt} {s : Stmt}
    (h : Stmt.AnchoredList distances around (before ++ s :: later)) :
    s.Anchored distances (around.startAll before) := by
  induction before generalizing around with
  | nil => exact h.cons.1
  | cons first before ih => exact ih h.cons.2

/-- The body of a function stands in the scope of its parameters. -/
theorem FunDecl.Anchored.body {opener : Opener} {f : FunDecl}
    (h : FunDecl.Anchored distances around opener f) :
    Stmt.AnchoredList distances (.statements opener f.params [] :: around) f.body := by
  obtain ⟨name, params, body⟩ := f
  exact ⟨h.plain.2, (List.forall_mem_append.1 h.sites).2⟩

/-- Parameters that break no rule have different names. -/
theorem FunDecl.Anchored.params_nodup {opener : Opener} {f : FunDecl}
    (h : FunDecl.Anchored distances around opener f) : (f.params.map (·.text)).Nodup := by
  have hlist : ∀ params earlier : List Name, (earlier.map (·.text)).Nodup →
      (∀ o ∈ occurrencesParams around opener earlier params, o.Anchored distances) →
      ((earlier ++ params).map (·.text)).Nodup := by
    intro params
    induction params with
    | nil =>
      intro earlier hearlier _
      rwa [List.append_nil]
    | cons name rest ih =>
      intro earlier hearlier hsites
      obtain ⟨hname, hrest⟩ := List.forall_mem_cons.1 hsites
      have hnew : name.text ∉ earlier.map (·.text) := by
        intro htaken
        refine hname.right _ (.duplicateDeclaration ?_)
        exact List.mem_append_left _ htaken
      rw [List.append_cons]
      refine ih (earlier ++ [name]) ?_ hrest
      rw [List.map_append, List.nodup_append]
      refine ⟨hearlier, List.nodup_singleton _, fun x hx y hy hxy => hnew ?_⟩
      rw [List.map_singleton, List.mem_singleton] at hy
      exact hy ▸ hxy ▸ hx
  obtain ⟨name, params, body⟩ := f
  exact hlist params [] .nil (List.forall_mem_append.1 h.sites).1

end Parts

/-! ### Places and environments -/

/-- A property of places and environments that is kept when a statement begins and when
a scope is opened, with a frame for it. -/
structure Stable (R : Surroundings → Env → Prop) : Prop where
  /-- A statement may begin at the place. -/
  start : ∀ (around : Surroundings) (env : Env) (s : Stmt),
    R around env → R (around.start s) env
  /-- A scope may be opened at the place, with a frame for it. -/
  scope : ∀ (opener : Opener) (params : List Name) (begun : List Stmt) (around : Surroundings)
    (env : Env) (frame : Nat), R around env →
      R (.statements opener params begun :: around) (frame :: env)

/-- A stable property is kept by statements that begin one after another. -/
theorem Stable.startAll {R : Surroundings → Env → Prop} (hR : Stable R) {around : Surroundings}
    {env : Env} (h : R around env) (ss : List Stmt) : R (around.startAll ss) env := by
  induction ss generalizing around with
  | nil => exact h
  | cons s rest ih => exact ih (hR.start _ _ s h)

/-- A place outside of all classes. -/
def NoClass (around : Surroundings) (_ : Env) : Prop := around.class? = none

/-- Being outside of all classes is stable, since no scope of statements is one of methods. -/
theorem stable_noClass : Stable NoClass where
  start := fun around env s h => by
    cases around with
    | nil => exact h
    | cons layer outer =>
      cases layer with
      | statements opener params begun => exact h
      | methods derived => cases h
  scope := fun _ _ _ _ _ _ h => h

/-! ### The keywords in a method -/

/-- A place in the methods of a class and in no class inside of it, where the methods
are bound in an environment: only scopes of statements come between, each with its
frame. -/
inductive InMethod (derived : Bool) (outer : Surroundings) (bound : Env) :
    Surroundings → Env → Prop where
  /-- The place of the methods themselves. -/
  | methods : InMethod derived outer bound (.methods derived :: outer) bound
  /-- A scope of statements, with its frame. -/
  | scope {opener : Opener} {params : List Name} {begun : List Stmt} {around : Surroundings}
      {env : Env} (frame : Nat) (h : InMethod derived outer bound around env) :
      InMethod derived outer bound (.statements opener params begun :: around) (frame :: env)

namespace InMethod

variable {derived : Bool} {outer around : Surroundings} {bound env : Env}

/-- Being in a method is stable: every scope that is opened there has its frame. -/
theorem stable : Stable (InMethod derived outer bound) where
  start := fun around env s h => by
    cases h with
    | methods => exact .methods
    | scope frame h => exact .scope frame h
  scope := fun _ _ _ _ _ frame h => .scope frame h

/-- There is a class around the place, the one that the methods belong to. -/
theorem class_eq (h : InMethod derived outer bound around env) :
    around.class? = some derived := by
  induction h with
  | methods => rfl
  | scope frame _ ih => exact ih

/-- A name that is no plain one is bound one scope further out. -/
theorem binds_scope {opener : Opener} {params : List Name} {begun : List Stmt}
    (hlayer : (Layer.statements opener params begun).Plain) {text : String}
    (htext : ¬IsPlain text) {d : Nat} (h : around.Binds text d) :
    Surroundings.Binds (.statements opener params begun :: around) text (d + 1) := by
  obtain ⟨⟨names, hnames, hmem⟩, hfirst⟩ := h
  refine ⟨⟨names, hnames, hmem⟩, fun nearer hnearer others hothers => ?_⟩
  cases nearer with
  | zero =>
    cases hothers
    exact fun hhas => htext (hlayer text hhas)
  | succ nearer => exact hfirst nearer (Nat.lt_of_succ_lt_succ hnearer) others hothers

/-- The keyword of objects is bound where the environment of the methods begins, and
in a class with a superclass the other one is bound one frame further out. -/
theorem binds (h : InMethod derived outer bound around env) (hplain : around.Plain) :
    ∃ n, env.drop n = bound ∧ around.Binds "this" n ∧
      (derived = true → around.Binds "super" (n + 1)) := by
  induction h with
  | methods =>
    refine ⟨0, rfl, ⟨⟨["this"], ?_, .head _⟩, nofun⟩, fun hderived => ?_⟩
    · cases derived <;> rfl
    · rw [hderived]
      refine ⟨⟨["super"], rfl, .head _⟩, fun nearer hnearer others hothers => ?_⟩
      obtain rfl : nearer = 0 := by omega
      cases hothers
      decide
  | scope frame _ ih =>
    obtain ⟨hlayer, hrest⟩ := List.forall_mem_cons.1 hplain
    obtain ⟨n, henv, hthis, hsuper⟩ := ih hrest
    exact ⟨n + 1, henv, binds_scope hlayer not_isPlain_this hthis,
      fun hderived => binds_scope hlayer not_isPlain_super (hsuper hderived)⟩

end InMethod

end Lox
