import Lox.Proofs.Grammar.Soundness

/-!
# Where trees and errors come from

Every name in a tree is that of an identifier that was read, and every line is that of a
token that was read. Every error is reported at a token, too. All this holds of all that
a parser yields, whatever is wrong with the tokens: it takes them from a list, keeps the
end of the input apart, and makes up none.
-/

namespace Lox

/-! ### Trees over tokens -/

section Trees

variable (M : Token → Prop)

/-- A line on which one of the tokens is. -/
def IsLineOf (line : Nat) : Prop := ∃ t, M t ∧ t.line = line

/-- A name that one of the tokens spells. -/
def Name.IsOf (name : Name) : Prop := ∃ t, M t ∧ t.kind = .identifier ∧ t.asName = name

mutual

/-- All names and lines of an expression are those of tokens. -/
def Expr.Over : Expr → Prop
  | .literal _ => True
  | .group inner => inner.Over
  | .unary _ line operand => IsLineOf M line ∧ operand.Over
  | .binary _ line left right => IsLineOf M line ∧ left.Over ∧ right.Over
  | .logical _ line left right => IsLineOf M line ∧ left.Over ∧ right.Over
  | .var ref => ref.name.IsOf M
  | .assign ref value => ref.name.IsOf M ∧ value.Over
  | .call callee arguments line => callee.Over ∧ Expr.OverList arguments ∧ IsLineOf M line
  | .get object name => object.Over ∧ name.IsOf M
  | .set object name value => object.Over ∧ name.IsOf M ∧ value.Over
  | .this _ line => IsLineOf M line
  | .super _ line method => IsLineOf M line ∧ method.IsOf M

/-- All names and lines of several expressions are those of tokens. -/
def Expr.OverList : List Expr → Prop
  | [] => True
  | e :: rest => e.Over ∧ Expr.OverList rest

end

/-- All names and lines of an expression that may be missing are those of tokens. -/
def OverOption : Option Expr → Prop
  | none => True
  | some e => e.Over M

/-- The name of a superclass is that of a token. -/
def OverParent : Option Ref → Prop
  | none => True
  | some ref => ref.name.IsOf M

mutual

/-- All names and lines of a statement are those of tokens. -/
def Stmt.Over : Stmt → Prop
  | .expression e => e.Over M
  | .print e => e.Over M
  | .varDecl name initializer => name.IsOf M ∧ OverOption M initializer
  | .block body => Stmt.OverList body
  | .branch condition yes none => condition.Over M ∧ yes.Over
  | .branch condition yes (some no) => condition.Over M ∧ yes.Over ∧ no.Over
  | .loop condition body => condition.Over M ∧ body.Over
  | .funDecl function => FunDecl.Over function
  | .result line value => IsLineOf M line ∧ OverOption M value
  | .classDecl name superclass methods =>
    name.IsOf M ∧ OverParent M superclass ∧ FunDecl.OverList methods

/-- All names and lines of several statements are those of tokens. -/
def Stmt.OverList : List Stmt → Prop
  | [] => True
  | s :: rest => s.Over ∧ Stmt.OverList rest

/-- All names and lines of a function are those of tokens. -/
def FunDecl.Over : FunDecl → Prop
  | ⟨name, params, body⟩ => name.IsOf M ∧ (∀ param ∈ params, param.IsOf M) ∧ Stmt.OverList body

/-- All names and lines of several functions are those of tokens. -/
def FunDecl.OverList : List FunDecl → Prop
  | [] => True
  | f :: rest => FunDecl.Over f ∧ FunDecl.OverList rest

end

end Trees

section Lists

variable {M : Token → Prop}

/-- The line of a name is that of the token that spells it. -/
theorem Name.IsOf.line {name : Name} (h : name.IsOf M) : IsLineOf M name.line := by
  obtain ⟨t, ht, -, rfl⟩ := h
  exact ⟨t, ht, rfl⟩

/-- Each of several expressions over tokens is over them. -/
theorem Expr.OverList.mem {es : List Expr} (h : Expr.OverList M es) : ∀ e ∈ es, e.Over M := by
  induction es with
  | nil => nofun
  | cons e rest ih => exact List.forall_mem_cons.2 ⟨h.1, ih h.2⟩

/-- Each of several statements over tokens is over them. -/
theorem Stmt.OverList.mem {ss : List Stmt} (h : Stmt.OverList M ss) : ∀ s ∈ ss, s.Over M := by
  induction ss with
  | nil => nofun
  | cons s rest ih => exact List.forall_mem_cons.2 ⟨h.1, ih h.2⟩

/-- Each of several functions over tokens is over them. -/
theorem FunDecl.OverList.mem {fs : List FunDecl} (h : FunDecl.OverList M fs) :
    ∀ f ∈ fs, FunDecl.Over M f := by
  induction fs with
  | nil => nofun
  | cons f rest ih => exact List.forall_mem_cons.2 ⟨h.1, ih h.2⟩

/-- What is declared in the body of a function over tokens is over them as well. -/
theorem FunDecl.Over.body {f : FunDecl} (h : FunDecl.Over M f) : ∀ s ∈ f.body, s.Over M := by
  cases f
  exact h.2.2.mem

/-- Statements over tokens may be put behind one another. -/
theorem Stmt.OverList.append {first second : List Stmt} (h : Stmt.OverList M first)
    (h' : Stmt.OverList M second) : Stmt.OverList M (first ++ second) := by
  induction first with
  | nil => exact h'
  | cons s rest ih => exact ⟨h.1, ih h.2⟩

/-- A statement that may be missing is one statement or none. -/
theorem Stmt.OverList.toList {o : Option Stmt} (h : ∀ s ∈ o, Stmt.Over M s) :
    Stmt.OverList M o.toList := by
  cases o with
  | none => trivial
  | some s => exact ⟨h s rfl, trivial⟩

end Lists

/-! ### Parsers over tokens -/

/-- All tokens of a cursor, and all places of the errors that were reported, are among the
given ones. -/
structure Cursor.Over (M : Token → Prop) (c : Cursor) : Prop where
  /-- What is ahead are tokens that are given. -/
  ahead : ∀ t ∈ c.ahead, M t
  /-- The end of the input is one as well. -/
  finish : M c.finish
  /-- Errors were reported at tokens that are given. -/
  errors : ∀ e ∈ c.errors.toList, M e.place

/-- The next token is one of the tokens, also at the end of the input. -/
theorem Cursor.Over.current {M : Token → Prop} {c : Cursor} (h : c.Over M) : M c.current := by
  obtain ⟨ahead, finish, nextId, errors⟩ := c
  cases ahead with
  | nil => exact h.finish
  | cons t rest => exact h.ahead t (.head _)

/-- An error that is reported at one of the tokens leaves the cursor over them. -/
theorem Cursor.Over.report {M : Token → Prop} {c : Cursor} (h : c.Over M) {error : SyntaxError}
    (herror : M error.place) : (c.report error).Over M := by
  refine ⟨h.ahead, h.finish, fun e he => ?_⟩
  rw [Cursor.report, Array.toList_push, List.mem_append, List.mem_singleton] at he
  rcases he with he | rfl
  · exact h.errors e he
  · exact herror

/-- The cursor after some tokens were taken from the front. -/
theorem Cursor.Over.drop {M : Token → Prop} {c : Cursor} (h : c.Over M) {rest : List Token}
    (hrest : rest ⊆ c.ahead) : Cursor.Over M { c with ahead := rest } :=
  ⟨fun t ht => h.ahead t (hrest ht), h.finish, h.errors⟩

/-- Nothing is said of what is yielded. -/
abbrev Any {α : Type} : α → Prop := fun _ => True

namespace Parse

open Grammar

variable {α β : Type} {M : Token → Prop}

/-- What a parser yields over some tokens has a property, and where it fails is one of the
tokens. -/
def Draws (M : Token → Prop) (P : α → Prop) (p : Parse α) : Prop := ∀ c : Cursor, c.Over M →
  match p c with
  | .ok a after => P a ∧ after.Over M
  | .error e after => M e.place ∧ after.Over M

namespace Draws

variable {P P' : α → Prop} {Q : β → Prop} {p q : Parse α} {k : α → Parse β}

/-- A parser that takes nothing makes up no token. -/
theorem pure {a : α} (h : P a) : Draws M P (Pure.pure a) := fun _ hc => ⟨h, hc⟩

/-- What is known of what the first parser yields may be used for the second one. -/
theorem bind (hp : Draws M P p) (hk : ∀ a, P a → Draws M Q (k a)) : Draws M Q (p >>= k) := by
  intro c hc
  have hfirst := hp c hc
  rw [bind_apply]
  revert hfirst
  cases p c with
  | error e after => exact id
  | ok a after => exact fun hfirst => hk a hfirst.1 after hfirst.2

/-- What a parser yields may be known to have a weaker property. -/
theorem mono (hp : Draws M P p) (h : ∀ a, P a → P' a) : Draws M P' p := by
  intro c hc
  have hresult := hp c hc
  revert hresult
  cases p c with
  | error e after => exact id
  | ok a after => exact fun hresult => ⟨h a hresult.1, hresult.2⟩

/-- What is built of what a parser yields has the property that it is built with. -/
theorem map (hp : Draws M P p) (f : α → β) (h : ∀ a, P a → Q (f a)) : Draws M Q (f <$> p) := by
  rw [map_eq_pure_bind]
  exact hp.bind fun a ha => .pure (h a ha)

/-- Whichever of two parsers is chosen, it yields what both of them do. -/
theorem ite {b : Bool} (hp : Draws M P p) (hq : Draws M P q) :
    Draws M P (if b then p else q) := by
  cases b with
  | true => exact hp
  | false => exact hq

end Draws

/-! ### Single tokens -/

/-- The token that is looked at is one of the tokens. -/
theorem draws_peek : Draws M M peek := fun _ hc => ⟨hc.current, hc⟩

/-- To count the tokens that are left makes up none. -/
theorem draws_remaining : Draws M Any remaining := fun _ hc => ⟨trivial, hc⟩

/-- To ask for the end of the input makes up no token. -/
theorem draws_atEnd : Draws M Any atEnd := fun _ hc => ⟨trivial, hc⟩

/-- An identity is handed out without a token. -/
theorem draws_freshId : Draws M Any freshId := fun _ hc => ⟨trivial, hc.ahead, hc.finish, hc.errors⟩

/-- A parser fails at the next token, which is one of the tokens. -/
theorem draws_fail (P : α → Prop) (cause : SyntaxCause) : Draws M P (fail cause) :=
  fun _ hc => ⟨hc.current, hc⟩

/-- An error may be reported at one of the tokens. -/
theorem draws_report {error : SyntaxError} (h : M error.place) :
    Draws M Any (Parse.report error) :=
  fun _ hc => ⟨trivial, hc.report h⟩

/-- What is left behind a token are tokens that were there before it. -/
theorem draws_advance : Draws M Any advance :=
  fun _ hc => ⟨trivial, hc.drop (List.tail_sublist _).subset⟩

/-- To ask whether a symbol is next makes up no token. -/
theorem draws_check (symbol : Symbol) : Draws M Any (check symbol) :=
  draws_peek.bind fun _ _ => .pure trivial

/-- What is taken is a token with the meaning that it is given. -/
theorem draws_acceptMap (select : Token → Option α) :
    Draws M (fun o => ∀ a ∈ o, ∃ t, M t ∧ select t = some a) (acceptMap select) := by
  rintro ⟨ahead, finish, nextId, errors⟩ hc
  unfold acceptMap
  rw [modifyGet_apply]
  cases ahead with
  | nil => exact ⟨nofun, hc⟩
  | cons t rest =>
    cases ht : select t with
    | none =>
      dsimp only
      rw [ht]
      exact ⟨nofun, hc⟩
    | some a =>
      dsimp only
      rw [ht]
      refine ⟨fun b hb => ?_, hc.drop (List.subset_cons_self t rest)⟩
      cases hb
      exact ⟨t, hc.ahead t (.head _), ht⟩

/-- What has to be there is selected from one of the tokens, and where it is missing the
error is at one of them. -/
theorem draws_expectMap (select : Token → Option α) (what : String) :
    Draws M (fun a => ∃ t, M t ∧ select t = some a) (expectMap select what) := by
  refine (draws_acceptMap select).bind fun o ho => ?_
  cases o with
  | none => exact draws_fail _ _
  | some a => exact .pure (ho a rfl)

/-- The token of a symbol is the token itself. -/
theorem eq_of_symbol {symbol : Symbol} {t u : Token}
    (h : (if t.is symbol then some t else none) = some u) : t = u := by
  split at h
  · exact Option.some.inj h
  · cases h

/-- A symbol that is taken is one of the tokens. -/
theorem draws_accept? (symbol : Symbol) :
    Draws M (fun o => ∀ t ∈ o, M t) (accept? symbol) := by
  refine (draws_acceptMap _).mono fun o ho u hu => ?_
  obtain ⟨t, ht, hselect⟩ := ho u hu
  exact eq_of_symbol hselect ▸ ht

/-- To ask for a symbol, and to take it, makes up no token. -/
theorem draws_accept (symbol : Symbol) : Draws M Any (accept symbol) :=
  (draws_accept? symbol).bind fun _ _ => .pure trivial

/-- A symbol that has to be there is one of the tokens. -/
theorem draws_expect (symbol : Symbol) (what : String) : Draws M M (expect symbol what) := by
  refine (draws_expectMap _ what).mono ?_
  rintro u ⟨t, ht, hselect⟩
  exact eq_of_symbol hselect ▸ ht

/-- A name that is read is that of an identifier. -/
theorem draws_expectName (what : String) : Draws M (Name.IsOf M) (expectName what) := by
  refine (draws_expectMap nameOf? what).mono ?_
  rintro name ⟨t, ht, hname⟩
  obtain ⟨hkind, rfl⟩ := nameOf?_eq_some hname
  exact ⟨t, ht, hkind, rfl⟩

/-- An operator that is taken is one that is known, on the line of a token. -/
theorem draws_acceptOperator (select : Symbol → Option α) :
    Draws M (fun o => ∀ a ∈ o, (∃ s, select s = some a.1) ∧ IsLineOf M a.2)
      (acceptOperator select) := by
  refine (draws_acceptMap _).mono ?_
  rintro o ho ⟨a, line⟩ ha
  obtain ⟨t, ht, hselect⟩ := ho (a, line) ha
  split at hselect
  · obtain ⟨b, hb, hpair⟩ := Option.map_eq_some_iff.1 hselect
    cases hpair
    exact ⟨⟨_, hb⟩, t, ht, rfl⟩
  · cases hselect

/-! ### Expressions -/

/-- Operators that join expressions to expressions. -/
def Joins (M : Token → Prop) (operator : Symbol → Option Joiner) : Prop :=
  ∀ s join, operator s = some join → ∀ line left right, IsLineOf M line →
    Expr.Over M left → Expr.Over M right → (join line left right).Over M

/-- The operators of all levels are binary or logical ones. -/
theorem Knows.joins {operator : Symbol → Option Joiner} {level : Level}
    (h : Knows operator level) : Joins M operator := by
  intro s join hjoin line left right hline hleft hright
  obtain ⟨op, -, rfl⟩ := (h s join).1 hjoin
  cases op with
  | binary op => exact ⟨hline, hleft, hright⟩
  | logical op => exact ⟨hline, hleft, hright⟩

section Expressions

variable {bound : Nat} {expression : Parse Expr}

/-- Operations of one level are over the tokens when their operands are; their lines are
those of the operators. -/
theorem draws_joinLeft {operator : Symbol → Option Joiner} {operand : Parse Expr}
    (hjoins : Joins M operator) (ho : Draws M (Expr.Over M) operand) (fuel : Nat) {left : Expr}
    (hleft : left.Over M) : Draws M (Expr.Over M) (joinLeft operator operand fuel left) := by
  induction fuel generalizing left with
  | zero => exact .pure hleft
  | succ fuel ih =>
    refine (draws_acceptOperator operator).bind fun found hfound => ?_
    cases found with
    | none => exact .pure hleft
    | some found =>
      obtain ⟨join, line⟩ := found
      obtain ⟨⟨s, hs⟩, hline⟩ := hfound _ rfl
      refine ho.bind fun right hright => ih ?_
      exact hjoins s join hs line left right hline hleft hright

/-- A prefix operator has the line of its token. -/
theorem draws_unary {operand : Parse Expr} (ho : Draws M (Expr.Over M) operand) (fuel : Nat) :
    Draws M (Expr.Over M) (unary operand fuel) := by
  induction fuel with
  | zero => exact ho
  | succ fuel ih =>
    refine (draws_acceptOperator unaryOperator).bind fun found hfound => ?_
    cases found with
    | none => exact ho
    | some found =>
      obtain ⟨op, line⟩ := found
      exact ih.bind fun operand hoperand => .pure ⟨(hfound _ rfl).2, hoperand⟩

/-- A list that is too long is reported at the next token, which is one of the tokens. -/
theorem draws_reportSurplus (what : String) (count : Nat) :
    Draws M Any (reportSurplus what count) := by
  unfold reportSurplus
  split
  · exact draws_peek.bind fun t ht => draws_report ht
  · exact .pure trivial

/-- The arguments of a call are over the tokens. -/
theorem draws_argumentList (he : Draws M (Expr.Over M) expression) (fuel count : Nat) :
    Draws M (Expr.OverList M) (argumentList expression fuel count) := by
  induction fuel generalizing count with
  | zero => exact draws_fail _ _
  | succ fuel ih =>
    refine (draws_reportSurplus _ count).bind fun _ _ => ?_
    refine he.bind fun e hover => (draws_accept .comma).bind fun _ _ => .ite ?_ ?_
    · exact (ih (count + 1)).bind fun rest hrest => .pure ⟨hover, hrest⟩
    · exact .pure ⟨hover, trivial⟩

/-- A call has the line of its closing parenthesis. -/
theorem draws_arguments (he : Draws M (Expr.Over M) expression) :
    Draws M (fun found => Expr.OverList M found.1 ∧ IsLineOf M found.2)
      (arguments bound expression) := by
  have hvalues : Draws M (Expr.OverList M) (argumentValues bound expression) :=
    (draws_check .rightParen).bind fun _ _ =>
      .ite (.pure trivial) (draws_argumentList he _ 0)
  refine hvalues.bind fun values hover => ?_
  exact (draws_expect _ _).bind fun paren hparen => .pure ⟨hover, paren, hparen, rfl⟩

/-- Calls and properties are over the tokens: a property has the name of a token. -/
theorem draws_suffixes (he : Draws M (Expr.Over M) expression) (fuel : Nat) {object : Expr}
    (hobject : object.Over M) :
    Draws M (Expr.Over M) (suffixes bound expression fuel object) := by
  induction fuel generalizing object with
  | zero => exact .pure hobject
  | succ fuel ih =>
    refine (draws_accept .leftParen).bind fun _ _ => .ite ?_ ?_
    · exact (draws_arguments he).bind fun found hfound => ih ⟨hobject, hfound.1, hfound.2⟩
    · refine (draws_accept .dot).bind fun _ _ => .ite ?_ (.pure hobject)
      exact (draws_expectName _).bind fun name hname => ih ⟨hobject, hname⟩

/-- A primary expression is a literal or has the name or the line of a token. -/
theorem draws_primary (he : Draws M (Expr.Over M) expression) :
    Draws M (Expr.Over M) (primary expression) := by
  refine (draws_expectMap primary? _).bind ?_
  rintro start ⟨t, ht, hstart⟩
  cases start with
  | literal value => exact .pure trivial
  | super line =>
    obtain ⟨-, rfl⟩ := primary?_super hstart
    refine (draws_expect _ _).bind fun _ _ => (draws_expectName _).bind fun name hname => ?_
    exact draws_freshId.bind fun _ _ => .pure ⟨⟨t, ht, rfl⟩, hname⟩
  | this line =>
    obtain ⟨-, rfl⟩ := primary?_this hstart
    exact draws_freshId.bind fun _ _ => .pure ⟨t, ht, rfl⟩
  | name name =>
    obtain ⟨hkind, rfl⟩ := primary?_name hstart
    exact draws_freshId.bind fun _ _ => .pure ⟨t, ht, hkind, rfl⟩
  | group =>
    refine he.bind fun inner hinner => ?_
    exact (draws_expect _ _).bind fun _ _ => .pure hinner

/-- All levels of operators, whatever their operators. -/
theorem draws_operationOf (he : Draws M (Expr.Over M) expression)
    {operators : List (Symbol → Option Joiner)} {levels : List Level}
    (hknow : List.Forall₂ Knows operators levels) :
    Draws M (Expr.Over M) (operationOf bound expression operators) := by
  induction hknow with
  | nil =>
    refine draws_unary ?_ bound
    exact (draws_primary he).bind fun object hobject => draws_suffixes he bound hobject
  | cons h _ ih => exact ih.bind fun left hleft => draws_joinLeft h.joins ih bound hleft

/-- An assignment has the name that its target has, and an error in its target is at the `=`. -/
theorem draws_assignment (he : Draws M (Expr.Over M) expression) :
    Draws M (Expr.Over M) (assignment bound expression) := by
  have htarget : Draws M (Expr.Over M) (operation bound expression) :=
    operation_eq bound expression ▸ draws_operationOf he levelOperators_know
  refine htarget.bind fun target hover => (draws_accept? .equal).bind fun equals hequals => ?_
  cases equals with
  | none => exact .pure hover
  | some equals =>
    refine he.bind fun value hvalue => ?_
    split
    · exact draws_freshId.bind fun _ _ => .pure ⟨hover, hvalue⟩
    · exact .pure ⟨hover.1, hover.2, hvalue⟩
    · exact (draws_report (hequals _ rfl)).bind fun _ _ => .pure hover

end Expressions

/-- The depth to which expressions nest plays no part in where they come from. -/
theorem draws_expressionWithin (bound : Nat) :
    Draws M (Expr.Over M) (expressionWithin bound) := by
  induction bound with
  | zero => exact draws_fail _ _
  | succ bound ih => exact draws_assignment ih

/-- An expression is over the tokens it is read from. -/
theorem draws_expression : Draws M (Expr.Over M) Parse.expression :=
  draws_remaining.bind fun bound _ => draws_expressionWithin bound

/-! ### Statements -/

/-- The initial value of a variable is over the tokens, where there is one. -/
theorem draws_initialValue : Draws M (OverOption M) initialValue := by
  refine (draws_accept .equal).bind fun _ _ => .ite ?_ (.pure trivial)
  exact draws_expression.map some fun e he => he

/-- A declared variable has the name of a token. -/
theorem draws_varDeclaration : Draws M (Stmt.Over M) varDeclaration := by
  refine (draws_expectName _).bind fun name hname => ?_
  refine draws_initialValue.bind fun initializer hinitializer => ?_
  exact (draws_expect _ _).bind fun _ _ => .pure ⟨hname, hinitializer⟩

/-- An expression as a statement is over the tokens. -/
theorem draws_expressionStatement : Draws M (Stmt.Over M) expressionStatement := by
  refine draws_expression.bind fun e he => ?_
  exact (draws_expect _ _).bind fun _ _ => .pure he

/-- An expression that may be left out is over the tokens, where it is there. -/
theorem draws_expressionUnless (symbol : Symbol) :
    Draws M (OverOption M) (expressionUnless symbol) := by
  refine (draws_check symbol).bind fun _ _ => .ite (.pure trivial) ?_
  exact draws_expression.map some fun e he => he

/-- The parameters of a function have the names of tokens. -/
theorem draws_parameterList (fuel count : Nat) :
    Draws M (fun names => ∀ name ∈ names, name.IsOf M) (parameterList fuel count) := by
  induction fuel generalizing count with
  | zero => exact draws_fail _ _
  | succ fuel ih =>
    refine (draws_reportSurplus _ count).bind fun _ _ => ?_
    refine (draws_expectName _).bind fun name hname => ?_
    refine (draws_accept .comma).bind fun _ _ => .ite ?_ (.pure ?_)
    · refine (ih (count + 1)).bind fun names hnames => .pure ?_
      exact List.forall_mem_cons.2 ⟨hname, hnames⟩
    · exact List.forall_mem_singleton.2 hname

/-- The parameters between the parentheses of a function have the names of tokens. -/
theorem draws_parameters :
    Draws M (fun names => ∀ name ∈ names, name.IsOf M) parameters := by
  refine (draws_check .rightParen).bind fun _ _ => .ite (.pure nofun) ?_
  exact draws_remaining.bind fun bound _ => draws_parameterList (bound + 1) 0

/-- A superclass has the name of a token. -/
theorem draws_superclassClause : Draws M (OverParent M) superclassClause := by
  refine (draws_accept .less).bind fun _ _ => .ite ?_ (.pure trivial)
  refine (draws_expectName _).bind fun name hname => ?_
  exact draws_freshId.bind fun _ _ => .pure hname

/-- What reading yields where nothing may be found. -/
abbrev OverFound (M : Token → Prop) (o : Option Stmt) : Prop := ∀ s ∈ o, Stmt.Over M s

/-- A statement over the tokens is one that may be missing. -/
theorem overFound_some {s : Stmt} (h : s.Over M) : OverFound M (some s) :=
  fun _ ht => Option.mem_some.1 ht ▸ h

/-- The first clause of a `for` statement is over the tokens, where it is there. -/
theorem draws_forInitializer : Draws M (OverFound M) forInitializer := by
  refine (draws_accept .semicolon).bind fun _ _ => .ite (.pure nofun) ?_
  refine (draws_accept .varWord).bind fun _ _ => .ite ?_ ?_
  · exact draws_varDeclaration.map some fun s hs => overFound_some hs
  · exact draws_expressionStatement.map some fun s hs => overFound_some hs

/-- The loop that a `for` statement stands for has no more names and lines than its
clauses. -/
theorem over_forLoop {initializer : Option Stmt} {condition increment : Option Expr} {body : Stmt}
    (hi : OverFound M initializer) (hc : OverOption M condition) (hn : OverOption M increment)
    (hb : body.Over M) : (forLoop initializer condition increment body).Over M := by
  have hcondition : (condition.getD (.literal (.bool true))).Over M := by
    cases condition with
    | none => trivial
    | some e => exact hc
  cases initializer with
  | none =>
    cases increment with
    | none => exact ⟨hcondition, hb⟩
    | some e => exact ⟨hcondition, hb, hn, trivial⟩
  | some first =>
    have hfirst := hi first rfl
    cases increment with
    | none => exact ⟨hfirst, ⟨hcondition, hb⟩, trivial⟩
    | some e => exact ⟨hfirst, ⟨hcondition, hb, hn, trivial⟩, trivial⟩

section Statements

variable {declaration : Parse (Option Stmt)} {statement : Parse Stmt}

/-- Declarations that stand one after the other are over the tokens, also where some
between them were dropped. -/
theorem draws_declarationList (hd : Draws M (OverFound M) declaration) (fuel : Nat) :
    Draws M (Stmt.OverList M) (declarationList declaration fuel) := by
  induction fuel with
  | zero => exact .pure trivial
  | succ fuel ih =>
    refine (draws_check .rightBrace).bind fun _ _ => draws_atEnd.bind fun _ _ => ?_
    refine .ite (.pure trivial) (hd.bind fun first hfirst => ih.bind fun rest hrest => ?_)
    exact .pure ((Stmt.OverList.toList hfirst).append hrest)

/-- The declarations of a block are over the tokens. -/
theorem draws_block (hd : Draws M (OverFound M) declaration) :
    Draws M (Stmt.OverList M) (block declaration) := by
  refine draws_remaining.bind fun fuel _ => ?_
  refine (draws_declarationList hd fuel).bind fun body hbody => ?_
  exact (draws_expect _ _).bind fun _ _ => .pure hbody

/-- The name, the parameters and the body of a function are over the tokens. -/
theorem draws_function (hd : Draws M (OverFound M) declaration) (kind : String) :
    Draws M (FunDecl.Over M) (function declaration kind) := by
  refine (draws_expectName _).bind fun name hname => ?_
  refine (draws_expect _ _).bind fun _ _ => ?_
  refine draws_parameters.bind fun params hparams => ?_
  refine (draws_expect _ _).bind fun _ _ => (draws_expect _ _).bind fun _ _ => ?_
  exact (draws_block hd).bind fun body hbody => .pure ⟨hname, hparams, hbody⟩

/-- The methods of a class are over the tokens. -/
theorem draws_methodList (hd : Draws M (OverFound M) declaration) (fuel : Nat) :
    Draws M (FunDecl.OverList M) (methodList declaration fuel) := by
  induction fuel with
  | zero => exact .pure trivial
  | succ fuel ih =>
    refine (draws_check .rightBrace).bind fun _ _ => draws_atEnd.bind fun _ _ => ?_
    refine .ite (.pure trivial) ?_
    exact (draws_function hd _).bind fun f hf => ih.bind fun rest hrest => .pure ⟨hf, hrest⟩

/-- A class has the name of a token, and so has its superclass. -/
theorem draws_classDeclaration (hd : Draws M (OverFound M) declaration) :
    Draws M (Stmt.Over M) (classDeclaration declaration) := by
  refine (draws_expectName _).bind fun name hname => ?_
  refine draws_superclassClause.bind fun parent hparent => ?_
  refine (draws_expect _ _).bind fun _ _ => draws_remaining.bind fun fuel _ => ?_
  refine (draws_methodList hd fuel).bind fun methods hmethods => ?_
  exact (draws_expect _ _).bind fun _ _ => .pure ⟨hname, hparent, hmethods⟩

/-- What follows `else` is over the tokens, where it is there. -/
theorem draws_elseBranch (hs : Draws M (Stmt.Over M) statement) :
    Draws M (OverFound M) (elseBranch statement) := by
  refine (draws_accept .elseWord).bind fun _ _ => .ite ?_ (.pure nofun)
  exact hs.map some fun s hover => overFound_some hover

/-- The condition and the branches of an `if` statement are over the tokens. -/
theorem draws_ifStatement (hs : Draws M (Stmt.Over M) statement) :
    Draws M (Stmt.Over M) (ifStatement statement) := by
  refine (draws_expect _ _).bind fun _ _ => draws_expression.bind fun condition hcondition => ?_
  refine (draws_expect _ _).bind fun _ _ => hs.bind fun yes hyes => ?_
  refine (draws_elseBranch hs).bind fun no hno => .pure ?_
  cases no with
  | none => exact ⟨hcondition, hyes⟩
  | some other => exact ⟨hcondition, hyes, hno other rfl⟩

/-- The condition and the body of a `while` statement are over the tokens. -/
theorem draws_whileStatement (hs : Draws M (Stmt.Over M) statement) :
    Draws M (Stmt.Over M) (whileStatement statement) := by
  refine (draws_expect _ _).bind fun _ _ => draws_expression.bind fun condition hcondition => ?_
  exact (draws_expect _ _).bind fun _ _ => hs.bind fun body hbody => .pure ⟨hcondition, hbody⟩

/-- A `for` statement is over the tokens: its loop adds a literal, which has no line, and
no names. -/
theorem draws_forStatement (hs : Draws M (Stmt.Over M) statement) :
    Draws M (Stmt.Over M) (forStatement statement) := by
  refine (draws_expect _ _).bind fun _ _ => ?_
  refine draws_forInitializer.bind fun initializer hinitializer => ?_
  refine (draws_expressionUnless _).bind fun condition hcondition => ?_
  refine (draws_expect _ _).bind fun _ _ => ?_
  refine (draws_expressionUnless _).bind fun increment hincrement => ?_
  refine (draws_expect _ _).bind fun _ _ => hs.bind fun body hbody => .pure ?_
  exact over_forLoop hinitializer hcondition hincrement hbody

/-- Each kind of statement is over the tokens, when what is nested in it is. -/
theorem draws_statementWith (hd : Draws M (OverFound M) declaration)
    (hs : Draws M (Stmt.Over M) statement) :
    Draws M (Stmt.Over M) (statementWith declaration statement) := by
  refine draws_peek.bind fun token htoken => ?_
  split
  · exact draws_advance.bind fun _ _ => draws_forStatement hs
  · exact draws_advance.bind fun _ _ => draws_ifStatement hs
  · exact draws_advance.bind fun _ _ => draws_whileStatement hs
  · refine draws_advance.bind fun _ _ => (draws_expressionUnless _).bind fun value hvalue => ?_
    exact (draws_expect _ _).bind fun _ _ => .pure ⟨⟨token, htoken, rfl⟩, hvalue⟩
  · refine draws_advance.bind fun _ _ => draws_expression.bind fun e he => ?_
    exact (draws_expect _ _).bind fun _ _ => .pure he
  · exact draws_advance.bind fun _ _ => (draws_block hd).map _ fun body hbody => hbody
  · exact draws_expressionStatement

/-- A declaration is over the tokens, and so is what is read behind a faulty one. -/
theorem draws_declarationWith (hd : Draws M (OverFound M) declaration)
    (hs : Draws M (Stmt.Over M) statement) :
    Draws M (Stmt.Over M) (declarationWith declaration statement) := by
  refine draws_peek.bind fun token _ => ?_
  split
  · exact draws_advance.bind fun _ _ => draws_classDeclaration hd
  · exact draws_advance.bind fun _ _ => (draws_function hd _).map _ fun f hf => hf
  · exact draws_advance.bind fun _ _ => draws_varDeclaration
  · exact draws_statementWith hd hs

end Statements

/-- Where a declaration fails, its error is reported and tokens are skipped. -/
theorem draws_recover {p : Parse Stmt} (hp : Draws M (Stmt.Over M) p) :
    Draws M (OverFound M) (recover p) := by
  intro c hc
  have hresult := hp c hc
  unfold recover
  revert hresult
  cases p c with
  | ok s after => exact fun hresult => ⟨overFound_some hresult.1, hresult.2⟩
  | error e after =>
    rintro ⟨hplace, hafter⟩
    exact ⟨nofun, (hafter.report hplace).drop (synchronize_suffix _).subset⟩

/-- The depth to which statements nest plays no part in where they come from. -/
theorem draws_within (bound : Nat) : Draws M (Stmt.Over M) (statementWithin bound) ∧
    Draws M (OverFound M) (declarationWithin bound) := by
  induction bound with
  | zero => exact ⟨draws_fail _ _, draws_recover (draws_fail _ _)⟩
  | succ bound ih =>
    exact ⟨draws_statementWith ih.2 ih.1, draws_recover (draws_declarationWith ih.2 ih.1)⟩

/-- The statements that are left of a program are over its tokens. -/
theorem draws_programList (fuel : Nat) : Draws M (Stmt.OverList M) (programList fuel) := by
  induction fuel with
  | zero => exact .pure trivial
  | succ fuel ih =>
    have hdeclaration : Draws M (OverFound M) declaration :=
      draws_remaining.bind fun bound _ => (draws_within bound).2
    refine draws_atEnd.bind fun _ _ => .ite (.pure trivial) ?_
    refine hdeclaration.bind fun first hfirst => ih.bind fun rest hrest => .pure ?_
    exact (Stmt.OverList.toList hfirst).append hrest

/-- A program is over its tokens, and its errors are at them. -/
theorem draws_program : Draws M (Stmt.OverList M) program :=
  draws_remaining.bind fun fuel _ => draws_programList fuel

end Parse

/-- What is read from tokens that end the input is made of these tokens, and so are the
places of all errors. -/
theorem parseTokens_over {tokens : List Token} (hfinish : ∃ t ∈ tokens, t.isFinish) (n : Nat) :
    Stmt.OverList (· ∈ tokens) (parseTokens tokens n).statements ∧
      ∀ e ∈ (parseTokens tokens n).errors, e.place ∈ tokens := by
  have hover : (Cursor.ofTokens tokens n).Over (· ∈ tokens) := by
    refine ⟨fun t ht => List.takeWhile_subset _ ht, ?_, nofun⟩
    obtain ⟨t, ht, htrue⟩ := hfinish
    cases hfind : tokens.find? (·.isFinish) with
    | none => exact absurd htrue (List.find?_eq_none.1 hfind t ht)
    | some u =>
      have hend : (Cursor.ofTokens tokens n).finish = u := by
        unfold Cursor.ofTokens
        rw [hfind]
        rfl
      exact hend ▸ List.mem_of_find?_eq_some hfind
  have hdraws := Parse.draws_program _ hover
  unfold parseTokens
  revert hdraws
  cases Parse.program (Cursor.ofTokens tokens n) with
  | ok ss after => exact fun hdraws => ⟨hdraws.1, hdraws.2.errors⟩
  | error e after => exact fun hdraws => ⟨trivial, (hdraws.2.report hdraws.1).errors⟩

end Lox
