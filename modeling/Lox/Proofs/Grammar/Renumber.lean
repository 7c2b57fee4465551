import Lox.Program
import Lox.Proofs.Grammar.Completeness
import Lox.Proofs.Shift

/-!
# Where identities and lines start

Two runs of a parser over tokens that differ in their lines only, all by one
number, with identities that start at different numbers, do the same: both yield
something or both fail, they report the same errors, and they leave the same
tokens, further down. The trees differ in their identities and lines only. This
holds whatever is wrong with the tokens, so the errors of a source do not depend
on the sources that were read before it, nor on the text that stands above it.
-/

namespace Lox

open Grammar

/-- An error further down by `l` lines. -/
def SyntaxError.shift (l : Nat) (error : SyntaxError) : SyntaxError :=
  ⟨error.place.shift l, error.cause⟩

/-- A cursor that hands out other identities, further down by `l` lines. -/
def Cursor.shift (g : Nat → Nat) (l : Nat) (c : Cursor) : Cursor where
  ahead := c.ahead.map (·.shift l)
  finish := c.finish.shift l
  nextId := g c.nextId
  errors := c.errors.map (·.shift l)

/-- The next token of a cursor further down is the next token, further down. -/
theorem Cursor.current_shift (g : Nat → Nat) (l : Nat) (c : Cursor) :
    (c.shift g l).current = c.current.shift l := by
  unfold Cursor.current Cursor.shift
  cases c.ahead <;> rfl

/-- An error that is reported further down is further down itself. -/
theorem Cursor.report_shift (g : Nat → Nat) (l : Nat) (c : Cursor) (error : SyntaxError) :
    (c.report error).shift g l = (c.shift g l).report (error.shift l) := by
  unfold Cursor.report Cursor.shift
  rw [Array.map_push]

namespace Parse

/-- The boundary of a statement does not depend on lines: as many tokens are skipped. -/
theorem skipToBoundary_shift (l : Nat) (previous : Token) (ts : List Token) :
    skipToBoundary (previous.shift l) (ts.map (·.shift l)) =
      (skipToBoundary previous ts).map (·.shift l) := by
  induction ts generalizing previous with
  | nil => rfl
  | cons t rest ih =>
    have hboundary : ((previous.shift l).is .semicolon || startsStatement (t.shift l)) =
        (previous.is .semicolon || startsStatement t) := rfl
    rw [List.map_cons, skipToBoundary, skipToBoundary, hboundary, ih]
    split <;> rfl

/-- Reading goes on at the same token. -/
theorem synchronize_shift (l : Nat) (ts : List Token) :
    synchronize (ts.map (·.shift l)) = (synchronize ts).map (·.shift l) := by
  cases ts with
  | nil => rfl
  | cons t rest => exact skipToBoundary_shift l t rest

variable {α β α' β' : Type} {g : Nat → Nat} {l : Nat}

/-- Two parsers that do the same from cursors that differ by `g` in the identities
they hand out and by `l` in their lines; `f` says what the second yields for what the
first does. -/
def Shifts (g : Nat → Nat) (l : Nat) (f : α → β) (p : Parse α) (q : Parse β) : Prop :=
  ∀ c : Cursor, Counts g c.nextId →
    (∃ a d, p c = .ok a d ∧ q (c.shift g l) = .ok (f a) (d.shift g l) ∧ Counts g d.nextId) ∨
    ∃ e d, p c = .error e d ∧ q (c.shift g l) = .error (e.shift l) (d.shift g l) ∧
      Counts g d.nextId

namespace Shifts

variable {f : α → β} {p : Parse α} {q : Parse β}

/-- Two parsers that take nothing yield what they are given. -/
theorem pure {a : α} {b : β} (h : b = f a) : Shifts g l f (pure a) (pure b) := by
  subst h
  exact fun c hc => .inl ⟨a, c, rfl, rfl, hc⟩

/-- The second parser starts where the first one ended, on both sides. -/
theorem bind {f' : α' → β'} {k : α → Parse α'} {k' : β → Parse β'} (hp : Shifts g l f p q)
    (hk : ∀ a, Shifts g l f' (k a) (k' (f a))) : Shifts g l f' (p >>= k) (q >>= k') := by
  intro c hc
  rw [bind_apply, bind_apply]
  rcases hp c hc with ⟨a, d, hp, hq, hd⟩ | ⟨e, d, hp, hq, hd⟩
  · rw [hp, hq]
    exact hk a d hd
  · rw [hp, hq]
    exact .inr ⟨e, d, rfl, rfl, hd⟩

/-- What both parsers yield may be built on, as long as it is built alike. -/
theorem map {f' : α' → β'} (hp : Shifts g l f p q) (k : α → α') (k' : β → β')
    (hk : ∀ a, k' (f a) = f' (k a)) : Shifts g l f' (k <$> p) (k' <$> q) := by
  rw [map_eq_pure_bind, map_eq_pure_bind]
  exact hp.bind fun a => .pure (hk a)

/-- A choice that both make alike. -/
theorem ite {b : Bool} {p' : Parse α} {q' : Parse β} (hp : Shifts g l f p q)
    (hp' : Shifts g l f p' q') :
    Shifts g l f (if b then p else p') (if b then q else q') := by
  cases b with
  | true => exact hp
  | false => exact hp'

/-- A parser that goes on after a failure reports the same one. -/
theorem recover (hp : Shifts g l f p q) :
    Shifts g l (Option.map f) (recover p) (recover q) := by
  intro c hc
  unfold Parse.recover
  rcases hp c hc with ⟨a, d, hp, hq, hd⟩ | ⟨e, d, hp, hq, hd⟩
  · rw [hp, hq]
    exact .inl ⟨some a, d, rfl, rfl, hd⟩
  · rw [hp, hq]
    refine .inl ⟨none, _, rfl, ?_, hd⟩
    have hahead : synchronize (d.shift g l).ahead = (synchronize d.ahead).map (·.shift l) :=
      synchronize_shift l d.ahead
    have hdown :
        { (d.shift g l).report (e.shift l) with ahead := synchronize (d.shift g l).ahead } =
        Cursor.shift g l { d.report e with ahead := synchronize d.ahead } := by
      rw [← Cursor.report_shift, hahead]
      rfl
    exact congrArg (EStateM.Result.ok none) hdown

end Shifts

/-! ### Single tokens -/

/-- The tokens that both look at differ in their lines only. -/
theorem shifts_peek : Shifts g l (Token.shift l) peek peek := by
  refine fun c hc => .inl ⟨c.current, c, rfl, ?_, hc⟩
  rw [← Cursor.current_shift g]
  rfl

/-- As many tokens are left on both sides. -/
theorem shifts_remaining : Shifts g l id remaining remaining := by
  refine fun c hc => .inl ⟨c.ahead.length, c, rfl, ?_, hc⟩
  have hlength : (c.shift g l).ahead.length = c.ahead.length := List.length_map _
  exact congrArg (EStateM.Result.ok · (c.shift g l)) hlength

/-- Both sides are at the end of the input, or none is. -/
theorem shifts_atEnd : Shifts g l id atEnd atEnd := by
  refine fun c hc => .inl ⟨c.ahead.isEmpty, c, rfl, ?_, hc⟩
  have hempty : (c.shift g l).ahead.isEmpty = c.ahead.isEmpty := List.isEmpty_map
  exact congrArg (EStateM.Result.ok · (c.shift g l)) hempty

/-- Both sides fail for the same cause, each at its own next token. -/
theorem shifts_fail (f : α → β) (cause : SyntaxCause) :
    Shifts g l f (fail cause) (fail cause) := by
  refine fun c hc => .inr ⟨⟨c.current, cause⟩, c, rfl, ?_, hc⟩
  rw [SyntaxError.shift, ← Cursor.current_shift g]
  rfl

/-- Both sides report the same error, each at its own token. -/
theorem shifts_report (error : SyntaxError) :
    Shifts g l id (report error) (report (error.shift l)) := by
  refine fun c hc => .inl ⟨(), c.report error, rfl, ?_, hc⟩
  rw [Cursor.report_shift]
  rfl

/-- Both sides take one token. -/
theorem shifts_advance : Shifts g l id advance advance := by
  refine fun c hc => .inl ⟨(), { c with ahead := c.ahead.tail }, rfl, ?_, hc⟩
  unfold Cursor.shift
  rw [List.map_tail]
  rfl

/-- This is the one parser that hands out identities. -/
theorem shifts_freshId : Shifts g l g freshId freshId := by
  intro c hc
  have hnext : g (c.nextId + 1) = g c.nextId + 1 := hc c.nextId (Nat.le_refl _)
  refine .inl ⟨c.nextId, { c with nextId := c.nextId + 1 }, rfl, ?_, hc.later (Nat.le_succ _)⟩
  unfold Cursor.shift
  rw [hnext]
  rfl

/-- A parser that looks whether the token at the cursor has a meaning, and then goes
on. -/
theorem shifts_acceptMap_bind {f : α' → β'} {select : Token → Option α}
    {select' : Token → Option β} {m : α → β}
    (hselect : ∀ t, select' (t.shift l) = (select t).map m)
    {k : Option α → Parse α'} {k' : Option β → Parse β'} (hnone : Shifts g l f (k none) (k' none))
    (hsome : ∀ token a, select token = some a → Shifts g l f (k (some a)) (k' (some (m a)))) :
    Shifts g l f (acceptMap select >>= k) (acceptMap select' >>= k') := by
  intro c hc
  obtain ⟨ahead, finish, nextId, errors⟩ := c
  cases ahead with
  | nil => exact hnone _ hc
  | cons token rest =>
    have hthere := hselect token
    cases htoken : select token with
    | none =>
      rw [htoken] at hthere
      have hhere : acceptMap select ⟨token :: rest, finish, nextId, errors⟩ = .ok none _ :=
        acceptMap_none fun t ht => by cases ht; exact htoken
      have hdown : acceptMap select' (Cursor.shift g l ⟨token :: rest, finish, nextId, errors⟩) =
          .ok none _ := acceptMap_none fun t ht => by cases ht; exact hthere
      rw [bind_of_ok hhere, bind_of_ok hdown]
      exact hnone _ hc
    | some a =>
      rw [htoken] at hthere
      have hdown : acceptMap select' (Cursor.shift g l ⟨token :: rest, finish, nextId, errors⟩) =
          .ok (some (m a)) (Cursor.shift g l ⟨rest, finish, nextId, errors⟩) :=
        acceptMap_cons hthere
      rw [bind_of_ok (acceptMap_cons htoken), bind_of_ok hdown]
      exact hsome token a htoken _ hc

/-- A token that may be there is on both sides or on none, when lines play no part in what
is selected. -/
theorem shifts_acceptMap {select : Token → Option α} {select' : Token → Option β} {m : α → β}
    (hselect : ∀ t, select' (t.shift l) = (select t).map m) :
    Shifts g l (Option.map m) (acceptMap select) (acceptMap select') := by
  rw [← bind_pure (acceptMap select), ← bind_pure (acceptMap select')]
  exact shifts_acceptMap_bind hselect (.pure rfl) fun _ _ _ => .pure rfl

/-- A symbol is itself further down. -/
theorem symbol_shift (symbol : Symbol) (t : Token) :
    (if (t.shift l).is symbol then some (t.shift l) else none) =
      (if t.is symbol then some t else none).map (Token.shift l) := by
  have his : (t.shift l).is symbol = t.is symbol := rfl
  rw [his]
  split <;> rfl

/-- Whether a token is a name does not depend on its line. -/
theorem nameOf?_shift (t : Token) : nameOf? (t.shift l) = (nameOf? t).map (Name.shift l) := by
  obtain ⟨kind, lexeme, line⟩ := t
  cases kind <;> rfl

/-- Whether a token is an operator does not depend on its line. -/
theorem operator_shift (select : Symbol → Option α) (t : Token) :
    (match (t.shift l).kind with
      | .symbol symbol => (select symbol).map (·, (t.shift l).line)
      | _ => none) =
    (match t.kind with
      | .symbol symbol => (select symbol).map (·, t.line)
      | _ => none).map (Prod.map id (· + l)) := by
  obtain ⟨kind, lexeme, line⟩ := t
  cases kind with
  | symbol symbol =>
    change (select symbol).map _ = ((select symbol).map _).map _
    cases select symbol <;> rfl
  | _ => rfl

/-- A symbol that may be there is taken on both sides or on none. -/
theorem shifts_accept? (symbol : Symbol) :
    Shifts g l (Option.map (Token.shift l)) (accept? symbol) (accept? symbol) :=
  shifts_acceptMap (symbol_shift symbol)

/-- A symbol is found on both sides or on none. -/
theorem shifts_accept (symbol : Symbol) : Shifts g l id (accept symbol) (accept symbol) :=
  (shifts_accept? symbol).bind fun found => .pure (by cases found <;> rfl)

/-- A symbol is next on both sides or on none. -/
theorem shifts_check (symbol : Symbol) : Shifts g l id (check symbol) (check symbol) :=
  shifts_peek.bind fun _ => .pure rfl

/-- A token that has to be there is on both sides, or both fail. -/
theorem shifts_expectMap {select : Token → Option α} {select' : Token → Option β} {m : α → β}
    (hselect : ∀ t, select' (t.shift l) = (select t).map m) (what : String) :
    Shifts g l m (expectMap select what) (expectMap select' what) := by
  refine (shifts_acceptMap hselect).bind fun found => ?_
  cases found with
  | some a => exact .pure rfl
  | none => exact shifts_fail m _

/-- A symbol that has to be there is on both sides, or both fail. -/
theorem shifts_expect (symbol : Symbol) (what : String) :
    Shifts g l (Token.shift l) (expect symbol what) (expect symbol what) :=
  shifts_expectMap (symbol_shift symbol) what

/-- A name that has to be there is on both sides, or both fail. -/
theorem shifts_expectName (what : String) :
    Shifts g l (Name.shift l) (expectName what) (expectName what) :=
  shifts_expectMap nameOf?_shift what

/-- An operator that may be there is taken on both sides or on none, each with its own line. -/
theorem shifts_acceptOperator (select : Symbol → Option α) :
    Shifts g l (Option.map (Prod.map id (· + l))) (acceptOperator select)
      (acceptOperator select) :=
  shifts_acceptMap (operator_shift select)

/-- A list is too long on both sides or on none. -/
theorem shifts_reportSurplus (what : String) (count : Nat) :
    Shifts g l id (reportSurplus what count) (reportSurplus what count) := by
  unfold reportSurplus
  split
  · exact shifts_peek.bind fun token => shifts_report _
  · exact .pure rfl

/-! ### Expressions -/

section Expressions

variable {operator : Symbol → Option Joiner} {level : Level} {operand expression : Parse Expr}

/-- An operator joins its operands without regard to their identities and lines. -/
theorem join_shift (hknows : Knows operator level) {symbol : Symbol} {join : Joiner}
    (h : operator symbol = some join) (line : Nat) (a b : Expr) :
    join (line + l) (a.shift g l) (b.shift g l) = (join line a b).shift g l := by
  obtain ⟨op, -, rfl⟩ := (hknows symbol join).1 h
  exact (op.shift_tree g l line a b).symm

/-- Operations of one level are joined to the left alike, with lines of their own. -/
theorem shifts_joinLeft (hknows : Knows operator level)
    (h : Shifts g l (Expr.shift g l) operand operand) (fuel : Nat) (left : Expr) :
    Shifts g l (Expr.shift g l) (joinLeft operator operand fuel left)
      (joinLeft operator operand fuel (left.shift g l)) := by
  induction fuel generalizing left with
  | zero => exact .pure rfl
  | succ fuel ih =>
    refine shifts_acceptMap_bind (operator_shift operator) (.pure rfl)
      fun token joined hselect => ?_
    obtain ⟨join, line⟩ := joined
    -- The token spells an operator of this level.
    have hjoin : ∃ symbol, operator symbol = some join := by
      split at hselect
      · rename_i symbol _
        obtain ⟨join', hjoin, hpair⟩ := Option.map_eq_some_iff.1 hselect
        cases hpair
        exact ⟨symbol, hjoin⟩
      · cases hselect
    obtain ⟨symbol, hjoin⟩ := hjoin
    refine h.bind fun right => ?_
    dsimp only [Prod.map, id]
    rw [join_shift hknows hjoin]
    exact ih _

/-- Prefix operators are taken alike, with lines of their own. -/
theorem shifts_unary (h : Shifts g l (Expr.shift g l) operand operand) (fuel : Nat) :
    Shifts g l (Expr.shift g l) (unary operand fuel) (unary operand fuel) := by
  induction fuel with
  | zero => exact h
  | succ fuel ih =>
    refine (shifts_acceptOperator unaryOperator).bind fun found => ?_
    cases found with
    | none => exact h
    | some applied => exact ih.bind fun _ => .pure rfl

/-- As many arguments are read on both sides. -/
theorem shifts_argumentList (h : Shifts g l (Expr.shift g l) expression expression)
    (fuel count : Nat) :
    Shifts g l (Expr.shiftList g l) (argumentList expression fuel count)
      (argumentList expression fuel count) := by
  induction fuel generalizing count with
  | zero => exact shifts_fail _ _
  | succ fuel ih =>
    refine (shifts_reportSurplus "arguments" count).bind fun _ => ?_
    refine h.bind fun argument => ?_
    refine (shifts_accept .comma).bind fun found => .ite ?_ (.pure rfl)
    exact (ih (count + 1)).bind fun _ => .pure rfl

/-- The arguments of a call are alike; the closing parentheses have lines of their own. -/
theorem shifts_arguments (h : Shifts g l (Expr.shift g l) expression expression)
    (bound : Nat) :
    Shifts g l (Prod.map (Expr.shiftList g l) (· + l)) (arguments bound expression)
      (arguments bound expression) := by
  have hvalues : Shifts g l (Expr.shiftList g l) (argumentValues bound expression)
      (argumentValues bound expression) := by
    refine (shifts_check .rightParen).bind fun found => .ite (.pure rfl) ?_
    exact shifts_argumentList h (bound + 1) 0
  refine hvalues.bind fun values => ?_
  exact (shifts_expect _ _).bind fun _ => .pure rfl

/-- Calls and properties are added alike to an object that differs in its identities and
lines only. -/
theorem shifts_suffixes (h : Shifts g l (Expr.shift g l) expression expression)
    (bound fuel : Nat) (object : Expr) :
    Shifts g l (Expr.shift g l) (suffixes bound expression fuel object)
      (suffixes bound expression fuel (object.shift g l)) := by
  induction fuel generalizing object with
  | zero => exact .pure rfl
  | succ fuel ih =>
    refine (shifts_accept .leftParen).bind fun found => .ite ?_ ?_
    · refine (shifts_arguments h bound).bind fun values => ?_
      exact ih (.call object values.1 values.2)
    · refine (shifts_accept .dot).bind fun found => .ite ?_ (.pure rfl)
      refine (shifts_expectName _).bind fun name => ?_
      exact ih (.get object name)

/-- The start of an operand, further down. -/
def Primary.shift (l : Nat) : Primary → Primary
  | .literal value => .literal value
  | .super line => .super (line + l)
  | .this line => .this (line + l)
  | .name spelled => .name (spelled.shift l)
  | .group => .group

/-- What kind of primary expression a token starts does not depend on its line. -/
theorem primary?_shift (t : Token) : primary? (t.shift l) = (primary? t).map (Primary.shift l) := by
  obtain ⟨kind, lexeme, line⟩ := t
  cases kind with
  | symbol symbol => cases symbol <;> rfl
  | _ => rfl

/-- Primary expressions are alike, and each of them is given the next identity of its side. -/
theorem shifts_primary (h : Shifts g l (Expr.shift g l) expression expression) :
    Shifts g l (Expr.shift g l) (primary expression) (primary expression) := by
  refine (shifts_expectMap primary?_shift "expression").bind fun start => ?_
  cases start with
  | literal value => exact .pure rfl
  | super line =>
    refine (shifts_expect _ _).bind fun _ => ?_
    refine (shifts_expectName _).bind fun method => ?_
    exact shifts_freshId.bind fun _ => .pure rfl
  | this line => exact shifts_freshId.bind fun _ => .pure rfl
  | name name => exact shifts_freshId.bind fun _ => .pure rfl
  | group =>
    refine h.bind fun inner => ?_
    exact (shifts_expect _ _).bind fun _ => .pure rfl

/-- Whatever the levels are, the operations of all of them are alike. -/
theorem shifts_operationOf (h : Shifts g l (Expr.shift g l) expression expression)
    (bound : Nat) {operators : List (Symbol → Option Joiner)} {levels : List Level}
    (hknow : List.Forall₂ Knows operators levels) :
    Shifts g l (Expr.shift g l) (operationOf bound expression operators)
      (operationOf bound expression operators) := by
  induction hknow with
  | nil =>
    refine shifts_unary ?_ bound
    exact (shifts_primary h).bind fun object => shifts_suffixes h bound bound object
  | cons hknows _ ih => exact ih.bind fun left => shifts_joinLeft hknows ih bound left

/-- What can be assigned to does not depend on identities. -/
theorem shifts_assignment (h : Shifts g l (Expr.shift g l) expression expression)
    (bound : Nat) :
    Shifts g l (Expr.shift g l) (assignment bound expression)
      (assignment bound expression) := by
  refine (shifts_operationOf h bound levelOperators_know).bind fun target => ?_
  refine (shifts_accept? .equal).bind fun found => ?_
  cases found with
  | none => exact .pure rfl
  | some equals =>
    refine h.bind fun value => ?_
    cases target with
    | var ref => exact shifts_freshId.bind fun _ => .pure rfl
    | get object name => exact .pure rfl
    | _ => exact (shifts_report _).bind fun _ => .pure rfl

/-- The depth to which expressions nest is the same on both sides. -/
theorem shifts_expressionWithin (bound : Nat) :
    Shifts g l (Expr.shift g l) (expressionWithin bound) (expressionWithin bound) := by
  induction bound with
  | zero => exact shifts_fail _ _
  | succ bound ih => exact shifts_assignment ih (bound + 1)

/-- Expressions are alike. -/
theorem shifts_expression : Shifts g l (Expr.shift g l) Parse.expression Parse.expression :=
  shifts_remaining.bind fun bound => shifts_expressionWithin bound

end Expressions

/-! ### Statements -/

/-- The initial value of a variable is there on both sides or on none. -/
theorem shifts_initialValue :
    Shifts g l (Option.map (Expr.shift g l)) initialValue initialValue :=
  (shifts_accept .equal).bind fun _ =>
    .ite (shifts_expression.map some some fun _ => rfl) (.pure rfl)

/-- Declarations of variables are alike. -/
theorem shifts_varDeclaration : Shifts g l (Stmt.shift g l) varDeclaration varDeclaration := by
  refine (shifts_expectName _).bind fun name => ?_
  refine shifts_initialValue.bind fun initializer => ?_
  exact (shifts_expect _ _).bind fun _ => .pure rfl

/-- Expressions as statements are alike. -/
theorem shifts_expressionStatement :
    Shifts g l (Stmt.shift g l) expressionStatement expressionStatement := by
  refine shifts_expression.bind fun e => ?_
  exact (shifts_expect _ _).bind fun _ => .pure rfl

/-- An expression that may be left out is there on both sides or on none. -/
theorem shifts_expressionUnless (symbol : Symbol) :
    Shifts g l (Option.map (Expr.shift g l)) (expressionUnless symbol)
      (expressionUnless symbol) :=
  (shifts_check symbol).bind fun _ =>
    .ite (.pure rfl) (shifts_expression.map some some fun _ => rfl)

/-- As many parameters are read on both sides, with the same names. -/
theorem shifts_parameterList (fuel count : Nat) :
    Shifts g l (List.map (Name.shift l)) (parameterList fuel count)
      (parameterList fuel count) := by
  induction fuel generalizing count with
  | zero => exact shifts_fail _ _
  | succ fuel ih =>
    refine (shifts_reportSurplus "parameters" count).bind fun _ => ?_
    refine (shifts_expectName _).bind fun name => ?_
    refine (shifts_accept .comma).bind fun found => .ite ?_ (.pure rfl)
    exact (ih (count + 1)).bind fun _ => .pure rfl

/-- The parameters between the parentheses of a function are alike. -/
theorem shifts_parameters : Shifts g l (List.map (Name.shift l)) parameters parameters := by
  refine (shifts_check .rightParen).bind fun found => .ite (.pure rfl) ?_
  exact shifts_remaining.bind fun bound => shifts_parameterList (bound + 1) 0

/-- A superclass is there on both sides or on none, and each is given the next identity of
its side. -/
theorem shifts_superclassClause :
    Shifts g l (Option.map (Ref.shift g l)) superclassClause superclassClause := by
  refine (shifts_accept .less).bind fun found => .ite ?_ (.pure rfl)
  refine (shifts_expectName _).bind fun superName => ?_
  exact shifts_freshId.bind fun _ => .pure rfl

/-- The first clause of a `for` statement is of the same kind on both sides. -/
theorem shifts_forInitializer :
    Shifts g l (Option.map (Stmt.shift g l)) forInitializer forInitializer := by
  refine (shifts_accept .semicolon).bind fun _ => .ite (.pure rfl) ?_
  refine (shifts_accept .varWord).bind fun _ => .ite ?_ ?_
  · exact shifts_varDeclaration.map some some fun _ => rfl
  · exact shifts_expressionStatement.map some some fun _ => rfl

/-- `print` statements are alike. -/
theorem shifts_printStatement : Shifts g l (Stmt.shift g l) printStatement printStatement := by
  refine shifts_expression.bind fun e => ?_
  exact (shifts_expect _ _).bind fun _ => .pure rfl

/-- `return` statements are alike; each has the line of its own keyword. -/
theorem shifts_returnStatement (line : Nat) :
    Shifts g l (Stmt.shift g l) (returnStatement line) (returnStatement (line + l)) := by
  refine (shifts_expressionUnless .semicolon).bind fun value => ?_
  exact (shifts_expect _ _).bind fun _ => .pure rfl

/-- The loop that stands for a `for` statement is made of its clauses, whatever their
lines and identities are. -/
theorem shift_forLoop (initializer : Option Stmt) (condition increment : Option Expr)
    (body : Stmt) :
    forLoop (initializer.map (·.shift g l)) (condition.map (·.shift g l))
        (increment.map (·.shift g l)) (body.shift g l) =
      (forLoop initializer condition increment body).shift g l := by
  cases initializer <;> cases condition <;> cases increment <;> rfl

/-- Declarations that could be read, before others. -/
theorem shiftList_toList_append (first : Option Stmt) (rest : List Stmt) :
    (first.map (·.shift g l)).toList ++ Stmt.shiftList g l rest =
      Stmt.shiftList g l (first.toList ++ rest) := by
  cases first <;> rfl

section Statements

variable {declaration : Parse (Option Stmt)} {statement : Parse Stmt}

/-- As many declarations are read on both sides, and the same ones are dropped. -/
theorem shifts_declarationList
    (hd : Shifts g l (Option.map (Stmt.shift g l)) declaration declaration) (fuel : Nat) :
    Shifts g l (Stmt.shiftList g l) (declarationList declaration fuel)
      (declarationList declaration fuel) := by
  induction fuel with
  | zero => exact .pure rfl
  | succ fuel ih =>
    refine (shifts_check .rightBrace).bind fun closed => ?_
    refine shifts_atEnd.bind fun ended => .ite (.pure rfl) ?_
    refine hd.bind fun first => ?_
    exact ih.bind fun rest => .pure (shiftList_toList_append first rest)

/-- Blocks are alike. -/
theorem shifts_block
    (hd : Shifts g l (Option.map (Stmt.shift g l)) declaration declaration) :
    Shifts g l (Stmt.shiftList g l) (block declaration) (block declaration) := by
  refine shifts_remaining.bind fun fuel => ?_
  refine (shifts_declarationList hd fuel).bind fun body => ?_
  exact (shifts_expect _ _).bind fun _ => .pure rfl

/-- Functions are alike. -/
theorem shifts_function
    (hd : Shifts g l (Option.map (Stmt.shift g l)) declaration declaration) (kind : String) :
    Shifts g l (FunDecl.shift g l) (function declaration kind) (function declaration kind) := by
  refine (shifts_expectName _).bind fun name => ?_
  refine (shifts_expect _ _).bind fun _ => ?_
  refine shifts_parameters.bind fun params => ?_
  refine (shifts_expect _ _).bind fun _ => ?_
  refine (shifts_expect _ _).bind fun _ => ?_
  exact (shifts_block hd).bind fun body => .pure rfl

/-- As many methods are read on both sides. -/
theorem shifts_methodList
    (hd : Shifts g l (Option.map (Stmt.shift g l)) declaration declaration) (fuel : Nat) :
    Shifts g l (FunDecl.shiftList g l) (methodList declaration fuel)
      (methodList declaration fuel) := by
  induction fuel with
  | zero => exact .pure rfl
  | succ fuel ih =>
    refine (shifts_check .rightBrace).bind fun closed => ?_
    refine shifts_atEnd.bind fun ended => .ite (.pure rfl) ?_
    refine (shifts_function hd "method").bind fun method => ?_
    exact ih.bind fun _ => .pure rfl

/-- Classes are alike. -/
theorem shifts_classDeclaration
    (hd : Shifts g l (Option.map (Stmt.shift g l)) declaration declaration) :
    Shifts g l (Stmt.shift g l) (classDeclaration declaration) (classDeclaration declaration) := by
  refine (shifts_expectName _).bind fun name => ?_
  refine shifts_superclassClause.bind fun superclass => ?_
  refine (shifts_expect _ _).bind fun _ => ?_
  refine shifts_remaining.bind fun fuel => ?_
  refine (shifts_methodList hd fuel).bind fun methods => ?_
  exact (shifts_expect _ _).bind fun _ => .pure rfl

/-- A branch for `else` is there on both sides or on none. -/
theorem shifts_elseBranch (hs : Shifts g l (Stmt.shift g l) statement statement) :
    Shifts g l (Option.map (Stmt.shift g l)) (elseBranch statement) (elseBranch statement) :=
  (shifts_accept .elseWord).bind fun _ => .ite (hs.map some some fun _ => rfl) (.pure rfl)

/-- `if` statements are alike. -/
theorem shifts_ifStatement (hs : Shifts g l (Stmt.shift g l) statement statement) :
    Shifts g l (Stmt.shift g l) (ifStatement statement) (ifStatement statement) := by
  refine (shifts_expect _ _).bind fun _ => ?_
  refine shifts_expression.bind fun condition => ?_
  refine (shifts_expect _ _).bind fun _ => ?_
  refine hs.bind fun yes => ?_
  refine (shifts_elseBranch hs).bind fun no => .pure ?_
  cases no <;> rfl

/-- `while` statements are alike. -/
theorem shifts_whileStatement (hs : Shifts g l (Stmt.shift g l) statement statement) :
    Shifts g l (Stmt.shift g l) (whileStatement statement) (whileStatement statement) := by
  refine (shifts_expect _ _).bind fun _ => ?_
  refine shifts_expression.bind fun condition => ?_
  refine (shifts_expect _ _).bind fun _ => ?_
  exact hs.bind fun body => .pure rfl

/-- `for` statements are alike, and so are the loops they become. -/
theorem shifts_forStatement (hs : Shifts g l (Stmt.shift g l) statement statement) :
    Shifts g l (Stmt.shift g l) (forStatement statement) (forStatement statement) := by
  refine (shifts_expect _ _).bind fun _ => ?_
  refine shifts_forInitializer.bind fun initializer => ?_
  refine (shifts_expressionUnless .semicolon).bind fun condition => ?_
  refine (shifts_expect _ _).bind fun _ => ?_
  refine (shifts_expressionUnless .rightParen).bind fun increment => ?_
  refine (shifts_expect _ _).bind fun _ => ?_
  exact hs.bind fun body => .pure (shift_forLoop initializer condition increment body)

/-- Each kind of statement is alike on both sides, when what is nested in it is. -/
theorem shifts_statementWith
    (hd : Shifts g l (Option.map (Stmt.shift g l)) declaration declaration)
    (hs : Shifts g l (Stmt.shift g l) statement statement) :
    Shifts g l (Stmt.shift g l) (statementWith declaration statement)
      (statementWith declaration statement) := by
  refine shifts_peek.bind fun token => ?_
  have hkind : (token.shift l).kind = token.kind := rfl
  rw [hkind]
  split
  · exact shifts_advance.bind fun _ => shifts_forStatement hs
  · exact shifts_advance.bind fun _ => shifts_ifStatement hs
  · exact shifts_advance.bind fun _ => shifts_whileStatement hs
  · exact shifts_advance.bind fun _ => shifts_returnStatement token.line
  · exact shifts_advance.bind fun _ => shifts_printStatement
  · exact shifts_advance.bind fun _ => (shifts_block hd).map _ _ fun _ => rfl
  · exact shifts_expressionStatement

/-- Declarations are alike, and where one of them is dropped both sides go on at the same
token. -/
theorem shifts_declarationWith
    (hd : Shifts g l (Option.map (Stmt.shift g l)) declaration declaration)
    (hs : Shifts g l (Stmt.shift g l) statement statement) :
    Shifts g l (Stmt.shift g l) (declarationWith declaration statement)
      (declarationWith declaration statement) := by
  refine shifts_peek.bind fun token => ?_
  have hkind : (token.shift l).kind = token.kind := rfl
  rw [hkind]
  split
  · exact shifts_advance.bind fun _ => shifts_classDeclaration hd
  · exact shifts_advance.bind fun _ => (shifts_function hd "function").map _ _ fun _ => rfl
  · exact shifts_advance.bind fun _ => shifts_varDeclaration
  · exact shifts_statementWith hd hs

end Statements

/-- The depth to which statements nest is the same on both sides. -/
theorem shifts_within (bound : Nat) :
    Shifts g l (Stmt.shift g l) (statementWithin bound) (statementWithin bound) ∧
      Shifts g l (Option.map (Stmt.shift g l)) (declarationWithin bound)
        (declarationWithin bound) := by
  induction bound with
  | zero =>
    rw [statementWithin, declarationWithin]
    exact ⟨shifts_fail _ _, (shifts_fail _ _).recover⟩
  | succ bound ih =>
    rw [statementWithin, declarationWithin]
    exact ⟨shifts_statementWith ih.2 ih.1, (shifts_declarationWith ih.2 ih.1).recover⟩

/-- As many statements are left of a program on both sides. -/
theorem shifts_programList (fuel : Nat) :
    Shifts g l (Stmt.shiftList g l) (programList fuel) (programList fuel) := by
  induction fuel with
  | zero => exact .pure rfl
  | succ fuel ih =>
    refine shifts_atEnd.bind fun ended => .ite (.pure rfl) ?_
    refine (shifts_remaining.bind fun bound => (shifts_within bound).2).bind fun first => ?_
    exact ih.bind fun rest => .pure (shiftList_toList_append first rest)

/-- Programs are alike whatever is wrong with their tokens. -/
theorem shifts_program : Shifts g l (Stmt.shiftList g l) program program :=
  shifts_remaining.bind fun fuel => shifts_programList fuel

end Parse

/-! ### Programs -/

section Programs

variable {g : Nat → Nat} {n : Nat}

/-- A cursor that is moved by no lines differs in the next identity only. -/
theorem Cursor.shift_zero (g : Nat → Nat) (c : Cursor) :
    c.shift g 0 = { c with nextId := g c.nextId } := by
  have hahead : c.ahead.map (·.shift 0) = c.ahead := List.map_id _
  have herrors : c.errors.map (·.shift 0) = c.errors := Array.map_id _
  unfold Cursor.shift
  rw [hahead, herrors]
  rfl

/-- Tokens that are read with other identities give the same tree but for these, and the
same errors. -/
theorem parseTokens_counts (hg : Counts g n) (tokens : List Token) :
    parseTokens tokens (g n) =
      { statements := Stmt.shiftList g 0 (parseTokens tokens n).statements
        errors := (parseTokens tokens n).errors
        nextId := g (parseTokens tokens n).nextId } ∧
      Counts g (parseTokens tokens n).nextId := by
  have hstart : Cursor.ofTokens tokens (g n) = (Cursor.ofTokens tokens n).shift g 0 := by
    rw [Cursor.shift_zero]
    rfl
  unfold parseTokens
  rw [hstart]
  rcases Parse.shifts_program (l := 0) (Cursor.ofTokens tokens n) hg with
    ⟨ss, d, hp, hq, hd⟩ | ⟨e, d, hp, hq, hd⟩
  · rw [hp, hq, Cursor.shift_zero]
    exact ⟨rfl, hd⟩
  · rw [hp, hq, Cursor.shift_zero]
    exact ⟨rfl, hd⟩

/-- Whatever is wrong with a source, the same is wrong with it wherever identities
start. -/
theorem Program.ofSource_counts (hg : Counts g n) (source : String) :
    ofSource source (g n) =
      { statements := Stmt.shiftList g 0 (ofSource source n).statements
        diagnostics := (ofSource source n).diagnostics
        nextId := g (ofSource source n).nextId } ∧
      Counts g (ofSource source n).nextId := by
  have hparse := parseTokens_counts hg (Item.tokens (scan source))
  refine ⟨?_, hparse.2⟩
  rw [ofSource, ofItems, hparse.1]
  rfl

end Programs

end Lox
