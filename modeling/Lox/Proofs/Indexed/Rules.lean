import Lox.Proofs.Indexed.Agreement

/-!
# Every rule of the grammar by position

Rule by rule, the reader by position does what the parser does. A rule that is nested in
another one is only known to agree where fewer tokens are ahead, which is enough, because
it is called after a token was consumed. The repetitions of declarations are the one place
where this takes an argument: a declaration that fails consumes a token all the same.
-/

namespace Lox.Track

open Grammar

variable {T : Track} {n bound fuel : Nat}

/-! ### Expressions -/

section Expressions

variable {expression operand : Parse Expr} {operators : List (Symbol → Option Parse.Joiner)}

/-- Arguments are read one by one; each of them has a token of its own. -/
theorem follows_argumentList (he : T.Follows n expression Indexed.expression) (hfuel : n < fuel)
    (count : Nat) :
    T.Follows n (Parse.argumentList expression fuel count)
      fun depth => Indexed.argumentList depth count := by
  induction fuel generalizing n count with
  | zero => omega
  | succ fuel ih =>
    refine .succ ?_
    simp only [Parse.argumentList, Indexed.argumentList]
    refine (steps_reportSurplus "arguments" count).follows.bind fun _ => ?_
    refine he.bind fun argument => ?_
    refine .ifAccept .comma (fun m hm => ?_) (.pure _)
    exact (ih (he.mono (by omega)) (by omega) (count + 1)).bind fun others => .pure _

/-- What is between the parentheses of a call is read by position. -/
theorem follows_argumentValues (he : T.Follows n expression Indexed.expression)
    (hbound : n ≤ bound) :
    T.Follows n (Parse.argumentValues bound expression) Indexed.argumentValues := by
  refine .succ ?_
  simp only [Parse.argumentValues, Indexed.argumentValues]
  exact .ifCheck .rightParen (.pure _) (follows_argumentList he (by omega) 0)

/-- Calls and properties are added by position; each of them takes a token. -/
theorem follows_suffixes (he : ∀ m < n, T.Follows m expression Indexed.expression)
    (hbound : n ≤ bound) (hfuel : n ≤ fuel) (object : Expr) :
    T.Follows n (Parse.suffixes bound expression fuel object)
      fun depth => Indexed.suffixes depth object := by
  induction n using Nat.strongRecOn generalizing fuel object with
  | _ n ih =>
    refine .of_fuel (p := fun fuel => Parse.suffixes bound expression fuel object) hfuel ?_ ?_
    · rintro ⟨_, f, m, errs⟩ rfl
      rfl
    · intro fuel hfuel
      refine .succ ?_
      simp only [Parse.suffixes, Indexed.suffixes]
      refine .ifAccept .leftParen (fun m hm => ?_) (.ifAccept .dot (fun m hm => ?_) (.pure _))
      · simp only [Parse.arguments, bind_assoc, pure_bind]
        refine (follows_argumentValues (he m hm) (by omega)).bind fun values => ?_
        refine (steps_expect .rightParen _).andThen fun paren m' hm' => ?_
        exact ih m' (by omega) (fun k hk => he k (by omega)) (by omega) (by omega) _
      · refine (steps_expectName _).andThen fun name m' hm' => ?_
        exact ih m' (by omega) (fun k hk => he k (by omega)) (by omega) (by omega) _

/-- A primary expression is read by position, and only a group has another expression in it. -/
theorem follows_primary (he : ∀ m < n, T.Follows m expression Indexed.expression) :
    T.Follows n (Parse.primary expression) Indexed.primary := by
  refine .succ ?_
  simp only [Parse.primary, Indexed.primary]
  refine (steps_expectMap Parse.primary? "expression").andThen fun start m hm => ?_
  cases start with
  | literal value => exact .pure _
  | super line =>
    refine (steps_expect .dot _).follows.bind fun _ => ?_
    refine (steps_expectName _).follows.bind fun method => ?_
    exact steps_freshId.follows.bind fun _ => .pure _
  | this line => exact steps_freshId.follows.bind fun _ => .pure _
  | name name => exact steps_freshId.follows.bind fun _ => .pure _
  | group =>
    refine (he m hm).bind fun inner => ?_
    exact (steps_expect .rightParen _).follows.bind fun _ => .pure _

/-- A call is read by position, with all its suffixes. -/
theorem follows_call (he : ∀ m < n, T.Follows m expression Indexed.expression)
    (hbound : n ≤ bound) : T.Follows n (Parse.call bound expression) Indexed.call := by
  refine .succ ?_
  simp only [Parse.call, Indexed.call]
  exact (follows_primary he).bind fun object => follows_suffixes he hbound hbound object

/-- Prefix operators are read by position, one token each. -/
theorem follows_unary (ho : T.Follows n operand Indexed.call) (hfuel : n ≤ fuel) :
    T.Follows n (Parse.unary operand fuel) Indexed.unary := by
  induction n using Nat.strongRecOn generalizing fuel with
  | _ n ih =>
    refine .of_fuel (p := fun fuel => Parse.unary operand fuel) hfuel ?_ ?_
    · rintro ⟨_, f, m, errs⟩ rfl
      rfl
    · intro fuel hfuel
      refine .succ ?_
      simp only [Parse.unary, Indexed.unary]
      refine (steps_acceptOperator Parse.unaryOperator).bind (fun found hnot => ?_)
        fun found htaken m hm => ?_
      · cases found with
        | none => exact ho
        | some applied => exact absurd rfl hnot
      · cases found with
        | none => cases htaken
        | some applied => exact (ih m hm (ho.mono (by omega)) (by omega)).bind fun _ => .pure _

/-- Operations of one level are joined to the left by position, one operator token each. -/
theorem follows_joinLeft (ho : T.Follows n operand fun depth => Indexed.operation depth operators)
    (hfuel : n ≤ fuel) (operator : Symbol → Option Parse.Joiner) (left : Expr) :
    T.Follows n (Parse.joinLeft operator operand fuel left)
      fun depth => Indexed.joinLeft depth operator operators left := by
  induction n using Nat.strongRecOn generalizing fuel left with
  | _ n ih =>
    refine .of_fuel (p := fun fuel => Parse.joinLeft operator operand fuel left) hfuel ?_ ?_
    · rintro ⟨_, f, m, errs⟩ rfl
      rfl
    · intro fuel hfuel
      refine .succ ?_
      simp only [Parse.joinLeft, Indexed.joinLeft]
      refine (steps_acceptOperator operator).bind (fun found hnot => ?_)
        fun found htaken m hm => ?_
      · cases found with
        | none => exact .pure _
        | some joined => exact absurd rfl hnot
      · cases found with
        | none => cases htaken
        | some joined =>
          refine (ho.mono (Nat.le_of_lt hm)).bind fun right => ?_
          exact ih m hm (ho.mono (by omega)) (by omega) _

/-- Operations are read by position, level by level. -/
theorem follows_operationOf (he : ∀ m < n, T.Follows m expression Indexed.expression)
    (hbound : n ≤ bound) (operators : List (Symbol → Option Parse.Joiner)) :
    T.Follows n (Parse.operationOf bound expression operators)
      fun depth => Indexed.operation depth operators := by
  induction operators with
  | nil =>
    refine .succ ?_
    simp only [Parse.operationOf, Indexed.operation]
    exact follows_unary (follows_call he hbound) hbound
  | cons operator operators ih =>
    refine .succ ?_
    simp only [Parse.operationOf, Indexed.operation]
    exact ih.bind fun left => follows_joinLeft ih hbound operator left

/-- An assignment is read by position, with the same error for a target that is none. -/
theorem follows_assignment (he : ∀ m < n, T.Follows m expression Indexed.expression)
    (hbound : n ≤ bound) :
    T.Follows n (Parse.assignment bound expression) Indexed.expression := by
  refine .succ ?_
  simp only [Parse.assignment, Parse.operation_eq, Indexed.expression]
  refine (follows_operationOf he hbound Parse.levelOperators).bind fun target => ?_
  refine (steps_accept? .equal).bind (fun found hnot => ?_) fun found htaken m hm => ?_
  · cases found with
    | none => exact .pure _
    | some equals => exact absurd rfl hnot
  · cases found with
    | none => cases htaken
    | some equals =>
      refine (he m hm).bind fun value => ?_
      cases target with
      | var ref => exact steps_freshId.follows.bind fun _ => .pure _
      | get object name => exact .pure _
      | _ => exact (steps_report _).follows.bind fun _ => .pure _

end Expressions

/-- Without tokens ahead, a rule finds out that there is no expression. -/
theorem Follows.fail_at_end {α : Type} {p : Parse α} {q : Nat → Indexed α} (h : T.Follows 0 p q)
    (hp : ∀ lexeme line m errs, p ⟨[], ⟨.finish, lexeme, line⟩, m, errs⟩ =
      .error ⟨⟨.finish, lexeme, line⟩, .expected "expression"⟩
        ⟨[], ⟨.finish, lexeme, line⟩, m, errs⟩) :
    T.Follows 0 (Parse.fail (.expected "expression")) q := by
  rintro ⟨ahead, ⟨kind, lexeme, line⟩, m, errs⟩ hc hn
  refine (h _ hc hn).congr ?_
  obtain rfl : ahead = [] := List.length_eq_zero_iff.1 (by simpa using hn)
  obtain rfl : kind = .finish := by simpa [Token.isFinish] using hc.isFinish
  exact (hp lexeme line m errs).symm

/-- An expression is read by position, with as many levels of nesting as there may be tokens. -/
theorem follows_expressionWithin (hbound : n ≤ bound) :
    T.Follows n (Parse.expressionWithin bound) Indexed.expression := by
  induction bound generalizing n with
  | zero =>
    obtain rfl : n = 0 := by omega
    have hend : T.Follows 0 (Parse.assignment 0 Parse.expression) Indexed.expression :=
      follows_assignment nofun hbound
    exact hend.fail_at_end fun _ _ _ _ => rfl
  | succ bound ih => exact follows_assignment (fun m hm => ih (by omega)) hbound

/-- An expression is read by position. -/
theorem follows_expression : T.Follows n Parse.expression Indexed.expression :=
  fun c hc _ => follows_expressionWithin (Nat.le_refl _) c hc (Nat.le_refl _)

/-! ### Statements -/

/-- The initial value of a variable is read by position. -/
theorem follows_initialValue : T.Follows n Parse.initialValue Indexed.initialValue :=
  .ifAccept .equal (fun _ _ => follows_expression.map some) (.pure _)

/-- A declaration of a variable is read by position. -/
theorem follows_varDeclaration : T.Follows n Parse.varDeclaration Indexed.varDeclaration := by
  refine (steps_expectName _).follows.bind fun name => ?_
  refine follows_initialValue.bind fun initializer => ?_
  exact (steps_expect _ _).follows.bind fun _ => .pure _

/-- An expression as a statement is read by position. -/
theorem follows_expressionStatement :
    T.Follows n Parse.expressionStatement Indexed.expressionStatement := by
  refine follows_expression.bind fun e => ?_
  exact (steps_expect _ _).follows.bind fun _ => .pure _

/-- An expression that may be left out is read by position. -/
theorem follows_expressionUnless (symbol : Symbol) :
    T.Follows n (Parse.expressionUnless symbol)
      fun depth => Indexed.expressionUnless depth symbol :=
  .ifCheck symbol (.pure _) (follows_expression.map some)

/-- Parameters are read one by one; each of them has a token of its own. -/
theorem follows_parameterList (hfuel : n < fuel) (count : Nat) :
    T.Follows n (Parse.parameterList fuel count)
      fun depth => Indexed.parameterList depth count := by
  induction fuel generalizing n count with
  | zero => omega
  | succ fuel ih =>
    refine .succ ?_
    simp only [Parse.parameterList, Indexed.parameterList]
    refine (steps_reportSurplus "parameters" count).follows.bind fun _ => ?_
    refine (steps_expectName _).follows.bind fun name => ?_
    refine .ifAccept .comma (fun m hm => ?_) (.pure _)
    exact (ih (by omega) (count + 1)).bind fun others => .pure _

/-- The parameters of a function are read by position. -/
theorem follows_parameters : T.Follows n Parse.parameters Indexed.parameters := by
  refine .ifCheck .rightParen (.pure _) fun c hc _ => ?_
  exact follows_parameterList (Nat.lt_succ_self c.ahead.length) 0 c hc (Nat.le_refl _)

/-- The superclass of a class is read by position, with its identity. -/
theorem follows_superclassClause :
    T.Follows n Parse.superclassClause fun _ => Indexed.superclassClause := by
  refine .ifAccept .less (fun m hm => ?_) (.pure _)
  refine (steps_expectName _).follows.bind fun superName => ?_
  exact steps_freshId.follows.bind fun _ => .pure _

/-- The first clause of a `for` statement is read by position. -/
theorem follows_forInitializer : T.Follows n Parse.forInitializer Indexed.forInitializer := by
  refine .ifAccept .semicolon (fun _ _ => .pure _) ?_
  exact .ifAccept .varWord (fun _ _ => follows_varDeclaration.map some)
    (follows_expressionStatement.map some)

/-- A `print` statement is read by position. -/
theorem follows_printStatement : T.Follows n Parse.printStatement Indexed.printStatement := by
  refine follows_expression.bind fun e => ?_
  exact (steps_expect _ _).follows.bind fun _ => .pure _

/-- Without tokens ahead, a repetition up to a closing brace is over. -/
theorem ifClosed_nil {α : Type} {p q : Parse α} {f : Token} {m : Nat} {errs : Array SyntaxError} :
    (do if (← Parse.check .rightBrace) || (← Parse.atEnd) then p else q : Parse α)
      ⟨[], f, m, errs⟩ = p ⟨[], f, m, errs⟩ := by
  change (if (f.is .rightBrace || true) = true then p else q) _ = _
  rw [Bool.or_true]
  rfl

section Statements

variable {declaration : Parse (Option Stmt)} {statement : Parse Stmt}

/-- A parser of declarations that agrees with the reader and makes progress. -/
structure Declares (T : Track) (n : Nat) (declaration : Parse (Option Stmt)) : Prop where
  /-- Declarations are read by position as they are parsed. -/
  follows : T.Follows n declaration Indexed.declaration
  /-- Without a report, a declaration is read as the grammar has it. -/
  reads : Parse.Reads declaration Parse.Declared
  /-- A declaration takes a token. -/
  progresses : Parse.Progresses declaration

/-- What is known of declarations with some number of tokens ahead is known with fewer. -/
theorem Declares.mono {m : Nat} (h : T.Declares n declaration) (hle : m ≤ n) :
    T.Declares m declaration :=
  ⟨h.follows.mono hle, h.reads, h.progresses⟩

/-- Declarations are read one by one: each one takes a token, so the bound on them is not
reached. -/
theorem follows_declarationList (hd : T.Declares n declaration) (hfuel : n ≤ fuel) :
    T.Follows n (Parse.declarationList declaration fuel) Indexed.declarationList := by
  induction n using Nat.strongRecOn generalizing fuel with
  | _ n ih =>
    refine .of_fuel (p := fun fuel => Parse.declarationList declaration fuel) hfuel ?_ ?_
    · rintro ⟨_, f, m, errs⟩ rfl
      exact ifClosed_nil.symm
    · intro fuel hfuel
      refine .succ ?_
      simp only [Parse.declarationList, Indexed.declarationList]
      refine .ifClosed (.pure _) fun c hc hn hahead => ?_
      refine (hd.follows c hc hn).bind fun first d hfirst hd' hle => ?_
      -- The declaration has taken a token, so fewer are ahead of the others.
      have hlt : d.ahead.length < c.ahead.length := by
        obtain ⟨o, d', hok, hlt⟩ := hd.progresses c hc.isFinish hahead
        rw [hfirst] at hok
        cases hok
        exact hlt
      have hbound : d.ahead.length ≤ fuel := by omega
      have hothers := ih d.ahead.length (by omega) (hd.mono (by omega)) hbound
      exact (hothers d hd' (Nat.le_refl _)).bind fun others d'' _ hd'' _ => .pure hd'' _

/-- A block is read by position. -/
theorem follows_block (hd : T.Declares n declaration) :
    T.Follows n (Parse.block declaration) Indexed.block := by
  refine .succ ?_
  simp only [Parse.block, Indexed.block]
  intro c hc hn
  have hbody := follows_declarationList (hd.mono hn) (Nat.le_refl _) c hc (Nat.le_refl _)
  exact hbody.bind fun body d _ hd' _ =>
    ((steps_expect .rightBrace _).follows (n := d.ahead.length) d hd' (Nat.le_refl _)).bind
      fun _ d' _ hd'' _ => .pure hd'' _

/-- A function is read by position. -/
theorem follows_function (hd : T.Declares n declaration) (kind : String) :
    T.Follows n (Parse.function declaration kind) fun depth => Indexed.function depth kind := by
  refine .succ ?_
  simp only [Parse.function, Indexed.function]
  refine (steps_expectName _).follows.bind fun name => ?_
  refine (steps_expect _ _).follows.bind fun _ => ?_
  refine follows_parameters.bind fun params => ?_
  refine (steps_expect _ _).follows.bind fun _ => ?_
  refine (steps_expect _ _).follows.bind fun _ => ?_
  exact (follows_block hd).bind fun body => .pure _

/-- Methods are read one by one: each one takes a token, so the bound on them is not reached. -/
theorem follows_methodList (hd : T.Declares n declaration) (hfuel : n ≤ fuel) :
    T.Follows n (Parse.methodList declaration fuel) Indexed.methodList := by
  induction n using Nat.strongRecOn generalizing fuel with
  | _ n ih =>
    refine .of_fuel (p := fun fuel => Parse.methodList declaration fuel) hfuel ?_ ?_
    · rintro ⟨_, f, m, errs⟩ rfl
      exact ifClosed_nil.symm
    · intro fuel hfuel
      refine .succ ?_
      simp only [Parse.methodList, Indexed.methodList]
      refine .ifClosed (.pure _) fun c hc hn hahead => ?_
      refine (follows_function hd "method" c hc hn).bind fun method d hmethod hd' hle => ?_
      have hlt := Parse.takes_function hd.reads "method" c d method hc.isFinish hmethod
      have hbound : d.ahead.length ≤ fuel := by omega
      have hothers := ih d.ahead.length (by omega) (hd.mono (by omega)) hbound
      exact (hothers d hd' (Nat.le_refl _)).bind fun others d'' _ hd'' _ => .pure hd'' _

/-- A class is read by position. -/
theorem follows_classDeclaration (hd : T.Declares n declaration) :
    T.Follows n (Parse.classDeclaration declaration) Indexed.classDeclaration := by
  refine .succ ?_
  simp only [Parse.classDeclaration, Indexed.classDeclaration]
  refine (steps_expectName _).follows.bind fun name => ?_
  refine follows_superclassClause.bind fun superclass => ?_
  refine (steps_expect _ _).follows.bind fun _ => ?_
  intro c hc hn
  have hmethods := follows_methodList (hd.mono hn) (Nat.le_refl _) c hc (Nat.le_refl _)
  exact hmethods.bind fun methods d _ hd' _ =>
    ((steps_expect .rightBrace _).follows (n := d.ahead.length) d hd' (Nat.le_refl _)).bind
      fun _ d' _ hd'' _ => .pure hd'' _

/-- What follows `else` is read by position. -/
theorem follows_elseBranch (hs : T.Follows n statement Indexed.statement) :
    T.Follows n (Parse.elseBranch statement) Indexed.elseBranch := by
  refine .succ ?_
  simp only [Parse.elseBranch, Indexed.elseBranch]
  exact .ifAccept .elseWord (fun m hm => (hs.mono (Nat.le_of_lt hm)).map some) (.pure _)

/-- An `if` statement is read by position. -/
theorem follows_ifStatement (hs : T.Follows n statement Indexed.statement) :
    T.Follows n (Parse.ifStatement statement) Indexed.ifStatement := by
  refine .succ ?_
  simp only [Parse.ifStatement, Indexed.ifStatement]
  refine (steps_expect _ _).follows.bind fun _ => ?_
  refine follows_expression.bind fun condition => ?_
  refine (steps_expect _ _).follows.bind fun _ => ?_
  refine hs.bind fun yes => ?_
  exact (follows_elseBranch hs).bind fun no => .pure _

/-- A `while` statement is read by position. -/
theorem follows_whileStatement (hs : T.Follows n statement Indexed.statement) :
    T.Follows n (Parse.whileStatement statement) Indexed.whileStatement := by
  refine .succ ?_
  simp only [Parse.whileStatement, Indexed.whileStatement]
  refine (steps_expect _ _).follows.bind fun _ => ?_
  refine follows_expression.bind fun condition => ?_
  refine (steps_expect _ _).follows.bind fun _ => ?_
  exact hs.bind fun body => .pure _

/-- A `for` statement is read by position, and becomes the same loop. -/
theorem follows_forStatement (hs : T.Follows n statement Indexed.statement) :
    T.Follows n (Parse.forStatement statement) Indexed.forStatement := by
  refine .succ ?_
  simp only [Parse.forStatement, Indexed.forStatement]
  refine (steps_expect _ _).follows.bind fun _ => ?_
  refine follows_forInitializer.bind fun initializer => ?_
  refine (follows_expressionUnless .semicolon).bind fun condition => ?_
  refine (steps_expect _ _).follows.bind fun _ => ?_
  refine (follows_expressionUnless .rightParen).bind fun increment => ?_
  refine (steps_expect _ _).follows.bind fun _ => ?_
  exact hs.bind fun body => .pure _

/-- The keyword of a `return` statement is the token before the position. -/
theorem follows_returnStatement {t f : Token} {rest : List Token} {m : Nat}
    {errs : Array SyntaxError} (h : T.Along ⟨t :: rest, f, m, errs⟩) :
    T.FollowsAt (Parse.returnStatement t.line) Indexed.returnStatement ⟨rest, f, m, errs⟩ := by
  have hrest : T.Follows rest.length (Parse.returnStatement t.line) fun depth => do
      let value ← Indexed.expressionUnless depth .semicolon
      let _ ← Indexed.expect .semicolon "';' after return value"
      return .result t.line value := by
    refine (follows_expressionUnless .semicolon).bind fun value => ?_
    exact (steps_expect _ _).follows.bind fun _ => .pure _
  have hreader : ∀ depth, Indexed.returnStatement depth (T.place ⟨rest, f, m, errs⟩) =
      (do
        let value ← Indexed.expressionUnless depth .semicolon
        let _ ← Indexed.expect .semicolon "';' after return value"
        return .result t.line value : Indexed Stmt) (T.place ⟨rest, f, m, errs⟩) :=
    fun depth => Indexed.bind_of_ok h.previous
  exact (hrest _ h.tail (Nat.le_refl _)).congr_reader hreader

/-- After its keyword, a rule is read where one token less is ahead. -/
theorem followsAt_afterKeyword {α : Type} {t f : Token} {rest : List Token} {m : Nat}
    {errs : Array SyntaxError} (h : T.Along ⟨t :: rest, f, m, errs⟩) {p p' : Parse α}
    {q : Nat → Indexed α} (hfollows : T.FollowsAt p' q ⟨rest, f, m, errs⟩)
    (hp : p ⟨t :: rest, f, m, errs⟩ = p' ⟨rest, f, m, errs⟩) :
    T.FollowsAt p (fun depth => Indexed.advance >>= fun _ => q depth) ⟨t :: rest, f, m, errs⟩ := by
  have hreader : ∀ depth, (Indexed.advance >>= fun _ => q depth)
      (T.place ⟨t :: rest, f, m, errs⟩) = q depth (T.place ⟨rest, f, m, errs⟩) :=
    fun depth => Indexed.bind_of_ok h.advance_cons
  unfold FollowsAt Indexed.Settles
  simp only [hp, hreader]
  rcases hfollows with ⟨a, d, hp, hq, hd, hle⟩ | ⟨e, d, hp, hq, hd, hle⟩
  · exact .inl ⟨a, d, hp, hq, hd, Nat.le_succ_of_le hle⟩
  · exact .inr ⟨e, d, hp, hq, hd, Nat.le_succ_of_le hle⟩

/-- A statement is read by position: what is nested in it stands behind its keyword. -/
theorem follows_statementWith (hd : ∀ m < n, T.Declares m declaration)
    (hs : ∀ m < n, T.Follows m statement Indexed.statement) :
    T.Follows n (Parse.statementWith declaration statement) Indexed.statement := by
  rintro ⟨ahead, f, m, errs⟩ hc hn
  refine .succ ?_
  simp only [Indexed.statement]
  refine .peek_bind hc ?_
  have hplain := follows_expressionStatement (T := T) _ hc (Nat.le_refl _)
  cases ahead with
  | nil =>
    obtain ⟨kind, lexeme, line⟩ := f
    obtain rfl : kind = .finish := by simpa [Token.isFinish] using hc.isFinish
    exact hplain.congr rfl
  | cons t rest =>
    have hlt : rest.length < n := hn
    obtain ⟨kind, lexeme, line⟩ := t
    cases kind with
    | symbol s =>
      cases s with
      | forWord =>
        have hrest := follows_forStatement (hs _ hlt) _ hc.tail (Nat.le_refl _)
        exact followsAt_afterKeyword hc hrest rfl
      | ifWord =>
        have hrest := follows_ifStatement (hs _ hlt) _ hc.tail (Nat.le_refl _)
        exact followsAt_afterKeyword hc hrest rfl
      | whileWord =>
        have hrest := follows_whileStatement (hs _ hlt) _ hc.tail (Nat.le_refl _)
        exact followsAt_afterKeyword hc hrest rfl
      | returnWord => exact followsAt_afterKeyword hc (follows_returnStatement hc) rfl
      | printWord =>
        have hrest := follows_printStatement _ hc.tail (Nat.le_refl _)
        exact followsAt_afterKeyword hc hrest rfl
      | leftBrace =>
        have hrest := (follows_block (hd _ hlt)).map Stmt.block _ hc.tail (Nat.le_refl _)
        exact followsAt_afterKeyword hc hrest rfl
      | _ => exact hplain.congr rfl
    | _ => exact hplain.congr rfl

/-- A declaration is read by position: what is nested in it stands behind its keyword. -/
theorem follows_declarationWith (hd : ∀ m < n, T.Declares m declaration)
    (hs : ∀ m < n, T.Follows m statement Indexed.statement) :
    T.Follows n (Parse.declarationWith declaration statement) Indexed.declarationOrFail := by
  rintro ⟨ahead, f, m, errs⟩ hc hn
  refine .succ ?_
  simp only [Indexed.declarationOrFail]
  refine .peek_bind hc ?_
  have hstatement := follows_statementWith hd hs _ hc hn
  cases ahead with
  | nil =>
    obtain ⟨kind, lexeme, line⟩ := f
    obtain rfl : kind = .finish := by simpa [Token.isFinish] using hc.isFinish
    exact hstatement.congr rfl
  | cons t rest =>
    have hlt : rest.length < n := hn
    obtain ⟨kind, lexeme, line⟩ := t
    cases kind with
    | symbol s =>
      cases s with
      | classWord =>
        have hrest := follows_classDeclaration (hd _ hlt) _ hc.tail (Nat.le_refl _)
        exact followsAt_afterKeyword hc hrest rfl
      | funWord =>
        have hfunction := (follows_function (hd _ hlt) "function").map Stmt.funDecl
        have hrest := hfunction _ hc.tail (Nat.le_refl _)
        exact followsAt_afterKeyword hc hrest rfl
      | varWord =>
        have hrest := follows_varDeclaration _ hc.tail (Nat.le_refl _)
        exact followsAt_afterKeyword hc hrest rfl
      | _ => exact hstatement.congr rfl
    | _ => exact hstatement.congr rfl

end Statements

/-! ### Going on after a failure -/

/-- At the end of the input nothing is skipped. -/
theorem settles_skip_nil {f : Token} {m : Nat} {errs : Array SyntaxError}
    (h : T.Along ⟨[], f, m, errs⟩) :
    Indexed.Settles Indexed.skip (T.place ⟨[], f, m, errs⟩)
      (.ok (), T.place ⟨[], f, m, errs⟩) := by
  refine ⟨1, fun depth hdepth => ?_⟩
  obtain ⟨depth, rfl⟩ : ∃ depth', depth = depth' + 1 := ⟨depth - 1, by omega⟩
  rw [Indexed.skip]
  exact Indexed.bind_of_ok h.atEnd

/-- The tokens that a reader skips are those that a parser skips. -/
theorem settles_skip {t f : Token} {rest : List Token} {m : Nat} {errs : Array SyntaxError}
    (h : T.Along ⟨t :: rest, f, m, errs⟩) :
    Indexed.Settles Indexed.skip (T.place ⟨rest, f, m, errs⟩)
      (.ok (), T.place ⟨Parse.skipToBoundary t rest, f, m, errs⟩) ∧
    T.Along ⟨Parse.skipToBoundary t rest, f, m, errs⟩ := by
  induction rest generalizing t with
  | nil => exact ⟨settles_skip_nil h.tail, h.tail⟩
  | cons u rest ih =>
    have hskip : ∀ depth, Indexed.skip (depth + 1) (T.place ⟨u :: rest, f, m, errs⟩) =
        (if t.is .semicolon || Parse.startsStatement u then pure ()
          else Indexed.advance >>= fun _ => Indexed.skip depth : Indexed Unit)
          (T.place ⟨u :: rest, f, m, errs⟩) := by
      intro depth
      rw [Indexed.skip, Indexed.bind_of_ok h.tail.atEnd]
      change (Indexed.previous >>= _) _ = _
      rw [Indexed.bind_of_ok h.previous]
      cases t.is .semicolon with
      | true => rfl
      | false =>
        change (Indexed.peek >>= _) _ = _
        rw [Indexed.bind_of_ok h.tail.peek]
        rfl
    cases hboundary : t.is .semicolon || Parse.startsStatement u with
    | true =>
      rw [Parse.skipToBoundary, hboundary]
      refine ⟨⟨1, fun depth hdepth => ?_⟩, h.tail⟩
      obtain ⟨depth, rfl⟩ : ∃ depth', depth = depth' + 1 := ⟨depth - 1, by omega⟩
      rw [hskip, hboundary]
      rfl
    | false =>
      obtain ⟨⟨least, hleast⟩, halong⟩ := ih h.tail
      rw [Parse.skipToBoundary, hboundary]
      refine ⟨⟨least + 1, fun depth hdepth => ?_⟩, halong⟩
      obtain ⟨depth, rfl⟩ : ∃ depth', depth = depth' + 1 := ⟨depth - 1, by omega⟩
      rw [hskip, hboundary]
      exact (Indexed.bind_of_ok h.tail.advance_cons).trans (hleast depth (by omega))

/-- Behind a faulty declaration the reader skips what the parser skips. -/
theorem settles_synchronize (hstop : 0 < T.stop) {c : Cursor} (hc : T.Along c) :
    Indexed.Settles Indexed.synchronize (T.place c)
      (.ok (), T.place { c with ahead := Parse.synchronize c.ahead }) ∧
    T.Along { c with ahead := Parse.synchronize c.ahead } := by
  obtain ⟨ahead, f, m, errs⟩ := c
  cases ahead with
  | nil =>
    obtain ⟨t, ht⟩ := hc.advance_nil hstop
    exact ⟨(Indexed.Settles.const ht).bind (settles_skip_nil hc), hc⟩
  | cons t rest =>
    obtain ⟨hskip, halong⟩ := settles_skip hc
    exact ⟨(Indexed.Settles.const hc.advance_cons).bind hskip, halong⟩

/-- A reader that goes on after a failure reports it and skips as a parser does. -/
theorem Follows.recover {α : Type} (hstop : 0 < T.stop) {p : Parse α} {q : Nat → Indexed α}
    (h : T.Follows n p q) :
    T.Follows n (Parse.recover p) fun depth => Indexed.recover depth (q depth) := by
  intro c hc hn
  unfold FollowsAt Parse.recover Indexed.recover
  left
  rcases h c hc hn with ⟨a, d, hp, ⟨least, hq⟩, hd, hle⟩ | ⟨e, d, hp, ⟨least, hq⟩, hd, hle⟩
  · rw [hp]
    refine ⟨some a, d, rfl, ⟨least, fun depth hdepth => ?_⟩, hd, hle⟩
    simp only [hq depth hdepth]
  · rw [hp]
    have hreport : T.Along (d.report e) := hd.withOther rfl rfl
    obtain ⟨⟨least', hsync⟩, halong⟩ := settles_synchronize hstop hreport
    refine ⟨none, _, rfl, ⟨max least least', fun depth hdepth => ?_⟩, halong, ?_⟩
    · simp only [hq depth (by omega)]
      refine (Indexed.bind_of_ok rfl).trans ?_
      exact Indexed.bind_of_ok (hsync depth (by omega))
    · exact Nat.le_trans (Parse.synchronize_suffix d.ahead).length_le hle

/-! ### Declarations and programs -/

/-- A declaration that fails is dropped by position as well, with its error. -/
theorem follows_recover_declaration (hstop : 0 < T.stop) {p : Parse Stmt}
    (h : T.Follows n p Indexed.declarationOrFail) :
    T.Follows n (Parse.recover p) Indexed.declaration := by
  refine .succ ?_
  simp only [Indexed.declaration]
  exact h.recover hstop

/-- Statements and declarations are read by position, with as many levels of nesting as
there may be tokens. -/
theorem follows_within (hstop : 0 < T.stop) (hbound : n ≤ bound) :
    T.Follows n (Parse.statementWithin bound) Indexed.statement ∧
      T.Follows n (Parse.declarationWithin bound) Indexed.declaration := by
  induction bound generalizing n with
  | zero =>
    obtain rfl : n = 0 := by omega
    rw [Parse.statementWithin, Parse.declarationWithin]
    have hd : ∀ m < 0, T.Declares m Parse.declaration := fun m hm => absurd hm (Nat.not_lt_zero m)
    have hs : ∀ m < 0, T.Follows m Parse.expressionStatement Indexed.statement :=
      fun m hm => absurd hm (Nat.not_lt_zero m)
    have hstatement : T.Follows 0 (Parse.statementWith Parse.declaration Parse.expressionStatement)
        Indexed.statement := follows_statementWith hd hs
    have hdeclaration : T.Follows 0
        (Parse.declarationWith Parse.declaration Parse.expressionStatement)
        Indexed.declarationOrFail := follows_declarationWith hd hs
    exact ⟨hstatement.fail_at_end fun _ _ _ _ => rfl,
      follows_recover_declaration hstop (hdeclaration.fail_at_end fun _ _ _ _ => rfl)⟩
  | succ bound ih =>
    rw [Parse.statementWithin, Parse.declarationWithin]
    have hs : ∀ m < n, T.Follows m (Parse.statementWithin bound) Indexed.statement :=
      fun m hm => (ih (by omega)).1
    have hd : ∀ m < n, T.Declares m (Parse.declarationWithin bound) := fun m hm =>
      ⟨(ih (by omega)).2, (Parse.reads_within bound).2, Parse.progresses_declarationWithin bound⟩
    exact ⟨follows_statementWith hd hs,
      follows_recover_declaration hstop (follows_declarationWith hd hs)⟩

/-- A declaration is read by position. -/
theorem follows_declaration (hstop : 0 < T.stop) :
    T.Follows n Parse.declaration Indexed.declaration :=
  fun c hc _ => (follows_within hstop (Nat.le_refl _)).2 c hc (Nat.le_refl _)

/-- The statements that are left of a program are read by position, one declaration after
the other. -/
theorem follows_programList (hfuel : n ≤ fuel) :
    T.Follows n (Parse.programList fuel) Indexed.program := by
  induction n using Nat.strongRecOn generalizing fuel with
  | _ n ih =>
    refine .of_fuel (p := fun fuel => Parse.programList fuel) hfuel ?_ ?_
    · rintro ⟨_, f, m, errs⟩ rfl
      rfl
    · intro fuel hfuel
      refine .succ ?_
      simp only [Parse.programList, Indexed.program]
      intro c hc hn
      refine (steps_atEnd.follows c hc hn).bind fun ended d hended hd _ => ?_
      cases hended
      cases hahead : c.ahead.isEmpty with
      | true => exact .pure hc _
      | false =>
        have hsome : c.ahead ≠ [] := by simpa using hahead
        have hstop : 0 < T.stop := by
          obtain ⟨-, -, hle, -⟩ := hc.split
          exact Nat.lt_of_lt_of_le (List.length_pos_iff.2 hsome) hle
        refine (follows_declaration hstop c hc hn).bind fun first d hfirst hd _ => ?_
        have hlt : d.ahead.length < c.ahead.length := by
          obtain ⟨o, d', hok, hlt⟩ := Parse.progresses_declaration c hc.isFinish hsome
          rw [hfirst] at hok
          cases hok
          exact hlt
        have hbound : d.ahead.length ≤ fuel := by omega
        have hothers := ih d.ahead.length (by omega) hbound
        exact (hothers d hd (Nat.le_refl _)).bind fun others d' _ hd' _ => .pure hd' _

/-- A program is read by position, up to the first end of the input. -/
theorem follows_program : T.Follows n Parse.program Indexed.program :=
  fun c hc _ => follows_programList (Nat.le_refl _) c hc (Nat.le_refl _)

end Lox.Track
