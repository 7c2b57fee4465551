import Lox.Proofs.Output

/-!
# Evaluation on a sink that may be full

Every expression and every statement, run on a sink that may be full, follows the same
one on a sink that is not, where the second may have the greater bound. The induction
is on the greater bound: that text is only added to the sink has to be known of the run
that goes on, also where the other run is out of bounds already.
-/

namespace Lox

/-! ### Lists and loops -/

section Lists

variable {evaluate evaluate' : Expr → Eval Value} {execute execute' : Stmt → Eval Flow}
  {evaluated : Expr → Machine → List Point} {executed : Stmt → Machine → List Point}

/-- Arguments are evaluated up to the one in which a print is refused. -/
theorem follows_evaluateAll (h : ∀ e, Follows (evaluated e) (evaluate e) (evaluate' e))
    (es : List Expr) : Follows (visitsEach evaluate evaluated es)
      (Eval.evaluateAll evaluate es) (Eval.evaluateAll evaluate' es) := by
  induction es with
  | nil => exact .quiet (.pure _)
  | cons e rest ih => exact (h e).bind fun _ => ih.bindQuiet fun _ => .pure _

/-- An expression that may be missing is evaluated up to a print that is refused. -/
theorem follows_evaluateOption (h : ∀ e, Follows (evaluated e) (evaluate e) (evaluate' e))
    (e : Option Expr) : Follows (visitsOption evaluated e) (Eval.evaluateOption evaluate e)
      (Eval.evaluateOption evaluate' e) := by
  cases e with
  | none => exact .quiet (.pure _)
  | some e => exact h e

/-- Statements run up to the one in which a print is refused. -/
theorem follows_executeAll (h : ∀ s, Follows (executed s) (execute s) (execute' s))
    (ss : List Stmt) : Follows (visitsAll execute executed ss)
      (Eval.executeAll execute ss) (Eval.executeAll execute' ss) := by
  induction ss with
  | nil => exact .quiet (.pure _)
  | cons s rest ih =>
    refine (h s).bind fun flow => ?_
    cases flow with
    | normal => exact ih
    | returned v => exact .quiet (.pure _)

/-- A loop runs up to the round in which a print is refused. -/
theorem follows_repeatWhile {condition condition' : Eval Value} {body body' : Eval Flow}
    {tested repeated : Machine → List Point} (hc : Follows tested condition condition')
    (hb : Follows repeated body body') {n n' : Nat} (hn : n ≤ n') :
    Follows (visitsWhile condition body tested repeated n)
      (Eval.repeatWhile condition body n) (Eval.repeatWhile condition' body' n') := by
  induction n' generalizing n with
  | zero =>
    obtain rfl : n = 0 := Nat.le_zero.1 hn
    exact .quiet (.throw _)
  | succ n' ih =>
    have hround : ∀ {n}, n ≤ n' → Follows (visitsWhile condition body tested repeated (n + 1))
        (Eval.repeatWhile condition body (n + 1)) (Eval.repeatWhile condition' body' (n' + 1)) := by
      intro n hn
      refine hc.bind fun v => ?_
      by_cases hv : v.isTruthy = true
      · rw [if_pos hv, if_pos hv]
        refine Follows.congr (hb.bind fun flow => ?_) fun m => if_pos hv
        cases flow with
        | normal => exact ih hn
        | returned v => exact .quiet (.pure _)
      · rw [if_neg hv, if_neg hv]
        exact (Follows.quiet (.pure _)).congr fun m => if_neg hv
    cases n with
    | zero => exact ⟨fun m => .exhausted, (hround (Nat.le_refl n')).grows⟩
    | succ n => exact hround (Nat.le_of_succ_le_succ hn)

end Lists

/-! ### Calls -/

section Calls

variable {execute execute' : Stmt → Eval Flow} {executed : Stmt → Machine → List Point}

/-- The body of a function runs up to a print that is refused, and the call is given up
with it. -/
theorem follows_invoke (h : ∀ s, Follows (executed s) (execute s) (execute' s)) (c : Closure)
    (vs : List Value) :
    Follows (fun m => visitsAll execute executed c.decl.body (c.inside vs m))
      (Eval.invoke execute c vs) (Eval.invoke execute' c vs) := by
  refine .quietBind (fun env m => visitsAll execute executed c.decl.body { m with env := env })
    (quiet_newFrame _ _) (fun env => ?_) fun m => rfl
  refine ((follows_executeAll h c.decl.body).inEnv env).bindQuiet fun flow => ?_
  split
  · exact .ask (fun m => .orFault _) fun _ _ => rfl
  · cases flow with
    | normal => exact .pure _
    | returned v => exact .pure _

/-- A class runs its initializer, if it has one. -/
theorem follows_construct (h : ∀ s, Follows (executed s) (execute s) (execute' s)) (cls : Class)
    (vs : List Value) :
    Follows (fun m => visitsBody execute executed (Callable.start? m (.cls cls)) vs)
      (Eval.construct execute cls vs) (Eval.construct execute' cls vs) := by
  refine .quietBind (fun id m => cls.initializer?.elim [] fun method =>
      visitsAll execute executed method.decl.body
        (Closure.inside
          { method with env := (m.store.newFrame method.env [("this", .object id cls)]).1 } vs
          { m with store := (m.store.newFrame method.env [("this", .object id cls)]).2 }))
    (quiet_onStore _) (fun id => ?_) fun m => ?_
  · dsimp only
    cases cls.initializer? with
    | none => exact .quiet (.pure _)
    | some method =>
      refine .quietBind
        (fun bound m => visitsAll execute executed bound.decl.body (bound.inside vs m))
        (quiet_bindMethod _ _) (fun bound => ?_) fun m => rfl
      exact (follows_invoke h bound vs).bindQuiet fun _ => .pure _
  · rw [Callable.start?]
    cases cls.initializer? <;> rfl

/-- What is called runs up to a print that is refused, whatever its kind is. -/
theorem follows_apply (h : ∀ s, Follows (executed s) (execute s) (execute' s))
    (callable : Callable) (vs : List Value) :
    Follows (fun m => visitsBody execute executed (callable.start? m) vs)
      (Eval.apply execute callable vs) (Eval.apply execute' callable vs) := by
  cases callable with
  | native f => exact .quiet (quiet_readClock.bind fun _ => .pure _)
  | function c => exact follows_invoke h c vs
  | cls cls => exact follows_construct h cls vs

/-- A call of a value runs up to a print that is refused. -/
theorem follows_callValue (h : ∀ s, Follows (executed s) (execute s) (execute' s)) (callee : Value)
    (vs : List Value) (line : Nat) :
    Follows (visitsCall execute executed callee vs) (Eval.callValue execute callee vs line)
      (Eval.callValue execute' callee vs line) := by
  unfold Eval.callValue visitsCall
  cases callee.callable? with
  | none => exact .quiet (.fail _ _)
  | some callable =>
    dsimp only
    by_cases harity : vs.length ≠ callable.arity
    · simp only [if_pos harity]
      exact .quiet (.fail _ _)
    · simp only [if_neg harity]
      refine .ask (fun m m' =>
          if Machine.maxCalls ≤ m.calls then []
          else visitsBody execute executed (callable.start? { m' with calls := m'.calls + 1 }) vs)
        (fun m => ?_) (fun _ => rfl) fun m => rfl
      by_cases hcalls : Machine.maxCalls ≤ m.calls
      · simp only [if_pos hcalls]
        exact .quiet (.fail _ _)
      · simp only [if_neg hcalls]
        exact (follows_apply h callable vs).asCall

end Calls

/-! ### Expressions and statements -/

/-- Runs within one bound follow the runs within another. -/
structure FollowsWithin (fuel fuel' : Nat) : Prop where
  /-- Expressions follow. -/
  expression : ∀ e, Follows (visitsEvaluate fuel e) (Eval.evaluate fuel e) (Eval.evaluate fuel' e)
  /-- Statements follow. -/
  statement : ∀ s, Follows (visitsExecute fuel s) (Eval.execute fuel s) (Eval.execute fuel' s)

section Evaluation

variable {fuel fuel' : Nat}

/-- An expression follows with one more level of nesting, when expressions and statements
follow before it. -/
theorem follows_evaluate_succ (h : FollowsWithin fuel fuel') (e : Expr) :
    Follows (visitsEvaluate (fuel + 1) e) (Eval.evaluate (fuel + 1) e)
      (Eval.evaluate (fuel' + 1) e) := by
  have he := h.expression
  -- The expression itself is visited first, and only prints are refused.
  have henter : ∀ {visits : Machine → List Point},
      Follows visits (Eval.evaluate (fuel + 1) e) (Eval.evaluate (fuel' + 1) e) →
      (∀ m, visitsEvaluate (fuel + 1) e m = ⟨fuel + 1, .evaluate e, m⟩ :: visits m) →
      Follows (visitsEvaluate (fuel + 1) e) (Eval.evaluate (fuel + 1) e)
        (Eval.evaluate (fuel' + 1) e) :=
    fun hbody heq => hbody.enter (fun m => ⟨fuel + 1, .evaluate e, m⟩) (fun _ _ => nofun) heq
  cases e with
  | literal l => exact henter (.quiet (.pure _)) fun _ => rfl
  | group inner => exact henter (he inner) fun _ => rfl
  | unary op line operand =>
    exact henter ((he operand).bindQuiet fun v => quiet_applyUnary op line v) fun _ => rfl
  | binary op line left right =>
    refine henter ((he left).bind fun v => ?_) fun _ => rfl
    exact (he right).bindQuiet fun w => quiet_applyBinary op line v w
  | logical op line left right =>
    refine henter ((he left).bind fun v => ?_) fun _ => rfl
    cases op.isDecided v with
    | true => exact .quiet (.pure _)
    | false => exact he right
  | var ref => exact henter (.quiet (quiet_readRef ref)) fun _ => rfl
  | assign ref value =>
    refine henter ((he value).bindQuiet fun v => ?_) fun _ => rfl
    exact (quiet_writeRef ref v).bind fun _ => .pure _
  | call callee arguments line =>
    refine henter ((he callee).bind fun f => ?_) fun _ => rfl
    refine (follows_evaluateAll he arguments).bind fun vs => ?_
    exact follows_callValue h.statement f vs line
  | get object name =>
    exact henter ((he object).bindQuiet fun v => quiet_getProperty v name) fun _ => rfl
  | set object name value =>
    refine henter ((he object).bind fun o => ?_) fun _ => rfl
    cases o with
    | object id cls =>
      refine (he value).bindQuiet fun v => ?_
      exact (quiet_modifyStore _).bind fun _ => .pure _
    | _ => exact .quiet (.fail _ _)
  | this id line => exact henter (.quiet (quiet_readRef _)) fun _ => rfl
  | super id line method => exact henter (.quiet (quiet_superMethod id method)) fun _ => rfl

/-! ### Prints -/

/-- Text is added to a sink that has room. -/
theorem write_of_room {m : Machine} (h : m.sink.refuses = false) (line : Nat) (piece : String) :
    Eval.write line piece m = .ok () { m with sink := m.sink.take piece } := by
  unfold Eval.write
  rw [get_bind_apply, if_neg (by rw [h]; exact Bool.false_ne_true)]
  rfl

/-- A sink that is full takes the beginning of a piece at most. -/
theorem write_of_full {m : Machine} (h : m.sink.refuses = true) (line : Nat) (piece : String) :
    Eval.write line piece m = .error (.error ⟨line, .output m.sink.refusal⟩)
      { m with sink := m.sink.refuse piece } := by
  unfold Eval.write
  rw [get_bind_apply, if_pos h]
  rfl

/-- A piece goes into the sink, or as much of it as a refusal lets in. -/
theorem grows_write (line : Nat) (piece : String) : Grows (Eval.write line piece) := by
  intro m
  cases h : m.sink.refuses with
  | true =>
    rw [write_of_full h]
    exact ⟨m.sink.partOf piece, rfl⟩
  | false =>
    rw [write_of_room h]
    exact ⟨piece, rfl⟩

/-- The steps of a print after its value is known. -/
def printed (line : Nat) (v : Value) : Eval Flow := do
  Eval.write line v.display
  Eval.write line "\n"
  return .normal

/-- A print adds to the sink. -/
theorem grows_printed (line : Nat) (v : Value) : Grows (printed line v) :=
  (grows_write _ _).bind fun _ => (grows_write _ _).bind fun _ => (Quiet.pure _).grows

/-- Where there is room for the value and for the line break, both are in the sink afterwards. -/
theorem printed_of_room {m : Machine} (line : Nat) (v : Value) (h : m.sink.refuses = false)
    (hbreak : (m.sink.take v.display).refuses = false) :
    printed line v m = .ok .normal { m with sink := (m.sink.take v.display).take "\n" } := by
  unfold printed
  rw [bind_of_ok (write_of_room h _ _), bind_of_ok (write_of_room hbreak _ _)]
  rfl

/-- A print whose value is known: it is refused at its value or at its line break, or
both are accepted. -/
theorem truncates_printed {e : Expr} {m m' : Machine} {v : Value}
    (h : Eval.evaluate fuel e m = .ok v m') (hvisited : ∀ p ∈ visitsEvaluate fuel e m, p.Accepted) :
    Truncates (visitsExecute (fuel + 1) (.print e) m) (printed e.line v m')
      (printed e.line v m'.unlimited) := by
  have hfull : printed e.line v m'.unlimited =
      .ok .normal { m' with sink := (m'.sink.unlimited.take v.display).take "\n" } :=
    printed_of_room _ _ rfl rfl
  have hprinted : (machineAfter (printed e.line v m'.unlimited)).sink.accepted =
      m'.sink.accepted ++ (v.display ++ "\n") ++ "" := by
    rw [hfull, String.append_empty, ← String.append_assoc]
    rfl
  cases hvalue : m'.sink.refuses with
  | true =>
    have hstop : printed e.line v m' = .error (.error ⟨e.line, .output m'.sink.refusal⟩)
        { m' with sink := m'.sink.refuse v.display } := by
      rw [printed, bind_apply, write_of_full hvalue]
    rw [hstop]
    exact .refused [] (.value h hvalue) rfl hvisited ⟨"", hprinted⟩
  | false =>
    cases hbreak : (m'.sink.take v.display).refuses with
    | true =>
      have hstop : printed e.line v m' =
          .error (.error ⟨e.line, .output (m'.sink.take v.display).refusal⟩)
            { m' with sink := (m'.sink.take v.display).refuse "\n" } := by
        rw [printed, bind_of_ok (write_of_room hvalue _ _), bind_apply, write_of_full hbreak]
      rw [hstop]
      exact .refused [] (.lineBreak h hvalue hbreak) rfl hvisited ⟨"", hprinted⟩
    | false =>
      rw [hfull, printed_of_room _ _ hvalue hbreak]
      refine .same (List.forall_mem_cons.2 ⟨fun refusal hrefuses => ?_, hvisited⟩)
      -- A refusal would be one of this value on this machine.
      cases hrefuses with
      | value h' hfull =>
        rw [h] at h'
        cases h'
        rw [hvalue] at hfull
        cases hfull
      | lineBreak h' _ hfull =>
        rw [h] at h'
        cases h'
        rw [hbreak] at hfull
        cases hfull

/-- A print without a value is not refused. -/
theorem accepted_of_error {e : Expr} {m m' : Machine} {halt : Halt}
    (h : Eval.evaluate fuel e m = .error halt m') :
    Point.Accepted ⟨fuel + 1, .execute (.print e), m⟩ := by
  intro refusal hrefuses
  cases hrefuses with
  | value h' => rw [h] at h'; cases h'
  | lineBreak h' => rw [h] at h'; cases h'

/-- A print is the one statement that looks at the sink, before the value and before the
line break. -/
theorem follows_print (h : FollowsWithin fuel fuel') (e : Expr) :
    Follows (visitsExecute (fuel + 1) (.print e)) (Eval.execute (fuel + 1) (.print e))
      (Eval.execute (fuel' + 1) (.print e)) := by
  refine ⟨fun m => ?_, (h.expression e).grows.bind (grows_printed e.line)⟩
  have hvalue := (h.expression e).truncates m
  change Truncates _ ((Eval.evaluate fuel e >>= printed e.line) m)
    ((Eval.evaluate fuel' e >>= printed e.line) m.unlimited)
  cases hm : Eval.evaluate fuel e m with
  | error halt after =>
    have haccepted := List.forall_mem_singleton.2 (accepted_of_error hm)
    exact (hvalue.bind_of_error hm (grows_printed e.line)).append haccepted
  | ok v after =>
    rw [hm] at hvalue
    obtain ⟨hfull, hvisited⟩ := hvalue.of_ok
    rw [bind_of_ok hm, bind_of_ok hfull]
    exact truncates_printed hm hvisited

/-! ### Statements -/

/-- A statement follows with one more level of nesting, when expressions and statements
follow before it. -/
theorem follows_execute_succ (h : FollowsWithin fuel fuel') (hfuel : fuel ≤ fuel') (s : Stmt) :
    Follows (visitsExecute (fuel + 1) s) (Eval.execute (fuel + 1) s)
      (Eval.execute (fuel' + 1) s) := by
  have he := h.expression
  have hs := h.statement
  -- The statement itself is visited first, and it is refused only if it prints.
  have henter : ∀ {visits : Machine → List Point},
      Follows visits (Eval.execute (fuel + 1) s) (Eval.execute (fuel' + 1) s) →
      (∀ m, Point.Accepted ⟨fuel + 1, .execute s, m⟩) →
      (∀ m, visitsExecute (fuel + 1) s m = ⟨fuel + 1, .execute s, m⟩ :: visits m) →
      Follows (visitsExecute (fuel + 1) s) (Eval.execute (fuel + 1) s)
        (Eval.execute (fuel' + 1) s) :=
    fun hbody hpoint heq => hbody.enter (fun m => ⟨fuel + 1, .execute s, m⟩) hpoint heq
  cases s with
  | print e => exact follows_print h e
  | expression e =>
    exact henter ((he e).bindQuiet fun _ => .pure _) (fun _ _ => nofun) fun _ => rfl
  | varDecl name initializer =>
    refine henter ((follows_evaluateOption he initializer).bindQuiet fun v => ?_)
      (fun _ _ => nofun) fun _ => rfl
    exact (quiet_define _ _).bind fun _ => .pure _
  | block body =>
    have hbody : Follows (fun m =>
          visitsAll (Eval.execute fuel) (visitsExecute fuel) body (m.inside m.env []))
        (Eval.execute (fuel + 1) (.block body)) (Eval.execute (fuel' + 1) (.block body)) := by
      refine .ask (fun outer m =>
          visitsAll (Eval.execute fuel) (visitsExecute fuel) body (m.inside outer.env []))
        (fun outer => ?_) (fun _ => rfl) fun m => rfl
      refine .quietBind (fun env m =>
          visitsAll (Eval.execute fuel) (visitsExecute fuel) body { m with env := env })
        (quiet_newFrame _ _) (fun env => ?_) fun m => rfl
      exact (follows_executeAll hs body).inEnv env
    exact henter hbody (fun _ _ => nofun) fun _ => rfl
  | branch condition yes no =>
    refine henter ((he condition).bind fun v => ?_) (fun _ _ => nofun) fun _ => rfl
    cases v.isTruthy with
    | true => exact hs yes
    | false =>
      cases no with
      | none => exact .quiet (.pure _)
      | some other => exact hs other
  | loop condition body =>
    exact henter (follows_repeatWhile (he condition) (hs body) hfuel) (fun _ _ => nofun)
      fun _ => rfl
  | funDecl function =>
    refine henter (.quiet ?_) (fun _ _ => nofun) fun _ => rfl
    refine .ask (fun m => ?_) fun _ _ => rfl
    refine (quiet_newFunction _).bind fun v => ?_
    exact (quiet_define _ _).bind fun _ => .pure _
  | result line value =>
    exact henter ((follows_evaluateOption he value).bindQuiet fun _ => .pure _)
      (fun _ _ => nofun) fun _ => rfl
  | classDecl name superclass methods =>
    have hdeclare : Quiet (Eval.execute (fuel + 1) (.classDecl name superclass methods)) :=
      (quiet_declareClass name superclass methods).bind fun _ => .pure _
    cases superclass with
    | none => exact henter (.quiet hdeclare) (fun _ _ => nofun) fun _ => rfl
    | some ref =>
      refine henter ((Follows.quiet hdeclare).enter (fun m => ⟨fuel, .evaluate (.var ref),
        { m with store := m.store.define m.env name.text .nil }⟩) (fun _ _ => nofun) fun _ => rfl)
        (fun _ _ => nofun) fun _ => rfl

end Evaluation

/-- Runs within a bound follow those within a greater one. -/
theorem followsWithin {fuel fuel' : Nat} (h : fuel ≤ fuel') : FollowsWithin fuel fuel' := by
  induction fuel' generalizing fuel with
  | zero =>
    obtain rfl : fuel = 0 := Nat.le_zero.1 h
    exact ⟨fun e => ⟨fun m => .exhausted, (Quiet.throw _).grows⟩,
      fun s => ⟨fun m => .exhausted, (Quiet.throw _).grows⟩⟩
  | succ fuel' ih =>
    have hgreatest := ih (Nat.le_refl fuel')
    cases fuel with
    | zero =>
      exact ⟨fun e => ⟨fun m => .exhausted, (follows_evaluate_succ hgreatest e).grows⟩,
        fun s => ⟨fun m => .exhausted, (follows_execute_succ hgreatest (Nat.le_refl _) s).grows⟩⟩
    | succ fuel =>
      have hless := Nat.le_of_succ_le_succ h
      exact ⟨follows_evaluate_succ (ih hless), follows_execute_succ (ih hless) hless⟩

end Lox
