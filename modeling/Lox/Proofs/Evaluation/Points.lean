import Lox.Proofs.Evaluation.Effects

/-!
# Points of a run

A point of a run is an expression or a statement together with the machine it is
evaluated or executed on. Running it enters further points: its operands, its
arguments, the statements of a block, the rounds of a loop, the statements of the
body of a call. How many calls are in progress at a point is counted along the
way from the outermost one; the counter of the machine agrees with that, and it
never exceeds its limit.
-/

namespace Lox

/-- What is evaluated or executed. -/
inductive Task where
  /-- An expression is to be evaluated. -/
  | evaluate (e : Expr)
  /-- A statement is to be executed. -/
  | execute (s : Stmt)

/-- A task on a machine, with the bound on its run. -/
structure Point where
  /-- How deep the run may still nest. -/
  fuel : Nat
  /-- What is to be done. -/
  task : Task
  /-- The machine that it is to be done on. -/
  machine : Machine

namespace Point

/-- The machine that the task of a point leaves behind, however it ends. -/
def after : Point → Machine
  | ⟨fuel, .evaluate e, m⟩ => machineAfter (Eval.evaluate fuel e m)
  | ⟨fuel, .execute s, m⟩ => machineAfter (Eval.execute fuel s m)

/-- The ways in which the task of a point is finished, and the machine it leaves
behind then. -/
inductive Ends : Point → Machine → Prop where
  /-- An expression has a value. -/
  | value {fuel : Nat} {e : Expr} {m m' : Machine} {v : Value}
      (h : Eval.evaluate fuel e m = .ok v m') : Ends ⟨fuel, .evaluate e, m⟩ m'
  /-- An expression fails with an error of the program. -/
  | failed {fuel : Nat} {e : Expr} {m m' : Machine} {error : RuntimeError}
      (h : Eval.evaluate fuel e m = .error (.error error) m') : Ends ⟨fuel, .evaluate e, m⟩ m'
  /-- A statement is over, or it ends the call in progress. -/
  | executed {fuel : Nat} {s : Stmt} {m m' : Machine} {flow : Flow}
      (h : Eval.execute fuel s m = .ok flow m') : Ends ⟨fuel, .execute s, m⟩ m'
  /-- A statement stops with an error of the program. -/
  | stopped {fuel : Nat} {s : Stmt} {m m' : Machine} {error : RuntimeError}
      (h : Eval.execute fuel s m = .error (.error error) m') : Ends ⟨fuel, .execute s, m⟩ m'

/-- There is one machine that a task ends on. -/
theorem Ends.eq_after {p : Point} {m' : Machine} (h : p.Ends m') : m' = p.after := by
  cases h with
  | value h => rw [after, h]; rfl
  | failed h => rw [after, h]; rfl
  | executed h => rw [after, h]; rfl
  | stopped h => rw [after, h]; rfl

/-- However a task ends, what was there is there. -/
theorem changes (p : Point) : p.machine.Changes p.machine.env.head? p.after := by
  obtain ⟨fuel, task, m⟩ := p
  cases task with
  | evaluate e => exact (keeps_evaluate fuel e m).weaken fun _ _ _ => nofun
  | execute s => exact keeps_execute fuel s m

end Point

/-! ### What a task enters -/

/-- The machine inside a new frame. -/
def Machine.inside (m : Machine) (enclosing : Env) (bindings : Bindings) : Machine :=
  { m with
    store := (m.store.newFrame enclosing bindings).2
    env := m.store.frames.size :: enclosing }

/-- The machine inside the frame of a call, which binds the parameters. -/
def Closure.inside (c : Closure) (vs : List Value) (m : Machine) : Machine :=
  m.inside c.env (Bindings.insertAll [] ((c.decl.params.map (·.text)).zip vs))

/-- What a function makes of the end of its body: an initializer yields its object, and any
other function what was returned. -/
def Closure.yielded (c : Closure) (flow : Flow) : Eval Value :=
  if c.isInitializer then do
    Eval.orFault ((← get).store.getAt c.env 0 "this")
  else
    match flow with
    | .normal => return .nil
    | .returned value => return value

/-- A call runs the body of a function on the machine inside its frame, and goes on in the
environment that it came from. -/
theorem invoke_apply (execute : Stmt → Eval Flow) (c : Closure) (vs : List Value)
    (m : Machine) : Eval.invoke execute c vs m =
      match onState (fun after => { after with env := m.env })
        (Eval.executeAll execute c.decl.body (c.inside vs m)) with
      | .ok flow after => c.yielded flow after
      | .error halt after => .error halt after := by
  have hframe : Eval.newFrame c.env
      (Bindings.insertAll [] ((c.decl.params.map (·.text)).zip vs)) m =
        .ok (c.inside vs m).env { c.inside vs m with env := m.env } := rfl
  have hrun : Eval.invoke execute c vs m =
      (Eval.inEnv (c.inside vs m).env (Eval.executeAll execute c.decl.body) >>= c.yielded)
        { c.inside vs m with env := m.env } := bind_of_ok hframe
  have hbody : Eval.inEnv (c.inside vs m).env (Eval.executeAll execute c.decl.body)
      { c.inside vs m with env := m.env } =
        onState (fun after => { after with env := m.env })
          (Eval.executeAll execute c.decl.body (c.inside vs m)) := inEnv_apply _ _ _
  rw [hrun, bind_apply, hbody]
  cases Eval.executeAll execute c.decl.body (c.inside vs m) with
  | ok flow after => rfl
  | error halt after => rfl

/-- The function that is run by calling a callable, and the machine that it is
run on. A class runs its initializer, bound to a new object. -/
def Callable.start? (m : Machine) : Callable → Option (Closure × Machine)
  | .native _ => none
  | .function c => some (c, m)
  | .cls called =>
    match called.initializer? with
    | none => none
    | some method =>
      let (id, store) := m.store.newObject
      let (env, store) := store.newFrame method.env [("this", .object id called)]
      some ({ method with env := env }, { m with store := store })

/-- A number of full rounds of a loop. -/
inductive Rounds (fuel : Nat) (condition : Expr) (body : Stmt) :
    Nat → Machine → Machine → Prop where
  /-- No round was made. -/
  | none {m : Machine} : Rounds fuel condition body 0 m m
  /-- In one more round the condition holds and the body ends normally. -/
  | more {n : Nat} {m m₁ m₂ m₃ : Machine} {v : Value} (h : Rounds fuel condition body n m m₁)
      (hc : Eval.evaluate fuel condition m₁ = .ok v m₂) (hv : v.isTruthy = true)
      (hb : Eval.execute fuel body m₂ = .ok .normal m₃) :
      Rounds fuel condition body (n + 1) m m₃

/-- The points that a task enters, each with the number of calls that are in
progress there in addition. A list of statements or arguments is entered at an
element once all elements before it are done. -/
inductive Enters : Point → Nat → Point → Prop where
  /-- The expression in parentheses. -/
  | group {fuel : Nat} {m : Machine} {e : Expr} :
      Enters ⟨fuel + 1, .evaluate (.group e), m⟩ 0 ⟨fuel, .evaluate e, m⟩
  /-- The operand of a prefix operator. -/
  | operand {fuel : Nat} {m : Machine} {op : UnaryOp} {line : Nat} {e : Expr} :
      Enters ⟨fuel + 1, .evaluate (.unary op line e), m⟩ 0 ⟨fuel, .evaluate e, m⟩
  /-- The left operand. -/
  | left {fuel : Nat} {m : Machine} {op : BinaryOp} {line : Nat} {a b : Expr} :
      Enters ⟨fuel + 1, .evaluate (.binary op line a b), m⟩ 0 ⟨fuel, .evaluate a, m⟩
  /-- The right operand, once the left one is known. -/
  | right {fuel : Nat} {m m' : Machine} {op : BinaryOp} {line : Nat} {a b : Expr} {u : Value}
      (ha : Eval.evaluate fuel a m = .ok u m') :
      Enters ⟨fuel + 1, .evaluate (.binary op line a b), m⟩ 0 ⟨fuel, .evaluate b, m'⟩
  /-- The left operand of a logical operator. -/
  | first {fuel : Nat} {m : Machine} {op : LogicalOp} {line : Nat} {a b : Expr} :
      Enters ⟨fuel + 1, .evaluate (.logical op line a b), m⟩ 0 ⟨fuel, .evaluate a, m⟩
  /-- The right operand of a logical operator, if the left one leaves it open. -/
  | second {fuel : Nat} {m m' : Machine} {op : LogicalOp} {line : Nat} {a b : Expr} {u : Value}
      (ha : Eval.evaluate fuel a m = .ok u m') (hopen : op.isDecided u = false) :
      Enters ⟨fuel + 1, .evaluate (.logical op line a b), m⟩ 0 ⟨fuel, .evaluate b, m'⟩
  /-- The value of an assignment. -/
  | assigned {fuel : Nat} {m : Machine} {ref : Ref} {e : Expr} :
      Enters ⟨fuel + 1, .evaluate (.assign ref e), m⟩ 0 ⟨fuel, .evaluate e, m⟩
  /-- What is called. -/
  | callee {fuel : Nat} {m : Machine} {e : Expr} {es : List Expr} {line : Nat} :
      Enters ⟨fuel + 1, .evaluate (.call e es line), m⟩ 0 ⟨fuel, .evaluate e, m⟩
  /-- An argument, once those before it are known. -/
  | argument {fuel : Nat} {m m₁ m₂ : Machine} {callee e : Expr} {before later : List Expr}
      {line : Nat} {f : Value} {vs : List Value} (hf : Eval.evaluate fuel callee m = .ok f m₁)
      (hvs : Eval.evaluateAll (Eval.evaluate fuel) before m₁ = .ok vs m₂) :
      Enters ⟨fuel + 1, .evaluate (.call callee (before ++ e :: later) line), m⟩ 0
        ⟨fuel, .evaluate e, m₂⟩
  /-- A statement of the body of what is called, once those before it are done. This is
  inside of one more call. -/
  | body {fuel : Nat} {m m₁ m₂ m₃ m₄ : Machine} {callee : Expr} {es : List Expr} {line : Nat}
      {f : Value} {vs : List Value} {callable : Callable} {c : Closure} {before later : List Stmt}
      {s : Stmt} (hf : Eval.evaluate fuel callee m = .ok f m₁)
      (hvs : Eval.evaluateAll (Eval.evaluate fuel) es m₁ = .ok vs m₂)
      (hcallable : f.callable? = some callable) (harity : vs.length = callable.arity)
      (hcalls : m₂.calls < Machine.maxCalls)
      (hstart : callable.start? { m₂ with calls := m₂.calls + 1 } = some (c, m₃))
      (hbody : c.decl.body = before ++ s :: later)
      (hbefore : Eval.executeAll (Eval.execute fuel) before (c.inside vs m₃) = .ok .normal m₄) :
      Enters ⟨fuel + 1, .evaluate (.call callee es line), m⟩ 1 ⟨fuel, .execute s, m₄⟩
  /-- The object of a property that is read. -/
  | object {fuel : Nat} {m : Machine} {e : Expr} {name : Name} :
      Enters ⟨fuel + 1, .evaluate (.get e name), m⟩ 0 ⟨fuel, .evaluate e, m⟩
  /-- The object of a property that is set. -/
  | target {fuel : Nat} {m : Machine} {o e : Expr} {name : Name} :
      Enters ⟨fuel + 1, .evaluate (.set o name e), m⟩ 0 ⟨fuel, .evaluate o, m⟩
  /-- The value of a property that is set, once the object is known. -/
  | field {fuel : Nat} {m m' : Machine} {o e : Expr} {name : Name} {id : Nat} {cls : Class}
      (ho : Eval.evaluate fuel o m = .ok (.object id cls) m') :
      Enters ⟨fuel + 1, .evaluate (.set o name e), m⟩ 0 ⟨fuel, .evaluate e, m'⟩
  /-- The expression of a statement. -/
  | expression {fuel : Nat} {m : Machine} {e : Expr} :
      Enters ⟨fuel + 1, .execute (.expression e), m⟩ 0 ⟨fuel, .evaluate e, m⟩
  /-- The expression of a print. -/
  | print {fuel : Nat} {m : Machine} {e : Expr} :
      Enters ⟨fuel + 1, .execute (.print e), m⟩ 0 ⟨fuel, .evaluate e, m⟩
  /-- The initial value of a variable. -/
  | initializer {fuel : Nat} {m : Machine} {name : Name} {e : Expr} :
      Enters ⟨fuel + 1, .execute (.varDecl name (some e)), m⟩ 0 ⟨fuel, .evaluate e, m⟩
  /-- A statement of a block, once those before it are done. -/
  | block {fuel : Nat} {m m' : Machine} {before later : List Stmt} {s : Stmt}
      (hbefore : Eval.executeAll (Eval.execute fuel) before (m.inside m.env []) = .ok .normal m') :
      Enters ⟨fuel + 1, .execute (.block (before ++ s :: later)), m⟩ 0 ⟨fuel, .execute s, m'⟩
  /-- The condition of a choice. -/
  | condition {fuel : Nat} {m : Machine} {e : Expr} {yes : Stmt} {no : Option Stmt} :
      Enters ⟨fuel + 1, .execute (.branch e yes no), m⟩ 0 ⟨fuel, .evaluate e, m⟩
  /-- The first branch, if the condition holds. -/
  | yes {fuel : Nat} {m m' : Machine} {e : Expr} {yes : Stmt} {no : Option Stmt} {v : Value}
      (he : Eval.evaluate fuel e m = .ok v m') (hv : v.isTruthy = true) :
      Enters ⟨fuel + 1, .execute (.branch e yes no), m⟩ 0 ⟨fuel, .execute yes, m'⟩
  /-- The second branch, if the condition does not hold. -/
  | no {fuel : Nat} {m m' : Machine} {e : Expr} {yes no : Stmt} {v : Value}
      (he : Eval.evaluate fuel e m = .ok v m') (hv : v.isTruthy = false) :
      Enters ⟨fuel + 1, .execute (.branch e yes (some no)), m⟩ 0 ⟨fuel, .execute no, m'⟩
  /-- The condition of a loop, after some rounds. -/
  | again {fuel n : Nat} {m m' : Machine} {e : Expr} {s : Stmt} (hr : Rounds fuel e s n m m')
      (hn : n < fuel) :
      Enters ⟨fuel + 1, .execute (.loop e s), m⟩ 0 ⟨fuel, .evaluate e, m'⟩
  /-- The body of a loop, after some rounds, if the condition holds. -/
  | round {fuel n : Nat} {m m₁ m₂ : Machine} {e : Expr} {s : Stmt} {v : Value}
      (hr : Rounds fuel e s n m m₁) (hn : n < fuel) (he : Eval.evaluate fuel e m₁ = .ok v m₂)
      (hv : v.isTruthy = true) :
      Enters ⟨fuel + 1, .execute (.loop e s), m⟩ 0 ⟨fuel, .execute s, m₂⟩
  /-- The value of a `return`. -/
  | result {fuel : Nat} {m : Machine} {line : Nat} {e : Expr} :
      Enters ⟨fuel + 1, .execute (.result line (some e)), m⟩ 0 ⟨fuel, .evaluate e, m⟩
  /-- The superclass of a class, once the name of the class is bound. -/
  | superclass {fuel : Nat} {m : Machine} {name : Name} {ref : Ref} {methods : List FunDecl} :
      Enters ⟨fuel + 1, .execute (.classDecl name (some ref) methods), m⟩ 0
        ⟨fuel, .evaluate (.var ref), { m with store := m.store.define m.env name.text .nil }⟩

/-- A point inside of another, with the number of calls between them. -/
inductive Inside : Nat → Point → Point → Prop where
  /-- A point is inside of itself. -/
  | here {p : Point} : Inside 0 p p
  /-- What a point inside of another one enters is inside of it as well. -/
  | deeper {n k : Nat} {p q r : Point} (h : Inside n p q) (hr : Enters q k r) :
      Inside (n + k) p r

/-! ### The number of calls -/

/-- A step that keeps the rest as it is leaves as many calls in progress as it found. -/
theorem calls_of_ok {α : Type} {site : Env → Option Nat} {p : Eval α} (hp : Keeps site p)
    {m m' : Machine} {a : α} (h : p m = .ok a m') : m'.calls = m.calls := by
  have hcalls := (hp m).calls
  rw [h] at hcalls
  exact hcalls

/-- An expression leaves as many calls in progress as it found. -/
theorem calls_evaluate {fuel : Nat} {e : Expr} {m m' : Machine} {v : Value}
    (h : Eval.evaluate fuel e m = .ok v m') : m'.calls = m.calls :=
  calls_of_ok (keeps_evaluate fuel e) h

/-- So do arguments. -/
theorem calls_evaluateAll {fuel : Nat} {es : List Expr} {m m' : Machine} {vs : List Value}
    (h : Eval.evaluateAll (Eval.evaluate fuel) es m = .ok vs m') : m'.calls = m.calls :=
  calls_of_ok (keeps_evaluateAll (keeps_evaluate fuel) es) h

/-- So do statements one after another. -/
theorem calls_executeAll {fuel : Nat} {ss : List Stmt} {m m' : Machine} {flow : Flow}
    (h : Eval.executeAll (Eval.execute fuel) ss m = .ok flow m') : m'.calls = m.calls :=
  calls_of_ok (keeps_executeAll (keeps_execute fuel) ss) h

/-- So do rounds of a loop. -/
theorem Rounds.calls_eq {fuel n : Nat} {e : Expr} {s : Stmt} {m m' : Machine}
    (h : Rounds fuel e s n m m') : m'.calls = m.calls := by
  induction h with
  | none => rfl
  | more _ hc _ hb ih =>
    rw [calls_of_ok (keeps_execute fuel s) hb, calls_evaluate hc, ih]

/-- A function is started on a machine with as many calls in progress. -/
theorem Callable.calls_start? {callable : Callable} {c : Closure} {m m' : Machine}
    (h : callable.start? m = some (c, m')) : m'.calls = m.calls := by
  cases callable with
  | native f => cases h
  | function d =>
    cases h
    rfl
  | cls cls =>
    rw [Callable.start?] at h
    cases hinit : cls.initializer? with
    | none =>
      rw [hinit] at h
      cases h
    | some method =>
      rw [hinit] at h
      cases h
      rfl

/-- A point that is entered has as many more calls in progress as it should, and
a call is entered only below the limit. -/
theorem Enters.calls_eq {p q : Point} {k : Nat} (h : Enters p k q) :
    q.machine.calls = p.machine.calls + k ∧
      (p.machine.calls ≤ Machine.maxCalls → q.machine.calls ≤ Machine.maxCalls) := by
  have hsame : ∀ {m m' : Machine}, m'.calls = m.calls →
      m'.calls = m.calls + 0 ∧ (m.calls ≤ Machine.maxCalls → m'.calls ≤ Machine.maxCalls) := by
    omega
  cases h with
  | right ha => exact hsame (calls_evaluate ha)
  | second ha => exact hsame (calls_evaluate ha)
  | argument hf hvs => exact hsame ((calls_evaluateAll hvs).trans (calls_evaluate hf))
  | body hf hvs _ _ hcalls hstart _ hbefore =>
    have hinside := calls_executeAll hbefore
    have hstarted := Callable.calls_start? hstart
    have hevaluated := (calls_evaluateAll hvs).trans (calls_evaluate hf)
    simp only [Closure.inside, Machine.inside] at hinside
    dsimp only at hstarted ⊢
    omega
  | field ho => exact hsame (calls_evaluate ho)
  | block hbefore =>
    have hinside := calls_executeAll hbefore
    exact hsame hinside
  | yes he => exact hsame (calls_evaluate he)
  | no he => exact hsame (calls_evaluate he)
  | again hr => exact hsame hr.calls_eq
  | round hr _ he => exact hsame ((calls_evaluate he).trans hr.calls_eq)
  | _ => exact hsame rfl

/-- Inside of a point the counter has grown by the number of calls in between. -/
theorem Inside.calls_eq {p q : Point} {n : Nat} (h : Inside n p q) :
    q.machine.calls = p.machine.calls + n ∧
      (p.machine.calls ≤ Machine.maxCalls → q.machine.calls ≤ Machine.maxCalls) := by
  induction h with
  | here => exact ⟨rfl, id⟩
  | deeper _ hr ih =>
    have hstep := hr.calls_eq
    exact ⟨by omega, fun hmax => hstep.2 (ih.2 hmax)⟩

end Lox
