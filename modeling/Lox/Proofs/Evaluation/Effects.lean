import Lox.Proofs.Simulation
import Lox.Proofs.Store
import Lox.Session

/-!
# What a step leaves as it was

However an expression or a statement ends, the environment in effect, the number
of calls in progress and the distances are afterwards what they were, and no
frame has lost a name. New names come in new frames only, with one exception: a
statement may declare names in the innermost frame that was in effect when it
began. None of this depends on the machine that a step starts from.
-/

namespace Lox

variable {α β : Type}

/-- The machine that a step leaves behind, however it ends. -/
def machineAfter : EStateM.Result Halt Machine α → Machine
  | .ok _ m => m
  | .error _ m => m

/-- A change of what is left behind is a change of the machine that is left behind. -/
theorem machineAfter_onState (f : Machine → Machine) (r : EStateM.Result Halt Machine α) :
    machineAfter (onState f r) = f (machineAfter r) := by
  cases r <;> rfl

/-- What changes from one machine to another. Frames that are there already get
no new names, but for the one frame `site`, if there is one. -/
structure Machine.Changes (site : Option Nat) (m m' : Machine) : Prop where
  /-- The environment in effect is the same. -/
  env : m'.env = m.env
  /-- As many calls are in progress. -/
  calls : m'.calls = m.calls
  /-- The distances are the same. -/
  distances : m'.distances = m.distances
  /-- No frame is lost. -/
  frames : m.store.frames.size ≤ m'.store.frames.size
  /-- No name is lost. -/
  kept : ∀ i x, m.store.Binds i x → m'.store.Binds i x
  /-- No frame that was there gets a name, unless it is the one that may. -/
  only : ∀ i x, i < m.store.frames.size → some i ≠ site → m'.store.Binds i x → m.store.Binds i x

namespace Machine.Changes

variable {site : Option Nat} {m m' m'' : Machine}

/-- Nothing has changed from a machine to itself. -/
theorem refl (site : Option Nat) (m : Machine) : Changes site m m :=
  ⟨rfl, rfl, rfl, Nat.le_refl _, fun _ _ h => h, fun _ _ _ _ h => h⟩

/-- Changes may be made one after the other. -/
theorem trans (h : Changes site m m') (h' : Changes site m' m'') : Changes site m m'' where
  env := h'.env.trans h.env
  calls := h'.calls.trans h.calls
  distances := h'.distances.trans h.distances
  frames := Nat.le_trans h.frames h'.frames
  kept := fun i x hx => h'.kept i x (h.kept i x hx)
  only := fun i x hi hsite hx =>
    h.only i x hi hsite (h'.only i x (Nat.lt_of_lt_of_le hi h.frames) hsite hx)

/-- A frame that is new is no exception. -/
theorem weaken (h : Changes site m m') {site' : Option Nat}
    (hsite : ∀ i < m.store.frames.size, some i ≠ site' → some i ≠ site) :
    Changes site' m m' :=
  { h with only := fun i x hi hne => h.only i x hi (hsite i hi hne) }

/-- Only the store of a machine is changed, and in it no frame. -/
theorem ofFrames (site : Option Nat) {store : Store} (h : store.frames = m.store.frames) :
    Changes site m { m with store := store } := by
  have hbinds : ∀ i x, store.Binds i x ↔ m.store.Binds i x := by
    intro i x
    unfold Store.Binds Store.frame
    rw [h]
  exact ⟨rfl, rfl, rfl, Nat.le_of_eq (congrArg Array.size h.symm),
    fun i x => (hbinds i x).2, fun i x _ _ => (hbinds i x).1⟩

/-- A name of a frame gets a value. -/
theorem bindIn {i : Nat} {x : String} {v : Value} (h : some i = site ∨ m.store.Binds i x) :
    Changes site m { m with store := m.store.bindIn i x v } := by
  have hbinds : ∀ j y, j < m.store.frames.size →
      ((m.store.bindIn i x v).Binds j y ↔ (j = i ∧ y = x) ∨ m.store.Binds j y) := by
    intro j y hj
    unfold Store.Binds
    by_cases hi : i < m.store.frames.size
    · rw [Store.get?_bindIn hi]
      split <;> simp_all
    · rw [Store.frame_bindIn_of_ne (by omega)]
      exact ⟨.inr, fun h => h.elim (fun hj => by omega) id⟩
  refine ⟨rfl, rfl, rfl, Nat.le_of_eq Store.size_bindIn.symm, fun j y hy => ?_,
    fun j y hj hne hy => ?_⟩
  · exact (hbinds j y hy.lt_size).2 (.inr hy)
  · rcases (hbinds j y hj).1 hy with ⟨rfl, rfl⟩ | hy
    · exact h.resolve_left hne
    · exact hy

/-- Making a frame changes no frame that is there. -/
theorem newFrame (site : Option Nat) (env : Env) (bindings : Bindings) :
    Changes site m { m with store := (m.store.newFrame env bindings).2 } := by
  refine ⟨rfl, rfl, rfl, ?_, fun i x hx => ?_, fun i x hi _ hx => ?_⟩
  · rw [Store.size_newFrame]
    exact Nat.le_succ _
  · rw [Store.Binds, Store.frame_newFrame_of_lt hx.lt_size]
    exact hx
  · rw [Store.Binds, Store.frame_newFrame_of_lt hi] at hx
    exact hx

end Machine.Changes

/-- A step that leaves all as it was but for the names of one frame, which the
environment in effect may tell. -/
def Keeps (site : Env → Option Nat) (p : Eval α) : Prop :=
  ∀ m : Machine, m.Changes (site m.env) (machineAfter (p m))

/-- No frame that is there may get names. -/
def nowhere : Env → Option Nat := fun _ => none

/-- The innermost frame may get names. -/
def innermost : Env → Option Nat := List.head?

namespace Keeps

variable {site : Env → Option Nat} {p : Eval α} {f : α → Eval β}

/-- Yielding a value changes nothing. -/
theorem pure (a : α) : Keeps site (Pure.pure a) := fun m => .refl (site m.env) m

/-- Halting changes nothing. -/
theorem throw (h : Halt) : Keeps site (MonadExcept.throw h : Eval α) :=
  fun m => .refl (site m.env) m

/-- Failing changes nothing. -/
theorem fail (line : Nat) (cause : RuntimeCause) : Keeps site (Eval.fail line cause : Eval α) :=
  throw _

/-- Two steps that keep the rest as it is keep it one after the other. -/
theorem bind (hp : Keeps site p) (hf : ∀ a, Keeps site (f a)) : Keeps site (p >>= f) := by
  intro m
  have hfirst := hp m
  rw [bind_apply]
  cases hm : p m with
  | error h m' =>
    rw [hm] at hfirst
    exact hfirst
  | ok a m' =>
    rw [hm] at hfirst
    have henv : m'.env = m.env := hfirst.env
    have hsecond := hf a m'
    rw [henv] at hsecond
    exact hfirst.trans hsecond

/-- A step that looks at the machine first. -/
theorem ask {f : Machine → Eval α} (hf : ∀ m, Keeps site (f m)) : Keeps site (get >>= f) :=
  fun m => hf m m

/-- A step that adds no name to any frame may be allowed to add names to one. -/
theorem weaken (hp : Keeps nowhere p) : Keeps site p :=
  fun m => (hp m).weaken fun _ _ _ => nofun

/-- Looking at the result of an operation that may be at fault changes nothing. -/
theorem orFault (r : Except Fault α) : Keeps site (Eval.orFault r) := by
  cases r with
  | ok a => exact pure a
  | error fault => exact throw _

/-- Looking at the result of an operation that may fail changes nothing. -/
theorem orFail (r : Except RuntimeError α) : Keeps site (Eval.orFail r) := by
  cases r with
  | ok a => exact pure a
  | error e => exact throw _

/-- The environment is back after a step in another one. -/
theorem inEnv (hp : Keeps innermost p) (i : Nat) (env : Env) :
    Keeps (fun _ => some i) (Eval.inEnv (i :: env) p) := by
  intro m
  have h := hp { m with env := i :: env }
  rw [inEnv_apply, machineAfter_onState]
  exact ⟨rfl, h.calls, h.distances, h.frames, h.kept, h.only⟩

/-- The number of calls is back after a call. -/
theorem asCall (hp : Keeps site p) : Keeps site (Eval.asCall p) := by
  intro m
  have h := hp { m with calls := m.calls + 1 }
  rw [asCall_apply, machineAfter_onState]
  refine ⟨h.env, ?_, h.distances, h.frames, h.kept, h.only⟩
  have hcalls := h.calls
  dsimp only at hcalls ⊢
  omega

/-- The names that are bound in a new frame are bound nowhere else. -/
theorem newFrame_bind {env : Env} {bindings : Bindings} {f : Env → Eval β}
    (hf : ∀ i, Keeps (fun _ => some i) (f (i :: env))) :
    Keeps nowhere (Eval.newFrame env bindings >>= f) := by
  intro m
  have hnew : m.Changes none { m with store := (m.store.newFrame env bindings).2 } :=
    .newFrame _ env bindings
  have hinside := hf m.store.frames.size { m with store := (m.store.newFrame env bindings).2 }
  refine Machine.Changes.weaken ((hnew.weaken fun _ _ _ => nofun).trans hinside) ?_
  intro i hi _ hsame
  have : i = m.store.frames.size := Option.some.inj hsame
  omega

end Keeps

/-! ### Names, properties and methods -/

section Steps

variable {site : Env → Option Nat}

/-- A change of the store that no frame takes part in. -/
theorem keeps_onStore {change : Store → α × Store}
    (h : ∀ store, (change store).2.frames = store.frames) : Keeps site (Eval.onStore change) :=
  fun m => .ofFrames _ (h m.store)

/-- Setting a field touches no frame. -/
theorem keeps_setField (object : Nat) (x : String) (v : Value) :
    Keeps site (Eval.modifyStore (·.setField object x v)) :=
  fun _ => .ofFrames _ rfl

/-- A new frame leaves those that are there alone. -/
theorem keeps_newFrame (env : Env) (bindings : Bindings) :
    Keeps site (Eval.newFrame env bindings) :=
  fun _ => .newFrame _ env bindings

/-- A declaration adds its name to the innermost frame and to no other. -/
theorem keeps_define (x : String) (v : Value) : Keeps innermost (Eval.define x v) := by
  intro m
  obtain ⟨store, env, calls, distances, sink, clock⟩ := m
  cases env with
  | nil => exact .refl _ _
  | cons i rest => exact .bindIn (.inl rfl)

/-- Reading a variable changes nothing, whether or not it is found. -/
theorem keeps_readRef (ref : Ref) : Keeps site (Eval.readRef ref) := by
  refine .ask fun m => ?_
  split
  · exact .orFault _
  · exact .orFail _

/-- All that an assignment can do: the name of a frame that has it gets the
value, or the machine is left as it is. -/
theorem writeRef_cases (ref : Ref) (v : Value) (m : Machine) :
    (∃ i, m.store.Binds i ref.name.text ∧ Eval.writeRef ref v m =
      .ok () { m with store := m.store.bindIn i ref.name.text v }) ∨
    ∃ h, Eval.writeRef ref v m = .error h m := by
  rw [Eval.writeRef, get_bind_apply]
  cases m.distances[ref.id]? with
  | some d =>
    dsimp only
    cases hframe : m.store.frameAt m.env d ref.name.text with
    | ok found =>
      exact .inl ⟨found.1, .of_get? (Store.get?_of_frameAt hframe), rfl⟩
    | error fault => exact .inr ⟨_, rfl⟩
  | none =>
    dsimp only
    cases hholder : m.store.holder? globalEnv ref.name.text with
    | some i => exact .inl ⟨i, Store.binds_of_holder? hholder, rfl⟩
    | none => exact .inr ⟨_, rfl⟩

/-- Assigning to a variable adds no name to any frame. -/
theorem keeps_writeRef (ref : Ref) (v : Value) : Keeps site (Eval.writeRef ref v) := by
  intro m
  rcases writeRef_cases ref v m with ⟨i, hi, hm⟩ | ⟨h, hm⟩
  · rw [hm]
    exact .bindIn (.inr hi)
  · rw [hm]
    exact .refl _ _

/-- The sink is no part of what is kept. -/
theorem keeps_modifySink (change : Sink → Sink) : Keeps site (Eval.modifySink change) :=
  fun _ => ⟨rfl, rfl, rfl, Nat.le_refl _, fun _ _ h => h, fun _ _ _ _ h => h⟩

/-- Printing changes the sink only, also if it is refused. -/
theorem keeps_write (line : Nat) (piece : String) : Keeps site (Eval.write line piece) := by
  refine .ask fun m => ?_
  dsimp only
  split
  · exact (keeps_modifySink _).bind fun _ => .fail _ _
  · exact keeps_modifySink _

/-- A new function uses up an identity and changes no frame. -/
theorem keeps_newFunction (c : Closure) : Keeps site (Eval.newFunction c) :=
  (keeps_onStore fun _ => rfl).bind fun _ => .pure _

/-- A method that is bound to an object and made a function. -/
theorem keeps_boundMethod (method : Closure) (object : Value) :
    Keeps site (Eval.bindMethod method object >>= Eval.newFunction) :=
  ((keeps_newFrame _ _).bind fun _ => .pure _).bind keeps_newFunction

/-- Reading a property may bind a method, which takes a new frame. -/
theorem keeps_getProperty (object : Value) (name : Name) :
    Keeps site (Eval.getProperty object name) := by
  cases object with
  | object id cls =>
    refine .ask fun m => ?_
    split
    · exact .pure _
    · split
      · exact keeps_boundMethod _ _
      · exact .fail _ _
  | _ => exact .fail _ _

/-- So may reading a method of the superclass. -/
theorem keeps_superMethod (id : Nat) (method : Name) :
    Keeps site (Eval.superMethod id method) := by
  refine .ask fun m => ?_
  split
  · exact .throw _
  · refine Keeps.bind (.orFault _) fun superclass => Keeps.bind (.orFault _) fun object => ?_
    split
    · split
      · exact keeps_boundMethod _ _
      · exact .fail _ _
    · exact .throw _

/-- A unary operator works on values alone. -/
theorem keeps_applyUnary (op : UnaryOp) (line : Nat) (v : Value) :
    Keeps site (Eval.applyUnary op line v) := by
  unfold Eval.applyUnary
  split
  · exact .pure _
  · exact .pure _
  · exact .fail _ _

/-- So does an operator on two numbers. -/
theorem keeps_numeric (line : Nat) (v w : Value) (apply : Float → Float → Value) :
    Keeps site (Eval.numeric line v w apply) := by
  unfold Eval.numeric
  split
  · exact .pure _
  · exact .fail _ _

/-- So does an addition. -/
theorem keeps_add (line : Nat) (v w : Value) : Keeps site (Eval.add line v w) := by
  unfold Eval.add
  split
  · exact .pure _
  · exact .pure _
  · exact .fail _ _

/-- So does any binary operator. -/
theorem keeps_applyBinary (op : BinaryOp) (line : Nat) (v w : Value) :
    Keeps site (Eval.applyBinary op line v w) := by
  cases op with
  | add => exact keeps_add line v w
  | equal => exact .pure _
  | notEqual => exact .pure _
  | _ => exact keeps_numeric line v w _

/-- Looking whether a value is an object changes nothing. -/
theorem keeps_expectObject (v : Value) (line : Nat) : Keeps site (Eval.expectObject v line) := by
  unfold Eval.expectObject
  split
  · exact .pure _
  · exact .fail _ _

/-- Expressions that keep the rest as it is keep it one after another. -/
theorem keeps_evaluateAll {evaluate : Expr → Eval Value} (h : ∀ e, Keeps site (evaluate e))
    (es : List Expr) : Keeps site (Eval.evaluateAll evaluate es) := by
  induction es with
  | nil => exact .pure _
  | cons e rest ih => exact (h e).bind fun _ => ih.bind fun _ => .pure _

/-- An expression that may be absent changes no more than one that is there. -/
theorem keeps_evaluateOption {evaluate : Expr → Eval Value} (h : ∀ e, Keeps site (evaluate e))
    (e : Option Expr) : Keeps site (Eval.evaluateOption evaluate e) := by
  cases e with
  | none => exact .pure _
  | some e => exact h e

/-- Statements that keep the rest as it is keep it one after another, also where one of
them returns. -/
theorem keeps_executeAll {execute : Stmt → Eval Flow} (h : ∀ s, Keeps site (execute s))
    (ss : List Stmt) : Keeps site (Eval.executeAll execute ss) := by
  induction ss with
  | nil => exact .pure _
  | cons s rest ih =>
    refine (h s).bind fun flow => ?_
    cases flow with
    | normal => exact ih
    | returned v => exact .pure _

/-- A loop changes in all its rounds what it may change in one. -/
theorem keeps_repeatWhile {condition : Eval Value} {body : Eval Flow}
    (hc : Keeps site condition) (hb : Keeps site body) (n : Nat) :
    Keeps site (Eval.repeatWhile condition body n) := by
  induction n with
  | zero => exact .throw _
  | succ n ih =>
    refine hc.bind fun v => ?_
    split
    · refine hb.bind fun flow => ?_
      cases flow with
      | normal => exact ih
      | returned v => exact .pure _
    · exact .pure _

end Steps

/-! ### Calls and classes -/

section Calls

variable {execute : Stmt → Eval Flow}

/-- A call adds no names to frames that are there: those of the body go to its own frame. -/
theorem keeps_invoke (h : ∀ s, Keeps innermost (execute s)) (c : Closure) (vs : List Value) :
    Keeps nowhere (Eval.invoke execute c vs) := by
  refine .newFrame_bind fun i => ?_
  refine Keeps.bind (.inEnv (keeps_executeAll h c.decl.body) i c.env) fun flow => ?_
  split
  · exact .ask fun m => .orFault _
  · cases flow with
    | normal => exact .pure _
    | returned v => exact .pure _

/-- Creating an object adds no names to frames that are there, whether or not an
initializer is run. -/
theorem keeps_construct (h : ∀ s, Keeps innermost (execute s)) (cls : Class) (vs : List Value) :
    Keeps nowhere (Eval.construct execute cls vs) := by
  refine (keeps_onStore fun _ => rfl).bind fun id => ?_
  dsimp only
  split
  · exact .pure _
  · refine Keeps.bind ((keeps_newFrame _ _).bind fun _ => .pure _) fun bound => ?_
    exact (keeps_invoke h bound vs).bind fun _ => .pure _

/-- Nor does running what a callable stands for. -/
theorem keeps_apply (h : ∀ s, Keeps innermost (execute s)) (callable : Callable)
    (vs : List Value) : Keeps nowhere (Eval.apply execute callable vs) := by
  cases callable with
  | native f =>
    refine Keeps.bind (p := Eval.readClock) (fun m => ?_) fun _ => .pure _
    exact ⟨rfl, rfl, rfl, Nat.le_refl _, fun _ _ h => h, fun _ _ _ _ h => h⟩
  | function c => exact keeps_invoke h c vs
  | cls cls => exact keeps_construct h cls vs

/-- Nor does calling a value, and the number of calls in progress is afterwards what it was. -/
theorem keeps_callValue (h : ∀ s, Keeps innermost (execute s)) (callee : Value)
    (vs : List Value) (line : Nat) : Keeps nowhere (Eval.callValue execute callee vs line) := by
  unfold Eval.callValue
  split
  · exact .fail _ _
  · split
    · exact .fail _ _
    · refine .ask fun m => ?_
      split
      · exact .fail _ _
      · exact (keeps_apply h _ vs).asCall

/-- Reading a superclass adds no names to any frame. -/
theorem keeps_readSuperclass (superclass : Option Ref) :
    Keeps nowhere (Eval.readSuperclass superclass) := by
  cases superclass with
  | none => exact .pure _
  | some ref =>
    refine (keeps_readRef ref).bind fun v => ?_
    split
    · exact .pure _
    · exact .fail _ _

/-- A declaration of a class adds the name of the class to the innermost frame. -/
theorem keeps_declareClass (name : Name) (superclass : Option Ref) (methods : List FunDecl) :
    Keeps innermost (Eval.declareClass name superclass methods) := by
  refine (keeps_define _ _).bind fun _ => ?_
  refine (keeps_readSuperclass superclass).weaken.bind fun parent => ?_
  refine .ask fun m => Keeps.bind (p := Eval.methodEnv m.env parent) ?_ fun env => ?_
  · cases parent with
    | none => exact .pure _
    | some s => exact keeps_newFrame _ _
  · exact (keeps_onStore fun _ => rfl).bind fun id => keeps_define _ _

end Calls

/-! ### Expressions and statements -/

section Evaluation

variable {fuel : Nat}

/-- With one more unit of fuel, an expression adds no names to frames that are there. -/
theorem keeps_evaluate_succ (he : ∀ e, Keeps nowhere (Eval.evaluate fuel e))
    (hs : ∀ s, Keeps innermost (Eval.execute fuel s)) (e : Expr) :
    Keeps nowhere (Eval.evaluate (fuel + 1) e) := by
  cases e with
  | literal l => exact .pure _
  | group inner => exact he inner
  | unary op line operand => exact (he operand).bind fun v => keeps_applyUnary op line v
  | binary op line left right =>
    exact (he left).bind fun v => (he right).bind fun w => keeps_applyBinary op line v w
  | logical op line left right =>
    refine (he left).bind fun v => ?_
    split
    · exact .pure _
    · exact he right
  | var ref => exact keeps_readRef ref
  | assign ref value =>
    exact (he value).bind fun v => (keeps_writeRef ref v).bind fun _ => .pure _
  | call callee arguments line =>
    refine (he callee).bind fun f => (keeps_evaluateAll he arguments).bind fun vs => ?_
    exact keeps_callValue hs f vs line
  | get object name => exact (he object).bind fun v => keeps_getProperty v name
  | set object name value =>
    refine (he object).bind fun o => (keeps_expectObject o name.line).bind fun id => ?_
    refine (he value).bind fun v => ?_
    exact (keeps_setField id name.text v).bind fun _ => .pure _
  | this id line => exact keeps_readRef _
  | super id line method => exact keeps_superMethod id method

/-- With one more unit of fuel, a statement adds names to the innermost frame only. -/
theorem keeps_execute_succ (he : ∀ e, Keeps nowhere (Eval.evaluate fuel e))
    (hs : ∀ s, Keeps innermost (Eval.execute fuel s)) (s : Stmt) :
    Keeps innermost (Eval.execute (fuel + 1) s) := by
  have he' : ∀ e, Keeps innermost (Eval.evaluate fuel e) := fun e => (he e).weaken
  cases s with
  | expression e => exact (he' e).bind fun _ => .pure _
  | print e =>
    refine (he' e).bind fun v => (keeps_write _ _).bind fun _ => ?_
    exact (keeps_write _ _).bind fun _ => .pure _
  | varDecl name initializer =>
    refine (keeps_evaluateOption he' initializer).bind fun v => ?_
    exact (keeps_define _ v).bind fun _ => .pure _
  | block body =>
    refine .ask fun m => (Keeps.newFrame_bind fun i => ?_).weaken
    exact .inEnv (keeps_executeAll hs body) i m.env
  | branch condition yes no =>
    refine (he' condition).bind fun v => ?_
    split
    · exact hs yes
    · split
      · exact .pure _
      · exact hs _
  | loop condition body => exact keeps_repeatWhile (he' condition) (hs body) fuel
  | funDecl f =>
    refine .ask fun m => (keeps_newFunction _).bind fun v => ?_
    exact (keeps_define _ v).bind fun _ => .pure _
  | result line value => exact (keeps_evaluateOption he' value).bind fun _ => .pure _
  | classDecl name superclass methods =>
    exact (keeps_declareClass name superclass methods).bind fun _ => .pure _

/-- However an expression ends, what was there is there, and nothing is declared
in a frame that was there; however a statement ends, it has declared names at
most in the innermost frame. -/
theorem keeps_fuel (fuel : Nat) : (∀ e, Keeps nowhere (Eval.evaluate fuel e)) ∧
    ∀ s, Keeps innermost (Eval.execute fuel s) := by
  induction fuel with
  | zero => exact ⟨fun _ => .throw _, fun _ => .throw _⟩
  | succ fuel ih => exact ⟨keeps_evaluate_succ ih.1 ih.2, keeps_execute_succ ih.1 ih.2⟩

/-- Evaluating an expression adds no names to frames that are there. -/
theorem keeps_evaluate (fuel : Nat) (e : Expr) : Keeps nowhere (Eval.evaluate fuel e) :=
  (keeps_fuel fuel).1 e

/-- Executing a statement adds names to the innermost frame only. -/
theorem keeps_execute (fuel : Nat) (s : Stmt) : Keeps innermost (Eval.execute fuel s) :=
  (keeps_fuel fuel).2 s

/-- So does executing a program. -/
theorem keeps_executeProgram (fuel : Nat) (ss : List Stmt) :
    Keeps innermost (Eval.executeProgram fuel ss) := by
  induction ss with
  | nil => exact .pure _
  | cons s rest ih => exact (keeps_execute fuel s).bind fun _ => ih

end Evaluation

end Lox
