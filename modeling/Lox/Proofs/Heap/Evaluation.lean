import Lox.Proofs.Heap.Steps

/-!
# Programs keep machines well formed

Every expression and every statement that leaves the keywords alone is safe: it
takes a well-formed machine to a well-formed one, however it ends, and yields a
sound value. The proof is by induction on the bound of the run.
-/

namespace Lox

section Steps

variable {w : World} {v object : Value} {ref : Ref}

/-! ### Names, properties and methods -/

/-- A variable that is read has a sound value. -/
theorem safe_readRef (ref : Ref) : Safe w Values (Eval.readRef ref) := by
  refine .ask fun m w' _ hm => ?_
  have hsound : ∀ i u, (m.store.frame i).get? ref.name.text = some u → u.Sound w' := by
    intro i u hu
    rw [← hm.store] at hu
    exact (hm.wellFormed.frames i).value _ u hu
  split
  · refine .orFault fun u hu w'' hw => ?_
    obtain ⟨i, hi⟩ := Store.get?_of_getAt hu
    exact (hsound i u hi).later hw
  · unfold Store.read
    rw [Store.get?_globalEnv]
    cases hu : (m.store.frame 0).get? ref.name.text with
    | none => exact .throw _
    | some u => exact .value (hsound 0 u hu)

/-- Assigning a sound value to a variable is safe. -/
theorem safe_writeRef (hplain : IsPlain ref.name.text) (hv : v.Sound w) :
    Safe w Anything (Eval.writeRef ref v) := by
  intro m w' hw hm
  rcases writeRef_cases ref v m with ⟨i, hi, hwrite⟩ | ⟨h, hwrite⟩
  · rw [← hm.store] at hi
    have hbound := safe_bindIn hi.lt_size hplain (hv.later hw) m w' (.refl w') hm
    rw [hwrite]
    exact hbound
  · rw [hwrite]
    exact ⟨w', .refl w', hm, nofun⟩

/-- A function that is made is a sound value. -/
theorem safe_newFunction {c : Closure} (hc : c.IsFunction w) :
    Safe w Values (Eval.newFunction c) :=
  safe_freshId.bind fun _ id hw _ => .value (v := .function id c) (hc.later hw)

/-- One name with its value. -/
theorem Bindings.Sound.single {x : String} (hv : v.Sound w) (hthis : x = "this" → v.IsObject)
    (hsuper : x = "super" → v.IsClass) : Bindings.Sound w [(x, v)] := by
  have hget : ∀ y u, Bindings.get? [(x, v)] y = some u → x = y ∧ v = u := by
    intro y u hu
    unfold Bindings.get? at hu
    split at hu
    · rename_i hxy
      exact ⟨beq_iff_eq.1 hxy, Option.some.inj hu⟩
    · cases hu
  refine ⟨fun y u hu => ?_, fun u hu => ?_, fun u hu => ?_⟩
  · exact (hget y u hu).2 ▸ hv
  · exact (hget _ u hu).2 ▸ hthis (hget _ u hu).1
  · exact (hget _ u hu).2 ▸ hsuper (hget _ u hu).1

/-- A method that is bound has its object in a frame of its own. -/
theorem safe_bindMethod {c : Closure} (hc : c.IsMethod w) (hv : object.Sound w)
    (hobject : object.IsObject) :
    Safe w (fun w' bound => bound.IsFunction w') (Eval.bindMethod c object) := by
  have hthis : Bindings.Sound w [("this", object)] :=
    .single hv (fun _ => hobject) fun h => absurd h (by decide)
  refine (safe_newFrame hc.env hthis).bind fun w' env hw henv => .pure fun w'' hw' => ?_
  obtain ⟨hfollows, i, rfl, hframe⟩ := henv
  have hbound : Closure.IsFunction w' { c with env := i :: c.env } :=
    ⟨⟨hfollows, hc.plain⟩, fun _ => ⟨i, c.env, object, rfl, by rw [hframe]; rfl, hobject⟩⟩
  exact hbound.later hw'

/-- A method that was looked up, bound to an object. -/
theorem safe_boundMethod {cls : Class} (hcls : cls.Sound w) (hv : object.Sound w)
    (hobject : object.IsObject) {text : String} {method : Closure}
    (hfind : cls.findMethod? text = some method) :
    Safe w Values (Eval.bindMethod method object >>= Eval.newFunction) :=
  (safe_bindMethod (hcls.findMethod? hfind) hv hobject).bind fun _ _ _ hc => safe_newFunction hc

/-- A property of a sound value is sound: it is what a field was set to, or a method that
is bound. -/
theorem safe_getProperty (hv : object.Sound w) (name : Name) :
    Safe w Values (Eval.getProperty object name) := by
  cases object with
  | object id cls =>
    refine .ask fun m w' hw hm => ?_
    split
    · rename_i u hu
      rw [← hm.store] at hu
      exact .value (hm.wellFormed.fields id _ u hu)
    · split
      · rename_i method hfind
        exact safe_boundMethod (hv.2.later hw) (hv.later hw) trivial hfind
      · exact .fail _ _
  | _ => exact .fail _ _

/-- A method of the superclass is bound to an object, as it is found in the frames of the
keywords. -/
theorem safe_superMethod (id : Nat) (method : Name) :
    Safe w Values (Eval.superMethod id method) := by
  refine .ask fun m w' hw hm => ?_
  split
  · exact .throw _
  · refine Safe.bind (A := Values) (.orFault fun u hu w'' hw' => ?_) fun w'' superclass hw' hs => ?_
    · obtain ⟨i, hi⟩ := Store.get?_of_getAt hu
      rw [← hm.store] at hi
      exact ((hm.wellFormed.frames i).value _ u hi).later hw'
    · refine Safe.bind (A := fun w o => o.Sound w ∧ o.IsObject) (.orFault fun o ho w₁ hw₁ => ?_)
        fun w₁ o hw₁ ho => ?_
      · rename_i distance _
        cases distance with
        | zero => cases ho
        | succ d =>
          obtain ⟨i, hi⟩ := Store.get?_of_getAt ho
          rw [← hm.store] at hi
          have hframe := hm.wellFormed.frames i
          exact ⟨((hframe.value _ o hi).later hw').later hw₁, hframe.this o hi⟩
      · split
        · split
          · rename_i found hfind
            exact safe_boundMethod (Class.Sound.later hs hw₁) ho.1 ho.2 hfind
          · exact .fail _ _
        · exact .throw _

/-! ### Operators -/

/-- A unary operator yields a number or a truth value, which are sound in any world. -/
theorem safe_applyUnary (op : UnaryOp) (line : Nat) (v : Value) :
    Safe w Values (Eval.applyUnary op line v) := by
  unfold Eval.applyUnary
  split
  · exact .value trivial
  · exact .value trivial
  · exact .fail _ _

/-- An operator on numbers yields what is sound if its results are. -/
theorem safe_numeric (line : Nat) (u v : Value) {apply : Float → Float → Value}
    (h : ∀ a b, (apply a b).Sound w) : Safe w Values (Eval.numeric line u v apply) := by
  unfold Eval.numeric
  split
  · exact .value (h _ _)
  · exact .fail _ _

/-- A sum is a number or a text. -/
theorem safe_add (line : Nat) (u v : Value) : Safe w Values (Eval.add line u v) := by
  unfold Eval.add
  split
  · exact .value trivial
  · exact .value trivial
  · exact .fail _ _

/-- A binary operator yields a value that is sound in any world. -/
theorem safe_applyBinary (op : BinaryOp) (line : Nat) (u v : Value) :
    Safe w Values (Eval.applyBinary op line u v) := by
  cases op with
  | add => exact safe_add line u v
  | equal => exact .value trivial
  | notEqual => exact .value trivial
  | _ => exact safe_numeric line u v fun _ _ => trivial

/-- Looking whether a value is an object is safe. -/
theorem safe_expectObject (v : Value) (line : Nat) :
    Safe w Anything (Eval.expectObject v line) := by
  unfold Eval.expectObject
  split
  · exact .pure fun _ _ => trivial
  · exact .fail _ _

end Steps

/-! ### Lists and loops -/

/-- A statement that ends a call yields a sound value. -/
def Flow.Sound (w : World) : Flow → Prop
  | .normal => True
  | .returned v => v.Sound w

/-- What a statement returns stays sound. -/
theorem Flow.Sound.later {w w' : World} {flow : Flow} (h : flow.Sound w) (hw : w.Before w') :
    flow.Sound w' := by
  cases flow with
  | normal => trivial
  | returned v => exact Value.Sound.later h hw

/-- Ends of statements that are sound. -/
abbrev Flows : World → Flow → Prop := fun w flow => flow.Sound w

/-- What is known of evaluation with some bound. -/
structure SafeEvaluation (evaluate : Expr → Eval Value) (execute : Stmt → Eval Flow) : Prop where
  /-- Plain expressions are safe to evaluate. -/
  expression : ∀ e w, e.Plain → Safe w Values (evaluate e)
  /-- Plain statements are safe to execute. -/
  statement : ∀ s w, s.Plain → Safe w Flows (execute s)

section Lists

variable {w : World} {evaluate : Expr → Eval Value} {execute : Stmt → Eval Flow}

/-- Ending as a sound flow is safe. -/
theorem Safe.flow {flow : Flow} (h : flow.Sound w) : Safe w Flows (Pure.pure flow) :=
  .pure fun _ hw => h.later hw

/-- Arguments have sound values. -/
theorem safe_evaluateAll (he : ∀ e w, e.Plain → Safe w Values (evaluate e)) {es : List Expr}
    (hes : ∀ e ∈ es, e.Plain) :
    Safe w (fun w vs => ∀ v ∈ vs, v.Sound w) (Eval.evaluateAll evaluate es) := by
  induction es generalizing w with
  | nil => exact .pure fun _ _ => nofun
  | cons e rest ih =>
    rw [List.forall_mem_cons] at hes
    refine (he e w hes.1).bind fun w₁ v _ hv => (ih hes.2).bind fun w₂ vs hw₂ hvs => ?_
    exact .pure fun w₃ hw₃ => List.forall_mem_cons.2
      ⟨hv.later (hw₂.trans hw₃), fun u hu => (hvs u hu).later hw₃⟩

/-- An expression that may be absent has a sound value, which is nil if it is. -/
theorem safe_evaluateOption (he : ∀ e w, e.Plain → Safe w Values (evaluate e))
    {value : Option Expr} (h : PlainOption value) :
    Safe w Values (Eval.evaluateOption evaluate value) := by
  cases value with
  | none => exact .value trivial
  | some e => exact he e w h

/-- Statements one after another are safe, and what one of them returns is sound. -/
theorem safe_executeAll (hs : ∀ s w, s.Plain → Safe w Flows (execute s)) {ss : List Stmt}
    (hss : ∀ s ∈ ss, s.Plain) : Safe w Flows (Eval.executeAll execute ss) := by
  induction ss generalizing w with
  | nil => exact .flow trivial
  | cons s rest ih =>
    rw [List.forall_mem_cons] at hss
    refine (hs s w hss.1).bind fun w₁ flow _ hflow => ?_
    cases flow with
    | normal => exact ih hss.2
    | returned v => exact .flow hflow

/-- A loop is safe if its condition and its body are so at every world, since each round
starts at a later one. -/
theorem safe_repeatWhile {condition : Eval Value} {body : Eval Flow}
    (hc : ∀ w, Safe w Values condition) (hb : ∀ w, Safe w Flows body) (n : Nat) :
    Safe w Flows (Eval.repeatWhile condition body n) := by
  induction n generalizing w with
  | zero => exact .throw _
  | succ n ih =>
    refine (hc w).bind fun w₁ v _ _ => ?_
    split
    · refine (hb w₁).bind fun w₂ flow _ hflow => ?_
      cases flow with
      | normal => exact ih
      | returned v => exact .flow hflow
    · exact .flow trivial

/-! ### Calls and classes -/

/-- The frame of a call binds plain names to the arguments. -/
theorem sound_parameters {params : List Name} {vs : List Value}
    (hparams : ∀ name ∈ params, IsPlain name.text) (hvs : ∀ v ∈ vs, v.Sound w) :
    Bindings.Sound w (Bindings.insertAll [] ((params.map (·.text)).zip vs)) := by
  have hmem : ∀ x v, (Bindings.insertAll [] ((params.map (·.text)).zip vs)).get? x = some v →
      IsPlain x ∧ v ∈ vs := by
    intro x v hv
    rcases Bindings.get?_of_insertAll hv with hnone | hmem
    · cases hnone
    · obtain ⟨hx, hvalue⟩ := List.of_mem_zip hmem
      obtain ⟨name, hname, rfl⟩ := List.mem_map.1 hx
      exact ⟨hparams name hname, hvalue⟩
  refine ⟨fun x v hv => hvs v (hmem x v hv).2, fun v hv => ?_, fun v hv => ?_⟩
  · exact absurd (hmem _ v hv).1 not_isPlain_this
  · exact absurd (hmem _ v hv).1 not_isPlain_super

/-- Calling a function is safe: an initializer yields the object of its frame, and any
other function what its body returns. -/
theorem safe_invoke (hs : ∀ s w, s.Plain → Safe w Flows (execute s)) {c : Closure}
    (hc : c.IsFunction w) {vs : List Value} (hvs : ∀ v ∈ vs, v.Sound w) :
    Safe w Values (Eval.invoke execute c vs) := by
  refine (safe_newFrame hc.env (sound_parameters hc.plain.params hvs)).bind
    fun w₁ env hw₁ henv => ?_
  refine ((safe_executeAll hs hc.plain.body).inEnv henv.1).bind fun w₂ flow hw₂ hflow => ?_
  split
  · refine .ask fun m w₃ _ hm => .orFault fun u hu w₄ hw₄ => ?_
    obtain ⟨i, hi⟩ := Store.get?_of_getAt hu
    rw [← hm.store] at hi
    exact ((hm.wellFormed.frames i).value _ u hi).later hw₄
  · cases flow with
    | normal => exact .value trivial
    | returned v => exact .value hflow

/-- Creating an object is safe. It is there before the initializer is bound to it. -/
theorem safe_construct (hs : ∀ s w, s.Plain → Safe w Flows (execute s)) {cls : Class}
    (hcls : cls.Sound w) {vs : List Value} (hvs : ∀ v ∈ vs, v.Sound w) :
    Safe w Values (Eval.construct execute cls vs) := by
  refine safe_newObject.bind fun w₁ id hw₁ hid => ?_
  have hobject : Value.Sound w₁ (.object id cls) := ⟨hid, hcls.later hw₁⟩
  dsimp only
  split
  · exact .value hobject
  · rename_i method hfind
    have hmethod := (hcls.later hw₁).findMethod? hfind
    refine (safe_bindMethod hmethod hobject trivial).bind fun w₂ bound hw₂ hbound => ?_
    have hvs₂ : ∀ v ∈ vs, v.Sound w₂ := fun v hv => (hvs v hv).later (hw₁.trans hw₂)
    refine (safe_invoke hs hbound hvs₂).bind fun w₃ _ hw₃ _ => ?_
    exact .value (hobject.later (hw₂.trans hw₃))

/-- What a sound value is called as. -/
def Callable.Sound (w : World) : Callable → Prop
  | .native _ => True
  | .function c => c.IsFunction w
  | .cls c => c.Sound w

/-- What is called is a sound function or class. -/
theorem Value.Sound.callable {v : Value} (h : v.Sound w) {callable : Callable}
    (hcall : v.callable? = some callable) : callable.Sound w := by
  cases v with
  | native id f =>
    cases hcall
    trivial
  | function id c =>
    cases hcall
    exact h
  | cls c =>
    cases hcall
    exact h
  | _ => cases hcall

/-- Running what a sound callable stands for is safe. -/
theorem safe_apply (hs : ∀ s w, s.Plain → Safe w Flows (execute s)) {callable : Callable}
    (hc : callable.Sound w) {vs : List Value} (hvs : ∀ v ∈ vs, v.Sound w) :
    Safe w Values (Eval.apply execute callable vs) := by
  cases callable with
  | native f =>
    have hclock : Safe w Anything Eval.readClock := fun m w' _ hm =>
      ⟨w', .refl w', ⟨hm.store, hm.wellFormed, hm.env⟩, fun _ _ _ => trivial⟩
    exact hclock.bind fun _ _ _ _ => .value trivial
  | function c => exact safe_invoke hs hc hvs
  | cls c => exact safe_construct hs hc hvs

/-- Calling a sound value is safe, also where the call is refused. -/
theorem safe_callValue (hs : ∀ s w, s.Plain → Safe w Flows (execute s)) {callee : Value}
    (hc : callee.Sound w) {vs : List Value} (hvs : ∀ v ∈ vs, v.Sound w) (line : Nat) :
    Safe w Values (Eval.callValue execute callee vs line) := by
  unfold Eval.callValue
  split
  · exact .fail _ _
  · rename_i callable hcall
    split
    · exact .fail _ _
    · refine .ask fun m w' hw _ => ?_
      split
      · exact .fail _ _
      · exact (safe_apply hs (hc.callable hcall) hvs).asCall.later hw

/-- A superclass that is read is a sound class. -/
theorem safe_readSuperclass (superclass : Option Ref) :
    Safe w (fun w parent => ∀ c ∈ parent, c.Sound w) (Eval.readSuperclass superclass) := by
  cases superclass with
  | none => exact .pure fun _ _ => nofun
  | some ref =>
    refine (safe_readRef ref).bind fun w₁ v _ hv => ?_
    split
    · refine .pure fun w₂ hw₂ c hc => ?_
      cases hc
      exact Class.Sound.later hv hw₂
    · exact .fail _ _

/-- The environment of methods leads to that of the class, over the frame of `super` if
there is a superclass. -/
theorem safe_methodEnv {env : Env} (henv : env.Follows w) {parent : Option Class}
    (hparent : ∀ c ∈ parent, c.Sound w) :
    Safe w (fun w' env' => Env.Follows env' w') (Eval.methodEnv env parent) := by
  cases parent with
  | none => exact .pure fun _ hw => henv.later hw
  | some c =>
    have hsuper : Bindings.Sound w [("super", .cls c)] :=
      .single (hparent c rfl) (fun h => absurd h (by decide)) fun _ => trivial
    refine (safe_newFrame henv hsuper).bind (f := pure) fun w' env' _ henv' => ?_
    exact .pure fun _ hw => henv'.1.later hw

/-- Declared methods become methods of their class: exactly one with the name of
initializers is one. -/
theorem isMethod_closeMethods {env : Env} (henv : env.Follows w) {methods : List FunDecl}
    (hmethods : ∀ f ∈ methods, FunDecl.Plain f) :
    ∀ c ∈ Eval.closeMethods env methods, c.IsMethod w := by
  intro c hc
  unfold Eval.closeMethods at hc
  rw [List.mem_reverse, List.mem_map] at hc
  obtain ⟨f, hf, rfl⟩ := hc
  exact ⟨⟨henv, hmethods f hf⟩, beq_iff_eq⟩

/-- A class that is declared, once its name is bound. -/
theorem safe_declareParent {name : Name} (hname : IsPlain name.text) (superclass : Option Ref)
    {methods : List FunDecl} (hmethods : ∀ f ∈ methods, FunDecl.Plain f) :
    Safe w Anything (do
      let parent ← Eval.readSuperclass superclass
      let env ← Eval.methodEnv (← get).env parent
      let id ← Eval.onStore (·.freshId)
      Eval.define name.text (.cls ⟨id, name.text, parent, Eval.closeMethods env methods⟩)) := by
  refine (safe_readSuperclass superclass).bind fun w₂ parent _ hparent => ?_
  refine .ask fun m w₃ hw₃ hm => ?_
  refine (safe_methodEnv hm.env fun c hc => (hparent c hc).later hw₃).bind
    fun w₄ env hw₄ henv => ?_
  refine safe_freshId.bind fun w₅ id hw₅ hid => ?_
  refine safe_define hname (Class.Sound.declared (fun c hc => ?_) hid.1 ?_)
  · have hold := (hparent c hc).later (hw₃.trans hw₄)
    exact ⟨hold.later hw₅, Nat.lt_of_lt_of_le hold.id hid.2⟩
  · exact isMethod_closeMethods (henv.later hw₅) hmethods

/-- Declaring a class is safe: the class is younger than its superclass. -/
theorem safe_declareClass {name : Name} (hname : IsPlain name.text) (superclass : Option Ref)
    {methods : List FunDecl} (hmethods : ∀ f ∈ methods, FunDecl.Plain f) :
    Safe w Anything (Eval.declareClass name superclass methods) :=
  (safe_define (v := .nil) hname trivial).bind fun _ _ _ _ =>
    safe_declareParent hname superclass hmethods

end Lists

/-! ### Expressions and statements -/

section Evaluation

variable {fuel : Nat} {w : World}

/-- With one more unit of fuel, an expression is safe. -/
theorem safe_evaluate_succ (h : SafeEvaluation (Eval.evaluate fuel) (Eval.execute fuel)) {e : Expr}
    (he : e.Plain) : Safe w Values (Eval.evaluate (fuel + 1) e) := by
  cases e with
  | literal l => exact .value (by cases l <;> trivial)
  | group inner => exact h.expression inner w he
  | unary op line operand =>
    exact (h.expression operand w he).bind fun _ v _ _ => safe_applyUnary op line v
  | binary op line left right =>
    refine (h.expression left w he.1).bind fun w₁ u _ _ => ?_
    exact (h.expression right w₁ he.2).bind fun _ v _ _ => safe_applyBinary op line u v
  | logical op line left right =>
    refine (h.expression left w he.1).bind fun w₁ u _ hu => ?_
    split
    · exact .value hu
    · exact h.expression right w₁ he.2
  | var ref => exact safe_readRef ref
  | assign ref value =>
    refine (h.expression value w he.2).bind fun w₁ v _ hv => ?_
    exact (safe_writeRef he.1 hv).bind fun w₂ _ hw₂ _ => .value (hv.later hw₂)
  | call callee arguments line =>
    refine (h.expression callee w he.1).bind fun w₁ f _ hf => ?_
    refine (safe_evaluateAll h.expression he.2.mem).bind fun w₂ vs hw₂ hvs => ?_
    exact safe_callValue h.statement (hf.later hw₂) hvs line
  | get object name =>
    exact (h.expression object w he).bind fun _ v _ hv => safe_getProperty hv name
  | set object name value =>
    refine (h.expression object w he.1).bind fun w₁ o _ _ => ?_
    refine (safe_expectObject o name.line).bind fun w₂ id _ _ => ?_
    refine (h.expression value w₂ he.2).bind fun w₃ v _ hv => ?_
    exact (safe_setField id name.text hv).bind fun w₄ _ hw₄ _ => .value (hv.later hw₄)
  | this id line => exact safe_readRef _
  | super id line method => exact safe_superMethod id method

/-- With one more unit of fuel, a statement is safe. -/
theorem safe_execute_succ (h : SafeEvaluation (Eval.evaluate fuel) (Eval.execute fuel)) {s : Stmt}
    (hs : s.Plain) : Safe w Flows (Eval.execute (fuel + 1) s) := by
  cases s with
  | expression e => exact (h.expression e w hs).bind fun _ _ _ _ => .flow trivial
  | print e =>
    refine (h.expression e w hs).bind fun _ v _ _ => (safe_write _ _).bind fun _ _ _ _ => ?_
    exact (safe_write _ _).bind fun _ _ _ _ => .flow trivial
  | varDecl name initializer =>
    refine (safe_evaluateOption h.expression hs.2).bind fun _ v _ hv => ?_
    exact (safe_define hs.1 hv).bind fun _ _ _ _ => .flow trivial
  | block body =>
    refine .ask fun m w₁ _ hm => ?_
    have hempty : Bindings.Sound w₁ [] := ⟨nofun, nofun, nofun⟩
    refine (safe_newFrame hm.env hempty).bind fun w₂ env _ henv => ?_
    exact (safe_executeAll h.statement (Stmt.PlainList.mem hs)).inEnv henv.1
  | branch condition yes no =>
    cases no with
    | none =>
      refine (h.expression condition w hs.1).bind fun w₁ v _ _ => ?_
      split
      · exact h.statement yes w₁ hs.2
      · exact .flow trivial
    | some no =>
      refine (h.expression condition w hs.1).bind fun w₁ v _ _ => ?_
      split
      · exact h.statement yes w₁ hs.2.1
      · exact h.statement no w₁ hs.2.2
  | loop condition body =>
    exact safe_repeatWhile (fun w => h.expression condition w hs.1)
      (fun w => h.statement body w hs.2) fuel
  | funDecl f =>
    refine .ask fun m w₁ _ hm => ?_
    have hfunction : Closure.IsFunction w₁ ⟨f, m.env, false⟩ := ⟨⟨hm.env, hs.2⟩, nofun⟩
    refine (safe_newFunction hfunction).bind fun w₂ v _ hv => ?_
    exact (safe_define hs.1 hv).bind fun _ _ _ _ => .flow trivial
  | result line value =>
    refine (safe_evaluateOption h.expression hs).bind fun w₁ v _ hv => ?_
    have hflow : Flow.Sound w₁ (.returned v) := hv
    exact .flow hflow
  | classDecl name superclass methods =>
    exact (safe_declareClass hs.1 superclass hs.2.mem).bind fun _ _ _ _ => .flow trivial

/-- Evaluation is safe within every bound. -/
theorem safeEvaluation (fuel : Nat) : SafeEvaluation (Eval.evaluate fuel) (Eval.execute fuel) := by
  induction fuel with
  | zero => exact ⟨fun _ _ _ => .throw _, fun _ _ _ => .throw _⟩
  | succ fuel ih =>
    exact ⟨fun _ _ he => safe_evaluate_succ ih he, fun _ _ hs => safe_execute_succ ih hs⟩

/-- So is executing a program. -/
theorem safe_executeProgram {ss : List Stmt} (hss : ∀ s ∈ ss, s.Plain) :
    Safe w Anything (Eval.executeProgram fuel ss) := by
  induction ss generalizing w with
  | nil => exact .pure fun _ _ => trivial
  | cons s rest ih =>
    rw [List.forall_mem_cons] at hss
    exact ((safeEvaluation fuel).statement s w hss.1).bind fun _ _ _ _ => ih hss.2

end Evaluation

end Lox
