import Lox.Proofs.Course
import Lox.Proofs.Heap.Points

/-!
# Programs take their course

Every anchored expression and every anchored statement takes its course through its
moments, on any machine that is placed, and what it yields is placed. First the steps
that are not recursive, then lists, loops, calls and classes; the proof for all
expressions and statements is by induction on the bound of the run.
-/

namespace Lox

variable {begun : Point → Prop}

section Steps

variable {m₀ : Machine} {v object : Value} {ref : Ref}

/-! ### Names, properties and methods -/

/-- Looking at the result of an operation that may be at fault comes to no moment. -/
theorem Runs.orFault {α : Type} {A : Machine → α → Prop} {r : Except Fault α}
    (h : ∀ a, r = .ok a → ∀ m, m₀.Grows m → A m a) :
    Runs begun m₀ A (Eval.orFault r) noMoments := by
  cases r with
  | ok a => exact .pure (h a rfl)
  | error fault => exact .throw _

/-- A declaration of a plain name with a placed value sets no field. -/
theorem runs_define {x : String} (hx : IsPlain x) (hv : v.Placed begun m₀) :
    Runs begun m₀ Unsaid (Eval.define x v) noMoments :=
  .quiet fun _ hm hplaced =>
    .inl ⟨(), _, rfl, .define hx, hplaced.define hx (hv.later hm), trivial⟩

/-- A variable that is read has a placed value. -/
theorem runs_readRef (ref : Ref) :
    Runs begun m₀ (PlacedValues begun) (Eval.readRef ref) noMoments := by
  refine .ask fun m _ hplaced => ?_
  split
  · refine .orFault fun u hu m' hm' => ?_
    obtain ⟨i, hi⟩ := Store.get?_of_getAt hu
    exact (hplaced.frames i _ u hi).later hm'
  · unfold Store.read
    rw [Store.get?_globalEnv]
    cases hu : (m.store.frame 0).get? ref.name.text with
    | none => exact .throw _
    | some u => exact .value (hplaced.frames 0 _ u hu)

/-- Assigning a placed value to a variable sets no field. -/
theorem runs_writeRef (hplain : IsPlain ref.name.text) (hv : v.Placed begun m₀) :
    Runs begun m₀ Unsaid (Eval.writeRef ref v) noMoments := by
  refine .quiet fun m hm hplaced => ?_
  rcases writeRef_cases ref v m with ⟨i, -, hwrite⟩ | hwrite
  · exact .inl ⟨(), _, hwrite, .bindIn hplain, hplaced.bindIn hplain (hv.later hm), trivial⟩
  · exact .inr hwrite

/-- A function gets the next identity, and it is placed once that is used up. -/
theorem runs_newFunction {c : Closure}
    (hc : ∀ m, m₀.Grows m → c.Placed begun { m with store := m.store.freshId.2 }) :
    Runs begun m₀ (PlacedValues begun) (Eval.newFunction c) noMoments := by
  refine .quiet fun m hm hplaced => .inl ⟨_, _, rfl, .freshId, hplaced.freshId, ?_⟩
  exact ⟨Nat.lt_succ_self _, hc m hm⟩

/-- One name with its value. -/
theorem placed_single (x : String) (hv : v.Placed begun m₀) :
    ∀ y u, Bindings.get? [(x, v)] y = some u → u.Placed begun m₀ := by
  intro y u hu
  unfold Bindings.get? at hu
  split at hu
  · cases hu
    exact hv
  · cases hu

/-- The frame of a method that is bound has the object. -/
theorem placed_bound {m : Machine} {method : Closure} (hmethod : method.InClass begun m)
    (object : Value) :
    Closure.Placed begun { m with store := (m.store.newFrame method.env [("this", object)]).2 }
      { method with env := m.store.frames.size :: method.env } := by
  have hframe : (Store.frame (m.store.newFrame method.env [("this", object)]).2
      m.store.frames.size).get? "this" = some object := by
    rw [Store.frame_newFrame_self]
    rfl
  exact .bound (hmethod.later (Machine.Follows.newFrame _ _).toGrows) hframe rfl

/-- A method that is bound to an object and made a function. -/
theorem runs_boundMethod {method : Closure} (hmethod : method.InClass begun m₀)
    (hobject : object.Placed begun m₀) :
    Runs begun m₀ (PlacedValues begun) (Eval.bindMethod method object >>= Eval.newFunction)
      noMoments := by
  have hbound : Runs begun m₀ (fun m c => c.Placed begun m) (Eval.bindMethod method object)
      noMoments :=
    .quiet fun m hm hplaced => .inl ⟨_, _, rfl, .newFrame method.env _,
      hplaced.newFrame method.env (placed_single "this" (hobject.later hm)),
      placed_bound (hmethod.later hm) object⟩
  refine hbound.andThen fun m c _ hc => runs_newFunction fun m' hm' => ?_
  exact hc.later (hm'.trans Machine.Follows.freshId.toGrows)

/-- A property of a placed value is placed: it is the value of a field, or a method that
is bound. -/
theorem runs_getProperty (hobject : object.Placed begun m₀) (name : Name) :
    Runs begun m₀ (PlacedValues begun) (Eval.getProperty object name) noMoments := by
  cases object with
  | object id cls =>
    refine .ask fun m hm hplaced => ?_
    split
    · rename_i u hu
      exact .value (hplaced.fields id _ u hu)
    · split
      · rename_i method hfind
        exact runs_boundMethod ((hobject.2.later hm).findMethod? hfind).1 (hobject.later hm)
      · exact .fail _ _
  | _ => exact .fail _ _

/-- A method of the superclass is found up the chain of a class that is placed, and bound
to a placed object. -/
theorem runs_superMethod (id : Nat) (method : Name) :
    Runs begun m₀ (PlacedValues begun) (Eval.superMethod id method) noMoments := by
  refine .ask fun m _ hplaced => ?_
  split
  · exact .throw _
  · rename_i distance _
    have hframe : ∀ {d : Nat} {x : String} (u : Value), m.store.getAt m.env d x = .ok u →
        ∀ m', m.Grows m' → u.Placed begun m' := by
      intro d x u hu m' hm'
      obtain ⟨i, hi⟩ := Store.get?_of_getAt hu
      exact (hplaced.frames i _ u hi).later hm'
    have hthis : ∀ u, Eval.objectInside m distance = .ok u → ∀ m', m.Grows m' →
        u.Placed begun m' := by
      cases distance with
      | zero => nofun
      | succ d => exact hframe
    refine (Runs.orFault hframe).andThen fun m₁ superclass hm₁ hs =>
      (Runs.orFault fun u hu m' hm' => hthis u hu m' (hm₁.trans hm')).andThen fun m₂ o hm₂ ho => ?_
    split
    · split
      · rename_i cls _ found hfind
        have hcls : cls.Placed begun m₂ := Class.Placed.later hs hm₂
        exact runs_boundMethod (hcls.findMethod? hfind).1 ho
      · exact .fail _ _
    · exact .throw _

/-- Changing the sink sets no field. -/
theorem runs_modifySink (change : Sink → Sink) :
    Runs begun m₀ Unsaid (Eval.modifySink change) noMoments :=
  .quiet fun _ _ hplaced => .inl ⟨(), _, rfl, .congr rfl rfl, hplaced.congr rfl rfl, trivial⟩

/-- Printing sets no field, also where it is refused. -/
theorem runs_write (line : Nat) (piece : String) :
    Runs begun m₀ Unsaid (Eval.write line piece) noMoments := by
  refine .ask fun m _ _ => ?_
  dsimp only
  split
  · exact (runs_modifySink _).andThen fun _ _ _ _ => .fail _ _
  · exact runs_modifySink _

/-! ### Operators -/

/-- A unary operator yields a value that is placed anywhere. -/
theorem runs_applyUnary (op : UnaryOp) (line : Nat) (v : Value) :
    Runs begun m₀ (PlacedValues begun) (Eval.applyUnary op line v) noMoments := by
  unfold Eval.applyUnary
  split
  · exact .value trivial
  · exact .value trivial
  · exact .fail _ _

/-- An operator on numbers yields a placed value if its results are placed. -/
theorem runs_numeric (line : Nat) (u v : Value) {apply : Float → Float → Value}
    (h : ∀ a b, (apply a b).Placed begun m₀) :
    Runs begun m₀ (PlacedValues begun) (Eval.numeric line u v apply) noMoments := by
  unfold Eval.numeric
  split
  · exact .value (h _ _)
  · exact .fail _ _

/-- A sum is placed anywhere. -/
theorem runs_add (line : Nat) (u v : Value) :
    Runs begun m₀ (PlacedValues begun) (Eval.add line u v) noMoments := by
  unfold Eval.add
  split
  · exact .value trivial
  · exact .value trivial
  · exact .fail _ _

/-- A binary operator yields a value that is placed anywhere. -/
theorem runs_applyBinary (op : BinaryOp) (line : Nat) (u v : Value) :
    Runs begun m₀ (PlacedValues begun) (Eval.applyBinary op line u v) noMoments := by
  cases op with
  | add => exact runs_add line u v
  | equal => exact .value trivial
  | notEqual => exact .value trivial
  | _ => exact runs_numeric line u v fun _ _ => trivial

end Steps

/-! ### Lists and loops -/

section Lists

variable {m₀ : Machine} {around : Surroundings} {evaluate : Expr → Eval Value}
  {execute : Stmt → Eval Flow} {evaluated : Expr → Machine → List Moment}
  {executed : Stmt → Machine → List Moment}

/-- Anchored expressions take their course. -/
abbrev RunsExpressions (begun : Point → Prop) (evaluate : Expr → Eval Value)
    (evaluated : Expr → Machine → List Moment) : Prop :=
  ∀ e m around, e.Anchored m.distances around →
    Runs begun m (PlacedValues begun) (evaluate e) (evaluated e)

/-- Anchored statements take their course. -/
abbrev RunsStatements (begun : Point → Prop) (execute : Stmt → Eval Flow)
    (executed : Stmt → Machine → List Moment) : Prop :=
  ∀ s m around, s.Anchored m.distances around →
    Runs begun m (PlacedFlows begun) (execute s) (executed s)

/-- The moments of arguments come one after another, and all of their values are placed at
the end. -/
theorem runs_evaluateAll (he : RunsExpressions begun evaluate evaluated) {es : List Expr}
    (hes : ∀ e ∈ es, e.Anchored m₀.distances around) :
    Runs begun m₀ (fun m vs => ∀ v ∈ vs, v.Placed begun m) (Eval.evaluateAll evaluate es)
      (momentsEach evaluate evaluated es) := by
  induction es generalizing m₀ with
  | nil => exact .pure fun _ _ => nofun
  | cons e rest ih =>
    rw [List.forall_mem_cons] at hes
    refine (he e m₀ around hes.1).bind fun m₁ v hm₁ hv => ?_
    refine (ih fun a ha => (hes.2 a ha).later hm₁.distances).andThen fun m₂ vs hm₂ hvs => ?_
    exact .pure fun m₃ hm₃ => List.forall_mem_cons.2
      ⟨hv.later (hm₂.trans hm₃), fun u hu => (hvs u hu).later hm₃⟩

/-- An expression that may be absent has the moments that it has if it is there. -/
theorem runs_evaluateOption (he : RunsExpressions begun evaluate evaluated) {value : Option Expr}
    (h : AnchoredOption m₀.distances around value) :
    Runs begun m₀ (PlacedValues begun) (Eval.evaluateOption evaluate value)
      (momentsOption evaluated value) := by
  cases value with
  | none => exact .value trivial
  | some e => exact he e m₀ around h.some

/-- The moments of statements come one after another, until one of them returns. -/
theorem runs_executeAll (hs : RunsStatements begun execute executed) {ss : List Stmt}
    (hss : Stmt.AnchoredList m₀.distances around ss) :
    Runs begun m₀ (PlacedFlows begun) (Eval.executeAll execute ss)
      (momentsAll execute executed ss) := by
  induction ss generalizing m₀ around with
  | nil => exact .normal
  | cons s rest ih =>
    obtain ⟨hfirst, hrest⟩ := hss.cons
    refine (hs s m₀ around hfirst).bind fun m₁ flow hm₁ hflow => ?_
    cases flow with
    | normal => exact ih (hrest.later hm₁.distances)
    | returned v => exact .flow hflow

/-- The moments of a loop are those of its rounds, each from the machine on which the one
before ended. -/
theorem runs_repeatWhile {condition : Eval Value} {body : Eval Flow}
    {tested repeated : Machine → List Moment}
    (hc : ∀ m, m₀.Grows m → Runs begun m (PlacedValues begun) condition tested)
    (hb : ∀ m, m₀.Grows m → Runs begun m (PlacedFlows begun) body repeated) (n : Nat) :
    Runs begun m₀ (PlacedFlows begun) (Eval.repeatWhile condition body n)
      (momentsWhile condition body tested repeated n) := by
  induction n generalizing m₀ with
  | zero => exact .throw _
  | succ n ih =>
    refine (hc m₀ (.refl m₀)).bind fun m₁ v hm₁ _ => ?_
    by_cases hv : v.isTruthy = true
    · simp only [hv, if_true]
      refine (hb m₁ hm₁).bind fun m₂ flow hm₂ hflow => ?_
      cases flow with
      | normal =>
        exact ih (fun m hm => hc m ((hm₁.trans hm₂).trans hm))
          fun m hm => hb m ((hm₁.trans hm₂).trans hm)
      | returned v => exact .flow hflow
    · simp only [hv, if_false, Bool.false_eq_true]
      exact .normal

/-! ### Scopes, calls and classes -/

/-- A body has its moments in its own environment. -/
theorem runs_inEnv {p : Eval Flow} {moments : Machine → List Moment}
    (hp : Runs begun m₀ (PlacedFlows begun) p moments) (env : Env) :
    Runs begun m₀ (PlacedFlows begun) (Eval.inEnv env p)
      fun m => moments { m with env := env } := by
  intro m hm hplaced hbegun
  have hinner : Machine.Follows [] m { m with env := env } := .congr rfl rfl
  obtain ⟨hcourse, hok⟩ :=
    hp { m with env := env } (hm.trans hinner.toGrows) (hplaced.congr rfl rfl) hbegun
  rw [inEnv_apply]
  obtain ⟨hcourse', hok'⟩ := Runs.onState (fun after => { after with env := m.env })
    ⟨hcourse, hok⟩ (fun _ => rfl) (fun _ => rfl) fun _ _ hflow => hflow.later (.congr rfl rfl)
  exact ⟨hcourse'.precede hinner, hok'⟩

/-- A call has the moments of what it calls, with one more call in progress. -/
theorem runs_asCall {p : Eval Value} {moments : Machine → List Moment}
    (hp : Runs begun m₀ (PlacedValues begun) p moments) :
    Runs begun m₀ (PlacedValues begun) (Eval.asCall p)
      fun m => moments { m with calls := m.calls + 1 } := by
  intro m hm hplaced hbegun
  have hinner : Machine.Follows [] m { m with calls := m.calls + 1 } := .congr rfl rfl
  obtain ⟨hcourse, hok⟩ :=
    hp { m with calls := m.calls + 1 } (hm.trans hinner.toGrows) (hplaced.congr rfl rfl) hbegun
  rw [asCall_apply]
  obtain ⟨hcourse', hok'⟩ := Runs.onState (fun after => { after with calls := after.calls - 1 })
    ⟨hcourse, hok⟩ (fun _ => rfl) (fun _ => rfl) fun _ _ hv => hv.later (.congr rfl rfl)
  exact ⟨hcourse'.precede hinner, hok'⟩

/-- Statements in a new frame. -/
theorem runs_inScope (hs : RunsStatements begun execute executed) (env : Env) {bindings : Bindings}
    (hb : ∀ x v, bindings.get? x = some v → v.Placed begun m₀) {ss : List Stmt}
    (hss : Stmt.AnchoredList m₀.distances around ss) :
    Runs begun m₀ (PlacedFlows begun)
      (Eval.newFrame env bindings >>= fun env' => Eval.inEnv env' (Eval.executeAll execute ss))
      fun m => momentsAll execute executed ss (m.inside env bindings) := by
  intro m hm hplaced hbegun
  have hframe : Machine.Follows [] m { m with store := (m.store.newFrame env bindings).2 } :=
    .newFrame env bindings
  have hplaced' : Machine.Placed begun { m with store := (m.store.newFrame env bindings).2 } :=
    hplaced.newFrame env fun x v hv => (hb x v hv).later hm
  have hbody := runs_inEnv (runs_executeAll hs hss) (m.store.frames.size :: env)
  obtain ⟨hcourse, hok⟩ := hbody _ (hm.trans hframe.toGrows) hplaced' hbegun
  exact ⟨hcourse.precede hframe, hok⟩

/-- The frame of a call binds its parameters to placed values. -/
theorem placed_parameters (params : List Name) {vs : List Value}
    (hvs : ∀ v ∈ vs, v.Placed begun m₀) : ∀ x v,
      (Bindings.insertAll [] ((params.map (·.text)).zip vs)).get? x = some v →
        v.Placed begun m₀ := by
  intro x v hv
  rcases Bindings.get?_of_insertAll hv with hnone | hmem
  · cases hnone
  · exact hvs v (List.of_mem_zip hmem).2

/-- A function has the moments of its body. What it yields is what the body returns, or
the object of its frame. -/
theorem runs_invoke (hs : RunsStatements begun execute executed) {c : Closure}
    (hc : c.Placed begun m₀) {vs : List Value} (hvs : ∀ v ∈ vs, v.Placed begun m₀) :
    Runs begun m₀ (PlacedValues begun) (Eval.invoke execute c vs) fun m =>
      momentsAll execute executed c.decl.body (c.inside vs m) := by
  obtain ⟨around, opener, hdecl⟩ := hc.anchored
  have hscope := runs_inScope hs c.env (placed_parameters c.decl.params hvs) hdecl.body
  unfold Eval.invoke
  dsimp only
  rw [← bind_assoc]
  refine hscope.andThen fun m₁ flow _ hflow => ?_
  split
  · refine .ask fun m _ hplaced => .orFault fun u hu m' hm' => ?_
    obtain ⟨i, hi⟩ := Store.get?_of_getAt hu
    exact (hplaced.frames i _ u hi).later hm'
  · cases flow with
    | normal => exact .value trivial
    | returned v => exact .value hflow

/-- What a placed value is called as. -/
def Callable.Placed (begun : Point → Prop) (m : Machine) : Callable → Prop
  | .native _ => True
  | .function c => c.Placed begun m
  | .cls c => c.Placed begun m

/-- What a placed value is called as is placed. -/
theorem Value.Placed.callable {v : Value} (h : v.Placed begun m₀) {callable : Callable}
    (hcall : v.callable? = some callable) : callable.Placed begun m₀ := by
  cases v with
  | native id f =>
    cases hcall
    trivial
  | function id c =>
    cases hcall
    exact h.2
  | cls c =>
    cases hcall
    exact h
  | _ => cases hcall

/-- Creating an object has the moments of the initializer, and the object is placed before
these begin. -/
theorem runs_construct (hs : RunsStatements begun execute executed) {cls : Class}
    (hcls : cls.Placed begun m₀) {vs : List Value} (hvs : ∀ v ∈ vs, v.Placed begun m₀) :
    Runs begun m₀ (PlacedValues begun) (Eval.construct execute cls vs) fun m =>
      momentsBody execute executed (Callable.start? m (.cls cls)) vs := by
  intro m hm hplaced hbegun
  have hnew : Machine.Follows [] m { m with store := m.store.newObject.2 } := .newObject
  have hsize : m.store.newObject.2.fields.size = m.store.fields.size + 1 := Array.size_push _
  have hobject : Value.Placed begun { m with store := m.store.newObject.2 }
      (.object m.store.fields.size cls) :=
    ⟨hsize ▸ Nat.lt_succ_self _, (hcls.later hm).later hnew.toGrows⟩
  unfold Eval.construct
  simp only [Callable.start?] at hbegun ⊢
  cases hinit : cls.initializer? with
  | none => exact ⟨.still hnew hplaced.newObject, fun a m' h => by cases h; exact hobject⟩
  | some method =>
    rw [hinit] at hbegun
    have hmethod := ((hcls.later hm).later hnew.toGrows).findMethod? hinit
    have hframe : Machine.Follows [] { m with store := m.store.newObject.2 }
        { m with store := (m.store.newObject.2.newFrame method.env
          [("this", .object m.store.fields.size cls)]).2 } := .newFrame method.env _
    have hplaced' := hplaced.newObject.newFrame method.env (placed_single "this" hobject)
    have hrest := (runs_invoke hs (c := { method with
        env := m.store.newObject.2.frames.size :: method.env })
      (placed_bound hmethod.1 _)
      fun v hv => (hvs v hv).later ((hm.trans hnew.toGrows).trans hframe.toGrows)).andThen
        fun m₁ _ hm₁ _ => Runs.value (hobject.later (hframe.toGrows.trans hm₁))
    obtain ⟨hcourse, hok⟩ := hrest _ (.refl _) hplaced' hbegun
    exact ⟨(hcourse.precede hframe).precede hnew, hok⟩

/-- What a callable stands for has the moments of the body that it starts. -/
theorem runs_apply (hs : RunsStatements begun execute executed) {callable : Callable}
    (hc : callable.Placed begun m₀) {vs : List Value} (hvs : ∀ v ∈ vs, v.Placed begun m₀) :
    Runs begun m₀ (PlacedValues begun) (Eval.apply execute callable vs) fun m =>
      momentsBody execute executed (callable.start? m) vs := by
  cases callable with
  | native f =>
    have hclock : Runs begun m₀ Unsaid Eval.readClock noMoments := .quiet fun _ _ hplaced =>
      .inl ⟨_, _, rfl, .congr rfl rfl, hplaced.congr rfl rfl, trivial⟩
    exact hclock.andThen fun _ _ _ _ => .value trivial
  | function c => exact runs_invoke hs hc hvs
  | cls c => exact runs_construct hs hc hvs

/-- A call has the moments of the body that it enters, and none if it is refused. -/
theorem runs_callValue (hs : RunsStatements begun execute executed) {callee : Value}
    (hc : callee.Placed begun m₀) {vs : List Value} (hvs : ∀ v ∈ vs, v.Placed begun m₀)
    (line : Nat) :
    Runs begun m₀ (PlacedValues begun) (Eval.callValue execute callee vs line)
      (momentsCall execute executed callee vs) := by
  unfold Eval.callValue momentsCall
  cases hcallable : callee.callable? with
  | none => exact .fail _ _
  | some callable =>
    dsimp only
    by_cases harity : vs.length ≠ callable.arity
    · simp only [if_pos harity]
      exact .fail _ _
    · simp only [if_neg harity]
      intro m hm hplaced
      rw [get_bind_apply]
      by_cases hcalls : Machine.maxCalls ≤ m.calls
      · simp only [if_pos hcalls]
        exact Runs.fail _ _ m hm hplaced
      · simp only [if_neg hcalls]
        exact runs_asCall (runs_apply hs (hc.callable hcallable) hvs) m hm hplaced

/-- A superclass that is read is placed. -/
theorem runs_readSuperclass (superclass : Option Ref) :
    Runs begun m₀ (fun m parent => ∀ c ∈ parent, c.Placed begun m) (Eval.readSuperclass superclass)
      noMoments := by
  cases superclass with
  | none => exact .pure fun _ _ => nofun
  | some ref =>
    refine (runs_readRef ref).andThen fun m₁ v _ hv => ?_
    split
    · refine .pure fun m₂ hm₂ c hc => ?_
      cases hc
      exact Class.Placed.later hv hm₂
    · exact .fail _ _

/-- The environment of methods takes at most one frame, which has the superclass. -/
theorem runs_methodEnv (env : Env) {parent : Option Class}
    (hparent : ∀ c ∈ parent, c.Placed begun m₀) :
    Runs begun m₀ Unsaid (Eval.methodEnv env parent) noMoments := by
  cases parent with
  | none => exact .pure fun _ _ => trivial
  | some c =>
    refine .quiet fun m hm hplaced =>
      .inl ⟨_, _, rfl, .newFrame env _, hplaced.newFrame env ?_, trivial⟩
    have hc : Value.Placed begun m (.cls c) := (hparent c rfl).later hm
    exact placed_single "super" hc

/-- A class is placed if it was declared and its superclass is placed. -/
theorem Class.Placed.of_declared {cls : Class} (h : cls.Declared begun m₀)
    (hparent : ∀ c ∈ cls.superclass, c.Placed begun m₀) : cls.Placed begun m₀ := by
  obtain ⟨id, name, parent, methods⟩ := cls
  intro c hc
  cases parent with
  | none =>
    rw [List.mem_singleton.1 hc]
    exact h
  | some s =>
    rcases List.mem_cons.1 hc with rfl | hc
    · exact h
    · exact hparent s rfl c hc

/-- Looking up a superclass changes nothing. -/
theorem machineAfter_readSuperclass (superclass : Option Ref) (m : Machine) :
    machineAfter (Eval.readSuperclass superclass m) = m := by
  cases superclass with
  | none => rfl
  | some ref =>
    have hread := machineAfter_readRef ref m
    change machineAfter ((Eval.readRef ref >>= fun v => _) m) = m
    rw [bind_apply]
    cases hv : Eval.readRef ref m with
    | error halt m' =>
      rw [hv] at hread
      exact hread
    | ok v m' =>
      rw [hv] at hread
      obtain rfl : m' = m := hread
      cases v <;> rfl

/-- A class is declared, unless its superclass is no class. -/
theorem execute_classDecl_cases (fuel : Nat) (name : Name) (superclass : Option Ref)
    (methods : List FunDecl) (m : Machine) :
    let named := { m with store := m.store.define m.env name.text .nil }
    (∃ halt, Eval.readSuperclass superclass named = .error halt named ∧
      Eval.execute (fuel + 1) (.classDecl name superclass methods) m = .error halt named) ∨
    ∃ parent env store,
      let cls := ⟨store.nextId, name.text, parent, Eval.closeMethods env methods⟩
      Eval.readSuperclass superclass named = .ok parent named ∧
      Eval.methodEnv m.env parent named = .ok env { m with store := store } ∧
      Eval.execute (fuel + 1) (.classDecl name superclass methods) m =
        .ok .normal { m with store := store.freshId.2.define m.env name.text (.cls cls) } := by
  intro named
  have hsame := machineAfter_readSuperclass superclass named
  have hexecute : Eval.execute (fuel + 1) (.classDecl name superclass methods) m =
      ((Eval.readSuperclass superclass >>= fun parent => do
        let env ← Eval.methodEnv (← get).env parent
        let id ← Eval.onStore (·.freshId)
        Eval.define name.text (.cls ⟨id, name.text, parent, Eval.closeMethods env methods⟩)) >>=
          fun _ => pure Flow.normal : Eval Flow) named := by
    rfl
  rw [hexecute, bind_apply, bind_apply]
  cases hparent : Eval.readSuperclass superclass named with
  | error halt m' =>
    rw [hparent] at hsame
    obtain rfl : m' = named := hsame
    exact .inl ⟨halt, rfl, rfl⟩
  | ok parent m' =>
    rw [hparent] at hsame
    obtain rfl : m' = named := hsame
    refine .inr ⟨parent, ?_⟩
    cases parent <;> exact ⟨_, _, rfl, rfl, rfl⟩

end Lists

/-! ### Expressions and statements -/

/-- The course of an expression, given the course of its parts. -/
theorem Runs.expression {m₀ : Machine} {fuel : Nat} {e : Expr} {around : Surroundings}
    {inner : Machine → List Moment} (he : e.Anchored m₀.distances around)
    (hwrite : ∀ m, Point.write? ⟨fuel, .evaluate e, m⟩ = none)
    (h : Runs begun m₀ (PlacedValues begun) (Eval.evaluate fuel e) inner) :
    Runs begun m₀ (PlacedValues begun) (Eval.evaluate fuel e) fun m =>
      Point.during ⟨fuel, .evaluate e, m⟩ (inner m) := by
  intro m hm hplaced hbegun
  rw [Point.begunIn_during, List.forall_mem_cons] at hbegun
  obtain ⟨hcourse, hok⟩ := h m hm hplaced hbegun.2
  refine ⟨?_, hok⟩
  have hend : Machine.Follows (Moment.ends ⟨fuel, .evaluate e, m⟩).writes
      (machineAfter (Eval.evaluate fuel e m)) (Point.after ⟨fuel, .evaluate e, m⟩) := by
    rw [Moment.writes, hwrite]
    exact .refl _
  have hp : Point.Placed begun ⟨fuel, .evaluate e, m⟩ := ⟨hplaced, around, he.later hm.distances⟩
  refine Course.during hbegun.1 hp hcourse hend hcourse.placed ?_
  rintro v m' ⟨hv⟩
  exact hok v m' hv

/-- The course of a statement that is begun, given the course of its parts. -/
theorem Runs.declaration {m₀ : Machine} {fuel : Nat} {s : Stmt} {around : Surroundings}
    {inner : Machine → List Moment} (hs : s.Anchored m₀.distances around)
    (h : ∀ m, m₀.Grows m → m.Placed begun → begun ⟨fuel, .execute s, m⟩ →
      (∀ q ∈ begunIn (inner m), begun q) →
      Course begun m (inner m) (machineAfter (Eval.execute fuel s m)) ∧
        ∀ flow m', Eval.execute fuel s m = .ok flow m' → flow.Placed begun m') :
    Runs begun m₀ (PlacedFlows begun) (Eval.execute fuel s) fun m =>
      Point.during ⟨fuel, .execute s, m⟩ (inner m) := by
  intro m hm hplaced hbegun
  rw [Point.begunIn_during, List.forall_mem_cons] at hbegun
  obtain ⟨hcourse, hok⟩ := h m hm hplaced hbegun.1 hbegun.2
  have hp : Point.Placed begun ⟨fuel, .execute s, m⟩ := ⟨hplaced, around, hs.later hm.distances⟩
  have hend : Machine.Follows (Moment.ends ⟨fuel, .execute s, m⟩).writes
      (machineAfter (Eval.execute fuel s m)) (Point.after ⟨fuel, .execute s, m⟩) := by
    rw [Moment.writes, Point.write?_execute]
    exact .refl _
  refine ⟨Course.during hbegun.1 hp hcourse hend hcourse.placed ?_, hok⟩
  rintro v m' ⟨⟩

/-- The course of a statement, given the course of its parts. -/
theorem Runs.statement {m₀ : Machine} {fuel : Nat} {s : Stmt} {around : Surroundings}
    {inner : Machine → List Moment} (hs : s.Anchored m₀.distances around)
    (h : Runs begun m₀ (PlacedFlows begun) (Eval.execute fuel s) inner) :
    Runs begun m₀ (PlacedFlows begun) (Eval.execute fuel s) fun m =>
      Point.during ⟨fuel, .execute s, m⟩ (inner m) :=
  .declaration hs fun m hm hplaced _ => h m hm hplaced

section Evaluation

variable {fuel : Nat} {m₀ : Machine} {around : Surroundings}

/-- The object and the value of an expression that sets a field. -/
def Eval.setting (fuel : Nat) (object value : Expr) (line : Nat) : Eval (Nat × Value) := do
  let id ← expectObject (← evaluate fuel object) line
  let v ← evaluate fuel value
  return (id, v)

/-- A field is set at the end of its expression, after object and value were evaluated. -/
theorem evaluate_set (fuel : Nat) (object value : Expr) (name : Name) (m : Machine) :
    Eval.evaluate (fuel + 1) (.set object name value) m =
      match Eval.setting fuel object value name.line m with
      | .ok (id, v) m' => .ok v { m' with store := m'.store.setField id name.text v }
      | .error halt m' => .error halt m' := by
  change (Eval.evaluate fuel object >>= fun o => Eval.expectObject o name.line >>= fun id =>
    Eval.evaluate fuel value >>= fun v => _) m = _
  unfold Eval.setting
  rw [bind_apply, bind_apply]
  cases Eval.evaluate fuel object m with
  | error halt m₁ => rfl
  | ok o m₁ =>
    dsimp only
    rw [bind_apply, bind_apply]
    cases Eval.expectObject o name.line m₁ with
    | error halt m₂ => rfl
    | ok id m₂ =>
      dsimp only
      rw [bind_apply, bind_apply]
      cases Eval.evaluate fuel value m₂ <;> rfl

/-- What an expression sets at its end is what its object and value were evaluated to. -/
theorem write?_set (fuel : Nat) (object value : Expr) (name : Name) (m : Machine) :
    Point.write? ⟨fuel + 1, .evaluate (.set object name value), m⟩ =
      match Eval.setting fuel object value name.line m with
      | .ok (id, v) _ => some ⟨id, name.text, v⟩
      | .error _ _ => none := by
  unfold Eval.setting
  rw [bind_apply]
  simp only [Point.write?]
  cases Eval.evaluate fuel object m with
  | error halt m₁ => rfl
  | ok o m₁ =>
    cases o with
    | object id cls =>
      change _ = match (Eval.evaluate fuel value >>= fun v => pure (id, v)) m₁ with
        | .ok (id, v) _ => some (Write.mk id name.text v)
        | .error _ _ => none
      rw [bind_apply]
      dsimp only
      cases Eval.evaluate fuel value m₁ <;> rfl
    | _ => rfl

/-- What is needed to set a field is found before it is set. -/
theorem runs_setting (he : RunsExpressions begun (Eval.evaluate fuel) (momentsEvaluate fuel))
    {object value : Expr} (line : Nat) (ho : object.Anchored m₀.distances around)
    (hv : value.Anchored m₀.distances around) :
    Runs begun m₀ (fun m r => r.1 < m.store.fields.size ∧ r.2.Placed begun m)
      (Eval.setting fuel object value line) fun m =>
        momentsEvaluate fuel object m ++
          momentsAfter (Eval.evaluate fuel object m) fun o m' =>
            match o with
            | .object _ _ => momentsEvaluate fuel value m'
            | _ => [] := by
  refine (he object m₀ around ho).bind fun m₁ o hm₁ hplaced => ?_
  cases o with
  | object id cls =>
    have hvalue := he value m₁ around (hv.later hm₁.distances)
    refine hvalue.andThen fun m₂ v hm₂ hv => .pure fun m₃ hm₃ => ?_
    exact ⟨Nat.lt_of_lt_of_le hplaced.1 (hm₂.trans hm₃).fields, hv.later hm₃⟩
  | _ => exact .fail _ _

/-- A field is set just before the end of the expression that sets it. -/
theorem runs_set (he : RunsExpressions begun (Eval.evaluate fuel) (momentsEvaluate fuel))
    {object value : Expr} {name : Name}
    (hset : (Expr.set object name value).Anchored m₀.distances around) :
    Runs begun m₀ (PlacedValues begun) (Eval.evaluate (fuel + 1) (.set object name value))
      (momentsEvaluate (fuel + 1) (.set object name value)) := by
  intro m hm hplaced hbegun
  rw [momentsEvaluate, Point.begunIn_during, List.forall_mem_cons] at hbegun
  have hp : Point.Placed begun ⟨fuel + 1, .evaluate (.set object name value), m⟩ :=
    ⟨hplaced, around, hset.later hm.distances⟩
  obtain ⟨hcourse, hok⟩ :=
    runs_setting he name.line hset.set.1 hset.set.2 m hm hplaced hbegun.2
  have heval := evaluate_set fuel object value name m
  have hwrite := write?_set fuel object value name m
  -- what is left behind, and what was set, depends on whether there was something to set
  have hend : Machine.Follows
      (Moment.ends ⟨fuel + 1, .evaluate (.set object name value), m⟩).writes
      (machineAfter (Eval.setting fuel object value name.line m))
      (machineAfter (Eval.evaluate (fuel + 1) (.set object name value) m)) ∧
      (machineAfter (Eval.evaluate (fuel + 1) (.set object name value) m)).Placed begun ∧
      ∀ v m', Eval.evaluate (fuel + 1) (.set object name value) m = .ok v m' →
        v.Placed begun m' := by
    rw [Moment.writes, heval, hwrite]
    cases hsetting : Eval.setting fuel object value name.line m with
    | error halt m' =>
      rw [hsetting] at hcourse
      exact ⟨.refl _, hcourse.placed, nofun⟩
    | ok r m' =>
      obtain ⟨id, v⟩ := r
      rw [hsetting] at hcourse
      obtain ⟨hid, hv⟩ := hok _ _ hsetting
      refine ⟨.setField hid, hcourse.placed.setField hid hv, fun u m'' hu => ?_⟩
      cases hu
      exact hv.later (Machine.Follows.setField hid).toGrows
  obtain ⟨hfollows, hafter, hvalue⟩ := hend
  refine ⟨Course.during hbegun.1 hp hcourse hfollows hafter ?_, hvalue⟩
  rintro v m' ⟨hv⟩
  exact hvalue v m' hv

/-- With one more unit of fuel, an expression runs through its moments. -/
theorem runs_evaluate_succ (he : RunsExpressions begun (Eval.evaluate fuel) (momentsEvaluate fuel))
    (hs : RunsStatements begun (Eval.execute fuel) (momentsExecute fuel)) {e : Expr}
    (h : e.Anchored m₀.distances around) :
    Runs begun m₀ (PlacedValues begun) (Eval.evaluate (fuel + 1) e)
      (momentsEvaluate (fuel + 1) e) := by
  cases e with
  | literal l => exact .expression h (fun _ => rfl) (.value (by cases l <;> trivial))
  | group inner => exact .expression h (fun _ => rfl) (he inner m₀ around h.group)
  | unary op line operand =>
    refine .expression h (fun _ => rfl) ?_
    exact (he operand m₀ around h.unary).andThen fun _ v _ _ => runs_applyUnary op line v
  | binary op line left right =>
    obtain ⟨hleft, hright⟩ := h.binary
    refine .expression h (fun _ => rfl) ?_
    refine (he left m₀ around hleft).bind fun m₁ u hm₁ _ => ?_
    exact (he right m₁ around (hright.later hm₁.distances)).andThen
      fun _ v _ _ => runs_applyBinary op line u v
  | logical op line left right =>
    obtain ⟨hleft, hright⟩ := h.logical
    refine .expression h (fun _ => rfl) ?_
    refine (he left m₀ around hleft).bind fun m₁ u hm₁ hu => ?_
    by_cases hdecided : op.isDecided u = true
    · simp only [hdecided, if_true]
      exact .value hu
    · simp only [hdecided, if_false, Bool.false_eq_true]
      exact he right m₁ around (hright.later hm₁.distances)
  | var ref => exact .expression h (fun _ => rfl) (runs_readRef ref)
  | assign ref value =>
    refine .expression h (fun _ => rfl) ?_
    refine (he value m₀ around h.assign).andThen fun m₁ v _ hv => ?_
    exact (runs_writeRef h.plain.1 hv).andThen fun m₂ _ hm₂ _ => .value (hv.later hm₂)
  | call callee arguments line =>
    obtain ⟨hcallee, harguments⟩ := h.call
    refine .expression h (fun _ => rfl) ?_
    refine (he callee m₀ around hcallee).bind fun m₁ f hm₁ hf => ?_
    have hvalues := runs_evaluateAll he fun a ha => (harguments a ha).later hm₁.distances
    exact hvalues.bind fun m₂ vs hm₂ hvs => runs_callValue hs (hf.later hm₂) hvs line
  | get object name =>
    refine .expression h (fun _ => rfl) ?_
    exact (he object m₀ around h.get).andThen fun _ v _ hv => runs_getProperty hv name
  | set object name value => exact runs_set he h
  | this id line => exact .expression h (fun _ => rfl) (runs_readRef _)
  | super id line method => exact .expression h (fun _ => rfl) (runs_superMethod id method)

/-- The name of a class is bound, and its superclass is looked up. -/
theorem course_momentsParent {name : Name} {superclass : Option Ref} {methods : List FunDecl}
    (h : (Stmt.classDecl name superclass methods).Anchored m₀.distances around) {m : Machine}
    (hm : m₀.Grows m) (hplaced : m.Placed begun)
    (hbegun : ∀ q ∈ begunIn (momentsParent fuel name superclass m), begun q) :
    Course begun m (momentsParent fuel name superclass m)
      { m with store := m.store.define m.env name.text .nil } := by
  have hdefine : Machine.Follows [] m
      { m with store := m.store.define m.env name.text .nil } := .define h.plain.1
  have hplaced' : Machine.Placed begun { m with store := m.store.define m.env name.text .nil } :=
    hplaced.define h.plain.1 trivial
  cases superclass with
  | none => exact .still hdefine hplaced'
  | some ref =>
    have hread : Runs begun m₀ (PlacedValues begun) (Eval.evaluate fuel (.var ref)) noMoments := by
      cases fuel with
      | zero => exact .throw _
      | succ n => exact runs_readRef ref
    obtain ⟨hpoint, -⟩ := (hread.expression h.superclass (fun m => by cases fuel <;> rfl)) _
      (hm.trans hdefine.toGrows) hplaced' hbegun
    have hsame : machineAfter (Eval.evaluate fuel (.var ref)
        { m with store := m.store.define m.env name.text .nil }) =
        { m with store := m.store.define m.env name.text .nil } := by
      cases fuel with
      | zero => rfl
      | succ n => exact machineAfter_readRef ref _
    rw [hsame] at hpoint
    exact hpoint.precede hdefine

/-- A class that is declared is placed, and so is the machine then. -/
theorem runs_classDecl {name : Name} {superclass : Option Ref} {methods : List FunDecl}
    (h : (Stmt.classDecl name superclass methods).Anchored m₀.distances around) :
    Runs begun m₀ (PlacedFlows begun) (Eval.execute (fuel + 1) (.classDecl name superclass methods))
      (momentsExecute (fuel + 1) (.classDecl name superclass methods)) := by
  refine .declaration h fun m hm hplaced hpoint hbegun => ?_
  have hparent := course_momentsParent h hm hplaced hbegun
  rcases execute_classDecl_cases fuel name superclass methods m with
    ⟨halt, -, hexecute⟩ | ⟨parent, env, store, hread, henv, hexecute⟩
  · rw [hexecute]
    exact ⟨hparent, nofun⟩
  · rw [hexecute]
    obtain ⟨-, hsuperclass⟩ := runs_readSuperclass superclass _ (.refl _) hparent.placed nofun
    obtain ⟨hframe, -⟩ := runs_methodEnv m.env (hsuperclass parent _ hread) _ (.refl _)
      hparent.placed nofun
    rw [henv] at hframe
    have hfresh : Machine.Follows [] { m with store := store }
      { m with store := store.freshId.2 } := .freshId
    have hlater := hframe.grows.trans hfresh.toGrows
    -- the identity of the class comes after all that the point of its declaration has
    have hbefore : m.store.nextId < store.freshId.2.nextId :=
      Nat.lt_succ_of_le (hparent.grows.trans hframe.grows).nextId
    have hmethods : ∀ method ∈ Eval.closeMethods env methods, ∃ derived around, FunDecl.Anchored
        m.distances (.methods derived :: around) (.method method.name) method.decl := by
      intro method hmethod
      rw [Eval.closeMethods, List.mem_reverse, List.mem_map] at hmethod
      obtain ⟨f, hf, rfl⟩ := hmethod
      exact ⟨_, _, (h.methods f hf).later hm.distances⟩
    have hclass : Value.Placed begun { m with store := store.freshId.2 }
        (.cls ⟨store.nextId, name.text, parent, Eval.closeMethods env methods⟩) :=
      .of_declared ⟨⟨_, env, methods, hpoint, hbefore, .intro hread henv, rfl⟩, hmethods⟩
        fun c hc => (hsuperclass parent _ hread c hc).later hlater
    have hend := ((hparent.append hframe).proceed hfresh hframe.placed.freshId).proceed
      (.define h.plain.1) (hframe.placed.freshId.define h.plain.1 hclass)
    rw [List.append_nil] at hend
    refine ⟨hend, fun flow m' hflow => ?_⟩
    cases hflow
    trivial

/-- With one more unit of fuel, a statement runs through its moments. -/
theorem runs_execute_succ (he : RunsExpressions begun (Eval.evaluate fuel) (momentsEvaluate fuel))
    (hs : RunsStatements begun (Eval.execute fuel) (momentsExecute fuel)) {s : Stmt}
    (h : s.Anchored m₀.distances around) :
    Runs begun m₀ (PlacedFlows begun) (Eval.execute (fuel + 1) s)
      (momentsExecute (fuel + 1) s) := by
  cases s with
  | expression e =>
    refine .statement h ?_
    exact (he e m₀ _ h.expression).andThen fun _ _ _ _ => .normal
  | print e =>
    refine .statement h ?_
    refine (he e m₀ _ h.print).andThen fun _ v _ _ => (runs_write _ _).andThen fun _ _ _ _ => ?_
    exact (runs_write _ _).andThen fun _ _ _ _ => .normal
  | varDecl name initializer =>
    refine .statement h ?_
    refine (runs_evaluateOption he h.varDecl).andThen fun _ v _ hv => ?_
    exact (runs_define h.plain.1 hv).andThen fun _ _ _ _ => .normal
  | block body =>
    have hempty : ∀ x v, Bindings.get? [] x = some v → v.Placed begun m₀ := nofun
    refine .statement h fun m hm hplaced => ?_
    exact runs_inScope hs m.env hempty h.block m hm hplaced
  | branch condition yes no =>
    obtain ⟨hcondition, hyes, hno⟩ := h.branch
    refine .statement h ?_
    refine (he condition m₀ _ hcondition).bind fun m₁ v hm₁ _ => ?_
    by_cases hv : v.isTruthy = true
    · simp only [hv, if_true]
      exact hs yes m₁ _ (hyes.later hm₁.distances)
    · simp only [hv, if_false, Bool.false_eq_true]
      cases no with
      | none => exact .normal
      | some other => exact hs other m₁ _ ((hno other rfl).later hm₁.distances)
  | loop condition body =>
    obtain ⟨hcondition, hbody⟩ := h.loop
    refine .statement h (runs_repeatWhile (fun m hm => ?_) (fun m hm => ?_) fuel)
    · exact he condition m _ (hcondition.later hm.distances)
    · exact hs body m _ (hbody.later hm.distances)
  | funDecl f =>
    refine .declaration h fun m hm hplaced hpoint hbegun => ?_
    have hf : ∀ m', m.Grows m' → Closure.Placed begun { m' with store := m'.store.freshId.2 }
        ⟨f, m.env, false⟩ := fun m' hm' => .declared hpoint (Nat.lt_succ_of_le hm'.nextId) rfl
      ⟨_, h.funDecl.later (hm.trans hm').distances⟩ rfl
    have hdeclare := (runs_newFunction hf).andThen fun m₂ v _ hv =>
      (runs_define h.plain.1 hv).andThen fun _ _ _ _ => Runs.normal
    exact hdeclare m (.refl m) hplaced hbegun
  | result line value =>
    refine .statement h ?_
    refine (runs_evaluateOption he h.result).andThen fun m₁ v _ hv => ?_
    have hflow : Flow.Placed begun m₁ (.returned v) := hv
    exact .flow hflow
  | classDecl name superclass methods => exact runs_classDecl h

/-- Anchored expressions and statements take their course. -/
theorem runs_task (fuel : Nat) :
    RunsExpressions begun (Eval.evaluate fuel) (momentsEvaluate fuel) ∧
      RunsStatements begun (Eval.execute fuel) (momentsExecute fuel) := by
  induction fuel with
  | zero =>
    exact ⟨fun e m around h => .expression h (fun _ => rfl) (.throw _),
      fun s m around h => .statement h (.throw _)⟩
  | succ fuel ih =>
    exact ⟨fun _ _ _ h => runs_evaluate_succ ih.1 ih.2 h,
      fun _ _ _ h => runs_execute_succ ih.1 ih.2 h⟩

end Evaluation

end Lox
