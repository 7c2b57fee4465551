import Lox.Proofs.Session.Dispatch

/-!
# Objects and calls in the course of a session

In every session that can come about, and at every point of its runs. A call of a class
that comes to an end yields an object of the class that was not there before. A call of an
initializer that was read from an object, or with `super`, yields the object that it is
bound to, whichever way its body ends. The number of arguments of a class is that of the
initializer up the chain of superclasses, and where a call enters the body of a function,
every parameter is bound to its argument.
-/

namespace Lox

/-! ### Calls of classes -/

/-- What a call of a class yields, after some moments. -/
def Point.YieldsNewObject (p : Point) (before : List Moment) : Prop :=
  ∀ fuel callee es line m cls m₁ v m', p = ⟨fuel + 1, .evaluate (.call callee es line), m⟩ →
    Eval.evaluate fuel callee m = .ok (.cls cls) m₁ →
    Eval.evaluate (fuel + 1) (.call callee es line) m = .ok v m' →
      ∃ vs m₂ id, Eval.evaluateAll (Eval.evaluate fuel) es m₁ = .ok vs m₂ ∧
        v = .object id cls ∧ m₂.store.fields.size ≤ id ∧ id < m'.store.fields.size ∧
        ∀ u, Present (before ++ .begins p :: (Point.moments ⟨fuel, .evaluate callee, m⟩ ++
          momentsEach (Eval.evaluate fuel) (momentsEvaluate fuel) es m₁)) m₂ u →
            u.equals v = false

section Calls

variable {begun : Point → Prop} {m₀ m m₁ m₂ m₃ : Machine} {before later : List Moment}
  {fuel line : Nat} {callee : Expr} {es : List Expr} {f v : Value} {vs : List Value}

/-- A course that comes to a call comes to its arguments. -/
theorem Course.calling
    (h : Course begun m₀ (before ++ Point.moments ⟨fuel + 1, .evaluate (.call callee es line), m⟩ ++
      later) m₃)
    (hf : Eval.evaluate fuel callee m = .ok f m₁)
    (hvs : Eval.evaluateAll (Eval.evaluate fuel) es m₁ = .ok vs m₂) :
    Course begun m₀ (before ++ .begins ⟨fuel + 1, .evaluate (.call callee es line), m⟩ ::
      (Point.moments ⟨fuel, .evaluate callee, m⟩ ++
        momentsEach (Eval.evaluate fuel) (momentsEvaluate fuel) es m₁)) m₂ ∧
      f.Placed begun m₂ := by
  obtain ⟨⟨hplaced, around, hanchored⟩, -, -⟩ := h.task
  obtain ⟨hcallee, harguments⟩ := Expr.Anchored.call hanchored
  have hbegun : ∀ q ∈ begunIn (Point.moments ⟨fuel, .evaluate callee, m⟩ ++
      momentsEach (Eval.evaluate fuel) (momentsEvaluate fuel) es m₁), begun q := by
    intro q hq
    refine h.begun_of_mem (List.mem_append_left _ (List.mem_append_right _ ?_))
    rw [moments_call line hf hvs, ← List.append_assoc]
    exact .tail _ (List.mem_append_left _ (List.mem_append_left _ (mem_begunIn.1 hq)))
  rw [begunIn_append, List.forall_mem_append] at hbegun
  obtain ⟨hfirst, hplacedFirst⟩ :=
    (runs_task fuel).1 callee m around hcallee m (.refl m) hplaced hbegun.1
  rw [hf] at hfirst
  obtain ⟨hsecond, -⟩ := runs_evaluateAll (runs_task fuel).1
    (fun a ha => (harguments a ha).later hfirst.grows.distances) m₁ (.refl m₁) hfirst.placed
    hbegun.2
  rw [hvs] at hsecond
  refine ⟨?_, (hplacedFirst f m₁ hf).later hsecond.grows⟩
  rw [List.append_cons]
  exact h.begins.append (hfirst.append hsecond)

/-- A call that yields something yielded its arguments first. -/
theorem evaluate_call_eq_ok (hf : Eval.evaluate fuel callee m = .ok f m₁)
    (h : Eval.evaluate (fuel + 1) (.call callee es line) m = .ok v m₃) :
    ∃ vs m₂, Eval.evaluateAll (Eval.evaluate fuel) es m₁ = .ok vs m₂ ∧
      Eval.callValue (Eval.execute fuel) f vs line m₂ = .ok v m₃ := by
  have hrest := (bind_of_ok hf).symm.trans h
  exact bind_eq_ok hrest

/-- What was called was applied, and the store is as that left it. -/
theorem callValue_eq_ok {execute : Stmt → Eval Flow} {callable : Callable}
    (hcallable : f.callable? = some callable)
    (h : Eval.callValue execute f vs line m = .ok v m₁) :
    ∃ m₂, Eval.apply execute callable vs { m with calls := m.calls + 1 } = .ok v m₂ ∧
      m₁.store = m₂.store := by
  unfold Eval.callValue at h
  rw [hcallable] at h
  dsimp only at h
  split at h
  · cases h
  · rw [get_bind_apply] at h
    split at h
    · cases h
    · rw [asCall_apply] at h
      cases happly : Eval.apply execute callable vs { m with calls := m.calls + 1 } with
      | error halt m₂ =>
        rw [happly] at h
        cases h
      | ok u m₂ =>
        rw [happly] at h
        cases h
        exact ⟨m₂, rfl, rfl⟩

/-- A class yields the next object, whether or not an initializer is run. -/
theorem construct_eq_ok {execute : Stmt → Eval Flow} {cls : Class}
    (h : Eval.construct execute cls vs m = .ok v m₁) : v = .object m.store.fields.size cls := by
  unfold Eval.construct at h
  cases hinit : cls.initializer? with
  | none =>
    rw [hinit] at h
    cases h
    rfl
  | some method =>
    rw [hinit] at h
    obtain ⟨id, m₂, hid, hrest⟩ := bind_eq_ok h
    cases hid
    obtain ⟨c, m₃, -, hrest⟩ := bind_eq_ok hrest
    obtain ⟨_, m₄, -, hlast⟩ := bind_eq_ok hrest
    cases hlast
    rfl

/-- A call of a class in a course yields an object that no value was before. -/
theorem Course.yieldsNewObject {p : Point} (h : Course begun m₀ (before ++ p.moments ++ later) m₃) :
    p.YieldsNewObject before := by
  rintro fuel callee es line m cls m₁ v m' rfl hcallee hcall
  obtain ⟨vs, m₂, hvs, hvalue⟩ := evaluate_call_eq_ok hcallee hcall
  obtain ⟨hearlier, -⟩ := h.calling hcallee hvs
  obtain ⟨after, hconstruct, -⟩ := callValue_eq_ok rfl hvalue
  have hobject := construct_eq_ok hconstruct
  have hv : v = .object m₂.store.fields.size cls := hobject
  refine ⟨vs, m₂, _, hvs, hv, Nat.le_refl _, ?_, fun u hu => ?_⟩
  · have hthere := h.task.2.1
    have hplaced := hthere.present (.yielded
      (List.mem_append_right _ (Point.ends_mem_moments _)) (.value hcall))
    rw [hv, Point.after, hcall] at hplaced
    exact hplaced.1
  · have hplaced := hearlier.present hu
    rw [hv]
    cases u with
    | object id c => exact beq_eq_false_iff_ne.2 (Nat.ne_of_lt hplaced.1)
    | _ => rfl

end Calls

/-! ### Calls of initializers -/

/-- Every call of a function that ends among some moments and yields something yields an
object. -/
def Closure.Returns (c : Closure) (object : Value) (moments : List Moment) : Prop :=
  ∀ fuel callee es line m id m₁ v m',
    .ends ⟨fuel + 1, .evaluate (.call callee es line), m⟩ ∈ moments →
    Eval.evaluate fuel callee m = .ok (.function id c) m₁ →
    Eval.evaluate (fuel + 1) (.call callee es line) m = .ok v m' → v = object

/-- Reading the initializer of an object, which has no field of that name. -/
def Point.ReadsInitializer (p : Point) (before later : List Moment) : Prop :=
  ∀ fuel e line m id cls m₁ v m', p = ⟨fuel + 1, .evaluate (.get e ⟨initializerName, line⟩), m⟩ →
    Eval.evaluate fuel e m = .ok (.object id cls) m₁ →
    lastWritten id initializerName
      (writesOf (before ++ .begins p :: Point.moments ⟨fuel, .evaluate e, m⟩)) = none →
    Eval.evaluate (fuel + 1) (.get e ⟨initializerName, line⟩) m = .ok v m' →
      ∃ number f, v = .function number f ∧ f.Returns (.object id cls) later

/-- Reading the initializer of the superclass for the current object. -/
def Point.ReadsSuperInitializer (q : Point) (object : Value) (later : List Moment) : Prop :=
  ∀ fuel id line line' m v m',
    q = ⟨fuel + 1, .evaluate (.super id line ⟨initializerName, line'⟩), m⟩ →
    Eval.evaluate (fuel + 1) (.super id line ⟨initializerName, line'⟩) m = .ok v m' →
      ∃ number f, v = .function number f ∧ f.Returns object later

section Initializers

variable {begun : Point → Prop} {m₀ m m₁ : Machine} {before later : List Moment} {p : Point}
  {c : Closure} {object v : Value} {vs : List Value}

/-- An initializer yields what its frame has in the end. -/
theorem invoke_initializer {execute : Stmt → Eval Flow} (hc : c.isInitializer = true)
    (h : Eval.invoke execute c vs m = .ok v m₁) :
    m₁.store.getAt c.env 0 "this" = .ok v := by
  rw [invoke_apply] at h
  cases hbody : Eval.executeAll execute c.decl.body (c.inside vs m) with
  | error halt m₂ =>
    rw [hbody] at h
    cases h
  | ok flow m₂ =>
    rw [hbody] at h
    dsimp only [onState] at h
    unfold Closure.yielded at h
    rw [if_pos hc, get_bind_apply] at h
    cases hthis : m₂.store.getAt c.env 0 "this" with
    | error fault =>
      rw [hthis] at h
      cases h
    | ok u =>
      rw [hthis] at h
      cases h
      exact hthis

/-- The frame of an initializer keeps its object, so every call yields it. -/
theorem Course.returns (hc : c.isInitializer = true)
    (hthis : m.store.getAt c.env 0 "this" = .ok object) (hlater : Course begun m later m₁) :
    c.Returns object later := by
  intro fuel callee es line m' id m₂ v m₃ hmem hcallee hcall
  obtain ⟨between, rest, rfl⟩ := List.append_of_mem hmem
  have hgrows := hlater.moment.1.toGrows
  rw [Moment.machine, Point.after, hcall] at hgrows
  obtain ⟨vs, m₄, -, hvalue⟩ := evaluate_call_eq_ok hcallee hcall
  obtain ⟨after, hinvoke, hstore⟩ := callValue_eq_ok rfl hvalue
  have hv := invoke_initializer hc hinvoke
  have hkept := hgrows.getAt not_isPlain_this hthis
  rw [← hstore] at hv
  exact Except.ok.inj (hv.symm.trans hkept)

/-- An initializer that is found is bound to the object. -/
theorem returns_boundMethod {cls : Class} {line : Nat} (hcls : cls.Placed begun m)
    (h : Eval.boundMethod cls object ⟨initializerName, line⟩ m = .ok v m₁) {m₂ : Machine}
    (hlater : Course begun m₁ later m₂) :
    ∃ number f, v = .function number f ∧ f.Returns object later := by
  cases hfind : cls.findMethod? (Name.text ⟨initializerName, line⟩) with
  | none =>
    rw [boundMethod_of_none hfind] at h
    cases h
  | some method =>
    obtain ⟨hmethod, hname⟩ := hcls.findMethod? hfind
    obtain ⟨m', hbound, hframe, -⟩ := boundMethod_of_some hfind
    rw [hbound] at h
    cases h
    exact ⟨_, _, rfl, hlater.returns (hmethod.isInitializer_iff.2 hname)
      (Store.getAt_eq_ok.2 ⟨_, _, rfl, hframe⟩)⟩

/-- An initializer that is read as a property in a course returns its object when it is called. -/
theorem Course.readsInitializer (hfields : ∀ object text, m₀.store.field? object text = none)
    (h : Course begun m₀ (before ++ p.moments ++ later) m₁) : p.ReadsInitializer before later := by
  rintro fuel e line m id cls m' v after rfl he hunset hget
  obtain ⟨-, hcls, hread⟩ := h.reading hfields he
  rw [hunset, hget] at hread
  have hlater := h.task.2.2
  rw [Point.after, hget] at hlater
  exact returns_boundMethod hcls hread.symm hlater

/-- An initializer that is found by `super` in a course returns the current object when it
is called. -/
theorem Course.readsSuperInitializer {cls : Class} {moments : List Moment}
    (h : Course begun m₀ moments m₁) (hbody : InBody moments (some cls) object before p later) :
    p.ReadsSuperInitializer object later := by
  rintro fuel id line line' m v after rfl hsuper
  obtain ⟨hcls, hread⟩ := h.searching hbody
  have hlater := (h.inBody hbody).2.1
  rw [Point.after, hsuper] at hlater
  exact returns_boundMethod hcls (hread.symm.trans hsuper) hlater

end Initializers

/-! ### Parameters -/

/-- A call enters the body of a function, with arguments and on a machine. This is the
machine on which the body is run, as `Point.EntersBody.runs` says. -/
inductive Point.EntersBody : Point → Closure → List Value → Machine → Prop where
  /-- What is called and its arguments are known, the arguments are as many as there are
  parameters, a call more is allowed, and the closure is what the call starts. -/
  | intro {fuel line : Nat} {m m₁ m₂ m₃ : Machine} {callee : Expr} {es : List Expr} {f : Value}
      {vs : List Value} {callable : Callable} {c : Closure}
      (hf : Eval.evaluate fuel callee m = .ok f m₁)
      (hvs : Eval.evaluateAll (Eval.evaluate fuel) es m₁ = .ok vs m₂)
      (hcallable : f.callable? = some callable) (harity : vs.length = callable.arity)
      (hcalls : m₂.calls < Machine.maxCalls)
      (hstart : callable.start? { m₂ with calls := m₂.calls + 1 } = some (c, m₃)) :
      EntersBody ⟨fuel + 1, .evaluate (.call callee es line), m⟩ c vs (c.inside vs m₃)

/-- What a callable makes of the value that the function it starts yields: a class yields
its new object all the same. -/
def Callable.result (m : Machine) : Callable → Value → Value
  | .native _, v => v
  | .function _, v => v
  | .cls called, _ => .object m.store.fields.size called

/-- Calling what starts a function invokes that function. -/
theorem Callable.apply_of_start? {callable : Callable} {c : Closure} {m m₁ : Machine}
    (h : callable.start? m = some (c, m₁)) (execute : Stmt → Eval Flow) (vs : List Value) :
    Eval.apply execute callable vs m =
      (Eval.invoke execute c vs >>= fun v => pure (callable.result m v)) m₁ := by
  cases callable with
  | native f => cases h
  | function d =>
    cases h
    exact congrFun (bind_pure (Eval.invoke execute c vs)).symm m
  | cls cls =>
    rw [Callable.start?] at h
    cases hinit : cls.initializer? with
    | none =>
      rw [hinit] at h
      cases h
    | some method =>
      rw [hinit] at h
      cases h
      have hconstruct : Eval.construct execute cls vs m = (do
          let _ ← Eval.invoke execute
            { method with env := m.store.newObject.2.frames.size :: method.env } vs
          return Value.object m.store.fields.size cls)
          { m with store := (m.store.newObject.2.newFrame method.env
            [("this", .object m.store.fields.size cls)]).2 } := by
        unfold Eval.construct
        rw [hinit]
        rfl
      exact hconstruct

/-- A call that enters a body runs the body there. It halts as the body halts, and what it
yields is made of what the function yields when its body is over. -/
theorem Point.EntersBody.runs {p : Point} {c : Closure} {vs : List Value} {m : Machine}
    (h : p.EntersBody c vs m) :
    ∃ (fuel : Nat) (call : Expr) (env : Env) (callable : Callable) (m₁ : Machine),
      p.fuel = fuel + 1 ∧ p.task = .evaluate call ∧
      Eval.evaluate p.fuel call p.machine =
        onState (fun after => { after with calls := after.calls - 1 })
          (match onState (fun after => { after with env := env })
              (Eval.executeAll (Eval.execute fuel) c.decl.body m) with
            | .ok flow after => (c.yielded flow >>= fun v => pure (callable.result m₁ v)) after
            | .error halt after => .error halt after) := by
  cases h with
  | @intro fuel line m₀ m₁ m₂ m₃ callee es f vs callable c hf hvs hcallable harity hcalls
      hstart =>
    refine ⟨fuel, _, m₃.env, callable, { m₂ with calls := m₂.calls + 1 }, rfl, rfl, ?_⟩
    have hcall : Eval.evaluate (fuel + 1) (.call callee es line) m₀ =
        Eval.callValue (Eval.execute fuel) f vs line m₂ :=
      (bind_of_ok hf).trans (bind_of_ok hvs)
    rw [hcall, callValue_eq_asCall hcallable harity hcalls, asCall_apply,
      Callable.apply_of_start? hstart, bind_apply, invoke_apply]
    cases Eval.executeAll (Eval.execute fuel) c.decl.body (c.inside vs m₃) with
    | ok flow after => rfl
    | error halt after => rfl

/-- The statements that a call enters are those of such a body. -/
theorem Enters.entersBody {p q : Point} (h : Enters p 1 q) :
    ∃ c vs m before s later, p.EntersBody c vs m ∧ c.decl.body = before ++ s :: later ∧
      q.task = .execute s ∧
        Eval.executeAll (Eval.execute q.fuel) before m = .ok .normal q.machine := by
  cases h with
  | body hf hvs hcallable harity hcalls hstart hbody hbefore =>
    exact ⟨_, _, _, _, _, _, .intro hf hvs hcallable harity hcalls hstart, hbody, rfl, hbefore⟩

/-- All parameters are bound to the arguments that correspond to them. -/
def Point.BindsParameters (p : Point) : Prop :=
  ∀ c vs m, p.EntersBody c vs m → vs.length = c.decl.params.length ∧
    ∀ (k : Nat) (name : Name) (v : Value), c.decl.params[k]? = some name → vs[k]? = some v →
      m.store.getAt m.env 0 name.text = .ok v

/-- Creating an object takes as many arguments as the initializer has parameters. -/
theorem Class.arity_of_dispatches {cls : Class} {method : Closure}
    (h : cls.Dispatches initializerName method) : cls.arity = method.decl.params.length := by
  have hinit : cls.initializer? = some method := findMethod?_eq_some.2 h
  rw [arity, hinit]
  rfl

/-- Creating an object of a class without an initializer takes no arguments. -/
theorem Class.arity_of_not_dispatches {cls : Class}
    (h : ∀ method, ¬cls.Dispatches initializerName method) : cls.arity = 0 := by
  have hinit : cls.initializer? = none := findMethod?_eq_none.2 h
  rw [arity, hinit]

/-- A function that is started has as many parameters as there are arguments, all with
different names. -/
theorem Callable.Placed.parameters {begun : Point → Prop} {m m' m'' : Machine}
    {callable : Callable} (h : callable.Placed begun m) {c : Closure}
    (hstart : callable.start? m' = some (c, m'')) :
    c.decl.params.length = callable.arity ∧ (c.decl.params.map (·.text)).Nodup := by
  cases callable with
  | native f => cases hstart
  | function d =>
    cases hstart
    obtain ⟨around, opener, hdecl⟩ := Closure.Placed.anchored h
    exact ⟨rfl, hdecl.params_nodup⟩
  | cls cls =>
    rw [Callable.start?] at hstart
    cases hinit : cls.initializer? with
    | none =>
      rw [hinit] at hstart
      cases hstart
    | some method =>
      rw [hinit] at hstart
      cases hstart
      obtain ⟨derived, around, hdecl⟩ := (Class.Placed.findMethod? h hinit).1.decl
      exact ⟨(Class.arity_of_dispatches (Class.findMethod?_eq_some.1 hinit)).symm,
        hdecl.params_nodup⟩

/-- Names that are all different are bound to the values next to them. -/
theorem Closure.getAt_inside {c : Closure} {vs : List Value} {m : Machine}
    (hlength : vs.length = c.decl.params.length)
    (hnodup : (c.decl.params.map (·.text)).Nodup) {k : Nat} {name : Name} {v : Value}
    (hname : c.decl.params[k]? = some name) (hv : vs[k]? = some v) :
    (c.inside vs m).store.getAt (c.inside vs m).env 0 name.text = .ok v := by
  have hfst : ((c.decl.params.map (·.text)).zip vs).map (·.1) = c.decl.params.map (·.text) := by
    refine List.map_fst_zip ?_
    rw [List.length_map, hlength]
  have hmem : (name.text, v) ∈ (c.decl.params.map (·.text)).zip vs := by
    refine List.mem_of_getElem? (i := k) ?_
    rw [List.getElem?_zip_eq_some, List.getElem?_map, hname]
    exact ⟨rfl, hv⟩
  refine Store.getAt_eq_ok.2 ⟨_, _, rfl, ?_⟩
  change (Store.frame (m.store.newFrame c.env _).2 m.store.frames.size).get? name.text = _
  rw [Store.frame_newFrame_self]
  refine Bindings.get?_insertAll ?_ hmem
  rw [hfst]
  exact hnodup

/-- A call in a course binds each parameter to the argument at its position. -/
theorem Course.bindsParameters {begun : Point → Prop} {m₀ m₁ : Machine}
    {before later : List Moment} {p : Point}
    (h : Course begun m₀ (before ++ p.moments ++ later) m₁) : p.BindsParameters := by
  rintro c vs m ⟨hf, hvs, hcallable, harity, -, hstart⟩
  obtain ⟨-, hplaced⟩ := h.calling hf hvs
  obtain ⟨hparams, hnodup⟩ := (hplaced.callable hcallable).parameters hstart
  have hlength := harity.trans hparams.symm
  exact ⟨hlength, fun k name v hname hv => Closure.getAt_inside hlength hnodup hname hv⟩

/-! ### Construction -/

/-- In the chronicle of a session and of one more run, every task is done in one piece, and
what the run comes to is begun. A call of a class yields an object of exactly this class
that is none of those that are there, whatever initializer was run and however it ended. A
call of an initializer that was read from an object or with `super` yields the object that
it is bound to. Where a call enters the body of a function, the parameters are bound to
the arguments. And creating an object takes as many arguments as the initializer has
parameters, and none if there is no initializer. -/
theorem run_constructs_objects (session : Session) (past : List Moment)
    (h : session.Chronicle past) (fuel : Nat) (source : String) :
    let chronicle := past ++ session.moments fuel source
    (Whole chronicle ∧ ∀ n q, session.Reaches fuel source n q → .begins q ∈ chronicle) ∧
    (∀ before p later, chronicle = before ++ Point.moments p ++ later →
      p.YieldsNewObject before ∧ p.ReadsInitializer before later ∧ p.BindsParameters ∧
      ∀ q, Enters p 1 q → ∃ c vs m done s rest, p.EntersBody c vs m ∧
        c.decl.body = done ++ s :: rest ∧ q.task = .execute s ∧
        Eval.executeAll (Eval.execute q.fuel) done m = .ok .normal q.machine) ∧
    (∀ superclass object before q later,
      InBody chronicle (some superclass) object before q later →
        q.ReadsSuperInitializer object later) ∧
    ∀ cls : Class,
      (∀ method, cls.Dispatches initializerName method →
        cls.arity = method.decl.params.length) ∧
      ((∀ method, ¬cls.Dispatches initializerName method) → cls.arity = 0) := by
  intro chronicle
  obtain ⟨sink, clock, m', hcourse⟩ := h.course_run fuel source
  refine ⟨⟨h.whole.append (session.whole_moments fuel source), fun n q hq => ?_⟩,
    fun before p later hp => ?_, fun superclass object before q later hq => ?_, fun cls => ?_⟩
  · exact List.mem_append_right _ hq.begins_mem
  · rw [show past ++ session.moments fuel source = _ from hp] at hcourse
    exact ⟨hcourse.yieldsNewObject, hcourse.readsInitializer fun _ _ => rfl,
      hcourse.bindsParameters, fun q hq => hq.entersBody⟩
  · exact hcourse.readsSuperInitializer hq
  · exact ⟨fun _ => Class.arity_of_dispatches, Class.arity_of_not_dispatches⟩

/-- An object is created, and its initializer is called once more. -/
theorem run_constructs_objects_initializer :
    let session := Session.initial .unbounded fun _ => 0
    let source := "class A \x7b init(x) \x7b return; \x7d \x7d A(nil).init(true);"
    let a : Class := ⟨1, "A", none, [⟨⟨⟨"init", 1⟩, [⟨"x", 1⟩], [.result 1 none]⟩, [0], true⟩]⟩
    let creation : Expr := .call (.var ⟨0, ⟨"A", 1⟩⟩) [.literal .nil] 1
    let call : Expr := .call (.get creation ⟨"init", 1⟩) [.literal (.bool true)] 1
    session.Chronicle [] ∧ ∃ before m later m₁ v m₂,
      [] ++ session.moments 7 source = before ++ Point.moments ⟨6, .evaluate call, m⟩ ++ later ∧
      Eval.evaluate 4 creation m = .ok (.object 0 a) m₁ ∧
      (∀ u, Present before m u → u.equals (.object 0 a) = false) ∧
      Eval.evaluate 6 call m = .ok v m₂ ∧ v = .object 0 a ∧ a.arity = 1 := by
  intro session source a creation call
  have hs : session.Chronicle [] := .initial _ _
  let declA : Stmt := .classDecl ⟨"A", 1⟩ none [⟨⟨"init", 1⟩, [⟨"x", 1⟩], [.result 1 none]⟩]
  have hstatements : (Program.ofSource source 0).statements = [declA, .expression call] := by
    decide +kernel
  have hread : (Program.ofSource source 0).diagnostics = [] := by
    decide +kernel
  have hresolve : (resolveProgram (Program.ofSource source 0).statements).errors = [] := by
    rw [hstatements]
    rfl
  have hmachine : (session.resolved source).machine = session.machine := by
    rw [session.resolved_machine source hstatements]
    rfl
  let globals : Bindings := [("clock", .native 0 .clock), ("A", .cls a)]
  let m : Machine := { session.machine with store := ⟨#[globals], #[], 2⟩ }
  let m₁ : Machine := { m with
    store := ⟨#[globals, [("this", .object 0 a)], [("x", .nil)]], #[[]], 2⟩ }
  have hA : Eval.execute 7 declA session.machine = .ok .normal m := by rfl
  have hcreation : Eval.evaluate 4 creation m = .ok (.object 0 a) m₁ := by rfl
  let f : Closure := ⟨⟨⟨"init", 1⟩, [⟨"x", 1⟩], [.result 1 none]⟩, [3, 0], true⟩
  let m₂ : Machine := { m with
    store := ⟨#[globals, [("this", .object 0 a)], [("x", .nil)], [("this", .object 0 a)]],
      #[[]], 3⟩ }
  have hget : Eval.evaluate 5 (.get creation ⟨"init", 1⟩) m = .ok (.function 2 f) m₂ := by
    refine (bind_of_ok hcreation).trans ?_
    rfl
  obtain ⟨v, m₃, hcall⟩ : ∃ v m₃, Eval.evaluate 6 call m = .ok v m₃ := by
    refine ⟨.object 0 a, { m with
      store := ⟨#[globals, [("this", .object 0 a)], [("x", .nil)], [("this", .object 0 a)],
        [("x", .bool true)]], #[[]], 3⟩ }, (bind_of_ok hget).trans ?_⟩
    rfl
  let statement : Point := ⟨7, .execute (.expression call), m⟩
  let p : Point := ⟨6, .evaluate call, m⟩
  let reading : Point := ⟨5, .evaluate (.get creation ⟨"init", 1⟩), m⟩
  have hmoments : session.moments 7 source =
      Point.moments ⟨7, .execute declA, session.machine⟩ ++
        momentsProgram 7 [.expression call] m := by
    rw [session.moments_of_clean 7 rfl hread hresolve, hmachine, ← momentsProgram_cons hA,
      ← hstatements]
    rfl
  obtain ⟨tail, htail⟩ : ∃ tail, momentsProgram 7 [.expression call] m =
      statement.moments ++ tail := ⟨_, rfl⟩
  have hstatement : statement.moments = .begins statement :: p.moments ++ [.ends statement] := by
    rfl
  obtain ⟨rest, hp⟩ : ∃ rest, p.moments = .begins p :: (reading.moments ++ rest) ++ [.ends p] :=
    ⟨_, rfl⟩
  have hreading : reading.moments =
      .begins reading :: Point.moments ⟨4, .evaluate creation, m⟩ ++ [.ends reading] := by rfl
  obtain ⟨before, hbefore⟩ : ∃ before, before =
      Point.moments ⟨7, .execute declA, session.machine⟩ ++ [.begins statement] := ⟨_, rfl⟩
  have hcalled : [] ++ session.moments 7 source =
      before ++ p.moments ++ .ends statement :: tail := by
    rw [hmoments, htail, hstatement, hbefore]
    simp
  have hgot : [] ++ session.moments 7 source = (before ++ [.begins p]) ++ reading.moments ++
      (rest ++ .ends p :: .ends statement :: tail) := by
    rw [hcalled, hp]
    simp
  have hcreated : [] ++ session.moments 7 source = (before ++ [.begins p, .begins reading]) ++
      Point.moments ⟨4, .evaluate creation, m⟩ ++
        (.ends reading :: rest ++ .ends p :: .ends statement :: tail) := by
    rw [hgot, hreading]
    simp
  -- no field was set, or else reading the property would not have bound a method
  have hunset : lastWritten 0 initializerName (writesOf ((before ++ [.begins p]) ++
      .begins reading :: Point.moments ⟨4, .evaluate creation, m⟩)) = none := by
    obtain ⟨sink, clock, last, hcourse⟩ := hs.course_run 7 source
    rw [hgot] at hcourse
    obtain ⟨-, -, hvalue⟩ := hcourse.reading (fun _ _ => rfl) hcreation
    rw [hget] at hvalue
    cases hwritten : lastWritten 0 initializerName (writesOf ((before ++ [.begins p]) ++
        .begins reading :: Point.moments ⟨4, .evaluate creation, m⟩)) with
    | none => rfl
    | some w =>
      rw [show lastWritten 0 (Name.text ⟨"init", 1⟩) _ = _ from hwritten] at hvalue
      have hsame := congrArg (fun result => (machineAfter result).store.nextId) hvalue
      cases hsame
  obtain ⟨-, hpoints, -, harity⟩ := run_constructs_objects session [] hs 7 source
  obtain ⟨vs, m', id, hvs, -, -, -, hfresh⟩ :=
    (hpoints _ _ _ hcreated).1 3 _ _ _ _ _ _ _ _ rfl rfl hcreation
  cases hvs
  obtain ⟨number, g, hg, hreturns⟩ :=
    (hpoints _ _ _ hgot).2.1 4 _ _ _ _ _ _ _ _ rfl hcreation hunset hget
  cases hg
  have hv := hreturns 5 _ _ _ _ _ _ _ _ (List.mem_append_right _ (.head _)) hget hcall
  have hdispatches : a.Dispatches initializerName
      ⟨⟨⟨"init", 1⟩, [⟨"x", 1⟩], [.result 1 none]⟩, [0], true⟩ := Class.findMethod?_eq_some.1 rfl
  refine ⟨hs, before, m, _, m₁, v, m₃, hcalled, hcreation, fun u hu => hfresh u ?_, hcall, hv,
    (harity a).1 _ hdispatches⟩
  cases hu with
  | frame h => exact .frame h
  | field h => exact .field h
  | yielded hmem h => exact .yielded (by simp [hmem]) h

end Lox
