import Lox.Proofs.Course.Evaluation

/-!
# The bodies of methods

A point in the body of a method is also one in the body of a function that is nested in
it, however that function comes to be called, as long as no other class comes in between.
In the course of a run every point has its home: it is outside of all classes, or it is in
the body of a method that a class has, that was declared before, and that is bound to an
object. So where one of the keywords is evaluated, there is such a method, and where the
keyword is `super`, its class has a superclass.
-/

namespace Lox

/-! ### Points at a place -/

/-- A point whose task is anchored at a place where something is so. -/
def Point.At (distances : Distances) (R : Surroundings → Env → Prop) (p : Point) : Prop :=
  ∃ around, p.task.Anchored distances around ∧ R around p.machine.env

/-- The points in the body of a function, and in the bodies of functions that are nested
in it, whenever these are called. Methods of classes are no such functions. -/
inductive Serves : Closure → Point → Prop where
  /-- A statement of the body, once those before it are done. -/
  | body {c : Closure} {fuel : Nat} {vs : List Value} {m m' : Machine} {before later : List Stmt}
      {s : Stmt} (hbody : c.decl.body = before ++ s :: later)
      (hbefore : Eval.executeAll (Eval.execute fuel) before (c.inside vs m) = .ok .normal m') :
      Serves c ⟨fuel, .execute s, m'⟩
  /-- A part of a task in the body, which is in no other call. -/
  | part {c : Closure} {p q : Point} (h : Serves c p) (hq : Enters p 0 q) : Serves c q
  /-- A point in the body of a function that is declared in the body. -/
  | nested {c : Closure} {p q : Point} {f : FunDecl} (h : Serves c p)
      (hf : p.task = .execute (.funDecl f)) (hq : Serves ⟨f, p.machine.env, false⟩ q) : Serves c q

/-- A step that keeps the rest as it is leaves the environment in effect. -/
theorem env_of_ok {α : Type} {site : Env → Option Nat} {p : Eval α} (hp : Keeps site p)
    {m m' : Machine} {a : α} (h : p m = .ok a m') : m'.env = m.env := by
  have henv := (hp m).env
  rw [h] at henv
  exact henv

/-- An expression leaves the environment in effect. -/
theorem env_evaluate {fuel : Nat} {e : Expr} {m m' : Machine} {v : Value}
    (h : Eval.evaluate fuel e m = .ok v m') : m'.env = m.env :=
  env_of_ok (keeps_evaluate fuel e) h

/-- So do statements one after another. -/
theorem env_executeAll {fuel : Nat} {ss : List Stmt} {m m' : Machine} {flow : Flow}
    (h : Eval.executeAll (Eval.execute fuel) ss m = .ok flow m') : m'.env = m.env :=
  env_of_ok (keeps_executeAll (keeps_execute fuel) ss) h

/-- So do rounds of a loop. -/
theorem Rounds.env_eq {fuel n : Nat} {e : Expr} {s : Stmt} {m m' : Machine}
    (h : Rounds fuel e s n m m') : m'.env = m.env := by
  induction h with
  | none => rfl
  | more _ hc _ hb ih => rw [env_of_ok (keeps_execute fuel s) hb, env_evaluate hc, ih]

section Places

variable {distances : Distances} {R : Surroundings → Env → Prop} {around : Surroundings}
  {p q : Point} {c : Closure}

/-- A point that is at a part of a program is so with more distances, too. -/
theorem Point.At.later {distances' : Distances} (h : p.At distances R)
    (hd : distances.Within distances') : p.At distances' R := by
  obtain ⟨around, hanchored, hin⟩ := h
  exact ⟨around, hanchored.later hd, hin⟩

/-- What a task enters without a call stays where the task is. -/
theorem Enters.at (hR : Stable R) (h : Enters p 0 q) (hp : p.At distances R) :
    q.At distances R := by
  obtain ⟨around, hanchored, hin⟩ := hp
  have hstart : ∀ {env : Env} (s : Stmt), R around env → R (around.start s) env :=
    fun s h => hR.start _ _ s h
  cases h with
  | group => exact ⟨around, Expr.Anchored.group hanchored, hin⟩
  | operand => exact ⟨around, Expr.Anchored.unary hanchored, hin⟩
  | left => exact ⟨around, (Expr.Anchored.binary hanchored).1, hin⟩
  | right ha => exact ⟨around, (Expr.Anchored.binary hanchored).2, (env_evaluate ha).symm ▸ hin⟩
  | first => exact ⟨around, (Expr.Anchored.logical hanchored).1, hin⟩
  | second ha => exact ⟨around, (Expr.Anchored.logical hanchored).2, (env_evaluate ha).symm ▸ hin⟩
  | assigned => exact ⟨around, Expr.Anchored.assign hanchored, hin⟩
  | callee => exact ⟨around, (Expr.Anchored.call hanchored).1, hin⟩
  | @argument fuel _ _ _ _ e _ _ _ _ _ hf hvs =>
    have henv := (env_of_ok (keeps_evaluateAll (keeps_evaluate fuel) _) hvs).trans (env_evaluate hf)
    refine ⟨around, (Expr.Anchored.call hanchored).2 e ?_, henv.symm ▸ hin⟩
    exact List.mem_append_right _ (.head _)
  | object => exact ⟨around, Expr.Anchored.get hanchored, hin⟩
  | target => exact ⟨around, (Expr.Anchored.set hanchored).1, hin⟩
  | field ho => exact ⟨around, (Expr.Anchored.set hanchored).2, (env_evaluate ho).symm ▸ hin⟩
  | expression => exact ⟨_, Stmt.Anchored.expression hanchored, hstart _ hin⟩
  | print => exact ⟨_, Stmt.Anchored.print hanchored, hstart _ hin⟩
  | initializer => exact ⟨_, (Stmt.Anchored.varDecl hanchored).some, hstart _ hin⟩
  | @block _ _ _ before _ _ hbefore =>
    refine ⟨_, (Stmt.Anchored.block hanchored).statement, ?_⟩
    rw [env_executeAll hbefore]
    exact hR.startAll (hR.scope _ _ _ _ _ _ (hstart _ hin)) before
  | condition => exact ⟨_, (Stmt.Anchored.branch hanchored).1, hstart _ hin⟩
  | yes he =>
    exact ⟨_, (Stmt.Anchored.branch hanchored).2.1, (env_evaluate he).symm ▸ hstart _ hin⟩
  | no he =>
    exact ⟨_, (Stmt.Anchored.branch hanchored).2.2 _ rfl, (env_evaluate he).symm ▸ hstart _ hin⟩
  | again hr => exact ⟨_, (Stmt.Anchored.loop hanchored).1, hr.env_eq.symm ▸ hstart _ hin⟩
  | round hr _ he =>
    have henv := (env_evaluate he).trans hr.env_eq
    exact ⟨_, (Stmt.Anchored.loop hanchored).2, henv.symm ▸ hstart _ hin⟩
  | result => exact ⟨_, (Stmt.Anchored.result hanchored).some, hstart _ hin⟩
  | superclass => exact ⟨_, Stmt.Anchored.superclass hanchored, hstart _ hin⟩

/-- All points in the body of a function are where the function is. -/
theorem Serves.at (hR : Stable R) (h : Serves c q) {opener : Opener}
    (hdecl : FunDecl.Anchored distances around opener c.decl) (hin : R around c.env) :
    q.At distances R := by
  induction h generalizing around opener with
  | @body _ _ _ _ _ before _ _ hbody hbefore =>
    have hstatements := hdecl.body
    rw [hbody] at hstatements
    refine ⟨_, hstatements.statement, ?_⟩
    rw [env_executeAll hbefore]
    exact hR.startAll (hR.scope _ _ _ _ _ _ hin) before
  | part _ hq ih => exact hq.at hR (ih hdecl hin)
  | nested _ hf _ ihp ihq =>
    obtain ⟨around', hanchored, hin'⟩ := ihp hdecl hin
    rw [hf] at hanchored
    exact ihq (Stmt.Anchored.funDecl hanchored) (hR.start _ _ _ hin')

end Places

/-! ### The body of a method -/

/-- A point in the body of a method or in a function nested in it, in the course of some
moments: a class with the method is declared; then there is a frame that binds the method
to an object; then the point is begun. -/
inductive InBody (moments : List Moment) (superclass : Option Class) (object : Value)
    (before : List Moment) (q : Point) (later : List Moment) : Prop where
  /-- A class with the method is declared, a frame binds the method to its object, and the
  point is begun in the body after that. -/
  | intro {first between last : List Moment} {x : Moment} {p : Point} {env : Env}
      {methods : List FunDecl} {f : FunDecl} {i : Nat}
      (hdeclares : p.DeclaresClass superclass env methods) (hf : f ∈ methods)
      (hframe : (x.machine.store.frame i).get? "this" = some object)
      (hserves : Serves { f.asMethod env with env := i :: env } q)
      (hbefore : before ++ [.begins q] = first ++ p.moments ++ (between ++ x :: last))
      (hmoments : moments = before ++ q.moments ++ later) :
      InBody moments superclass object before q later

/-- What is in a body is one task among the moments, between those before and those after it. -/
theorem InBody.moments_eq {moments before later : List Moment} {superclass : Option Class}
    {object : Value} {q : Point} (h : InBody moments superclass object before q later) :
    moments = before ++ q.moments ++ later := by
  obtain ⟨-, -, -, -, -, hmoments⟩ := h
  exact hmoments

/-- A keyword that a frame has stays there. -/
theorem Machine.Grows.getAt {m m' : Machine} (h : m.Grows m') {x : String} (hx : ¬IsPlain x)
    {env : Env} {d : Nat} {v : Value} (hv : m.store.getAt env d x = .ok v) :
    m'.store.getAt env d x = .ok v := by
  rw [Store.getAt_eq_ok] at hv ⊢
  obtain ⟨i, rest, henv, hi⟩ := hv
  exact ⟨i, rest, henv, h.keyword hx hi⟩

/-- Declaring a name leaves all other names as they are, in every frame. -/
theorem Store.get?_define_of_ne {store : Store} {env : Env} {j : Nat} {x y : String} {v : Value}
    (h : y ≠ x) : ((store.define env x v).frame j).get? y = (store.frame j).get? y := by
  cases env with
  | nil => rfl
  | cons i rest => exact Store.get?_bindIn_of_ne h

/-- There is a superclass if one is named. -/
theorem isSome_of_readSuperclass {superclass : Option Ref} {parent : Option Class}
    {m m' : Machine} (h : Eval.readSuperclass superclass m = .ok parent m') :
    parent.isSome = superclass.isSome := by
  cases superclass with
  | none =>
    cases h
    rfl
  | some ref =>
    obtain ⟨v, m₁, -, hclass⟩ := bind_eq_ok h
    split at hclass
    · cases hclass
      rfl
    · cases hclass

/-- With a superclass, the environment of methods begins with a frame that has it. -/
theorem methodEnv_some_eq_ok {cls : Class} {env env' : Env} {m m' : Machine}
    (h : Eval.methodEnv env (some cls) m = .ok env' m') :
    ∃ frame, env' = frame :: env ∧ (m'.store.frame frame).get? "super" = some (.cls cls) := by
  cases h
  refine ⟨m.store.frames.size, rfl, ?_⟩
  change (Store.frame (m.store.newFrame env [("super", .cls cls)]).2 _).get? "super" = _
  rw [Store.frame_newFrame_self]
  rfl

section Courses

variable {begun : Point → Prop} {m₀ m m₁ : Machine} {before later moments : List Moment}
  {p q : Point} {superclass : Option Class} {object : Value}

/-- Where a class is declared its methods are anchored, and after that the frame of its
superclass is there. -/
theorem Point.DeclaresClass.after {env : Env} {methods : List FunDecl}
    (h : p.DeclaresClass superclass env methods) (hp : p.Placed begun) :
    (∃ outer, ∀ f ∈ methods, FunDecl.Anchored p.machine.distances
      (.methods superclass.isSome :: outer) (.method f.name.text) f) ∧
      ∀ cls ∈ superclass, p.after.store.getAt env 0 "super" = .ok (.cls cls) := by
  obtain ⟨-, around, hanchored⟩ := hp
  obtain @⟨fuel, name, ref, methods, m, m₁, m₂, _, _, hsuperclass, henv⟩ := h
  have hmethods := Stmt.Anchored.methods hanchored
  rw [← isSome_of_readSuperclass hsuperclass] at hmethods
  refine ⟨⟨_, hmethods⟩, fun cls hcls => ?_⟩
  cases hcls
  rcases execute_classDecl_cases fuel name ref methods m with
    ⟨halt, hread, -⟩ | ⟨parent, env', store, hread, henv', hexecute⟩
  · rw [hsuperclass] at hread
    cases hread
  · rw [hsuperclass] at hread
    cases hread
    rw [henv] at henv'
    cases henv'
    obtain ⟨frame, rfl, hsuper⟩ := methodEnv_some_eq_ok henv
    have hname : "super" ≠ name.text := fun heq =>
      not_isPlain_super (heq ▸ (Stmt.Anchored.plain hanchored).1)
    rw [Point.after, hexecute]
    refine Store.getAt_eq_ok.2 ⟨_, _, rfl, ?_⟩
    exact (Store.get?_define_of_ne hname).trans hsuper

/-- All that matters at a point in the body of a method: how the methods of the class are
anchored and bound, and what their frames have. -/
theorem Course.inBody (h : Course begun m₀ moments m₁)
    (hbody : InBody moments superclass object before q later) :
    Course begun m₀ (before ++ [.begins q]) q.machine ∧ Course begun q.after later m₁ ∧
      ∃ outer bound, q.At q.machine.distances (InMethod superclass.isSome outer bound) ∧
        q.machine.store.getAt bound 0 "this" = .ok object ∧
        ∀ cls ∈ superclass, q.machine.store.getAt bound 1 "super" = .ok (.cls cls) := by
  obtain ⟨hdeclares, hf, hframe, hserves, hbefore, rfl⟩ := hbody
  refine ⟨h.begins, h.task.2.2, ?_⟩
  have huntil := h.begins
  rw [hbefore] at huntil
  obtain ⟨hp, -, hlater⟩ := huntil.task
  obtain ⟨⟨outer, hdecls⟩, hsuper⟩ := hdeclares.after hp
  obtain ⟨-, -, hrest⟩ := hlater.moment
  have hgrows := (huntil.grows_within (Point.ends_mem_moments _)).trans hlater.grows
  have hmethod := (hdecls _ hf).later hgrows.distances
  refine ⟨outer, _, hserves.at InMethod.stable hmethod .methods, ?_, fun cls hcls => ?_⟩
  · exact hrest.grows.getAt not_isPlain_this (Store.getAt_eq_ok.2 ⟨_, _, rfl, hframe⟩)
  · have hthere := hlater.grows.getAt not_isPlain_super (hsuper cls hcls)
    rw [Store.getAt_eq_ok] at hthere ⊢
    exact hthere

/-! ### Homes -/

/-- What holds of a point also holds of all that it enters without a call, if each step
keeps it. -/
theorem Inside.without_calls {Q : Point → Prop} (hQ : ∀ p q, Enters p 0 q → Q p → Q q)
    (h : Inside 0 p q) (hp : Q p) : Q q := by
  generalize hn : 0 = n at h
  induction h with
  | here => exact hp
  | @deeper n k p q r _ hr ih =>
    obtain ⟨rfl, rfl⟩ : n = 0 ∧ k = 0 := by omega
    exact hQ q r hr (ih hp rfl)

/-- A point inside of another is reached without a call, or there is a last call. -/
theorem Inside.last_call {n : Nat} (h : Inside n p q) :
    Inside 0 p q ∨ ∃ k r s, Inside k p r ∧ Enters r 1 s ∧ Inside 0 s q := by
  induction h with
  | here => exact .inl .here
  | @deeper n k p q r h hr ih =>
    have hk : k = 0 ∨ k = 1 := by
      cases hr <;> first | exact .inl rfl | exact .inr rfl
    rcases hk with rfl | rfl
    · rcases ih with hq | ⟨k, r', s, hr', hs, hq⟩
      · exact .inl (.deeper hq hr)
      · exact .inr ⟨k, r', s, hr', hs, .deeper hq hr⟩
    · exact .inr ⟨n, q, r, h, hr, .here⟩

/-- The moments of a call whose arguments have values. -/
theorem moments_call {fuel : Nat} (line : Nat) {callee : Expr} {es : List Expr} {f : Value}
    {vs : List Value} {m₂ : Machine} (hf : Eval.evaluate fuel callee m = .ok f m₁)
    (hvs : Eval.evaluateAll (Eval.evaluate fuel) es m₁ = .ok vs m₂) :
    Point.moments ⟨fuel + 1, .evaluate (.call callee es line), m⟩ =
      Point.during ⟨fuel + 1, .evaluate (.call callee es line), m⟩
        (Point.moments ⟨fuel, .evaluate callee, m⟩ ++
          (momentsEach (Eval.evaluate fuel) (momentsEvaluate fuel) es m₁ ++
            momentsCall (Eval.execute fuel) (momentsExecute fuel) f vs m₂)) := by
  simp only [Point.moments, momentsEvaluate, hf, hvs, momentsAfter]

/-- A call that is made has the moments of a body. -/
theorem momentsCall_of_start {fuel : Nat} {f : Value} {vs : List Value} {callable : Callable}
    {c : Closure} (hcallable : f.callable? = some callable) (harity : vs.length = callable.arity)
    (hcalls : m.calls < Machine.maxCalls)
    (hstart : callable.start? { m with calls := m.calls + 1 } = some (c, m₁)) :
    momentsCall (Eval.execute fuel) (momentsExecute fuel) f vs m =
      momentsAll (Eval.execute fuel) (momentsExecute fuel) c.decl.body (c.inside vs m₁) := by
  unfold momentsCall
  rw [hcallable]
  dsimp only
  rw [if_neg (not_not.2 harity), if_neg (Nat.not_le_of_lt hcalls), hstart]
  rfl

/-- A function is started with all that there was, and a class binds its initializer. -/
theorem Callable.Placed.start {callable : Callable} {m₂ : Machine} {c : Closure}
    (h : callable.Placed begun m₁) (hstart : callable.start? m = some (c, m₂))
    (hm : m₂.Grows m₁) : c.Placed begun m₁ := by
  cases callable with
  | native f => cases hstart
  | function d =>
    cases hstart
    exact h
  | cls cls =>
    rw [Callable.start?] at hstart
    cases hinit : cls.initializer? with
    | none =>
      rw [hinit] at hstart
      cases hstart
    | some method =>
      rw [hinit] at hstart
      cases hstart
      have hframe : (Store.frame (m.store.newObject.2.newFrame method.env
          [("this", .object m.store.fields.size cls)]).2 m.store.newObject.2.frames.size).get?
            "this" = some (.object m.store.fields.size cls) := by
        rw [Store.frame_newFrame_self]
        rfl
      exact .bound (Class.Placed.findMethod? h hinit).1 (hm.keyword not_isPlain_this hframe) rfl

/-- The first moment of statements is that the first of them is begun. -/
theorem momentsAll_eq_cons (fuel : Nat) {ss : List Stmt} (hss : ss ≠ []) (m : Machine) :
    ∃ s rest, momentsAll (Eval.execute fuel) (momentsExecute fuel) ss m =
      .begins ⟨fuel, .execute s, m⟩ :: rest := by
  cases ss with
  | nil => exact absurd rfl hss
  | cons s ss =>
    obtain ⟨inner, hs⟩ := Point.moments_eq ⟨fuel, .execute s, m⟩
    have hmoments : momentsExecute fuel s m = Point.during ⟨fuel, .execute s, m⟩ inner := hs
    rw [momentsAll, hmoments]
    exact ⟨s, _, rfl⟩

/-- What a call enters is in the body of a function that is placed. -/
theorem Course.called {s : Point} (h : Course begun m₀ (before ++ p.moments ++ later) m₁)
    (hs : Enters p 1 s) (hq : Inside 0 s q) : ∃ c, c.Placed begun q.machine ∧ Serves c q := by
  cases hs with
  | @body fuel m m' m₂ m₃ m₄ callee es line f vs callable c done rest st hf hvs hcallable harity
      hcalls hstart hbody hbefore =>
    refine ⟨c, ?_, hq.without_calls (fun _ _ hr hp => .part hp hr) (.body hbody hbefore)⟩
    have hmem : .begins q ∈ momentsAll (Eval.execute fuel) (momentsExecute fuel) c.decl.body
        (c.inside vs m₃) := by
      rw [← mem_begunIn, begunIn_all (begunIn_task fuel).2, mem_visitsAll]
      exact ⟨done, st, rest, m₄, hbody, hbefore, Point.mem_visits_iff.2 ⟨0, hq⟩⟩
    rw [moments_call line hf hvs, momentsCall_of_start hcallable harity hcalls hstart] at h
    have hsplit : ∀ (p : Point) (es body : List Moment),
        before ++ p.during (Point.moments ⟨fuel, .evaluate callee, m⟩ ++ (es ++ body)) ++ later =
          (before ++ [.begins p]) ++ Point.moments ⟨fuel, .evaluate callee, m⟩ ++
            (es ++ (body ++ .ends p :: later)) := by
      intro p es body
      simp [Point.during]
    rw [hsplit] at h
    obtain ⟨-, hcallee, hrest⟩ := h.task
    have hplaced := hcallee.present (.yielded
      (List.mem_append_right _ (Point.ends_mem_moments _)) (.value hf))
    have hlater := hrest.grows_to (List.mem_append_right _ (List.mem_append_left _ hmem))
    refine ((hplaced.later hlater).callable hcallable).start hstart ?_
    -- the machine that the body begins on is that of its first statement
    have hsome : c.decl.body ≠ [] := by
      rw [hbody]
      exact List.append_ne_nil_of_right_ne_nil _ (List.cons_ne_nil _ _)
    obtain ⟨first, others, hfirst⟩ := momentsAll_eq_cons fuel hsome (c.inside vs m₃)
    rw [hfirst] at hmem hrest
    have hframe : m₃.Grows (c.inside vs m₃) :=
      (Machine.Follows.newFrame c.env _).toGrows.trans (.congr rfl rfl)
    refine hframe.trans ?_
    rcases List.mem_cons.1 hmem with hq | hq
    · cases hq
      exact .refl _
    · exact hrest.moment.2.2.grows_to (List.mem_append_left _ hq)

/-- What was begun with fewer identities than there are at a point was begun before it. -/
theorem Course.earlier {after : List Moment}
    (h : Course begun m₀ (before ++ .begins q :: after) m₁)
    (hp : .begins p ∈ before ++ .begins q :: after)
    (hless : p.machine.store.nextId < q.machine.store.nextId) :
    .begins p ∈ before ∧ p.machine.Grows q.machine := by
  obtain ⟨-, -, hafter⟩ := h.moment
  rcases List.mem_append.1 hp with hp | hp
  · obtain ⟨first, between, rfl⟩ := List.append_of_mem hp
    rw [List.append_assoc, List.cons_append] at h
    exact ⟨hp, h.moment.2.2.grows_to (List.mem_append_right _ (.head _))⟩
  · rcases List.mem_cons.1 hp with hp | hp
    · cases hp
      exact absurd hless (Nat.lt_irrefl _)
    · have hgrows : q.machine.Grows p.machine := hafter.grows_to hp
      exact absurd hgrows.nextId (Nat.not_le_of_lt hless)

/-- A point in the body of a method that is bound to an object. -/
def Point.InMethodOf (moments : List Moment) (superclass : Option Class) (object : Value)
    (q : Point) : Prop :=
  ∃ p env methods f i, .begins p ∈ moments ∧
    p.machine.store.nextId < q.machine.store.nextId ∧
    p.DeclaresClass superclass env methods ∧ f ∈ methods ∧
    (q.machine.store.frame i).get? "this" = some object ∧
    Serves { f.asMethod env with env := i :: env } q

/-- Every point is inside of some statement outside of all classes, with all that it
enters. -/
def Rooted (moments : List Moment) : Prop :=
  ∀ q, .begins q ∈ moments → ∃ s n, s.At s.machine.distances NoClass ∧ Inside n s q ∧
    ∀ k p, Inside k s p → .begins p ∈ moments

/-- Moments that are rooted are so one after the other. -/
theorem Rooted.append {earlier : List Moment} (h : Rooted earlier) (h' : Rooted later) :
    Rooted (earlier ++ later) := by
  intro q hq
  rcases List.mem_append.1 hq with hq | hq
  · obtain ⟨s, n, hs, hinside, hthere⟩ := h q hq
    exact ⟨s, n, hs, hinside, fun k p hp => List.mem_append_left _ (hthere k p hp)⟩
  · obtain ⟨s, n, hs, hinside, hthere⟩ := h' q hq
    exact ⟨s, n, hs, hinside, fun k p hp => List.mem_append_right _ (hthere k p hp)⟩

/-- Every point is outside of all classes or in the body of a method. A function that is
nested in another was declared before, with fewer identities. -/
theorem Course.home (h : Course begun m₀ moments m₁) (hbegun : ∀ p, begun p → .begins p ∈ moments)
    (hwhole : Whole moments) (hrooted : Rooted moments) (hq : .begins q ∈ moments) :
    q.At q.machine.distances NoClass ∨
      ∃ superclass object, q.InMethodOf moments superclass object := by
  induction hn : q.machine.store.nextId using Nat.strongRecOn generalizing q with
  | ind n ih =>
    obtain ⟨s, k, hs, hinside, hthere⟩ := hrooted q hq
    have htask : ∀ {k : Nat} {r : Point}, Inside k s r →
        ∃ before later, Course begun m₀ (before ++ r.moments ++ later) m₁ := by
      intro k r hr
      obtain ⟨before, after, hsplit⟩ := List.append_of_mem (hthere k r hr)
      obtain ⟨later, hlater⟩ := hwhole before r after hsplit
      exact ⟨before, later, hlater ▸ h⟩
    rcases hinside.last_call with hinside | ⟨k', r, s', hr, hs', hinside⟩
    · obtain ⟨before, later, hcourse⟩ := htask .here
      have hq := hinside.without_calls (fun _ _ he hp => he.at stable_noClass hp) hs
      exact .inl (hq.later (hcourse.grows_within hinside.begins_mem).distances)
    · obtain ⟨before, later, hcourse⟩ := htask hr
      obtain ⟨c, hc, hserves⟩ := hcourse.called hs' hinside
      cases hc with
      | @bound method i object hmethod hframe hc =>
        obtain ⟨-, p, superclass, env, methods, f, hp, hbefore, hdeclares, hf, rfl⟩ := hmethod
        subst hc
        exact .inr ⟨superclass, object, p, env, methods, f, i, hbegun p hp, hbefore, hdeclares, hf,
          hframe, hserves⟩
      | @declared p f hp hbefore htask hdecl hc =>
        subst hc
        have hp := hbegun p hp
        have hgrows : p.machine.Grows q.machine := by
          obtain ⟨first, last, rfl⟩ := List.append_of_mem hq
          exact (h.earlier hp hbefore).2
        rcases ih _ (hn ▸ hbefore) hp rfl with ⟨around, hanchored, hclass⟩ |
          ⟨superclass, object, p', env, methods, f', i, hp', hbefore', hdeclares, hf, hframe, hin⟩
        · rw [htask] at hanchored
          exact .inl (hserves.at stable_noClass
            ((Stmt.Anchored.funDecl hanchored).later hgrows.distances)
            (stable_noClass.start _ _ _ hclass))
        · exact .inr ⟨superclass, object, p', env, methods, f', i, hp',
            Nat.lt_trans hbefore' hbefore, hdeclares, hf,
            hgrows.keyword not_isPlain_this hframe, .nested hin htask hserves⟩

/-! ### The keywords -/

/-- A task that is one of the keywords, where the second one asks for a superclass. -/
inductive Task.Keyword : Bool → Task → Prop where
  /-- The current object is asked for. -/
  | this {id line : Nat} : Keyword false (.evaluate (.this id line))
  /-- A method of the superclass is asked for. -/
  | super {id line : Nat} {name : Name} : Keyword true (.evaluate (.super id line name))

section Keywords

variable {task : Task} {asks : Bool} {distances : Distances} {around : Surroundings}

/-- A keyword stands in a class, -/
theorem Task.Keyword.class_ne_none (h : task.Keyword asks)
    (hanchored : task.Anchored distances around) : around.class? ≠ none := by
  intro hclass
  cases h with
  | this => exact (Expr.Anchored.sites hanchored _ (.head _)).right _ (.thisOutsideClass hclass)
  | super => exact (Expr.Anchored.sites hanchored _ (.head _)).right _ (.superOutsideClass hclass)

/-- and in one with a superclass if it asks for that. -/
theorem Task.Keyword.class_ne_false (h : task.Keyword true)
    (hanchored : task.Anchored distances around) : around.class? ≠ some false := by
  intro hclass
  cases h with
  | super =>
    exact (Expr.Anchored.sites hanchored _ (.head _)).right _ (.superWithoutSuperclass hclass)

/-- No keyword is evaluated while a class is declared. -/
theorem Point.DeclaresClass.not_keyword {env : Env} {methods : List FunDecl}
    (h : p.DeclaresClass superclass env methods) (hq : .begins q ∈ p.moments) :
    ¬q.task.Keyword asks := by
  obtain @⟨fuel, name, ref, methods, m, -, -, -, -, -, -⟩ := h
  intro hkeyword
  rw [← mem_begunIn] at hq
  change q ∈ begunIn (Point.during _ (momentsParent fuel name ref m)) at hq
  rw [Point.begunIn_during] at hq
  rcases List.mem_cons.1 hq with rfl | hq
  · cases hkeyword
  · cases ref with
    | none => cases hq
    | some ref =>
      rw [List.mem_singleton.1 hq] at hkeyword
      cases hkeyword

/-- Where a keyword is evaluated, a method is bound to an object, and there is a superclass
if the keyword asks for one. -/
theorem Course.inBody_of_keyword (h : Course begun m₀ (before ++ q.moments ++ later) m₁)
    (hbegun : ∀ p, begun p → .begins p ∈ before ++ q.moments ++ later)
    (hwhole : Whole (before ++ q.moments ++ later))
    (hrooted : Rooted (before ++ q.moments ++ later)) (hq : q.task.Keyword asks) :
    ∃ superclass object, InBody (before ++ q.moments ++ later) superclass object before q later ∧
      (asks = true → superclass.isSome = true) := by
  obtain ⟨inner, hmoments⟩ : ∃ inner, q.moments = .begins q :: inner :=
    q.moments_eq.imp' _ fun _ hq => hq
  have hsplit : before ++ q.moments ++ later = before ++ .begins q :: (inner ++ later) := by
    simp [hmoments]
  have hmem : .begins q ∈ before ++ q.moments ++ later := by simp [hmoments]
  rcases h.home hbegun hwhole hrooted hmem with ⟨around, hanchored, hclass⟩ |
    ⟨superclass, object, p, env, methods, f, i, hp, hless, hdeclares, hf, hframe, hserves⟩
  · exact absurd hclass (hq.class_ne_none hanchored)
  have hover : ∃ first between, before = first ++ p.moments ++ between := by
    have hcourse := h
    rw [hsplit] at hcourse hwhole hp
    exact hwhole.over (hcourse.earlier hp hless).1 fun hq' => hdeclares.not_keyword hq' hq
  obtain ⟨first, between, hbefore⟩ := hover
  have hends : before ++ [.begins q] = first ++ p.moments ++ (between ++ .begins q :: []) := by
    rw [hbefore, List.append_assoc]
  have hthis : ((Moment.begins q).machine.store.frame i).get? "this" = some object := hframe
  have hbody : InBody (before ++ q.moments ++ later) superclass object before q later :=
    .intro hdeclares hf hthis hserves hends rfl
  refine ⟨superclass, object, hbody, fun hasks => ?_⟩
  obtain ⟨-, -, outer, bound, ⟨around, hanchored, hin⟩, -⟩ := h.inBody hbody
  cases superclass with
  | some cls => rfl
  | none =>
    subst hasks
    exact absurd hin.class_eq (hq.class_ne_false hanchored)

end Keywords

end Courses

end Lox
