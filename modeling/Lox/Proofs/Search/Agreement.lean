import Lox.Proofs.Search.Steps

/-!
# Programs agree with a search

Where no scope declares a name late, every expression and every statement agrees
with its evaluation by search. When a scope is entered, its frame is forecast to
get the names that the statements of the scope declare, and since none of them
is late, no function among these statements mentions a name that its own frames
are still to get. The proof is by induction on the bound of the run.
-/

namespace Lox

/-! ### Statements whose functions can be declared -/

/-- A name is forecast for a frame only if a scope has it. -/
def Forecast.Settles (w : Forecast) (x : String) (scope : Scope) (i : Nat) : Prop :=
  w.names i x → scope.has x = true

/-- Once a statement has declared its names, none that its functions mention is
still to come in the frames around it; and what it declares is forecast. -/
structure Stmt.Settled (w : Forecast) (Γ : Context) (env : Env) (s : Stmt) : Prop where
  /-- Names that functions mention are forecast for no frame whose scope does not have them
  then. -/
  captured : ∀ x, x ∈ s.captured ∨ ¬IsPlain x → Layers (w.Settles x) (Γ.after s).scopes env
  /-- Names that are declared are forecast for the innermost frame. -/
  declared : ∀ x ∈ s.declared, ∀ i ∈ env.head?, w.names i x

/-- Statements of one scope whose functions can be declared. -/
def Stmt.SettledList (w : Forecast) (Γ : Context) (env : Env) : List Stmt → Prop
  | [] => True
  | s :: rest => s.Settled w Γ env ∧ Stmt.SettledList w (Γ.after s) env rest

section Settled

variable {K : Known} {w w' : Forecast} {site : Option Nat} {Γ : Context} {env : Env} {s : Stmt}
  {ss : List Stmt} {x : String}

/-- What is settled in the frames of an environment stays so: their forecasts are never
changed. -/
theorem Layers.settles_later {scopes : List Scope} (h : Layers (w.Settles x) scopes env)
    (henv : env.Distinct w) (hw : w.Before site w') : Layers (w'.Settles x) scopes env := by
  refine h.imp fun scope i hi hsettles hname => hsettles ?_
  rw [hw.names i (henv.frames i hi)] at hname
  exact hname

/-- A statement that is settled stays so. -/
theorem Stmt.Settled.later (h : s.Settled w Γ env) (henv : env.Distinct w)
    (hw : w.Before site w') : s.Settled w' Γ env := by
  refine ⟨fun x hx => (h.captured x hx).settles_later henv hw, fun x hx i hi => ?_⟩
  rw [hw.names i (henv.frames i (List.mem_of_mem_head? hi))]
  exact h.declared x hx i hi

/-- Statements that are settled stay so. -/
theorem Stmt.SettledList.later (h : Stmt.SettledList w Γ env ss) (henv : env.Distinct w)
    (hw : w.Before site w') : Stmt.SettledList w' Γ env ss := by
  induction ss generalizing Γ with
  | nil => trivial
  | cons s rest ih => exact ⟨h.1.later henv hw, ih h.2⟩

/-- The scope that a statement stands in, once the statement has declared its
names. -/
theorem Context.scopes_after {scope : Scope} {scopes : List Scope}
    (h : Γ.scopes = scope :: scopes) (s : Stmt) :
    ∃ scope', (Γ.after s).scopes = scope' :: scopes ∧
      ∀ x, scope'.has x = true ↔ scope.has x = true ∨ x ∈ s.declared := by
  have hdefine : ∀ text, ∃ scope', (Γ.define text).scopes = scope' :: scopes ∧
      ∀ x, scope'.has x = true ↔ scope.has x = true ∨ x ∈ [text] := by
    intro text
    refine ⟨scope.define text, by rw [Context.define, Context.onInnermost, h], fun x => ?_⟩
    rw [Scope.has_define, Bool.or_eq_true, beq_iff_eq, List.mem_singleton, or_comm,
      eq_comm (a := text)]
  have hkeep : ∃ scope', Γ.scopes = scope' :: scopes ∧
      ∀ x, scope'.has x = true ↔ scope.has x = true ∨ x ∈ ([] : List String) :=
    ⟨scope, h, fun x => by simp⟩
  cases s with
  | varDecl name _ => exact hdefine name.text
  | funDecl f => exact hdefine f.name.text
  | classDecl name _ _ => exact hdefine name.text
  | _ => exact hkeep

/-- A declaration that changes no scope is on the top level. -/
theorem Context.scopes_of_after (h : Γ.after s = Γ) (hx : x ∈ s.declared) : Γ.scopes = [] := by
  cases hscopes : Γ.scopes with
  | nil => rfl
  | cons scope scopes =>
    have hdefine : ∀ text, (Γ.define text).scopes = scope.define text :: scopes := by
      intro text
      rw [Context.define, Context.onInnermost, hscopes]
    have hlonger : ∀ text, Γ.define text ≠ Γ := by
      intro text hsame
      have hcons := (hdefine text).symm.trans ((congrArg Context.scopes hsame).trans hscopes)
      have hlength := congrArg List.length (List.cons.inj hcons).1
      simp [Scope.define] at hlength
    cases s with
    | varDecl name _ => exact absurd h (hlonger _)
    | funDecl f => exact absurd h (hlonger _)
    | classDecl name _ _ => exact absurd h (hlonger _)
    | _ => cases hx

/-- The names that a resolved statement declares are plain. -/
theorem Stmt.Resolved.plain_declared (h : s.Resolved K Γ) (hx : x ∈ s.declared) : IsPlain x := by
  cases s with
  | varDecl name initializer =>
    rw [List.mem_singleton.1 hx]
    exact h.1.plain
  | funDecl f =>
    rw [List.mem_singleton.1 hx]
    exact h.1.plain
  | classDecl name superclass methods =>
    rw [List.mem_singleton.1 hx]
    exact h.1.plain
  | _ => cases hx

/-- The names that resolved statements declare are plain. -/
theorem Stmt.ResolvedList.plain_declared (h : Stmt.ResolvedList K Γ ss)
    (hx : x ∈ ss.flatMap Stmt.declared) : IsPlain x := by
  induction ss generalizing Γ with
  | nil => cases hx
  | cons s rest ih =>
    rw [List.flatMap_cons, List.mem_append] at hx
    rcases hx with hx | hx
    · exact h.1.plain_declared hx
    · exact ih h.2 hx

/-- The statements of a scope can all be declared, if the frame of the scope is
forecast to have the names of the scope and those of the statements, and none of
these is late. -/
theorem Stmt.settledList {scope : Scope} {scopes : List Scope} {i : Nat}
    (hscopes : Γ.scopes = scope :: scopes) (hlate : Stmt.lateInScope ss = false)
    (hnames : ∀ x, w.names i x → scope.has x = true ∨ x ∈ ss.flatMap Stmt.declared)
    (hdeclared : ∀ x ∈ ss.flatMap Stmt.declared, w.names i x ∧ IsPlain x)
    (houter : ∀ x, x ∈ Stmt.capturedList ss ∨ ¬IsPlain x → Layers (w.Settles x) scopes env) :
    Stmt.SettledList w Γ (i :: env) ss := by
  induction ss generalizing Γ scope with
  | nil => trivial
  | cons s rest ih =>
    rw [List.flatMap_cons, List.forall_mem_append] at hdeclared
    rw [Stmt.lateInScope, Bool.or_eq_false_iff] at hlate
    obtain ⟨scope', hscopes', hhas⟩ := Context.scopes_after hscopes s
    have hnames' : ∀ x, w.names i x → scope'.has x = true ∨ x ∈ rest.flatMap Stmt.declared := by
      intro x hx
      rcases hnames x hx with hold | hnew
      · exact .inl ((hhas x).2 (.inl hold))
      · rw [List.flatMap_cons, List.mem_append] at hnew
        exact hnew.imp_left fun hs => (hhas x).2 (.inr hs)
    have hearly : ∀ x, x ∈ s.captured ∨ ¬IsPlain x → x ∉ rest.flatMap Stmt.declared := by
      intro x hx hmem
      rcases hx with hcaptured | hplain
      · have hany := List.any_eq_false.1 hlate.1 x hcaptured
        exact hany (List.contains_iff_mem.2 hmem)
      · exact hplain (hdeclared.2 x hmem).2
    refine ⟨⟨fun x hx => ?_, fun x hx j hj => ?_⟩, ?_⟩
    · rw [hscopes']
      refine .inside (fun hname => (hnames' x hname).resolve_right (hearly x hx)) (houter x ?_)
      exact hx.imp_left fun hcaptured => List.mem_append_left _ hcaptured
    · cases hj
      exact (hdeclared.1 x hx).1
    · exact ih hscopes' hlate.2 hnames' hdeclared.2 fun x hx =>
        houter x (hx.imp_left fun hcaptured => List.mem_append_right _ hcaptured)

end Settled

/-! ### Evaluation with some bound -/

/-- What a statement leaves behind: the frames of the place after it, or a value
that is ready. -/
def ReadyFlows (K : Known) (Γ : Context) (env : Env) (words : List String) (w : Forecast) :
    Flow → Prop
  | .normal => Sight w Γ env words
  | .returned v => v.Ready K w

/-- A call ends with a value that is ready. -/
def ReadyResults (K : Known) (w : Forecast) : Flow → Prop
  | .normal => True
  | .returned v => v.Ready K w

/-- Evaluation and execution, each in two ways that agree. -/
structure AgreeingEvaluation (K : Known) (evaluate evaluate' : Expr → Eval Value)
    (execute execute' : Stmt → Eval Flow) : Prop where
  /-- Expressions agree at every place. -/
  expression : ∀ {w Γ env words e}, Sight w Γ env words → Reference.Among words e.references →
    e.Resolved K Γ → Agree K w none env (ReadyValues K) (evaluate e) (evaluate' e)
  /-- Statements agree at every place where they are settled. -/
  statement : ∀ {w Γ env words s}, Sight w Γ env words → Reference.Among words s.references →
    s.Settled w Γ env → s.declaresLate = false → s.Resolved K Γ →
    Agree K w env.head? env (ReadyFlows K (Γ.after s) env words) (execute s) (execute' s)

variable {K : Known} {w : Forecast} {site : Option Nat} {Γ : Context} {env : Env}
  {words : List String} {evaluate evaluate' : Expr → Eval Value}
  {execute execute' : Stmt → Eval Flow}

/-- What holds in every machine under a forecast may be used. -/
theorem Agree.given {α : Type} {A : Forecast → α → Prop} {p q : Eval α}
    (h : w.Holds K → Agree K w site env A p q) : Agree K w site env A p q :=
  fun m hm henv => h hm.holds m hm henv

/-- A statement that is run or not declares nothing, unless it is on the top
level. -/
theorem Stmt.Settled.part {s t : Stmt} (h : s.Settled w Γ env) (hw : w.Holds K)
    (hsight : Sight w Γ env words) (hs : Γ.after s = Γ) (ht : Γ.after t = Γ)
    (hcaptured : t.captured ⊆ s.captured) : t.Settled w Γ env := by
  refine ⟨fun x hx => ?_, fun x hx i hi => ?_⟩
  · have hlayers := h.captured x (hx.imp_left fun hmem => hcaptured hmem)
    rw [hs] at hlayers
    rw [ht]
    exact hlayers
  · have hshows := hsight.shows _ (.inr not_isPlain_this)
    rw [Context.scopes_of_after ht hx] at hshows
    cases hshows with
    | globals =>
      cases hi
      exact hw.globals x

/-! ### Lists of expressions and statements -/

/-- Arguments agree with a search one by one. -/
theorem agree_evaluateAll (h : AgreeingEvaluation K evaluate evaluate' execute execute')
    (hsight : Sight w Γ env words) {es : List Expr}
    (hwords : Reference.Among words (Expr.referencesList es)) (hes : Expr.ResolvedList K Γ es) :
    Agree K w none env (fun w vs => ∀ v ∈ vs, v.Ready K w) (Eval.evaluateAll evaluate es)
      (Eval.evaluateAll evaluate' es) := by
  induction es generalizing w with
  | nil => exact .pure nofun
  | cons e rest ih =>
    rw [Expr.referencesList, Reference.Among, List.forall_mem_append] at hwords
    refine (h.expression hsight hwords.1 hes.1).bind fun w₁ v hw₁ hv => ?_
    refine (ih (hsight.later hw₁) hwords.2 hes.2).bind fun w₂ vs hw₂ hvs => ?_
    exact .pure (List.forall_mem_cons.2 ⟨hv.later hw₂, hvs⟩)

/-- An expression that may be missing agrees with a search. -/
theorem agree_evaluateOption (h : AgreeingEvaluation K evaluate evaluate' execute execute')
    (hsight : Sight w Γ env words) {value : Option Expr}
    (hwords : Reference.Among words (referencesOption value)) (hvalue : ResolvedOption K Γ value) :
    Agree K w none env (ReadyValues K) (Eval.evaluateOption evaluate value)
      (Eval.evaluateOption evaluate' value) := by
  cases value with
  | none => exact .pure trivial
  | some e => exact h.expression hsight hwords hvalue

/-- Statements that run one after the other agree with a search, each at the place behind
those before it. -/
theorem agree_executeAll (h : AgreeingEvaluation K evaluate evaluate' execute execute')
    (hsight : Sight w Γ env words) {ss : List Stmt}
    (hwords : Reference.Among words (Stmt.referencesList ss))
    (hsettled : Stmt.SettledList w Γ env ss) (hlate : Stmt.declaresLateList ss = false)
    (hss : Stmt.ResolvedList K Γ ss) :
    Agree K w env.head? env (ReadyResults K) (Eval.executeAll execute ss)
      (Eval.executeAll execute' ss) := by
  induction ss generalizing w Γ with
  | nil => exact .pure trivial
  | cons s rest ih =>
    rw [Stmt.referencesList, Reference.Among, List.forall_mem_append] at hwords
    rw [Stmt.declaresLateList, Bool.or_eq_false_iff] at hlate
    refine (h.statement hsight hwords.1 hsettled.1 hlate.1 hss.1).bind fun w₁ flow hw₁ hflow => ?_
    cases flow with
    | normal =>
      exact ih hflow hwords.2 (hsettled.2.later hsight.toDistinct hw₁) hlate.2 hss.2
    | returned v => exact .pure hflow

/-- A loop agrees with a search round by round, in frames that get no more names. -/
theorem agree_repeatWhile {condition condition' : Eval Value} {body body' : Eval Flow}
    (hcondition : ∀ {w}, Sight w Γ env words →
      Agree K w none env (ReadyValues K) condition condition')
    (hbody : ∀ {w'}, w.Before env.head? w' → Sight w' Γ env words →
      Agree K w' env.head? env (ReadyFlows K Γ env words) body body') (n : Nat) {w₁ : Forecast}
    (hw₁ : w.Before env.head? w₁) (hsight : Sight w₁ Γ env words) :
    Agree K w₁ env.head? env (ReadyFlows K Γ env words) (Eval.repeatWhile condition body n)
      (Eval.repeatWhile condition' body' n) := by
  induction n generalizing w₁ with
  | zero => exact .throw _
  | succ n ih =>
    refine (hcondition hsight).andThen fun w₂ v hw₂ _ => ?_
    have hw : w.Before env.head? w₂ := hw₁.trans (hw₂.anywhere _)
    split
    · refine (hbody hw (hsight.later hw₂)).bind fun w₃ flow hw₃ hflow => ?_
      cases flow with
      | normal => exact ih (hw.trans hw₃) hflow
      | returned v => exact .pure hflow
    · exact .pure (hsight.later hw₂)

/-! ### Bodies and calls -/

/-- The statements of a scope run in a new frame, which has the names of the
scope so far. -/
theorem agree_body (h : AgreeingEvaluation K evaluate evaluate' execute execute') {outer : Env}
    (houter : outer.Distinct w) {Γ' : Context} (scope : Scope) (bound : List String)
    (hscopes : Γ'.scopes = scope :: Γ.scopes) {bindings : Bindings}
    (hbound : ∀ x, x ∈ bound ↔ scope.has x = true)
    (hscope : ∀ x, scope.has x = true ↔ (bindings.get? x).isSome) {body : List Stmt}
    (hshows : ∀ x, x ∈ Reference.words (Stmt.referencesList body) ∨ ¬IsPlain x →
      Layers (w.store.Shows x) Γ.scopes outer)
    (hsettles : ∀ x, x ∈ Stmt.capturedList body ∨ ¬IsPlain x →
      Layers (w.Settles x) Γ.scopes outer)
    (hlate : (Stmt.lateInScope body || Stmt.declaresLateList body) = false)
    (hbody : Stmt.ResolvedList K Γ' body) :
    Agree K (w.push (bound ++ body.flatMap Stmt.declared) outer bindings)
      (some w.store.frames.size) env (ReadyResults K)
      (Eval.inEnv (w.store.frames.size :: outer) (Eval.executeAll execute body))
      (Eval.inEnv (w.store.frames.size :: outer) (Eval.executeAll execute' body)) := by
  rw [Bool.or_eq_false_iff] at hlate
  have hnames : ∀ x, (w.push (bound ++ body.flatMap Stmt.declared) outer bindings).names
      w.store.frames.size x ↔ scope.has x = true ∨ x ∈ body.flatMap Stmt.declared := by
    intro x
    rw [Forecast.names_push_self, List.mem_append, hbound]
  refine Agree.inEnv ?_
  refine agree_executeAll h (.push houter hscopes hshows hscope) (Reference.among_words _) ?_
    hlate.2 hbody
  refine Stmt.settledList hscopes hlate.1 (fun x hx => (hnames x).1 hx) (fun x hx => ?_)
    fun x hx => ?_
  · exact ⟨(hnames x).2 (.inr hx), hbody.plain_declared hx⟩
  · exact (hsettles x hx).settles_later houter (Forecast.before_push none _ _ _ _)

/-- A block agrees with a search: what its statements declare is forecast for its frame. -/
theorem agree_block (h : AgreeingEvaluation K evaluate evaluate' execute execute')
    (hsight : Sight w Γ env words) {body : List Stmt}
    (hwords : Reference.Among words (Stmt.referencesList body))
    (hsettled : (Stmt.block body).Settled w Γ env)
    (hlate : (Stmt.block body).declaresLate = false) (hbody : (Stmt.block body).Resolved K Γ) :
    Agree K w none env (ReadyResults K)
      (Eval.newFrame env [] >>= fun inner => Eval.inEnv inner (Eval.executeAll execute body))
      (Eval.newFrame env [] >>= fun inner =>
        Eval.inEnv inner (Eval.executeAll execute' body)) := by
  have hempty : ∀ x, Bindings.get? ([] : Bindings) x = none := fun _ => rfl
  refine Agree.fresh ((agree_newFrame (body.flatMap Stmt.declared) (fun x hx => ?_)
    fun x v hv => ?_).bind fun w' inner _ hpush => ?_)
  · simp [hempty] at hx
  · simp [hempty] at hv
  · obtain ⟨rfl, rfl⟩ := hpush
    exact agree_body h hsight.toDistinct [] [] rfl (fun x => by simp [Scope.has])
      (fun x => by simp [Scope.has, hempty])
      (fun x hx => hsight.shows x (hx.imp_left hwords.mem)) hsettled.captured hlate hbody

/-- The frame of a call has the parameters. -/
theorem isSome_parameters {params : List Name} {vs : List Value}
    (hlen : vs.length = params.length) (hdistinct : (params.map (·.text)).Nodup) (x : String) :
    ((Bindings.insertAll [] ((params.map (·.text)).zip vs)).get? x).isSome ↔
      x ∈ params.map (·.text) := by
  have hfirst : ((params.map (·.text)).zip vs).map (·.1) = params.map (·.text) :=
    List.map_fst_zip (by rw [List.length_map, hlen])
  constructor
  · intro hx
    obtain ⟨v, hv⟩ := Option.isSome_iff_exists.1 hx
    rcases Bindings.get?_of_insertAll hv with hnone | hmem
    · cases hnone
    · exact (List.of_mem_zip hmem).1
  · intro hx
    rw [← hfirst, List.mem_map] at hx
    obtain ⟨⟨y, v⟩, hmem, rfl⟩ := hx
    rw [Bindings.get?_insertAll (by rw [hfirst]; exact hdistinct) hmem]
    rfl

/-- A call agrees with a search: the frame of its parameters gets the names that its body
declares. -/
theorem agree_invoke (h : AgreeingEvaluation K evaluate evaluate' execute execute') {c : Closure}
    (hc : c.Ready K w) {vs : List Value} (hvs : ∀ v ∈ vs, v.Ready K w)
    (hlen : vs.length = c.arity) :
    Agree K w none env (ReadyValues K) (Eval.invoke execute c vs)
      (Eval.invoke execute' c vs) := by
  obtain ⟨⟨name, params, body⟩, outer, isInitializer⟩ := c
  obtain ⟨Γ, b, hstays, hdistinct, hplain, hbody⟩ := hc
  have hparams := isSome_parameters hlen hdistinct
  refine .given fun hw => Agree.fresh ((agree_newFrame
    (params.map (·.text) ++ body.flatMap Stmt.declared) (fun x hx => ?_) fun x v hv => ?_).bind
    fun w' inner _ hpush => ?_)
  · exact List.mem_append_left _ ((hparams x).1 hx)
  · rcases Bindings.get?_of_insertAll hv with hnone | hmem
    · cases hnone
    · exact hvs v (List.of_mem_zip hmem).2
  · obtain ⟨rfl, rfl⟩ := hpush
    refine (agree_body h hstays.env (Context.parameterScope params) (params.map (·.text)) rfl
      (fun x => ?_) (fun x => ?_) (fun x hx => ?_) (fun x hx => ?_) hstays.timely hbody).bind
      fun w₂ flow _ hflow => ?_
    · rw [Context.has_parameterScope, List.contains_iff_mem]
    · rw [Context.has_parameterScope, List.contains_iff_mem, hparams]
    · refine (hstays.fixes x hx).imp fun scope i _ hfix => ⟨hfix.1, fun hi => hfix.2 ?_⟩
      exact hw.names i x hi
    · exact (hstays.fixes x (hx.imp_left fun hmem => Stmt.capturedList_subset body hmem)).imp
        fun _ _ _ hfix => hfix.2
    · split
      · refine .ask fun m _ hm => ?_
        cases hthis : m.store.getAt outer 0 "this" with
        | error fault => exact .throw _
        | ok v =>
          obtain ⟨i, hi⟩ := Store.get?_of_getAt hthis
          rw [← hm.store] at hi
          exact .pure (hm.holds.frames i _ v hi)
      · cases flow with
        | normal => exact .pure trivial
        | returned v => exact .pure hflow

/-- A construction agrees with a search. -/
theorem agree_construct (h : AgreeingEvaluation K evaluate evaluate' execute execute')
    {cls : Class} (hcls : cls.Ready K w) {vs : List Value} (hvs : ∀ v ∈ vs, v.Ready K w)
    (hlen : vs.length = cls.arity) :
    Agree K w none env (ReadyValues K) (Eval.construct execute cls vs)
      (Eval.construct execute' cls vs) := by
  refine agree_newObject.bind fun w₁ id hw₁ _ => ?_
  have hobject : Value.Ready K w₁ (.object id cls) := hcls.later hw₁
  rw [Class.arity] at hlen
  dsimp only
  cases hfind : cls.initializer? with
  | none => exact .pure hobject
  | some method =>
    rw [hfind] at hlen
    have hmethod : method.Unbound K w₁ := (hcls.later hw₁).findMethod? hfind
    refine (agree_bindMethod hmethod hobject).bind fun w₂ bound hw₂ hbound => ?_
    have hvs₂ : ∀ v ∈ vs, v.Ready K w₂ := fun v hv => (hvs v hv).later (hw₁.trans hw₂)
    have harity : vs.length = bound.arity := by
      rw [Closure.arity, hbound.2]
      exact hlen
    refine (agree_invoke h hbound.1 hvs₂ harity).bind fun w₃ _ hw₃ _ => ?_
    exact .pure (hobject.later (hw₂.trans hw₃))

/-- What a value that is ready is called as. -/
def Callable.Ready (K : Known) (w : Forecast) : Callable → Prop
  | .native _ => True
  | .function c => c.Ready K w
  | .cls c => c.Ready K w

/-- What a value that is ready is called as is ready. -/
theorem Value.Ready.callable {v : Value} (h : v.Ready K w) {callable : Callable}
    (hcall : v.callable? = some callable) : callable.Ready K w := by
  cases v with
  | native id f =>
    cases hcall
    trivial
  | function id c =>
    cases hcall
    exact h
  | cls c =>
    cases hcall
    exact h
  | _ => cases hcall

/-- What can be called agrees with a search, kind by kind. -/
theorem agree_apply (h : AgreeingEvaluation K evaluate evaluate' execute execute')
    {callable : Callable} (hc : callable.Ready K w) {vs : List Value}
    (hvs : ∀ v ∈ vs, v.Ready K w) (hlen : vs.length = callable.arity) :
    Agree K w none env (ReadyValues K) (Eval.apply execute callable vs)
      (Eval.apply execute' callable vs) := by
  cases callable with
  | native f => exact agree_readClock.bind fun _ _ _ _ => .pure trivial
  | function c => exact agree_invoke h hc hvs hlen
  | cls c => exact agree_construct h hc hvs hlen

/-- A call of a value agrees with a search, or makes the same error. -/
theorem agree_callValue (h : AgreeingEvaluation K evaluate evaluate' execute execute')
    {callee : Value} (hc : callee.Ready K w) {vs : List Value} (hvs : ∀ v ∈ vs, v.Ready K w)
    (line : Nat) :
    Agree K w none env (ReadyValues K) (Eval.callValue execute callee vs line)
      (Eval.callValue execute' callee vs line) := by
  unfold Eval.callValue
  cases hcall : callee.callable? with
  | none => exact .fail _ _
  | some callable =>
    dsimp only
    by_cases hlen : vs.length = callable.arity
    · rw [if_neg (not_not.2 hlen), if_neg (not_not.2 hlen)]
      refine .ask fun m _ _ => ?_
      split
      · exact .fail _ _
      · exact (agree_apply h (hc.callable hcall) hvs hlen).asCall
    · rw [if_pos hlen, if_pos hlen]
      exact .fail _ _

/-! ### Functions and classes -/

/-- A closure is made where its names are in the frames whose scopes have them,
and none is still to come. -/
theorem Closure.Stays.of_sight {c : Closure} (hsight : Sight w Γ c.env words)
    (hwords : Reference.Among words (FunDecl.references c.decl))
    (hsettles : ∀ x, x ∈ Reference.words (FunDecl.references c.decl) ∨ ¬IsPlain x →
      Layers (w.Settles x) Γ.scopes c.env)
    (hlate : FunDecl.declaresLate c.decl = false) : c.Stays w Γ := by
  refine ⟨hsight.toDistinct, hlate, fun x hx => ?_⟩
  have hshows := hsight.shows x (hx.imp_left hwords.mem)
  exact (hshows.and (hsettles x hx)).imp fun _ _ _ hboth => ⟨hboth.1.1, hboth.2⟩

/-- A function may be declared where no name that it mentions is still to come. -/
theorem agree_declareFunction (hsight : Sight w Γ env words) {f : FunDecl}
    (hwords : Reference.Among words (FunDecl.references f))
    (hsettled : (Stmt.funDecl f).Settled w Γ env) (hlate : FunDecl.declaresLate f = false)
    (hbody : FunDecl.Resolved K (Γ.define f.name.text) .function f) :
    Agree K w env.head? env (fun w' _ => Sight w' (Γ.define f.name.text) env words)
      (Eval.newFunction ⟨f, env, false⟩ >>= Eval.define f.name.text)
      (Eval.newFunction ⟨f, env, false⟩ >>= Eval.define f.name.text) := by
  obtain ⟨i, rest, rfl⟩ := (hsight.shows _ (.inr not_isPlain_this)).cons
  have hmade : Agree K w none (i :: rest)
      (fun _ v => ∃ id, v = .function id ⟨f, i :: rest, false⟩)
      (Eval.newFunction ⟨f, i :: rest, false⟩) (Eval.newFunction ⟨f, i :: rest, false⟩) :=
    agree_freshId.bind fun _ id _ _ => .pure ⟨id, rfl⟩
  refine hmade.andThen fun w₁ v hw₁ hv => ?_
  obtain ⟨id, rfl⟩ := hv
  have hsight₁ := hsight.later hw₁
  have hsettled₁ := hsettled.later hsight.toDistinct hw₁
  have hi : i < w₁.store.frames.size := hsight₁.frames i (.head _)
  have hdefined : Sight (w₁.withStore (w₁.store.bindIn i f.name.text
      (.function id ⟨f, i :: rest, false⟩))) (Γ.define f.name.text) (i :: rest) words :=
    hsight₁.define
  refine (agree_define hi (hsettled₁.declared _ (.head _) i rfl) ?_).mono (fun _ hw => hw) ?_
  · exact ⟨_, .function, .of_sight hdefined hwords hsettled₁.captured hlate, hbody⟩
  · intro w' _ _ hw'
    rw [hw']
    exact hdefined

/-- A superclass is found by a search where its distance leads. -/
theorem agree_readSuperclass (hsight : Sight w Γ env words) {superclass : Option Ref}
    (hwords : ∀ ref ∈ superclass, ref.name.text ∈ words)
    (hparent : Γ.ResolvedParent K superclass) :
    Agree K w none env
      (fun w' parent => parent.isSome = superclass.isSome ∧ ∀ c ∈ parent, c.Ready K w')
      (Eval.readSuperclass superclass) (Search.readSuperclass superclass) := by
  cases superclass with
  | none => exact .pure ⟨rfl, nofun⟩
  | some ref =>
    refine (agree_readRef hsight (.inl (hwords ref rfl)) hparent).bind fun w' v _ hv => ?_
    cases v with
    | cls c =>
      refine .pure ⟨rfl, fun d hd => ?_⟩
      cases hd
      exact hv
    | _ => exact .fail _ _

/-- The environment of the methods of a class, around which there is a scope with
`super` if the class has a superclass. -/
theorem agree_methodEnv {parent : Option Class} (hparent : ∀ c ∈ parent, c.Ready K w)
    {methods : List FunDecl} {isInitializer : FunDecl → Bool}
    (hmethods : ∀ f ∈ methods, Closure.Stays w Γ ⟨f, env, isInitializer f⟩) :
    Agree K w none env
      (fun w' inner => ∀ f ∈ methods, Closure.Stays w'
        (if parent.isSome then Γ.enter [("super", true)] else Γ) ⟨f, inner, isInitializer f⟩)
      (Eval.methodEnv env parent) (Eval.methodEnv env parent) := by
  cases parent with
  | none => exact .pure hmethods
  | some c =>
    have hsingle : ∀ y, (Bindings.get? [("super", .cls c)] y).isSome ↔ "super" = y := by
      intro y
      rw [Bindings.get?_single]
      split <;> simp_all
    have hframe : Agree K w none env _ (Eval.newFrame env [("super", .cls c)])
        (Eval.newFrame env [("super", .cls c)]) :=
      agree_newFrame ["super"] (fun y hy => by simp [(hsingle y).1 hy]) fun y u hu => by
        rw [Bindings.get?_single] at hu
        split at hu
        · cases hu
          exact hparent c rfl
        · cases hu
    refine hframe.mono (fun _ hw => hw) fun w' inner _ hpush f hf => ?_
    obtain ⟨rfl, rfl⟩ := hpush
    exact (hmethods f hf).inside hsingle

/-- Methods that stay, and are resolved inside their class, wait for an object. -/
theorem unbound_closeMethods {hasSuper : Bool} {inner : Env} {methods : List FunDecl}
    (hstays : ∀ f ∈ methods, Closure.Stays w
      (if hasSuper then Γ.enter [("super", true)] else Γ)
      ⟨f, inner, f.name.text == initializerName⟩)
    (hmethods : FunDecl.ResolvedList K (Γ.inClass hasSuper) methods) :
    ∀ c ∈ Eval.closeMethods inner methods, c.Unbound K w := by
  intro c hc
  unfold Eval.closeMethods at hc
  rw [List.mem_reverse, List.mem_map] at hc
  obtain ⟨f, hf, rfl⟩ := hc
  have hf' := hstays f hf
  exact ⟨{ (if hasSuper then Γ.enter [("super", true)] else Γ) with
    enclosing := if hasSuper then .derived else .base }, _, ⟨hf'.env, hf'.timely, hf'.fixes⟩,
    hmethods.mem hf⟩

/-- A name that the innermost frame has already is bound to another value. -/
theorem agree_redefine {i : Nat} {rest : Env} {x : String} {v : Value}
    (hsight : Sight w Γ (i :: rest) words) (hbinds : w.store.Binds i x) (hname : w.names i x)
    (hv : v.Ready K w) :
    Agree K w (some i) (i :: rest) (fun w' _ => Sight w' Γ (i :: rest) words) (Eval.define x v)
      (Eval.define x v) := by
  have hagain : w.Before none (w.withStore (w.store.bindIn i x v)) :=
    Forecast.before_bindIn hbinds.lt_size (.inr hbinds)
  refine (agree_define hbinds.lt_size hname (hv.later hagain)).mono (fun _ hw => hw) ?_
  intro w' _ _ hw'
  rw [hw']
  exact hsight.later hagain

/-- A class may be declared where no name that its methods mention is still to come. -/
theorem agree_declareClass (hsight : Sight w Γ env words) {name : Name}
    {superclass : Option Ref} {methods : List FunDecl}
    (hwords : Reference.Among words (Stmt.classDecl name superclass methods).references)
    (hsettled : (Stmt.classDecl name superclass methods).Settled w Γ env)
    (hlate : FunDecl.declaresLateList methods = false)
    (hs : (Stmt.classDecl name superclass methods).Resolved K Γ) :
    Agree K w env.head? env (fun w' _ => Sight w' (Γ.define name.text) env words)
      (Eval.declareClass name superclass methods)
      (Search.declareClass name superclass methods) := by
  obtain ⟨i, rest, rfl⟩ := (hsight.shows _ (.inr not_isPlain_this)).cons
  obtain ⟨-, hparent, hmethods⟩ := hs
  rw [Stmt.references, Reference.Among, List.forall_mem_append] at hwords
  have hi : i < w.store.frames.size := hsight.frames i (.head _)
  have hname : w.names i name.text := hsettled.declared _ (.head _) i rfl
  refine (agree_define (v := .nil) hi hname trivial).bind fun w₁ _ hw₁ hdefined => ?_
  have hsight₁ : Sight w₁ (Γ.define name.text) (i :: rest) words := by
    rw [hdefined]
    exact hsight.define
  have hbinds : w₁.store.Binds i name.text := by
    rw [hdefined]
    exact (Forecast.binds_bindIn hi).2 (.inl ⟨rfl, rfl⟩)
  have hsettled₁ := hsettled.later hsight.toDistinct hw₁
  refine (agree_readSuperclass hsight₁ (fun ref hmem => ?_) hparent).andThen
    fun w₂ parent hw₂ hparent₂ => ?_
  · exact hwords.1 ⟨.read, ref⟩ (by simp [Option.mem_def.1 hmem])
  · refine .ask fun m henv _ => ?_
    rw [henv]
    have hsight₂ := hsight₁.later hw₂
    have hsettled₂ := hsettled₁.later hsight₁.toDistinct hw₂
    have hstays : ∀ f ∈ methods, Closure.Stays w₂ (Γ.define name.text)
        ⟨f, i :: rest, f.name.text == initializerName⟩ := by
      intro f hf
      refine .of_sight hsight₂ (Reference.Among.function hwords.2 hf) (fun x hx => ?_)
        (FunDecl.declaresLateList_mem hlate hf)
      refine hsettled₂.captured x (hx.imp_left fun hmem => ?_)
      exact ((Reference.among_words (FunDecl.referencesList methods)).function hf).mem hmem
    refine (agree_methodEnv hparent₂.2 hstays).andThen fun w₃ inner hw₃ hinner => ?_
    rw [hparent₂.1] at hinner
    refine Agree.andThen agree_freshId fun w₄ id hw₄ _ => ?_
    have hw₂₄ := hw₃.trans hw₄
    have hbinds₄ : w₄.store.Binds i name.text := hw₂₄.kept _ _ (hw₂.kept _ _ hbinds)
    have hname₄ : w₄.names i name.text :=
      (hsettled₂.later hsight₂.toDistinct hw₂₄).declared _ (.head _) i rfl
    have hmethods₃ := unbound_closeMethods hinner hmethods
    have hready : Value.Ready K w₄
        (.cls ⟨id, name.text, parent, Eval.closeMethods inner methods⟩) :=
      Class.Ready.declared (fun c hc => (hparent₂.2 c hc).later hw₂₄)
        fun c hc => (hmethods₃ c hc).later hw₄
    exact agree_redefine (hsight₂.later hw₂₄) hbinds₄ hname₄ hready

/-! ### Operators -/

/-- A prefix operator yields a value that is ready: no function comes out of it. -/
theorem agree_applyUnary (op : UnaryOp) (line : Nat) (v : Value) :
    Agree K w none env (ReadyValues K) (Eval.applyUnary op line v)
      (Eval.applyUnary op line v) := by
  unfold Eval.applyUnary
  split
  · exact .pure trivial
  · exact .pure trivial
  · exact .fail _ _

/-- An operator on numbers yields a value that is ready. -/
theorem agree_numeric (line : Nat) (u v : Value) {apply : Float → Float → Value}
    (h : ∀ a b, (apply a b).Ready K w) :
    Agree K w none env (ReadyValues K) (Eval.numeric line u v apply)
      (Eval.numeric line u v apply) := by
  unfold Eval.numeric
  split
  · exact .pure (h _ _)
  · exact .fail _ _

/-- A sum yields a value that is ready. -/
theorem agree_add (line : Nat) (u v : Value) :
    Agree K w none env (ReadyValues K) (Eval.add line u v) (Eval.add line u v) := by
  unfold Eval.add
  split
  · exact .pure trivial
  · exact .pure trivial
  · exact .fail _ _

/-- An operator between two operands yields a value that is ready. -/
theorem agree_applyBinary (op : BinaryOp) (line : Nat) (u v : Value) :
    Agree K w none env (ReadyValues K) (Eval.applyBinary op line u v)
      (Eval.applyBinary op line u v) := by
  cases op with
  | add => exact agree_add line u v
  | equal => exact .pure trivial
  | notEqual => exact .pure trivial
  | _ => exact agree_numeric line u v fun _ _ => trivial

/-- Whether a value is an object does not depend on how names are found. -/
theorem agree_expectObject (v : Value) (line : Nat) :
    Agree K w none env Whatever (Eval.expectObject v line) (Eval.expectObject v line) := by
  unfold Eval.expectObject
  split
  · exact .pure trivial
  · exact .fail _ _

/-! ### Expressions and statements -/

section Evaluation

variable {fuel : Nat}

/-- An expression agrees with a search at one more level of nesting. -/
theorem agree_evaluate_succ
    (h : AgreeingEvaluation K (Eval.evaluate fuel) (Search.evaluate fuel) (Eval.execute fuel)
      (Search.execute fuel)) (hsight : Sight w Γ env words) {e : Expr}
    (hwords : Reference.Among words e.references) (he : e.Resolved K Γ) :
    Agree K w none env (ReadyValues K) (Eval.evaluate (fuel + 1) e)
      (Search.evaluate (fuel + 1) e) := by
  cases e with
  | literal l => exact .pure (by cases l <;> trivial)
  | group inner => exact h.expression (e := inner) hsight hwords he
  | unary op line operand =>
    exact (h.expression (e := operand) hsight hwords he).bind fun _ v _ _ =>
      agree_applyUnary op line v
  | binary op line left right =>
    rw [Expr.references, Reference.Among, List.forall_mem_append] at hwords
    refine (h.expression hsight hwords.1 he.1).bind fun w₁ u hw₁ _ => ?_
    exact (h.expression (hsight.later hw₁) hwords.2 he.2).bind fun _ v _ _ =>
      agree_applyBinary op line u v
  | logical op line left right =>
    rw [Expr.references, Reference.Among, List.forall_mem_append] at hwords
    refine (h.expression hsight hwords.1 he.1).bind fun w₁ u hw₁ hu => ?_
    split
    · exact .pure hu
    · exact h.expression (hsight.later hw₁) hwords.2 he.2
  | var ref => exact agree_readRef hsight (.inl (hwords _ (.head _))) he
  | assign ref value =>
    rw [Expr.references, Reference.Among, List.forall_mem_cons] at hwords
    refine (h.expression hsight hwords.2 he.1).bind fun w₁ v hw₁ hv => ?_
    refine (agree_writeRef (hsight.later hw₁) (.inl hwords.1) he.2.1 hv).bind
      fun w₂ _ hw₂ _ => ?_
    exact .pure (hv.later hw₂)
  | call callee arguments line =>
    rw [Expr.references, Reference.Among, List.forall_mem_append] at hwords
    refine (h.expression hsight hwords.1 he.1).bind fun w₁ f hw₁ hf => ?_
    refine (agree_evaluateAll h (hsight.later hw₁) hwords.2 he.2).bind fun w₂ vs hw₂ hvs => ?_
    exact agree_callValue h (hf.later hw₂) hvs line
  | get object name =>
    exact (h.expression (e := object) hsight hwords he).bind fun _ v _ hv =>
      agree_getProperty hv name
  | set object name value =>
    rw [Expr.references, Reference.Among, List.forall_mem_append] at hwords
    refine (h.expression hsight hwords.1 he.1).bind fun w₁ o hw₁ _ => ?_
    refine (agree_expectObject o name.line).bind fun w₂ id hw₂ _ => ?_
    refine (h.expression ((hsight.later hw₁).later hw₂) hwords.2 he.2).bind fun w₃ v _ hv => ?_
    exact (agree_setField id name.text hv).bind fun w₄ _ hw₄ _ => .pure (hv.later hw₄)
  | this id line =>
    obtain ⟨d, hk, hd⟩ := he
    have hthis : K (Ref.mk id (thisName line)).id (Γ.distance? (thisName line).text) := by
      rw [show Γ.distance? (thisName line).text = some d from hd]
      exact hk
    exact agree_readRef hsight (.inr not_isPlain_this) hthis
  | super id line method => exact agree_superMethod hsight he

/-- A statement agrees with a search at one more level of nesting. -/
theorem agree_execute_succ
    (h : AgreeingEvaluation K (Eval.evaluate fuel) (Search.evaluate fuel) (Eval.execute fuel)
      (Search.execute fuel)) (hsight : Sight w Γ env words) {s : Stmt}
    (hwords : Reference.Among words s.references) (hsettled : s.Settled w Γ env)
    (hlate : s.declaresLate = false) (hs : s.Resolved K Γ) :
    Agree K w env.head? env (ReadyFlows K (Γ.after s) env words) (Eval.execute (fuel + 1) s)
      (Search.execute (fuel + 1) s) := by
  cases s with
  | expression e =>
    refine (h.expression hsight hwords hs).andThen fun w₁ _ hw₁ _ => ?_
    exact .pure (hsight.later hw₁)
  | print e =>
    refine (h.expression hsight hwords hs).andThen fun w₁ v hw₁ _ => ?_
    refine Agree.andThen (agree_write _ _) fun w₂ _ hw₂ _ => ?_
    refine Agree.andThen (agree_write _ _) fun w₃ _ hw₃ _ => ?_
    exact .pure (((hsight.later hw₁).later hw₂).later hw₃)
  | varDecl name initializer =>
    obtain ⟨i, rest, rfl⟩ := (hsight.shows _ (.inr not_isPlain_this)).cons
    refine (agree_evaluateOption h hsight hwords hs.2).andThen fun w₁ v hw₁ hv => ?_
    have hsight₁ := hsight.later hw₁
    have hi : i < w₁.store.frames.size := hsight₁.frames i (.head _)
    have hname := (hsettled.later hsight.toDistinct hw₁).declared _ (.head _) i rfl
    have hdefine := Forecast.before_bindIn (x := name.text) (v := v) hi (.inl rfl)
    refine (agree_define hi hname (hv.later hdefine)).bind fun w₂ _ _ hdefined => ?_
    rw [hdefined]
    exact .pure hsight₁.define
  | block body =>
    refine .ask fun m henv _ => ?_
    rw [henv]
    refine (agree_block h hsight hwords hsettled hlate hs).mono (fun _ hw => hw.anywhere _) ?_
    intro w₁ flow hw₁ hflow
    cases flow with
    | normal => exact hsight.later hw₁
    | returned v => exact hflow
  | branch condition yes no =>
    cases no with
    | none =>
      rw [Stmt.references, Reference.Among, List.forall_mem_append] at hwords
      obtain ⟨hcondition, hyes, hafter⟩ := hs
      refine (h.expression hsight hwords.1 hcondition).andThen fun w₁ v hw₁ _ => ?_
      have hsight₁ := hsight.later hw₁
      split
      · refine .given fun hholds => ?_
        have hpart := (hsettled.later hsight.toDistinct hw₁).part hholds hsight₁ rfl hafter
          (List.Subset.refl _)
        have hrun := h.statement hsight₁ hwords.2 hpart hlate hyes
        rw [hafter] at hrun
        exact hrun
      · exact .pure hsight₁
    | some no =>
      rw [Stmt.references, Reference.Among, List.forall_mem_append, List.forall_mem_append]
        at hwords
      rw [Stmt.declaresLate, Bool.or_eq_false_iff] at hlate
      obtain ⟨hcondition, ⟨hyes, hafter⟩, hno, hafter'⟩ := hs
      refine (h.expression hsight hwords.1.1 hcondition).andThen fun w₁ v hw₁ _ => ?_
      have hsight₁ := hsight.later hw₁
      have hsettled₁ := hsettled.later hsight.toDistinct hw₁
      refine .given fun hholds => ?_
      split
      · have hpart := hsettled₁.part hholds hsight₁ rfl hafter (List.subset_append_left _ _)
        have hrun := h.statement hsight₁ hwords.1.2 hpart hlate.1 hyes
        rw [hafter] at hrun
        exact hrun
      · have hpart := hsettled₁.part hholds hsight₁ rfl hafter' (List.subset_append_right _ _)
        have hrun := h.statement hsight₁ hwords.2 hpart hlate.2 hno
        rw [hafter'] at hrun
        exact hrun
  | loop condition body =>
    rw [Stmt.references, Reference.Among, List.forall_mem_append] at hwords
    obtain ⟨hcondition, hbody, hafter⟩ := hs
    refine agree_repeatWhile (fun hsight => h.expression hsight hwords.1 hcondition)
      (fun hw hsight' => ?_) fuel (.refl _ w) hsight
    refine .given fun hholds => ?_
    have hpart := (hsettled.later hsight.toDistinct hw).part hholds hsight' rfl hafter
      (List.Subset.refl _)
    have hrun := h.statement hsight' hwords.2 hpart hlate hbody
    rw [hafter] at hrun
    exact hrun
  | funDecl f =>
    refine .ask fun m henv _ => ?_
    rw [henv]
    have hdeclare := (agree_declareFunction hsight hwords hsettled hlate hs.2).bind
      (f := fun _ => pure Flow.normal) (g := fun _ => pure Flow.normal)
      (B := ReadyFlows K (Γ.define f.name.text) env words) fun _ _ _ hsight₁ => .pure hsight₁
    simp only [bind_assoc] at hdeclare
    exact hdeclare
  | result line value =>
    refine (agree_evaluateOption h hsight hwords hs).andThen fun w₁ v hw₁ hv => ?_
    exact .pure hv
  | classDecl name superclass methods =>
    refine (agree_declareClass hsight hwords hsettled hlate hs).bind fun w₁ _ _ hsight₁ => ?_
    exact .pure hsight₁

/-- With any bound, resolved trees that declare nothing late agree with a search. -/
theorem agreeingEvaluation (K : Known) (fuel : Nat) :
    AgreeingEvaluation K (Eval.evaluate fuel) (Search.evaluate fuel) (Eval.execute fuel)
      (Search.execute fuel) := by
  induction fuel with
  | zero => exact ⟨fun _ _ _ => .throw _, fun _ _ _ _ _ => .throw _⟩
  | succ fuel ih =>
    exact ⟨fun hsight hwords he => agree_evaluate_succ ih hsight hwords he,
      fun hsight hwords hsettled hlate hs =>
        agree_execute_succ ih hsight hwords hsettled hlate hs⟩

/-- On the top level there is no scope whose frame could have a name too many. -/
theorem Sight.top (h : 0 < w.store.frames.size) : Sight w .top globalEnv words :=
  ⟨⟨List.nodup_singleton 0, fun _ hi => List.mem_singleton.1 hi ▸ h⟩, fun _ _ => .globals⟩

/-- On the top level every statement is settled: globals are forecast with all names. -/
theorem Stmt.Settled.top (h : w.Holds K) (s : Stmt) : s.Settled w .top globalEnv := by
  refine ⟨fun x _ => ?_, fun x _ i hi => ?_⟩
  · rw [Context.after_top]
    exact .globals
  · cases hi
    exact h.globals x

/-- The statements of a program agree with a search, one after the other. -/
theorem agree_executeProgram (fuel : Nat) {ss : List Stmt}
    (hlate : Stmt.declaresLateList ss = false) (hss : Stmt.ResolvedList K .top ss) :
    Agree K w (some 0) globalEnv Whatever (Eval.executeProgram fuel ss)
      (Search.executeProgram fuel ss) := by
  induction ss generalizing w with
  | nil => exact .pure trivial
  | cons s rest ih =>
    rw [Stmt.declaresLateList, Bool.or_eq_false_iff] at hlate
    refine .given fun hw => ?_
    refine ((agreeingEvaluation K fuel).statement (.top hw.positive)
      (Reference.among_words s.references) (.top hw s) hlate.1 hss.1).bind fun _ _ _ _ => ?_
    have hrest := hss.2
    rw [Context.after_top] at hrest
    exact ih hlate.2 hrest

end Evaluation

end Lox
