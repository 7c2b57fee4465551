import Lox.Proofs.Evaluation.Points
import Lox.Proofs.Heap.Evaluation

/-!
# Well-formed machines at every point of a run

A task that is run at a world passes through each point that it enters: the
machine is well formed at the point, in a later world, and from any world in
which the task of the point has ended, the outer task goes on to a still later
one. So what worlds keep as they grow is kept from the start of a run to each
point inside of it, and from there to its end.
-/

namespace Lox

variable {α β : Type}

/-- A task that leaves the keywords alone. -/
def Task.Plain : Task → Prop
  | .evaluate e => e.Plain
  | .execute s => s.Plain

/-- The task of a point has ended at a world, and what it yields is sound. -/
def Point.EndsAt (w : World) : Point → Prop
  | ⟨fuel, .evaluate e, m⟩ => Lox.EndsAt w Values (Eval.evaluate fuel e m)
  | ⟨fuel, .execute s, m⟩ => Lox.EndsAt w Flows (Eval.execute fuel s m)

/-- What a point ends on is a machine at its world. -/
theorem Point.EndsAt.after {w : World} {p : Point} (h : p.EndsAt w) : p.after.At w := by
  obtain ⟨fuel, task, m⟩ := p
  cases task with
  | evaluate e => exact h.1
  | execute s => exact h.1

/-- The task of a point ends at a later world. -/
theorem Point.endsAt {w : World} {p : Point} (hp : p.task.Plain) (hm : p.machine.At w) :
    ∃ w', w.Before w' ∧ p.EndsAt w' := by
  obtain ⟨fuel, task, m⟩ := p
  cases task with
  | evaluate e => exact (safeEvaluation fuel).expression e w hp m w (.refl w) hm
  | execute s => exact (safeEvaluation fuel).statement s w hp m w (.refl w) hm

/-- What starts at a world passes through a point on its way to an end. -/
def Passes (w : World) (q : Point) (ending : World → Prop) : Prop :=
  q.task.Plain ∧ ∃ w₁, w.Before w₁ ∧ q.machine.At w₁ ∧
    ∀ w₂, w₁.Before w₂ → q.EndsAt w₂ → ∃ w₃, w₂.Before w₃ ∧ ending w₃

namespace Passes

variable {w : World} {q : Point} {ending : World → Prop} {A : World → α → Prop}
  {B : World → β → Prop} {p : Eval α} {f : α → Eval β} {m : Machine}

/-- What is passed through from a later world on is passed through from an earlier one on. -/
theorem earlier {w' : World} (hw : w.Before w') (h : Passes w' q ending) : Passes w q ending := by
  obtain ⟨hplain, w₁, hw₁, hq, hrest⟩ := h
  exact ⟨hplain, w₁, hw.trans hw₁, hq, hrest⟩

/-- A point inside of a point that is passed through. -/
theorem trans {r : Point} (h : Passes w q ending)
    (hr : ∀ w', q.task.Plain → q.machine.At w' → Passes w' r fun w₁ => q.EndsAt w₁) :
    Passes w r ending := by
  obtain ⟨hplain, w₁, hw₁, hq, hrest⟩ := h
  obtain ⟨hplain', v₁, hv₁, hm, hinner⟩ := hr w₁ hplain hq
  refine ⟨hplain', v₁, hw₁.trans hv₁, hm, fun v₂ hv₂ hend => ?_⟩
  obtain ⟨v₃, hv₃, hqend⟩ := hinner v₂ hv₂ hend
  obtain ⟨w₃, hw₃, hending⟩ := hrest v₃ ((hv₁.trans hv₂).trans hv₃) hqend
  exact ⟨w₃, hv₃.trans hw₃, hending⟩

/-- An expression is passed through at its beginning, and it ends as is safe. -/
theorem expression {e : Expr} {fuel : Nat} (he : e.Plain) (hm : m.At w) :
    Passes w ⟨fuel, .evaluate e, m⟩ fun w' => Lox.EndsAt w' Values (Eval.evaluate fuel e m) :=
  ⟨he, w, .refl w, hm, fun w₂ _ hend => ⟨w₂, .refl w₂, hend⟩⟩

/-- A statement is passed through at its beginning, and it ends as is safe. -/
theorem statement {s : Stmt} {fuel : Nat} (hs : s.Plain) (hm : m.At w) :
    Passes w ⟨fuel, .execute s, m⟩ fun w' => Lox.EndsAt w' Flows (Eval.execute fuel s m) :=
  ⟨hs, w, .refl w, hm, fun w₂ _ hend => ⟨w₂, .refl w₂, hend⟩⟩

/-- More follows after what is passed through. -/
theorem bind (h : Passes w q fun w' => EndsAt w' A (p m))
    (hf : ∀ w' a, w.Before w' → A w' a → Safe w' B (f a)) :
    Passes w q fun w' => EndsAt w' B ((p >>= f) m) := by
  obtain ⟨hplain, w₁, hw₁, hq, hrest⟩ := h
  refine ⟨hplain, w₁, hw₁, hq, fun w₂ hw₂ hend => ?_⟩
  obtain ⟨w₃, hw₃, hm, hok⟩ := hrest w₂ hw₂ hend
  rw [bind_apply]
  cases hp : p m with
  | error e m' =>
    rw [hp] at hm
    exact ⟨w₃, hw₃, hm, nofun⟩
  | ok a m' =>
    rw [hp] at hm
    obtain ⟨w₄, hw₄, hlast⟩ :=
      hf w₃ a ((hw₁.trans hw₂).trans hw₃) (hok a m' hp) m' w₃ (.refl w₃) hm
    exact ⟨w₄, hw₃.trans hw₄, hlast⟩

/-- Something is done before what is passed through. -/
theorem andThen (hp : Safe w A p) (hm : m.At w) {a : α} {m' : Machine} (hok : p m = .ok a m')
    (h : ∀ w', w.Before w' → m'.At w' → A w' a → Passes w' q fun w₁ => EndsAt w₁ B (f a m')) :
    Passes w q fun w' => EndsAt w' B ((p >>= f) m) := by
  obtain ⟨w', hw', hm', ha⟩ := hp m w (.refl w) hm
  rw [hok] at hm'
  rw [bind_of_ok hok]
  exact (h w' hw' hm' (ha a m' hok)).earlier hw'

/-- A task that leaves the machine alone, at the start of a step. -/
theorem still (hq : q.task.Plain) (hm : q.machine.At w) (hafter : q.after = q.machine)
    (hp : Safe w A p) : Passes w q fun w' => EndsAt w' A (p q.machine) := by
  refine ⟨hq, w, .refl w, hm, fun w₂ hw₂ hend => ?_⟩
  have hthere := hend.after
  rw [hafter] at hthere
  exact hp _ w₂ hw₂ hthere

/-- A change of what is left behind does not matter if it keeps machines at their worlds. -/
theorem onState {f : Machine → Machine} (h : Passes w q fun w' => EndsAt w' A (p m))
    (hf : ∀ w', w.Before w' → (machineAfter (p m)).At w' → (f (machineAfter (p m))).At w') :
    Passes w q fun w' => EndsAt w' A (Lox.onState f (p m)) := by
  obtain ⟨hplain, w₁, hw₁, hq, hrest⟩ := h
  refine ⟨hplain, w₁, hw₁, hq, fun w₂ hw₂ hend => ?_⟩
  obtain ⟨w₃, hw₃, hlast⟩ := hrest w₂ hw₂ hend
  exact ⟨w₃, hw₃, hlast.onState (hf w₃ ((hw₁.trans hw₂).trans hw₃) hlast.1)⟩

/-- A step in another environment passes through what it passes through there. -/
theorem inEnv {env : Env} (hm : m.At w)
    (h : Passes w q fun w' => EndsAt w' A (p { m with env := env })) :
    Passes w q fun w' => EndsAt w' A (Eval.inEnv env p m) := by
  rw [inEnv_apply]
  exact h.onState fun w' hw hend => ⟨hend.store, hend.wellFormed, hm.env.later hw⟩

/-- A step as one more call passes through what it passes through there. -/
theorem asCall (h : Passes w q fun w' => EndsAt w' A (p { m with calls := m.calls + 1 })) :
    Passes w q fun w' => EndsAt w' A (Eval.asCall p m) := by
  rw [asCall_apply]
  exact h.onState fun w' _ hend => ⟨hend.store, hend.wellFormed, hend.env⟩

end Passes

/-! ### Lists, loops and calls -/

section Lists

variable {w : World} {fuel : Nat} {m m' : Machine}

/-- Arguments are passed through one after another, each at a later world. -/
theorem passes_evaluateAll {before later : List Expr} {e : Expr}
    (hes : ∀ a ∈ before ++ e :: later, a.Plain) (hm : m.At w) {vs : List Value}
    (hbefore : Eval.evaluateAll (Eval.evaluate fuel) before m = .ok vs m') :
    Passes w ⟨fuel, .evaluate e, m'⟩ fun w' => EndsAt w' (fun w vs => ∀ v ∈ vs, v.Sound w)
      (Eval.evaluateAll (Eval.evaluate fuel) (before ++ e :: later) m) := by
  have hev := (safeEvaluation fuel).expression
  induction before generalizing w m vs with
  | nil =>
    cases hbefore
    rw [List.nil_append, List.forall_mem_cons] at hes
    refine (Passes.expression hes.1 hm).bind fun w₁ v _ hv => ?_
    refine (safe_evaluateAll hev hes.2).bind fun w₂ us hw₂ hus => .pure fun w₃ hw₃ => ?_
    exact List.forall_mem_cons.2 ⟨hv.later (hw₂.trans hw₃), fun u hu => (hus u hu).later hw₃⟩
  | cons a before ih =>
    rw [List.cons_append, List.forall_mem_cons] at hes
    obtain ⟨v, m₁, ha, hrest⟩ := bind_eq_ok hbefore
    obtain ⟨us, m₂, hus, hlast⟩ := bind_eq_ok hrest
    cases hlast
    refine Passes.andThen (hev a w hes.1) hm ha fun w₁ _ hm₁ hv => ?_
    refine (ih hes.2 hm₁ hus).bind fun w₂ us hw₂ hus => .pure fun w₃ hw₃ => ?_
    exact List.forall_mem_cons.2
      ⟨Value.Sound.later hv (hw₂.trans hw₃), fun u hu => (hus u hu).later hw₃⟩

/-- Statements are passed through one after another, each at a later world. -/
theorem passes_executeAll {before later : List Stmt} {s : Stmt}
    (hss : ∀ a ∈ before ++ s :: later, a.Plain) (hm : m.At w)
    (hbefore : Eval.executeAll (Eval.execute fuel) before m = .ok .normal m') :
    Passes w ⟨fuel, .execute s, m'⟩ fun w' => EndsAt w' Flows
      (Eval.executeAll (Eval.execute fuel) (before ++ s :: later) m) := by
  have hex := (safeEvaluation fuel).statement
  induction before generalizing w m with
  | nil =>
    cases hbefore
    rw [List.nil_append, List.forall_mem_cons] at hss
    refine (Passes.statement hss.1 hm).bind fun w₁ flow _ hflow => ?_
    cases flow with
    | normal => exact safe_executeAll hex hss.2
    | returned v => exact .flow hflow
  | cons a before ih =>
    rw [List.cons_append, List.forall_mem_cons] at hss
    obtain ⟨flow, m₁, ha, hrest⟩ := bind_eq_ok hbefore
    cases flow with
    | returned v => cases hrest
    | normal =>
      refine Passes.andThen (hex a w hss.1) hm ha fun w₁ _ hm₁ _ => ?_
      exact ih hss.2 hm₁ hrest

/-- Rounds that are over are nothing but steps of the loop. -/
theorem Rounds.repeatWhile_eq {e : Expr} {s : Stmt} {n : Nat} (h : Rounds fuel e s n m m')
    (k : Nat) :
    Eval.repeatWhile (Eval.evaluate fuel e) (Eval.execute fuel s) (n + k) m =
      Eval.repeatWhile (Eval.evaluate fuel e) (Eval.execute fuel s) k m' := by
  induction h generalizing k with
  | none => rw [Nat.zero_add]
  | @more n m m₁ m₂ m₃ v h hc hv hb ih =>
    rw [Nat.add_assoc, Nat.add_comm 1 k, ih, Eval.repeatWhile, bind_of_ok hc]
    rw [if_pos hv, bind_of_ok hb]

/-- Rounds of a loop lead to a later world. -/
theorem Rounds.at {e : Expr} {s : Stmt} (he : e.Plain) (hs : s.Plain) {n : Nat}
    (h : Rounds fuel e s n m m') (hm : m.At w) : ∃ w', w.Before w' ∧ m'.At w' := by
  induction h with
  | none => exact ⟨w, .refl w, hm⟩
  | @more n m m₁ m₂ m₃ v _ hc _ hb ih =>
    obtain ⟨w₁, hw₁, hm₁⟩ := ih hm
    obtain ⟨w₂, hw₂, hm₂, -⟩ := (safeEvaluation fuel).expression e w₁ he m₁ w₁ (.refl w₁) hm₁
    rw [hc] at hm₂
    obtain ⟨w₃, hw₃, hm₃, -⟩ := (safeEvaluation fuel).statement s w₂ hs m₂ w₂ (.refl w₂) hm₂
    rw [hb] at hm₃
    exact ⟨w₃, (hw₁.trans hw₂).trans hw₃, hm₃⟩

/-- The rest of a loop after some rounds. -/
theorem passes_repeatWhile {e : Expr} {s : Stmt} {n : Nat} (he : e.Plain) (hs : s.Plain)
    (hm : m.At w) (hr : Rounds fuel e s n m m') (hn : n < fuel) {q : Point}
    (h : ∀ w' k, m'.At w' → Passes w' q fun w₁ => EndsAt w₁ Flows
      (Eval.repeatWhile (Eval.evaluate fuel e) (Eval.execute fuel s) (k + 1) m')) :
    Passes w q fun w' => EndsAt w' Flows
      (Eval.repeatWhile (Eval.evaluate fuel e) (Eval.execute fuel s) fuel m) := by
  obtain ⟨k, hk⟩ : ∃ k, fuel = n + (k + 1) := ⟨fuel - n - 1, by omega⟩
  have hloop : Eval.repeatWhile (Eval.evaluate fuel e) (Eval.execute fuel s) fuel m =
      Eval.repeatWhile (Eval.evaluate fuel e) (Eval.execute fuel s) (k + 1) m' := by
    rw [← hr.repeatWhile_eq (k + 1), ← hk]
  obtain ⟨w', hw, hm'⟩ := hr.at he hs hm
  rw [hloop]
  exact (h w' k hm').earlier hw

/-- A function passes through the statements of its body. -/
theorem passes_invoke {c : Closure} (hc : c.IsFunction w) {vs : List Value}
    (hvs : ∀ v ∈ vs, v.Sound w) (hm : m.At w) {before later : List Stmt} {s : Stmt}
    (hbody : c.decl.body = before ++ s :: later)
    (hbefore : Eval.executeAll (Eval.execute fuel) before (c.inside vs m) = .ok .normal m') :
    Passes w ⟨fuel, .execute s, m'⟩ fun w' => EndsAt w' Values
      (Eval.invoke (Eval.execute fuel) c vs m) := by
  have hnew := safe_newFrame hc.env (sound_parameters hc.plain.params hvs)
  refine Passes.andThen hnew hm rfl fun w₁ hw₁ hm₁ henv => ?_
  have hinside : Machine.At (c.inside vs m) w₁ := ⟨hm₁.store, hm₁.wellFormed, henv.1⟩
  have hss := hc.plain.body
  rw [hbody] at hss ⊢
  refine Passes.bind (Passes.inEnv hm₁ (passes_executeAll hss hinside hbefore)) ?_
  intro w₂ flow _ hflow
  split
  · refine .ask fun m w₃ _ hm => .orFault fun u hu w₄ hw₄ => ?_
    obtain ⟨i, hi⟩ := Store.get?_of_getAt hu
    rw [← hm.store] at hi
    exact ((hm.wellFormed.frames i).value _ u hi).later hw₄
  · cases flow with
    | normal => exact .value trivial
    | returned v => exact .value hflow

/-- What a callable stands for passes through the statements of the body that it starts. -/
theorem passes_apply {callable : Callable} (hc : callable.Sound w) {vs : List Value}
    (hvs : ∀ v ∈ vs, v.Sound w) (hm : m.At w) {c : Closure} {m₁ : Machine}
    (hstart : callable.start? m = some (c, m₁)) {before later : List Stmt} {s : Stmt}
    (hbody : c.decl.body = before ++ s :: later)
    (hbefore : Eval.executeAll (Eval.execute fuel) before (c.inside vs m₁) = .ok .normal m') :
    Passes w ⟨fuel, .execute s, m'⟩ fun w' => EndsAt w' Values
      (Eval.apply (Eval.execute fuel) callable vs m) := by
  cases callable with
  | native f => cases hstart
  | function d =>
    cases hstart
    exact passes_invoke hc hvs hm hbody hbefore
  | cls cls =>
    rw [Callable.start?] at hstart
    cases hinit : cls.initializer? with
    | none =>
      rw [hinit] at hstart
      cases hstart
    | some method =>
      rw [hinit] at hstart
      cases hstart
      refine Passes.andThen safe_newObject hm rfl fun w₁ hw₁ hm₁ hid => ?_
      have hobject : Value.Sound w₁ (.object m.store.fields.size cls) := ⟨hid, hc.later hw₁⟩
      have hmethod := (hc.later hw₁).findMethod? hinit
      rw [hinit]
      refine Passes.andThen (safe_bindMethod hmethod hobject trivial) hm₁ rfl
        fun w₂ hw₂ hm₂ hbound => ?_
      have hvs₂ : ∀ v ∈ vs, v.Sound w₂ := fun v hv => (hvs v hv).later (hw₁.trans hw₂)
      refine (passes_invoke hbound hvs₂ hm₂ hbody hbefore).bind fun w₃ _ hw₃ _ => ?_
      exact .value (hobject.later (hw₂.trans hw₃))

/-- A call that passes all checks is made. -/
theorem callValue_eq_asCall {execute : Stmt → Eval Flow} {f : Value} {vs : List Value}
    {callable : Callable} (hcallable : f.callable? = some callable)
    (harity : vs.length = callable.arity) (hcalls : m.calls < Machine.maxCalls) (line : Nat) :
    Eval.callValue execute f vs line m = Eval.asCall (Eval.apply execute callable vs) m := by
  unfold Eval.callValue
  rw [hcallable]
  dsimp only
  rw [if_neg (not_not.2 harity), get_bind_apply, if_neg (Nat.not_le.2 hcalls)]

/-- A call passes through the statements of the body that it enters. -/
theorem passes_callValue {f : Value} (hf : f.Sound w) {vs : List Value}
    (hvs : ∀ v ∈ vs, v.Sound w) (hm : m.At w) {callable : Callable}
    (hcallable : f.callable? = some callable) (harity : vs.length = callable.arity)
    (hcalls : m.calls < Machine.maxCalls) {c : Closure} {m₁ : Machine}
    (hstart : callable.start? { m with calls := m.calls + 1 } = some (c, m₁))
    {before later : List Stmt} {s : Stmt} (hbody : c.decl.body = before ++ s :: later)
    (hbefore : Eval.executeAll (Eval.execute fuel) before (c.inside vs m₁) = .ok .normal m')
    (line : Nat) :
    Passes w ⟨fuel, .execute s, m'⟩ fun w' => EndsAt w' Values
      (Eval.callValue (Eval.execute fuel) f vs line m) := by
  have hcalling : Machine.At { m with calls := m.calls + 1 } w :=
    ⟨hm.store, hm.wellFormed, hm.env⟩
  rw [callValue_eq_asCall hcallable harity hcalls]
  exact (passes_apply (hf.callable hcallable) hvs hcalling hstart hbody hbefore).asCall

end Lists

/-! ### The points that a task enters -/

/-- Reading a variable leaves the machine as it is. -/
theorem machineAfter_readRef (ref : Ref) (m : Machine) :
    machineAfter (Eval.readRef ref m) = m := by
  rw [Eval.readRef, get_bind_apply]
  cases m.distances[ref.id]? with
  | some d =>
    dsimp only
    cases m.store.getAt m.env d ref.name.text <;> rfl
  | none =>
    dsimp only
    cases m.store.read globalEnv ref.name <;> rfl

section Enters

variable {w : World} {fuel : Nat} {m m' : Machine}

/-- The points that an expression enters are passed through. -/
theorem passes_of_enters_evaluate {e : Expr} {k : Nat} {q : Point}
    (h : Enters ⟨fuel + 1, .evaluate e, m⟩ k q) (he : e.Plain) (hm : m.At w) :
    Passes w q fun w' => EndsAt w' Values (Eval.evaluate (fuel + 1) e m) := by
  have hsafe := safeEvaluation fuel
  cases h with
  | group => exact .expression he hm
  | @operand _ _ _ _ e =>
    exact (Passes.expression (e := e) he hm).bind fun _ v _ _ => safe_applyUnary _ _ v
  | left =>
    refine (Passes.expression he.1 hm).bind fun w₁ u _ _ => ?_
    exact (hsafe.expression _ w₁ he.2).bind fun _ v _ _ => safe_applyBinary _ _ u v
  | right ha =>
    refine Passes.andThen (hsafe.expression _ w he.1) hm ha fun w₁ _ hm₁ _ => ?_
    exact (Passes.expression he.2 hm₁).bind fun _ v _ _ => safe_applyBinary _ _ _ v
  | first =>
    refine (Passes.expression he.1 hm).bind fun w₁ u _ hu => ?_
    split
    · exact .value hu
    · exact hsafe.expression _ w₁ he.2
  | second ha hopen =>
    refine Passes.andThen (hsafe.expression _ w he.1) hm ha fun w₁ _ hm₁ _ => ?_
    rw [hopen]
    exact .expression he.2 hm₁
  | assigned =>
    refine (Passes.expression he.2 hm).bind fun w₁ v _ hv => ?_
    exact (safe_writeRef he.1 hv).bind fun w₂ _ hw₂ _ => .value (hv.later hw₂)
  | callee =>
    refine (Passes.expression he.1 hm).bind fun w₁ f _ hf => ?_
    refine (safe_evaluateAll hsafe.expression he.2.mem).bind fun w₂ vs hw₂ hvs => ?_
    exact safe_callValue hsafe.statement (hf.later hw₂) hvs _
  | argument hf hvs =>
    have hes := he.2.mem
    refine Passes.andThen (hsafe.expression _ w he.1) hm hf fun w₁ _ hm₁ hf => ?_
    refine (passes_evaluateAll hes hm₁ hvs).bind fun w₂ vs hw₂ hvs => ?_
    exact safe_callValue hsafe.statement (Value.Sound.later hf hw₂) hvs _
  | body hf hvs hcallable harity hcalls hstart hbody hbefore =>
    refine Passes.andThen (hsafe.expression _ w he.1) hm hf fun w₁ _ hm₁ hf => ?_
    refine Passes.andThen (safe_evaluateAll hsafe.expression he.2.mem) hm₁ hvs
      fun w₂ hw₂ hm₂ hvs => ?_
    exact passes_callValue (Value.Sound.later hf hw₂) hvs hm₂ hcallable harity hcalls hstart hbody
      hbefore _
  | @object _ _ e =>
    exact (Passes.expression (e := e) he hm).bind fun _ v _ hv => safe_getProperty hv _
  | target =>
    refine (Passes.expression he.1 hm).bind fun w₁ o _ _ => ?_
    refine (safe_expectObject o _).bind fun w₂ id _ _ => ?_
    refine (hsafe.expression _ w₂ he.2).bind fun w₃ v _ hv => ?_
    exact (safe_setField id _ hv).bind fun w₄ _ hw₄ _ => .value (hv.later hw₄)
  | field ho =>
    refine Passes.andThen (hsafe.expression _ w he.1) hm ho fun w₁ _ hm₁ _ => ?_
    refine (Passes.expression he.2 hm₁).bind fun w₂ v _ hv => ?_
    exact (safe_setField _ _ hv).bind fun w₃ _ hw₃ _ => .value (hv.later hw₃)

/-- The points that a statement enters are passed through. -/
theorem passes_of_enters_execute {s : Stmt} {k : Nat} {q : Point}
    (h : Enters ⟨fuel + 1, .execute s, m⟩ k q) (hs : s.Plain) (hm : m.At w) :
    Passes w q fun w' => EndsAt w' Flows (Eval.execute (fuel + 1) s m) := by
  have hsafe := safeEvaluation fuel
  cases h with
  | expression =>
    exact (Passes.expression hs hm).bind fun _ _ _ _ => .flow trivial
  | print =>
    refine (Passes.expression hs hm).bind fun _ v _ _ => ?_
    refine (safe_write _ _).bind fun _ _ _ _ => ?_
    exact (safe_write _ _).bind fun _ _ _ _ => .flow trivial
  | initializer =>
    refine (Passes.expression hs.2 hm).bind fun _ v _ hv => ?_
    exact (safe_define hs.1 hv).bind fun _ _ _ _ => .flow trivial
  | block hbefore =>
    have hempty : Bindings.Sound w [] := ⟨nofun, nofun, nofun⟩
    change Passes w _ fun w' => EndsAt w' Flows ((Eval.newFrame m.env [] >>= fun env =>
      Eval.inEnv env (Eval.executeAll (Eval.execute fuel) _)) m)
    refine Passes.andThen (safe_newFrame hm.env hempty) hm rfl fun w₁ _ hm₁ henv => ?_
    refine Passes.inEnv hm₁ (passes_executeAll (Stmt.PlainList.mem hs) ?_ hbefore)
    exact ⟨hm₁.store, hm₁.wellFormed, henv.1⟩
  | @condition _ _ e yes no =>
    cases no with
    | none =>
      refine (Passes.expression hs.1 hm).bind fun w₁ v _ _ => ?_
      split
      · exact hsafe.statement yes w₁ hs.2
      · exact .flow trivial
    | some no =>
      refine (Passes.expression hs.1 hm).bind fun w₁ v _ _ => ?_
      split
      · exact hsafe.statement yes w₁ hs.2.1
      · exact hsafe.statement no w₁ hs.2.2
  | @yes _ _ _ e yes no _ he hv =>
    have hparts : e.Plain ∧ yes.Plain := by
      cases no with
      | none => exact hs
      | some no => exact ⟨hs.1, hs.2.1⟩
    refine Passes.andThen (hsafe.expression e w hparts.1) hm he fun w₁ _ hm₁ _ => ?_
    rw [if_pos hv]
    exact .statement hparts.2 hm₁
  | no he hv =>
    refine Passes.andThen (hsafe.expression _ w hs.1) hm he fun w₁ _ hm₁ _ => ?_
    rw [hv]
    exact .statement hs.2.2 hm₁
  | again hr hn =>
    refine passes_repeatWhile hs.1 hs.2 hm hr hn fun w₁ k hm₁ => ?_
    refine (Passes.expression hs.1 hm₁).bind fun w₂ v _ _ => ?_
    split
    · refine (hsafe.statement _ w₂ hs.2).bind fun w₃ flow _ hflow => ?_
      cases flow with
      | normal =>
        exact safe_repeatWhile (fun w => hsafe.expression _ w hs.1)
          (fun w => hsafe.statement _ w hs.2) k
      | returned v => exact .flow hflow
    · exact .flow trivial
  | round hr hn he hv =>
    refine passes_repeatWhile hs.1 hs.2 hm hr hn fun w₁ k hm₁ => ?_
    refine Passes.andThen (hsafe.expression _ w₁ hs.1) hm₁ he fun w₂ _ hm₂ _ => ?_
    rw [if_pos hv]
    refine (Passes.statement hs.2 hm₂).bind fun w₃ flow _ hflow => ?_
    cases flow with
    | normal =>
      exact safe_repeatWhile (fun w => hsafe.expression _ w hs.1)
        (fun w => hsafe.statement _ w hs.2) k
    | returned v => exact .flow hflow
  | result =>
    refine (Passes.expression hs hm).bind fun w₁ v _ hv => ?_
    have hflow : Flow.Sound w₁ (.returned v) := hv
    exact .flow hflow
  | @superclass _ _ name ref methods =>
    refine Passes.bind (A := Anything) (p := Eval.declareClass name (some ref) methods) ?_
      fun _ _ _ _ => .flow trivial
    refine Passes.andThen (safe_define (v := .nil) hs.1 trivial) hm rfl fun w₁ _ hm₁ _ => ?_
    refine Passes.still trivial hm₁ ?_ (safe_declareParent hs.1 (some ref) hs.2.mem)
    cases fuel with
    | zero => rfl
    | succ fuel => exact machineAfter_readRef ref _

/-- The points that a task enters are passed through. -/
theorem Enters.passes {p q : Point} {k : Nat} (h : Enters p k q) (hp : p.task.Plain)
    (hm : p.machine.At w) : Passes w q fun w' => p.EndsAt w' := by
  obtain ⟨fuel, task, m⟩ := p
  cases fuel with
  | zero => cases h
  | succ fuel =>
    cases task with
    | evaluate e => exact passes_of_enters_evaluate h hp hm
    | execute s => exact passes_of_enters_execute h hp hm

/-- All points inside of a task are passed through. -/
theorem Inside.passes {p q : Point} {n : Nat} (h : Inside n p q) (hp : p.task.Plain)
    (hm : p.machine.At w) : Passes w q fun w' => p.EndsAt w' := by
  induction h with
  | here => exact ⟨hp, w, .refl w, hm, fun w₂ _ hend => ⟨w₂, .refl w₂, hend⟩⟩
  | deeper _ hr ih => exact (ih hp hm).trans fun w' hq hm' => hr.passes hq hm'

end Enters

end Lox
